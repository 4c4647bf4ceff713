import Mathlib.Data.List.Infix

/-!
# Walks in an edge-labelled tree

A tree given by a partial child function: `step n a` is the child of `n` under
the label `a`. A path of labels leads from the root to at most one node
(`walk`), and in a tree (`TreeShaped`) every node is reached by one path only,
except for the nodes of a set `shared`, which are leaves and may hang in many
places.

`walk_edit` is the frame rule: changing one edge, to a leaf or to nothing,
changes the nodes at and below this edge and no others.
-/

namespace Walk

universe u v

variable {ι : Type u} {α : Type v}

/-- The node a path of labels leads to from `r`. -/
def walk (step : ι → α → Option ι) (r : ι) (path : List α) : Option ι :=
  path.foldlM step r

@[simp] theorem walk_nil (step : ι → α → Option ι) (r : ι) : walk step r [] = some r := rfl

theorem walk_append (step : ι → α → Option ι) (r : ι) (p q : List α) :
    walk step r (p ++ q) = (walk step r p).bind fun n => walk step n q := by
  simp [walk, List.foldlM_append]

theorem walk_snoc (step : ι → α → Option ι) (r : ι) (p : List α) (a : α) :
    walk step r (p ++ [a]) = (walk step r p).bind fun n => step n a := by
  rw [walk_append]
  simp [walk]

/-- The last step of a walk that arrives. -/
theorem walk_snoc_eq_some {step : ι → α → Option ι} {r c : ι} {p : List α} {a : α} :
    walk step r (p ++ [a]) = some c ↔ ∃ n, walk step r p = some n ∧ step n a = some c := by
  rw [walk_snoc, Option.bind_eq_some_iff]

/-- Two child functions that agree reach the same nodes. -/
theorem walk_congr {step step' : ι → α → Option ι} (h : ∀ n a, step' n a = step n a)
    (r : ι) (p : List α) : walk step' r p = walk step r p := by
  have hEq : step' = step := by
    funext n a
    exact h n a
  rw [hEq]

/-- Every node but the shared leaves hangs under one edge, the root under none. -/
structure TreeShaped (step : ι → α → Option ι) (r : ι) (shared : ι → Prop) : Prop where
  unique : ∀ {n n' a a' c}, step n a = some c → step n' a' = some c → ¬ shared c → n = n' ∧ a = a'
  root : ∀ {n a}, step n a ≠ some r
  leaf : ∀ {c a}, shared c → step c a = none

/-- **A node that is not shared is reached by one path.** -/
theorem walk_injective {step : ι → α → Option ι} {r : ι} {shared : ι → Prop}
    (hTree : TreeShaped step r shared) {p q : List α} {c : ι}
    (hp : walk step r p = some c) (hq : walk step r q = some c) (hc : ¬ shared c) : p = q := by
  induction p using List.reverseRecOn generalizing q c with
  | nil =>
    obtain rfl : r = c := by simpa using hp
    rcases List.eq_nil_or_concat q with rfl | ⟨q', b, rfl⟩
    · rfl
    · rw [List.concat_eq_append] at hq
      obtain ⟨n, _, hn⟩ := walk_snoc_eq_some.mp hq
      exact absurd hn hTree.root
  | append_singleton p' a ih =>
    obtain ⟨n, hn, hna⟩ := walk_snoc_eq_some.mp hp
    rcases List.eq_nil_or_concat q with rfl | ⟨q', b, rfl⟩
    · obtain rfl : r = c := by simpa using hq
      exact absurd hna hTree.root
    · rw [List.concat_eq_append] at hq ⊢
      obtain ⟨n', hn', hnb⟩ := walk_snoc_eq_some.mp hq
      obtain ⟨rfl, rfl⟩ := hTree.unique hna hnb hc
      have hns : ¬ shared n := fun hs => by simp [hTree.leaf hs] at hna
      rw [ih hn hn' hns]

section Edit

variable {step step' : ι → α → Option ι} {r n : ι} {shared : ι → Prop} {p : List α} {a : α}

/-- **Frame rule.** When the edge `a` of the node at `p` is changed, and the other
edges of the nodes that do not lie below it are kept, the walks that do not
take this edge arrive where they did. -/
theorem walk_edit_of_not_prefix (hTree : TreeShaped step r shared)
    (hn : walk step r p = some n) (hns : ¬ shared n)
    (hSame : ∀ q m b, ¬ p ++ [a] <+: q → walk step r q = some m → (m = n → b ≠ a) →
      step' m b = step m b)
    {q : List α} (hq : ¬ p ++ [a] <+: q) : walk step' r q = walk step r q := by
  induction q using List.reverseRecOn with
  | nil => rfl
  | append_singleton q' b ih =>
    have hq' : ¬ p ++ [a] <+: q' := fun h => hq (h.trans (List.prefix_append _ _))
    rw [walk_snoc, walk_snoc, ih hq']
    rcases hm : walk step r q' with _ | m
    · rfl
    · refine hSame q' m b hq' hm ?_
      rintro rfl rfl
      have hEq : q' = p := walk_injective hTree hm hn hns
      exact hq (by rw [hEq])

/-- The changed edge leads to its new child. -/
theorem walk_edit_self (hTree : TreeShaped step r shared)
    (hn : walk step r p = some n) (hns : ¬ shared n)
    (hSame : ∀ q m b, ¬ p ++ [a] <+: q → walk step r q = some m → (m = n → b ≠ a) →
      step' m b = step m b) :
    walk step' r (p ++ [a]) = step' n a := by
  have hp : ¬ p ++ [a] <+: p := fun h => by
    have hLen := h.length_le
    simp only [List.length_append, List.length_singleton] at hLen
    omega
  rw [walk_snoc, walk_edit_of_not_prefix hTree hn hns hSame hp, hn]
  rfl

/-- Below a changed edge that leads to a leaf or nowhere there is nothing. -/
theorem walk_edit_below (hTree : TreeShaped step r shared)
    (hn : walk step r p = some n) (hns : ¬ shared n)
    (hSame : ∀ q m b, ¬ p ++ [a] <+: q → walk step r q = some m → (m = n → b ≠ a) →
      step' m b = step m b)
    (hLeaf : ∀ c, step' n a = some c → ∀ b, step' c b = none)
    {q : List α} (hq : p ++ [a] <+: q) (hne : q ≠ p ++ [a]) : walk step' r q = none := by
  obtain ⟨rest, rfl⟩ := hq
  rcases rest with _ | ⟨b, rest⟩
  · simp at hne
  · rw [walk_append, walk_edit_self hTree hn hns hSame]
    rcases hc : step' n a with _ | c
    · rfl
    · have hStep : step' c b = none := hLeaf c hc b
      simp [walk, List.foldlM_cons, hStep]

end Edit

end Walk
