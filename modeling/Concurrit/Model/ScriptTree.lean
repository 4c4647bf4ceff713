import Mathlib.Data.List.Nodup
import Mathlib.Algebra.Order.BigOperators.Group.List
import Mathlib.Algebra.Order.Ring.Nat
import Concurrit.Model.Coherence

/-!
# Concurrit — finite scripts

A finite deterministic script is a tree of operations. Its paths from the root to
a leaf are the schedules of the script: `leaves` lists each of them once.
-/

namespace Concurrit.Model

/-- A finite deterministic script. -/
inductive ScriptTree where
  | finish
  | choice (staticInfo : StaticId) (zero one : ScriptTree)
  | conditional (value : Bool) (rest : ScriptTree)
  | runThrough (rest : ScriptTree)
  | runUntil (rest : ScriptTree)
  | forallThread (scope : ThreadVarPtrSet) (rest : Thread → ScriptTree)

namespace ScriptTree

/-- The first operation of the script. -/
def op : ScriptTree → Op
  | .finish => .finish
  | .choice s _ _ => .choice s
  | .conditional v _ => .conditional v
  | .runThrough _ => .runThrough
  | .runUntil _ => .runUntil
  | .forallThread scope _ => .forallThread scope

/-- What is left of the script after an answer. -/
def next : ScriptTree → Answer → ScriptTree
  | .choice _ zero one, .branch b => if b then one else zero
  | .conditional _ rest, .unit => rest
  | .runThrough rest, .unit => rest
  | .runUntil rest, .unit => rest
  | .forallThread scope rest, .thread t => if t ∈ scope.threads then rest t else .finish
  | _, _ => .finish

/-- The script of a tree. -/
def script (tree : ScriptTree) : Script := fun history => (history.foldl next tree).op

/-- Every scope of the script is of this kind. -/
def Scopes (P : ThreadVarPtrSet → Prop) : ScriptTree → Prop
  | .finish => True
  | .choice _ zero one => zero.Scopes P ∧ one.Scopes P
  | .conditional _ rest => rest.Scopes P
  | .runThrough rest => rest.Scopes P
  | .runUntil rest => rest.Scopes P
  | .forallThread scope rest => P scope ∧ ∀ t ∈ scope.threads, (rest t).Scopes P

/-- The scopes of the script bind their variables to different threads. -/
abbrev Proper : ScriptTree → Prop := Scopes ThreadVarPtrSet.Distinct

/-- The paths from the root to a leaf. -/
def leaves : ScriptTree → List (List Answer)
  | .finish => [[]]
  | .choice _ zero one =>
    zero.leaves.map (.branch false :: ·) ++ one.leaves.map (.branch true :: ·)
  | .conditional _ rest => rest.leaves.map (.unit :: ·)
  | .runThrough rest => rest.leaves.map (.unit :: ·)
  | .runUntil rest => rest.leaves.map (.unit :: ·)
  | .forallThread scope rest =>
    scope.threads.flatMap fun t => (rest t).leaves.map (.thread t :: ·)

variable {tree : ScriptTree} {P : ThreadVarPtrSet → Prop} {a : Answer} {history leaf : List Answer}

/-- A property of all scopes of a tree holds of those below an answer. -/
theorem Scopes.next (hScopes : tree.Scopes P) (a : Answer) : (tree.next a).Scopes P := by
  cases tree <;> cases a <;> try exact trivial
  case choice.branch s zero one b =>
    cases b
    · exact hScopes.1
    · exact hScopes.2
  case conditional.unit => exact hScopes
  case runThrough.unit => exact hScopes
  case runUntil.unit => exact hScopes
  case forallThread.thread scope rest t =>
    show (if t ∈ scope.threads then rest t else .finish).Scopes P
    split
    · rename_i ht
      exact hScopes.2 t ht
    · exact trivial

/-- The selections of the script range over its scopes. -/
theorem Scopes.of_script {scope : ThreadVarPtrSet} (hScopes : tree.Scopes P)
    (hOp : tree.script history = .forallThread scope) : P scope := by
  induction history generalizing tree with
  | nil =>
    cases tree with
    | forallThread scope' rest =>
      obtain rfl := Op.forallThread.inj hOp
      exact hScopes.1
    | _ => cases hOp
  | cons a rest ih => exact ih (hScopes.next a) hOp

/-- **The script of a proper tree is plain.** -/
theorem plain_script (hProper : tree.Proper) : Script.Plain tree.script := by
  intro history
  rcases hOp : tree.script history with _ | _ | _ | _ | _ | scope | scope | _ <;> try exact trivial
  · exact hProper.of_script hOp
  · unfold script at hOp
    cases hTree : history.foldl ScriptTree.next tree <;> rw [hTree] at hOp <;> cases hOp

/-- A finite script assumes nothing. -/
theorem script_ne_assumeFails (history : List Answer) : tree.script history ≠ .assumeFails := by
  unfold script
  cases history.foldl next tree <;> simp [op]

/-- An admissible path of a tree is an answer and an admissible path below it. -/
theorem admissible_cons : Admissible tree.script (a :: history) ↔
    tree.op.Admits a ∧ Admissible (tree.next a).script history := by
  constructor
  · intro hA
    exact ⟨hA 0 a rfl, fun k b hb => hA (k + 1) b hb⟩
  · rintro ⟨ha, hA⟩ k b hb
    rcases k with _ | k
    · obtain rfl : a = b := Option.some.inj hb
      exact ha
    · exact hA k b hb

theorem leaf_cons : Leaf tree.script (a :: history) ↔
    tree.op.Admits a ∧ Leaf (tree.next a).script history := by
  constructor
  · rintro ⟨hA, hEnds⟩
    exact ⟨(admissible_cons.mp hA).1, (admissible_cons.mp hA).2, hEnds⟩
  · rintro ⟨ha, hA, hEnds⟩
    exact ⟨admissible_cons.mpr ⟨ha, hA⟩, hEnds⟩

/-- The empty path is a leaf of the tree that is at its end. -/
theorem leaf_nil : Leaf tree.script [] ↔ tree = .finish := by
  constructor
  · rintro ⟨_, hEnds⟩
    cases tree with
    | finish => rfl
    | _ => simp [Op.Ends, script, op] at hEnds
  · rintro rfl
    exact ⟨admissible_nil _, Or.inl rfl⟩

/-- What lies below an inner node with one answer. -/
private theorem leaf_unit {rest : ScriptTree} (hAdmits : ∀ a, tree.op.Admits a ↔ a = .unit)
    (hNext : tree.next .unit = rest) (hGoes : tree ≠ .finish)
    (ih : ∀ leaf, leaf ∈ rest.leaves ↔ Leaf rest.script leaf) :
    leaf ∈ rest.leaves.map (.unit :: ·) ↔ Leaf tree.script leaf := by
  rw [List.mem_map]
  rcases leaf with _ | ⟨a, leaf⟩
  · rw [leaf_nil]
    simp [hGoes]
  · rw [leaf_cons, hAdmits]
    constructor
    · rintro ⟨leaf', hMem, hEq⟩
      obtain ⟨rfl, rfl⟩ := List.cons.inj hEq
      rw [hNext]
      exact ⟨rfl, (ih _).mp hMem⟩
    · rintro ⟨rfl, hLeaf⟩
      rw [hNext] at hLeaf
      exact ⟨leaf, (ih leaf).mpr hLeaf, rfl⟩

/-- **The leaves of the tree are the histories at which the script ends.** -/
theorem mem_leaves_iff : leaf ∈ tree.leaves ↔ Leaf tree.script leaf := by
  induction tree generalizing leaf with
  | finish =>
    rcases leaf with _ | ⟨a, leaf⟩
    · simp [leaves, leaf_nil]
    · rw [leaf_cons]
      simp [leaves, op, Op.Admits]
  | conditional v rest ih =>
    exact leaf_unit (fun a => by cases a <;> simp [op, Op.Admits]) rfl (by simp) fun _ => ih
  | runThrough rest ih =>
    exact leaf_unit (fun a => by cases a <;> simp [op, Op.Admits]) rfl (by simp) fun _ => ih
  | runUntil rest ih =>
    exact leaf_unit (fun a => by cases a <;> simp [op, Op.Admits]) rfl (by simp) fun _ => ih
  | choice s zero one ihZero ihOne =>
    rcases leaf with _ | ⟨a, leaf⟩
    · simp [leaves, leaf_nil]
    · rw [leaf_cons]
      cases a with
      | branch b =>
        cases b
        · simp [leaves, op, Op.Admits, next, ihZero]
        · simp [leaves, op, Op.Admits, next, ihOne]
      | unit => simp [leaves, op, Op.Admits]
      | thread => simp [leaves, op, Op.Admits]
  | forallThread scope rest ih =>
    rcases leaf with _ | ⟨a, leaf⟩
    · simp [leaves, leaf_nil]
    · rw [leaf_cons]
      cases a with
      | branch => simp [leaves, op, Op.Admits]
      | unit => simp [leaves, op, Op.Admits]
      | thread t =>
        by_cases ht : t ∈ scope.threads
        · simp [leaves, op, Op.Admits, next, ht, ih]
        · simp [leaves, op, Op.Admits, ht]

private theorem nodup_map_cons {leaves : List (List Answer)} (a : Answer) (h : leaves.Nodup) :
    (leaves.map (a :: ·)).Nodup :=
  h.map fun _ _ hEq => (List.cons.inj hEq).2

private theorem disjoint_map_cons {xs ys : List (List Answer)} {a b : Answer} (hab : a ≠ b) :
    List.Disjoint (xs.map (a :: ·)) (ys.map (b :: ·)) := by
  intro leaf hx hy
  obtain ⟨x, _, rfl⟩ := List.mem_map.mp hx
  obtain ⟨y, _, hEq⟩ := List.mem_map.mp hy
  exact hab (List.cons.inj hEq).1.symm

/-- **No leaf is listed twice.** -/
theorem leaves_nodup (hProper : tree.Proper) : tree.leaves.Nodup := by
  induction tree with
  | finish => exact List.nodup_singleton _
  | choice s zero one ihZero ihOne =>
    refine List.Nodup.append (nodup_map_cons _ (ihZero hProper.1)) (nodup_map_cons _ (ihOne hProper.2)) ?_
    exact disjoint_map_cons (by simp)
  | conditional v rest ih => exact nodup_map_cons _ (ih hProper)
  | runThrough rest ih => exact nodup_map_cons _ (ih hProper)
  | runUntil rest ih => exact nodup_map_cons _ (ih hProper)
  | forallThread scope rest ih =>
    refine List.nodup_flatMap.mpr ⟨fun t ht => nodup_map_cons _ (ih t (hProper.2 t ht)), ?_⟩
    refine hProper.1.threads.imp fun {t t'} hne => ?_
    exact disjoint_map_cons (by simpa using hne)

/-- A proper tree has a leaf. -/
theorem leaves_ne_nil (hProper : tree.Proper) : tree.leaves ≠ [] := by
  induction tree with
  | finish => exact List.cons_ne_nil _ _
  | choice s zero one ihZero _ => simp [leaves, ihZero hProper.1]
  | conditional v rest ih => simp [leaves, ih hProper]
  | runThrough rest ih => simp [leaves, ih hProper]
  | runUntil rest ih => simp [leaves, ih hProper]
  | forallThread scope rest ih =>
    intro hNil
    obtain ⟨⟨v, t⟩, hMem⟩ := List.exists_mem_of_ne_nil _ hProper.1.nonempty
    have ht : t ∈ scope.threads := ThreadVarPtrSet.mem_threads.mpr ⟨v, hMem⟩
    have hEmpty := List.flatMap_eq_nil_iff.mp hNil t ht
    exact ih t (hProper.2 t ht) (List.map_eq_nil_iff.mp hEmpty)

/-- **Every history of the script can be completed.** -/
theorem exists_leaf (hProper : tree.Proper) (hA : Admissible tree.script history) :
    ∃ leaf, Leaf tree.script leaf ∧ history <+: leaf := by
  induction history generalizing tree with
  | nil =>
    obtain ⟨leaf, hMem⟩ := List.exists_mem_of_ne_nil _ (leaves_ne_nil hProper)
    exact ⟨leaf, mem_leaves_iff.mp hMem, List.nil_prefix⟩
  | cons a rest ih =>
    obtain ⟨ha, hRest⟩ := admissible_cons.mp hA
    obtain ⟨leaf, hLeaf, hPre⟩ := ih (hProper.next a) hRest
    exact ⟨a :: leaf, leaf_cons.mpr ⟨ha, hLeaf⟩, List.cons_prefix_cons.mpr ⟨rfl, hPre⟩⟩

/-- No history of the script is longer than this. -/
def depth (tree : ScriptTree) : Nat := (tree.leaves.map List.length).sum

theorem length_le_depth (hProper : tree.Proper) (hA : Admissible tree.script history) :
    history.length ≤ tree.depth := by
  obtain ⟨leaf, hLeaf, hPre⟩ := exists_leaf hProper hA
  refine Nat.le_trans hPre.length_le ?_
  exact List.single_le_sum (fun _ _ => Nat.zero_le _) _
    (List.mem_map.mpr ⟨leaf, mem_leaves_iff.mpr hLeaf, rfl⟩)

end ScriptTree

end Concurrit.Model
