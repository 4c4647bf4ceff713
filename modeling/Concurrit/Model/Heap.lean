import Mathlib.Logic.Relation
import Concurrit.Model.Tree

/-!
# Concurrit — well-formed heaps

The heap of execution-tree nodes is a tree: a slot that does not hold the end
node holds a node that was allocated after its parent and whose parent pointer
leads back (`WellFormed`). Every operation on the tree is a composition of five
edits (a new node, a change of a node's own data, a new link, a slot that is
emptied or shortcut to the end node, a deleted subtree), and each of them keeps
the heap well formed.
-/

namespace Concurrit.Model

-- ---------------------------------------------------------------------------
-- Slots
-- ---------------------------------------------------------------------------

/-- Slot `i` of node `n` holds `c`. -/
def Slot (h : Heap) (n i c : Nat) : Prop :=
  ∃ nd, h n = some nd ∧ nd.children[i]? = some (some c)

/-- `c` is a child of `n` other than the end node: what `delete n` recurses into. -/
def ChildOf (h : Heap) (n c : Nat) : Prop := c ≠ ENDNODE ∧ ∃ i, Slot h n i c

/-- `c` lies in the subtree of `n`. -/
def Desc (h : Heap) : Nat → Nat → Prop := Relation.ReflTransGen (ChildOf h)

/-- The number of children a node of this kind has. -/
def NodeKind.numChildren : NodeKind → Nat
  | .choice _ => 2
  | .forallThread _ idxToThreadMap _ => idxToThreadMap.length
  | _ => 1

structure WellFormed (h : Heap) (next : Nat) : Prop where
  next_gt  : ENDNODE < next
  fresh    : ∀ n, next ≤ n → h n = none
  root     : ∃ nd, h ROOTNODE = some nd ∧ nd.kind = .root
  endNode  : ∃ p, h ENDNODE = some ⟨.endNode, p, [some ENDNODE], true⟩
  shape    : ∀ {n nd}, h n = some nd → nd.children.length = nd.kind.numChildren
  child    : ∀ {n i c}, Slot h n i c → c ≠ ENDNODE →
               n < c ∧ ∃ cd, h c = some cd ∧ cd.parent = some n
  index    : ∀ {n i j c}, Slot h n i c → Slot h n j c → c ≠ ENDNODE → i = j

namespace WellFormed

variable {h : Heap} {next n n' c i j : Nat}

/-- **A node hangs in one slot only.** -/
theorem slot_unique (wf : WellFormed h next) (hi : Slot h n i c) (hj : Slot h n' j c)
    (hc : c ≠ ENDNODE) : n = n' ∧ i = j := by
  obtain ⟨_, cd, hcd, hp⟩ := wf.child hi hc
  obtain ⟨_, cd', hcd', hp'⟩ := wf.child hj hc
  rw [hcd] at hcd'
  obtain rfl := Option.some.inj hcd'
  rw [hp] at hp'
  obtain rfl := Option.some.inj hp'
  exact ⟨rfl, wf.index hi hj hc⟩

theorem slot_ne_root (wf : WellFormed h next) (hi : Slot h n i c) : c ≠ ROOTNODE := by
  rintro rfl
  have hlt := (wf.child hi (by decide)).1
  exact absurd hlt (Nat.not_lt_zero _)

/-- A child was allocated, so its address is below the next one. -/
theorem slot_lt_next (wf : WellFormed h next) (hi : Slot h n i c) : c < next := by
  by_cases hc : c = ENDNODE
  · rw [hc]
    exact wf.next_gt
  · obtain ⟨_, cd, hcd, _⟩ := wf.child hi hc
    by_contra hge
    rw [wf.fresh c (by omega)] at hcd
    cases hcd

theorem lt_next (wf : WellFormed h next) {nd : Node} (hn : h n = some nd) : n < next := by
  by_contra hge
  rw [wf.fresh n (by omega)] at hn
  cases hn

/-- The only child of the end node is the end node. -/
theorem slot_endNode (wf : WellFormed h next) (hi : Slot h ENDNODE i c) : c = ENDNODE := by
  obtain ⟨p, hp⟩ := wf.endNode
  obtain ⟨nd, hnd, hc⟩ := hi
  rw [hp] at hnd
  obtain rfl := Option.some.inj hnd
  rcases i with _ | i
  · simpa using hc.symm
  · simp at hc

/-- Subtrees are allocated after their roots. -/
theorem desc_le (wf : WellFormed h next) (hd : Desc h n c) : n ≤ c := by
  induction hd with
  | refl => exact Nat.le_refl _
  | tail _ hStep ih =>
    obtain ⟨hne, i, hSlot⟩ := hStep
    exact Nat.le_of_lt (Nat.lt_of_le_of_lt ih (wf.child hSlot hne).1)

/-- A proper descendant hangs in the subtree as well. -/
theorem desc_parent (wf : WellFormed h next) (hd : Desc h n c) (hne : c ≠ n)
    {p : Nat} (hSlot : Slot h p i c) : Desc h n p := by
  cases hd with
  | refl => exact absurd rfl hne
  | tail hd' hStep =>
    obtain ⟨hcEnd, j, hj⟩ := hStep
    obtain ⟨rfl, _⟩ := wf.slot_unique hSlot hj hcEnd
    exact hd'

end WellFormed

-- ---------------------------------------------------------------------------
-- Edits
-- ---------------------------------------------------------------------------

section Edits

open Function (update)

variable {h h' : Heap} {next n p c i : Nat} {nd nd' pd cd : Node}

/-- A new node has no children yet. -/
def NoChildren (nd : Node) : Prop := ∀ i c : Nat, nd.children[i]? ≠ some (some c)

theorem noChildren_new (kind : NodeKind) : NoChildren (Node.new kind) := by
  intro i c hc
  simp only [Node.new, List.getElem?_replicate] at hc
  split at hc <;> simp at hc

/-- **A new node** at the end of the memory hangs nowhere and has no children, so nothing
else is concerned. -/
theorem WellFormed.alloc (wf : WellFormed h next) (hKids : NoChildren nd)
    (hShape : nd.children.length = nd.kind.numChildren) :
    WellFormed (update h next (some nd)) (next + 1) := by
  have hEnd : ENDNODE < next := wf.next_gt
  have hRoot : ROOTNODE < next := Nat.lt_trans (by decide) hEnd
  -- a slot of the new node is empty
  have hSlot : ∀ {m j d}, Slot (update h next (some nd)) m j d → Slot h m j d := by
    rintro m j d ⟨md, hmd, hd⟩
    by_cases hm : m = next
    · subst hm
      rw [Function.update_self] at hmd
      obtain rfl := Option.some.inj hmd
      exact absurd hd (hKids j d)
    · rw [Function.update_of_ne hm] at hmd
      exact ⟨md, hmd, hd⟩
  refine ⟨by omega, ?_, ?_, ?_, ?_, ?_, ?_⟩
  · intro m hm
    rw [Function.update_of_ne (by omega), wf.fresh m (by omega)]
  · rw [Function.update_of_ne (by omega)]
    exact wf.root
  · rw [Function.update_of_ne (by omega)]
    exact wf.endNode
  · intro m md hmd
    by_cases hm : m = next
    · subst hm
      rw [Function.update_self] at hmd
      obtain rfl := Option.some.inj hmd
      exact hShape
    · rw [Function.update_of_ne hm] at hmd
      exact wf.shape hmd
  · intro m j d hd hdEnd
    obtain ⟨hlt, cd, hcd, hpar⟩ := wf.child (hSlot hd) hdEnd
    refine ⟨hlt, cd, ?_, hpar⟩
    rw [Function.update_of_ne (Nat.ne_of_lt (wf.lt_next hcd)), hcd]
  · intro m j k d hj hk hdEnd
    exact wf.index (hSlot hj) (hSlot hk) hdEnd

/-- What a change of a node's own data keeps: what its slots hold, up to new
empty slots, and its class if it is the root. -/
structure SameLinks (nd nd' : Node) : Prop where
  children : ∀ i c : Nat, nd'.children[i]? = some (some c) ↔ nd.children[i]? = some (some c)
  shape    : nd'.children.length = nd'.kind.numChildren
  root     : nd.kind = .root → nd'.kind = .root

/-- Rewriting a node without touching what its slots hold changes no slot. -/
theorem slot_update_iff (hn : h n = some nd)
    (hc : ∀ i c : Nat, nd'.children[i]? = some (some c) ↔ nd.children[i]? = some (some c))
    (m j d : Nat) : Slot (update h n (some nd')) m j d ↔ Slot h m j d := by
  unfold Slot
  by_cases hm : m = n
  · subst hm
    simp only [Function.update_self, hn, Option.some.injEq]
    constructor
    · rintro ⟨_, rfl, hd⟩
      exact ⟨nd, rfl, (hc j d).mp hd⟩
    · rintro ⟨_, rfl, hd⟩
      exact ⟨nd', rfl, (hc j d).mpr hd⟩
  · rw [Function.update_of_ne hm]

/-- A parent pointer is no slot. -/
theorem slot_setParent_iff (hn : h n = some nd) (q : Option NodeId) (m j d : Nat) :
    Slot (update h n (some { nd with parent := q })) m j d ↔ Slot h m j d := by
  have hKids : ∀ i c : Nat, ({ nd with parent := q } : Node).children[i]? = some (some c) ↔
      nd.children[i]? = some (some c) := fun _ _ => Iff.rfl
  exact slot_update_iff hn hKids m j d

/-- Writing one slot changes this slot only. -/
theorem slot_set_iff {o : Option NodeId} (hp : h p = some pd) (hi : i < pd.children.length)
    (m j d : Nat) :
    Slot (update h p (some { pd with children := pd.children.set i o })) m j d ↔
      (m = p ∧ j = i ∧ o = some d) ∨ (¬ (m = p ∧ j = i) ∧ Slot h m j d) := by
  unfold Slot
  by_cases hm : m = p
  · subst hm
    simp only [Function.update_self, hp, Option.some.injEq, exists_eq_left', true_and]
    by_cases hj : j = i
    · subst hj
      simp [List.getElem?_set_self hi]
    · simp [List.getElem?_set_ne (Ne.symm hj), hj]
  · simp [hm]

/-- **A change of a node's own data.** The parent pointer may change while the node hangs
nowhere. -/
theorem WellFormed.updateData (wf : WellFormed h next) (hn : h n = some nd) (hEnd : n ≠ ENDNODE)
    (hLinks : SameLinks nd nd') (hParent : ∀ p i, Slot h p i n → nd'.parent = nd.parent) :
    WellFormed (update h n (some nd')) next := by
  have hSlot := slot_update_iff hn hLinks.children
  refine ⟨wf.next_gt, ?_, ?_, ?_, ?_, ?_, ?_⟩
  · intro m hm
    have hlt := wf.lt_next hn
    rw [Function.update_of_ne (by omega), wf.fresh m hm]
  -- the root stays a root
  · by_cases hr : ROOTNODE = n
    · subst hr
      obtain ⟨rd, hrd, hk⟩ := wf.root
      rw [hn] at hrd
      obtain rfl := Option.some.inj hrd
      exact ⟨nd', Function.update_self .., hLinks.root hk⟩
    · rw [Function.update_of_ne hr]
      exact wf.root
  · rw [Function.update_of_ne (Ne.symm hEnd)]
    exact wf.endNode
  · intro m md hmd
    by_cases hm : m = n
    · subst hm
      rw [Function.update_self] at hmd
      obtain rfl := Option.some.inj hmd
      exact hLinks.shape
    · rw [Function.update_of_ne hm] at hmd
      exact wf.shape hmd
  · intro m j d hd hdEnd
    obtain ⟨hlt, cd, hcd, hpar⟩ := wf.child ((hSlot m j d).mp hd) hdEnd
    refine ⟨hlt, ?_⟩
    by_cases hdn : d = n
    · subst hdn
      rw [hn] at hcd
      obtain rfl := Option.some.inj hcd
      exact ⟨nd', Function.update_self .., (hParent m j ((hSlot m j d).mp hd)).trans hpar⟩
    · exact ⟨cd, by rw [Function.update_of_ne hdn, hcd], hpar⟩
  · intro m j k d hj hk hdEnd
    exact wf.index ((hSlot m j d).mp hj) ((hSlot m k d).mp hk) hdEnd

/-- The end node may get another parent: it hangs in many slots, and its parent pointer
stands for the last of them. -/
theorem WellFormed.setEndParent (wf : WellFormed h next) {ed : Node} (hE : h ENDNODE = some ed)
    (q : Option NodeId) : WellFormed (update h ENDNODE (some { ed with parent := q })) next := by
  have hSlot := slot_setParent_iff hE q
  refine ⟨wf.next_gt, ?_, ?_, ?_, ?_, ?_, ?_⟩
  · intro m hm
    rw [Function.update_of_ne (Nat.ne_of_gt (Nat.lt_of_lt_of_le wf.next_gt hm)), wf.fresh m hm]
  · rw [Function.update_of_ne (by decide)]
    exact wf.root
  · obtain ⟨p, hEnd⟩ := wf.endNode
    rw [hE] at hEnd
    obtain rfl := Option.some.inj hEnd
    exact ⟨q, Function.update_self ..⟩
  · intro m md hmd
    by_cases hm : m = ENDNODE
    · subst hm
      rw [Function.update_self] at hmd
      obtain rfl := Option.some.inj hmd
      simpa using wf.shape hE
    · rw [Function.update_of_ne hm] at hmd
      exact wf.shape hmd
  · intro m j d hd hdEnd
    obtain ⟨hlt, cd, hcd, hpar⟩ := wf.child ((hSlot m j d).mp hd) hdEnd
    exact ⟨hlt, cd, by rw [Function.update_of_ne hdEnd, hcd], hpar⟩
  · intro m j k d hj hk hdEnd
    exact wf.index ((hSlot m j d).mp hj) ((hSlot m k d).mp hk) hdEnd

/-- **A slot is written**: with `NULL`, with the end node, or with a node that hangs nowhere
yet and whose parent pointer is right already. -/
theorem WellFormed.setSlot (wf : WellFormed h next) (hp : h p = some pd) (hpEnd : p ≠ ENDNODE)
    (hi : i < pd.children.length) {o : Option NodeId}
    (ho : ∀ c : Nat, o = some c → c ≠ ENDNODE →
      p < c ∧ (∃ cd, h c = some cd ∧ cd.parent = some p) ∧ ∀ m j, ¬ Slot h m j c) :
    WellFormed (update h p (some { pd with children := pd.children.set i o })) next := by
  have hSlot := slot_set_iff (o := o) hp hi
  -- every node is still there, with its parent and kind
  have hAt : ∀ {m md}, h m = some md →
      ∃ md', update h p (some { pd with children := pd.children.set i o }) m = some md' ∧
        md'.parent = md.parent ∧ md'.kind = md.kind ∧
        md'.children.length = md.children.length := by
    intro m md hmd
    by_cases hm : m = p
    · subst hm
      rw [hp] at hmd
      obtain rfl := Option.some.inj hmd
      exact ⟨_, Function.update_self .., rfl, rfl, List.length_set ..⟩
    · exact ⟨md, by rw [Function.update_of_ne hm, hmd], rfl, rfl, rfl⟩
  refine ⟨wf.next_gt, ?_, ?_, ?_, ?_, ?_, ?_⟩
  · intro m hm
    rw [Function.update_of_ne (Nat.ne_of_gt (Nat.lt_of_lt_of_le (wf.lt_next hp) hm)), wf.fresh m hm]
  · obtain ⟨rd, hrd, hk⟩ := wf.root
    obtain ⟨md', hmd', _, hk', _⟩ := hAt hrd
    exact ⟨md', hmd', hk'.trans hk⟩
  · rw [Function.update_of_ne (Ne.symm hpEnd)]
    exact wf.endNode
  · intro m md hmd
    by_cases hm : m = p
    · subst hm
      rw [Function.update_self] at hmd
      obtain rfl := Option.some.inj hmd
      rw [List.length_set]
      exact wf.shape hp
    · rw [Function.update_of_ne hm] at hmd
      exact wf.shape hmd
  -- the child of the slot written, or an old one
  · intro m j d hd hdEnd
    rcases (hSlot m j d).mp hd with ⟨rfl, _, rfl⟩ | ⟨_, hOld⟩
    · obtain ⟨hlt, ⟨cd, hcd, hpar⟩, _⟩ := ho d rfl hdEnd
      obtain ⟨md', hmd', hpar', _⟩ := hAt hcd
      exact ⟨hlt, md', hmd', hpar'.trans hpar⟩
    · obtain ⟨hlt, cd, hcd, hpar⟩ := wf.child hOld hdEnd
      obtain ⟨md', hmd', hpar', _⟩ := hAt hcd
      exact ⟨hlt, md', hmd', hpar'.trans hpar⟩
  -- it hangs in this slot only, since it hung nowhere before
  · intro m j k d hj hk hdEnd
    rcases (hSlot m j d).mp hj with ⟨rfl, rfl, rfl⟩ | ⟨_, hOldJ⟩
    · rcases (hSlot m k d).mp hk with ⟨_, rfl, _⟩ | ⟨_, hOldK⟩
      · rfl
      · exact absurd hOldK ((ho d rfl hdEnd).2.2 m k)
    · rcases (hSlot m k d).mp hk with ⟨rfl, rfl, rfl⟩ | ⟨_, hOldK⟩
      · exact absurd hOldJ ((ho d rfl hdEnd).2.2 m j)
      · exact wf.index hOldJ hOldK hdEnd

/-- The heap after the nodes in `S` have been freed. -/
def Erased (h h' : Heap) (S : Nat → Prop) : Prop :=
  ∀ k, (S k → h' k = none) ∧ (¬ S k → h' k = h k)

/-- **A subtree is deleted** that no slot of the rest leads into. -/
theorem WellFormed.erase (wf : WellFormed h next) {S : Nat → Prop} (hErased : Erased h h' S)
    (hRoot : ¬ S ROOTNODE) (hEnd : ¬ S ENDNODE)
    (hClosed : ∀ n i c, Slot h n i c → S c → S n) : WellFormed h' next := by
  have hOld : ∀ {m md}, h' m = some md → h m = some md ∧ ¬ S m := by
    intro m md hmd
    by_cases hS : S m
    · rw [(hErased m).1 hS] at hmd
      cases hmd
    · exact ⟨by rw [← (hErased m).2 hS, hmd], hS⟩
  have hSlot : ∀ {m j d}, Slot h' m j d → Slot h m j d ∧ ¬ S m := by
    rintro m j d ⟨md, hmd, hd⟩
    exact ⟨⟨md, (hOld hmd).1, hd⟩, (hOld hmd).2⟩
  refine ⟨wf.next_gt, ?_, ?_, ?_, ?_, ?_, ?_⟩
  · intro m hm
    by_cases hS : S m
    · exact (hErased m).1 hS
    · rw [(hErased m).2 hS, wf.fresh m hm]
  · rw [(hErased _).2 hRoot]
    exact wf.root
  · rw [(hErased _).2 hEnd]
    exact wf.endNode
  · intro m md hmd
    exact wf.shape (hOld hmd).1
  -- the parent of a child that stays has stayed itself
  · intro m j d hd hdEnd
    obtain ⟨hd', hm⟩ := hSlot hd
    obtain ⟨hlt, cd, hcd, hpar⟩ := wf.child hd' hdEnd
    refine ⟨hlt, cd, ?_, hpar⟩
    rw [(hErased d).2 (fun hS => hm (hClosed m j d hd' hS)), hcd]
  · intro m j k d hj hk hdEnd
    exact wf.index (hSlot hj).1 (hSlot hk).1 hdEnd

end Edits

-- ---------------------------------------------------------------------------
-- Deletion
-- ---------------------------------------------------------------------------

section Deletion

open Function (update)

variable {h : Heap} {next n a b k : Nat}

/-- The ancestors of a node form a chain. -/
theorem WellFormed.desc_linear (wf : WellFormed h next) (ha : Desc h a k) (hb : Desc h b k) :
    Desc h a b ∨ Desc h b a := by
  induction ha with
  | refl => exact Or.inr hb
  | tail hak hStep ih =>
    cases hb with
    | refl => exact Or.inl (hak.tail hStep)
    | tail hbk hStep' =>
      obtain ⟨hkEnd, i, hi⟩ := hStep
      obtain ⟨_, j, hj⟩ := hStep'
      obtain ⟨rfl, _⟩ := wf.slot_unique hi hj hkEnd
      exact ih hbk

/-- The subtrees of two children of a node are disjoint, since a node has one parent only.
-/
theorem WellFormed.siblings_disjoint (wf : WellFormed h next) (ha : ChildOf h n a)
    (hb : ChildOf h n b) (hne : a ≠ b) (hka : Desc h a k) : ¬ Desc h b k := by
  have hNot : ∀ {c d}, ChildOf h n c → ChildOf h n d → c ≠ d → ¬ Desc h c d := by
    intro c d hc hd hcd hDesc
    obtain ⟨_, i, hi⟩ := hd
    have hLe : c ≤ n := wf.desc_le (wf.desc_parent hDesc (Ne.symm hcd) hi)
    obtain ⟨hcEnd, j, hj⟩ := hc
    have hLt : n < c := (wf.child hj hcEnd).1
    omega
  intro hkb
  rcases wf.desc_linear hka hkb with hab | hba
  · exact hNot ha hb hne hab
  · exact hNot hb ha (Ne.symm hne) hba

/-- The end node is in no subtree. -/
theorem desc_ne_end (hn : n ≠ ENDNODE) (hd : Desc h n k) : k ≠ ENDNODE := by
  cases hd with
  | refl => exact hn
  | tail _ hStep => exact hStep.1

/-- The loop of the destructor, given what it does for one child. The induction is on the
children that are left, whose subtrees are as they were at the beginning. -/
private theorem deleteChildren_spec {fuel : Nat} (wf : WellFormed h next)
    (hDelete : ∀ (m : Manager) (c : Nat), ChildOf h n c → (∀ k, Desc h c k → m.heap k = h k) →
      ∃ h', m.delete fuel c = { m with heap := h' } ∧ Erased m.heap h' (Desc h c))
    (l : List (Option NodeId)) (m : Manager)
    (hChild : ∀ c, some c ∈ l → c ≠ ENDNODE → ChildOf h n c)
    (hDistinct : l.Pairwise fun o o' => ∀ c, o = some c → o' = some c → c = ENDNODE)
    (hAgree : ∀ c, some c ∈ l → c ≠ ENDNODE → ∀ k, Desc h c k → m.heap k = h k) :
    ∃ h', l.foldl (fun m c =>
        match c with
        | some c => if c = ENDNODE then m else m.delete fuel c
        | none => m) m = { m with heap := h' } ∧
      Erased m.heap h' fun k => ∃ c, some c ∈ l ∧ c ≠ ENDNODE ∧ Desc h c k := by
  induction l generalizing m with
  | nil => exact ⟨m.heap, rfl, fun k => ⟨fun ⟨_, hc, _⟩ => by simp at hc, fun _ => rfl⟩⟩
  | cons o rest ih =>
    rw [List.pairwise_cons] at hDistinct
    have hChildRest : ∀ c, some c ∈ rest → c ≠ ENDNODE → ChildOf h n c :=
      fun c hc => hChild c (List.mem_cons_of_mem _ hc)
    -- the loop deletes children other than the end node
    by_cases hSkip : ∃ c, o = some c ∧ c ≠ ENDNODE
    · obtain ⟨c, rfl, hcEnd⟩ := hSkip
      have hc : ChildOf h n c := hChild c (by simp) hcEnd
      obtain ⟨h₁, hEq, hErase⟩ := hDelete m c hc (hAgree c (by simp) hcEnd)
      -- the other children's subtrees have not been touched
      have hAgree₁ : ∀ d, some d ∈ rest → d ≠ ENDNODE → ∀ k, Desc h d k → h₁ k = h k := by
        intro d hd hdEnd k hk
        have hcd : c ≠ d := by
          rintro rfl
          exact hcEnd (hDistinct.1 _ hd c rfl rfl)
        have hNot : ¬ Desc h c k := fun hck =>
          wf.siblings_disjoint hc (hChildRest d hd hdEnd) hcd hck hk
        rw [(hErase k).2 hNot]
        exact hAgree d (List.mem_cons_of_mem _ hd) hdEnd k hk
      obtain ⟨h₂, hEq₂, hErase₂⟩ := ih { m with heap := h₁ } hChildRest hDistinct.2 hAgree₁
      refine ⟨h₂, ?_, fun k => ⟨?_, ?_⟩⟩
      · simp only [List.foldl_cons, if_neg hcEnd, hEq]
        exact hEq₂
      · rintro ⟨d, hd, hdEnd, hk⟩
        by_cases hRest : ∃ d, some d ∈ rest ∧ d ≠ ENDNODE ∧ Desc h d k
        · exact (hErase₂ k).1 hRest
        · rw [(hErase₂ k).2 hRest]
          rcases List.mem_cons.mp hd with hdc | hd
          · obtain rfl := Option.some.inj hdc
            exact (hErase k).1 hk
          · exact absurd ⟨d, hd, hdEnd, hk⟩ hRest
      · intro hNone
        rw [(hErase₂ k).2 fun ⟨d, hd, hdk⟩ => hNone ⟨d, List.mem_cons_of_mem _ hd, hdk⟩]
        exact (hErase k).2 fun hck => hNone ⟨c, by simp, hcEnd, hck⟩
    -- nothing is deleted for this slot
    · obtain ⟨h₂, hEq₂, hErase₂⟩ := ih m hChildRest hDistinct.2
        (fun d hd => hAgree d (List.mem_cons_of_mem _ hd))
      refine ⟨h₂, ?_, fun k => ⟨?_, ?_⟩⟩
      · rw [List.foldl_cons, ← hEq₂]
        rcases o with _ | c
        · rfl
        · have hcEnd : c = ENDNODE := by
            by_contra hcEnd
            exact hSkip ⟨c, rfl, hcEnd⟩
          simp [hcEnd]
      · rintro ⟨d, hd, hdEnd, hk⟩
        rcases List.mem_cons.mp hd with hdo | hd
        · exact absurd ⟨d, hdo.symm, hdEnd⟩ hSkip
        · exact (hErase₂ k).1 ⟨d, hd, hdEnd, hk⟩
      · intro hNone
        exact (hErase₂ k).2 fun ⟨d, hd, hdk⟩ => hNone ⟨d, List.mem_cons_of_mem _ hd, hdk⟩

/-- `delete n` frees the subtree of `n` and nothing else. The fuel is enough as children
have larger addresses than their parent. -/
private theorem delete_spec (wf : WellFormed h next) (fuel : Nat) (m : Manager) (n : Nat)
    {nd : Node} (hnd : h n = some nd) (hFuel : next - n ≤ fuel)
    (hAgree : ∀ k, Desc h n k → m.heap k = h k) :
    ∃ h', m.delete fuel n = { m with heap := h' } ∧ Erased m.heap h' (Desc h n) := by
  induction fuel generalizing m n nd with
  | zero =>
    have := wf.lt_next hnd
    omega
  | succ fuel ih =>
    have hmn : m.heap n = some nd := by rw [hAgree n .refl, hnd]
    -- its children, each in one slot only
    have hChild : ∀ c, some c ∈ nd.children → c ≠ ENDNODE → ChildOf h n c := by
      intro c hc hcEnd
      obtain ⟨i, hi, hEq⟩ := List.getElem_of_mem hc
      exact ⟨hcEnd, i, nd, hnd, by rw [List.getElem?_eq_getElem hi, hEq]⟩
    have hDistinct : nd.children.Pairwise
        fun o o' => ∀ c, o = some c → o' = some c → c = ENDNODE := by
      rw [List.pairwise_iff_getElem]
      intro i j hi hj hij c hc hc'
      by_contra hcEnd
      have hSi : Slot h n i c := ⟨nd, hnd, by rw [List.getElem?_eq_getElem hi, hc]⟩
      have hSj : Slot h n j c := ⟨nd, hnd, by rw [List.getElem?_eq_getElem hj, hc']⟩
      exact absurd (wf.index hSi hSj hcEnd) (Nat.ne_of_lt hij)
    -- what the recursion does for one of them
    have hDelete : ∀ (m : Manager) (c : Nat), ChildOf h n c →
        (∀ k, Desc h c k → m.heap k = h k) →
        ∃ h', m.delete fuel c = { m with heap := h' } ∧ Erased m.heap h' (Desc h c) := by
      intro m c hc hAg
      obtain ⟨hcEnd, i, hi⟩ := hc
      obtain ⟨hlt, cd, hcd, _⟩ := wf.child hi hcEnd
      exact ih m c hcd (by omega) hAg
    obtain ⟨h₁, hEq, hErase⟩ := deleteChildren_spec wf hDelete nd.children m hChild hDistinct
      (fun c hc hcEnd k hk => hAgree k (.head (hChild c hc hcEnd) hk))
    refine ⟨update h₁ n none, ?_, fun k => ?_⟩
    · rw [Manager.delete, hmn]
      exact congrArg (fun m => Manager.eraseNode m n) hEq
    · -- the subtree is the node and the subtrees of its children
      have hSplit : Desc h n k ↔ k = n ∨ ∃ c, some c ∈ nd.children ∧ c ≠ ENDNODE ∧ Desc h c k := by
        constructor
        · intro hd
          rcases Relation.ReflTransGen.cases_head hd with rfl | ⟨c, ⟨hcEnd, i, md, hmd, hc⟩, hck⟩
          · exact Or.inl rfl
          · rw [hnd] at hmd
            obtain rfl := Option.some.inj hmd
            exact Or.inr ⟨c, List.mem_of_getElem? hc, hcEnd, hck⟩
        · rintro (rfl | ⟨c, hc, hcEnd, hck⟩)
          · exact .refl
          · exact .head (hChild c hc hcEnd) hck
      by_cases hkn : k = n
      · subst hkn
        exact ⟨fun _ => Function.update_self .., fun hNot => absurd .refl hNot⟩
      · rw [Function.update_of_ne hkn, hSplit]
        constructor
        · rintro (rfl | hk)
          · exact absurd rfl hkn
          · exact (hErase k).1 hk
        · intro hNot
          exact (hErase k).2 fun hk => hNot (Or.inr hk)

/-- **`delete` frees exactly the subtree.** -/
theorem deleteTree_spec {m : Manager} (wf : WellFormed m.heap m.next) {nd : Node}
    (hnd : m.heap n = some nd) :
    ∃ h', m.deleteTree n = { m with heap := h' } ∧ Erased m.heap h' (Desc m.heap n) :=
  delete_spec wf _ m n hnd (Nat.le_refl _) fun _ _ => rfl

end Deletion

end Concurrit.Model
