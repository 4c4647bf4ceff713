import Concurrit.Model.Path

/-!
# Concurrit — shortcutting a slot to the end node

Both ways an execution closes a branch have the same effect on the heap: one
slot now holds the end node, and the subtree it held is gone (`Shortcut`). The
end of an execution does this at the end of its path, `DoBacktrack` at the top
of the largest covered subtree.
-/

namespace Concurrit.Model

open Function (update)

variable {h h' : Heap} {next n p i k : Nat} {m m' : Manager} {l last : ChildLoc} {nd pd ed : Node}

/-- `k` lies in the subtree that slot `i` of `p` holds. -/
def Below (h : Heap) (p i k : Nat) : Prop := ∃ c, Slot h p i c ∧ c ≠ ENDNODE ∧ Desc h c k

/-- Slot `i` of `p` holds the end node, the subtree it held is freed, and nothing
else has changed. -/
structure Shortcut (h h' : Heap) (p i : Nat) : Prop where
  valid : ValidLoc h ⟨p, i⟩
  below : ∀ k, Below h p i k → h' k = none
  other : ∀ pd ed, h p = some pd → h ENDNODE = some ed → ∀ k, ¬ Below h p i k →
    h' k = update (update h p (some { pd with children := pd.children.set i (some ENDNODE) }))
      ENDNODE (some { ed with parent := some p }) k

/-- Nodes below a slot are later than the node the slot belongs to. -/
theorem WellFormed.below_gt (wf : WellFormed h next) (hk : Below h p i k) : p < k := by
  obtain ⟨c, hSlot, hcEnd, hDesc⟩ := hk
  exact Nat.lt_of_lt_of_le (wf.child hSlot hcEnd).1 (wf.desc_le hDesc)

theorem below_ne_end (hk : Below h p i k) : k ≠ ENDNODE := by
  obtain ⟨c, _, hcEnd, hDesc⟩ := hk
  exact desc_ne_end hcEnd hDesc

namespace Shortcut

/-- A node that stays and is not the one shortcut from is what it was. -/
theorem frame (hCut : Shortcut h h' p i) (wf : WellFormed h next) (hk : ¬ Below h p i k)
    (hkp : k ≠ p) (hkEnd : k ≠ ENDNODE) : h' k = h k := by
  obtain ⟨_, pd, hp, _⟩ := hCut.valid
  obtain ⟨_, hE⟩ := wf.endNode
  rw [hCut.other pd _ hp hE k hk, Function.update_of_ne hkEnd, Function.update_of_ne hkp]

/-- The node shortcut from: only the slot has changed. -/
theorem at_parent (hCut : Shortcut h h' p i) (wf : WellFormed h next) (hp : h p = some pd) :
    h' p = some { pd with children := pd.children.set i (some ENDNODE) } := by
  obtain ⟨_, hE⟩ := wf.endNode
  have hNot : ¬ Below h p i p := fun hb => absurd (wf.below_gt hb) (Nat.lt_irrefl _)
  rw [hCut.other pd _ hp hE p hNot, Function.update_of_ne hCut.valid.1, Function.update_self]

/-- The end node gets a new parent. -/
theorem at_end (hCut : Shortcut h h' p i) (wf : WellFormed h next) :
    h' ENDNODE = some ⟨.endNode, some p, [some ENDNODE], true⟩ := by
  obtain ⟨_, hE⟩ := wf.endNode
  obtain ⟨_, pd, hp, _⟩ := hCut.valid
  rw [hCut.other pd _ hp hE _ (fun hb => below_ne_end hb rfl), Function.update_self]

/-- **A node that stays keeps its kind, its flag and its children**, up to the
slot that is shortcut. -/
theorem node_of_not_below (hCut : Shortcut h h' p i) (wf : WellFormed h next)
    (hk : ¬ Below h p i k) (hn : h k = some nd) :
    ∃ nd', h' k = some nd' ∧ nd'.kind = nd.kind ∧ nd'.covered = nd.covered ∧
      nd'.children.length = nd.children.length ∧
      (k ≠ ENDNODE → nd'.parent = nd.parent) ∧
      (∀ j, (k = p → j ≠ i) → nd'.children[j]? = nd.children[j]?) := by
  by_cases hkEnd : k = ENDNODE
  · subst hkEnd
    obtain ⟨_, hE⟩ := wf.endNode
    rw [hn] at hE
    obtain rfl := Option.some.inj hE
    exact ⟨_, hCut.at_end wf, rfl, rfl, rfl, fun hne => absurd rfl hne, fun _ _ => rfl⟩
  · by_cases hkp : k = p
    · subst hkp
      refine ⟨_, hCut.at_parent wf hn, rfl, rfl, List.length_set .., fun _ => rfl, ?_⟩
      intro j hj
      exact List.getElem?_set_ne (Ne.symm (hj rfl))
    · exact ⟨nd, by rw [hCut.frame wf hk hkp hkEnd, hn], rfl, rfl, rfl, fun _ => rfl,
        fun _ _ => rfl⟩

/-- The slots after the shortcut. -/
theorem slot_iff (hCut : Shortcut h h' p i) (wf : WellFormed h next) (m j d : Nat) :
    Slot h' m j d ↔ (m = p ∧ j = i ∧ d = ENDNODE) ∨
      (¬ (m = p ∧ j = i) ∧ ¬ Below h p i m ∧ Slot h m j d) := by
  obtain ⟨_, pd, hp, hi⟩ := hCut.valid
  by_cases hm : Below h p i m
  · have hNe : m ≠ p := Nat.ne_of_gt (wf.below_gt hm)
    simp [Slot, hCut.below m hm, hm, hNe]
  · constructor
    · rintro ⟨md', hmd', hd⟩
      by_cases hEq : m = p ∧ j = i
      · obtain ⟨rfl, rfl⟩ := hEq
        rw [hCut.at_parent wf hp] at hmd'
        obtain rfl := Option.some.inj hmd'
        rw [List.getElem?_set_self hi] at hd
        exact Or.inl ⟨rfl, rfl, (Option.some.inj (Option.some.inj hd)).symm⟩
      · obtain ⟨md, hmd⟩ : ∃ md, h m = some md := by
          by_cases hmEnd : m = ENDNODE
          · obtain ⟨_, hE⟩ := wf.endNode
            exact ⟨_, hmEnd ▸ hE⟩
          · by_cases hmp : m = p
            · exact ⟨pd, hmp ▸ hp⟩
            · exact ⟨md', by rw [← hCut.frame wf hm hmp hmEnd, hmd']⟩
        obtain ⟨_, hmd'', _, _, _, _, hKids⟩ := hCut.node_of_not_below wf hm hmd
        rw [hmd'] at hmd''
        obtain rfl := Option.some.inj hmd''
        refine Or.inr ⟨hEq, hm, md, hmd, ?_⟩
        rw [← hKids j fun hmp hj => hEq ⟨hmp, hj⟩, hd]
    · rintro (⟨rfl, rfl, rfl⟩ | ⟨hEq, _, md, hmd, hd⟩)
      · exact ⟨_, hCut.at_parent wf hp, by rw [List.getElem?_set_self hi]⟩
      · obtain ⟨md', hmd', _, _, _, _, hKids⟩ := hCut.node_of_not_below wf hm hmd
        exact ⟨md', hmd', by rw [hKids j fun hmp hj => hEq ⟨hmp, hj⟩, hd]⟩

/-- **A shortcut keeps the heap well formed.** -/
theorem wellFormed (hCut : Shortcut h h' p i) (wf : WellFormed h next) : WellFormed h' next := by
  have hSlot := hCut.slot_iff wf
  have hOld : ∀ {m md'}, h' m = some md' → ∃ md, h m = some md ∧ md'.kind = md.kind ∧
      md'.children.length = md.children.length := by
    intro m md' hmd'
    have hNot : ¬ Below h p i m := fun hb => by
      rw [hCut.below m hb] at hmd'
      cases hmd'
    obtain ⟨_, pd, hp, _⟩ := hCut.valid
    obtain ⟨_, hE⟩ := wf.endNode
    have hEq := hCut.other pd _ hp hE m hNot
    obtain ⟨md, hmd⟩ : ∃ md, h m = some md := by
      by_cases hmEnd : m = ENDNODE
      · exact ⟨_, hmEnd ▸ hE⟩
      · by_cases hmp : m = p
        · exact ⟨pd, hmp ▸ hp⟩
        · exact ⟨md', by rw [← hCut.frame wf hNot hmp hmEnd, hmd']⟩
    obtain ⟨_, hmd'', hk, _, hl, _⟩ := hCut.node_of_not_below wf hNot hmd
    rw [hmd'] at hmd''
    obtain rfl := Option.some.inj hmd''
    exact ⟨md, hmd, hk, hl⟩
  refine ⟨wf.next_gt, ?_, ?_, ⟨some p, hCut.at_end wf⟩, ?_, ?_, ?_⟩
  · intro m hm
    rcases hm' : h' m with _ | md'
    · rfl
    · obtain ⟨md, hmd, _⟩ := hOld hm'
      rw [wf.fresh m hm] at hmd
      cases hmd
  · obtain ⟨rd, hrd, hk⟩ := wf.root
    have hNot : ¬ Below h p i ROOTNODE := fun hb =>
      absurd (wf.below_gt hb) (Nat.not_lt_zero _)
    obtain ⟨rd', hrd', hk', _⟩ := hCut.node_of_not_below wf hNot hrd
    exact ⟨rd', hrd', hk'.trans hk⟩
  · intro m md' hmd'
    obtain ⟨md, hmd, hk, hl⟩ := hOld hmd'
    rw [hl, hk]
    exact wf.shape hmd
  · intro m j d hd hdEnd
    rcases (hSlot m j d).mp hd with ⟨_, _, rfl⟩ | ⟨hNe, hm, hd'⟩
    · exact absurd rfl hdEnd
    · obtain ⟨hlt, cd, hcd, hpar⟩ := wf.child hd' hdEnd
      refine ⟨hlt, ?_⟩
      have hdNot : ¬ Below h p i d := by
        rintro ⟨c, hc, hcEnd, hDesc⟩
        by_cases hdc : d = c
        · subst hdc
          exact hNe (wf.slot_unique hd' hc hdEnd)
        · exact hm ⟨c, hc, hcEnd, wf.desc_parent hDesc hdc hd'⟩
      obtain ⟨cd', hcd', _, _, _, hp', _⟩ := hCut.node_of_not_below wf hdNot hcd
      exact ⟨cd', hcd', (hp' hdEnd).trans hpar⟩
  · intro m j j' d hj hj' hdEnd
    rcases (hSlot m j d).mp hj with ⟨_, _, rfl⟩ | ⟨_, _, hj⟩
    · exact absurd rfl hdEnd
    · rcases (hSlot m j' d).mp hj' with ⟨_, _, rfl⟩ | ⟨_, _, hj'⟩
      · exact absurd rfl hdEnd
      · exact wf.index hj hj' hdEnd

/-- **A linked path that ends in the slot survives.** -/
theorem linked (hCut : Shortcut h h' p i) (wf : WellFormed h next) {stack : List ChildLoc}
    (hL : Linked h stack) (hLast : stack.getLast? = some ⟨p, i⟩) : Linked h' stack := by
  have hNot : ∀ l ∈ stack, ¬ Below h p i l.parent := by
    intro l hl hb
    have hLe := hL.le_last wf hLast hl
    exact absurd (wf.below_gt hb) (Nat.not_lt.mpr hLe)
  refine hL.mono ?_ ?_
  · rintro l hl ⟨hlEnd, ld, hld, hlt⟩
    obtain ⟨ld', hld', _, _, hLen, _⟩ := hCut.node_of_not_below wf (hNot l hl) hld
    exact ⟨hlEnd, ld', hld', by rw [hLen]; exact hlt⟩
  · intro k l l' hk hk' hLink
    refine (hCut.slot_iff wf _ _ _).mpr (Or.inr ⟨?_, hNot l (List.mem_of_getElem? hk), hLink⟩)
    rintro ⟨hpEq, _⟩
    -- the slot is not the one shortcut: its node comes after another location
    have hlEnd := (hL.validAt hk').1
    have hLe := hL.le_last wf hLast (List.mem_of_getElem? hk')
    have hLt : l.parent < l'.parent := (wf.child hLink hlEnd).1
    rw [hpEq] at hLt
    exact absurd hLt (Nat.not_lt.mpr hLe)

end Shortcut

-- ---------------------------------------------------------------------------
-- The end node at the end of the path
-- ---------------------------------------------------------------------------

/-- What the destructor frees, seen from the slot. -/
theorem below_iff_desc {c : Nat} (hSlot : Slot h p i c) (hc : c ≠ ENDNODE) :
    Below h p i k ↔ Desc h c k := by
  constructor
  · rintro ⟨d, ⟨nd, hnd, hd⟩, _, hDesc⟩
    obtain ⟨nd', hnd', hd'⟩ := hSlot
    rw [hnd] at hnd'
    obtain rfl := Option.some.inj hnd'
    rw [hd] at hd'
    obtain rfl := Option.some.inj (Option.some.inj hd')
    exact hDesc
  · exact fun hDesc => ⟨c, hSlot, hc, hDesc⟩

/-- Where a slot holds nothing, or the end node, nothing lies below it. -/
theorem not_below (hp : h p = some pd) {o : Option NodeId} (ho : pd.children[i]? = some o)
    (hNone : ∀ c : Nat, o = some c → c = ENDNODE) : ¬ Below h p i k := by
  rintro ⟨c, ⟨md, hmd, hc⟩, hcEnd, _⟩
  rw [hp] at hmd
  obtain rfl := Option.some.inj hmd
  rw [ho] at hc
  exact hcEnd (hNone c (Option.some.inj hc))

/-- Freeing what a slot holds and writing the end node into it is a shortcut. -/
theorem closeSlot_spec (wf : WellFormed m.heap m.next) (hValid : ValidLoc m.heap l)
    (hp : m.heap l.parent = some pd) {o : Option NodeId}
    (ho : pd.children[l.childIndex]? = some o) :
    ∃ h', (m.deleteOldRoot o).set l (some ENDNODE) = some { m with heap := h' } ∧
      Shortcut m.heap h' l.parent l.childIndex := by
  have hi : l.childIndex < pd.children.length := (List.getElem?_eq_some_iff.mp ho).1
  obtain ⟨_, hE⟩ := wf.endNode
  obtain ⟨h₁, hDel, hErased⟩ : ∃ h₁, m.deleteOldRoot o = { m with heap := h₁ } ∧
      Erased m.heap h₁ (Below m.heap l.parent l.childIndex) := by
    by_cases hFree : ∃ c : Nat, o = some c ∧ c ≠ ENDNODE
    · obtain ⟨c, rfl, hc⟩ := hFree
      have hSlot : Slot m.heap l.parent l.childIndex c := ⟨pd, hp, ho⟩
      obtain ⟨_, cd, hcd, _⟩ := wf.child hSlot hc
      obtain ⟨h₁, hEq, hErased⟩ := deleteTree_spec wf hcd
      refine ⟨h₁, by simp only [Manager.deleteOldRoot, if_neg hc, hEq], fun k => ?_⟩
      rw [below_iff_desc hSlot hc]
      exact hErased k
    · have hNone : ∀ c : Nat, o = some c → c = ENDNODE := by
        intro c hc
        by_contra hcEnd
        exact hFree ⟨c, hc, hcEnd⟩
      refine ⟨m.heap, ?_, fun k => ⟨fun hb => absurd hb (not_below hp ho hNone), fun _ => rfl⟩⟩
      rcases o with _ | c
      · rfl
      · simp [Manager.deleteOldRoot, hNone c rfl]
  have hNotP : ¬ Below m.heap l.parent l.childIndex l.parent := fun hb =>
    absurd (wf.below_gt hb) (Nat.lt_irrefl _)
  have hNotEnd : ¬ Below m.heap l.parent l.childIndex ENDNODE := fun hb => below_ne_end hb rfl
  have hSet := Manager.set_some (m := { m with heap := h₁ }) (n := ENDNODE)
    (((hErased _).2 hNotP).trans hp) hi (((hErased _).2 hNotEnd).trans hE) (Ne.symm hValid.1)
  refine ⟨_, by rw [hDel]; exact hSet, hValid, ?_, ?_⟩
  · intro k hb
    have hkEnd := below_ne_end hb
    have hkp : k ≠ l.parent := Nat.ne_of_gt (wf.below_gt hb)
    rw [Function.update_of_ne hkEnd, Function.update_of_ne hkp]
    exact (hErased k).1 hb
  · intro pd' ed' hp' hE' k hb
    rw [hp] at hp'
    obtain rfl := Option.some.inj hp'
    rw [hE] at hE'
    obtain rfl := Option.some.inj hE'
    by_cases hkEnd : k = ENDNODE
    · subst hkEnd
      rw [Function.update_self, Function.update_self]
    · rw [Function.update_of_ne hkEnd, Function.update_of_ne hkEnd]
      by_cases hkp : k = l.parent
      · subst hkp
        rw [Function.update_self, Function.update_self]
      · rw [Function.update_of_ne hkp, Function.update_of_ne hkp]
        exact (hErased k).2 hb

/-- What inserting the end node does: the path consumed so far is kept, when
replaying it is followed by the recorded location of the pending node, and the
slot it ends in is shortcut to the end node. -/
structure Ended (m m' : Manager) (loc : ChildLoc) : Prop where
  last : (m.nodeStack.take (m.stackIndex + 1)).getLast? = some loc
  cut  : Shortcut m.heap m'.heap loc.parent loc.childIndex
  rest : m' = { m with
    heap := m'.heap
    nodeStack := m.nodeStack.take (m.stackIndex + 1) ++ [⟨ENDNODE, 0⟩]
    stackIndex := (m.nodeStack.take (m.stackIndex + 1)).length + 1 }

/-- **The end node can be inserted in every tidy state.** -/
theorem addEndToPath_spec (t : Tidy m) : ∃ m' loc, m.addEndToPath = some m' ∧ Ended m m' loc := by
  rcases Nat.lt_or_eq_of_le t.le with hLt | hEnd
  · -- replaying: the recorded location of the pending node is kept
    have hNext : m.nodeStack[m.stackIndex]? = some m.nodeStack[m.stackIndex] :=
      List.getElem?_eq_getElem hLt
    obtain ⟨last, hLast, pd, hp, hc⟩ := t.last_recorded hNext
    have hTake : m.nodeStack.take (m.stackIndex + 1) =
        m.nodeStack.take m.stackIndex ++ [m.nodeStack[m.stackIndex]] :=
      (List.take_append_getElem hLt).symm
    have hLen : (m.nodeStack.take (m.stackIndex + 1)).length = m.stackIndex + 1 := by
      rw [List.length_take]
      omega
    have hBack : (m.nodeStack.take (m.stackIndex + 1)).getLast? =
        some m.nodeStack[m.stackIndex] := by
      rw [hTake, List.getLast?_concat]
    obtain ⟨hlEnd, ld, hld, hli⟩ := t.linked.validAt hNext
    have ho := List.getElem?_eq_getElem hli
    have hTrunc : m.truncateNodeStack (m.stackIndex + 1) = some { m with
        nodeStack := m.nodeStack.take (m.stackIndex + 1), stackIndex := m.stackIndex + 1 } := by
      simp [Manager.truncateNodeStack, guard, Nat.succ_le_of_lt hLt]
    have hLast' : Manager.getLastNodeInStack { m with
        nodeStack := m.nodeStack.take (m.stackIndex + 1), stackIndex := m.stackIndex + 1 } =
        some m.nodeStack[m.stackIndex] := by
      rw [Manager.getLastNodeInStack_eq_some]
      refine ⟨Nat.le_add_left _ _, ?_⟩
      rw [← hBack, List.getLast?_eq_getElem?, hLen]
    obtain ⟨h', hSet, hCut⟩ := closeSlot_spec (m := { m with
        nodeStack := m.nodeStack.take (m.stackIndex + 1), stackIndex := m.stackIndex + 1 })
      t.wf ⟨hlEnd, ld, hld, hli⟩ hld ho
    refine ⟨{ m with
        heap := h'
        nodeStack := m.nodeStack.take (m.stackIndex + 1) ++ [⟨ENDNODE, 0⟩]
        stackIndex := m.stackIndex + 1 + 1 }, m.nodeStack[m.stackIndex], ?_, hBack, hCut,
      by rw [hLen]⟩
    have hGet : Manager.get { m with
        nodeStack := m.nodeStack.take (m.stackIndex + 1), stackIndex := m.stackIndex + 1 }
        m.nodeStack[m.stackIndex] = some ld.children[m.nodeStack[m.stackIndex].childIndex] :=
      (Manager.get_eq hld).trans ho
    simp only [Manager.addEndToPath, hLast, Option.bind_eq_bind, Option.bind_some,
      Manager.get_eq hp, hc, t.le, hLt, if_true, hTrunc, hBack, hLast', hGet, guard,
      Option.pure_def]
    rw [hSet]
    exact Manager.addToNodeStack_end (m := { m with
      heap := h'
      nodeStack := m.nodeStack.take (m.stackIndex + 1)
      stackIndex := m.stackIndex + 1 }) hLen.symm
  · -- at the end of the stack
    obtain ⟨last, pd, o, hLast, hp, ho⟩ := t.exists_last
    have hTake : m.nodeStack.take (m.stackIndex + 1) = m.nodeStack :=
      List.take_of_length_le (by omega)
    obtain ⟨h', hSet, hCut⟩ := closeSlot_spec t.wf (t.linked.last_valid hLast) hp ho
    refine ⟨{ m with
        heap := h'
        nodeStack := m.nodeStack ++ [⟨ENDNODE, 0⟩]
        stackIndex := m.stackIndex + 1 }, last, ?_, by rw [hTake, hLast], hCut,
      by rw [hTake, ← hEnd]⟩
    have hNot : ¬ m.stackIndex < m.nodeStack.length := by omega
    have hGuard : (guard (m.stackIndex = m.nodeStack.length) : Option Unit) = some () := by
      simp [guard, hEnd]
    have hAdd := Manager.addToNodeStack_end (m := { m with heap := h' }) (l := ⟨ENDNODE, 0⟩) hEnd
    rcases o with _ | c
    · simp only [Manager.addEndToPath, t.last_at_end hEnd hLast, Option.bind_eq_bind,
        Option.bind_some, Manager.get_eq hp, ho, hGuard]
      exact (congrArg (fun x => Option.bind x _) hSet).trans hAdd
    · simp only [Manager.addEndToPath, t.last_at_end hEnd hLast, Option.bind_eq_bind,
        Option.bind_some, Manager.get_eq hp, ho, guard, t.le, if_true, if_neg hNot, Option.pure_def]
      rw [hSet]
      exact hAdd

end Concurrit.Model
