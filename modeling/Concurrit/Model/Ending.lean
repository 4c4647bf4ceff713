import Concurrit.Model.Coverage

/-!
# Concurrit — coverage at the end of an execution

The end of an execution keeps the tree sound, repairs the flags on its path and
truncates the stack where something is left to do. So the next execution starts
in the same kind of state as the first one.
-/

namespace Concurrit.Model

open Function (update)
open Walk

variable {h h' : Heap} {next n p i k c hi : Nat} {a b : Answer} {m m' m₁ m₂ mid : Manager}
  {nd nd' pd : Node} {l last loc : ChildLoc} {stack base : List ChildLoc} {path q π : List Answer}
  {script : Script} {op : Op} {env : Env} {history ρ : List Answer} {cfg : Cfg}
  {reason : BacktrackReason} {good good' : List Answer → Prop}

-- ---------------------------------------------------------------------------
-- Flags
-- ---------------------------------------------------------------------------

/-- Only locations of the path may have become full, each of them above covered
ones. -/
def FlaggedAbove (stack : List ChildLoc) (k : Nat) (m : Manager) : Prop :=
  ∀ n nd, m.heap n = some nd → nd.covered = false → Full m nd →
    ∃ j l, j < k ∧ stack[j]? = some l ∧ l.parent = n ∧
      ∀ j' l', j < j' → j' < k → stack[j']? = some l' → m.isCovered l'.parent = true

theorem Flagged.above (hFlag : Flagged m) (stack : List ChildLoc) (k : Nat) :
    FlaggedAbove stack k m := fun n nd hn hCov hFull => absurd hFull (hFlag n nd hn hCov)

/-- Covering a node makes no node full but the one it hangs in. -/
theorem full_setNode_covered (hn : m.heap n = some nd) (hk : k ≠ n)
    (hkd : m.heap k = some nd')
    (hFull : Full (m.setNode n { nd with covered := true }) nd') :
    Full m nd' ∨ ∃ j, Slot m.heap k j n := by
  by_cases hSlot : ∃ j, Slot m.heap k j n
  · exact Or.inr hSlot
  · refine Or.inl (hFull.mono rfl fun j c hc hCov => ?_)
    have hcn : c ≠ n := by
      rintro rfl
      exact hSlot ⟨j, nd', hkd, hc⟩
    rwa [isCovered_setNode_of_ne hcn] at hCov

/-- **Propagation repairs the flags.** Before it, a node that is full without being flagged
is on the path, with all nodes below it flagged. By induction on the loop: it flags these
nodes one by one, and where it stops none is left. -/
theorem Propagated.flagged (hP : Propagated stack m k mid hi) (c : Complete m base)
    (hStack : stack = base ++ [⟨ENDNODE, 0⟩]) (hk : k ≤ base.length)
    (hFlag : FlaggedAbove stack k m) : Flagged mid := by
  induction hP with
  -- at the root: no node of the path is left to be wrong
  | top m =>
    intro n nd hn hCov hFull
    obtain ⟨j, _, hj, _⟩ := hFlag n nd hn hCov hFull
    exact absurd hj (Nat.not_lt_zero j)
  -- stopped: a full node would have its rule hold
  | stop m k l nd hl hn hCov hRule =>
    intro n' nd' hn' hCov' hFull
    obtain ⟨j, l', hj, hl', rfl, hAbove⟩ := hFlag n' nd' hn' hCov' hFull
    rcases Nat.lt_or_eq_of_le (Nat.le_of_lt_succ hj) with hLt | rfl
    · have hlCov := hAbove k l hLt (Nat.lt_succ_self k) hl
      rw [isCovered_of_node hn, hCov] at hlCov
      cases hlCov
    · rw [hl] at hl'
      obtain rfl := Option.some.inj hl'
      rw [hn] at hn'
      obtain rfl := Option.some.inj hn'
      rw [coverageRule_of_full (c.wf.shape hn) hFull] at hRule
      cases hRule
  -- one more node has been flagged; the only node that can have become full is the one
  -- above
  | step m k l nd mid hi hl hn hRule hRest ih =>
    have hR := Recolored.cover hn
    refine ih (hR.complete c) (Nat.le_of_succ_le hk) ?_
    intro n' nd' hn' hCov' hFull
    have hne : n' ≠ l.parent := by
      rintro rfl
      rw [show (m.setNode l.parent { nd with covered := true }).heap l.parent = _ from
        Function.update_self ..] at hn'
      obtain rfl := Option.some.inj hn'
      cases hCov'
    have hOld : m.heap n' = some nd' := by
      rw [← hn']
      exact (Function.update_of_ne hne ..).symm
    rcases full_setNode_covered hn hne hOld hFull with hFull | ⟨j, hSlot⟩
    · obtain ⟨j, l', hj, hl', rfl, hAbove⟩ := hFlag n' nd' hOld hCov' hFull
      have hjk : j ≠ k := by
        rintro rfl
        rw [hl] at hl'
        obtain rfl := Option.some.inj hl'
        exact hne rfl
      refine ⟨j, l', by omega, hl', rfl, fun j' l'' hjj hjk' hl'' => ?_⟩
      exact hR.isCovered (hAbove j' l'' hjj (by omega) hl'')
    · -- the node the covered one hangs in is the location above
      have hl₀ : base[k]? = some l := by rw [← hl, hStack, List.getElem?_append_left hk]
      have hEnd := (c.linked.validAt hl₀).1
      rcases k with _ | k
      · rw [← List.head?_eq_getElem?, c.linked.head] at hl₀
        obtain rfl := Option.some.inj hl₀
        exact absurd rfl (c.wf.slot_ne_root hSlot)
      · have hPrev : base[k]? = some base[k] := List.getElem?_eq_getElem (Nat.lt_of_succ_lt hk)
        obtain ⟨rfl, _⟩ := c.wf.slot_unique hSlot (c.linked.slot hPrev hl₀) hEnd
        refine ⟨k, base[k], Nat.lt_succ_self k, ?_, rfl, fun j' _ hjj hjk => by omega⟩
        rw [hStack, List.getElem?_append_left (Nat.lt_of_succ_lt hk), hPrev]

/-- A shortcut makes no node full but the one it is made in: the others keep their children,
and a covered child that is left was covered before. -/
theorem Shortcut.full_of_full (hCut : Shortcut m.heap m'.heap p i) (wf : WellFormed m.heap m.next)
    (hNum : m'.numMembers = m.numMembers) (hk : m'.heap k = some nd) (hkp : k ≠ p)
    (hkEnd : k ≠ ENDNODE) (hFull : Full m' nd) : m.heap k = some nd ∧ Full m nd := by
  have hNot : ¬ Below m.heap p i k := fun hBelow => by
    rw [hCut.below k hBelow] at hk
    cases hk
  have hOld : m.heap k = some nd := by rw [← hCut.frame wf hNot hkp hkEnd, hk]
  refine ⟨hOld, hFull.mono hNum.symm fun j c hc hCov => ?_⟩
  have hcNot : ¬ Below m.heap p i c := by
    rintro ⟨top, hTop, hTopEnd, hDesc⟩
    by_cases hct : c = top
    · subst hct
      exact hkp (wf.slot_unique ⟨nd, hOld, hc⟩ hTop hTopEnd).1
    · exact hNot ⟨top, hTop, hTopEnd, wf.desc_parent hDesc hct ⟨nd, hOld, hc⟩⟩
  rwa [hCut.isCovered wf hcNot] at hCov

/-- A shortcut of a covered slot keeps the flags right, also in the node of the slot: the
end node there is covered as the subtree was. -/
theorem Flagged.shortcut (hFlag : Flagged m) (hCut : Shortcut m.heap m'.heap p i)
    (wf : WellFormed m.heap m.next) (hNum : m'.numMembers = m.numMembers)
    (hSlot : Slot m.heap p i c) (hCov : m.isCovered c = true) : Flagged m' := by
  intro k kd hk hkCov hFull
  by_cases hkEnd : k = ENDNODE
  · obtain ⟨_, hE⟩ := (hCut.wellFormed wf).endNode
    rw [hkEnd, hE] at hk
    obtain rfl := Option.some.inj hk
    cases hkCov
  -- the node of the slot, or another one
  · by_cases hkp : k = p
    · subst hkp
      obtain ⟨pd, hp, hc⟩ := hSlot
      have hp' := hCut.at_parent wf hp
      rw [hk] at hp'
      obtain rfl := Option.some.inj hp'
      refine hFlag k pd hp hkCov ⟨fun j hj => ?_, fun scope map lvar hKind => ?_⟩
      · by_cases hji : j = i
        · rw [hji]
          exact treeChildCovered_iff.mpr ⟨c, hc, hCov⟩
        · obtain ⟨d, hd, hdCov⟩ := treeChildCovered_iff.mp (hFull.children j (by
            rw [List.length_set]
            exact hj))
          have hd' : pd.children[j]? = some (some d) := by
            rwa [List.getElem?_set_ne (Ne.symm hji)] at hd
          -- another child of the node is not below the slot
          have hNot : ¬ Below m.heap k i d := by
            rintro ⟨top, hTop, hTopEnd, hDesc⟩
            by_cases hdt : d = top
            · subst hdt
              exact hji (wf.index ⟨pd, hp, hd'⟩ hTop hTopEnd)
            · have hkTop := wf.desc_le (wf.desc_parent hDesc hdt ⟨pd, hp, hd'⟩)
              exact absurd (wf.child hTop hTopEnd).1 (Nat.not_lt.mpr hkTop)
          exact treeChildCovered_iff.mpr ⟨d, hd', by rwa [← hCut.isCovered wf hNot]⟩
      · have hLen := hFull.complete scope map lvar hKind
        rw [List.length_set] at hLen
        rw [hLen, hNum]
    · obtain ⟨hOld, hFullOld⟩ := hCut.full_of_full wf hNum hk hkp hkEnd hFull
      exact hFlag k kd hOld hkCov hFullOld

-- ---------------------------------------------------------------------------
-- The states of a finish
-- ---------------------------------------------------------------------------

/-- Marking leaves the tree alone unless it covers the last selection. -/
theorem marked_of_same (hn : m.heap last.parent = some nd) (hSame : coveredLast reason nd = nd) :
    marked cfg m reason last nd =
      { m with infos := Manager.markedInfos cfg reason m.infos nd.kind last.childIndex } := by
  unfold marked
  rw [hSame, ← hn, Function.update_eq_self]

section Finish

variable (F : Finish cfg m reason path m' last nd m₂ mid hi)

include F

theorem Finish.ended_rest : m₂.infos =
    Manager.markedInfos cfg reason m.infos nd.kind last.childIndex ∧
    m₂.numMembers = m.numMembers ∧ m₂.next = m.next := by
  obtain ⟨loc, hE⟩ := F.ended
  rw [hE.rest]
  exact ⟨rfl, rfl, rfl⟩

theorem Finish.mid_rest : mid.infos = m₂.infos ∧ mid.numMembers = m₂.numMembers ∧
    mid.next = m₂.next := by
  rw [F.prop.recolored.rest]
  exact ⟨rfl, rfl, rfl⟩

theorem Finish.infos : m'.infos =
    Manager.markedInfos cfg reason m.infos nd.kind last.childIndex := by
  rw [F.rest]
  exact F.ended_rest.1

theorem Finish.completeMid : Complete mid (m.nodeStack.take (m.stackIndex + 1)) :=
  F.prop.recolored.complete F.complete

theorem Finish.labelledMid :
    Labelled mid.heap (m.nodeStack.take (m.stackIndex + 1)) (path.take (m.stackIndex + 1)) :=
  F.prop.recolored.labelled F.labelled

theorem Finish.le : hi ≤ (m.nodeStack.take (m.stackIndex + 1)).length := F.prop.le

/-- The flags of the state left are those after propagation. -/
theorem Finish.isCovered (hk : m'.heap k ≠ none) : m'.isCovered k = mid.isCovered k := by
  rcases F.cut with hSame | ⟨_, _, _, l, _, hCut, _⟩
  · unfold Manager.isCovered
    rw [hSame]
  · refine hCut.isCovered F.completeMid.wf fun hBelow => hk (hCut.below k hBelow)

/-- **The tree stays coherent**: the end of an execution only flags nodes and cuts subtrees
off. -/
theorem Finish.coherent (t : Tidy m) (hL : Labelled m.heap m.nodeStack path)
    (hC : Coherent script m.heap) : Coherent script m'.heap := by
  obtain ⟨loc, hE⟩ := F.ended
  have tM := t.marked cfg reason F.lastNode
  have hR := recolored_marked cfg reason F.lastNode
  have hLoc : (m.nodeStack.take (m.stackIndex + 1))[
      (m.nodeStack.take (m.stackIndex + 1)).length - 1]? = some loc := by
    rw [← List.getLast?_eq_getElem?]
    exact hE.last
  have hCM : Coherent script (marked cfg m reason last nd).heap := by
    refine Coherent.recolored ?_ hR
    exact hC
  have hC₂ : Coherent script m₂.heap := hCM.shortcut_at hE.cut tM.wf
    ((hR.labelled hL).take _) (tM.linked.take (Nat.succ_pos _)) hLoc
  have hCMid : Coherent script mid.heap := hC₂.recolored F.prop.recolored
  rcases F.cut with hSame | ⟨_, _, _, l, hl, hCut, _⟩
  · rw [hSame]
    exact hCMid
  · exact hCMid.shortcut_at hCut F.completeMid.wf F.labelledMid F.completeMid.linked hl

/-- **The flags are right again** when the search goes on. The end node makes the last node
of the path full, if it had no other child to try; propagation follows it up the path, and
the cut changes no flag. -/
theorem Finish.flagged (t : Tidy m) (hSame : coveredLast reason nd = nd)
    (hFlag : FlaggedAbove (m.nodeStack.take (m.stackIndex + 1))
      (m.nodeStack.take (m.stackIndex + 1)).length m) : Flagged m' := by
  obtain ⟨loc, hE⟩ := F.ended
  have tM := t.marked cfg reason F.lastNode
  have hM : marked cfg m reason last nd = { m with infos := _ } := marked_of_same F.lastNode hSame
  have hNumM : (marked cfg m reason last nd).numMembers = m.numMembers := rfl
  have hHeapM : (marked cfg m reason last nd).heap = m.heap := by rw [hM]
  have hCovM : ∀ k, (marked cfg m reason last nd).isCovered k = m.isCovered k := by
    intro k
    rw [hM]
    rfl
  generalize hBase : m.nodeStack.take (m.stackIndex + 1) = base at *
  -- the path up to the end node
  have hLinked : Linked m.heap base := by
    rw [← hBase]
    exact t.linked.take (Nat.succ_pos _)
  have hLast : base.getLast? = some loc := by
    rw [← hBase]
    exact hE.last
  have hCov₂ : ∀ l ∈ base, m₂.isCovered l.parent = m.isCovered l.parent := by
    intro l hl
    rw [hE.cut.isCovered tM.wf, hCovM]
    intro hBelow
    have hLe := hLinked.le_last t.wf hLast hl
    exact absurd (tM.wf.below_gt hBelow) (Nat.not_lt.mpr hLe)
  -- the end node fills the last slot of the path
  have hAbove : FlaggedAbove (base ++ [⟨ENDNODE, 0⟩]) base.length m₂ := by
    intro k kd hk hkCov hFull
    by_cases hkEnd : k = ENDNODE
    · obtain ⟨_, hEnd⟩ := F.complete.wf.endNode
      rw [hkEnd, hEnd] at hk
      obtain rfl := Option.some.inj hk
      cases hkCov
    by_cases hkLoc : k = loc.parent
    · have hPos := hLinked.length_pos
      refine ⟨base.length - 1, loc, by omega, ?_, hkLoc.symm, fun j' _ hj hj' => by omega⟩
      rw [List.getElem?_append_left (by omega), ← List.getLast?_eq_getElem?, hLast]
    · obtain ⟨hOld, hFullOld⟩ := hE.cut.full_of_full tM.wf F.ended_rest.2.1 hk hkLoc hkEnd hFull
      rw [hHeapM] at hOld
      obtain ⟨j, l, hj, hl, rfl, hBetween⟩ := hFlag k kd hOld hkCov
        (hFullOld.mono rfl fun _ c _ hc => by rwa [hCovM] at hc)
      refine ⟨j, l, hj, by rwa [List.getElem?_append_left hj], rfl, fun j' l' hjj hj' hl' => ?_⟩
      rw [List.getElem?_append_left hj'] at hl'
      rw [hCov₂ l' (List.mem_of_getElem? hl')]
      exact hBetween j' l' hjj hj' hl'
  have hStack : m₂.nodeStack = base ++ [⟨ENDNODE, 0⟩] := by
    rw [← hBase]
    exact F.complete.stack
  have hProp := F.prop
  rw [hStack, hBase] at hProp
  have hComplete := F.complete
  rw [hBase] at hComplete
  -- propagation repairs the flags, and the cut keeps them so
  have hMid : Flagged mid := hProp.flagged hComplete rfl (Nat.le_refl _) hAbove
  have hNum : m'.numMembers = mid.numMembers := by
    rw [F.mid_rest.2.1, F.rest]
  rcases F.cut with hHeap | ⟨hOne, hLe, _, l, hl, hCut, _⟩
  · exact hMid.congr hHeap hNum
  · rw [hBase] at hl hLe
    have hHi : base[hi]? = some base[hi] := List.getElem?_eq_getElem (by omega)
    have hSlot := (hProp.recolored.complete hComplete).linked.slot hl
      (show base[hi - 1 + 1]? = some base[hi] by rw [Nat.sub_add_cancel hOne, hHi])
    refine hMid.shortcut hCut F.completeMid.wf hNum hSlot ?_
    refine hProp.covered (Nat.le_refl _) (by omega) ?_
    rw [List.getElem?_append_left (by omega), hHi]

/-- Marking changes no flag unless it covers the last selection. -/
theorem Finish.marked_isCovered (hSame : coveredLast reason nd = nd) (k : Nat) :
    (marked cfg m reason last nd).isCovered k = m.isCovered k := by
  rw [marked_of_same F.lastNode hSame]
  rfl

/-- The nodes of the path keep their flags until they are propagated to. -/
theorem Finish.isCovered_base (t : Tidy m) (hSame : coveredLast reason nd = nd)
    (hl : l ∈ m.nodeStack.take (m.stackIndex + 1)) :
    m₂.isCovered l.parent = m.isCovered l.parent := by
  obtain ⟨loc, hE⟩ := F.ended
  have tM := t.marked cfg reason F.lastNode
  have hLinked : Linked m.heap (m.nodeStack.take (m.stackIndex + 1)) :=
    t.linked.take (Nat.succ_pos _)
  rw [hE.cut.isCovered tM.wf, F.marked_isCovered hSame]
  intro hBelow
  have hLe := hLinked.le_last t.wf hE.last hl
  exact absurd (tM.wf.below_gt hBelow) (Nat.not_lt.mpr hLe)

end Finish

/-- **The end of an execution is sound**: everything at and below its end is accounted for.
What the end node takes the place of is the leaf of this execution, which is good by
hypothesis; the nodes that propagation flags have children for which this holds. -/
theorem Finish.sound (F : Finish cfg m reason (.unit :: ρ) m' last nd m₂ mid hi) (t : Tidy m)
    (hL : Labelled m.heap m.nodeStack (.unit :: ρ)) (hPlain : Script.Plain script)
    (hC : Coherent script m.heap) (hSame : coveredLast reason nd = nd)
    (hSound : Sound script m good) (hMarks : MarksSound script m'.infos good)
    (hLeaves : ∀ leaf, LeafAt script ((Answer.unit :: ρ).take (m.stackIndex + 1)) leaf → good leaf) :
    Sound script m' good := by
  have tM := t.marked cfg reason F.lastNode
  have hM : Sound script (marked cfg m reason last nd) good := by
    refine hSound.of_covered fun q k hk hCov => ?_
    rw [F.marked_isCovered hSame] at hCov
    rw [marked_of_same F.lastNode hSame] at hk
    exact ⟨hk, hCov⟩
  -- the end node
  obtain ⟨loc, hE⟩ := F.ended
  have h₂ : Sound script m₂ good := hM.shortcut tM.wf hE.cut F.pruned hLeaves
  have hC₂ : Coherent script m₂.heap := by
    have hLoc : (m.nodeStack.take (m.stackIndex + 1))[
        (m.nodeStack.take (m.stackIndex + 1)).length - 1]? = some loc := by
      rw [← List.getLast?_eq_getElem?]
      exact hE.last
    have hHeapM : (marked cfg m reason last nd).heap = m.heap := by
      rw [marked_of_same F.lastNode hSame]
    have hCM : Coherent script (marked cfg m reason last nd).heap := by
      rw [hHeapM]
      exact hC
    have hLM : Labelled (marked cfg m reason last nd).heap m.nodeStack (.unit :: ρ) := by
      rw [hHeapM]
      exact hL
    exact hCM.shortcut_at hE.cut tM.wf (hLM.take _) (tM.linked.take (Nat.succ_pos _)) hLoc
  -- propagation
  -- propagation, with what holds of the tree after each step of the loop
  have hMid : Recolored m₂ mid ∧ Sound script mid good := by
    refine F.prop.preserves (P := fun x => Recolored m₂ x ∧ Sound script x good)
      ⟨.refl m₂, h₂⟩ ?_
    rintro x j l nd' ⟨hR, hx⟩ hj hl hn hRule
    have hcx := hR.complete F.complete
    rw [F.complete.getElem? hj] at hl
    have hInfos : x.infos = m'.infos := by
      rw [hR.rest, F.rest]
    have hLx : Labelled x.heap (m.nodeStack.take (m.stackIndex + 1))
        (.unit :: ρ.take m.stackIndex) := hR.labelled F.labelled
    refine ⟨hR.trans (.cover hn), hx.cover_at hcx.wf hLx hcx.linked (hC₂.recolored hR) hPlain ?_
      hl hn hRule⟩
    rw [hInfos]
    exact hMarks
  -- the cut: what is below a covered slot is accounted for already
  rcases F.cut with hHeap | ⟨hOne, hLe, _, l, hl, hCut, hPruned⟩
  · refine hMid.2.of_covered fun q k hk hCov => ?_
    have hFlag : m'.isCovered k = mid.isCovered k := by
      unfold Manager.isCovered
      rw [hHeap]
    rw [hHeap] at hk
    exact ⟨hk, by rwa [← hFlag]⟩
  · refine hMid.2.shortcut F.completeMid.wf hCut hPruned fun leaf hLeaf => ?_
    have hHi : (m.nodeStack.take (m.stackIndex + 1))[hi]? =
        some (m.nodeStack.take (m.stackIndex + 1))[hi] := List.getElem?_eq_getElem (by omega)
    refine hMid.2 _ _ (F.labelledMid.nodeAt_take F.completeMid.linked hHi) ?_ leaf hLeaf
    refine F.prop.covered (Nat.le_refl _) (by omega) ?_
    rw [F.complete.getElem? (by omega), hHi]

-- ---------------------------------------------------------------------------
-- The next execution
-- ---------------------------------------------------------------------------

/-- Where the stack ends after a finish: above the lowest location that is not
covered, and with something left to do in its last slot. -/
structure Resumes (m m' : Manager) (j : Nat) : Prop where
  pos   : 1 ≤ j
  lt    : j < (m.nodeStack.take (m.stackIndex + 1)).length
  stack : m'.nodeStack = m.nodeStack.take j
  open_ : Open m'

/-- Two locations of a path are at different nodes. -/
theorem Linked.parent_ne {h : Heap} {next : Nat} (hL : Linked h stack) (wf : WellFormed h next)
    {j : Nat} (hk : stack[k]? = some l) (hj : stack[j]? = some last) (hne : k ≠ j) :
    l.parent ≠ last.parent := by
  obtain ⟨hkLt, rfl⟩ := List.getElem?_eq_some_iff.mp hk
  obtain ⟨hjLt, rfl⟩ := List.getElem?_eq_some_iff.mp hj
  have hPair := hL.pairwise_lt wf
  rcases Nat.lt_or_gt_of_ne hne with hLt | hGt
  · exact Nat.ne_of_lt (List.pairwise_iff_getElem.mp hPair k j hkLt hjLt hLt)
  · exact Nat.ne_of_gt (List.pairwise_iff_getElem.mp hPair j k hjLt hkLt hGt)

/-- **The stack is truncated where something is left to do**, unless the root is covered.
The locations that are left are above the place where propagation has stopped, so none of
their nodes has been flagged. -/
theorem Finish.resumes (F : Finish cfg m reason path m' last nd m₂ mid hi) (t : Tidy m)
    (hSame : coveredLast reason nd = nd) (hLinked : Linked m'.heap m'.nodeStack)
    (hOpen : ∀ k l, k < m.stackIndex → m.nodeStack[k]? = some l → m.isCovered l.parent = false) :
    Resumes m m' (hi - 1) := by
  have hLe := F.le
  have hLen : (m.nodeStack.take (m.stackIndex + 1)).length ≤ m.stackIndex + 1 :=
    List.length_take_le _ _
  have hLenStack : (m.nodeStack.take (m.stackIndex + 1)).length ≤ m.nodeStack.length :=
    List.length_take_le' _ _
  have hTake : m'.nodeStack = m.nodeStack.take (hi - 1) := by
    rw [F.rest]
    show m₂.nodeStack.take (hi - 1) = _
    rw [F.complete.stack, List.take_append_of_le_length (by omega), List.take_take,
      Nat.min_eq_left (by omega)]
  have hPos : 1 ≤ hi - 1 := by
    have hPosStack := hLinked.length_pos
    rw [hTake, List.length_take] at hPosStack
    omega
  -- a location of the stack that is left was not propagated to
  have hLeft : ∀ (k : Nat) (l : ChildLoc), k < hi - 1 → m.nodeStack[k]? = some l →
      mid.isCovered l.parent = false := by
    intro k l hk hl
    have hlBase : (m.nodeStack.take (m.stackIndex + 1))[k]? = some l := by
      rw [List.getElem?_take_of_lt (by omega), hl]
    have hFrame : mid.heap l.parent = m₂.heap l.parent := by
      refine F.prop.frame fun j l' hj hjk hl' => ?_
      rw [F.complete.getElem? hjk] at hl'
      exact F.complete.linked.parent_ne F.complete.wf hl' hlBase (by omega)
    have hFlag : mid.isCovered l.parent = m₂.isCovered l.parent := by
      unfold Manager.isCovered
      rw [hFrame]
    rw [hFlag, F.isCovered_base t hSame (List.mem_of_getElem? hlBase)]
    exact hOpen k l (by omega) hl
  refine ⟨hPos, by omega, hTake, ?_, ?_⟩
  -- the nodes on the stack that is left
  · intro l hl
    obtain ⟨_, ld, hld, _⟩ := hLinked.valid l hl
    rw [F.isCovered (by rw [hld]; exact Option.some_ne_none _)]
    rw [hTake] at hl
    obtain ⟨k, hk, hkl⟩ := List.getElem_of_mem hl
    rw [List.length_take] at hk
    refine hLeft k l (by omega) ?_
    rw [← hkl, List.getElem_take, List.getElem?_eq_getElem]
  -- the node below the last of them
  · intro last' c hLast' hSlot
    -- the last slot holds the node propagation has stopped at
    obtain ⟨l, kd, hl, hkd, hU, _⟩ := F.prop.uncovered (by omega)
    rw [F.complete.getElem? (by omega)] at hl
    have hPrev : (m.nodeStack.take (m.stackIndex + 1))[hi - 2]? = some last' := by
      rw [hTake, List.getLast?_eq_getElem?, List.length_take, Nat.min_eq_left (by omega),
        List.getElem?_take_of_lt (by omega)] at hLast'
      rw [List.getElem?_take_of_lt (by omega), ← hLast', show hi - 1 - 1 = hi - 2 from by omega]
    have hSlotMid : Slot mid.heap last'.parent last'.childIndex l.parent := by
      refine F.completeMid.linked.slot hPrev ?_
      rw [show hi - 2 + 1 = hi - 1 from by omega, hl]
    -- the cut is below this slot
    have hcl : c = l.parent := by
      rcases F.cut with hHeap | ⟨_, _, _, lc, hlc, hCut, _⟩
      · rw [hHeap] at hSlot
        obtain ⟨d, hd, hc⟩ := hSlot
        obtain ⟨d', hd', hc'⟩ := hSlotMid
        rw [hd] at hd'
        obtain rfl := Option.some.inj hd'
        rw [hc] at hc'
        exact Option.some.inj (Option.some.inj hc')
      · rw [hl] at hlc
        obtain rfl := Option.some.inj hlc
        have hNe := F.completeMid.linked.parent_ne F.completeMid.wf hPrev hl (by omega)
        rcases (hCut.slot_iff F.completeMid.wf _ _ _).mp hSlot with ⟨hp, _, _⟩ | ⟨_, _, hOld⟩
        · exact absurd hp hNe
        · obtain ⟨d, hd, hc⟩ := hOld
          obtain ⟨d', hd', hc'⟩ := hSlotMid
          rw [hd] at hd'
          obtain rfl := Option.some.inj hd'
          rw [hc] at hc'
          exact Option.some.inj (Option.some.inj hc')
    rw [hcl]
    have hMidCov : mid.isCovered l.parent = false := (isCovered_of_node hkd).trans hU
    rcases hm : m'.heap l.parent with _ | kd'
    · unfold Manager.isCovered
      rw [hm]
    · rw [F.isCovered (by rw [hm]; exact Option.some_ne_none _), hMidCov]

theorem Resumes.le {j : Nat} (hR : Resumes m m' j) : j ≤ m.stackIndex := by
  have hLt := hR.lt
  have hLen := List.length_take_le (m.stackIndex + 1) m.nodeStack
  omega

/-- The stack that is left lies along the old path, as a part of it that has not been cut.
-/
theorem Finish.labelled_left {j : Nat} (F : Finish cfg m reason path m' last nd m₂ mid hi)
    (hLinked : Linked m'.heap m'.nodeStack) (hR : Resumes m m' j) :
    Labelled m'.heap m'.nodeStack (path.take j) := by
  have hLe := hR.le
  have hBase : m'.nodeStack = (m.nodeStack.take (m.stackIndex + 1)).take j := by
    rw [hR.stack, List.take_take, Nat.min_eq_left (by omega)]
  have hLMid : Labelled mid.heap m'.nodeStack (path.take j) := by
    have hTake := F.labelledMid.take j
    rwa [← hBase, List.take_take, Nat.min_eq_left (by omega)] at hTake
  rcases F.cut with hHeap | ⟨_, _, _, l, _, hCut, _⟩
  · rw [hHeap]
    exact hLMid
  · refine hCut.labelled F.completeMid.wf hLMid fun l' hl' hBelow => ?_
    obtain ⟨_, ld, hld, _⟩ := hLinked.valid l' hl'
    rw [hCut.below _ hBelow] at hld
    cases hld

/-- What is left to do below the root: with the root not covered its only child is not
covered either. -/
theorem open_root (wf : WellFormed m.heap m.next) (hFlag : Flagged m)
    (hRoot : m.isCovered ROOTNODE = false) (hStack : m.nodeStack = [⟨ROOTNODE, 0⟩]) : Open m := by
  obtain ⟨rd, hrd, hKind⟩ := wf.root
  have hLen : rd.children.length = 1 := by
    rw [wf.shape hrd, hKind]
    rfl
  constructor
  · intro l hl
    rw [hStack, List.mem_singleton] at hl
    rw [hl]
    exact hRoot
  · intro last c hLast hSlot
    rw [hStack, List.getLast?_singleton] at hLast
    obtain rfl := Option.some.inj hLast
    obtain ⟨rd', hrd', hc⟩ := hSlot
    have hrd'' : m.heap ROOTNODE = some rd' := hrd'
    rw [hrd] at hrd''
    obtain rfl := Option.some.inj hrd''
    by_contra hCov
    refine hFlag ROOTNODE rd hrd ((isCovered_of_node hrd).symm.trans hRoot) ⟨fun j hj => ?_, ?_⟩
    · rw [show j = 0 from by omega]
      exact treeChildCovered_iff.mpr ⟨c, hc, by simpa using hCov⟩
    · intro scope map lvar hk
      rw [hKind] at hk
      cases hk

/-- The answers the next execution is going to replay. -/
def resumedPath (cfg : Cfg) (ρ : List Answer) (j : Nat) : List Answer :=
  if cfg.keepExecutionTree = true then [] else ρ.take (j - 1)

/-- **The next execution starts on a path of the script** with something left to do. With
`KeepExecutionTree` it starts at the root again, otherwise with the stack that is left. -/
theorem Finish.restarted {j : Nat} {m'' : Manager}
    (F : Finish cfg m reason (.unit :: ρ) m' last nd m₂ mid hi) (t : Tidy m)
    (hL : Labelled m.heap m.nodeStack (.unit :: ρ)) (hA : Admissible script ρ)
    (hC : Coherent script m.heap) (wf : WellFormed m'.heap m'.next)
    (hLinked : Linked m'.heap m'.nodeStack) (hFlag : Flagged m') (hR : Resumes m m' j)
    (hRoot : m'.isCovered ROOTNODE = false) (hRestart : m'.restart cfg = some m'') :
    Tracks script m'' [] (resumedPath cfg ρ j) ∧ Open m'' ∧ m''.heap = m'.heap ∧
      m''.infos = m'.infos ∧ m''.numMembers = m'.numMembers ∧ m''.stackIndex = 1 := by
  have hC' := F.coherent t hL hC
  have hLeft := F.labelled_left hLinked hR
  rw [restart_eq cfg hLinked] at hRestart
  obtain rfl := Option.some.inj hRestart
  unfold resumedPath
  refine ⟨?_, ?_, rfl, rfl, rfl, rfl⟩
  -- the path to follow
  · by_cases hKeep : cfg.keepExecutionTree = true
    · simp only [hKeep, if_true]
      refine ⟨⟨rfl, ?_⟩, rfl, admissible_nil script, hC'⟩
      intro k l a hl ha
      rcases k with _ | k
      · obtain rfl : ⟨ROOTNODE, 0⟩ = l := Option.some.inj hl
        obtain rfl : Answer.unit = a := Option.some.inj ha
        obtain ⟨rd, hrd, hKind⟩ := wf.root
        exact ⟨rd, hrd, by rw [hKind]; rfl⟩
      · cases hl
    · simp only [hKeep, Bool.false_eq_true, if_false]
      have hPath : (Answer.unit :: ρ).take j = .unit :: ρ.take (j - 1) := by
        obtain ⟨j, rfl⟩ := Nat.exists_eq_add_of_le' hR.pos
        rfl
      rw [hPath] at hLeft
      exact ⟨hLeft, rfl, hA.take _, hC'⟩
  -- what is left to do
  · by_cases hKeep : cfg.keepExecutionTree = true
    · simp only [hKeep, if_true]
      exact open_root wf (hFlag.congr rfl rfl) hRoot rfl
    · simp only [hKeep, Bool.false_eq_true, if_false]
      exact ⟨hR.open_.stack, hR.open_.last⟩

end Concurrit.Model
