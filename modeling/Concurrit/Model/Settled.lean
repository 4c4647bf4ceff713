import Concurrit.Model.Progress
import Concurrit.Model.Search

/-!
# Concurrit — covered nodes have covered children

An invariant of every exploration, whatever its script: a child of a covered
node is covered itself, unless it hangs at a branch that is marked as ending
(`SettledAt`). Nodes on the stack are exempt, since the end of an execution may
cover a selection it cannot go on with; they are deleted with the stack's lower
end. The locations consumed so far are never covered.
-/

namespace Concurrit.Model

open Function (update)

variable {cfg : Cfg} {script : Script} {nondet : StaticId → Bool} {numMembers : Nat}
  {n i k : Nat} {m m' m₁ m₂ mid : Manager} {nd nd' : Node} {l last loc : ChildLoc} {op : Op}
  {env : Env} {r : OpResult} {reason : BacktrackReason} {s s' : Explorer} {base : List ChildLoc}

-- ---------------------------------------------------------------------------
-- Marked branches
-- ---------------------------------------------------------------------------

/-- Branch `i` of the choice is marked as ending. -/
def EndingMarked (m : Manager) (nd : Node) (i : Nat) : Prop :=
  ∃ s, nd.kind = .choice s ∧ (m.infos s).covered (i == 1) = true

theorem childCovered_iff :
    m.childCovered nd i = true ↔ m.treeChildCovered nd i = true ∨ EndingMarked m nd i := by
  unfold Manager.childCovered EndingMarked
  rcases hKind : nd.kind with _ | _ | s | _ | _ | _ | _ | _ <;> simp

/-- **The coverage rule**: every child counts as covered, and a FORALL node has all of them.
The choice node has its own rule in the code, which comes to the same. -/
theorem coverageRule_iff (hShape : nd.children.length = nd.kind.numChildren) :
    m.coverageRule nd = true ↔ (∀ j < nd.children.length, m.childCovered nd j = true) ∧
      ∀ scope map lvar, nd.kind = .forallThread scope map lvar →
        nd.children.length = if scope.size = 0 then m.numMembers else scope.size := by
  unfold Manager.coverageRule
  rcases hKind : nd.kind with _ | _ | s | _ | ⟨scope, map, lvar⟩ | _ | _ | _
  -- two children, tested one by one
  case choice =>
    have hLen : nd.children.length = 2 := by
      rw [hShape, hKind]
      rfl
    simp only [hLen, Bool.and_eq_true]
    constructor
    · rintro ⟨h0, h1⟩
      refine ⟨fun j hj => ?_, by simp⟩
      rcases Nat.le_one_iff_eq_zero_or_eq_one.mp (Nat.le_of_lt_succ hj) with rfl | rfl
      · exact h0
      · exact h1
    · rintro ⟨hAll, _⟩
      exact ⟨hAll 0 (by omega), hAll 1 (by omega)⟩
  -- the size of the scope, or of all members, is tested first
  case forallThread =>
    simp only [Bool.and_eq_true, beq_iff_eq, childrenCovered_iff]
    constructor
    · rintro ⟨hLen, hAll⟩
      refine ⟨fun j hj => ?_, ?_⟩
      · rw [Manager.childCovered, hKind]
        exact hAll j hj
      · rintro _ _ _ hEq
        obtain ⟨rfl, rfl, rfl⟩ := NodeKind.forallThread.inj hEq
        exact hLen
    · rintro ⟨hAll, hLen⟩
      refine ⟨hLen _ _ _ rfl, fun j hj => ?_⟩
      have hCov := hAll j hj
      rwa [Manager.childCovered, hKind] at hCov
  all_goals simp [childrenCovered_iff, Manager.childCovered, hKind]

/-- What hangs below the node is covered, or hangs at a marked branch. -/
def SettledAt (m : Manager) (nd : Node) : Prop :=
  ∀ i c : Nat, nd.children[i]? = some (some c) → m.isCovered c = true ∨ EndingMarked m nd i

/-- A node the rule covers is settled: this is the rule for all its children. -/
theorem settledAt_of_rule (hShape : nd.children.length = nd.kind.numChildren)
    (hRule : m.coverageRule nd = true) : SettledAt m nd := by
  intro i c hc
  have hLt := (List.getElem?_eq_some_iff.mp hc).1
  rcases childCovered_iff.mp (((coverageRule_iff hShape).mp hRule).1 i hLt) with hCov | hMark
  · obtain ⟨c', hc', hCov⟩ := treeChildCovered_iff.mp hCov
    rw [hc] at hc'
    rw [Option.some.inj (Option.some.inj hc')]
    exact Or.inl hCov
  · exact Or.inr hMark

/-- A node stays settled while flags and marks only grow, and its new children are covered.
-/
theorem SettledAt.mono (hS : SettledAt m nd) (hKind : nd'.kind = nd.kind)
    (hKids : ∀ i c : Nat, nd'.children[i]? = some (some c) →
      nd.children[i]? = some (some c) ∨ m'.isCovered c = true)
    (hCov : ∀ i c : Nat, nd'.children[i]? = some (some c) → m.isCovered c = true → m'.isCovered c = true)
    (hMarks : ∀ s b, (m.infos s).covered b = true → (m'.infos s).covered b = true) :
    SettledAt m' nd' := by
  intro i c hc
  rcases hKids i c hc with hOld | hNew
  · rcases hS i c hOld with hC | ⟨s, hs, hMark⟩
    · exact Or.inl (hCov i c hc hC)
    · exact Or.inr ⟨s, hKind.trans hs, hMarks s _ hMark⟩
  · exact Or.inl hNew

-- ---------------------------------------------------------------------------
-- The invariant
-- ---------------------------------------------------------------------------

/-- Covered nodes that are not on the stack are settled. -/
def SettledOff (m : Manager) : Prop :=
  ∀ n nd, (∀ l ∈ m.nodeStack, l.parent ≠ n) → m.heap n = some nd → nd.covered = true → SettledAt m nd

structure Settled (cfg : Cfg) (m : Manager) : Prop where
  consumed : ∀ k l, k < m.stackIndex → m.nodeStack[k]? = some l → m.isCovered l.parent = false
  whole    : cfg.keepExecutionTree = true → m.stackIndex = m.nodeStack.length
  settled  : cfg.deleteCoveredSubtrees = true → SettledOff m

/-- Submitting a node covers none and gives no covered node a child. The node itself is
open. -/
theorem Submitted.settled (hS : Submitted m n nd m₁) (t : Tidy m) (h : Settled cfg m) :
    Settled cfg m₁ where
  consumed k l hk hl := by
    rw [hS.stack.1] at hl
    rw [hS.stack.2] at hk
    rw [hS.isCovered_eq t]
    exact h.consumed k l hk hl
  whole hKeep := by
    rw [hS.stack.1, hS.stack.2]
    exact h.whole hKeep
  -- the submitted node is not covered
  settled hDel := by
    intro k kd hOff hk hCov
    have hkn : k ≠ n := by
      rintro rfl
      rw [hS.node] at hk
      obtain rfl := Option.some.inj hk
      rw [hS.covered] at hCov
      cases hCov
    rw [hS.frame hkn] at hk
    rw [hS.stack.1] at hOff
    refine SettledAt.mono (h.settled hDel k kd hOff hk hCov) rfl (fun _ _ => Or.inl) (fun _ c _ hc => ?_)
      fun s b hb => ?_
    · rwa [hS.isCovered_eq t]
    · rwa [hS.infos]

/-- Consuming a node touches it and the node it hangs under. -/
theorem Consumed.frame (hC : Consumed m n i m') (hkn : k ≠ n) (hOff : ∀ l ∈ m.nodeStack, l.parent ≠ k) :
    m'.heap k = m.heap k := by
  cases hC with
  | recorded => rfl
  | linked => rfl
  | loose last pd nd hEnd hLast =>
    have hkp := hOff last (List.mem_of_getLast? hLast)
    show update (update m.heap last.parent _) n _ k = m.heap k
    rw [Function.update_of_ne hkn, Function.update_of_ne (Ne.symm hkp)]

/-- Consuming links a node below the last location only, which is not covered. All other
nodes keep their slots. -/
theorem Consumed.settled (hC : Consumed m n i m') (t : Tidy m) (hn : m.isCovered n = false)
    (h : Settled cfg m) : Settled cfg m' where
  consumed k l hk hl := by
    rw [hC.isCovered]
    -- the locations consumed so far, and the new one
    rw [hC.stackIndex] at hk
    rcases Nat.lt_or_eq_of_le (Nat.le_of_lt_succ hk) with hLt | rfl
    · refine h.consumed k l hLt ?_
      rcases hC.stack_cases with ⟨hStack, _⟩ | hStack
      · rwa [hStack] at hl
      · rwa [hStack, List.getElem?_append_left (Nat.lt_of_lt_of_le hLt t.le)] at hl
    -- the new location is the node just consumed
    · have hLast := hC.getLast
      rw [Manager.getLastNodeInStack_eq_some, hC.stackIndex, Nat.add_sub_cancel, hl] at hLast
      rw [Option.some.inj hLast.2]
      exact hn
  -- a stack that is kept is at its end already
  whole hKeep := by
    have hEnd := h.whole hKeep
    cases hC with
    | recorded hNext => exact absurd (List.getElem?_eq_some_iff.mp hNext).1 (by omega)
    | linked => simp [hEnd]
    | loose => simp [hEnd]
  -- a covered node is neither the consumed one nor the parent of the link
  settled hDel := by
    intro k kd hOff hk hCov
    have hOffOld : ∀ l ∈ m.nodeStack, l.parent ≠ k := by
      intro l hl
      refine hOff l ?_
      rcases hC.stack_cases with ⟨hStack, _⟩ | hStack
      · rwa [hStack]
      · rw [hStack]
        exact List.mem_append_left _ hl
    have hkn : k ≠ n := by
      rintro rfl
      rw [← hC.isCovered, isCovered_of_node hk, hCov] at hn
      cases hn
    rw [hC.frame hkn hOffOld] at hk
    refine SettledAt.mono (h.settled hDel k kd hOffOld hk hCov) rfl (fun _ _ => Or.inl)
      (fun _ c _ hc => ?_) fun s b hb => ?_
    · rwa [hC.isCovered]
    · rwa [hC.infos]

/-- The next node is not one of the nodes consumed so far. -/
theorem Tidy.next_ne_consumed (t : Tidy m) {idx : Option Nat}
    (hNext : m.getNextNodeInStack = some (some n, idx)) (hk : k < m.stackIndex)
    (hl : m.nodeStack[k]? = some l) : l.parent ≠ n := by
  rintro rfl
  have hPair := t.linked.pairwise_lt t.wf
  rcases t.next_cases hNext with ⟨l', hl', hEq, _⟩ | ⟨hEnd, _, last, pd, hLast, hp, ho⟩
  · have hLt : l.parent < l'.parent := by
      obtain ⟨hk₁, hk₂⟩ := List.getElem?_eq_some_iff.mp hl
      obtain ⟨hj₁, hj₂⟩ := List.getElem?_eq_some_iff.mp hl'
      rw [← hk₂, ← hj₂]
      exact List.pairwise_iff_getElem.mp hPair k m.stackIndex hk₁ hj₁ hk
    rw [Option.some.inj hEq] at hLt
    exact absurd hLt (Nat.lt_irrefl _)
  · have hMem := List.mem_of_getElem? hl
    have hLe := t.linked.le_last t.wf hLast hMem
    have hLt := (t.wf.child ⟨pd, hp, ho⟩ (t.linked.valid l hMem).1).1
    omega

/-- **An operation keeps the invariant.** It covers a node in one case only, and there the
coverage rule holds. -/
theorem OpStep.settled (hStep : OpStep m op env m' r) (t : Tidy m) (h : Settled cfg m) :
    Settled cfg m' := by
  cases hStep with
  | consumed n nd m₁ i m' a hS hTakes hC =>
    exact hC.settled (hS.tidy t) hS.isCovered_self (hS.settled t h)
  | pending n nd m' reason hS => exact hS.settled t h
  -- the node is found covered, or covered by the rule
  | covered n nd idx hNext hn _ hRule =>
    have hR := Recolored.cover hn
    refine ⟨fun k l hk hl => ?_, h.whole, fun hDel k kd hOff hk hCov => ?_⟩
    · rw [isCovered_setNode_of_ne (t.next_ne_consumed hNext hk hl)]
      exact h.consumed k l hk hl
    · have hAt : SettledAt m { kd with covered := true } := by
        by_cases hkn : k = n
        · subst hkn
          -- this node: by the rule, or since it was settled before
          rw [show (m.setNode k { nd with covered := true }).heap k = _ from
            Function.update_self ..] at hk
          obtain rfl := Option.some.inj hk
          rcases hRule with hC | hRule
          · exact h.settled hDel k nd hOff hn hC
          · have hShape := t.wf.shape hn
            exact settledAt_of_rule hShape hRule
        -- any other node
        · rw [show (m.setNode n { nd with covered := true }).heap k = _ from
            Function.update_of_ne hkn ..] at hk
          exact h.settled hDel k kd hOff hk hCov
      exact SettledAt.mono hAt rfl (fun _ _ => Or.inl) (fun _ _ _ => hR.isCovered) fun _ _ => id
  | idle => exact h

-- ---------------------------------------------------------------------------
-- Cutting the tree
-- ---------------------------------------------------------------------------

/-- What a node that stays holds in another slot stays. -/
theorem child_not_below {h : Heap} {next p j d : Nat} (wf : WellFormed h next)
    (hk : ¬ Below h p i k) (hne : ¬ (k = p ∧ j = i)) (hSlot : Slot h k j d) : ¬ Below h p i d := by
  rintro ⟨top, hTop, hTopEnd, hDesc⟩
  by_cases hdt : d = top
  · subst hdt
    exact hne (wf.slot_unique hSlot hTop hTopEnd)
  · exact hk ⟨top, hTop, hTopEnd, wf.desc_parent hDesc hdt hSlot⟩

/-- Along a linked path later nodes lie below earlier locations. -/
theorem Linked.below {h : Heap} {stack : List ChildLoc} {l' : ChildLoc} (hL : Linked h stack)
    (hij : i < k) (hi : stack[i]? = some l) (hk : stack[k]? = some l') :
    Below h l.parent l.childIndex l'.parent := by
  have hLt : i + 1 < stack.length :=
    Nat.lt_of_le_of_lt hij (List.getElem?_eq_some_iff.mp hk).1
  have hNext := List.getElem?_eq_getElem hLt
  exact ⟨_, hL.slot hi hNext, (hL.validAt hNext).1, hL.desc hij hNext hk⟩

/-- A node that stays is settled if it was: a slot changes to the end node only, which is
covered. -/
theorem SettledAt.shortcut {p : Nat} (hCut : Shortcut m.heap m'.heap p i) (wf : WellFormed m.heap m.next)
    (hInfos : m'.infos = m.infos) (hk : m'.heap k = some nd') :
    ∃ nd, m.heap k = some nd ∧ nd'.covered = nd.covered ∧ nd'.kind = nd.kind ∧
      (SettledAt m nd → SettledAt m' nd') := by
  -- a node that stays was not below the cut
  have hNot : ¬ Below m.heap p i k := fun hBelow => by
    rw [hCut.below k hBelow] at hk
    cases hk
  obtain ⟨nd, hn⟩ : ∃ nd, m.heap k = some nd := by
    by_cases hkEnd : k = ENDNODE
    · obtain ⟨_, hE⟩ := wf.endNode
      exact ⟨_, hkEnd ▸ hE⟩
    · by_cases hkp : k = p
      · obtain ⟨_, pd, hp, _⟩ := hCut.valid
        exact ⟨pd, hkp ▸ hp⟩
      · exact ⟨nd', by rw [← hCut.frame wf hNot hkp hkEnd, hk]⟩
  obtain ⟨nd'', hn', hKind, hCov, _⟩ := hCut.node_of_not_below wf hNot hn
  rw [hk] at hn'
  obtain rfl := Option.some.inj hn'
  refine ⟨nd, hn, hCov, hKind, fun hS => hS.mono hKind (fun j d hd => ?_) (fun j d hd hdCov => ?_)
    fun s b => ?_⟩
  -- its children are old ones or the end node
  · rcases (hCut.slot_iff wf k j d).mp ⟨nd', hk, hd⟩ with ⟨_, _, rfl⟩ | ⟨_, _, nd₁, hn₁, hd₁⟩
    · exact Or.inr (isCovered_of_node (hCut.at_end wf))
    · rw [hn] at hn₁
      obtain rfl := Option.some.inj hn₁
      exact Or.inl hd₁
  -- an old child is as covered as before
  · rcases (hCut.slot_iff wf k j d).mp ⟨nd', hk, hd⟩ with ⟨_, _, rfl⟩ | ⟨hne, _, hSlot⟩
    · exact isCovered_of_node (hCut.at_end wf)
    · rwa [hCut.isCovered wf (child_not_below wf hNot hne hSlot)]
  · rw [hInfos]
    exact id

-- ---------------------------------------------------------------------------
-- The end of an execution
-- ---------------------------------------------------------------------------

/-- Marks grow: ending an execution sets flags and clears none. -/
theorem markedInfos_mono (cfg : Cfg) (reason : BacktrackReason) (infos : StaticId → StaticChoiceInfo)
    (kind : NodeKind) (i : Nat) (s : StaticId) (b : Bool) (hb : (infos s).covered b = true) :
    (Manager.markedInfos cfg reason infos kind i s).covered b = true := by
  unfold Manager.markedInfos
  split
  · rename_i s'
    split
    · by_cases hs : s = s'
      · subst hs
        rw [Function.update_self]
        unfold StaticChoiceInfo.setCovered
        simp only
        split <;> first | rfl | exact hb
      · rwa [Function.update_of_ne hs]
    · exact hb
  · exact hb

/-- Covering the last node does not matter, as it is still on the stack. -/
theorem SettledOff.marked (h : SettledOff m) (cfg : Cfg) (reason : BacktrackReason)
    (hLast : last ∈ m.nodeStack) (hn : m.heap last.parent = some nd) :
    SettledOff (marked cfg m reason last nd) := by
  intro k kd hOff hk hCov
  have hkn : k ≠ last.parent := Ne.symm (hOff last hLast)
  have hOld : m.heap k = some kd := (Function.update_of_ne hkn ..).symm.trans hk
  exact SettledAt.mono (h k kd hOff hOld hCov) rfl (fun _ _ => Or.inl)
    (fun _ _ _ hc => (recolored_marked cfg reason hn).isCovered hc)
    fun s b => markedInfos_mono cfg reason m.infos nd.kind last.childIndex s b

/-- Inserting the end node frees the part of the stack it drops. A covered node there is
either on the stack still, which exempts it, or below the cut and gone. -/
theorem Ended.settledOff (hE : Ended m m₂ loc) (t : Tidy m) (h : SettledOff m) : SettledOff m₂ := by
  intro k kd' hOff hk hCov
  have hStack : m₂.nodeStack = m.nodeStack.take (m.stackIndex + 1) ++ [⟨ENDNODE, 0⟩] := by
    rw [hE.rest]
  have hInfos : m₂.infos = m.infos := by rw [hE.rest]
  obtain ⟨kd, hkd, hCovSame, _, hSettled⟩ := SettledAt.shortcut hE.cut t.wf hInfos hk
  refine hSettled (h k kd (fun l hl hlk => ?_) hkd (hCovSame ▸ hCov))
  obtain ⟨j, hj, hjl⟩ := List.getElem_of_mem hl
  have hjl' : m.nodeStack[j]? = some l := by rw [List.getElem?_eq_getElem hj, hjl]
  -- a location that is dropped is below the cut
  rcases Nat.lt_or_ge j (m.stackIndex + 1) with hLt | hGe
  · refine hOff l ?_ hlk
    rw [hStack]
    exact List.mem_append_left _ (List.mem_take_iff_getElem.mpr ⟨j, by omega, hjl⟩)
  · have hLast := hE.last
    rw [List.getLast?_eq_getElem?, List.length_take, List.getElem?_take_of_lt (by omega),
      show min (m.stackIndex + 1) m.nodeStack.length - 1 = m.stackIndex from by omega] at hLast
    have hBelow := t.linked.below (by omega) hLast hjl'
    rw [hlk] at hBelow
    rw [hE.cut.below k hBelow] at hk
    cases hk

/-- Propagation covers nodes of the stack only, and these are exempt. -/
theorem Propagated.settledOff {stack : List ChildLoc} {j : Nat} (hP : Propagated stack m j mid i)
    (hStack : m.nodeStack = stack) (h : SettledOff m) : SettledOff mid := by
  intro k kd hOff hk hCov
  have hRest : mid.nodeStack = m.nodeStack ∧ mid.infos = m.infos := by
    rw [hP.recolored.rest]
    exact ⟨rfl, rfl⟩
  rw [hRest.1, hStack] at hOff
  rw [hP.frame fun _ l _ _ hl => hOff l (List.mem_of_getElem? hl)] at hk
  refine SettledAt.mono (h k kd (hStack ▸ hOff) hk hCov) rfl (fun _ _ => Or.inl)
    (fun _ _ _ hc => hP.recolored.isCovered hc) fun s b => ?_
  rw [hRest.2]
  exact id

/-- The end node is settled. -/
theorem settledAt_end (wf : WellFormed m.heap m.next) (hn : m.heap ENDNODE = some nd) :
    SettledAt m nd := by
  obtain ⟨_, hE⟩ := wf.endNode
  intro j c hc
  obtain rfl : c = ENDNODE := wf.slot_endNode ⟨nd, hn, hc⟩
  exact Or.inl (isCovered_of_node hE)

/-- **A backtrack that leaves the root uncovered** deletes the covered end of the stack. The
nodes it takes off the stack without deleting them are those that it has just found
uncovered. -/
theorem Backtracked.settledOff (hB : Backtracked cfg m base m') (c : Complete m base)
    (h : SettledOff m) (hDel : cfg.deleteCoveredSubtrees = true)
    (hRoot : m'.isCovered ROOTNODE = false) : SettledOff m' := by
  obtain ⟨wf', _, _⟩ := hB.linked c hRoot
  obtain ⟨mid, hi, h', hProp, hNe, hKeep, hCut⟩ := hB
  have c' := hProp.recolored.complete c
  have hMid := hProp.settledOff rfl h
  have hStack : mid.nodeStack = m.nodeStack := by rw [hProp.recolored.rest]
  have hLe := hProp.le
  -- the loop stops before the root
  have hPos : hi ≠ 0 := by
    rintro rfl
    obtain ⟨l, hl, hCov⟩ := hProp.at_hi c
    rw [c.getElem? c.length_pos, ← List.head?_eq_getElem?, c.linked.head] at hl
    obtain rfl := Option.some.inj hl
    have hSame : h' = mid.heap := hKeep fun hBoth => absurd hBoth.2.1 (by omega)
    subst hSame
    have hRoot' : mid.isCovered ROOTNODE = false := hRoot
    rw [show mid.isCovered ROOTNODE = true from hCov] at hRoot'
    cases hRoot'
  intro k kd' hOff hk hCov
  by_cases hkEnd : k = ENDNODE
  · subst hkEnd
    exact settledAt_end wf' hk
  -- the node was there before, and not at the covered end of the path
  obtain ⟨kd, hkd, hCovSame, hSettled, hUpper⟩ : ∃ kd, mid.heap k = some kd ∧
      kd'.covered = kd.covered ∧ (SettledAt mid kd → SettledAt _ kd') ∧
      ∀ j l, hi ≤ j → base[j]? = some l → l.parent ≠ k := by
    -- the covered subtree is deleted
    by_cases hShort : hi ≤ base.length - 1
    · obtain ⟨l, hl, hCut⟩ := hCut hDel (by omega) hShort
      obtain ⟨kd, hkd, hCovSame, _, hSettled⟩ := SettledAt.shortcut  hCut c'.wf
        (by rw [hProp.recolored.rest]) hk
      refine ⟨kd, hkd, hCovSame, hSettled, fun j l' hj hl' hlk => ?_⟩
      have hBelow := c'.linked.below (by omega) hl hl'
      rw [hlk] at hBelow
      have hFreed : h' k = none := hCut.below k hBelow
      rw [show h' k = some kd' from hk] at hFreed
      cases hFreed
    -- it is not, since there is nothing below the last location
    · have hSame : h' = mid.heap := hKeep fun hBoth => hShort hBoth.2.2
      subst hSame
      refine ⟨kd', hk, rfl, fun hS => hS.mono rfl (fun _ _ => Or.inl) (fun _ _ _ hc => hc) ?_,
        fun j l' hj hl' => ?_⟩
      · intro s b
        rw [hProp.recolored.rest]
        exact id
      · exact absurd (List.getElem?_eq_some_iff.mp hl').1 (by omega)
  refine hSettled (hMid k kd (fun l hl hlk => ?_) hkd (hCovSame ▸ hCov))
  rw [hStack, c.stack] at hl
  rcases List.mem_append.mp hl with hl | hl
  -- a node of the old path: still on the stack, at the stop, or below it
  · obtain ⟨j, hj, rfl⟩ := List.getElem_of_mem hl
    have hjl := List.getElem?_eq_getElem hj
    rcases Nat.lt_trichotomy j (hi - 1) with hLt | rfl | hGt
    · refine hOff base[j] ?_ hlk
      show base[j] ∈ m.nodeStack.take (hi - 1)
      rw [c.stack, List.take_append_of_le_length (by omega)]
      exact List.mem_take_iff_getElem.mpr ⟨j, by omega, rfl⟩
    · -- the loop has stopped here
      obtain ⟨l', nd, hl', hn, hU, _⟩ := hProp.uncovered (Nat.pos_of_ne_zero hPos)
      rw [c.getElem? hj, hjl] at hl'
      obtain rfl := Option.some.inj hl'
      rw [hlk, hkd] at hn
      obtain rfl := Option.some.inj hn
      rw [hCovSame, hU] at hCov
      cases hCov
    · exact hUpper j _ (by omega) hjl hlk
  · rw [List.mem_singleton.mp hl] at hlk
    exact hkEnd hlk.symm

/-- Two locations of a linked path belong to different nodes. -/
theorem Linked.parent_lt {h : Heap} {next : Nat} {stack : List ChildLoc} {l' : ChildLoc}
    (hL : Linked h stack) (wf : WellFormed h next) (hij : i < k) (hi : stack[i]? = some l)
    (hk : stack[k]? = some l') : l.parent < l'.parent := by
  obtain ⟨hi₁, rfl⟩ := List.getElem?_eq_some_iff.mp hi
  obtain ⟨hk₁, rfl⟩ := List.getElem?_eq_some_iff.mp hk
  exact List.pairwise_iff_getElem.mp (hL.pairwise_lt wf) i k hi₁ hk₁ hij

/-- **What a backtrack leaves of a path is not covered**, if only its last node was: the
loop goes up as far as it covers. -/
theorem Backtracked.uncovered (hB : Backtracked cfg m base m') (c : Complete m base)
    (hU : ∀ j l, j + 1 < base.length → base[j]? = some l → m.isCovered l.parent = false) :
    ∀ l ∈ m'.nodeStack, m'.isCovered l.parent = false := by
  obtain ⟨mid, hi, hProp, _, hRest, hHeap⟩ := hB.heap_cases
  have c' := hProp.recolored.complete c
  have hLe := hProp.le
  intro l hl
  rw [hRest] at hl
  obtain ⟨j, hj, hjl⟩ := List.mem_take_iff_getElem.mp hl
  have hjl' : base[j]? = some l := by
    rw [← c.getElem? (by omega), List.getElem?_eq_getElem (by omega), hjl]
  have hLink : base[hi - 1]? = some base[hi - 1] := List.getElem?_eq_getElem (by omega)
  -- the loop has covered nodes further down only
  have hMid : mid.isCovered l.parent = false := by
    rw [← hU j l (by omega) hjl']
    have hFrame : mid.heap l.parent = m.heap l.parent := by
      refine hProp.frame fun j' l' hj' hj'k hl' => ?_
      rw [c.getElem? hj'k] at hl'
      exact Nat.ne_of_gt (c.linked.parent_lt c.wf (by omega) hjl' hl')
    unfold Manager.isCovered
    rw [hFrame]
  -- the subtree that is deleted is further down as well
  rcases hHeap with hSame | ⟨_, _, _, l', hl', hCut⟩
  · unfold Manager.isCovered at hMid ⊢
    rwa [hSame]
  · rw [hCut.isCovered c'.wf, hMid]
    intro hBelow
    have hLt := c'.linked.parent_lt c'.wf (show j < hi - 1 by omega) hjl' hl'
    exact absurd (c'.wf.below_gt hBelow) (Nat.not_lt.mpr (Nat.le_of_lt hLt))

/-- Resetting the stack exempts fewer nodes, none of which is covered. When the tree is not
kept the stack stays as it is. -/
theorem SettledOff.restart (h : SettledOff m) (hL : Linked m.heap m.nodeStack)
    (hU : cfg.keepExecutionTree = true → ∀ l ∈ m.nodeStack, m.isCovered l.parent = false)
    (hRestart : m.restart cfg = some m') : SettledOff m' := by
  rw [restart_eq cfg hL] at hRestart
  obtain rfl := Option.some.inj hRestart
  intro k kd hOff hk hCov
  refine SettledAt.mono (h k kd (fun l hl hlk => ?_) hk hCov) rfl (fun _ _ => Or.inl)
    (fun _ _ _ => id) fun _ _ => id
  by_cases hKeep : cfg.keepExecutionTree = true
  · have hNot := hU hKeep l hl
    rw [hlk, isCovered_of_node (m := m) hk, hCov] at hNot
    cases hNot
  · refine hOff l ?_ hlk
    rw [if_neg hKeep]
    exact hl

/-- **The next execution starts in a settled state.** The end of an execution covers its
last node and propagates that; the retry of an EXISTS node is the one case that covers
nothing. -/
theorem Settled.endExecution (h : Settled cfg m) (t : Tidy m)
    (hEnd : m.endWithSuccess cfg reason = some m') (hRoot : m'.isCovered ROOTNODE = false)
    (hRestart : m'.restart cfg = some m₂) : Settled cfg m₂ := by
  obtain ⟨wf, hL⟩ := endWithSuccess_linked t hEnd hRoot
  have hEq := hRestart
  rw [restart_eq cfg hL] at hEq
  refine ⟨fun k l hk hl => ?_, fun hKeep => ?_, fun hDel => ?_⟩
  -- only the root is consumed now
  · obtain rfl := Option.some.inj hEq
    obtain rfl : k = 0 := Nat.lt_one_iff.mp hk
    have hHead : l = ⟨ROOTNODE, 0⟩ := by
      have hl' : (if cfg.keepExecutionTree = true then [⟨ROOTNODE, 0⟩] else m'.nodeStack)[0]? = some l := hl
      split at hl'
      · exact (Option.some.inj hl').symm
      · rw [← List.head?_eq_getElem?, hL.head] at hl'
        exact (Option.some.inj hl').symm
    rw [hHead]
    exact hRoot
  -- a tree that is kept restarts with the root alone
  · obtain rfl := Option.some.inj hEq
    simp [hKeep]
  -- the nodes
  · obtain ⟨last, nd, hLast, hn, hCase⟩ := endWithSuccess_cases t hEnd
    have hLastAt := (Manager.getLastNodeInStack_eq_some.mp hLast).2
    have hMarked := (h.settled hDel).marked cfg reason (List.mem_of_getElem? hLastAt) hn
    have t₁ := t.marked cfg reason hn
    -- when the tree is kept, only the last node can have been covered
    have hU : cfg.keepExecutionTree = true → ∀ l ∈ m.nodeStack, l.parent ≠ last.parent →
        (marked cfg m reason last nd).isCovered l.parent = false := by
      intro hKeep l hl hne
      obtain ⟨j, hj, rfl⟩ := List.getElem_of_mem hl
      have hOld := h.consumed j _ (by rw [h.whole hKeep]; exact hj) (List.getElem?_eq_getElem hj)
      have hFrame : (marked cfg m reason last nd).heap m.nodeStack[j].parent =
          m.heap m.nodeStack[j].parent := Function.update_of_ne hne ..
      unfold Manager.isCovered at hOld ⊢
      rwa [hFrame]
    -- an EXISTS node has another thread to try
    rcases hCase with hRetry | ⟨_, mid, loc, hE, hB⟩
    · obtain ⟨scope, tried, th, var, hKind, _, rfl⟩ := hRetry.tried
      have hSame : ∀ k, Manager.isCovered ((marked cfg m reason last nd).setNode last.parent
          { coveredLast reason nd with
            kind := .existsThread scope (Manager.insertVar tried var) (some th) }) k =
          (marked cfg m reason last nd).isCovered k :=
        isCovered_setNode_grow hRetry.node rfl
      refine SettledOff.restart (fun k kd hOff hk hCov => ?_) hL (fun hKeep l hl => ?_) hRestart
      · have hkn : k ≠ last.parent := Ne.symm (hOff last (List.mem_of_getElem? hLastAt))
        have hOld := (Function.update_of_ne hkn ..).symm.trans hk
        refine SettledAt.mono (hMarked k kd hOff hOld hCov) rfl (fun _ _ => Or.inl)
          (fun _ _ _ hc => ?_) fun _ _ => id
        rwa [hSame]
      · rw [hSame]
        by_cases hne : l.parent = last.parent
        · rw [hne, isCovered_of_node hRetry.node]
          exact hRetry.open_
        · exact hU hKeep l hl hne
    -- the path ends, and is backtracked
    · have c := hE.complete t₁
      refine (hB.settledOff c (hE.settledOff t₁ hMarked) hDel hRoot).restart hL (fun hKeep => ?_)
        hRestart
      -- of the path only the last node was covered
      refine hB.uncovered c fun j l hj hl => ?_
      have hWhole := h.whole hKeep
      have hTake : (marked cfg m reason last nd).nodeStack.take
          ((marked cfg m reason last nd).stackIndex + 1) = m.nodeStack :=
        List.take_of_length_le (Nat.le_succ_of_le (Nat.le_of_eq hWhole.symm))
      have hLoc := hE.last
      rw [hTake] at hj hl hLoc
      rw [hWhole] at hLastAt
      rw [List.getLast?_eq_getElem?, hLastAt] at hLoc
      obtain rfl := Option.some.inj hLoc
      have hLt := t.linked.parent_lt t.wf (show j < m.nodeStack.length - 1 by omega) hl hLastAt
      rw [hE.cut.isCovered t₁.wf fun hBelow =>
        absurd (t₁.wf.below_gt hBelow) (Nat.not_lt.mpr (Nat.le_of_lt hLt))]
      exact hU hKeep l (List.mem_of_getElem? hl) (Nat.ne_of_lt hLt)

-- ---------------------------------------------------------------------------
-- Whole explorations
-- ---------------------------------------------------------------------------

/-- The tree of the beginning has no covered node but the end node. -/
theorem settled_initial (cfg : Cfg) (nondet : StaticId → Bool) (numMembers : Nat) :
    Settled cfg { Manager.initial nondet numMembers with stackIndex := 1 } := by
  have t := tidy_initial nondet numMembers
  refine ⟨fun k l hk hl => ?_, fun _ => rfl, fun _ k kd hOff hk hCov => ?_⟩
  · obtain rfl : k = 0 := Nat.lt_one_iff.mp hk
    obtain rfl : ⟨ROOTNODE, 0⟩ = l := Option.some.inj hl
    rfl
  · have hRoot : ROOTNODE ≠ k := hOff ⟨ROOTNODE, 0⟩ (List.mem_singleton_self _)
    have hkEnd : k = ENDNODE := by
      simp only [Manager.initial, if_neg (Ne.symm hRoot)] at hk
      split at hk
      · assumption
      · cases hk
    subst hkEnd
    exact settledAt_end t.wf hk

/-- **Every running state of an exploration is settled**, whatever the script. The invariant
needs that of the tidy state at each step. -/
theorem settled_reachable (h : Runs.Reachable (Explorer.system cfg script nondet numMembers) s) :
    s.status = .running → Settled cfg s.mgr := by
  refine Runs.ReachableUnder.invariant_of (Q := fun s => s.status = .running → Tidy s.mgr)
    (P := fun s => s.status = .running → Settled cfg s.mgr) (fun _ => tidy_reachable) ?_ ?_ h
  · rintro _ rfl _
    rw [initial_eq]
    exact settled_initial cfg nondet numMembers
  · rintro s env s' hTidy hSettled _ rfl hRun
    by_cases hWas : s.status = .running
    · have hCase : StepCase cfg script s env (s.step cfg script env) := step_cases hWas
      generalize s.step cfg script env = s' at hCase hRun
      cases hCase with
      | failed s' hFailed _ =>
        rw [hFailed] at hRun
        cases hRun
      | advanced m' a hOp => exact (dslOp_cases (hTidy hWas) hOp).settled (hTidy hWas) (hSettled hWas)
      | stopped => cases hRun
      -- the end of an execution, and the next one
      | restarted m₁ m' m'' reason hOp hEnd hRoot hRestart =>
        have hStep := dslOp_cases (hTidy hWas) hOp
        exact (hStep.settled (hTidy hWas) (hSettled hWas)).endExecution (hStep.tidy (hTidy hWas))
          hEnd hRoot hRestart
    · have hSame : s.step cfg script env = s := step_of_not_running hWas
      rw [hSame] at hRun
      exact absurd hRun hWas

end Concurrit.Model
