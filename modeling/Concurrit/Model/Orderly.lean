import Concurrit.Model.Progress

/-!
# Concurrit — orderly runs of a plain script

A running state is `Orderly` when its stack lies on a path of the script, its
flags are right and something is left to do. While the surroundings cooperate an
orderly state stays orderly: an operation either returns, or it throws because
the script has ended or a choice has been found covered (`Throws`), and after
the end of an execution the next one starts in an orderly state.
-/

namespace Concurrit.Model

open Function (update)
open Walk

variable {n i j k : Nat} {a : Answer} {m m' m'' m₁ m₂ mid : Manager} {nd : Node} {l last : ChildLoc}
  {op : Op} {env : Env} {script : Script} {history ρ path p : List Answer} {cfg : Cfg}
  {reason : BacktrackReason} {good : List Answer → Prop} {s s' : Explorer}

structure Orderly (script : Script) (m : Manager) (history ρ : List Answer) : Prop where
  tidy    : Tidy m
  tracks  : Tracks script m history ρ
  flagged : Flagged m
  open_   : Open m

/-- How an operation of a plain script throws. -/
inductive Throws (m : Manager) (op : Op) : Manager → BacktrackReason → Prop where
  | finish (hOp : op = .finish) : Throws m op m .success
  | assumeFails (hOp : op = .assumeFails) : Throws m op m .assumeFails
  | covered (s : StaticId) (n : Nat) (nd : Node) (idx : Option Nat) (hOp : op = .choice s)
      (hNext : m.getNextNodeInStack = some (some n, idx)) (hn : m.heap n = some nd)
      (hRule : nd.covered = true ∨ m.coverageRule nd = true) :
      Throws m op (m.setNode n { nd with covered := true }) .treeNodeCovered

theorem Throws.reason_ne (hT : Throws m op m₁ reason) :
    reason ≠ .threadsAllEnded ∧ reason ≠ .timeout ∧
      (reason ≠ .searchEnds ∧ reason ≠ .exception ∧ reason ≠ .unknown) := by
  cases hT <;> simp

/-- **An operation of a plain script throws only where it must**, when the
surroundings cooperate. -/
theorem Orderly.throws (hO : Orderly script m history ρ) (hPlain : Script.Plain script)
    (hPrompt : Prompt (script history) env)
    (hEq : m.dslOp (script history) env = some (m₁, .throws reason)) :
    Throws m (script history) m₁ reason := by
  by_cases hChoice : ∃ s, script history = .choice s
  · obtain ⟨s, hs⟩ := hChoice
    rw [hs] at hEq ⊢
    rcases dslChoice_cases hO.tidy hEq with ⟨hR, n, nd, idx, hNext, hn, _, hRule, rfl⟩ |
      ⟨_, _, _, _, hR, _⟩
    · obtain rfl := OpResult.throws.inj hR
      exact .covered s n nd idx rfl hNext hn hRule
    · cases hR
  · by_cases hEnds : (script history).Ends
    · rcases hEnds with hOp | hOp
      · rw [hOp] at hEq ⊢
        obtain ⟨rfl, hR⟩ := Prod.mk.inj (Option.some.inj hEq)
        obtain rfl := OpResult.throws.inj hR
        exact .finish rfl
      · rw [hOp] at hEq ⊢
        obtain ⟨rfl, hR⟩ := Prod.mk.inj (Option.some.inj hEq)
        obtain rfl := OpResult.throws.inj hR
        exact .assumeFails rfl
    · obtain ⟨m', a, hReturns⟩ := hO.tracks.returns hO.tidy hO.flagged hO.open_ hPlain
        (fun s hs => absurd ⟨s, hs⟩ hChoice) hPrompt hEnds
      rw [hEq] at hReturns
      obtain ⟨_, hR⟩ := Prod.mk.inj (Option.some.inj hReturns)
      cases hR

/-- An operation that returns has submitted a node and consumed one of its children. -/
structure Returns (script : Script) (m m' : Manager) (history ρ : List Answer) (a : Answer)
    (env : Env) (n : Nat) (nd : Node) (m₁ : Manager) (i : Nat) (ρ' : List Answer) : Prop where
  submitted : Submitted m n nd m₁
  takes     : Takes m m₁ env n nd (script history) i a
  consumed  : Consumed m₁ n i m'
  moved     : Moved script m m' n history ρ ρ' a

/-- **An operation that returns keeps the state orderly.** -/
theorem Orderly.advance (hO : Orderly script m history ρ) (hPlain : Script.Plain script)
    (hEq : m.dslOp (script history) env = some (m', .returns a)) :
    ∃ n nd m₁ i ρ', Returns script m m' history ρ a env n nd m₁ i ρ' ∧
      Orderly script m' (history ++ [a]) ρ' := by
  have t := hO.tidy
  have hStep := dslOp_cases t hEq
  have t' := hStep.tidy t
  cases hStep with
  | consumed n nd m₁ i m' a hS hTakes hC =>
    obtain ⟨ρ', hMoved⟩ := hO.tracks.advance t hPlain hS hTakes hC
    exact ⟨n, nd, m₁, i, ρ', ⟨hS, hTakes, hC, hMoved⟩, t', hMoved.tracks,
      hO.flagged.advance t hO.tracks hPlain hS hTakes hC,
      hO.open_.advance t hO.flagged hO.tracks hPlain hS hTakes hC⟩

theorem Returns.sound {n : Nat} {nd : Node} {m₁ : Manager} {i : Nat} {ρ' : List Answer}
    (hR : Returns script m m' history ρ a env n nd m₁ i ρ') (t : Tidy m)
    (hSound : Sound script m good) : Sound script m' good :=
  hSound.advance t hR.moved hR.submitted hR.consumed

theorem Returns.infos {n : Nat} {nd : Node} {m₁ : Manager} {i : Nat} {ρ' : List Answer}
    (hR : Returns script m m' history ρ a env n nd m₁ i ρ') : m'.infos = m.infos :=
  hR.consumed.infos.trans hR.submitted.infos

-- ---------------------------------------------------------------------------
-- What hangs on the path
-- ---------------------------------------------------------------------------

/-- The end node hangs at or above the position of this history. -/
def EndedAt (h : Heap) (history : List Answer) : Prop :=
  ∃ p, p <+: .unit :: history ∧ nodeAt h p = some ENDNODE

/-- **The execution in progress has not been executed before**: nothing on its path is
the end node. -/
theorem Orderly.not_endedAt (hO : Orderly script m history ρ) : ¬ EndedAt m.heap history := by
  rintro ⟨p, hp, hEnd⟩
  have hL := hO.tracks.labelled
  have t := hO.tidy
  -- the prefix is an initial part of the path of the stack
  have hTake : p = (Answer.unit :: ρ).take p.length := by
    rw [← hO.tracks.taken] at hp
    have hPre := hp.trans (List.take_prefix _ _)
    exact List.prefix_iff_eq_take.mp hPre
  have hLen : p.length ≤ m.stackIndex := by
    have hLe := hp.length_le
    rw [← hO.tracks.taken, List.length_take] at hLe
    omega
  rcases Nat.lt_or_ge p.length m.nodeStack.length with hLt | hGe
  · have hAt := hL.nodeAt_take t.linked (List.getElem?_eq_getElem hLt)
    rw [← hTake, hEnd] at hAt
    exact (t.linked.validAt (List.getElem?_eq_getElem hLt)).1 (Option.some.inj hAt).symm
  · obtain ⟨last, pd, o, hLast, hpd, ho⟩ := t.exists_last
    have hAt := hL.nodeAt_end t.linked hLast hpd ho
    rw [List.take_of_length_le (by rw [← hL.length]; exact hGe)] at hTake
    rw [← hTake, hEnd] at hAt
    have hCov := hO.open_.last last ENDNODE hLast ⟨pd, hpd, by rw [ho, ← hAt]⟩
    obtain ⟨e, hE⟩ := t.wf.endNode
    rw [isCovered_of_node hE] at hCov
    cases hCov

/-- An operation leaves the end nodes where they are. -/
theorem Orderly.endedAt_advance {ρ' e : List Answer} (hO : Orderly script m history ρ)
    (hMoved : Moved script m m' n history ρ ρ' a) (hE : EndedAt m.heap e) : EndedAt m'.heap e := by
  obtain ⟨p, hp, hEnd⟩ := hE
  refine ⟨p, hp, ?_⟩
  rw [hMoved.nodeAt, if_neg, hEnd]
  rintro rfl
  exact hO.not_endedAt ⟨_, List.prefix_refl _, hEnd⟩

/-- Pruning keeps a history ended. -/
theorem EndedAt.pruned {h h' : Heap} {π e : List Answer} (hE : EndedAt h e) (hP : Pruned h h' π) :
    EndedAt h' e := by
  obtain ⟨p, hp, hEnd⟩ := hE
  by_cases hPre : π <+: p
  · exact ⟨π, hPre.trans hp, hP.at_end⟩
  · exact ⟨p, hp, by rw [hP.other hPre, hEnd]⟩

/-- Where the end node hung before it hangs after the end of an execution, and now also at
the position of this one. -/
theorem Finish.endedAt {hi : Nat} {e : List Answer}
    (F : Finish cfg m reason path m' last nd m₂ mid hi) (hSame : coveredLast reason nd = nd)
    (hE : EndedAt m.heap e ∨ path.take (m.stackIndex + 1) <+: .unit :: e) : EndedAt m'.heap e := by
  have h₂ : EndedAt m₂.heap e := by
    rcases hE with hOld | hNew
    · refine EndedAt.pruned ?_ F.pruned
      rwa [marked_of_same F.lastNode hSame]
    · exact ⟨_, hNew, F.pruned.at_end⟩
  have hMid : EndedAt mid.heap e := by
    obtain ⟨p, hp, hEnd⟩ := h₂
    exact ⟨p, hp, by rw [F.prop.recolored.nodeAt, hEnd]⟩
  rcases F.cut with hHeap | ⟨_, _, _, _, _, _, hPruned⟩
  · rw [hHeap]
    exact hMid
  · exact hMid.pruned hPruned

-- ---------------------------------------------------------------------------
-- The end of an execution
-- ---------------------------------------------------------------------------

/-- The state `EndWithSuccess` starts from. -/
structure Closable (script : Script) (m : Manager) (ρ : List Answer) : Prop where
  tidy       : Tidy m
  labelled   : Labelled m.heap m.nodeStack (.unit :: ρ)
  admissible : Admissible script ρ
  coherent   : Coherent script m.heap
  above      : FlaggedAbove (m.nodeStack.take (m.stackIndex + 1))
                 (m.nodeStack.take (m.stackIndex + 1)).length m
  consumed   : ∀ k l, k < m.stackIndex → m.nodeStack[k]? = some l → m.isCovered l.parent = false

theorem Orderly.closable (hO : Orderly script m history ρ) : Closable script m ρ where
  tidy := hO.tidy
  labelled := hO.tracks.labelled
  admissible := hO.tracks.admissible
  coherent := hO.tracks.coherent
  above := hO.flagged.above _ _
  consumed _ l _ hl := hO.open_.stack l (List.mem_of_getElem? hl)

/-- **Where an operation throws, the execution can be closed.** -/
theorem Orderly.throws_closable (hO : Orderly script m history ρ)
    (hT : Throws m (script history) m₁ reason) : Closable script m₁ ρ := by
  cases hT with
  | finish => exact hO.closable
  | assumeFails => exact hO.closable
  | covered s n nd idx hOp hNext hn hRule =>
    have t := hO.tidy
    have hR := Recolored.cover hn
    have t₁ : Tidy (m.setNode n { nd with covered := true }) :=
      ⟨hR.wellFormed t.wf, hR.linked t.linked, t.pos, t.le⟩
    have hAt := hO.tracks.nodeAt_next t hNext
    refine ⟨t₁, hR.labelled hO.tracks.labelled, hO.tracks.admissible,
      hO.tracks.coherent.recolored hR, ?_, ?_⟩
    · -- only the node above the covered one may have become full
      intro k kd hk hkCov hFull
      have hkn : k ≠ n := by
        rintro rfl
        rw [show (m.setNode k { nd with covered := true }).heap k = _ from
          Function.update_self ..] at hk
        obtain rfl := Option.some.inj hk
        cases hkCov
      have hOld : m.heap k = some kd := by
        rw [← hk]
        exact (Function.update_of_ne hkn ..).symm
      rcases full_setNode_covered hn hkn hOld hFull with hFull | ⟨i, hSlot⟩
      · exact absurd hFull (hO.flagged k kd hOld hkCov)
      · have hPos := t.pos
        have hLe := t.le
        have hnEnd : n ≠ ENDNODE := by
          rintro rfl
          exact hO.not_endedAt ⟨_, List.prefix_refl _, hAt⟩
        have hPrev : m.nodeStack[m.stackIndex - 1]? = some m.nodeStack[m.stackIndex - 1] :=
          List.getElem?_eq_getElem (by omega)
        have hTakePrev : (m.nodeStack.take (m.stackIndex + 1))[m.stackIndex - 1]? =
            some m.nodeStack[m.stackIndex - 1] := by
          rw [List.getElem?_take_of_lt (by omega), hPrev]
        rcases t.next_cases hNext with ⟨l, hl, hln, _⟩ | ⟨hEnd, _, last, pd, hLast, hp, ho⟩
        · obtain rfl : n = l.parent := Option.some.inj hln
          have hLt := (List.getElem?_eq_some_iff.mp hl).1
          obtain ⟨rfl, _⟩ := t.wf.slot_unique hSlot (t.linked.slot hPrev (by
            rw [Nat.sub_add_cancel hPos, hl])) hnEnd
          refine ⟨m.stackIndex - 1, _, ?_, hTakePrev, rfl, fun j' l' hj hj' hl' => ?_⟩
          · show m.stackIndex - 1 < (m.nodeStack.take (m.stackIndex + 1)).length
            rw [List.length_take]
            omega
          · have hjEq : j' = m.stackIndex := by
              have hj'' : j' < (m.nodeStack.take (m.stackIndex + 1)).length := hj'
              rw [List.length_take] at hj''
              omega
            have hl'' : (m.nodeStack.take (m.stackIndex + 1))[j']? = some l' := hl'
            rw [hjEq, List.getElem?_take_of_lt (by omega), hl] at hl''
            obtain rfl := Option.some.inj hl''
            exact isCovered_setNode_self
        · rw [List.getLast?_eq_getElem?, ← hEnd, hPrev] at hLast
          obtain rfl := Option.some.inj hLast
          obtain ⟨rfl, _⟩ := t.wf.slot_unique hSlot ⟨pd, hp, ho⟩ hnEnd
          refine ⟨m.stackIndex - 1, _, ?_, hTakePrev, rfl, fun j' l' hj hj' hl' => ?_⟩
          · show m.stackIndex - 1 < (m.nodeStack.take (m.stackIndex + 1)).length
            rw [List.length_take]
            omega
          · have hj'' : j' < (m.nodeStack.take (m.stackIndex + 1)).length := hj'
            rw [List.length_take] at hj''
            omega
    · intro k l hk hl
      have hk' : k < m.stackIndex := hk
      have hl' : m.nodeStack[k]? = some l := hl
      have hln : l.parent ≠ n := by
        rintro rfl
        have hAtK := hO.tracks.labelled.nodeAt_take t.linked hl'
        have hEq := walk_injective (treeShaped t.wf) hAtK hAt (t.linked.validAt hl').1
        have hLenEq := congrArg List.length hEq
        have hLen : (Answer.unit :: history).length = m.stackIndex := by
          rw [← hO.tracks.taken, List.length_take, ← hO.tracks.labelled.length]
          exact Nat.min_eq_left t.le
        rw [hLen, List.length_take, ← hO.tracks.labelled.length] at hLenEq
        have hLt := (List.getElem?_eq_some_iff.mp hl').1
        omega
      rw [isCovered_setNode_of_ne hln]
      exact hO.open_.stack l (List.mem_of_getElem? hl')

theorem Throws.rest (hT : Throws m op m₁ reason) :
    m₁.infos = m.infos ∧ m₁.nodeStack = m.nodeStack ∧ m₁.stackIndex = m.stackIndex := by
  cases hT <;> exact ⟨rfl, rfl, rfl⟩

/-- What lies below the end of the path lies below the history. -/
theorem Tracks.leafAt_history {leaf : List Answer} (hT : Tracks script m history ρ)
    (hLeaf : LeafAt script ((Answer.unit :: ρ).take (m.stackIndex + 1)) leaf) :
    LeafAt script (.unit :: history) leaf := by
  refine ⟨hLeaf.1, ?_⟩
  rw [← hT.taken]
  exact (List.take_prefix_take_left (Nat.le_succ _)).trans hLeaf.2

/-- **Where an operation throws, everything below is accounted for**: the script has
ended there, or the choice is covered. -/
theorem Orderly.throws_sound (hO : Orderly script m history ρ) (hPlain : Script.Plain script)
    (hT : Throws m (script history) m₁ reason) (hSound : Sound script m good)
    (hMarks : MarksSound script m.infos good) (hGood : (script history).Ends → good history) :
    Sound script m₁ good ∧
      ∀ leaf, LeafAt script ((Answer.unit :: ρ).take (m₁.stackIndex + 1)) leaf → good leaf := by
  have hEnded : (script history).Ends →
      ∀ leaf, LeafAt script ((Answer.unit :: ρ).take (m.stackIndex + 1)) leaf → good leaf := by
    intro hEnds leaf hLeaf
    have hAt := hO.tracks.leafAt_history hLeaf
    rw [hAt.1.eq_of_isPrefixOf hEnds (List.cons_prefix_cons.mp hAt.2).2]
    exact hGood hEnds
  cases hT with
  | finish hOp => exact ⟨hSound, hEnded (Or.inl hOp)⟩
  | assumeFails hOp => exact ⟨hSound, hEnded (Or.inr hOp)⟩
  | covered s n nd idx hOp hNext hn hRule =>
    have hAt := hO.tracks.nodeAt_next hO.tidy hNext
    have hnEnd : n ≠ ENDNODE := by
      rintro rfl
      exact hO.not_endedAt ⟨_, List.prefix_refl _, hAt⟩
    have hM := hO.tracks.coherent history n nd hAt hnEnd hn
    have hSound₁ : Sound script (m.setNode n { nd with covered := true }) good :=
      hSound.cover hO.tidy.wf hn hnEnd hAt fun leaf hLeaf =>
        hSound.accounted hO.tidy.wf hPlain hMarks hn hAt hM hRule hLeaf
    refine ⟨hSound₁, fun leaf hLeaf => ?_⟩
    refine hSound₁ (.unit :: history) n ?_ ?_ leaf (hO.tracks.leafAt_history hLeaf)
    · rw [(Recolored.cover hn).nodeAt, hAt]
    · exact isCovered_setNode_self

theorem Closable.finish (hC : Closable script m ρ) (hEnd : m.endWithSuccess cfg reason = some m') :
    ∃ last nd m₂ mid hi, Finish cfg m reason (.unit :: ρ) m' last nd m₂ mid hi :=
  finish_of_endWithSuccess hC.tidy hC.labelled hEnd

/-- **The next execution starts in an orderly state**, with an initial part of the
stack unless the tree is kept. -/
theorem Closable.next (hC : Closable script m ρ) (hReason : reason ≠ .threadsAllEnded)
    (hEnd : m.endWithSuccess cfg reason = some m') (hRoot : m'.isCovered ROOTNODE = false)
    (hRestart : m'.restart cfg = some m'') :
    ∃ j, 1 ≤ j ∧ j < (m.nodeStack.take (m.stackIndex + 1)).length ∧
      Orderly script m'' [] (resumedPath cfg ρ j) ∧ m''.heap = m'.heap ∧ m''.infos = m'.infos ∧
      m''.stackIndex = 1 ∧
      (cfg.keepExecutionTree = false → m''.nodeStack = m.nodeStack.take j) := by
  obtain ⟨last, nd, m₂, mid, hi, F⟩ := hC.finish hEnd
  obtain ⟨wf, hLinked⟩ := endWithSuccess_linked hC.tidy hEnd hRoot
  have hSame := coveredLast_of_ne hReason nd
  have hR := F.resumes hC.tidy hSame hLinked hC.consumed
  have hFlag := F.flagged hC.tidy hSame hC.above
  obtain ⟨hTracks, hOpen, hHeap, hInfos, hNum, hIndex⟩ := F.restarted hC.tidy hC.labelled
    hC.admissible hC.coherent wf hLinked hFlag hR hRoot hRestart
  refine ⟨hi - 1, hR.pos, hR.lt, ⟨tidy_restart wf hLinked hRestart, hTracks,
    hFlag.congr hHeap hNum, hOpen⟩, hHeap, hInfos, hIndex, fun hKeep => ?_⟩
  rw [restart_eq cfg hLinked] at hRestart
  obtain rfl := Option.some.inj hRestart
  show (if cfg.keepExecutionTree = true then _ else m'.nodeStack) = _
  rw [if_neg (by simp [hKeep]), hR.stack]

/-- **The end of an execution does not fail** while no node of the stack is covered. -/
theorem Orderly.endWithSuccess_isSome (hO : Orderly script m history ρ) (cfg : Cfg)
    (hReason : reason ≠ .threadsAllEnded)
    (hOther : reason ≠ .searchEnds ∧ reason ≠ .exception ∧ reason ≠ .unknown) :
    ∃ m', m.endWithSuccess cfg reason = some m' := by
  have t := hO.tidy
  obtain ⟨last, nd, hLast, hMem, hEnd, hn, _⟩ := t.last_exists
  have hSame := coveredLast_of_ne hReason nd
  have hM : marked cfg m reason last nd = { m with infos := _ } := marked_of_same hn hSame
  have tM := t.marked cfg reason hn
  have hNot : ¬ (marked cfg m reason last nd).retriesExists last = true := by
    intro hRetry
    rw [retriesExists_iff (show _ = some nd by rw [hM]; exact hn)] at hRetry
    obtain ⟨_, scope, tried, lvar, hKind⟩ := hRetry
    obtain ⟨a, _, hLabel⟩ := hO.tracks.labelled.exists_answer
      (Manager.getLastNodeInStack_eq_some.mp hLast).2
    exact hLabel.not_exists hn hKind
  obtain ⟨m₂, loc, hAdd, hE⟩ := addEndToPath_spec tM
  have hC := hE.complete tM
  have hU : Uncovered m₂.heap (m.nodeStack.take (m.stackIndex + 1)) := by
    intro l hl ld hld
    have hNotBelow : ¬ Below (marked cfg m reason last nd).heap loc.parent loc.childIndex
        l.parent := fun hBelow => by
      rw [hE.cut.below _ hBelow] at hld
      cases hld
    have hOld := hE.cut.isCovered tM.wf hNotBelow
    rw [isCovered_of_node hld, hM] at hOld
    exact hOld.trans (hO.open_.stack l (List.mem_of_mem_take hl))
  obtain ⟨m₃, hBack, _⟩ := doBacktrack_isSome cfg hC hU hOther
  have hLast₂ : m₂.getLastNodeInStack = some ⟨ENDNODE, 0⟩ := by
    rw [Manager.getLastNodeInStack_eq_some, hE.rest]
    exact ⟨Nat.le_add_left _ _, by simp [marked]⟩
  have hGet : m₂.get ⟨ENDNODE, 0⟩ = some (some ENDNODE) := by
    obtain ⟨e, hEnd₂⟩ := hC.wf.endNode
    rw [Manager.get_eq (l := ⟨ENDNODE, 0⟩) hEnd₂]
    rfl
  refine ⟨m₃, ?_⟩
  unfold Manager.endWithSuccess
  rw [hLast, Option.bind_eq_bind, Option.bind_some, ← Option.bind_eq_bind, ← bind_assoc,
    mark_eq cfg reason hn, Option.bind_eq_bind, Option.bind_some, if_neg hNot, if_pos hEnd]
  simp [Manager.addToPath, hAdd, hLast₂, hGet, hBack, guard]

/-- Without marks only the end of the script throws. -/
theorem Orderly.throws_unmarked (hO : Orderly script m history ρ)
    (hT : Throws m (script history) m₁ reason) (hMarks : ∀ i b, (m.infos i).covered b = false) :
    (script history).Ends ∧ m₁ = m := by
  cases hT with
  | finish hOp => exact ⟨Or.inl hOp, rfl⟩
  | assumeFails hOp => exact ⟨Or.inr hOp, rfl⟩
  | covered s n nd idx hOp hNext hn hRule =>
    exfalso
    -- the choice is not covered, and it is not full
    have t := hO.tidy
    have hCov : nd.covered = false := by
      rw [← isCovered_of_node hn]
      rcases t.next_cases hNext with ⟨l, hl, hln, _⟩ | ⟨_, _, last, pd, hLast, hp, ho⟩
      · rw [Option.some.inj hln]
        exact hO.open_.stack l (List.mem_of_getElem? hl)
      · exact hO.open_.last last n hLast ⟨pd, hp, ho⟩
    rcases hRule with hC | hRule
    · rw [hCov] at hC
      cases hC
    · exact hO.flagged n nd hn hCov (full_of_coverageRule (t.wf.shape hn)
        (fun i b _ => hMarks i b) hRule)

/-- At first nothing hangs below the root. -/
theorem nodeAt_initial (nondet : StaticId → Bool) (numMembers : Nat)
    (hn : nodeAt (Manager.initial nondet numMembers).heap p = some n) : p = [] ∧ n = ROOTNODE := by
  have hNone : ∀ k b, childBy (Manager.initial nondet numMembers).heap k b = none := by
    intro k b
    ext c
    rw [childBy_eq_some]
    refine ⟨?_, fun h => by cases h⟩
    rintro ⟨nd, i, hnd, hi, hc⟩
    simp only [Manager.initial] at hnd
    split at hnd
    · obtain rfl := Option.some.inj hnd
      exact absurd hc (noChildren_new .root i c)
    · split at hnd
      · obtain rfl := Option.some.inj hnd
        cases b <;> cases hi
      · cases hnd
  rcases List.eq_nil_or_concat p with rfl | ⟨p, b, rfl⟩
  · exact ⟨rfl, (Option.some.inj hn).symm⟩
  · rw [List.concat_eq_append] at hn
    obtain ⟨k, _, hk⟩ := walk_snoc_eq_some.mp hn
    rw [hNone] at hk
    cases hk

/-- The first execution starts in an orderly state. -/
theorem orderly_initial (script : Script) (nondet : StaticId → Bool) (numMembers : Nat) :
    Orderly script { Manager.initial nondet numMembers with stackIndex := 1 } [] [] := by
  have t := tidy_initial nondet numMembers
  have hCases : ∀ {k : Nat} {kd : Node}, (Manager.initial nondet numMembers).heap k = some kd →
      kd = Node.new .root ∨ kd.covered = true := by
    intro k kd hk
    simp only [Manager.initial] at hk
    split at hk
    · exact Or.inl (Option.some.inj hk).symm
    · split at hk
      · rw [← Option.some.inj hk]
        exact Or.inr rfl
      · cases hk
  have hFlag : Flagged { Manager.initial nondet numMembers with stackIndex := 1 } := by
    intro k kd hk hCov hFull
    rcases hCases hk with rfl | hC
    · obtain ⟨c, hc, _⟩ := treeChildCovered_iff.mp (hFull.children 0 Nat.one_pos)
      exact noChildren_new .root 0 c hc
    · rw [hCov] at hC
      cases hC
  refine ⟨t, ⟨⟨rfl, ?_⟩, rfl, admissible_nil script, ?_⟩, hFlag, open_root t.wf hFlag rfl rfl⟩
  · intro k l a hl ha
    rcases k with _ | k
    · obtain rfl : ⟨ROOTNODE, 0⟩ = l := Option.some.inj hl
      obtain rfl : Answer.unit = a := Option.some.inj ha
      exact ⟨Node.new .root, rfl, rfl⟩
    · cases hl
  · intro σ k kd hk _ _
    cases (nodeAt_initial nondet numMembers hk).1

end Concurrit.Model
