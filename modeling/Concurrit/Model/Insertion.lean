import Concurrit.Model.Search

/-!
# Concurrit — inserting the end node

The end of an execution is put on the path by the main thread in `EndWithSuccess`, or by a thread
of the program: with `concurritEndTest`, or because it has thrown an exception
(`EndWithException`). An exception that is no backtrack ends the search: `Explore` finds it on the
end node and leaves its loop, so that there is no next execution. After `concurritEndTest` the
main thread backtracks, and the next execution starts.

`insertion_completes` says that `AddToPath` of the end node completes the path, wherever in an
execution it is called.
-/

namespace Concurrit.Model

open Function (update)

variable {cfg : Cfg} {reason : BacktrackReason} {m m' m₁ m₂ m₃ : Manager} {n i k : Nat} {nd : Node}
  {l last loc : ChildLoc} {base : List ChildLoc} {op : Op} {env : Env}

namespace Interrupted

-- ---------------------------------------------------------------------------
-- The system
-- ---------------------------------------------------------------------------

/-- What a thread has put on the end node. -/
inductive Thrown where
  /-- the backtrack of `concurritEndTest`, with reason `THREADS_ALLENDED` -/
  | endTest
  /-- an exception of the program -/
  | exception
deriving DecidableEq, Repr

/-- How the main thread goes on after `concurritEndTest`: it finds the end node in an operation of
the script, or with a reason of its own in `EndWithSuccess`. -/
def noticeEnd (cfg : Cfg) (m : Manager) : Option BacktrackReason → Option Manager
  | none => m.endWithSuccess cfg .threadsAllEnded
  | some reason =>
    if reason = .threadsAllEnded then m.endWithSuccess cfg .threadsAllEnded
    -- `AcquireRefEx` throws the backtrack of the thread, and `safe_assert(*reason == EXCEPTION)` fails
    else none

inductive Action where
  /-- an operation of the script returns -/
  | operation (op : Op) (env : Env)
  /-- an operation throws, and the main thread ends the execution -/
  | finish (op : Op) (env : Env)
  /-- during the operation a thread ends the execution; `late` when the main thread
  finds out in `EndWithSuccess` only -/
  | ended (op : Op) (env : Env) (thrown : Thrown) (late : Bool)

/-- The state in which an operation that does not return leaves the manager, and the
reason the main thread handles. -/
def interrupt (m : Manager) (op : Op) (env : Env) : Option (Manager × BacktrackReason) :=
  match m.dslOp op env with
  | some (m₁, .throws reason) =>
    some (m₁, if reason = .timeout ∧ env.allEndedAfter then .threadsAllEnded else reason)
  | _ => none

/-- `Backtrack` and `Restart`. -/
def nextExecution (cfg : Cfg) (m : Manager) : Option Manager := do
  guard (m.isCovered ROOTNODE = false)
  m.restart cfg

/-- The state the search goes on from; there is none where an assertion fails or the search ends. -/
def next (cfg : Cfg) (m : Manager) : Action → Option Manager
  | .operation op env =>
    match m.dslOp op env with
    | some (m', .returns _) => some m'
    | _ => none
  | .finish op env => do
    let (m, reason) ← interrupt m op env
    let m ← m.endWithSuccess cfg reason
    nextExecution cfg m
  | .ended op env thrown late => do
    let (m, reason) ← interrupt m op env
    let m ← m.addToPath ENDNODE 0
    -- the exception of a thread is the only one on the end node: `Explore` answers with an
    -- `AssertionViolationResult` or a `RuntimeExceptionResult`, or throws it on
    guard (thrown = .endTest)
    let m ← noticeEnd cfg m (if late then some reason else none)
    nextExecution cfg m

/-- Any number of executions of any script, ended by any thread at any time. -/
def system (cfg : Cfg) (nondet : StaticId → Bool) (numMembers : Nat) : Runs.System Manager Action :=
  Runs.partialMachine { Manager.initial nondet numMembers with stackIndex := 1 } (next cfg)

/-- The states in which the end node may be inserted: by a thread at any time, whatever it has
thrown, or by the main thread after `EndWithSuccess` has looked at the location consumed last. -/
inductive InsertionPoint (cfg : Cfg) (m : Manager) : Manager → Prop where
  | thread (op : Op) (env : Env) (m₁ : Manager) (reason : BacktrackReason)
      (hOp : interrupt m op env = some (m₁, reason)) : InsertionPoint cfg m m₁
  | main (op : Op) (env : Env) (m₁ m₂ m₃ : Manager) (reason : BacktrackReason) (last : ChildLoc)
      (hOp : interrupt m op env = some (m₁, reason)) (hLast : m₁.getLastNodeInStack = some last)
      (hCover : m₁.coverLastSelection reason last = some m₂)
      (hMark : Manager.markEndingBranch cfg m₂ reason last = some m₃) : InsertionPoint cfg m m₃

-- ---------------------------------------------------------------------------
-- Complete paths
-- ---------------------------------------------------------------------------

/-- The slot the end node belongs in: the recorded one of the pending node when
replaying, and otherwise the one consumed last. -/
def endSlot (m : Manager) : Option ChildLoc :=
  m.nodeStack[m.stackIndex]? <|> m.nodeStack[m.stackIndex - 1]?

/-- `m'` is `m` with the end node inserted in the slot `l`, and a complete path. -/
structure PathCompleted (m m' : Manager) (l : ChildLoc) : Prop where
  check : m'.checkCompletePath m'.nodeStack = true
  /-- the consumed locations, the recorded one of the pending node, and the end node -/
  stack : m'.nodeStack =
    m.nodeStack.take m.stackIndex ++ m.nodeStack[m.stackIndex]?.toList ++ [⟨ENDNODE, 0⟩]
  index : m'.stackIndex = m'.nodeStack.length
  /-- a linked path from the root to the end node -/
  linked : Complete m' m'.nodeStack.dropLast
  /-- one slot is overwritten -/
  slots : ∀ n nd', m'.heap n = some nd' → ∃ nd, m.heap n = some nd ∧ nd'.kind = nd.kind ∧
    nd'.children = if n = l.parent then nd.children.set l.childIndex (some ENDNODE) else nd.children
  /-- only what the slot held is freed -/
  kept : ∀ n nd, m.heap n = some nd → ¬ Below m.heap l.parent l.childIndex n → m'.heap n ≠ none

/-- Inserting the end node completes the path. -/
def CompletesPath (m : Manager) : Prop :=
  ∃ m' l, m.addToPath ENDNODE 0 = some m' ∧ endSlot m = some l ∧ PathCompleted m m' l

-- ---------------------------------------------------------------------------
-- Insertion
-- ---------------------------------------------------------------------------

/-- The insertion into a tidy state. -/
theorem pathCompleted_of_tidy (t : Tidy m) : ∃ m' l, m.addEndToPath = some m' ∧
    endSlot m = some l ∧ PathCompleted m m' l := by
  obtain ⟨m', l, hAdd, hE⟩ := addEndToPath_spec t
  have c := hE.complete t
  have hStack := c.stack
  have hTake : m.nodeStack.take (m.stackIndex + 1) =
      m.nodeStack.take m.stackIndex ++ m.nodeStack[m.stackIndex]?.toList := List.take_add_one ..
  have hSlot : endSlot m = some l := by
    have hLast := hE.last
    unfold endSlot
    rcases hNext : m.nodeStack[m.stackIndex]? with _ | l'
    · have hLe : m.nodeStack.length ≤ m.stackIndex := List.getElem?_eq_none_iff.mp hNext
      rw [List.take_of_length_le (by omega), List.getLast?_eq_getElem?,
        Nat.le_antisymm hLe t.le] at hLast
      exact hLast
    · rw [hTake, hNext, Option.toList_some, List.getLast?_concat] at hLast
      exact hLast
  have wf := t.wf
  refine ⟨m', l, hAdd, hSlot, c.check, ?_, ?_, ?_, ?_, ?_⟩
  · rw [hStack, hTake]
  · rw [hE.rest]
    simp
  · rw [hStack, List.dropLast_concat]
    exact c
  · intro n nd' hn'
    have hNot : ¬ Below m.heap l.parent l.childIndex n := fun hb => by
      rw [hE.cut.below n hb] at hn'
      cases hn'
    by_cases hnl : n = l.parent
    · subst hnl
      obtain ⟨_, pd, hp, _⟩ := hE.cut.valid
      rw [hE.cut.at_parent wf hp] at hn'
      obtain rfl := Option.some.inj hn'
      exact ⟨pd, hp, rfl, (if_pos rfl).symm⟩
    · by_cases hnEnd : n = ENDNODE
      · subst hnEnd
        obtain ⟨q, hEnd⟩ := wf.endNode
        rw [hE.cut.at_end wf] at hn'
        obtain rfl := Option.some.inj hn'
        exact ⟨_, hEnd, rfl, (if_neg hnl).symm⟩
      · rw [hE.cut.frame wf hNot hnl hnEnd] at hn'
        exact ⟨nd', hn', rfl, (if_neg hnl).symm⟩
  · intro n nd hn hNot hNone
    obtain ⟨nd', hn', _⟩ := hE.cut.node_of_not_below wf hNot hn
    rw [hNone] at hn'
    cases hn'

-- ---------------------------------------------------------------------------
-- Ends of executions
-- ---------------------------------------------------------------------------

/-- `EndWithSuccess`, after it has marked. -/
theorem endWithSuccess_eq (hLast : m.getLastNodeInStack = some last) (hn : m.heap last.parent = some nd) :
    m.endWithSuccess cfg reason =
      if (marked cfg m reason last nd).retriesExists last then
        (marked cfg m reason last nd).updateCoveredVars last.parent
      else (do
        let m ← if last.parent ≠ ENDNODE then (marked cfg m reason last nd).addToPath ENDNODE 0
          else some (marked cfg m reason last nd)
        let last ← m.getLastNodeInStack
        guard ((← m.get last) = some ENDNODE)
        let (m, _) ← m.doBacktrack cfg reason
        return m) := by
  have hMark := mark_eq cfg reason hn
  unfold Manager.endWithSuccess
  rw [hLast, Option.bind_eq_bind, Option.bind_some, ← Option.bind_eq_bind, ← bind_assoc, hMark,
    Option.bind_eq_bind, Option.bind_some]

/-- The end node is the location consumed last. -/
theorem last_of_complete (c : Complete m base) (hIndex : m.stackIndex = m.nodeStack.length) :
    m.getLastNodeInStack = some ⟨ENDNODE, 0⟩ := by
  refine Manager.getLastNodeInStack_eq_some.mpr ⟨?_, ?_⟩
  · rw [hIndex, c.length_stack]
    exact Nat.le_add_left _ _
  · rw [hIndex, c.length_stack, Nat.add_sub_cancel, c.back]

/-- Marking does nothing to the end node. -/
theorem marked_end (hE : m.heap ENDNODE = some nd) (hKind : nd.kind = .endNode) :
    marked cfg m reason ⟨ENDNODE, 0⟩ nd = m := by
  have hCov : coveredLast reason nd = nd := by simp [coveredLast, hKind, NodeKind.isSelectThread]
  have hHeap : update m.heap ENDNODE (some nd) = m.heap := by rw [← hE, Function.update_eq_self]
  simp only [marked, hCov, hKind, Manager.markedInfos]
  rw [hHeap]

/-- **The main thread finds the end node at the end of the path**: it only backtracks. -/
theorem endWithSuccess_at_end (wf : WellFormed m.heap m.next)
    (hLast : m.getLastNodeInStack = some ⟨ENDNODE, 0⟩) (hEq : m.endWithSuccess cfg reason = some m') :
    ∃ b, m.doBacktrack cfg reason = some (m', b) := by
  obtain ⟨q, hE⟩ := wf.endNode
  rw [endWithSuccess_eq hLast hE, marked_end hE rfl] at hEq
  rw [if_neg (by simp [Manager.retriesExists, hE])] at hEq
  simp only [ne_eq, not_true_eq_false, if_false, Option.bind_eq_bind, Option.bind_some,
    Option.bind_eq_some_iff, Option.pure_def, Option.some.injEq] at hEq
  obtain ⟨_, _, _, _, _, _, ⟨m₁, b⟩, hBack, rfl⟩ := hEq
  exact ⟨b, hBack⟩

/-- However the main thread finds the end node, it backtracks. -/
theorem endWithSuccess_of_notice {why : Option BacktrackReason}
    (hNotice : noticeEnd cfg m why = some m') : m.endWithSuccess cfg .threadsAllEnded = some m' := by
  cases why with
  | none => exact hNotice
  | some reason =>
    simp only [noticeEnd] at hNotice
    split at hNotice
    · exact hNotice
    · cases hNotice

/-- **A thread ends an execution with `concurritEndTest`**: the path is closed and cut. -/
theorem closed_of_notice {why : Option BacktrackReason} (t : Tidy m)
    (hAdd : m.addEndToPath = some m₂) (hNotice : noticeEnd cfg m₂ why = some m') :
    Closed cfg m m' := by
  obtain ⟨m₂', loc, hAdd', hE⟩ := addEndToPath_spec t
  rw [hAdd] at hAdd'
  obtain rfl := Option.some.inj hAdd'
  have c := hE.complete t
  obtain ⟨b, hBack⟩ := endWithSuccess_at_end c.wf (last_of_complete c (by rw [hE.rest]; simp))
    (endWithSuccess_of_notice hNotice)
  exact ⟨m₂, loc, hE, (doBacktrack_cases c hBack).1⟩

theorem Closed.restart (hC : Closed cfg m m₃) (t : Tidy m) (hRoot : m₃.isCovered ROOTNODE = false)
    (hRestart : m₃.restart cfg = some m') : Tidy m' := by
  obtain ⟨m₂, loc, hE, hB⟩ := hC.closed
  obtain ⟨wf, hL, _⟩ := hB.linked (hE.complete t) hRoot
  exact tidy_restart wf hL hRestart

-- ---------------------------------------------------------------------------
-- The next execution
-- ---------------------------------------------------------------------------

theorem nextExecution_cases (hEq : nextExecution cfg m = some m') :
    m.isCovered ROOTNODE = false ∧ m.restart cfg = some m' := by
  simp only [nextExecution, Option.bind_eq_bind, Option.bind_eq_some_iff, Option.guard_eq_some'] at hEq
  obtain ⟨_, hRoot, hEq⟩ := hEq
  exact ⟨hRoot, hEq⟩

theorem Tidy.interrupt (t : Tidy m) (hOp : interrupt m op env = some (m₁, reason)) : Tidy m₁ := by
  unfold Interrupted.interrupt at hOp
  split at hOp
  · rename_i hDsl
    cases hOp
    exact (dslOp_cases t hDsl).tidy t
  · cases hOp

/-- **What a step of the search does.** -/
inductive Stepped (cfg : Cfg) (m : Manager) : Action → Manager → Prop where
  | operation {m' : Manager} {a : Answer} (op : Op) (env : Env)
      (hOp : m.dslOp op env = some (m', .returns a)) : Stepped cfg m (.operation op env) m'
  | finish {m₁ m₂ m' : Manager} {reason : BacktrackReason} (op : Op) (env : Env)
      (hOp : interrupt m op env = some (m₁, reason)) (hEnd : m₁.endWithSuccess cfg reason = some m₂)
      (hRoot : m₂.isCovered ROOTNODE = false) (hRestart : m₂.restart cfg = some m') :
      Stepped cfg m (.finish op env) m'
  | ended {m₁ m₂ m₃ m' : Manager} {reason : BacktrackReason} (op : Op) (env : Env) (late : Bool)
      (hOp : interrupt m op env = some (m₁, reason)) (hAdd : m₁.addEndToPath = some m₂)
      (hNotice : noticeEnd cfg m₂ (if late then some reason else none) = some m₃)
      (hRoot : m₃.isCovered ROOTNODE = false) (hRestart : m₃.restart cfg = some m') :
      Stepped cfg m (.ended op env .endTest late) m'

/-- The steps of the main thread and of a thread that ends the execution. -/
theorem next_cases {a : Action} (hStep : next cfg m a = some m') : Stepped cfg m a m' := by
  cases a with
  | operation op env =>
    simp only [next] at hStep
    split at hStep
    · rename_i hDsl
      obtain rfl := Option.some.inj hStep
      exact .operation op env hDsl
    · cases hStep
  | finish op env =>
    simp only [next, Option.bind_eq_bind, Option.bind_eq_some_iff] at hStep
    obtain ⟨⟨m₁, reason⟩, hOp, m₂, hEnd, hNext⟩ := hStep
    obtain ⟨hRoot, hRestart⟩ := nextExecution_cases hNext
    exact .finish op env hOp hEnd hRoot hRestart
  | ended op env thrown late =>
    simp only [next, Option.bind_eq_bind, Option.bind_eq_some_iff, Option.guard_eq_some'] at hStep
    obtain ⟨⟨m₁, reason⟩, hOp, m₂, hAdd, _, rfl, m₃, hNotice, hNext⟩ := hStep
    obtain ⟨hRoot, hRestart⟩ := nextExecution_cases hNext
    exact .ended op env late hOp hAdd hNotice hRoot hRestart

/-- **Each step keeps the stack in order.** -/
theorem Tidy.next {a : Action} (t : Tidy m) (hStep : next cfg m a = some m') : Tidy m' := by
  cases next_cases hStep with
  | operation op env hOp => exact (dslOp_cases t hOp).tidy t
  | finish op env hOp hEnd hRoot hRestart =>
    obtain ⟨wf, hL⟩ := endWithSuccess_linked (Tidy.interrupt t hOp) hEnd hRoot
    exact tidy_restart wf hL hRestart
  | ended op env late hOp hAdd hNotice hRoot hRestart =>
    have t₁ := Tidy.interrupt t hOp
    exact Closed.restart (closed_of_notice t₁ hAdd hNotice) t₁ hRoot hRestart

theorem tidy_reachable {nondet : StaticId → Bool} {numMembers : Nat} {ok : Manager → Action → Prop}
    (h : Runs.ReachableUnder (system cfg nondet numMembers) ok m) : Tidy m := by
  refine h.invariant (P := Tidy) ?_ fun s a s' t _ hStep => Tidy.next t hStep
  rintro _ rfl
  exact tidy_initial nondet numMembers

/-- The end node is inserted into tidy states only. -/
theorem InsertionPoint.tidy (hP : InsertionPoint cfg m m₁) (t : Tidy m) : Tidy m₁ := by
  cases hP with
  | thread op env m₁ reason hOp => exact Tidy.interrupt t hOp
  | main op env m₂ m₃ m₁ reason last hOp hLast hCover hMark =>
    have t₂ := Tidy.interrupt t hOp
    obtain ⟨nd, hn⟩ : ∃ nd, m₂.heap last.parent = some nd := by
      simp only [Manager.coverLastSelection, Option.bind_eq_bind, Option.bind_eq_some_iff] at hCover
      obtain ⟨nd, hn, _⟩ := hCover
      exact ⟨nd, hn⟩
    have hBoth := mark_eq cfg reason hn
    rw [hCover, Option.bind_eq_bind, Option.bind_some, hMark] at hBoth
    obtain rfl := Option.some.inj hBoth
    exact t₂.marked cfg reason hn

/--
**Inserting the end node.** In every state of every sequence of executions in which the end node
may be inserted, at the end of the stack or in the middle of a replay, by the main thread or by any
thread of the program: `AddToPath` completes the path. The consumed locations stay, the recorded
one of the pending node follows, what was recorded behind it is gone, and in the tree one slot has
been overwritten.
-/
theorem insertion_completes {nondet : StaticId → Bool} {numMembers : Nat}
    (h : Runs.Reachable (system cfg nondet numMembers) m) (hPoint : InsertionPoint cfg m m₁) :
    CompletesPath m₁ := by
  obtain ⟨m', l, hAdd, hSlot, hP⟩ := pathCompleted_of_tidy (hPoint.tidy (tidy_reachable h))
  exact ⟨m', l, hAdd, hSlot, hP⟩

/-- No offer, no transition, nothing has ended. -/
def quiet : Env := ⟨false, [], false, false, false⟩

/-- A search in stack mode that keeps covered subtrees. -/
def stackMode : Cfg := ⟨false, false, false⟩

/-- The state of the first execution before its first operation. -/
def fresh : Manager := { Manager.initial (fun _ => false) 1 with stackIndex := 1 }

/-- Three choices and the end of the script; then the first choice again. -/
def replaysOne : List Action :=
  [.operation (.choice 0) quiet, .operation (.choice 1) quiet, .operation (.choice 2) quiet,
    .finish .finish quiet, .operation (.choice 0) quiet]

/-- The end node is inserted in the middle of the replay: the second choice is pending. -/
theorem insertion_completes_replay : ∃ m, m.stackIndex < m.nodeStack.length ∧ CompletesPath m := by
  obtain ⟨m, hRun, hIndex⟩ : ∃ m, replaysOne.foldlM (next stackMode) fresh = some m ∧
      m.stackIndex < m.nodeStack.length := ⟨_, rfl, by decide⟩
  have hReach : Runs.Reachable (system stackMode (fun _ => false) 1) m :=
    Runs.reachable_foldlM (.init rfl) _ hRun
  exact ⟨m, hIndex, insertion_completes hReach (.thread .finish quiet m .success rfl)⟩

end Interrupted

end Concurrit.Model
