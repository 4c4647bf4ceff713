import Concurrit.Model.Insertion
import Concurrit.Model.Settled

/-!
# Concurrit — the stack at a restart

At each `Restart` the node stack should be a root-anchored linked path without end nodes
and without covered nodes (`RestartStack`). It is, whatever the script and however many
threads end executions with `concurritEndTest` (`restart_stack`), as long as no end of
an execution leaves the stack as it is where it has to be cut (`Cuts`).
-/

namespace Concurrit.Model

open Function (update)

namespace Interrupted

variable {cfg : Cfg} {reason : BacktrackReason} {m m' m₁ m₂ m₃ : Manager} {n k : Nat} {nd : Node}
  {l last : ChildLoc} {base : List ChildLoc} {op : Op} {env : Env}

-- ---------------------------------------------------------------------------
-- The invariant
-- ---------------------------------------------------------------------------

/-- What the node stack should be when an execution starts. -/
structure RestartStack (m : Manager) : Prop where
  /-- anchored in the root -/
  head : m.nodeStack.head? = some ⟨ROOTNODE, 0⟩
  /-- the node at a location is the one recorded next, and knows its parent -/
  linked : ∀ k l l', m.nodeStack[k]? = some l → m.nodeStack[k + 1]? = some l' →
    m.get l = some (some l'.parent) ∧ ∃ nd, m.heap l'.parent = some nd ∧ nd.parent = some l.parent
  noEnd : ∀ l ∈ m.nodeStack, l.parent ≠ ENDNODE
  uncovered : ∀ l ∈ m.nodeStack, m.isCovered l.parent = false

/-- The stack is a linked path of uncovered nodes. -/
structure Clean (m : Manager) : Prop where
  tidy : Tidy m
  uncovered : ∀ l ∈ m.nodeStack, m.isCovered l.parent = false

/-- A clean stack is one to restart with. -/
theorem Clean.restartStack (h : Clean m) : RestartStack m where
  head := h.tidy.linked.head
  linked k l l' hk hk' := by
    have hSlot := h.tidy.linked.slot hk hk'
    obtain ⟨pd, hp, hc⟩ := hSlot
    refine ⟨(Manager.get_eq hp).trans hc, ?_⟩
    exact (h.tidy.wf.child ⟨pd, hp, hc⟩ (h.tidy.linked.validAt hk').1).2
  noEnd l hl := (h.tidy.linked.valid l hl).1
  uncovered := h.uncovered

/-- The condition on the steps, on the ends of executions by the main thread only. An operation
that finds a recorded node covered does not come right after an EXISTS node that still has
candidates; and where all threads have ended after a thread selection, nothing is recorded
behind it. -/
def Cuts (m : Manager) : Action → Prop
  | .operation _ _ => True
  | .finish op env => ∀ m₁ reason, interrupt m op env = some (m₁, reason) →
      m.stackIndex < m.nodeStack.length → ∀ last nd, m.getLastNodeInStack = some last →
        m.heap last.parent = some nd →
          (reason = .treeNodeCovered → m.retriesExists last = false) ∧
          (reason = .threadsAllEnded → nd.kind.isSelectThread = false)
  | .ended _ _ _ _ => True

-- ---------------------------------------------------------------------------
-- Operations
-- ---------------------------------------------------------------------------

/-- An operation that returns consumes an uncovered node. -/
theorem Clean.operation {a : Answer} (h : Clean m) (hOp : m.dslOp op env = some (m', .returns a)) :
    Clean m' := by
  have t := h.tidy
  have hStep := dslOp_cases t hOp
  refine ⟨hStep.tidy t, ?_⟩
  cases hStep with
  | consumed n nd m₁ i m' a hS hTakes hC =>
    obtain ⟨hStack, _⟩ := hS.stack
    intro l hl
    rw [hC.isCovered, hS.isCovered_eq t]
    rcases hC.stack_cases with ⟨hSame, _⟩ | hPush
    · rw [hSame, hStack] at hl
      exact h.uncovered l hl
    · rw [hPush, hStack, List.mem_append, List.mem_singleton] at hl
      rcases hl with hl | rfl
      · exact h.uncovered l hl
      · rw [← hS.isCovered_eq t]
        exact hS.isCovered_self

/-- What an operation that does not return leaves behind: at most the pending node has
become covered. -/
structure Interruption (m m₁ : Manager) (reason : BacktrackReason) : Prop where
  tidy : Tidy m₁
  stack : m₁.nodeStack = m.nodeStack
  index : m₁.stackIndex = m.stackIndex
  last : ∀ k l, k < m.stackIndex → m.nodeStack[k]? = some l → m₁.isCovered l.parent = false
  rest : (reason = .treeNodeCovered → m.stackIndex = m.nodeStack.length) →
    ∀ l ∈ m.nodeStack, m₁.isCovered l.parent = false

/-- What an interrupted operation leaves of a clean stack: at most the pending node has
become covered. -/
theorem Clean.interrupt (h : Clean m) (hOp : interrupt m op env = some (m₁, reason)) :
    Interruption m m₁ reason := by
  have t := h.tidy
  unfold Interrupted.interrupt at hOp
  split at hOp
  · rename_i m₂ thrown hDsl
    obtain ⟨rfl, rfl⟩ := Prod.mk.inj (Option.some.inj hOp)
    have hStep := dslOp_cases t hDsl
    have t₁ := hStep.tidy t
    cases hStep with
    | pending n nd _ _ hS hGives =>
      obtain ⟨hStack, hIndex⟩ := hS.stack
      have hAll : ∀ l ∈ m.nodeStack, m₂.isCovered l.parent = false := fun l hl => by
        rw [hS.isCovered_eq t]
        exact h.uncovered l hl
      exact ⟨t₁, hStack, hIndex, fun k l _ hl => hAll l (List.mem_of_getElem? hl), fun _ => hAll⟩
    | covered n nd idx hNext hn hKind hRule =>
      have hLast : ∀ k l, k < m.stackIndex → m.nodeStack[k]? = some l →
          (m.setNode n { nd with covered := true }).isCovered l.parent = false := fun k l hk hl => by
        rw [isCovered_setNode_of_ne (t.next_ne_consumed hNext hk hl)]
        exact h.uncovered l (List.mem_of_getElem? hl)
      refine ⟨t₁, rfl, rfl, hLast, fun hEnd l hl => ?_⟩
      obtain ⟨k, hk, rfl⟩ := List.getElem_of_mem hl
      exact hLast k _ (by rw [hEnd rfl]; exact hk) (List.getElem?_eq_getElem hk)
    | idle _ hWhy =>
      exact ⟨t₁, rfl, rfl, fun k l _ hl => h.uncovered l (List.mem_of_getElem? hl),
        fun _ => h.uncovered⟩
  · cases hOp

-- ---------------------------------------------------------------------------
-- Ends of executions
-- ---------------------------------------------------------------------------

/-- After `Restart` the root alone, or the stack that was left. -/
theorem Clean.restart (wf : WellFormed m.heap m.next) (hL : Linked m.heap m.nodeStack)
    (hU : ∀ l ∈ m.nodeStack, m.isCovered l.parent = false) (hEq : m.restart cfg = some m') :
    Clean m' := by
  refine ⟨tidy_restart wf hL hEq, ?_⟩
  rw [restart_eq cfg hL] at hEq
  obtain rfl := Option.some.inj hEq
  intro l hl
  refine hU l ?_
  by_cases hKeep : cfg.keepExecutionTree = true
  · rw [if_pos hKeep, List.mem_singleton] at hl
    rw [hl]
    exact List.mem_of_mem_head? hL.head
  · rwa [if_neg hKeep] at hl

/-- Inserting the end node keeps the flags of the path. -/
theorem isCovered_of_ended {loc : ChildLoc} (t : Tidy m) (hE : Ended m m' loc)
    (hk : k + 1 < (m.nodeStack.take (m.stackIndex + 1)).length)
    (hl : (m.nodeStack.take (m.stackIndex + 1))[k]? = some l) :
    m'.isCovered l.parent = m.isCovered l.parent := by
  have hL : Linked m.heap (m.nodeStack.take (m.stackIndex + 1)) := t.linked.take (Nat.succ_pos _)
  have hLast := hE.last
  rw [List.getLast?_eq_getElem?] at hLast
  have hLt := hL.parent_lt t.wf (show k < (m.nodeStack.take (m.stackIndex + 1)).length - 1 by omega)
    hl hLast
  exact hE.cut.isCovered t.wf fun hBelow =>
    absurd (t.wf.below_gt hBelow) (Nat.not_lt.mpr (Nat.le_of_lt hLt))

/-- The locations above the last one of the path have been consumed. -/
theorem consumed_of_take (hk : k + 1 < (m.nodeStack.take (m.stackIndex + 1)).length)
    (hl : (m.nodeStack.take (m.stackIndex + 1))[k]? = some l) :
    k < m.stackIndex ∧ k + 1 < m.nodeStack.length ∧ m.nodeStack[k]? = some l := by
  rw [List.length_take] at hk
  rw [List.getElem?_take_of_lt (by omega)] at hl
  exact ⟨by omega, by omega, hl⟩

/-- The location consumed last is not the pending one. -/
theorem interrupt_last (t : Tidy m) (hOp : interrupt m op env = some (m₁, reason))
    (hLast : m.getLastNodeInStack = some last) : m₁.heap last.parent = m.heap last.parent := by
  obtain ⟨hPos, hLastAt⟩ := Manager.getLastNodeInStack_eq_some.mp hLast
  have hBefore : m.stackIndex - 1 < m.stackIndex := by omega
  unfold Interrupted.interrupt at hOp
  split at hOp
  · rename_i m₂ thrown hDsl
    obtain ⟨rfl, rfl⟩ := Prod.mk.inj (Option.some.inj hOp)
    cases dslOp_cases t hDsl with
    | pending n nd _ _ hS hGives =>
      refine hS.frame ?_
      cases hS with
      | old idx nd hNext => exact t.next_ne_consumed hNext hBefore hLastAt
      | new idx hNext hNew =>
        obtain ⟨_, pd, hp, _⟩ := t.linked.validAt hLastAt
        rw [hNew]
        exact Nat.ne_of_lt (t.wf.lt_next hp)
    | covered n nd idx hNext hn hKind hRule =>
      exact Function.update_of_ne (t.next_ne_consumed hNext hBefore hLastAt) ..
    | idle => rfl
  · cases hOp

/-- **The main thread ends an execution.** -/
theorem Clean.finish (h : Clean m) (hOk : Cuts m (.finish op env))
    (hOp : Interrupted.interrupt m op env = some (m₁, reason))
    (hEnd : m₁.endWithSuccess cfg reason = some m₂)
    (hRoot : m₂.isCovered ROOTNODE = false) (hRestart : m₂.restart cfg = some m') : Clean m' := by
  have hI := h.interrupt hOp
  have t := hI.tidy
  obtain ⟨wf, hL⟩ := endWithSuccess_linked t hEnd hRoot
  refine Clean.restart wf hL ?_ hRestart
  obtain ⟨last, nd, hLast, hn, hCase⟩ := endWithSuccess_cases t hEnd
  have hLast₀ : m.getLastNodeInStack = some last := by
    rw [Manager.getLastNodeInStack_eq_some, ← hI.stack, ← hI.index]
    exact Manager.getLastNodeInStack_eq_some.mp hLast
  have hn₀ : m.heap last.parent = some nd := by rw [← interrupt_last h.tidy hOp hLast₀, hn]
  have t₁ := t.marked cfg reason hn
  rcases hCase with hRetry | ⟨_, mid, loc, hE, hB⟩
  · -- the stack is left as it is
    have hSame : coveredLast reason nd = nd := by
      have hOpen := hRetry.open_
      unfold coveredLast at hOpen ⊢
      split at hOpen
      · cases hOpen
      · rename_i hNot
        rw [if_neg hNot]
    obtain ⟨scope, tried, th, var, hKind, _, rfl⟩ := hRetry.tried
    rw [hSame] at hKind
    have hHeap : (marked cfg m₁ reason last nd).heap = m₁.heap := by
      show update m₁.heap last.parent (some (coveredLast reason nd)) = m₁.heap
      rw [hSame, ← hn, Function.update_eq_self]
    have hFlags : ∀ k, Manager.isCovered ((marked cfg m₁ reason last nd).setNode last.parent
        { coveredLast reason nd with
          kind := .existsThread scope (Manager.insertVar tried var) (some th) }) k =
        (marked cfg m₁ reason last nd).isCovered k := isCovered_setNode_grow hRetry.node rfl
    have hOld : ∀ k, (marked cfg m₁ reason last nd).isCovered k = m₁.isCovered k := fun k => by
      unfold Manager.isCovered
      rw [hHeap]
    intro l hl
    rw [hFlags, hOld]
    have hl : l ∈ m₁.nodeStack := hl
    rw [hI.stack] at hl
    refine hI.rest (fun hWhy => ?_) l hl
    by_contra hNe
    have hLt : m.stackIndex < m.nodeStack.length := Nat.lt_of_le_of_ne h.tidy.le hNe
    have hNot := (hOk m₁ reason hOp hLt last nd hLast₀ hn₀).1 hWhy
    have hRetries : m.retriesExists last = true :=
      (retriesExists_iff hn₀).mpr ⟨by rw [← hSame]; exact hRetry.open_, scope, tried, _, hKind⟩
    rw [hNot] at hRetries
    cases hRetries
  · -- the path is closed and cut
    refine hB.uncovered (hE.complete t₁) fun j l hj hl => ?_
    rw [isCovered_of_ended t₁ hE hj hl]
    obtain ⟨hjIndex, hjLen, hl⟩ := consumed_of_take hj hl
    have hjIndex : j < m₁.stackIndex := hjIndex
    have hjLen : j + 1 < m₁.nodeStack.length := hjLen
    have hl : m₁.nodeStack[j]? = some l := hl
    rw [hI.index] at hjIndex
    rw [hI.stack] at hjLen hl
    have hOld := hI.last j l hjIndex hl
    by_cases hSame : coveredLast reason nd = nd
    · have hHeap : (marked cfg m₁ reason last nd).heap = m₁.heap := by
        show update m₁.heap last.parent (some (coveredLast reason nd)) = m₁.heap
        rw [hSame, ← hn, Function.update_eq_self]
      unfold Manager.isCovered at hOld ⊢
      rwa [hHeap]
    · have hWhy : reason = .threadsAllEnded ∧ nd.kind.isSelectThread = true := by
        by_contra hNot
        exact hSame (by unfold coveredLast; rw [if_neg hNot])
      by_cases hNe : l.parent = last.parent
      · exfalso
        obtain ⟨hPos, hLastAt⟩ := Manager.getLastNodeInStack_eq_some.mp hLast₀
        have hAt : m.stackIndex - 1 ≤ j := by
          by_contra hLt
          have hLess := h.tidy.linked.parent_lt h.tidy.wf (Nat.lt_of_not_le hLt) hl hLastAt
          exact absurd hNe (Nat.ne_of_lt hLess)
        have hNot := (hOk m₁ reason hOp (by omega) last nd hLast₀ hn₀).2 hWhy.1
        rw [hNot] at hWhy
        cases hWhy.2
      · unfold Manager.isCovered at hOld ⊢
        rwa [show (marked cfg m₁ reason last nd).heap l.parent = m₁.heap l.parent from
          Function.update_of_ne hNe ..]

/-- **A thread ends an execution** with `concurritEndTest`, and the main thread backtracks. -/
theorem Clean.ended (h : Clean m) {why : Option BacktrackReason}
    (hOp : Interrupted.interrupt m op env = some (m₁, reason)) (hAdd : m₁.addEndToPath = some m₂)
    (hNotice : noticeEnd cfg m₂ why = some m₃) (hRoot : m₃.isCovered ROOTNODE = false)
    (hRestart : m₃.restart cfg = some m') : Clean m' := by
  have hI := h.interrupt hOp
  have t := hI.tidy
  obtain ⟨m₂', loc, hE, hB⟩ := (closed_of_notice t hAdd hNotice).closed
  have c := hE.complete t
  obtain ⟨wf, hL, _⟩ := hB.linked c hRoot
  refine Clean.restart wf hL (hB.uncovered c fun j l hj hl => ?_) hRestart
  rw [isCovered_of_ended t hE hj hl]
  obtain ⟨hjIndex, _, hl⟩ := consumed_of_take hj hl
  rw [hI.stack] at hl
  exact hI.last j l (by rw [← hI.index]; exact hjIndex) hl

/-- **Each step that meets the condition keeps the stack clean.** -/
theorem Clean.next {a : Action} (h : Clean m) (hOk : Cuts m a) (hStep : next cfg m a = some m') :
    Clean m' := by
  cases next_cases hStep with
  | operation op env hDsl => exact h.operation hDsl
  | finish op env hOp hEnd hRoot hRestart => exact h.finish hOk hOp hEnd hRoot hRestart
  | ended op env late hOp hAdd hNotice hRoot hRestart => exact h.ended hOp hAdd hNotice hRoot hRestart

/--
**The stack at every restart.** In every sequence of executions that meet the condition,
whatever their scripts, ended by the main thread or by any thread with `concurritEndTest`
at any time: the node stack is at each `Restart`, and at each operation after it, a
root-anchored linked path without end nodes and without covered nodes.
-/
theorem restart_stack {nondet : StaticId → Bool} {numMembers : Nat}
    (h : Runs.ReachableUnder (system cfg nondet numMembers) Cuts m) : RestartStack m := by
  refine Clean.restartStack (h.invariant (P := Clean) ?_ fun s a s' hC hOk hStep => hC.next hOk hStep)
  rintro _ rfl
  refine ⟨tidy_initial nondet numMembers, fun l hl => ?_⟩
  obtain rfl := List.mem_singleton.mp hl
  rfl

-- ---------------------------------------------------------------------------
-- Stacks that are not cut
-- ---------------------------------------------------------------------------

/-- The default configuration. -/
def byDefault : Cfg := ⟨true, false, true⟩

def twoThreads : ThreadVarPtrSet := ⟨[(0, 7), (1, 8)], by decide⟩

/-- Thread 7 evaluates the selections; a nondeterministic choice takes the given branch. -/
def withThread (bit : Bool) : Env := ⟨bit, [⟨7, true⟩], true, false, false⟩

/-- An execution of the script that selects a thread with EXISTS, makes a choice, selects
a thread with FORALL and makes the same choice again. -/
def wholeScript : List Action :=
  [.operation (.existsThread twoThreads) (withThread false), .operation (.choice 0) (withThread false),
    .operation (.forallThread twoThreads) (withThread false), .operation (.choice 0) (withThread true),
    .finish .finish quiet]

/-- The third execution finds the choice covered, both branches of which have led to the
end of the script. -/
def findsCovered : List Action :=
  [.operation (.existsThread twoThreads) (withThread false), .finish (.choice 0) quiet]

/-- **A covered node is left on the stack**: the choice found covered comes right after the
EXISTS node, which is retried, so that the path is not backtracked. -/
theorem restart_stack_covered : ¬ ∀ cfg nondet numMembers m,
    Runs.Reachable (system cfg nondet numMembers) m → RestartStack m := by
  intro hAll
  obtain ⟨m, hRun, hAt, hCov⟩ : ∃ m, (wholeScript ++ wholeScript ++ findsCovered).foldlM (next byDefault)
      { Manager.initial (fun _ => true) 2 with stackIndex := 1 } = some m ∧
      m.nodeStack[2]? = some ⟨3, 0⟩ ∧ m.isCovered 3 = true := ⟨_, rfl, rfl, rfl⟩
  have hReach : Runs.Reachable (system byDefault (fun _ => true) 2) m :=
    Runs.ReachableUnder.foldlM (fun _ _ _ h => h) (.init rfl) _ hRun
  have hNot := (hAll _ _ _ _ hReach).uncovered _ (List.mem_of_getElem? hAt)
  rw [hCov] at hNot
  cases hNot

/-- One execution, and one that a thread ends with `concurritEndTest` in the middle of its replay. -/
theorem restart_stack_after_end_test : ∃ m,
    (replaysOne ++ [Action.ended .finish quiet .endTest false]).foldlM (next stackMode) fresh = some m ∧
      m.nodeStack ≠ [⟨ROOTNODE, 0⟩] ∧ RestartStack m := by
  have hStart : Runs.ReachableUnder (system stackMode (fun _ => false) 1) Cuts fresh := .init rfl
  have hZero := hStart.step (i := Action.operation (.choice 0) quiet) trivial
    (show next _ _ _ = some _ from rfl)
  have hOne := hZero.step (i := Action.operation (.choice 1) quiet) trivial
    (show next _ _ _ = some _ from rfl)
  have hTwo := hOne.step (i := Action.operation (.choice 2) quiet) trivial
    (show next _ _ _ = some _ from rfl)
  -- nothing is recorded behind the last choice
  have hEnds := hTwo.step (i := Action.finish .finish quiet)
    (fun _ _ _ hLt => absurd hLt (Nat.lt_irrefl _)) (show next _ _ _ = some _ from rfl)
  have hReplays := hEnds.step (i := Action.operation (.choice 0) quiet) trivial
    (show next _ _ _ = some _ from rfl)
  have hThread := hReplays.step (i := Action.ended .finish quiet .endTest false) trivial
    (show next _ _ _ = some _ from rfl)
  exact ⟨_, rfl, by decide, restart_stack hThread⟩

end Interrupted

end Concurrit.Model
