import Concurrit.Model.Exhaustive
import Concurrit.Model.Explore
import Concurrit.Model.Marking

/-!
# Concurrit — the verdict of a search

`Explore` and the search in the execution tree put together: the search decides which schedule is
executed next, the outcome of each execution goes to the loop of `Explore`, and the loop decides
whether there is another one.

* `Test`            — a script, and the assertion that fails along each of its schedules.
* `Came`            — how `Explore` comes to its result.
* `verdict_exact`   — the result says what is true of all schedules: a FORALL search succeeds if
  and only if no schedule of the script fails an assertion.
* `search_returns`  — every search of a finite script returns.
-/

namespace Concurrit.Model

namespace Verdict

-- ---------------------------------------------------------------------------
-- The machine
-- ---------------------------------------------------------------------------

/-- A deterministic test. An assertion that fails ends the script. -/
structure Test where
  script : Script
  /-- the address of the exception that an execution with these answers throws -/
  violation : List Answer → Option Nat

/-- The address of the exception that the script throws where it ends. -/
def Test.thrown (test : Test) (history : List Answer) : Option Nat :=
  if test.script history = .finish then test.violation history else none

/-- What `RunOnce` returns after an execution in which no assertion fails. -/
def outcomeOf (e : Execution) (rootCovered : Bool) : Outcome :=
  ⟨if e.reason = .success then [] else [⟨"", ⟨0, .backtrack e.reason⟩, 0⟩], rootCovered⟩

structure Search where
  explorer : Explorer
  explore : ExploreState

/-- The loop of `Explore` handles the execution that has ended last, if one has. -/
def Search.handle (exploreCfg : ExploreCfg) (s : Search) (explorer : Explorer) : Search :=
  if explorer.status = .failed then ⟨explorer, { s.explore with status := .failed }⟩
  else
    match explorer.executed.drop s.explorer.executed.length with
    | [] => ⟨explorer, s.explore⟩
    | e :: _ => ⟨explorer, s.explore.step exploreCfg (outcomeOf e (explorer.mgr.isCovered ROOTNODE))⟩

/-- One operation of the script. An assertion that fails goes to the end node, and the tree is left
as it is. -/
def Search.step (cfg : Cfg) (exploreCfg : ExploreCfg) (test : Test) (s : Search) (env : Env) : Search :=
  match s.explore.status with
  | .exploring =>
    match test.thrown s.explorer.history with
    | some address =>
      ⟨s.explorer, s.explore.step exploreCfg
        ⟨[⟨"", ⟨address, .assertionViolation⟩, 0⟩], s.explorer.mgr.isCovered ROOTNODE⟩⟩
    | none => s.handle exploreCfg (s.explorer.step cfg test.script env)
  | _ => s

def Search.initial (cfg : Cfg) (exploreCfg : ExploreCfg) (nondet : StaticId → Bool)
    (numMembers : Nat) : Search :=
  ⟨Explorer.initial cfg nondet numMembers, ExploreState.initial exploreCfg⟩

def system (cfg : Cfg) (exploreCfg : ExploreCfg) (test : Test) (nondet : StaticId → Bool)
    (numMembers : Nat) : Runs.System Search Env :=
  Runs.machine (Search.initial cfg exploreCfg nondet numMembers) (Search.step cfg exploreCfg test)

/-- As long as the search goes on, no operation of the script times out. -/
def InTime (test : Test) (s : Search) (env : Env) : Prop :=
  s.explore.status = .exploring → Cooperates test.script s.explorer env

/-- A search that is not limited by `ExitOnFirstExecution`. -/
structure Unlimited (exploreCfg : ExploreCfg) : Prop where
  budget : exploreCfg.exitOnFirstExecution < 0
  controlled : exploreCfg.runUncontrolled = false

/-- The schedule comes to the end of the script, whether an assertion fails there or not. -/
def Test.Completes (test : Test) (leaf : List Answer) : Prop :=
  Leaf test.script leaf ∧ test.script leaf = .finish

variable {cfg : Cfg} {exploreCfg : ExploreCfg} {test : Test} {s s' : Search} {env : Env}
  {nondet : StaticId → Bool} {numMembers : Nat} {x x' : ExploreState} {o : Outcome} {r : Result}
  {k : Nat} {e : Execution} {m : Manager}

-- ---------------------------------------------------------------------------
-- The loop of `Explore`
-- ---------------------------------------------------------------------------

/-- What the loop has become after an execution that does not end the search by itself. -/
structure Resumed (k : Nat) (rootCovered : Bool) (x : ExploreState) : Prop where
  result : x.result = .forallResult k
  budget : x.exitOnFirstExecution < 0
  status : x.status = if rootCovered then .returned (.forallResult k) else .exploring

/-- The loop goes on after a backtrack, or returns when the root is covered. The result that
is kept for the return is the number counted so far. -/
theorem resumed_handleBacktrack {reason : BacktrackReason} {rootCovered : Bool}
    (hStatus : x.status = .exploring) (hResult : x.result = .forallResult k)
    (hBudget : x.exitOnFirstExecution < 0) (hControlled : exploreCfg.runUncontrolled = false)
    (hUnknown : reason ≠ .unknown) (hGoes : reason ≠ .searchEnds) :
    Resumed k rootCovered (x.handleBacktrack exploreCfg reason rootCovered) := by
  have hSpent : x.exitOnFirstExecution ≠ 0 := by omega
  have hLeft : ¬ x.exitOnFirstExecution - 1 = 0 := by omega
  simp only [ExploreState.handleBacktrack, hUnknown, if_false, ExploreState.decrementBudget, hSpent,
    hLeft, hGoes, or_self, hControlled, hResult, Bool.false_eq_true]
  cases rootCovered <;> exact ⟨by simp, by simp; omega, by simp [hStatus]⟩

/-- A chain that holds a backtrack goes to its handler. -/
theorem handleException_backtrack (reason : BacktrackReason) (rootCovered : Bool) :
    x.handleException exploreCfg [⟨"", ⟨0, .backtrack reason⟩, 0⟩] rootCovered =
      x.handleBacktrack exploreCfg reason rootCovered := by
  simp [ExploreState.handleException, ExcChain.getAssertionViolation, ExcChain.getInternal,
    ExcChain.getBacktrack, ExcChain.findCause, Exc.isAssertionViolation, Exc.isInternal,
    Exc.isBacktrack]

/-- The search for all executions goes on after one without an exception. -/
theorem step_success (hStatus : x.status = .exploring) (hChain : o.chain = [])
    (hMode : exploreCfg.exploreType = .forall_) (hResult : x.result = .forallResult k)
    (hBudget : x.exitOnFirstExecution < 0) (hControlled : exploreCfg.runUncontrolled = false) :
    Resumed (k + 1) o.rootCovered (x.step exploreCfg o) := by
  rw [ExploreState.step, hStatus]
  simp only [Outcome.isSuccess, hChain, List.isEmpty_nil, if_true, ExploreState.handleSuccess,
    hMode, hResult, handleException_backtrack]
  exact resumed_handleBacktrack rfl rfl hBudget hControlled (by decide) (by decide)

/-- A search goes on after a backtrack. -/
theorem step_backtrack {reason : BacktrackReason} (hStatus : x.status = .exploring)
    (hChain : o.chain = [⟨"", ⟨0, .backtrack reason⟩, 0⟩]) (hResult : x.result = .forallResult k)
    (hBudget : x.exitOnFirstExecution < 0) (hControlled : exploreCfg.runUncontrolled = false)
    (hUnknown : reason ≠ .unknown) (hGoes : reason ≠ .searchEnds) :
    Resumed k o.rootCovered (x.step exploreCfg o) := by
  rw [ExploreState.step, hStatus]
  simp only [Outcome.isSuccess, hChain, List.isEmpty_cons, Bool.false_eq_true, if_false,
    handleException_backtrack]
  exact resumed_handleBacktrack rfl hResult hBudget hControlled hUnknown hGoes

/-- An assertion violation ends the search. -/
theorem step_violation {address : Nat} (hStatus : x.status = .exploring)
    (hChain : o.chain = [⟨"", ⟨address, .assertionViolation⟩, 0⟩]) :
    x.step exploreCfg o = { x with
      result := .assertionViolationResult ⟨address, .assertionViolation⟩
      outcomes := x.outcomes ++ [o]
      status := .returned (.assertionViolationResult ⟨address, .assertionViolation⟩) } := by
  rw [ExploreState.step, hStatus]
  simp [Outcome.isSuccess, hChain, ExploreState.handleException, ExcChain.getAssertionViolation,
    ExcChain.findCause, Exc.isAssertionViolation, ExploreState.afterInnerLoop]

/-- The first execution without an exception ends an EXISTS search. -/
theorem step_witness (hStatus : x.status = .exploring) (hChain : o.chain = [])
    (hMode : exploreCfg.exploreType = .exists_) :
    x.step exploreCfg o = { x with
      result := .existsResult, outcomes := x.outcomes ++ [o], status := .returned .existsResult } := by
  rw [ExploreState.step, hStatus]
  simp [Outcome.isSuccess, hChain, ExploreState.handleSuccess, hMode, ExploreState.afterInnerLoop]

-- ---------------------------------------------------------------------------
-- The search in the tree
-- ---------------------------------------------------------------------------

@[simp] theorem handle_explorer (explorer : Explorer) :
    (s.handle exploreCfg explorer).explorer = explorer := by
  unfold Search.handle
  split
  · rfl
  · split <;> rfl

theorem step_of_not_exploring (hStatus : s.explore.status ≠ .exploring) :
    s.step cfg exploreCfg test env = s := by
  unfold Search.step
  split
  · rename_i h
    exact absurd h hStatus
  · rfl

theorem step_of_thrown {address : Nat} (hStatus : s.explore.status = .exploring)
    (hThrown : test.thrown s.explorer.history = some address) :
    s.step cfg exploreCfg test env = ⟨s.explorer, s.explore.step exploreCfg
      ⟨[⟨"", ⟨address, .assertionViolation⟩, 0⟩], s.explorer.mgr.isCovered ROOTNODE⟩⟩ := by
  simp only [Search.step, hStatus, hThrown]

theorem step_of_not_thrown (hStatus : s.explore.status = .exploring)
    (hThrown : test.thrown s.explorer.history = none) :
    s.step cfg exploreCfg test env = s.handle exploreCfg (s.explorer.step cfg test.script env) := by
  simp only [Search.step, hStatus, hThrown]

/-- An operation that does not end the execution is none of the loop's concern. -/
theorem handle_same {explorer : Explorer} (hAlive : explorer.status ≠ .failed)
    (hSame : explorer.executed = s.explorer.executed) :
    s.handle exploreCfg explorer = ⟨explorer, s.explore⟩ := by
  simp only [Search.handle, if_neg hAlive, hSame, List.drop_length]

/-- The end of an execution goes to the loop. -/
theorem handle_ended {explorer : Explorer} (hAlive : explorer.status ≠ .failed)
    (hEnded : explorer.executed = s.explorer.executed ++ [e]) :
    s.handle exploreCfg explorer =
      ⟨explorer, s.explore.step exploreCfg (outcomeOf e (explorer.mgr.isCovered ROOTNODE))⟩ := by
  simp only [Search.handle, if_neg hAlive, hEnded, List.drop_left]

/-- **The search in the tree is one of the script.** Where the loop stops earlier than the
tree search, the explorer keeps its last state, so that nothing is added to its runs. -/
theorem explorer_reachable (hOff : cfg.markEndingBranchesCovered = false)
    (h : Runs.ReachableUnder (system cfg exploreCfg test nondet numMembers) (InTime test) s) :
    Runs.ReachableUnder (Explorer.system cfg test.script nondet numMembers)
      (FairAndPrompt cfg test.script) s.explorer := by
  refine Runs.ReachableUnder.invariant (P := fun s => Runs.ReachableUnder
    (Explorer.system cfg test.script nondet numMembers) (FairAndPrompt cfg test.script) s.explorer)
    ?_ ?_ h
  · rintro _ rfl
    exact .init rfl
  · rintro s env _ hReach hOk rfl
    by_cases hStatus : s.explore.status = .exploring
    -- the assertion fails: the explorer stays where it is
    · rcases hThrown : test.thrown s.explorer.history with _ | address
      · rw [step_of_not_thrown hStatus hThrown, handle_explorer]
        exact hReach.step
          (fun hRun => ⟨(fun hOn => by rw [hOff] at hOn; cases hOn), hOk hStatus hRun⟩) rfl
      · rw [step_of_thrown hStatus hThrown]
        exact hReach
    · rw [step_of_not_exploring hStatus]
      exact hReach

-- ---------------------------------------------------------------------------
-- The loop and the search together
-- ---------------------------------------------------------------------------

/-- An execution in which no assertion has failed came to the end of the script, or to an
assumption that does not hold. -/
inductive Passed (test : Test) (e : Execution) : Prop where
  | completed (hEnd : test.script e.history = .finish) (hReason : e.reason = .success)
      (hFine : test.violation e.history = none) : Passed test e
  | cutOff (hEnd : test.script e.history = .assumeFails) (hReason : e.reason = .assumeFails) :
      Passed test e

/-- The executions that came to the end of the script. -/
def numCompleted (executed : List Execution) : Nat :=
  executed.countP fun e => e.reason = .success

/-- The search goes on. -/
structure Going (exploreCfg : ExploreCfg) (s : Search) : Prop where
  running : s.explorer.status = .running
  status  : s.explore.status = .exploring
  result  : s.explore.result = .forallResult (numCompleted s.explorer.executed)
  budget  : s.explore.exitOnFirstExecution < 0
  mode    : ∀ e ∈ s.explorer.executed, e.reason = .success → exploreCfg.exploreType = .forall_

/-- How `Explore` comes to its result. -/
inductive Came (exploreCfg : ExploreCfg) (test : Test) (explorer : Explorer) : Result → Prop where
  /-- an assertion fails along this schedule -/
  | violation (leaf : List Answer) (address : Nat) (hDone : test.Completes leaf)
      (hFails : test.violation leaf = some address) :
      Came exploreCfg test explorer (.assertionViolationResult ⟨address, .assertionViolation⟩)
  /-- a search for one schedule has found this one -/
  | witness (leaf : List Answer) (hMode : exploreCfg.exploreType = .exists_)
      (hDone : test.Completes leaf) (hFine : test.violation leaf = none) :
      Came exploreCfg test explorer .existsResult
  /-- nothing is left to be searched -/
  | exhausted (hStopped : explorer.status = .stopped)
      (hMode : ∀ e ∈ explorer.executed, e.reason = .success → exploreCfg.exploreType = .forall_) :
      Came exploreCfg test explorer (.forallResult (numCompleted explorer.executed))

/-- What is known of every state. -/
structure Judged (exploreCfg : ExploreCfg) (test : Test) (s : Search) : Prop where
  alive  : s.explorer.status ≠ .failed
  passed : ∀ e ∈ s.explorer.executed, Passed test e
  stands : Going exploreCfg s ∨
    ∃ r, s.explore.status = .returned r ∧ Came exploreCfg test s.explorer r

theorem numCompleted_snoc (executed : List Execution) (e : Execution) :
    numCompleted (executed ++ [e]) = numCompleted executed + if e.reason = .success then 1 else 0 := by
  simp [numCompleted, List.countP_append, List.countP_cons]

/-- At the beginning nothing is executed, and the loop explores. -/
theorem judged_initial (hUnlimited : Unlimited exploreCfg) :
    Judged exploreCfg test (Search.initial cfg exploreCfg nondet numMembers) := by
  have hInitial : (Search.initial cfg exploreCfg nondet numMembers).explorer =
      Explorer.initial cfg nondet numMembers := rfl
  have hNone : (Explorer.initial cfg nondet numMembers).executed = [] := by rw [initial_eq]
  have hRunning : (Explorer.initial cfg nondet numMembers).status = .running := by rw [initial_eq]
  have hNothing : ∀ e, e ∉ (Search.initial cfg exploreCfg nondet numMembers).explorer.executed := by
    intro e he
    rw [hInitial, hNone] at he
    cases he
  refine ⟨by rw [hInitial, hRunning]; simp, fun e he => absurd he (hNothing e),
    .inl ⟨hRunning, rfl, ?_, hUnlimited.budget, fun e he => absurd he (hNothing e)⟩⟩
  rw [hInitial, hNone]
  rfl

/-- **The loop handles the end of an execution** as the search in the tree does: it goes on
as long as the root is not covered, and otherwise returns in one of the three ways that
`Came` lists. -/
theorem Going.ended (hG : Going exploreCfg s) (hUnlimited : Unlimited exploreCfg)
    (explorer : Explorer) (hPassed : Passed test e) (hLeaf : Leaf test.script e.history)
    (hEnded : explorer.executed = s.explorer.executed ++ [e])
    (hStatus : explorer.status =
      if explorer.mgr.isCovered ROOTNODE then .stopped else .running) :
    Going exploreCfg (s.handle exploreCfg explorer) ∨
      ∃ r, (s.handle exploreCfg explorer).explore.status = .returned r ∧
        Came exploreCfg test explorer r := by
  have hAlive : explorer.status ≠ .failed := by
    rw [hStatus]
    split <;> simp
  rw [handle_ended hAlive hEnded]
  -- the mode of the old executions is kept
  have hModes : ∀ hMode : e.reason = .success → exploreCfg.exploreType = .forall_,
      ∀ e' ∈ explorer.executed, e'.reason = .success → exploreCfg.exploreType = .forall_ := by
    intro hMode e' he'
    rw [hEnded] at he'
    rcases List.mem_append.mp he' with hOld | hNew
    · exact hG.mode e' hOld
    · rw [List.mem_singleton.mp hNew]
      exact hMode
  -- the loop goes on as long as the root is not covered
  have hGoOn : ∀ {x : ExploreState}, (e.reason = .success → exploreCfg.exploreType = .forall_) →
      Resumed (numCompleted explorer.executed) (explorer.mgr.isCovered ROOTNODE) x →
      Going exploreCfg ⟨explorer, x⟩ ∨ ∃ r, x.status = .returned r ∧ Came exploreCfg test explorer r := by
    intro x hMode hR
    have hResumed := hR.status
    cases hCov : explorer.mgr.isCovered ROOTNODE with
    | false =>
      rw [hCov] at hResumed hStatus
      exact .inl ⟨by simpa using hStatus, by simpa using hResumed, hR.result, hR.budget, hModes hMode⟩
    | true =>
      rw [hCov] at hResumed hStatus
      exact .inr ⟨_, by simpa using hResumed, .exhausted (by simpa using hStatus) (hModes hMode)⟩
  -- a completed execution is counted, or ends an EXISTS search; one that was cut off
  -- backtracks
  cases hPassed with
  | completed hEnd hReason hFine =>
    have hChain : (outcomeOf e (explorer.mgr.isCovered ROOTNODE)).chain = [] := by
      simp [outcomeOf, hReason]
    cases hMode : exploreCfg.exploreType with
    | exists_ =>
      refine .inr ⟨_, ?_, .witness e.history hMode ⟨hLeaf, hEnd⟩ hFine⟩
      rw [step_witness hG.status hChain hMode]
    | forall_ =>
      refine hGoOn (fun _ => hMode) ?_
      rw [hEnded, numCompleted_snoc, if_pos hReason]
      exact step_success hG.status hChain hMode hG.result hG.budget hUnlimited.controlled
  | cutOff hEnd hReason =>
    refine hGoOn (fun hS => by rw [hReason] at hS; cases hS) ?_
    have hChain : (outcomeOf e (explorer.mgr.isCovered ROOTNODE)).chain =
        [⟨"", ⟨0, .backtrack .assumeFails⟩, 0⟩] := by
      rw [outcomeOf, if_neg (by rw [hReason]; decide), hReason]
    rw [hEnded, numCompleted_snoc, if_neg (by rw [hReason]; decide), Nat.add_zero]
    exact step_backtrack hG.status hChain hG.result hG.budget hUnlimited.controlled (by decide)
      (by decide)

/-- **One step keeps the loop and the search together.** The step either fails an assertion,
or advances within the execution, or ends it; the last case is that of the previous lemma,
with or without a restart. -/
theorem Judged.step (hJ : Judged exploreCfg test s) (hUnlimited : Unlimited exploreCfg)
    (hPlain : Script.Plain test.script) (hOff : cfg.markEndingBranchesCovered = false)
    (hSwept : Swept cfg test.script s.explorer) (hFair : Fair cfg test.script s.explorer)
    (hOk : InTime test s env) : Judged exploreCfg test (s.step cfg exploreCfg test env) := by
  rcases hJ.stands with hG | ⟨r, hReturned, _⟩
  swap
  · rw [step_of_not_exploring (by simp [hReturned])]
    exact hJ
  obtain ⟨ρ, hO⟩ := hSwept.running hG.running
  have hPrompt := hOk hG.status hG.running
  -- without marks no branch below the root is covered by an execution that still runs
  have hMarks : ∀ X b, (s.explorer.mgr.infos X).covered b = false := by
    intro X b
    by_contra hCov
    have hOn := (hFair.marks hJ.alive X b (by simpa using hCov)).1
    rw [hOff] at hOn
    cases hOn
  -- an execution that ends is at a leaf of the script
  have hLeafOf : (test.script s.explorer.history).Ends → Leaf test.script s.explorer.history :=
    fun hEnds => ⟨hO.tracks.path_eq_of_ends hEnds ▸ hO.tracks.admissible, hEnds⟩
  rcases hThrown : test.thrown s.explorer.history with _ | address
  swap
  -- an assertion fails
  · rw [step_of_thrown hG.status hThrown]
    unfold Test.thrown at hThrown
    split at hThrown
    · rename_i hEnd
      refine ⟨hJ.alive, hJ.passed,
        .inr ⟨_, ?_, .violation _ address ⟨hLeafOf (.inl hEnd), hEnd⟩ hThrown⟩⟩
      rw [step_violation hG.status rfl]
    · cases hThrown
  rw [step_of_not_thrown hG.status hThrown]
  -- what throws is the end of the script
  have hPassed : ∀ {m₁ reason}, s.explorer.mgr.dslOp (test.script s.explorer.history) env =
      some (m₁, .throws reason) → (test.script s.explorer.history).Ends ∧
        Passed test ⟨s.explorer.history, Explorer.handledReason reason env⟩ := by
    intro m₁ reason hOp
    have hT := hO.throws hPlain hPrompt hOp
    have hEnds := (hO.throws_unmarked hT hMarks).1
    have hHandled : Explorer.handledReason reason env = reason :=
      if_neg fun hBoth => hT.reason_ne.2.1 hBoth.1
    rw [hHandled]
    refine ⟨hEnds, ?_⟩
    cases hT with
    | finish hEnd =>
      refine .completed hEnd rfl ?_
      rwa [Test.thrown, if_pos hEnd] at hThrown
    | assumeFails hEnd => exact .cutOff hEnd rfl
    | covered _ _ _ _ hChoice =>
      rw [hChoice] at hEnds
      rcases hEnds with h | h <;> cases h
  have hPassedAll : ∀ {e}, Passed test e → ∀ e' ∈ s.explorer.executed ++ [e], Passed test e' := by
    intro e hE e' he'
    rcases List.mem_append.mp he' with hOld | hNew
    · exact hJ.passed e' hOld
    · rw [List.mem_singleton.mp hNew]
      exact hE
  have hCase : StepCase cfg test.script s.explorer env (s.explorer.step cfg test.script env) :=
    step_cases hG.running
  -- the step of the explorer by its cases
  generalize s.explorer.step cfg test.script env = explorer at hCase
  cases hCase with
  -- no check of the explorer fails in such a search
  | failed _ _ hWhy => exact absurd hWhy (hO.not_checkFails hPlain hPrompt hMarks)
  | advanced m' a _ =>
    have hSame : s.handle exploreCfg { s.explorer with mgr := m', history := s.explorer.history ++ [a] } =
        ⟨_, s.explore⟩ := handle_same hJ.alive rfl
    rw [hSame]
    exact ⟨hJ.alive, hJ.passed, .inl ⟨hG.running, hG.status, hG.result, hG.budget, hG.mode⟩⟩
  | stopped m₁ m' reason hOp _ hRoot =>
    -- the search stops with the root covered
    obtain ⟨hEnds, hPass⟩ := hPassed hOp
    have hStands := hG.ended hUnlimited { s.explorer with
      mgr := m'
      executed := s.explorer.executed ++ [⟨s.explorer.history, Explorer.handledReason reason env⟩]
      status := .stopped } hPass (hLeafOf hEnds) rfl (by simp [hRoot])
    refine ⟨by simp, ?_, by simpa using hStands⟩
    rw [handle_explorer]
    exact hPassedAll hPass
  | restarted m₁ m' m'' reason hOp hEnd hRoot hRestart =>
    obtain ⟨hEnds, hPass⟩ := hPassed hOp
    have hT := hO.throws hPlain hPrompt hOp
    have hHandled : Explorer.handledReason reason env = reason :=
      if_neg fun hBoth => hT.reason_ne.2.1 hBoth.1
    rw [hHandled] at hEnd
    -- the restart leaves the root uncovered
    obtain ⟨_, _, _, _, hHeap, _⟩ :=
      (hO.throws_closable hT).next hT.reason_ne.1 hEnd hRoot hRestart
    have hOpen : m''.isCovered ROOTNODE = false := by
      rw [Manager.isCovered, hHeap]
      exact hRoot
    have hStands := hG.ended hUnlimited (s.explorer.restarted m''
      ⟨s.explorer.history, Explorer.handledReason reason env⟩) hPass (hLeafOf hEnds) rfl
      (by simp [Explorer.restarted, hOpen])
    refine ⟨by simp [Explorer.restarted], ?_, by simpa using hStands⟩
    rw [handle_explorer]
    exact hPassedAll hPass

/-- **Loop and search stay together** in every run of a plain script without marks. The
invariants of the search in the tree are used at each step. -/
theorem judged_reachable (hUnlimited : Unlimited exploreCfg) (hPlain : Script.Plain test.script)
    (hOff : cfg.markEndingBranchesCovered = false)
    (h : Runs.ReachableUnder (system cfg exploreCfg test nondet numMembers) (InTime test) s) :
    Judged exploreCfg test s := by
  refine Runs.ReachableUnder.invariant_of
    (Q := fun s => Swept cfg test.script s.explorer ∧ Fair cfg test.script s.explorer)
    (P := Judged exploreCfg test) (fun s hReach => ?_) ?_ ?_ h
  · have hExplorer := explorer_reachable hOff hReach
    exact ⟨swept_reachable hPlain hExplorer,
      fair_reachable (hExplorer.mono fun _ _ hOk hRun => (hOk hRun).1)⟩
  · rintro _ rfl
    exact judged_initial hUnlimited
  · rintro s env _ ⟨hSwept, hFair⟩ hJ hOk rfl
    exact hJ.step hUnlimited hPlain hOff hSwept hFair hOk

-- ---------------------------------------------------------------------------
-- What the result says
-- ---------------------------------------------------------------------------

/-- What a result says of the schedules of the test. -/
structure Exact (exploreType : ExploreType) (test : Test) (r : Result) : Prop where
  /-- a FORALL search succeeds if and only if no assertion fails along any schedule -/
  forall_ : exploreType = .forall_ →
    (r.isSuccess = true ↔ ∀ leaf, test.Completes leaf → test.violation leaf = none)
  /-- the schedule an EXISTS search has found is one along which no assertion fails -/
  exists_ : r = .existsResult → ∃ leaf, test.Completes leaf ∧ test.violation leaf = none
  /-- an EXISTS search answers as a FORALL search does if and only if no schedule comes to the end
  of the script -/
  vain    : exploreType = .exists_ → ((∃ k, r = .forallResult k) ↔ ∀ leaf, ¬ test.Completes leaf)
  /-- the assertion that is reported fails along a schedule -/
  reported : ∀ ae, r = .assertionViolationResult ae →
    ∃ leaf, test.Completes leaf ∧ test.violation leaf = some ae.address

/-- Once nothing is left to be searched, every schedule has been executed. -/
theorem executed_of_stopped (hSwept : Swept cfg test.script s.explorer)
    (hOff : cfg.markEndingBranchesCovered = false) (hStopped : s.explorer.status = .stopped)
    {leaf : List Answer} (hLeaf : Leaf test.script leaf) : Executed s.explorer.executed leaf := by
  have hAlive : s.explorer.status ≠ .failed := by rw [hStopped]; simp
  rcases hSwept.sound hAlive [] ROOTNODE rfl (hSwept.stopped hStopped) leaf ⟨hLeaf, List.nil_prefix⟩
    with hDone | ⟨hOn, _⟩
  · exact hDone
  · rw [hOff] at hOn
    cases hOn

/-- An execution that has passed and whose schedule comes to the end of the script. -/
theorem Passed.of_finish (hP : Passed test e) (hEnd : test.script e.history = .finish) :
    e.reason = .success ∧ test.violation e.history = none := by
  cases hP with
  | completed _ hReason hFine => exact ⟨hReason, hFine⟩
  | cutOff hCut _ =>
    rw [hEnd] at hCut
    cases hCut

/-- However `Explore` comes to its result, the result is exact: a violation is one leaf, a
witness is one leaf, and exhaustion has passed every leaf. -/
theorem Judged.exact (hJ : Judged exploreCfg test s) (hSwept : Swept cfg test.script s.explorer)
    (hOff : cfg.markEndingBranchesCovered = false) (hReturned : s.explore.status = .returned r) :
    Exact exploreCfg.exploreType test r ∧ Came exploreCfg test s.explorer r := by
  obtain hG | ⟨r', hReturned', hCame⟩ := hJ.stands
  · rw [hG.status] at hReturned
    cases hReturned
  obtain rfl : r' = r := by
    rw [hReturned] at hReturned'
    exact (ExploreStatus.returned.inj hReturned').symm
  refine ⟨?_, hCame⟩
  cases hCame with
  -- an assertion has failed at a leaf, in either mode
  | violation leaf address hDone hFails =>
    refine ⟨fun _ => ⟨fun hS => ?_, fun hAll => ?_⟩, fun hR => ?_, fun _ => ⟨?_, ?_⟩, ?_⟩
    · cases hS
    · rw [hAll leaf hDone] at hFails
      cases hFails
    · cases hR
    · rintro ⟨k, hR⟩
      cases hR
    · exact fun hNone => absurd hDone (hNone leaf)
    · intro ae hR
      obtain rfl := Result.assertionViolationResult.inj hR
      exact ⟨leaf, hDone, hFails⟩
  -- EXISTS: the leaf that was executed is the one
  | witness leaf hMode hDone hFine =>
    refine ⟨fun hForall => ?_, fun _ => ⟨leaf, hDone, hFine⟩, fun _ => ⟨?_, ?_⟩, fun _ hR => ?_⟩
    · rw [hMode] at hForall
      cases hForall
    · rintro ⟨k, hR⟩
      cases hR
    · exact fun hNone => absurd hDone (hNone leaf)
    · cases hR
  -- exhausted: every leaf was executed, and none of them failed
  | exhausted hStopped hMode =>
    have hPast : ∀ leaf, test.Completes leaf →
        ∃ e ∈ s.explorer.executed, e.reason = .success ∧ test.violation leaf = none := by
      rintro leaf ⟨hLeaf, hEnd⟩
      obtain ⟨e, he, rfl⟩ := executed_of_stopped hSwept hOff hStopped hLeaf
      exact ⟨e, he, (hJ.passed e he).of_finish hEnd⟩
    refine ⟨fun _ => ⟨fun _ leaf hDone => ?_, fun _ => rfl⟩, fun hR => ?_,
      fun hExists => ⟨fun _ leaf hDone => ?_, fun _ => ⟨_, rfl⟩⟩, fun _ hR => ?_⟩
    · obtain ⟨_, _, _, hFine⟩ := hPast leaf hDone
      exact hFine
    · cases hR
    · obtain ⟨e, he, hReason, _⟩ := hPast leaf hDone
      have hForall := hMode e he hReason
      rw [hExists] at hForall
      cases hForall
    · cases hR

/-- **What `Explore` returns is exact**, in every search of a plain script without marks and
timeouts: a FORALL search succeeds if and only if no assertion fails along any schedule, an EXISTS
search names a schedule on which none fails or finds that no schedule comes to the end, and an
assertion that is reported does fail. -/
theorem verdict_exact (hUnlimited : Unlimited exploreCfg) (hPlain : Script.Plain test.script)
    (hOff : cfg.markEndingBranchesCovered = false)
    (h : Runs.ReachableUnder (system cfg exploreCfg test nondet numMembers) (InTime test) s)
    (hReturned : s.explore.status = .returned r) : Exact exploreCfg.exploreType test r :=
  ((judged_reachable hUnlimited hPlain hOff h).exact
    (swept_reachable hPlain (explorer_reachable hOff h)) hOff hReturned).1

/-- A branch along which an assertion fails, and one along which none does. -/
def coinTest : Test where
  script
    | [] => .choice 0
    | _ => .finish
  violation history := if history = [.branch true] then some 7 else none

/-- A script with one nondeterministic choice, an assertion failing on one side. Both
branches are executed, and the failed assertion is found. -/
theorem verdict_exact_coin :
    ¬ ∀ leaf, coinTest.Completes leaf → coinTest.violation leaf = none := by
  have hPlain : Script.Plain coinTest.script := by
    intro history
    rcases history with _ | ⟨a, rest⟩ <;> trivial
  -- the script selects no threads, so that every operation is in time
  have hPrompt : ∀ history, Prompt (coinTest.script history) (bitEnv false) := by
    intro history
    refine ⟨rfl, rfl, fun scope hScope => ?_⟩
    rcases history with _ | ⟨a, rest⟩ <;> cases hScope
  have hStep : ∀ {s}, Runs.ReachableUnder
      (system ⟨false, false, false⟩ forallSearch coinTest (fun _ => false) 0) (InTime coinTest) s →
      Runs.ReachableUnder (system ⟨false, false, false⟩ forallSearch coinTest (fun _ => false) 0)
        (InTime coinTest) (s.step ⟨false, false, false⟩ forallSearch coinTest (bitEnv false)) :=
    fun h => h.step (fun _ _ => hPrompt _) rfl
  -- four operations: choice, end, choice, end
  have hReach := hStep (hStep (hStep (hStep (.init rfl))))
  intro hAll
  have hFails := ((verdict_exact ⟨by decide, rfl⟩ hPlain rfl hReach
    (r := .assertionViolationResult ⟨7, .assertionViolation⟩) rfl).forall_ rfl).mpr hAll
  cases hFails

-- ---------------------------------------------------------------------------
-- Every search returns
-- ---------------------------------------------------------------------------

section Run

variable {tree : ScriptTree} {violation : List Answer → Option Nat} {envs : Nat → Env}

/-- A test whose script is finite. -/
abbrev ofTree (tree : ScriptTree) (violation : List Answer → Option Nat) : Test :=
  ⟨tree.script, violation⟩

/-- The search under a given sequence of inputs. -/
def run (cfg : Cfg) (exploreCfg : ExploreCfg) (test : Test) (nondet : StaticId → Bool)
    (numMembers : Nat) (envs : Nat → Env) : Nat → Search :=
  Runs.trace (Search.initial cfg exploreCfg nondet numMembers) (Search.step cfg exploreCfg test) envs

/-- No operation of this search times out. -/
def AllInTime (cfg : Cfg) (exploreCfg : ExploreCfg) (test : Test) (nondet : StaticId → Bool)
    (numMembers : Nat) (envs : Nat → Env) : Prop :=
  ∀ k, InTime test (run cfg exploreCfg test nondet numMembers envs k) (envs k)

theorem reachable_run (hInTime : AllInTime cfg exploreCfg test nondet numMembers envs) (k : Nat) :
    Runs.ReachableUnder (system cfg exploreCfg test nondet numMembers) (InTime test)
      (run cfg exploreCfg test nondet numMembers envs k) := by
  induction k with
  | zero => exact .init rfl
  | succ k ih => exact ih.step (hInTime k) rfl

/-- **A search of a finite script gets on** with every step, until it returns: the measure
of the search in the tree decreases with the loop around it as well. -/
theorem searched_step (hProper : tree.Proper) (hOff : cfg.markEndingBranchesCovered = false)
    (hS : Searched tree.script s.explorer)
    (hRunning : s.explore.status = .exploring → s.explorer.status = .running)
    (hOk : InTime (ofTree tree violation) s env) :
    Searched tree.script (s.step cfg exploreCfg (ofTree tree violation) env).explorer ∧
      (s.explore.status = .exploring →
        (s.step cfg exploreCfg (ofTree tree violation) env).explore.status = .exploring →
        Advances s.explorer (s.step cfg exploreCfg (ofTree tree violation) env).explorer) := by
  by_cases hStatus : s.explore.status = .exploring
  · rcases hThrown : Test.thrown (ofTree tree violation) s.explorer.history with _ | address
    · have hRun := hRunning hStatus
      have hNext := hS.step hRun (ScriptTree.plain_script hProper) ScriptTree.script_ne_assumeFails hOff
        (hOk hStatus hRun)
      rw [step_of_not_thrown hStatus hThrown, handle_explorer]
      exact ⟨hNext.1, fun _ _ => hNext.2⟩
    · rw [step_of_thrown hStatus hThrown]
      refine ⟨hS, fun _ hGoes => ?_⟩
      rw [step_violation hStatus rfl] at hGoes
      cases hGoes
  · rw [step_of_not_exploring hStatus]
    exact ⟨hS, fun h => absurd h hStatus⟩

/-- While the loop explores, the search in the tree runs. It stops only when the root is
covered, and then the loop returns. -/
theorem running_of_exploring (hProper : tree.Proper) (hOff : cfg.markEndingBranchesCovered = false)
    (hUnlimited : Unlimited exploreCfg)
    (hInTime : AllInTime cfg exploreCfg (ofTree tree violation) nondet numMembers envs) (k : Nat)
    (hGoes : (run cfg exploreCfg (ofTree tree violation) nondet numMembers envs k).explore.status =
      .exploring) :
    (run cfg exploreCfg (ofTree tree violation) nondet numMembers envs k).explorer.status = .running := by
  have hPlain := ScriptTree.plain_script hProper
  rcases (judged_reachable hUnlimited hPlain hOff (reachable_run hInTime k)).stands with
    hG | ⟨r, hReturned, _⟩
  · exact hG.running
  · rw [hReturned] at hGoes
    cases hGoes

/-- Every state of such a run is one of the search in the tree. -/
theorem searched_of_run (hProper : tree.Proper) (hOff : cfg.markEndingBranchesCovered = false)
    (hUnlimited : Unlimited exploreCfg)
    (hInTime : AllInTime cfg exploreCfg (ofTree tree violation) nondet numMembers envs) (k : Nat) :
    Searched tree.script (run cfg exploreCfg (ofTree tree violation) nondet numMembers envs k).explorer := by
  refine Runs.trace_invariant (P := fun s : Search => Searched tree.script s.explorer)
    (searched_initial cfg tree.script nondet numMembers) (fun k hS => ?_) k
  exact (searched_step hProper hOff hS (running_of_exploring hProper hOff hUnlimited hInTime k)
    (hInTime k)).1

/-- **Every search of a finite script returns**, after a bounded number of operations, and
what it returns is exact; a FORALL search without a failed assertion has then counted every
schedule once. The bound is that of the measure: the leaves executed, and the operations of
the last execution. -/
theorem search_returns (tree : ScriptTree) (hProper : tree.Proper)
    (violation : List Answer → Option Nat) (cfg : Cfg) (hOff : cfg.markEndingBranchesCovered = false)
    (exploreCfg : ExploreCfg) (hUnlimited : Unlimited exploreCfg) (nondet : StaticId → Bool)
    (numMembers : Nat) (envs : Nat → Env)
    (hInTime : AllInTime cfg exploreCfg (ofTree tree violation) nondet numMembers envs) :
    ∃ N ≤ tree.leaves.length * (tree.depth + 1) + tree.depth + 1, ∃ r,
      (∀ k, N ≤ k →
        (run cfg exploreCfg (ofTree tree violation) nondet numMembers envs k).explore.status = .returned r) ∧
      Exact exploreCfg.exploreType (ofTree tree violation) r ∧
      (exploreCfg.exploreType = .forall_ → (∀ leaf ∈ tree.leaves, violation leaf = none) →
        r = .forallResult tree.leaves.length) := by
  have hPlain := ScriptTree.plain_script hProper
  have hSearched := searched_of_run hProper hOff hUnlimited hInTime
  -- the measure bounds the number of steps that still explore
  obtain ⟨N, hN, hDone⟩ : ∃ N ≤ tree.leaves.length * (tree.depth + 1) + tree.depth + 1,
      ¬ (run cfg exploreCfg (ofTree tree violation) nondet numMembers envs N).explore.status =
        .exploring := by
    refine Runs.trace_stops (fun s : Search => s.explore.status = .exploring)
      (fun s => searchMeasure tree s.explorer) _ (fun k hGoes => ?_) fun k hGoes hGoes' => ?_
    · have hRun := running_of_exploring hProper hOff hUnlimited hInTime k hGoes
      -- at the start it is at most the bound
      exact Nat.add_le_add (Nat.mul_le_mul_right _ (hSearched k).executed_le)
        ((hSearched k).history_le hRun hProper)
    -- every step lets it decrease
    · have hRun := running_of_exploring hProper hOff hUnlimited hInTime k
      exact ((searched_step hProper hOff (hSearched k) hRun (hInTime k)).2 hGoes hGoes').measure_lt
        ((hSearched k).history_le (hRun hGoes) hProper)
  have hReach := reachable_run hInTime N
  have hJ := judged_reachable hUnlimited hPlain hOff hReach
  obtain hG | ⟨r, hReturned, _⟩ := hJ.stands
  · exact absurd hG.status hDone
  obtain ⟨hExact, hCame⟩ :=
    hJ.exact (swept_reachable hPlain (explorer_reachable hOff hReach)) hOff hReturned
  refine ⟨N, hN, r, fun k hk => ?_, hExact, ?_⟩
  -- a loop that has returned stays where it is
  · have hStays : run cfg exploreCfg (ofTree tree violation) nondet numMembers envs k = _ :=
      Runs.trace_halted (fun _ => step_of_not_exploring hDone) hk
    rw [hStays]
    exact hReturned
  · intro hForall hFine
    cases hCame with
    | violation leaf address hDone' hFails =>
      have hNone : violation leaf = none := hFine leaf (ScriptTree.mem_leaves_iff.mpr hDone'.1)
      have hSome : violation leaf = some address := hFails
      rw [hNone] at hSome
      cases hSome
    | witness _ hMode =>
      rw [hForall] at hMode
      cases hMode
    -- exhausted: the executions are the leaves, each once, and all of them completed
    | exhausted hStopped =>
      have hPerm := (hSearched N).executed_perm hStopped hProper
      have hAll : ∀ e ∈ (run cfg exploreCfg (ofTree tree violation) nondet numMembers
          envs N).explorer.executed, decide (e.reason = .success) = true :=
        fun e he => decide_eq_true ((hSearched N).recorded.leaf e he).2
      rw [numCompleted, List.countP_eq_length.mpr hAll, ← hPerm.length_eq, List.length_map]

end Run

/-- Two threads with two transfers each and a choice: without assertions the search counts
the eight schedules. -/
theorem search_returns_two_threads : ∃ N,
    (run ⟨true, false, false⟩ forallSearch (ofTree twoThreads fun _ => none) (fun _ => true) 2
      (fun _ => bothOffer) N).explore.status = .returned (.forallResult 8) := by
  have hProper : twoThreads.Proper := by
    refine ⟨⟨by decide, by decide⟩, fun _ _ => ⟨⟨by decide, by decide⟩, fun _ _ => ⟨trivial, trivial⟩⟩⟩
  have hRanges : twoThreads.Scopes fun scope => scope.threads ⊆ [0, 1] := by
    refine ⟨by decide, fun _ _ => ⟨by decide, fun _ _ => ⟨trivial, trivial⟩⟩⟩
  have hOffers : ∀ t ∈ [0, 1], (⟨t, true⟩ : Offer) ∈ bothOffer.offers := by decide
  obtain ⟨N, _, r, hReturned, _, hCounts⟩ :=
    search_returns twoThreads hProper (fun _ => none) ⟨true, false, false⟩ rfl forallSearch
      ⟨by decide, rfl⟩ (fun _ => true) 2 (fun _ => bothOffer)
      fun _ _ _ => hRanges.prompt hOffers rfl rfl _
  refine ⟨N, ?_⟩
  rw [hReturned N (Nat.le_refl N), hCounts rfl fun _ _ => rfl]
  rfl

end Verdict

end Concurrit.Model
