import Concurrit.Model.Exceptions

/-!
# Concurrit — the verdict of an exploration

`Scenario::Explore`: the loop around `RunOnce` that turns the exceptions of each
execution into the result of the exploration. What an execution does is its
`Outcome`, the chain of exceptions `RunOnce` returns and whether the root is
covered afterwards; `Explore` is a machine that consumes outcomes.

`verdict_sound_iff` says exactly when the result can be trusted;
`reported_iff` when an execution's assertion violation is the one reported.
-/

namespace Concurrit.Model

-- ---------------------------------------------------------------------------
-- Results
-- ---------------------------------------------------------------------------

/-- The subclasses of `Result` that `Explore` creates. -/
inductive Result where
  | forallResult (numAllSchedules : Nat)
  | existsResult
  | assertionViolationResult (cause : Exc)
  /-- `none` for the cause `NULL` -/
  | runtimeExceptionResult (cause : Option Exc)
  | noFeasibleExecutionResult
deriving DecidableEq, Repr

namespace Result

def isSuccess : Result → Bool
  | .forallResult _ => true
  | .existsResult => true
  | _ => false

/-- The assertion of `ToString` on the cause. -/
def hasCause : Result → Bool
  | .runtimeExceptionResult none => false
  | _ => true

end Result

/-- `explore_type_`. -/
inductive ExploreType where
  | exists_
  | forall_
deriving DecidableEq, Repr

/-- One call of `RunOnce`. -/
structure Outcome where
  /-- the exceptions `CollectExceptions` returns -/
  chain : ExcChain
  /-- `ROOTNODE()->covered()` after the execution -/
  rootCovered : Bool
deriving DecidableEq, Repr

namespace Outcome

/-- The execution completed without an exception. -/
def isSuccess (o : Outcome) : Bool := o.chain.isEmpty

/-- The execution is handled as a backtrack: nothing in its chain takes precedence. -/
def isBacktrack (o : Outcome) : Bool :=
  (ExcChain.getAssertionViolation o.chain).isNone && (ExcChain.getInternal o.chain).isNone &&
    (ExcChain.getBacktrack o.chain).isSome

end Outcome

-- ---------------------------------------------------------------------------
-- The loop
-- ---------------------------------------------------------------------------

/-- Where `Explore` stands. -/
inductive ExploreStatus where
  | exploring
  | returned (result : Result)
  /-- an internal exception leaves `Explore` -/
  | thrown (e : Exc)
  /-- an assertion of `Explore` has failed -/
  | failed
deriving DecidableEq, Repr

structure ExploreState where
  result : Result
  /-- `Config::ExitOnFirstExecution` -/
  exitOnFirstExecution : Int
  /-- the executions so far -/
  outcomes : List Outcome
  status : ExploreStatus

/-- The settings of one exploration. -/
structure ExploreCfg where
  exploreType : ExploreType
  exitOnFirstExecution : Int
  runUncontrolled : Bool
deriving DecidableEq, Repr

namespace ExploreState

/-- After the inner loop: a result other than a `ForallResult` is final. -/
def afterInnerLoop (cfg : ExploreCfg) (s : ExploreState) : ExploreState :=
  match s.result with
  | .forallResult _ =>
    if cfg.exploreType = .forall_ then s else { s with status := .failed }
  | r => { s with status := .returned r }

/-- `--Config::ExitOnFirstExecution`, which is not evaluated where it is zero. -/
def decrementBudget (s : ExploreState) : ExploreState :=
  if s.exitOnFirstExecution = 0 then s
  else { s with exitOnFirstExecution := s.exitOnFirstExecution - 1 }

/-- The handler of a backtrack exception. -/
def handleBacktrack (cfg : ExploreCfg) (s : ExploreState) (reason : BacktrackReason)
    (rootCovered : Bool) : ExploreState :=
  if reason = .unknown then { s with status := .failed }
  else
    let s := s.decrementBudget
    if s.exitOnFirstExecution = 0 ∨ reason = .searchEnds then
      { s with status := .returned s.result }
    else if cfg.runUncontrolled then s.afterInnerLoop cfg
    else if ¬ rootCovered then s
    else match s.result with
      | .forallResult _ => { s with status := .returned s.result }
      | _ => { s with status := .failed }

/-- The handler of the exceptions of one execution, in its order of precedence. -/
def handleException (cfg : ExploreCfg) (s : ExploreState) (chain : ExcChain)
    (rootCovered : Bool) : ExploreState :=
  match ExcChain.getAssertionViolation chain with
  | some ae => { s with result := .assertionViolationResult ae }.afterInnerLoop cfg
  | none =>
    match ExcChain.getInternal chain with
    | some ie => { s with status := .thrown ie }
    | none =>
      match (ExcChain.getBacktrack chain).map Exc.cls with
      | some (.backtrack reason) => s.handleBacktrack cfg reason rootCovered
      -- the cause is what `get_backtrack` has not found
      | _ => { s with result := .runtimeExceptionResult none }.afterInnerLoop cfg

/-- The end of an execution without exceptions. In FORALL mode the search goes on
through a wrapped backtrack exception. -/
def handleSuccess (cfg : ExploreCfg) (s : ExploreState) (rootCovered : Bool) : ExploreState :=
  match cfg.exploreType with
  | .exists_ => { s with result := .existsResult }.afterInnerLoop cfg
  | .forall_ =>
    match s.result with
    | .forallResult k =>
      { s with result := .forallResult (k + 1) }.handleException cfg
        [⟨"", ⟨0, .backtrack .success⟩, 0⟩] rootCovered
    | _ => { s with status := .failed }

/-- One round of the loop. -/
def step (cfg : ExploreCfg) (s : ExploreState) (o : Outcome) : ExploreState :=
  match s.status with
  | .exploring =>
    let s := { s with outcomes := s.outcomes ++ [o] }
    if o.isSuccess then s.handleSuccess cfg o.rootCovered
    else s.handleException cfg o.chain o.rootCovered
  | _ => s

/-- The result object is initialised before the first execution. -/
def initial (cfg : ExploreCfg) : ExploreState where
  result := .forallResult 0
  exitOnFirstExecution := cfg.exitOnFirstExecution
  outcomes := []
  status := .exploring

/-- `Explore` as a transition system over the outcomes of its executions. -/
def system (cfg : ExploreCfg) : Runs.System ExploreState Outcome := Runs.machine (initial cfg) (step cfg)

end ExploreState

-- ---------------------------------------------------------------------------
-- What a verdict should say
-- ---------------------------------------------------------------------------

/-- The search has been exhausted without a successful execution: the last
execution was a backtrack and has left the root covered. -/
def ExhaustedInVain (outcomes : List Outcome) : Prop :=
  (∃ o, outcomes.getLast? = some o ∧ o.isBacktrack = true ∧ o.rootCovered = true) ∧
    ∀ o ∈ outcomes, o.isSuccess = false

/-- What a result should mean, given the executions it is based on. -/
structure VerdictSound (exploreType : ExploreType) (outcomes : List Outcome) (r : Result) : Prop where
  completed  : r.isSuccess = true → ∃ o ∈ outcomes, o.isSuccess = true
  noAssert   : r.isSuccess = true → exploreType = .forall_ →
    ∀ o ∈ outcomes, ExcChain.getAssertionViolation o.chain = none
  noFeasible : ExhaustedInVain outcomes → r = .noFeasibleExecutionResult

-- ---------------------------------------------------------------------------
-- Invariant of the loop
-- ---------------------------------------------------------------------------

variable {cfg : ExploreCfg} {s : ExploreState} {o : Outcome} {chain : ExcChain} {e : Exc}
  {r : Result}

/-- What `get_backtrack` finds is a backtrack exception. -/
theorem getBacktrack_reason (hB : ExcChain.getBacktrack chain = some e) :
    ∃ reason, e.cls = .backtrack reason := by
  unfold ExcChain.getBacktrack ExcChain.findCause at hB
  obtain ⟨ce, hFind, rfl⟩ := Option.map_eq_some_iff.mp hB
  have hClass := List.find?_some hFind
  rcases hCls : ce.cause.cls with reason | _ | _ | _
  · exact ⟨reason, rfl⟩
  all_goals simp [Exc.isBacktrack, hCls] at hClass

/-- The state between two executions. -/
structure Exploring (cfg : ExploreCfg) (s : ExploreState) : Prop where
  result     : s.result = .forallResult (s.outcomes.countP Outcome.isSuccess)
  backtracks : ∀ o ∈ s.outcomes, o.isSuccess = true ∨ o.isBacktrack = true
  mode       : ∀ o ∈ s.outcomes, o.isSuccess = true → cfg.exploreType = .forall_

/-- How an exploration that has returned came to its result. -/
inductive Returned (cfg : ExploreCfg) (outcomes : List Outcome) : Result → Prop where
  /-- it stopped after a backtrack, or after a success of a FORALL search -/
  | stopped (hAll : ∀ o ∈ outcomes, o.isSuccess = true ∨ o.isBacktrack = true)
      (hMode : ∀ o ∈ outcomes, o.isSuccess = true → cfg.exploreType = .forall_)
      (hNe : outcomes ≠ []) :
      Returned cfg outcomes (.forallResult (outcomes.countP Outcome.isSuccess))
  /-- the last execution was a witness of an EXISTS search -/
  | witness (o : Outcome) (hLast : outcomes.getLast? = some o) (hSuccess : o.isSuccess = true)
      (hMode : cfg.exploreType = .exists_) : Returned cfg outcomes .existsResult
  /-- the last execution ended with an exception other than a backtrack -/
  | violation (o : Outcome) (r : Result) (hLast : outcomes.getLast? = some o)
      (hNot : o.isBacktrack = false) (hFail : r.isSuccess = false)
      (hNoSuccess : o.isSuccess = false) : Returned cfg outcomes r

/-- What is known of every state. -/
structure ExploreInv (cfg : ExploreCfg) (s : ExploreState) : Prop where
  exploring : s.status = .exploring → Exploring cfg s
  returned  : ∀ r, s.status = .returned r → Returned cfg s.outcomes r

theorem exploreInv_of_exploring (hStatus : s.status = .exploring) (hE : Exploring cfg s) :
    ExploreInv cfg s where
  exploring _ := hE
  returned r hr := by
    rw [hStatus] at hr
    cases hr

/-- Once `Explore` has returned its result stays. -/
theorem exploreInv_of_returned (hStatus : s.status = .returned r)
    (hR : Returned cfg s.outcomes r) : ExploreInv cfg s where
  exploring h := by
    rw [hStatus] at h
    cases h
  returned r' hr := by
    rw [hStatus] at hr
    cases hr
    exact hR

/-- A state in which `Explore` has left its loop otherwise. -/
theorem exploreInv_of_left (hExploring : s.status ≠ .exploring)
    (hReturned : ∀ r, s.status ≠ .returned r) : ExploreInv cfg s where
  exploring h := absurd h hExploring
  returned r hr := absurd hr (hReturned r)

/-- The result of a search that stops is the one of its invariant. -/
theorem Exploring.returned (hE : Exploring cfg s) (hNe : s.outcomes ≠ []) :
    Returned cfg s.outcomes s.result := by
  rw [hE.result]
  exact .stopped hE.backtracks hE.mode hNe

theorem decrementBudget_same (s : ExploreState) : s.decrementBudget.result = s.result ∧
    s.decrementBudget.outcomes = s.outcomes ∧ s.decrementBudget.status = s.status := by
  unfold ExploreState.decrementBudget
  split <;> exact ⟨rfl, rfl, rfl⟩

/-- **The handler of a backtrack** keeps exploring, returns the result it has, or
fails. -/
theorem exploreInv_handleBacktrack (reason : BacktrackReason) (rootCovered : Bool)
    (hE : Exploring cfg s) (hExploring : s.status = .exploring) (hNe : s.outcomes ≠ []) :
    ExploreInv cfg (s.handleBacktrack cfg reason rootCovered) := by
  unfold ExploreState.handleBacktrack
  split
  · exact exploreInv_of_left nofun nofun
  · -- the decremented budget changes nothing the invariant speaks about
    obtain ⟨hResult, hOutcomes, hStatus⟩ := decrementBudget_same s
    generalize s.decrementBudget = s₁ at hResult hOutcomes hStatus
    have hE₁ : Exploring cfg s₁ :=
      ⟨by rw [hResult, hOutcomes, hE.result], by rw [hOutcomes]; exact hE.backtracks,
        by rw [hOutcomes]; exact hE.mode⟩
    have hNe₁ : s₁.outcomes ≠ [] := by rw [hOutcomes]; exact hNe
    have hGoOn : ExploreInv cfg s₁ := exploreInv_of_exploring (hStatus.trans hExploring) hE₁
    have hStop : ExploreInv cfg { s₁ with status := .returned s₁.result } :=
      exploreInv_of_returned rfl (hE₁.returned hNe₁)
    dsimp only
    split
    · exact hStop
    · split
      · unfold ExploreState.afterInnerLoop
        rw [hE₁.result]
        dsimp only
        split
        · exact hGoOn
        · exact exploreInv_of_left nofun nofun
      · split
        · exact hGoOn
        · rw [hE₁.result] at hStop ⊢
          exact hStop

/-- A failure result is final. -/
theorem exploreInv_violation (hLast : s.outcomes.getLast? = some o) (hNot : o.isBacktrack = false)
    (hNoSuccess : o.isSuccess = false) (hFail : r.isSuccess = false) :
    ExploreInv cfg ({ s with result := r }.afterInnerLoop cfg) := by
  cases r with
  | forallResult k => cases hFail
  | existsResult => cases hFail
  | assertionViolationResult ae =>
    exact exploreInv_of_returned rfl (.violation o _ hLast hNot hFail hNoSuccess)
  | runtimeExceptionResult cause =>
    exact exploreInv_of_returned rfl (.violation o _ hLast hNot hFail hNoSuccess)
  | noFeasibleExecutionResult =>
    exact exploreInv_of_returned rfl (.violation o _ hLast hNot hFail hNoSuccess)

/-- **One round of the loop keeps the invariant.** -/
theorem exploreInv_step (hInv : ExploreInv cfg s) : ExploreInv cfg (s.step cfg o) := by
  unfold ExploreState.step
  split
  · rename_i hExploring
    have hE := hInv.exploring hExploring
    have hNe : s.outcomes ++ [o] ≠ [] := by simp
    have hLast : (s.outcomes ++ [o]).getLast? = some o := List.getLast?_concat
    dsimp only
    by_cases hSuccess : o.isSuccess = true
    · rw [if_pos hSuccess]
      unfold ExploreState.handleSuccess
      cases hMode : cfg.exploreType with
      | exists_ =>
        exact exploreInv_of_returned rfl (.witness o hLast hSuccess hMode)
      | forall_ =>
        dsimp only
        rw [hE.result]
        dsimp only
        have hCount : (s.outcomes ++ [o]).countP Outcome.isSuccess =
            s.outcomes.countP Outcome.isSuccess + 1 := by simp [List.countP_append, hSuccess]
        refine exploreInv_handleBacktrack .success o.rootCovered ⟨?_, ?_, ?_⟩ hExploring hNe
        · rw [hCount]
        · intro p hp
          rcases List.mem_append.mp hp with hp | hp
          · exact hE.backtracks p hp
          · rw [List.mem_singleton.mp hp]
            exact Or.inl hSuccess
        · exact fun _ _ _ => hMode
    · rw [if_neg hSuccess]
      have hNoSuccess : o.isSuccess = false := by simpa using hSuccess
      unfold ExploreState.handleException
      rcases hAV : ExcChain.getAssertionViolation o.chain with _ | ae
      · rcases hIE : ExcChain.getInternal o.chain with _ | ie
        · rcases hBE : ExcChain.getBacktrack o.chain with _ | be
          · refine exploreInv_violation hLast ?_ hNoSuccess rfl
            simp [Outcome.isBacktrack, hBE]
          · obtain ⟨reason, hReason⟩ := getBacktrack_reason hBE
            have hBack : o.isBacktrack = true := by simp [Outcome.isBacktrack, hAV, hIE, hBE]
            simp only [Option.map_some, hReason]
            refine exploreInv_handleBacktrack reason o.rootCovered ⟨?_, ?_, ?_⟩ hExploring hNe
            · have hCount : (s.outcomes ++ [o]).countP Outcome.isSuccess =
                  s.outcomes.countP Outcome.isSuccess := by
                simp [List.countP_append, hNoSuccess]
              rw [hCount]
              exact hE.result
            · intro p hp
              rcases List.mem_append.mp hp with hp | hp
              · exact hE.backtracks p hp
              · rw [List.mem_singleton.mp hp]
                exact Or.inr hBack
            · intro p hp hpSuccess
              rcases List.mem_append.mp hp with hp | hp
              · exact hE.mode p hp hpSuccess
              · rw [List.mem_singleton.mp hp] at hpSuccess
                rw [hNoSuccess] at hpSuccess
                cases hpSuccess
        · exact exploreInv_of_left nofun nofun
      · refine exploreInv_violation hLast ?_ hNoSuccess rfl
        simp [Outcome.isBacktrack, hAV]
  · exact hInv

theorem exploreInv_reachable (h : Runs.Reachable (ExploreState.system cfg) s) : ExploreInv cfg s := by
  refine h.invariant ?_ ?_
  · rintro _ rfl
    exact exploreInv_of_exploring rfl ⟨rfl, nofun, nofun⟩
  · rintro s o _ hInv _ rfl
    exact exploreInv_step hInv

-- ---------------------------------------------------------------------------
-- Soundness of the verdict
-- ---------------------------------------------------------------------------

/-- An execution without exceptions is not a backtrack, and no assertion failed in it. -/
theorem Outcome.isSuccess_iff : o.isSuccess = true ↔ o.chain = [] := by
  simp [Outcome.isSuccess]

theorem Outcome.not_backtrack_of_success (hSuccess : o.isSuccess = true) : o.isBacktrack = false := by
  rw [Outcome.isSuccess_iff] at hSuccess
  simp [Outcome.isBacktrack, hSuccess, ExcChain.getBacktrack, ExcChain.findCause]

theorem Outcome.no_assert (h : o.isSuccess = true ∨ o.isBacktrack = true) :
    ExcChain.getAssertionViolation o.chain = none := by
  rcases h with hSuccess | hBack
  · rw [Outcome.isSuccess_iff] at hSuccess
    simp [hSuccess, ExcChain.getAssertionViolation, ExcChain.findCause]
  · simp only [Outcome.isBacktrack, Bool.and_eq_true, Option.isNone_iff_eq_none] at hBack
    exact hBack.1.1

/--
**Soundness of the verdict.** The result `Explore` returns means what it should
exactly when one of its executions was something else than a backtrack. The
result object is created as a success, and where every execution backtracks
nothing ever replaces it.
-/
theorem verdict_sound_iff (h : Runs.Reachable (ExploreState.system cfg) s)
    (hReturned : s.status = .returned r) :
    VerdictSound cfg.exploreType s.outcomes r ↔ ∃ o ∈ s.outcomes, o.isBacktrack = false := by
  have hCame := (exploreInv_reachable h).returned r hReturned
  constructor
  · intro hSound
    cases hCame with
    | stopped =>
      obtain ⟨o, ho, hSuccess⟩ := hSound.completed rfl
      exact ⟨o, ho, Outcome.not_backtrack_of_success hSuccess⟩
    | witness o hLast hSuccess =>
      exact ⟨o, List.mem_of_getLast? hLast, Outcome.not_backtrack_of_success hSuccess⟩
    | violation o r hLast hNot => exact ⟨o, List.mem_of_getLast? hLast, hNot⟩
  · rintro ⟨o, ho, hNot⟩
    cases hCame with
    | stopped hAll =>
      have hSuccess : o.isSuccess = true := by
        rcases hAll o ho with hS | hB
        · exact hS
        · rw [hNot] at hB
          cases hB
      refine ⟨fun _ => ⟨o, ho, hSuccess⟩, fun _ _ p hp => Outcome.no_assert (hAll p hp), ?_⟩
      rintro ⟨_, hVain⟩
      rw [hVain o ho] at hSuccess
      cases hSuccess
    | witness w hLast hSuccess hMode =>
      refine ⟨fun _ => ⟨w, List.mem_of_getLast? hLast, hSuccess⟩, fun _ hForall => ?_, ?_⟩
      · rw [hMode] at hForall
        cases hForall
      · rintro ⟨_, hVain⟩
        rw [hVain w (List.mem_of_getLast? hLast)] at hSuccess
        cases hSuccess
    | violation v r hLast hNotV hFail =>
      refine ⟨fun hS => ?_, fun hS => ?_, ?_⟩
      · rw [hFail] at hS
        cases hS
      · rw [hFail] at hS
        cases hS
      · rintro ⟨⟨w, hLast', hBack, _⟩, _⟩
        rw [hLast] at hLast'
        obtain rfl := Option.some.inj hLast'
        rw [hNotV] at hBack
        cases hBack

/-- A FORALL search without an execution budget. -/
def forallSearch : ExploreCfg := ⟨.forall_, -1, false⟩

theorem oneSuccess_reachable : Runs.Reachable (ExploreState.system forallSearch)
    ((ExploreState.initial forallSearch).step forallSearch ⟨[], true⟩) :=
  .step (.init rfl) trivial rfl

/-- One successful execution that covers the root, in a FORALL search: one schedule, and no
failure. -/
theorem verdict_sound_one_success : VerdictSound .forall_ [⟨[], true⟩] (.forallResult 1) :=
  (verdict_sound_iff (s := (ExploreState.initial forallSearch).step forallSearch ⟨[], true⟩)
    oneSuccess_reachable rfl).mpr ⟨_, List.mem_singleton_self _, rfl⟩

/-- The only execution fails an assumption and covers the root: the result is preset to
`ForallResult`, so a success is reported although nothing was ever checked. -/
theorem verdict_unsound_assume_fails :
    ¬ ∀ (cfg : ExploreCfg) (s : ExploreState) (r : Result),
      Runs.Reachable (ExploreState.system cfg) s → s.status = .returned r →
      VerdictSound cfg.exploreType s.outcomes r := by
  intro hAll
  have hSound := hAll forallSearch
    ((ExploreState.initial forallSearch).step forallSearch
      ⟨[⟨"", ⟨1, .backtrack .assumeFails⟩, 0⟩], true⟩)
    (.forallResult 0) (.step (.init rfl) trivial rfl) rfl
  obtain ⟨o, ho, hSuccess⟩ := hSound.completed rfl
  obtain rfl : o = ⟨[⟨"", ⟨1, .backtrack .assumeFails⟩, 0⟩], true⟩ := List.mem_singleton.mp ho
  cases hSuccess

-- ---------------------------------------------------------------------------
-- Reporting the exceptions of one execution
-- ---------------------------------------------------------------------------

/-- `Explore` answers an execution that ended with this chain with an assertion
violation, whatever it has seen before. -/
def ReportsAssertion (chain : ExcChain) : Prop :=
  ∀ (cfg : ExploreCfg) (s : ExploreState) (rootCovered : Bool), s.status = .exploring →
    ∃ ae, (s.step cfg ⟨chain, rootCovered⟩).status = .returned (.assertionViolationResult ae)

/-- An assertion violation anywhere in the chain takes precedence. -/
theorem reportsAssertion_of_contains (hMem : ExcChain.contains chain e = true)
    (hClass : e.isAssertionViolation = true) : ReportsAssertion chain := by
  intro cfg s rootCovered hExploring
  obtain ⟨ae, hAE⟩ := ExcChain.findCause_isSome hMem hClass
  have hNe : chain.isEmpty = false := by
    obtain ⟨ce, hce, _⟩ := ExcChain.contains_iff.mp hMem
    rcases chain with _ | ⟨_, _⟩
    · cases hce
    · rfl
  refine ⟨ae, ?_⟩
  have hAE' : ExcChain.getAssertionViolation chain = some ae := hAE
  simp [ExploreState.step, hExploring, Outcome.isSuccess, hNe, ExploreState.handleException, hAE',
    ExploreState.afterInnerLoop]

/--
**No reported exception is lost** exactly when only one exception is reported.
The chain holds every exception that was added between two restarts, and an
assertion violation among them is the verdict, if and only if all of them are
the same object: `add_exception` only ever fills an empty chain.
-/
theorem exceptions_kept_iff {s : EndState} (h : Runs.Reachable EndState.system s) :
    ((∀ e ∈ s.added, ExcChain.contains s.endNode.exception e = true) ∧
      (∀ e ∈ s.added, e.isAssertionViolation = true → ReportsAssertion s.endNode.exception)) ↔
    ∀ e ∈ s.added, ∀ e' ∈ s.added, e = e' := by
  constructor
  · rintro ⟨hKept, _⟩ e he e' he'
    have hHead := (contains_reachable h).mp (hKept e he)
    have hHead' := (contains_reachable h).mp (hKept e' he')
    rw [hHead] at hHead'
    exact Option.some.inj hHead'
  · intro hSame
    have hKept : ∀ e ∈ s.added, ExcChain.contains s.endNode.exception e = true := by
      intro e he
      rw [contains_reachable h]
      rcases hAdded : s.added with _ | ⟨first, rest⟩
      · rw [hAdded] at he
        cases he
      · rw [List.head?_cons, hSame first (by simp [hAdded]) e he]
    exact ⟨hKept, fun e he hClass => reportsAssertion_of_contains (hKept e he) hClass⟩

/-- The timeout of the main thread. -/
def someTimeout : Exc := ⟨1, .backtrack .timeout⟩

/-- An assertion violation of a test thread. -/
def someViolation : Exc := ⟨2, .assertionViolation⟩

/-- The main thread and two test threads, of which one reports a violation, which the main thread
reports again; no join times out. -/
def twoReports : EndState :=
  ((EndState.initial.step (.endWithException 3 someViolation "")).step
    (.joinAllThreads 2 someTimeout 0 [1, 0])).step (.endWithException 0 someViolation "")

/-- A test thread reports a violation, and the main thread reports it again: it is in the
chain. -/
theorem exceptions_kept_two_reports :
    twoReports.added.length = 2 ∧ ReportsAssertion twoReports.endNode.exception := by
  have hReach : Runs.Reachable EndState.system twoReports :=
    .step (.step (.step (.init rfl) trivial rfl) trivial rfl) trivial rfl
  have hAdded : twoReports.added = List.replicate 2 someViolation := rfl
  have hKept := (exceptions_kept_iff hReach).mpr (by
    intro e he e' he'
    rw [hAdded] at he he'
    rw [List.eq_of_mem_replicate he, List.eq_of_mem_replicate he'])
  exact ⟨rfl, hKept.2 someViolation (hAdded ▸ List.mem_cons_self) rfl⟩

/-- The main thread times out first, then a test thread violates an assertion: only the
first report is kept, so the violation is not in the chain. -/
theorem exceptions_lost_after_timeout :
    ¬ ∀ s : EndState, Runs.Reachable EndState.system s →
      ∀ e ∈ s.added, ExcChain.contains s.endNode.exception e = true := by
  intro hAll
  have hKept := hAll ((EndState.initial.step (.endWithException 0 someTimeout "")).step
    (.endWithException 2 someViolation ""))
    (.step (.step (.init rfl) trivial rfl) trivial rfl) someViolation
    (by simp [EndState.step, EndState.initial])
  cases hKept

end Concurrit.Model
