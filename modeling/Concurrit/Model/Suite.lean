import Mathlib.Data.ENat.Lattice
import Mathlib.Data.List.Dedup
import Concurrit.Model.Explore

/-!
# Concurrit — suites

`Suite::RunScenarios` explores one scenario after the other and files the results under the
names of the scenarios; `Suite::RunAll` counts what has been filed. The budget of the option
`-f` is `Config::ExitOnFirstExecution`, the counter that every exploration decrements.

* `counts_iff` — the suite counts every scenario exactly when the names are distinct and every
  result can be printed.
* `budget_iff` — the budget is per scenario exactly when the scenarios before one have left
  enough of it.
-/

namespace Concurrit.Model

namespace Suite

-- ---------------------------------------------------------------------------
-- Results by name
-- ---------------------------------------------------------------------------

/-- `std::map<std::string, Result*>`. The order matters only to what is printed. -/
abbrev Results := List (String × Result)

/-- `results[name] = result`. -/
def assign (results : Results) (name : String) (result : Result) : Results :=
  match results with
  | [] => [(name, result)]
  | (n, r) :: rest =>
    if n = name then (n, result) :: rest else (n, r) :: assign rest name result

/-- The results `RunScenarios` adds for the scenarios it explores. `Explore` never
returns `NULL`. -/
def fileResults (results : Results) (explored : List (String × Result)) : Results :=
  explored.foldl (fun results p => assign results p.1 p.2) results

structure Statistics where
  num_success : Nat
  num_failure : Nat
deriving DecidableEq, Repr

def Statistics.add (s : Statistics) (p : String × Result) : Statistics :=
  if p.2.isSuccess then { s with num_success := s.num_success + 1 }
  else { s with num_failure := s.num_failure + 1 }

/-- The loop of `RunAll`, which also calls `ToString`; `none` if an assertion fails. -/
def count (results : Results) : Option Statistics :=
  results.foldlM (fun s p => if p.2.hasCause then some (s.add p) else none) ⟨0, 0⟩

/-- `RunAll`, for the results the scenarios have come to. -/
def RunAll (explored : List (String × Result)) : Option Statistics :=
  count (fileResults [] explored)

/-- `RunAll` prints these numbers: every scenario is counted, and a failure is reported as one. -/
structure Counts (explored : List (String × Result)) (s : Statistics) : Prop where
  total   : s.num_success + s.num_failure = explored.length
  failure : (∃ p ∈ explored, p.2.isSuccess = false) → 0 < s.num_failure

def CountsAll (explored : List (String × Result)) : Prop :=
  ∃ s, RunAll explored = some s ∧ Counts explored s

/-- Assigning a result adds its name, unless it is there. -/
theorem map_fst_assign (results : Results) (name : String) (result : Result) :
    (assign results name result).map Prod.fst =
      if name ∈ results.map Prod.fst then results.map Prod.fst
      else results.map Prod.fst ++ [name] := by
  induction results with
  | nil => rfl
  | cons p rest ih =>
    by_cases hName : p.1 = name
    · simp [assign, hName]
    · have hNe : name ≠ p.1 := fun h => hName h.symm
      simp only [assign, if_neg hName, List.map_cons, ih, List.mem_cons, hNe, false_or]
      split <;> simp

/-- A name that has no result yet. -/
theorem assign_new {results : Results} {name : String} (hNew : name ∉ results.map Prod.fst)
    (result : Result) : assign results name result = results ++ [(name, result)] := by
  induction results with
  | nil => rfl
  | cons p rest ih =>
    have hNe : p.1 ≠ name := fun h => hNew (by simp [h])
    have hRest : name ∉ rest.map Prod.fst := fun h => hNew (by simp [h])
    rw [assign, if_neg hNe, ih hRest]
    rfl

/-- What the loop of `RunAll` counts, from any numbers on. -/
theorem foldl_add (results : Results) (s : Statistics) :
    results.foldl Statistics.add s =
      ⟨s.num_success + results.countP (·.2.isSuccess),
        s.num_failure + results.countP (! ·.2.isSuccess)⟩ := by
  induction results generalizing s with
  | nil => rfl
  | cons p rest ih =>
    rw [List.foldl_cons, ih, Statistics.add]
    cases hSuccess : p.2.isSuccess <;> simp [hSuccess] <;> omega

/-- The loop comes to its end when every result can be printed. -/
theorem foldlM_some_iff {results : Results} {s t : Statistics} :
    results.foldlM (fun s p => if p.2.hasCause then some (s.add p) else none) s = some t ↔
      (∀ p ∈ results, p.2.hasCause = true) ∧ results.foldl Statistics.add s = t := by
  induction results generalizing s with
  | nil => simp
  | cons p rest ih =>
    rw [List.foldlM_cons, List.forall_mem_cons, List.foldl_cons]
    by_cases hCause : p.2.hasCause = true
    · rw [if_pos hCause, Option.bind_eq_bind, Option.bind_some, ih]
      simp only [hCause, true_and]
    · rw [if_neg hCause]
      exact ⟨nofun, fun h => absurd h.1.1 hCause⟩

/-- `RunAll` counts the names that have a result. -/
theorem count_total (results : Results) :
    (results.foldl Statistics.add ⟨0, 0⟩).num_success +
      (results.foldl Statistics.add ⟨0, 0⟩).num_failure = results.length := by
  rw [foldl_add, List.length_eq_countP_add_countP (fun p => p.2.isSuccess)]
  simp

theorem count_failure {results : Results} (h : ∃ p ∈ results, p.2.isSuccess = false) :
    0 < (results.foldl Statistics.add ⟨0, 0⟩).num_failure := by
  obtain ⟨p, hp, hFails⟩ := h
  have hPos : 0 < results.countP (! ·.2.isSuccess) :=
    List.countP_pos_iff.mpr ⟨p, hp, by simp [hFails]⟩
  rw [foldl_add]
  exact Nat.lt_of_lt_of_le hPos (Nat.le_add_left _ _)

/-- As long as no name comes twice, the results are filed one after the other. -/
theorem fileResults_of_nodup {explored : List (String × Result)} {results : Results}
    (hNodup : ((results ++ explored).map Prod.fst).Nodup) :
    fileResults results explored = results ++ explored := by
  induction explored generalizing results with
  | nil => exact (List.append_nil results).symm
  | cons p rest ih =>
    have hNew : p.1 ∉ results.map Prod.fst := by
      intro hMem
      rw [List.map_append, List.map_cons, List.nodup_append] at hNodup
      exact hNodup.2.2 p.1 hMem p.1 List.mem_cons_self rfl
    rw [fileResults, List.foldl_cons, assign_new hNew, ← fileResults, ih]
    · simp
    · simpa using hNodup

/-- A result filed for a name that has one already is not a new entry. -/
theorem length_fileResults (explored : List (String × Result)) (results : Results) :
    (fileResults results explored).length ≤
      results.length + explored.length := by
  induction explored generalizing results with
  | nil => exact Nat.le_refl _
  | cons p rest ih =>
    have hLength : (assign results p.1 p.2).length ≤ results.length + 1 := by
      have hNames := congrArg List.length (map_fst_assign results p.1 p.2)
      rw [List.length_map] at hNames
      rw [hNames]
      split <;> simp
    rw [fileResults, List.foldl_cons, ← fileResults, List.length_cons]
    exact (ih _).trans (by omega)

/-- As many entries as scenarios means that no name has come twice. -/
theorem nodup_of_length {explored : List (String × Result)} {results : Results}
    (hResults : (results.map Prod.fst).Nodup)
    (hLength : (fileResults results explored).length =
      results.length + explored.length) :
    ((results ++ explored).map Prod.fst).Nodup := by
  induction explored generalizing results with
  | nil => simpa using hResults
  | cons p rest ih =>
    rw [fileResults, List.foldl_cons, ← fileResults, List.length_cons] at hLength
    by_cases hOld : p.1 ∈ results.map Prod.fst
    · have hSame : (assign results p.1 p.2).length = results.length := by
        have hNames := congrArg List.length (map_fst_assign results p.1 p.2)
        rwa [if_pos hOld, List.length_map, List.length_map] at hNames
      have hLe := length_fileResults rest (assign results p.1 p.2)
      omega
    · rw [assign_new hOld] at hLength
      have hNames : ((results ++ [p]).map Prod.fst).Nodup := by
        rw [List.map_append, List.map_cons, List.map_nil, ← List.concat_eq_append,
          List.nodup_concat]
        exact ⟨hOld, hResults⟩
      have hRest := ih hNames (by rw [hLength, List.length_append, List.length_singleton]; omega)
      simpa using hRest

/-- **A suite counts every scenario** exactly when no two of them have one name and no
result is a `RuntimeExceptionResult` without a cause. The results are kept by name, and each
of them is printed before they are counted. -/
theorem counts_iff (explored : List (String × Result)) :
    CountsAll explored ↔
      (explored.map Prod.fst).Nodup ∧ ∀ p ∈ explored, p.2.hasCause = true := by
  constructor
  · rintro ⟨s, hRun, hCounts⟩
    obtain ⟨hCauses, rfl⟩ := foldlM_some_iff.mp hRun
    have hTotal := hCounts.total
    rw [count_total] at hTotal
    have hNames : (([] : Results).map Prod.fst).Nodup := List.nodup_nil
    have hNodup := nodup_of_length hNames (hTotal.trans (Nat.zero_add _).symm)
    rw [fileResults_of_nodup hNodup] at hCauses
    exact ⟨hNodup, hCauses⟩
  · rintro ⟨hNodup, hCauses⟩
    have hFiled : fileResults [] explored = explored := fileResults_of_nodup hNodup
    refine ⟨_, ?_, count_total explored, count_failure⟩
    rw [RunAll, hFiled]
    exact foldlM_some_iff.mpr ⟨hCauses, rfl⟩

/-- **A failure is masked**: the result of the second scenario replaces that of the first
one, which has failed, since both have one name. -/
theorem failure_masked : ¬ ∀ explored, CountsAll explored := by
  intro hAll
  obtain ⟨s, hRun, hCounts⟩ :=
    hAll [("Test", .noFeasibleExecutionResult), ("Test", .forallResult 1)]
  have hFailure := hCounts.failure ⟨_, List.mem_cons_self, rfl⟩
  obtain rfl : s = ⟨1, 0⟩ := (Option.some.inj hRun).symm
  exact absurd hFailure (by decide)

-- ---------------------------------------------------------------------------
-- The budget
-- ---------------------------------------------------------------------------

/-- A scenario, as far as `Explore` is concerned: its settings and what `RunOnce` comes to
each time it is called. -/
structure Scenario where
  exploreType : ExploreType
  runUncontrolled : Bool
  outcomes : Nat → Outcome

/-- The settings with `Config::ExitOnFirstExecution` at the start. -/
def Scenario.cfg (sc : Scenario) (exitOnFirstExecution : Int) : ExploreCfg :=
  ⟨sc.exploreType, exitOnFirstExecution, sc.runUncontrolled⟩

/-- `Explore` after `n` executions, started with the counter `c`. -/
def Scenario.after (sc : Scenario) (c : Int) (n : Nat) : ExploreState :=
  Runs.trace (ExploreState.initial (sc.cfg c)) (ExploreState.step (sc.cfg c)) sc.outcomes n

/-- The exploration goes on after `n` executions. -/
def Scenario.Explores (sc : Scenario) (c : Int) (n : Nat) : Prop :=
  (sc.after c n).status = .exploring

/-- `Explore` with a counter that is not negative, which has ended by then. -/
def Scenario.Explore (sc : Scenario) (c : Int) : ExploreState := sc.after c (max c 1).toNat

/-- The scenarios that `RunScenarios` explores, with the counter each one starts with. An
exploration that does not return a result ends the suite. -/
def RunScenarios : List Scenario → Int → List (Scenario × Int)
  | [], _ => []
  | sc :: rest, c =>
    match (sc.Explore c).status with
    | .returned _ => (sc, c) :: RunScenarios rest (sc.Explore c).exitOnFirstExecution
    | _ => [(sc, c)]

/-- The exploration ends after exactly `k` executions. -/
def Scenario.EndsAfter (sc : Scenario) (c : Int) (k : Nat) : Prop :=
  ¬ sc.Explores c k ∧ ∀ j < k, sc.Explores c j

/-- The executions available to a scenario: those it explores without a budget. -/
noncomputable def Scenario.available (sc : Scenario) : ℕ∞ :=
  ⨅ k : {k : Nat // ¬ sc.Explores (-1) k}, ((k : Nat) : ℕ∞)

/-- A scenario of a suite with the budget `N` that starts with the counter `c`. -/
structure PerScenario (N : Nat) (sc : Scenario) (c : Int) : Prop where
  /-- it explores as many executions as alone -/
  alone : ∀ k, sc.EndsAfter c k ↔ sc.EndsAfter N k
  count : ∀ k, sc.EndsAfter c k ↔ (k : ℕ∞) = min (N : ℕ∞) sc.available

section

variable {cfg : ExploreCfg} {s : ExploreState} {sc : Scenario}

def withBudget (s : ExploreState) (c : Int) : ExploreState := { s with exitOnFirstExecution := c }

/-- The counter after the handler of a backtrack exception. -/
def spend (c : Int) : Int := if c = 0 then 0 else c - 1

/-- What a step does with the counter: it ends the exploration and leaves the counter, or it
spends one, and ends the exploration if none is left. -/
inductive Spends (g : Int → ExploreState) : Prop where
  | ends (t : ExploreState) (hEnds : t.status ≠ .exploring) (hKeeps : ∀ c, g c = withBudget t c)
  | spends (t u : ExploreState) (hEnds : u.status ≠ .exploring)
    (hLeft : ∀ c, spend c ≠ 0 → g c = withBudget t (spend c))
    (hNone : ∀ c, spend c = 0 → g c = withBudget u 0)

theorem decrementBudget_withBudget (s : ExploreState) (c : Int) :
    (withBudget s c).decrementBudget = withBudget s (spend c) := by
  unfold ExploreState.decrementBudget spend
  by_cases hc : c = 0 <;> simp [withBudget, hc]

/-- What follows the inner loop does not look at the budget. -/
theorem afterInnerLoop_withBudget (s : ExploreState) (c : Int) :
    (withBudget s c).afterInnerLoop cfg = withBudget (s.afterInnerLoop cfg) c := by
  obtain ⟨result, counter, outcomes, status⟩ := s
  cases result with
  | forallResult k =>
    simp only [ExploreState.afterInnerLoop, withBudget]
    split <;> rfl
  | _ => rfl

/-- A result other than a `ForallResult` ends the exploration. -/
theorem spends_afterInnerLoop (hResult : ∀ k, s.result ≠ .forallResult k) :
    Spends fun c => (withBudget s c).afterInnerLoop cfg := by
  refine .ends (s.afterInnerLoop cfg) ?_ fun c => afterInnerLoop_withBudget s c
  unfold ExploreState.afterInnerLoop
  cases hR : s.result with
  | forallResult k => exact absurd hR (hResult k)
  | _ => simp

/-- A backtrack ends the exploration or spends one of the budget. -/
theorem spends_handleBacktrack (reason : BacktrackReason) (rootCovered : Bool) :
    Spends fun c => (withBudget s c).handleBacktrack cfg reason rootCovered := by
  by_cases hUnknown : reason = .unknown
  · exact .ends { s with status := .failed } (by simp) fun c => by
      simp [ExploreState.handleBacktrack, hUnknown, withBudget]
  · -- with a counter of 2 one is left
    refine .spends ((withBudget s 2).handleBacktrack cfg reason rootCovered)
      { s with status := .returned s.result } (by simp) (fun c hc => ?_) (fun c hc => ?_)
    · simp only [ExploreState.handleBacktrack, if_neg hUnknown, decrementBudget_withBudget]
      have hBudget : (withBudget s (spend c)).exitOnFirstExecution ≠ 0 := hc
      have hTwo : (withBudget s (spend 2)).exitOnFirstExecution ≠ 0 := by
        show spend 2 ≠ 0
        decide
      simp only [hBudget, hTwo, false_or, afterInnerLoop_withBudget]
      split
      · rfl
      · split
        · rfl
        · split
          · rfl
          · cases hR : s.result <;> simp [withBudget, hR]
    · simp only [ExploreState.handleBacktrack, if_neg hUnknown, decrementBudget_withBudget]
      rw [hc]
      exact if_pos (Or.inl rfl)

/-- An exception ends the exploration or spends one of the budget. -/
theorem spends_handleException (chain : ExcChain) (rootCovered : Bool) :
    Spends fun c => (withBudget s c).handleException cfg chain rootCovered := by
  simp only [ExploreState.handleException]
  cases ExcChain.getAssertionViolation chain with
  | some ae =>
    exact spends_afterInnerLoop (s := { s with result := .assertionViolationResult ae })
      fun k => by simp
  | none =>
    cases ExcChain.getInternal chain with
    | some ie => exact .ends { s with status := .thrown ie } (by simp) fun c => rfl
    | none =>
      cases (ExcChain.getBacktrack chain).map Exc.cls with
      | none =>
        exact spends_afterInnerLoop (s := { s with result := .runtimeExceptionResult none })
          fun k => by simp
      | some cls =>
        cases cls with
        | backtrack reason => exact spends_handleBacktrack reason rootCovered
        | _ =>
          exact spends_afterInnerLoop (s := { s with result := .runtimeExceptionResult none })
            fun k => by simp

/-- A success ends the exploration or spends one of the budget. -/
theorem spends_handleSuccess (rootCovered : Bool) :
    Spends fun c => (withBudget s c).handleSuccess cfg rootCovered := by
  simp only [ExploreState.handleSuccess]
  cases cfg.exploreType with
  | exists_ =>
    exact spends_afterInnerLoop (s := { s with result := .existsResult }) fun k => by simp
  | forall_ =>
    cases hR : s.result with
    | forallResult k =>
      have hSame : ∀ c, (withBudget s c).result = .forallResult k := fun _ => hR
      simp only [hSame]
      exact spends_handleException (s := { s with result := .forallResult (k + 1) }) _ rootCovered
    | _ =>
      exact .ends { s with status := .failed } (by simp) fun c => by simp [withBudget, hR]

/-- **One execution and the counter.** -/
theorem spends_step (cfg : ExploreCfg) (hExploring : s.status = .exploring) (o : Outcome) :
    Spends fun c => (withBudget s c).step cfg o := by
  have hSame : ∀ c, (withBudget s c).status = .exploring := fun _ => hExploring
  simp only [ExploreState.step, hSame]
  by_cases hSuccess : o.isSuccess = true
  · simp only [if_pos hSuccess]
    exact spends_handleSuccess (s := { s with outcomes := s.outcomes ++ [o], status := .exploring }) o.rootCovered
  · simp only [if_neg hSuccess]
    exact spends_handleException (s := { s with outcomes := s.outcomes ++ [o], status := .exploring }) o.chain
      o.rootCovered

-- ---------------------------------------------------------------------------
-- Alone and after others
-- ---------------------------------------------------------------------------

theorem after_succ (c : Int) (n : Nat) :
    sc.after c (n + 1) = (sc.after c n).step (sc.cfg 0) (sc.outcomes n) := rfl

theorem explores_zero (c : Int) : sc.Explores c 0 := rfl

/-- Without a budget a step spends one of a negative counter, and stays negative. -/
theorem spend_neg {c : Int} (hc : c < 0) : spend c = c - 1 := by
  unfold spend
  rw [if_neg (by omega)]

theorem spend_pos {c : Int} (hc : 0 < c) : spend c = c - 1 := by
  unfold spend
  rw [if_neg (by omega)]

/-- **The counter does not change an exploration** before it has run out: the state is that of
the exploration without a budget. -/
theorem after_eq {c n : Nat} (hBefore : ∀ j < n, sc.Explores (-1) j) (hn : n < c) :
    ∃ b, sc.after c n = withBudget (sc.after (-1) n) b ∧ (sc.Explores (-1) n →
      b = c - n ∧ (sc.after (-1) n).exitOnFirstExecution = -1 - n) := by
  induction n with
  | zero => exact ⟨c, rfl, fun _ => ⟨by simp, by rfl⟩⟩
  | succ n ih =>
    obtain ⟨b, hSame, hBudget⟩ := ih (fun j hj => hBefore j (by omega)) (by omega)
    have hExplores : sc.Explores (-1) n := hBefore n (Nat.lt_succ_self n)
    obtain ⟨rfl, hUnlimited⟩ := hBudget hExplores
    have hSelf : sc.after (-1) n = withBudget (sc.after (-1) n) (-1 - n) := by
      rw [← hUnlimited]
      rfl
    have hLimited : sc.after c (n + 1) =
        (withBudget (sc.after (-1) n) (c - n)).step (sc.cfg 0) (sc.outcomes n) := by
      rw [after_succ, hSame]
    have hFree : sc.after (-1) (n + 1) =
        (withBudget (sc.after (-1) n) (-1 - n)).step (sc.cfg 0) (sc.outcomes n) := by
      rw [after_succ, ← hSelf]
    cases spends_step (sc.cfg 0) hExplores (sc.outcomes n) with
    | ends t hEnds hKeeps =>
      refine ⟨c - n, ?_, fun hThen => ?_⟩
      · rw [hLimited, hFree, hKeeps, hKeeps]
        rfl
      · rw [Scenario.Explores, hFree, hKeeps] at hThen
        exact absurd hThen hEnds
    | spends t u _ hLeft _ =>
      have hPos : spend ((c : Int) - n) = c - n - 1 := spend_pos (by omega)
      have hNeg : spend (-1 - (n : Int)) = -1 - n - 1 := spend_neg (by omega)
      have hLimited' := hLimited.trans (hLeft _ (by omega))
      have hFree' := hFree.trans (hLeft _ (by omega))
      refine ⟨c - n - 1, ?_, fun _ => ⟨by push_cast; omega, ?_⟩⟩
      · rw [hLimited', hFree', hPos]
        rfl
      · rw [hFree', hNeg]
        show (-1 - (n : Int) - 1) = _
        push_cast
        omega

/-- Before the counter has run out, the exploration goes on as without a budget. -/
theorem explores_iff {c n : Nat} (hBefore : ∀ j < n, sc.Explores (-1) j) (hn : n < c) :
    sc.Explores c n ↔ sc.Explores (-1) n := by
  obtain ⟨b, hSame, -⟩ := after_eq hBefore hn
  rw [Scenario.Explores, hSame]
  rfl

/-- With the last execution of the budget the exploration ends. -/
theorem not_explores_budget {c : Nat} (hc : 0 < c) (hBefore : ∀ j < c, sc.Explores (-1) j) :
    ¬ sc.Explores c c := by
  obtain ⟨n, rfl⟩ : ∃ n, c = n + 1 := ⟨c - 1, by omega⟩
  obtain ⟨b, hSame, hBudget⟩ :=
    after_eq (c := n + 1) (fun j hj => hBefore j (by omega)) (Nat.lt_succ_self n)
  have hExplores : sc.Explores (-1) n := hBefore n (Nat.lt_succ_self n)
  obtain ⟨rfl, -⟩ := hBudget hExplores
  have hOne : ((n + 1 : Nat) : Int) - n = 1 := by push_cast; omega
  rw [hOne] at hSame
  have hStep : sc.after (n + 1 : Nat) (n + 1) =
      (withBudget (sc.after (-1) n) 1).step (sc.cfg 0) (sc.outcomes n) := by
    rw [after_succ, hSame]
  cases spends_step (sc.cfg 0) hExplores (sc.outcomes n) with
  | ends t hEnds hKeeps =>
    rw [Scenario.Explores, hStep, hKeeps]
    exact hEnds
  | spends t u hEnds _ hNone =>
    have hLast := hStep.trans (hNone 1 rfl)
    rw [Scenario.Explores, hLast]
    exact hEnds

/-- With nothing left one execution is explored. -/
theorem not_explores_nothing : ¬ sc.Explores 0 1 := by
  have hStep : sc.after 0 1 =
      (withBudget (sc.after 0 0) 0).step (sc.cfg 0) (sc.outcomes 0) := rfl
  cases spends_step (s := sc.after 0 0) (sc.cfg 0) rfl (sc.outcomes 0) with
  | ends t hEnds hKeeps =>
    rw [Scenario.Explores, hStep, hKeeps]
    exact hEnds
  | spends t u hEnds _ hNone =>
    have hLast := hStep.trans (hNone 0 rfl)
    rw [Scenario.Explores, hLast]
    exact hEnds

/-- An amount is available if the scenario could still go on before each of the executions.
-/
theorem le_available_iff (n : Nat) :
    (n : ℕ∞) ≤ sc.available ↔ ∀ j < n, sc.Explores (-1) j := by
  rw [Scenario.available, le_iInf_iff]
  constructor
  · intro h j hj
    by_contra hEnds
    have hLe := ENat.natCast_le_natCast.mp (h ⟨j, hEnds⟩)
    exact absurd hLe (by simpa using hj)
  · rintro h ⟨k, hk⟩
    refine ENat.natCast_le_natCast.mpr ?_
    by_contra hLt
    exact hk (h k (by simpa using hLt))

theorem available_le {k : Nat} (hk : ¬ sc.Explores (-1) k) : sc.available ≤ k :=
  iInf_le_of_le ⟨k, hk⟩ (le_refl _)

theorem endsAfter_unique {c : Int} {k k' : Nat} (h : sc.EndsAfter c k) (h' : sc.EndsAfter c k') :
    k = k' := by
  rcases Nat.lt_trichotomy k k' with hLt | hEq | hGt
  · exact absurd (h'.2 k hLt) h.1
  · exact hEq
  · exact absurd (h.2 k' hGt) h'.1

/-- How many executions are explored with a counter. -/
theorem exists_endsAfter (sc : Scenario) (c : Nat) :
    ∃ k, sc.EndsAfter c k ∧ (k : ℕ∞) = min ((max c 1 : Nat) : ℕ∞) sc.available := by
  by_cases hAll : ∀ j < max c 1, sc.Explores (-1) j
  · refine ⟨max c 1, ?_, (min_eq_left ((le_available_iff _).mpr hAll)).symm⟩
    rcases Nat.eq_zero_or_pos c with rfl | hc
    · refine ⟨not_explores_nothing, fun j hj => ?_⟩
      obtain rfl : j = 0 := by omega
      exact explores_zero 0
    · rw [Nat.max_eq_left hc] at hAll ⊢
      exact ⟨not_explores_budget hc hAll,
        fun j hj => (explores_iff (fun i hi => hAll i (by omega)) hj).mpr (hAll j hj)⟩
  · -- the first execution after which the exploration without a budget has ended
    have hEnds : ∃ k, ¬ sc.Explores (-1) k ∧ k < max c 1 := by
      obtain ⟨k, hk⟩ := Classical.not_forall.mp hAll
      obtain ⟨hLt, hk⟩ := Classical.not_imp.mp hk
      exact ⟨k, hk, hLt⟩
    classical
    obtain ⟨hFirst, hLt⟩ := Nat.find_spec hEnds
    have hBefore : ∀ j < Nat.find hEnds, sc.Explores (-1) j := by
      intro j hj
      by_contra hNot
      exact Nat.find_min hEnds hj ⟨hNot, by omega⟩
    have hPos : 0 < Nat.find hEnds := by
      rcases Nat.eq_zero_or_pos (Nat.find hEnds) with hZero | hPos
      · rw [hZero] at hFirst
        exact absurd (explores_zero (-1)) hFirst
      · exact hPos
    have hc : Nat.find hEnds < c := by omega
    refine ⟨Nat.find hEnds, ⟨?_, fun j hj => ?_⟩, ?_⟩
    · rw [explores_iff hBefore hc]
      exact hFirst
    · exact (explores_iff (fun i hi => hBefore i (by omega)) (by omega)).mpr (hBefore j hj)
    · have hAvailable : sc.available = (Nat.find hEnds : ℕ∞) :=
        le_antisymm (available_le hFirst) ((le_available_iff _).mpr hBefore)
      rw [hAvailable, min_eq_right]
      exact ENat.natCast_le_natCast.mpr (by omega)

/-- **The executions of one scenario**: what the counter allows, at least one, or what is
available. -/
theorem endsAfter_iff (sc : Scenario) (c k : Nat) :
    sc.EndsAfter c k ↔ (k : ℕ∞) = min ((max c 1 : Nat) : ℕ∞) sc.available := by
  obtain ⟨m, hEnds, hm⟩ := exists_endsAfter sc c
  rw [← hm, ENat.natCast_inj]
  exact ⟨fun h => endsAfter_unique h hEnds, fun h => h ▸ hEnds⟩

/-- **`Explore` ends** with any counter that is not negative. -/
theorem explore_ended (sc : Scenario) (c : Nat) : (sc.Explore c).status ≠ .exploring := by
  obtain ⟨k, hEnds, hk⟩ := exists_endsAfter sc c
  have hLe : k ≤ max c 1 := by
    rw [← ENat.natCast_le_natCast, hk]
    exact min_le_left _ _
  have hTime : (max (c : Int) 1).toNat = max c 1 := by omega
  have hHalted : ∀ o, (sc.after c k).step (sc.cfg c) o = sc.after c k := by
    intro o
    have hStatus := hEnds.1
    rw [Scenario.Explores] at hStatus
    unfold ExploreState.step
    cases hs : (sc.after c k).status with
    | exploring => exact absurd hs hStatus
    | _ => rfl
  have hSame : sc.Explore c = sc.after c k := by
    rw [Scenario.Explore, hTime]
    exact Runs.trace_halted hHalted hLe
  rw [hSame]
  exact hEnds.1

/-- The counter only goes down, and not below zero. -/
theorem counter_step (cfg : ExploreCfg) (hCounter : 0 ≤ s.exitOnFirstExecution) (o : Outcome) :
    0 ≤ (s.step cfg o).exitOnFirstExecution ∧
      (s.step cfg o).exitOnFirstExecution ≤ s.exitOnFirstExecution := by
  by_cases hExploring : s.status = .exploring
  · have hSelf : s = withBudget s s.exitOnFirstExecution := rfl
    cases spends_step cfg hExploring o with
    | ends t _ hKeeps =>
      rw [hSelf, hKeeps]
      exact ⟨hCounter, le_refl _⟩
    | spends t u _ hLeft hNone =>
      by_cases hZero : spend s.exitOnFirstExecution = 0
      · rw [hSelf, hNone _ hZero]
        exact ⟨le_refl _, hCounter⟩
      · rw [hSelf, hLeft _ hZero]
        show 0 ≤ spend s.exitOnFirstExecution ∧
          spend s.exitOnFirstExecution ≤ s.exitOnFirstExecution
        unfold spend at hZero ⊢
        split <;> omega
  · have hSame : s.step cfg o = s := by
      unfold ExploreState.step
      cases hs : s.status with
      | exploring => exact absurd hs hExploring
      | _ => rfl
    rw [hSame]
    exact ⟨hCounter, le_refl _⟩

/-- The counter goes down, and never below zero. -/
theorem counter_after (sc : Scenario) {c : Int} (hc : 0 ≤ c) (n : Nat) :
    0 ≤ (sc.after c n).exitOnFirstExecution ∧ (sc.after c n).exitOnFirstExecution ≤ c := by
  induction n with
  | zero => exact ⟨hc, le_refl c⟩
  | succ n ih =>
    obtain ⟨hNonneg, hLe⟩ := counter_step (sc.cfg 0) ih.1 (sc.outcomes n)
    rw [after_succ]
    exact ⟨hNonneg, hLe.trans ih.2⟩

/-- Every scenario of a suite starts with some rest of the budget. -/
theorem counter_runScenarios {suite : List Scenario} {c : Int} (hc : 0 ≤ c) :
    ∀ p ∈ RunScenarios suite c, 0 ≤ p.2 ∧ p.2 ≤ c := by
  induction suite generalizing c with
  | nil => exact fun p hp => absurd hp List.not_mem_nil
  | cons sc rest ih =>
    intro p hp
    obtain ⟨hNonneg, hLe⟩ := counter_after sc hc (max c 1).toNat
    unfold RunScenarios at hp
    split at hp
    · rcases List.mem_cons.mp hp with rfl | hp
      · exact ⟨hc, le_refl c⟩
      · obtain ⟨hNonneg', hLe'⟩ := ih hNonneg p hp
        exact ⟨hNonneg', hLe'.trans hLe⟩
    · obtain rfl := List.mem_singleton.mp hp
      exact ⟨hc, le_refl c⟩

/-- One scenario of a suite. -/
theorem perScenario_iff {N c : Nat} (hN : 1 ≤ N) (hc : c ≤ N) :
    PerScenario N sc c ↔ min (N : ℕ∞) sc.available ≤ (max c 1 : Nat) := by
  have hAlone : ∀ k, sc.EndsAfter N k ↔ (k : ℕ∞) = min (N : ℕ∞) sc.available := by
    intro k
    rw [endsAfter_iff, Nat.max_eq_left hN]
  have hLess : ((max c 1 : Nat) : ℕ∞) ≤ N := ENat.natCast_le_natCast.mpr (by omega)
  constructor
  · intro h
    obtain ⟨k, hEnds, hk⟩ := exists_endsAfter sc c
    rw [← (h.count k).mp hEnds, hk]
    exact min_le_left _ _
  · intro h
    have hSame : min ((max c 1 : Nat) : ℕ∞) sc.available = min (N : ℕ∞) sc.available :=
      le_antisymm (min_le_min_right _ hLess) (le_min h (min_le_right _ _))
    have hCount : ∀ k, sc.EndsAfter c k ↔ (k : ℕ∞) = min (N : ℕ∞) sc.available := by
      intro k
      rw [endsAfter_iff, hSame]
    exact ⟨fun k => (hCount k).trans (hAlone k).symm, hCount⟩

/-- **The budget is per scenario** exactly when what is left of it before each one is enough
for that one. `Explore` counts the budget down in the configuration itself, and nobody sets
it back. -/
theorem budget_iff (suite : List Scenario) (N : Nat) (hN : 1 ≤ N) :
    (∀ p ∈ RunScenarios suite N, PerScenario N p.1 p.2) ↔
      ∀ p ∈ RunScenarios suite N, min (N : ℕ∞) p.1.available ≤ (max p.2.toNat 1 : Nat) := by
  refine forall₂_congr fun p hp => ?_
  obtain ⟨hNonneg, hLe⟩ := counter_runScenarios (Int.natCast_nonneg N) p hp
  obtain ⟨sc, c⟩ := p
  obtain ⟨m, rfl⟩ := Int.eq_ofNat_of_zero_le hNonneg
  exact perScenario_iff hN (Int.ofNat_le.mp hLe)

end

/-- A scenario whose search covers the root with its `k`-th execution; with 0, never. -/
def coversAfter (k : Nat) : Scenario :=
  ⟨.forall_, false, fun n => ⟨[⟨"", ⟨0, .backtrack .timeout⟩, 0⟩], n + 1 == k⟩⟩

/-- The first scenario leaves two executions of three, and the second one has no more. -/
theorem budget_two_scenarios :
    PerScenario 3 (coversAfter 1) 3 ∧ PerScenario 3 (coversAfter 2) 2 := by
  have hSuite : RunScenarios [coversAfter 1, coversAfter 2] (3 : Nat) =
      [(coversAfter 1, 3), (coversAfter 2, 2)] := rfl
  have hTwo : (coversAfter 2).available ≤ 2 := available_le (k := 2) (fun h => by cases h)
  have hBoth := (budget_iff [coversAfter 1, coversAfter 2] 3 (by decide)).mpr fun p hp => by
    rw [hSuite] at hp
    rcases List.mem_pair.mp hp with rfl | rfl
    · exact min_le_left _ _
    · exact (min_le_right _ _).trans hTwo
  rw [hSuite] at hBoth
  exact ⟨hBoth _ List.mem_cons_self, hBoth _ (List.mem_cons_of_mem _ List.mem_cons_self)⟩

/-- **The second scenario has no budget left**: with a budget of two it explores one
execution after the first scenario, and two executions alone. -/
theorem budget_used_up :
    ¬ ∀ (suite : List Scenario) (N : Nat), 1 ≤ N →
      ∀ p ∈ RunScenarios suite N, PerScenario N p.1 p.2 := by
  intro hAll
  have hSecond := hAll [coversAfter 0, coversAfter 0] 2 (by decide) (coversAfter 0, 0)
    (List.mem_cons_of_mem _ List.mem_cons_self)
  have hOne : (coversAfter 0).EndsAfter 0 1 := by
    refine ⟨not_explores_nothing, fun j hj => ?_⟩
    obtain rfl : j = 0 := by omega
    exact explores_zero 0
  exact absurd ((hSecond.alone 1).mp hOne).1 (fun h => h rfl)

end Suite

end Concurrit.Model
