import Mathlib.Order.Basic

/-!
# Labelled transition systems and their runs

A small library for state machines: a `System` is a set of initial states and a
labelled step relation. `ReachableUnder S ok s` says that some run of `S` reaches
`s` and every step of the run meets `ok`, a condition on the state before the
step and on its label; `Reachable S s` puts no condition on the steps.

The rules are the ones a proof about every run needs: a property that holds
initially and is preserved by one step holds in every state reached, and an
invariant proved before may be used when the next one is. `Inevitable` is what comes
whichever steps are taken.
-/

namespace Runs

universe u v

variable {σ : Type u} {ι : Type v}

structure System (σ : Type u) (ι : Type v) where
  init : σ → Prop
  step : σ → ι → σ → Prop

/-- States that a run reaches whose steps all meet `ok`. -/
inductive ReachableUnder (S : System σ ι) (ok : σ → ι → Prop) : σ → Prop where
  | init {s : σ} (hInit : S.init s) : ReachableUnder S ok s
  | step {s s' : σ} {i : ι} (hReach : ReachableUnder S ok s) (hOk : ok s i)
      (hStep : S.step s i s') : ReachableUnder S ok s'

abbrev Reachable (S : System σ ι) : σ → Prop := ReachableUnder S fun _ _ => True

/-- The system, started in a state of one of its runs. -/
def System.startingAt (S : System σ ι) (s : σ) : System σ ι where
  init s' := s' = s
  step := S.step

/-- **Invariant rule.** -/
theorem ReachableUnder.invariant {S : System σ ι} {ok : σ → ι → Prop} {P : σ → Prop}
    (hInit : ∀ s, S.init s → P s)
    (hStep : ∀ s i s', P s → ok s i → S.step s i s' → P s')
    {s : σ} (h : ReachableUnder S ok s) : P s := by
  induction h with
  | init hI => exact hInit _ hI
  | step _ hOk hS ih => exact hStep _ _ _ ih hOk hS

/-- **Invariant rule, relative to an invariant proved before.** -/
theorem ReachableUnder.invariant_of {S : System σ ι} {ok : σ → ι → Prop} {P Q : σ → Prop}
    (hQ : ∀ s, ReachableUnder S ok s → Q s)
    (hInit : ∀ s, S.init s → P s)
    (hStep : ∀ s i s', Q s → P s → ok s i → S.step s i s' → P s')
    {s : σ} (h : ReachableUnder S ok s) : P s := by
  induction h with
  | init hI => exact hInit _ hI
  | step hR hOk hS ih => exact hStep _ _ _ (hQ _ hR) ih hOk hS

/-- A weaker condition on the steps reaches at least as much. -/
theorem ReachableUnder.mono {S : System σ ι} {ok ok' : σ → ι → Prop}
    (hOk : ∀ s i, ok s i → ok' s i) {s : σ} (h : ReachableUnder S ok s) :
    ReachableUnder S ok' s := by
  induction h with
  | init hI => exact .init hI
  | step _ hO hS ih => exact .step ih (hOk _ _ hO) hS

/-- Every state reached under a condition is reachable. -/
theorem ReachableUnder.reachable {S : System σ ι} {ok : σ → ι → Prop} {s : σ}
    (h : ReachableUnder S ok s) : Reachable S s :=
  h.mono fun _ _ _ => trivial

-- ---------------------------------------------------------------------------
-- Inevitable states
-- ---------------------------------------------------------------------------

/-- Whichever steps that meet `ok` are taken, a state with `P` is come to, and until then
there is such a step. -/
inductive Inevitable (S : System σ ι) (ok : σ → ι → Prop) (P : σ → Prop) : σ → Prop where
  | now {s : σ} (h : P s) : Inevitable S ok P s
  | later {s : σ} (hSome : ∃ i s', ok s i ∧ S.step s i s')
      (hAll : ∀ i s', ok s i → S.step s i s' → Inevitable S ok P s') : Inevitable S ok P s

/-- **Progress rule**: steps that make a measure smaller, and one of them as long as `P` does
not hold. -/
theorem Inevitable.of_measure {S : System σ ι} {ok : σ → ι → Prop} {P Q : σ → Prop} {α : Type}
    {r : α → α → Prop} (hWf : WellFounded r) (measure : σ → α)
    (hKeep : ∀ s i s', Q s → ok s i → S.step s i s' → Q s')
    (hGoes : ∀ s, Q s → ¬ P s → ∃ i s', ok s i ∧ S.step s i s')
    (hShrinks : ∀ s i s', Q s → ok s i → S.step s i s' → r (measure s') (measure s))
    {s : σ} (h : Q s) : Inevitable S ok P s := by
  induction hMeasure : measure s using hWf.induction generalizing s with
  | _ m ih =>
    by_cases hP : P s
    · exact .now hP
    · refine .later (hGoes s h hP) fun i s' hOk hStep => ?_
      exact ih (measure s') (hMeasure ▸ hShrinks s i s' h hOk hStep) (hKeep s i s' h hOk hStep) rfl

theorem Inevitable.mono {S : System σ ι} {ok : σ → ι → Prop} {P P' : σ → Prop} {s : σ}
    (h : Inevitable S ok P s) (hImplies : ∀ s, P s → P' s) : Inevitable S ok P' s := by
  induction h with
  | now hP => exact .now (hImplies _ hP)
  | later hSome _ ih => exact .later hSome ih

/-- What is inevitable is possible. -/
theorem Inevitable.possible {S : System σ ι} {ok : σ → ι → Prop} {P : σ → Prop} {s₀ s : σ}
    (h : Inevitable S ok P s) (hReach : ReachableUnder (S.startingAt s₀) ok s) :
    ∃ s', ReachableUnder (S.startingAt s₀) ok s' ∧ P s' := by
  induction h with
  | now hP => exact ⟨_, hReach, hP⟩
  | later hSome _ ih =>
    obtain ⟨i, s', hOk, hStep⟩ := hSome
    exact ih i s' hOk hStep (hReach.step hOk hStep)

-- ---------------------------------------------------------------------------
-- Machines
-- ---------------------------------------------------------------------------

/-- A machine that maps a state and an input to the next state. -/
def machine (start : σ) (next : σ → ι → σ) : System σ ι where
  init s := s = start
  step s i s' := s' = next s i

/-- Running a machine on a list of inputs that meet the condition reaches the
state the list leads to. -/
theorem reachableUnder_foldl {start : σ} {next : σ → ι → σ} {ok : σ → ι → Prop}
    {s : σ} (h : ReachableUnder (machine start next) ok s) (inputs : List ι)
    (hOk : ∀ s, ∀ i ∈ inputs, ok s i) :
    ReachableUnder (machine start next) ok (inputs.foldl next s) := by
  induction inputs generalizing s with
  | nil => exact h
  | cons i rest ih =>
    refine ih (h.step (hOk s i (by simp)) rfl) ?_
    intro s j hj
    exact hOk s j (by simp [hj])

/-- The states a machine passes through on an infinite sequence of inputs. -/
def trace (start : σ) (next : σ → ι → σ) (inputs : Nat → ι) : Nat → σ
  | 0 => start
  | k + 1 => next (trace start next inputs k) (inputs k)

/-- **Trace rule**: an invariant of the steps a trace takes holds all along it. -/
theorem trace_invariant {start : σ} {next : σ → ι → σ} {inputs : Nat → ι} {P : σ → Prop}
    (hStart : P start)
    (hStep : ∀ k, P (trace start next inputs k) →
      P (next (trace start next inputs k) (inputs k))) (k : Nat) : P (trace start next inputs k) := by
  induction k with
  | zero => exact hStart
  | succ k ih => exact hStep k ih

/-- A trace stays where the machine has halted. -/
theorem trace_halted {start : σ} {next : σ → ι → σ} {inputs : Nat → ι} {n : Nat}
    (hHalt : ∀ i, next (trace start next inputs n) i = trace start next inputs n) {k : Nat}
    (hk : n ≤ k) : trace start next inputs k = trace start next inputs n := by
  induction hk with
  | refl => rfl
  | @step k _ ih =>
    show next (trace start next inputs k) (inputs k) = _
    rw [ih, hHalt]

/-- **Termination rule**: a measure that grows with every step while the machine runs,
and that is bounded as long as it runs, makes it stop. -/
theorem trace_stops {start : σ} {next : σ → ι → σ} {inputs : Nat → ι} (Live : σ → Prop)
    (measure : σ → Nat) (bound : Nat)
    (hBound : ∀ k, Live (trace start next inputs k) → measure (trace start next inputs k) ≤ bound)
    (hGrow : ∀ k, Live (trace start next inputs k) → Live (trace start next inputs (k + 1)) →
      measure (trace start next inputs k) < measure (trace start next inputs (k + 1)))
    : ∃ n ≤ bound + 1, ¬ Live (trace start next inputs n) := by
  by_contra hNot
  have hLive : ∀ k ≤ bound + 1, Live (trace start next inputs k) := by
    intro k hk
    by_contra hDead
    exact hNot ⟨k, hk, hDead⟩
  have hAtLeast : ∀ k ≤ bound + 1, k ≤ measure (trace start next inputs k) := by
    intro k
    induction k with
    | zero => exact fun _ => Nat.zero_le _
    | succ k ih =>
      intro hk
      have hLt := hGrow k (hLive k (Nat.le_of_succ_le hk)) (hLive (k + 1) hk)
      exact Nat.succ_le_of_lt (Nat.lt_of_le_of_lt (ih (Nat.le_of_succ_le hk)) hLt)
  have hLast := hAtLeast (bound + 1) (Nat.le_refl _)
  have hMax := hBound (bound + 1) (hLive _ (Nat.le_refl _))
  omega

/-- A machine some of whose inputs are not enabled. -/
def partialMachine (start : σ) (next : σ → ι → Option σ) : System σ ι where
  init s := s = start
  step s i s' := next s i = some s'

/-- The state a list of enabled inputs that meet the condition leads to is reached. -/
theorem ReachableUnder.foldlM_under {S : System σ ι} {ok : σ → ι → Prop} {next : σ → ι → Option σ}
    (hNext : ∀ s i s', next s i = some s' → S.step s i s') {s s' : σ} (h : ReachableUnder S ok s)
    (inputs : List ι) (hOk : ∀ s, ∀ i ∈ inputs, ok s i) (hRun : inputs.foldlM next s = some s') :
    ReachableUnder S ok s' := by
  induction inputs generalizing s with
  | nil =>
    obtain rfl : s = s' := by simpa using hRun
    exact h
  | cons i rest ih =>
    rw [List.foldlM_cons, Option.bind_eq_bind, Option.bind_eq_some_iff] at hRun
    obtain ⟨s₁, hStep, hRest⟩ := hRun
    exact ih (h.step (hOk s i List.mem_cons_self) (hNext _ _ _ hStep))
      (fun s j hj => hOk s j (List.mem_cons_of_mem _ hj)) hRest

/-- Checking the condition at each step of a list of inputs. -/
theorem ReachableUnder.foldlM_guarded {S : System σ ι} {ok : σ → ι → Prop}
    [∀ s i, Decidable (ok s i)] {next : σ → ι → Option σ}
    (hNext : ∀ s i s', next s i = some s' → S.step s i s') {s s' : σ} (h : ReachableUnder S ok s)
    (inputs : List ι)
    (hRun : inputs.foldlM (fun s i => if ok s i then next s i else none) s = some s') :
    ReachableUnder S ok s' := by
  induction inputs generalizing s with
  | nil =>
    cases hRun
    exact h
  | cons i rest ih =>
    rw [List.foldlM_cons] at hRun
    obtain ⟨t, hStep, hRest⟩ := Option.bind_eq_some_iff.mp hRun
    split at hStep
    · rename_i hOk
      exact ih (h.step hOk (hNext _ _ _ hStep)) hRest
    · cases hStep

/-- The state a list of enabled inputs leads to is reachable. -/
theorem ReachableUnder.foldlM {S : System σ ι} {next : σ → ι → Option σ}
    (hNext : ∀ s i s', next s i = some s' → S.step s i s') {s s' : σ} (h : Reachable S s)
    (inputs : List ι) (hRun : inputs.foldlM next s = some s') : Reachable S s' :=
  h.foldlM_under hNext inputs (fun _ _ _ => trivial) hRun

theorem reachable_foldlM {start : σ} {next : σ → ι → Option σ} {s s' : σ}
    (h : Reachable (partialMachine start next) s) (inputs : List ι)
    (hRun : inputs.foldlM next s = some s') : Reachable (partialMachine start next) s' :=
  ReachableUnder.foldlM (fun _ _ _ hStep => hStep) h inputs hRun

end Runs
