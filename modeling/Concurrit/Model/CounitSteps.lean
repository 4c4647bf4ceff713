import Concurrit.Model.CounitRun

/-!
# Concurrit — steps of the Python prototype

* `moves`        — what a step does before its yield is decided, and what it leaves alone.
* `Doomed.after` — a run that has raised an exception does not complete.
* `Grows`        — what a run has transferred and passed is not undone.
-/

namespace Concurrit.Model

open Function (update)

namespace Counit

variable {σ : Type} {p : Program σ} {r r' r₁ : Run σ} {s : Scenario σ} {e : Raised}
  {target : Option Party} {label : String} {ending : Bool} {g : Group} {tgt : Party} {d : String}

-- ---------------------------------------------------------------------------
-- Steps of a run
-- ---------------------------------------------------------------------------

theorem step_of_ended (h : r.status ≠ .running) : r.step p = r := if_pos h

theorem after_of_ended (h : r.status ≠ .running) (n : Nat) : r.after p n = r := by
  induction n with
  | zero => rfl
  | succ n ih => rw [Run.after, step_of_ended h, ih]

theorem after_add (m n : Nat) (r : Run σ) : r.after p (m + n) = (r.after p m).after p n := by
  induction m generalizing r with
  | zero => rw [Nat.zero_add, Run.after]
  | succ m ih => rw [Nat.succ_add, Run.after, Run.after, ih]

theorem after_succ (n : Nat) (r : Run σ) : r.after p (n + 1) = (r.after p n).step p := by
  induction n generalizing r with
  | zero => rfl
  | succ n ih => exact ih (r.step p)

theorem step_goesOn (hRun : r.status = .running) (hMove : r.move p = .goesOn r₁) :
    r.step p = r₁ := by
  rw [Run.step, if_neg (not_not.mpr hRun), hMove]

theorem step_yields (hRun : r.status = .running)
    (hMove : r.move p = .yields r₁ target label ending) :
    r.step p = r₁.decide p target label ending := by
  rw [Run.step, if_neg (not_not.mpr hRun), hMove]

/-- Control stays with the current party. -/
def Run.stays (p : Program σ) (r : Run σ) (label : String) : Run σ :=
  let passed : Passed := ⟨r.yields, getDesc r.current, label, r.transfers.length⟩
  { r with yields := r.yields + 1, passed := r.passed ++ [passed], pending := [] }.goOn p
    (some r.current)

/-- Control goes on to the target. -/
def Run.goes (p : Program σ) (r : Run σ) (label : String) (target : Party) : Run σ :=
  { Run.handOver p { r with pending := [] } label target with yields := r.yields + 1 }

/-- A member is found under its own name. -/
theorem getDesc_of_getMember (h : g.getMember d = .ok tgt) : getDesc tgt = d := by
  unfold Group.getMember at h
  split at h
  case isTrue hMain =>
    cases h
    exact hMain.symm
  case isFalse =>
    split at h <;> cases h
    rfl

/-- No member is called like the main function. -/
theorem ne_main_of_getMember {desc : String} (h : g.getMember d = .ok (.member desc)) :
    desc ≠ MAIN_LABEL := by
  unfold Group.getMember at h
  split at h
  case isTrue => cases h
  case isFalse hNot =>
    split at h <;> cases h
    exact hNot

theorem getMember_error (h : g.getMember d = .error e) : e = .error := by
  unfold Group.getMember at h
  split at h
  · cases h
  · split at h <;> cases h
    rfl

theorem decideNextTarget_error
    (h : r.scenario.decideNextTarget r.now r.group r.current label target = (.error e, s)) :
    r.decideNextTarget label target = (.error e, s) := by
  rw [Run.decideNextTarget, h]

-- ---------------------------------------------------------------------------
-- Runs that do not complete
-- ---------------------------------------------------------------------------

/-- The run does not complete: it has ended otherwise, or an exception waits for the end of
the function the main thread is in. -/
structure Doomed (r : Run σ) : Prop where
  status : r.status ≠ .completed
  exception : r.status = .running → r.group.exception = true

theorem doomed_crash (r : Run σ) : Doomed (r.stop .crashed) where
  status := by simp [Run.stop]
  exception := by simp [Run.stop]

theorem doomed_backtrack (r : Run σ) : Doomed (r.stop .backtracked) where
  status := by simp [Run.stop]
  exception := by simp [Run.stop]

theorem doomed_of_crashed (h : r.status = .crashed) : Doomed r where
  status := by simp [h]
  exception := by simp [h]

@[simp] theorem exception_leave (g : Group) (curr : Party) :
    (g.leave curr).exception = g.exception := by
  cases curr with
  | main => rfl
  | member desc =>
    show (if (g.members desc).ended then _ else g).exception = g.exception
    split <;> rfl

@[simp] theorem exception_setCaller (g : Group) (target : Party) (message : Option Party) :
    (g.setCaller target message).exception = g.exception := by
  cases target <;> rfl

/-- What is raised dooms the run. -/
theorem doomed_raises (hRun : r.status = .running) (e : Raised) : Doomed (r.raises p e) := by
  unfold Run.raises
  cases e with
  | error => exact doomed_crash r
  | backtrack =>
    cases hCurr : r.current with
    | main => exact doomed_backtrack r
    | member desc => exact ⟨by simp [Run.goOn, hRun], fun _ => exception_leave _ _⟩

/-- Going to a target does not save a doomed run. -/
theorem Doomed.goTo (h : Doomed r) (label : String) (target : Party) :
    Doomed (r.goTo p label target) := by
  unfold Run.goTo
  split
  · exact doomed_crash r
  · split
    · exact doomed_crash r
    · refine ⟨h.status, fun hRun => ?_⟩
      show ((r.group.leave r.current).setCaller target _).exception = true
      rw [exception_setCaller, exception_leave]
      exact h.exception hRun

/-- Where an exception is decided on, the run is doomed. -/
theorem doomed_decide_error (hRun : r.status = .running)
    (hDecide : r.scenario.decideNextTarget r.now r.group r.current label target = (.error e, s)) :
    Doomed (r.decide p target label ending) := by
  unfold Run.decide
  rw [decideNextTarget_error hDecide]
  show Doomed (if ending ∧ e = .backtrack then Run.stop _ _ else Run.raises p _ e)
  split
  · exact doomed_backtrack _
  · refine doomed_raises ?_ e
    exact hRun

/-- No decision saves a doomed run. -/
theorem Doomed.decide (h : Doomed r) (hRun : r.status = .running) (target : Option Party)
    (label : String) (ending : Bool) : Doomed (r.decide p target label ending) := by
  unfold Run.decide
  split
  case h_1 e s _ =>
    dsimp only
    split
    · exact doomed_backtrack _
    · exact doomed_raises (r := { r with scenario := s, yields := r.yields + 1, pending := [] }) hRun e
  case h_2 s _ =>
    split
    · exact doomed_crash r
    · dsimp only
      split
      · exact doomed_crash _
      · exact ⟨h.status, h.exception⟩
  case h_3 target' s _ =>
    have hGo := Doomed.goTo (p := p) (r := { r with scenario := s, pending := [] })
      ⟨h.status, h.exception⟩ label target'
    exact ⟨hGo.status, hGo.exception⟩

-- ---------------------------------------------------------------------------
-- Up to the next yield
-- ---------------------------------------------------------------------------

/-- The run of a move, before its yield is decided. -/
def Move.run : Move σ → Run σ
  | .goesOn r => r
  | .yields r _ _ _ => r

/-- What a move leaves alone, also if it raises an exception. -/
structure Kept (r r' : Run σ) : Prop where
  yields : r'.yields = r.yields
  transfers : r'.transfers = r.transfers
  passed : r'.passed = r.passed
  current : r'.current = r.current ∨ r'.current = .main

/-- What a move leaves alone, unless it raises an exception. -/
structure Untouched (r r' : Run σ) : Prop where
  current : r'.current = r.current
  transfers : r'.transfers = r.transfers
  passed : r'.passed = r.passed
  yields : r'.yields = r.yields
  exception : r'.group.exception = r.group.exception
  status : r'.status = r.status ∨ (r.current = .main ∧ r.group.exception = false)

theorem Untouched.refl (r : Run σ) : Untouched r r := ⟨rfl, rfl, rfl, rfl, rfl, .inl rfl⟩

theorem Untouched.kept (h : Untouched r r') : Kept r r' :=
  ⟨h.yields, h.transfers, h.passed, .inl h.current⟩

/-- What a step does before a yield is decided. -/
inductive Moves (r : Run σ) : Move σ → Prop where
  | raises {r' : Run σ} (hKept : Kept r r') (hDoomed : r.status = .running → Doomed r') :
      Moves r (.goesOn r')
  | goesOn {r' : Run σ} (hSame : Untouched r r') : Moves r (.goesOn r')
  | yields {r₁ : Run σ} (target : Option Party) (label : String) (ending : Bool)
      (hSame : Untouched r r₁) (hStatus : r₁.status = r.status) :
      Moves r (.yields r₁ target label ending)

/-- An exception leaves alone what was passed and transferred. -/
theorem kept_raises (r : Run σ) (e : Raised) : Kept r (r.raises p e) := by
  obtain ⟨now, group, _, current, phase, status, yields, transfers, passed, pending⟩ := r
  cases e with
  | error => exact ⟨rfl, rfl, rfl, .inl rfl⟩
  | backtrack =>
    cases current with
    | main => exact ⟨rfl, rfl, rfl, .inl rfl⟩
    | member desc => exact ⟨rfl, rfl, rfl, .inr rfl⟩

theorem moves_crash (r : Run σ) : Moves r (.goesOn (r.stop .crashed)) :=
  .raises ⟨rfl, rfl, rfl, .inl rfl⟩ fun _ => doomed_crash r

theorem moves_raises (r : Run σ) (e : Raised) : Moves r (.goesOn (r.raises p e)) :=
  .raises (kept_raises r e) fun hRun => doomed_raises hRun e

/-- A transfer raises an exception, goes on, or comes to a yield. -/
theorem moves_transfer (r : Run σ) (target : Option Party) (label : String) (ending : Bool) :
    Moves r (r.transfer p target label ending) := by
  unfold Run.transfer
  split
  · exact moves_crash r
  split
  · exact .goesOn ⟨rfl, rfl, rfl, rfl, rfl, .inl rfl⟩
  cases r.resolve target with
  | error e => exact moves_raises r e
  | ok target' => exact .yields target' label ending (.refl r) rfl

/-- The same for a transfer to a coroutine that is given by name. -/
theorem moves_transferTo (r : Run σ) (target : Option String) : Moves r (r.transferTo p target) := by
  unfold Run.transferTo
  split
  · exact moves_crash r
  split
  · exact moves_crash r
  split
  · exact moves_raises r .backtrack
  · exact moves_transfer r _ MAIN_LABEL false

/-- What a move does after a part that leaves the run alone. -/
theorem Moves.trans {m : Move σ} (hSame : Untouched r r₁) (hStatus : r₁.status = r.status)
    (h : Moves r₁ m) : Moves r m := by
  have hTrans : ∀ {r' : Run σ}, Untouched r₁ r' → Untouched r r' := fun h' =>
    ⟨h'.current.trans hSame.current, h'.transfers.trans hSame.transfers,
      h'.passed.trans hSame.passed, h'.yields.trans hSame.yields,
      h'.exception.trans hSame.exception, by
        rw [← hStatus, ← hSame.current, ← hSame.exception]
        exact h'.status⟩
  cases h with
  | raises hKept hDoomed =>
    exact .raises ⟨hKept.yields.trans hSame.yields, hKept.transfers.trans hSame.transfers,
      hKept.passed.trans hSame.passed, hSame.current ▸ hKept.current⟩
      fun hRun => hDoomed (hStatus.trans hRun)
  | goesOn h => exact .goesOn (hTrans h)
  | yields target label ending h hStatus' =>
    exact .yields target label ending (hTrans h) (hStatus'.trans hStatus)

theorem moves_endPhase (hCurr : r.current = .main) : Moves r (.goesOn (r.endPhase p)) := by
  unfold Run.endPhase
  split
  · exact .raises ⟨rfl, rfl, rfl, .inl rfl⟩ fun _ => doomed_backtrack r
  case isFalse hNone =>
    have hExc : r.group.exception = false := by simpa using hNone
    cases r.phase <;> exact .goesOn ⟨rfl, rfl, rfl, rfl, rfl, .inr ⟨hCurr, hExc⟩⟩

/-- **What a step does before a yield is decided.** -/
theorem moves (p : Program σ) (r : Run σ) : Moves r (r.move p) := by
  unfold Run.move
  cases r.request p with
  | «until» condition => exact .goesOn ⟨rfl, rfl, rfl, rfl, rfl, .inl rfl⟩
  | transfer desc =>
    have hClose : Untouched r r.closeUntils := ⟨rfl, rfl, rfl, rfl, rfl, .inl rfl⟩
    exact (moves_transferTo r.closeUntils desc).trans hClose rfl
  | yield target label =>
    dsimp only
    split
    · exact moves_crash r
    · exact moves_transfer r target label false
  | assumeFails => exact moves_raises r .backtrack
  | assertFails => exact moves_raises r .error
  | returns =>
    dsimp only
    split
    case h_1 hCurr => exact moves_endPhase hCurr
    case h_2 desc _ =>
      have hMark : Untouched r (r.markEnded desc) := ⟨rfl, rfl, rfl, rfl, rfl, .inl rfl⟩
      exact Moves.trans hMark rfl (moves_transfer (r.markEnded desc) none ENDING_LABEL true)

theorem kept_move (p : Program σ) (r : Run σ) : Kept r (r.move p).run := by
  have hMoves := moves p r
  generalize r.move p = m at hMoves ⊢
  cases hMoves with
  | raises hKept _ => exact hKept
  | goesOn hSame => exact hSame.kept
  | yields _ _ _ hSame _ => exact hSame.kept

theorem untouched_of_yields (h : r.move p = .yields r₁ target label ending) : Untouched r r₁ := by
  have hMoves := moves p r
  rw [h] at hMoves
  cases hMoves with
  | yields _ _ _ hSame _ => exact hSame

theorem status_of_yields (h : r.move p = .yields r₁ target label ending) : r₁.status = r.status := by
  have hMoves := moves p r
  rw [h] at hMoves
  cases hMoves with
  | yields _ _ _ _ hStatus => exact hStatus

/-- A move without an exception does not save a doomed run. -/
theorem Doomed.untouched (h : Doomed r) (hRun : r.status = .running) (hSame : Untouched r r') :
    Doomed r' := by
  have hExc := h.exception hRun
  refine ⟨fun hDone => ?_, fun _ => hSame.exception.trans hExc⟩
  rcases hSame.status with hStill | ⟨_, hNone⟩
  · rw [hStill, hRun] at hDone
    cases hDone
  · rw [hExc] at hNone
    cases hNone

/-- **A doomed run stays doomed**, so that it never completes. -/
theorem Doomed.step (h : Doomed r) : Doomed (r.step p) := by
  by_cases hRun : r.status = .running
  case neg =>
    rw [step_of_ended hRun]
    exact h
  have hMoves := moves p r
  cases hMove : r.move p with
  | goesOn r₁ =>
    rw [step_goesOn hRun hMove]
    rw [hMove] at hMoves
    cases hMoves with
    | raises _ hDoomed => exact hDoomed hRun
    | goesOn hSame => exact h.untouched hRun hSame
  | yields r₁ target label ending =>
    rw [step_yields hRun hMove]
    exact (h.untouched hRun (untouched_of_yields hMove)).decide
      ((status_of_yields hMove).trans hRun) target label ending

/-- **A doomed run never completes.** -/
theorem Doomed.after (h : Doomed r) (n : Nat) : (r.after p n).status ≠ .completed := by
  induction n generalizing r with
  | zero => exact h.status
  | succ n ih => exact ih h.step

-- ---------------------------------------------------------------------------
-- What an execution has done stays
-- ---------------------------------------------------------------------------

/-- What is passed and transferred is not undone. -/
structure Grows (r r' : Run σ) : Prop where
  passed : r.passed <+: r'.passed
  transfers : r.transfers <+: r'.transfers

theorem Grows.refl (r : Run σ) : Grows r r := ⟨List.prefix_refl _, List.prefix_refl _⟩

theorem Grows.trans (h : Grows r r') (h' : Grows r' r₁) : Grows r r₁ :=
  ⟨h.passed.trans h'.passed, h.transfers.trans h'.transfers⟩

theorem Kept.grows (h : Kept r r') : Grows r r' where
  passed := h.passed ▸ List.prefix_refl _
  transfers := h.transfers ▸ List.prefix_refl _

/-- A decision appends to what has been passed or transferred. -/
theorem grows_decide (r : Run σ) (target : Option Party) (label : String) (ending : Bool) :
    Grows r (r.decide p target label ending) := by
  unfold Run.decide
  split
  case h_1 e s _ =>
    dsimp only
    split
    · exact ⟨List.prefix_refl _, List.prefix_refl _⟩
    · have h := (kept_raises (p := p)
        { r with scenario := s, yields := r.yields + 1, pending := [] } e).grows
      exact ⟨h.passed, h.transfers⟩
  case h_2 s _ =>
    split
    · exact ⟨List.prefix_refl _, List.prefix_refl _⟩
    · dsimp only
      split <;> exact ⟨List.prefix_append _ _, List.prefix_refl _⟩
  case h_3 tgt s _ =>
    dsimp only
    unfold Run.goTo
    split
    · exact ⟨List.prefix_refl _, List.prefix_refl _⟩
    · split
      · exact ⟨List.prefix_refl _, List.prefix_refl _⟩
      · exact ⟨List.prefix_refl _, List.prefix_append _ _⟩

/-- **Nothing that was done is undone**: transfers and passed yields are only appended. -/
theorem grows_step (p : Program σ) (r : Run σ) : Grows r (r.step p) := by
  unfold Run.step
  split
  · exact .refl r
  · have h := (kept_move p r).grows
    cases hMove : r.move p with
    | goesOn r₁ =>
      rw [hMove] at h
      exact h
    | yields r₁ target label ending =>
      rw [hMove] at h
      exact Grows.trans h (grows_decide r₁ target label ending)

theorem grows_after (p : Program σ) (n : Nat) (r : Run σ) : Grows r (r.after p n) := by
  induction n generalizing r with
  | zero => exact .refl r
  | succ n ih => exact (grows_step p r).trans (ih (r.step p))

end Counit

end Concurrit.Model
