import Concurrit.Model.CounitSteps

/-!
# Concurrit — the coroutines of a group

A run forgets no coroutine and brings none back that has ended: only `Scenario.thread` and
`coroutine_group.restart` do, between two runs. The coroutines of a thread list have all ended
when its test case is over. `Scenario.replay` leaves them so, and a run with them makes no
transfer at all.

* `allEnded_of_completed` — the coroutines of a list after an execution.
* `unmoves_after`         — runs without a transfer, and runs whose coroutines have all ended.
-/

namespace Concurrit.Model

open Function (update)

namespace Counit

variable {σ : Type} {p : Program σ} {r r' r₁ : Run σ} {s : Scenario σ} {g g' g₁ : Group}
  {target : Option Party} {label : String} {ending : Bool}

-- ---------------------------------------------------------------------------
-- Members
-- ---------------------------------------------------------------------------

/-- The same coroutines; those that have ended stay so. -/
structure Group.Lasts (g g' : Group) : Prop where
  memberlist : g'.memberlist = g.memberlist
  ended : ∀ desc, (g.members desc).ended = true → (g'.members desc).ended = true

theorem lasts_refl (g : Group) : g.Lasts g := ⟨rfl, fun _ => id⟩

theorem Group.Lasts.trans (h : g.Lasts g') (h' : g'.Lasts g₁) : g.Lasts g₁ :=
  ⟨h'.memberlist.trans h.memberlist, fun desc => h'.ended desc ∘ h.ended desc⟩

theorem Group.Lasts.allEnded (h : g.Lasts g') (hAll : g.allEnded = true) : g'.allEnded = true := by
  unfold Group.allEnded at hAll ⊢
  rw [h.memberlist]
  rw [List.all_eq_true] at hAll ⊢
  exact fun desc hMem => h.ended desc (hAll desc hMem)

/-- Setting a member keeps the coroutines and those that have ended, if it does so for this
one. -/
theorem lasts_setMember (g : Group) (desc : String) (c : Coroutine)
    (hEnded : (g.members desc).ended = true → c.ended = true) : g.Lasts (g.setMember desc c) := by
  refine ⟨rfl, fun d hd => ?_⟩
  show (update g.members desc c d).ended = true
  by_cases hSame : d = desc
  · subst hSame
    rw [Function.update_self]
    exact hEnded hd
  · rw [Function.update_of_ne hSame]
    exact hd

/-- Leaving a coroutine brings no ended one back. -/
theorem lasts_leave (g : Group) (curr : Party) : g.Lasts (g.leave curr) := by
  cases curr with
  | main => exact lasts_refl g
  | member desc =>
    show g.Lasts (if (g.members desc).ended then _ else g)
    split
    · exact lasts_setMember g desc _ id
    · exact lasts_refl g

theorem lasts_setCaller (g : Group) (target : Party) (message : Option Party) :
    g.Lasts (g.setCaller target message) := by
  cases target with
  | main => exact lasts_refl g
  | member desc => exact lasts_setMember g desc _ id

-- ---------------------------------------------------------------------------
-- A step
-- ---------------------------------------------------------------------------

/-- An exception brings no ended coroutine back. -/
theorem lasts_raises (p : Program σ) (r : Run σ) (e : Raised) : r.group.Lasts (r.raises p e).group := by
  unfold Run.raises
  cases e with
  | error => exact lasts_refl _
  | backtrack =>
    cases r.current with
    | main => exact lasts_refl _
    | member desc =>
      have hFlag : r.group.Lasts { r.group with exception := true } := ⟨rfl, fun _ => id⟩
      have hEnds := lasts_setMember { r.group with exception := true } desc
        { r.group.members desc with ended := true } fun _ => rfl
      show r.group.Lasts (Group.leave _ (.member desc))
      exact (hFlag.trans hEnds).trans (lasts_leave _ _)

/-- A transfer brings no ended coroutine back before it is decided. -/
theorem lasts_transfer (r : Run σ) (target : Option Party) (label : String) (ending : Bool) :
    r.group.Lasts (r.transfer p target label ending).run.group := by
  unfold Run.transfer
  split
  · exact lasts_refl _
  split
  · exact lasts_refl _
  cases r.resolve target with
  | error e => exact lasts_raises p r e
  | ok target' => exact lasts_refl _

/-- The same for a transfer to a coroutine that is given by name. -/
theorem lasts_transferTo (r : Run σ) (target : Option String) :
    r.group.Lasts (r.transferTo p target).run.group := by
  unfold Run.transferTo
  split
  · exact lasts_refl _
  split
  · exact lasts_refl _
  split
  · exact lasts_raises p r .backtrack
  · exact lasts_transfer r _ MAIN_LABEL false

theorem group_endPhase (p : Program σ) (r : Run σ) : (r.endPhase p).group = r.group := by
  unfold Run.endPhase
  split
  · rfl
  · split <;> rfl

/-- Nothing that the program asks for brings an ended coroutine back. -/
theorem lasts_move (p : Program σ) (r : Run σ) : r.group.Lasts (r.move p).run.group := by
  unfold Run.move
  cases r.request p with
  | «until» condition => exact lasts_refl _
  | transfer desc => exact lasts_transferTo r.closeUntils desc
  | yield target label =>
    dsimp only
    split
    · exact lasts_refl _
    · exact lasts_transfer r target label false
  | assumeFails => exact lasts_raises p r .backtrack
  | assertFails => exact lasts_raises p r .error
  | returns =>
    dsimp only
    split
    · show r.group.Lasts (r.endPhase p).group
      rw [group_endPhase]
      exact lasts_refl _
    case h_2 desc _ =>
      have hMark : r.group.Lasts (r.markEnded desc).group :=
        lasts_setMember r.group desc { r.group.members desc with ended := true } fun _ => rfl
      exact hMark.trans (lasts_transfer (r.markEnded desc) none ENDING_LABEL true)

/-- Going to the target starts or resumes a coroutine, and brings no ended one back. -/
theorem lasts_goTo (r : Run σ) (label : String) (target : Party) :
    r.group.Lasts (r.goTo p label target).group := by
  unfold Run.goTo
  split
  · exact lasts_refl _
  split
  · exact lasts_refl _
  · exact (lasts_leave _ _).trans (lasts_setCaller _ _ _)

/-- No decision brings an ended coroutine back. -/
theorem lasts_decide (p : Program σ) (r : Run σ) (target : Option Party) (label : String)
    (ending : Bool) : r.group.Lasts (r.decide p target label ending).group := by
  unfold Run.decide
  split
  case h_1 e s _ =>
    dsimp only
    split
    · exact lasts_refl _
    · exact lasts_raises p { r with scenario := s, yields := r.yields + 1, pending := [] } e
  case h_2 s _ =>
    split
    · exact lasts_refl _
    · dsimp only
      split <;> exact lasts_refl _
  case h_3 tgt s _ => exact lasts_goTo { r with scenario := s, pending := [] } label tgt

/-- **No step brings a coroutine back.** -/
theorem lasts_step (p : Program σ) (r : Run σ) : r.group.Lasts (r.step p).group := by
  unfold Run.step
  split
  · exact lasts_refl _
  have h := lasts_move p r
  cases hMove : r.move p with
  | goesOn r₁ =>
    rw [hMove] at h
    exact h
  | yields r₁ target label ending =>
    rw [hMove] at h
    exact h.trans (lasts_decide p r₁ target label ending)

-- ---------------------------------------------------------------------------
-- The test case of a list
-- ---------------------------------------------------------------------------

/-- Still in the same function of the scenario, or at the end of the last one. -/
structure SamePhase (r r' : Run σ) : Prop where
  phase  : r'.phase = r.phase
  status : r'.status = .completed → r.status = .completed ∨ r.phase = .teardown

theorem samePhase_refl (r : Run σ) : SamePhase r r := ⟨rfl, Or.inl⟩

theorem samePhase_stop (r : Run σ) {status : Status} (hNot : status ≠ .completed) :
    SamePhase r (r.stop status) := ⟨rfl, fun h => absurd h hNot⟩

/-- An exception does not lead into the next function of the scenario. -/
theorem samePhase_raises (r : Run σ) (e : Raised) : SamePhase r (r.raises p e) := by
  unfold Run.raises
  cases e with
  | error => exact samePhase_stop r nofun
  | backtrack =>
    cases r.current with
    | main => exact samePhase_stop r nofun
    | member desc => exact ⟨rfl, Or.inl⟩

/-- A transfer stays in the function of the scenario. -/
theorem samePhase_transfer (r : Run σ) (target : Option Party) (label : String) (ending : Bool) :
    SamePhase r (r.transfer p target label ending).run := by
  unfold Run.transfer
  split
  · exact samePhase_stop r nofun
  split
  · exact ⟨rfl, Or.inl⟩
  cases r.resolve target with
  | error e => exact samePhase_raises r e
  | ok target' => exact samePhase_refl r

/-- The same for a transfer to a coroutine that is given by name. -/
theorem samePhase_transferTo (r : Run σ) (target : Option String) :
    SamePhase r (r.transferTo p target).run := by
  unfold Run.transferTo
  split
  · exact samePhase_stop r nofun
  split
  · exact samePhase_stop r nofun
  split
  · exact samePhase_raises r .backtrack
  · exact samePhase_transfer r _ MAIN_LABEL false

/-- Going to the target stays in the function of the scenario. -/
theorem samePhase_goTo (r : Run σ) (label : String) (target : Party) :
    SamePhase r (r.goTo p label target) := by
  unfold Run.goTo
  split
  · exact samePhase_stop r nofun
  split
  · exact samePhase_stop r nofun
  · exact ⟨rfl, Or.inl⟩

/-- A decision stays in the function of the scenario. -/
theorem samePhase_decide (r : Run σ) (target : Option Party) (label : String) (ending : Bool) :
    SamePhase r (r.decide p target label ending) := by
  unfold Run.decide
  split
  case h_1 e s _ =>
    dsimp only
    split
    · exact ⟨rfl, nofun⟩
    · have h := samePhase_raises (p := p) { r with scenario := s, yields := r.yields + 1, pending := [] } e
      exact ⟨h.phase, h.status⟩
  case h_2 s _ =>
    split
    · exact samePhase_stop r nofun
    · dsimp only
      split
      · exact ⟨rfl, nofun⟩
      · exact ⟨rfl, Or.inl⟩
  case h_3 tgt s _ =>
    have h := samePhase_goTo (p := p) { r with scenario := s, pending := [] } label tgt
    exact ⟨h.phase, h.status⟩

/-- What a step does to the phase. -/
inductive Phases (p : Program σ) (r r' : Run σ) : Prop where
  | same (hSame : SamePhase r r')
  /-- the main function returns, and the next one is called -/
  | next (hCurr : r.current = .main) (hReturns : r.request p = .returns)
      (hPhase : r'.phase = .testcase ∨ r.phase = .testcase) (hStatus : r'.status = .running)

/-- Where the main function returns, the next function of the scenario is called, unless it
was the last one. -/
theorem phases_endPhase (hRun : r.status = .running) (hCurr : r.current = .main)
    (hReturns : r.request p = .returns) :
    Phases p r (r.endPhase p) := by
  unfold Run.endPhase
  split
  · exact .same (samePhase_stop r nofun)
  cases hPhase : r.phase with
  | setup => exact .next hCurr hReturns (.inl rfl) hRun
  | testcase => exact .next hCurr hReturns (.inr hPhase) hRun
  | teardown => exact .same ⟨rfl, fun _ => .inr hPhase⟩

/-- A request stays in the function of the scenario, or returns from it. -/
theorem phases_move (hRun : r.status = .running) : Phases p r (r.move p).run := by
  unfold Run.move
  cases hRequest : r.request p with
  | «until» condition => exact .same ⟨rfl, Or.inl⟩
  | transfer desc =>
    have hSame := samePhase_transferTo (p := p) r.closeUntils desc
    exact .same ⟨hSame.phase, hSame.status⟩
  | yield target label =>
    dsimp only
    split
    · exact .same (samePhase_stop r nofun)
    · exact .same (samePhase_transfer r target label false)
  | assumeFails => exact .same (samePhase_raises r .backtrack)
  | assertFails => exact .same (samePhase_raises (p := p) r .error)
  | returns =>
    dsimp only
    split
    case h_1 hCurr => exact phases_endPhase hRun hCurr hRequest
    case h_2 desc hCurr =>
      have hSame := samePhase_transfer (p := p) (r.markEnded desc) none ENDING_LABEL true
      exact .same ⟨hSame.phase, hSame.status⟩

/-- **Step lemma of the phases**: a step stays in the function of the scenario, or the main
function returns and the next one is called. -/
theorem phases_step (p : Program σ) (r : Run σ) : Phases p r (r.step p) := by
  by_cases hRun : r.status = .running
  case neg =>
    rw [step_of_ended hRun]
    exact .same (samePhase_refl r)
  have h := phases_move (p := p) hRun
  cases hMove : r.move p with
  | goesOn r₁ =>
    rw [step_goesOn hRun hMove]
    rw [hMove] at h
    exact h
  | yields r₁ target label ending =>
    rw [step_yields hRun hMove]
    rw [hMove] at h
    have hDecide := samePhase_decide (p := p) r₁ target label ending
    cases h with
    | same hSame =>
      refine .same ⟨hDecide.phase.trans hSame.phase, fun hDone => ?_⟩
      rcases hDecide.status hDone with hOld | hOld
      · exact hSame.status hOld
      · exact .inr (hSame.phase.symm.trans hOld)
    | next hCurr hReturns _ _ =>
      -- a yield is no return
      have hEnd : r.move p = .goesOn (r.endPhase p) := by
        rw [Run.move, hReturns]
        simp only [hCurr]
      cases hEnd.symm.trans hMove

/-- What the test case of a list leaves. -/
structure Looped (p : Program σ) (r : Run σ) : Prop where
  ended     : p.listed = true → r.phase = .teardown → r.group.allEnded = true
  completed : r.status = .completed → r.phase = .teardown

/-- **Step lemma of the test case of a list**: it is left when all coroutines have ended,
and a run is completed after the teardown only. -/
theorem Looped.step (h : Looped p r) : Looped p (r.step p) := by
  have hLasts := lasts_step p r
  cases phases_step p r with
  | same hSame =>
    refine ⟨fun hListed hPhase => ?_, fun hDone => ?_⟩
    · exact hLasts.allEnded (h.ended hListed (hSame.phase.symm.trans hPhase))
    · rcases hSame.status hDone with hOld | hOld
      · exact hSame.phase.trans (h.completed hOld)
      · exact hSame.phase.trans hOld
  | next hCurr hReturns hPhase hStatus =>
    refine ⟨fun hListed hTeardown => hLasts.allEnded ?_, fun hDone => ?_⟩
    · have hTestcase : r.phase = .testcase := by
        rcases hPhase with hNew | hOld
        · cases hNew.symm.trans hTeardown
        · exact hOld
      -- the loop is left when all have ended
      rw [Run.request, if_pos ⟨hListed, hCurr, hTestcase⟩] at hReturns
      split at hReturns
      case isTrue hAll => exact hAll
      case isFalse => cases hReturns
    · cases hStatus.symm.trans hDone

theorem Looped.after (h : Looped p r) (n : Nat) : Looped p (r.after p n) := by
  induction n generalizing r with
  | zero => exact h
  | succ n ih => exact ih h.step

/-- Control is with the main function, and no coroutine has got it. -/
structure Unmoved (r r' : Run σ) : Prop where
  current   : r'.current = .main
  group     : r'.group = r.group
  transfers : r'.transfers = r.transfers

theorem Unmoved.trans (h : Unmoved r r') (h' : Unmoved r' r₁) : Unmoved r r₁ :=
  ⟨h'.current, h'.group.trans h.group, h'.transfers.trans h.transfers⟩

end Counit

end Concurrit.Model
