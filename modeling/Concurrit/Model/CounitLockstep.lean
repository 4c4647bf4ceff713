import Concurrit.Model.CounitSteps

/-!
# Concurrit — runs of one program in step

What a run of a program does up to its next yield does not depend on the scenario
(`move_inScenario`); what the scenario decides at the yield depends on its list of actions and
on the place of its index there (`Scenario.zip`).
-/

namespace Concurrit.Model

open Function (update)

namespace Counit

variable {σ : Type} {p : Program σ} {r r' r₁ : Run σ} {s s' : Scenario σ} {e : Raised}
  {target : Option Party} {label : String} {ending : Bool} {n : Nat} {now : σ} {g : Group}
  {curr tgt : Party} {mode : Mode} {done rest : List TransferAction} {a : TransferAction}
  {untils : List (Condition σ)} {untilOpen : Bool} {d : String}

-- ---------------------------------------------------------------------------
-- Runs of the same program
-- ---------------------------------------------------------------------------

/-- The run, with another scenario. -/
def Run.inScenario (r : Run σ) (s : Scenario σ) : Run σ := { r with scenario := s }

def Move.inScenario (m : Move σ) (s : Scenario σ) : Move σ :=
  match m with
  | .goesOn r => .goesOn (r.inScenario s)
  | .yields r target label ending => .yields (r.inScenario s) target label ending

theorem raises_inScenario (r : Run σ) (s : Scenario σ) (e : Raised) :
    (r.inScenario s).raises p e = (r.raises p e).inScenario s := by
  obtain ⟨now, group, _, current, phase, status, yields, transfers, passed,
    pending⟩ := r
  cases e with
  | error => rfl
  | backtrack => cases current <;> rfl

theorem endPhase_inScenario (r : Run σ) (s : Scenario σ) :
    (r.inScenario s).endPhase p = (r.endPhase p).inScenario s := by
  obtain ⟨now, ⟨memberlist, members, exception⟩, _, current, phase, status, yields, transfers, passed, pending⟩ := r
  cases exception with
  | true => rfl
  | false => cases phase <;> rfl

/-- A transfer does not look at the scenario. -/
theorem transfer_inScenario (r : Run σ) (s : Scenario σ) (target : Option Party) (label : String)
    (ending : Bool) : (r.inScenario s).transfer p target label ending =
      (r.transfer p target label ending).inScenario s := by
  have hResolve : (r.inScenario s).resolve target = r.resolve target := rfl
  have hGroup : (r.inScenario s).group = r.group := rfl
  have hCurrent : (r.inScenario s).current = r.current := rfl
  unfold Run.transfer
  rw [hResolve, hGroup, hCurrent]
  split
  · rfl
  · split
    · rfl
    · rcases r.resolve target with e | target'
      · exact congrArg Move.goesOn (raises_inScenario r s e)
      · rfl

/-- What a request does to the conditions of a scenario. -/
def Request.effect : Request σ → Scenario σ → Scenario σ
  | .until condition, s => s.until condition
  | .transfer _, s => s.closeUntils
  | _, s => s

/-- The scenario has the conditions that the run has set since the last yield, and is as open
as that of the run where this matters. -/
structure Tuned (r : Run σ) (s : Scenario σ) : Prop where
  untils : s.untils = r.pending
  untilOpen : s.untilOpen = r.scenario.untilOpen ∨ r.pending = []

theorem Tuned.of_same (h : Tuned r s) (hScenario : r'.scenario = r.scenario)
    (hPending : r'.pending = r.pending) : Tuned r' s where
  untils := h.untils.trans hPending.symm
  untilOpen := by
    rw [hScenario, hPending]
    exact h.untilOpen

theorem scenario_raises (r : Run σ) (e : Raised) : (r.raises p e).scenario = r.scenario ∧
    (r.raises p e).pending = r.pending := by
  obtain ⟨now, group, _, current, phase, status, yields, transfers, passed,
    pending⟩ := r
  cases e with
  | error => exact ⟨rfl, rfl⟩
  | backtrack => cases current <;> exact ⟨rfl, rfl⟩

theorem scenario_endPhase (r : Run σ) : (r.endPhase p).scenario = r.scenario ∧
    (r.endPhase p).pending = r.pending := by
  obtain ⟨now, ⟨memberlist, members, exception⟩, _, current, phase, status, yields, transfers, passed, pending⟩ := r
  cases exception with
  | true => exact ⟨rfl, rfl⟩
  | false => cases phase <;> exact ⟨rfl, rfl⟩

/-- Nor does it change it. -/
theorem scenario_transfer (r : Run σ) (target : Option Party) (label : String) (ending : Bool) :
    (r.transfer p target label ending).run.scenario = r.scenario ∧
      (r.transfer p target label ending).run.pending = r.pending := by
  unfold Run.transfer
  split
  · exact ⟨rfl, rfl⟩
  · split
    · exact ⟨rfl, rfl⟩
    · rcases r.resolve target with e | target'
      · exact scenario_raises r e
      · exact ⟨rfl, rfl⟩

/-- The same for a transfer to a coroutine that is given by name. -/
theorem transferTo_inScenario (r : Run σ) (s : Scenario σ) (target : Option String) :
    (r.inScenario s).transferTo p target = (r.transferTo p target).inScenario s := by
  have hGroup : (r.inScenario s).group = r.group := rfl
  have hCurrent : (r.inScenario s).current = r.current := rfl
  unfold Run.transferTo
  rw [hGroup, hCurrent]
  split
  · rfl
  · split
    · rfl
    · split
      · exact congrArg Move.goesOn (raises_inScenario r s .backtrack)
      · exact transfer_inScenario r s _ MAIN_LABEL false

/-- Nor does this one change the scenario. -/
theorem scenario_transferTo (r : Run σ) (target : Option String) :
    (r.transferTo p target).run.scenario = r.scenario ∧
      (r.transferTo p target).run.pending = r.pending := by
  unfold Run.transferTo
  split
  · exact ⟨rfl, rfl⟩
  · split
    · exact ⟨rfl, rfl⟩
    · split
      · exact scenario_raises r .backtrack
      · exact scenario_transfer r _ MAIN_LABEL false

/-- Closing the conditions keeps two scenarios tuned. -/
theorem Tuned.closeUntils (h : Tuned r s) :
    (r.inScenario s).closeUntils = r.closeUntils.inScenario s.closeUntils ∧
      Tuned r.closeUntils s.closeUntils := by
  have hPending : (if s.untilOpen then r.pending else []) =
      if r.scenario.untilOpen then r.pending else [] := by
    rcases h.untilOpen with hOpen | hNil
    · rw [hOpen]
    · simp [hNil]
  refine ⟨?_, ?_, Or.inl rfl⟩
  · show { r with scenario := s.closeUntils, pending := if s.untilOpen then r.pending else [] } = _
    rw [hPending]
    rfl
  · show (if s.untilOpen then s.untils else []) = if r.scenario.untilOpen then r.pending else []
    rw [h.untils, hPending]

/-- So does adding one. -/
theorem Tuned.until (h : Tuned r s) (condition : Option (Condition σ)) (now : σ) :
    Tuned { r with
      scenario := r.scenario.until condition
      pending := condition.elim [] fun c => r.pending ++ [c]
      now := now } (s.until condition) := by
  cases condition with
  | none => exact ⟨rfl, Or.inl rfl⟩
  | some c =>
    refine ⟨?_, Or.inl rfl⟩
    show s.untils ++ [c] = r.pending ++ [c]
    rw [h.untils]

/-- **The next move is the same in another scenario**, up to the scenario. -/
theorem move_inScenario (h : Tuned r s) :
    (r.inScenario s).move p =
        (r.move p).inScenario ((r.request p).effect s) ∧
      Tuned (r.move p).run ((r.request p).effect s) ∧
      (r.move p).run.scenario = (r.request p).effect r.scenario := by
  have hRequest : (r.inScenario s).request p = r.request p := rfl
  have hCurrent : (r.inScenario s).current = r.current := rfl
  unfold Run.move
  rw [hRequest]
  rcases r.request p with condition | desc | ⟨target, label⟩ | _ | _ | _
  · exact ⟨rfl, h.until condition _, rfl⟩
  · obtain ⟨hClose, hTuned⟩ := h.closeUntils
    obtain ⟨hScenario, hPending⟩ := scenario_transferTo (p := p) r.closeUntils desc
    refine ⟨?_, hTuned.of_same hScenario hPending, hScenario⟩
    show (r.inScenario s).closeUntils.transferTo p desc = _
    rw [hClose]
    exact transferTo_inScenario _ _ desc
  · show (if r.current = .main ∧ target = none then _ else _) = _ ∧ _
    dsimp only
    split
    · exact ⟨rfl, h.of_same rfl rfl, rfl⟩
    · obtain ⟨hScenario, hPending⟩ := scenario_transfer (p := p) r target label false
      exact ⟨transfer_inScenario r s target label false, h.of_same hScenario hPending, hScenario⟩
  · obtain ⟨hScenario, hPending⟩ := scenario_raises (p := p) r .backtrack
    exact ⟨congrArg Move.goesOn (raises_inScenario r s .backtrack), h.of_same hScenario hPending,
      hScenario⟩
  · exact ⟨rfl, h.of_same rfl rfl, rfl⟩
  · dsimp only
    rw [hCurrent]
    cases hCurr : r.current with
    | main =>
      obtain ⟨hScenario, hPending⟩ := scenario_endPhase (p := p) r
      exact ⟨congrArg Move.goesOn (endPhase_inScenario r s), h.of_same hScenario hPending, hScenario⟩
    | member desc =>
      obtain ⟨hScenario, hPending⟩ := scenario_transfer (p := p) (r.markEnded desc) none
        ENDING_LABEL true
      exact ⟨transfer_inScenario (r.markEnded desc) s none ENDING_LABEL true,
        h.of_same hScenario hPending, hScenario⟩

-- ---------------------------------------------------------------------------
-- Following a list of actions
-- ---------------------------------------------------------------------------

/-- The scenario whose index is at the first action of `rest`. -/
def Scenario.zip (mode : Mode) (done rest : List TransferAction) (untils : List (Condition σ))
    (untilOpen : Bool) : Scenario σ := ⟨mode, done ++ rest, untils, done.length, untilOpen⟩

/-- All conditions hold at the yield. -/
def AllHold (untils : List (Condition σ)) (now : σ) (label : String) : Prop :=
  ∀ c ∈ untils, c now label = true

theorem allHold_nil (now : σ) (label : String) : AllHold [] now label :=
  fun _ h => absurd h List.not_mem_nil

@[simp] theorem current_zip : (Scenario.zip mode done rest untils untilOpen).actions[
    (Scenario.zip mode done rest untils untilOpen).index]? = rest.head? := by
  show (done ++ rest)[done.length]? = rest.head?
  rw [List.getElem?_append_right (Nat.le_refl _), Nat.sub_self, List.head?_eq_getElem?]

theorem set_zip (b : TransferAction) :
    (Scenario.zip mode done (a :: rest) untils untilOpen).actions.set
      (Scenario.zip mode done (a :: rest) untils untilOpen).index b = done ++ b :: rest := by
  show (done ++ a :: rest).set done.length b = done ++ b :: rest
  rw [List.set_append_right _ _ (Nat.le_refl _), Nat.sub_self, List.set_cons_zero]

theorem next_zip (b : TransferAction) :
    Scenario.mk mode (done ++ b :: rest) untils (done.length + 1) untilOpen =
      Scenario.zip mode (done ++ [b]) rest untils untilOpen := by
  show _ = Scenario.mk mode ((done ++ [b]) ++ rest) untils (done ++ [b]).length untilOpen
  rw [List.append_assoc, List.singleton_append, List.length_append, List.length_singleton]

/-- The conditions are reset where they hold. -/
theorem check_holds (hHold : AllHold untils now label) :
    (Scenario.zip mode done rest untils untilOpen).checkAndResetUntils now label false true =
      (true, Scenario.zip mode done rest [] untilOpen) := by
  unfold Scenario.checkAndResetUntils
  split
  · rename_i hEmpty
    have hNil : untils = [] := List.isEmpty_iff.mp hEmpty
    rw [hNil]
    rfl
  · split
    · rfl
    · rename_i hNot
      exact absurd (List.all_eq_true.mpr hHold) hNot

/-- A condition that fails makes the check fail. -/
theorem check_fails (hNot : ¬ AllHold untils now label) :
    (Scenario.zip mode done rest untils untilOpen).checkAndResetUntils now label false true =
      (false, Scenario.zip mode done rest untils untilOpen) := by
  unfold Scenario.checkAndResetUntils
  split
  · rename_i hEmpty
    have hNil : untils = [] := List.isEmpty_iff.mp hEmpty
    refine absurd (fun c hc => ?_) hNot
    rw [hNil] at hc
    cases hc
  · split
    · rename_i hAll
      exact absurd (List.all_eq_true.mp hAll) hNot
    · rfl

/-- An action with a target is followed. -/
theorem getNextAction_known (hTaken : a.taken = true) (hTarget : a.targetLabel = some d)
    (hHold : AllHold untils now label) :
    (Scenario.zip mode done (a :: rest) untils untilOpen).getNextAction now g curr label target =
      (.ok (some a), Scenario.zip mode done (a :: rest) [] untilOpen) := by
  unfold Scenario.getNextAction
  rw [current_zip]
  show Scenario.followAction _ now g curr label a = _
  unfold Scenario.followAction
  rw [check_holds hHold, hTaken, hTarget]
  rfl

/-- Conditions that do not hold stop the run. -/
theorem getNextAction_fails (hTaken : a.taken = true) (hNot : ¬ AllHold untils now label) :
    (Scenario.zip mode done (a :: rest) untils untilOpen).getNextAction now g curr label target =
      (.error .backtrack, Scenario.zip mode done (a :: rest) untils untilOpen) := by
  unfold Scenario.getNextAction
  rw [current_zip]
  show Scenario.followAction _ now g curr label a = _
  unfold Scenario.followAction
  rw [check_fails hNot, hTaken]
  rfl

/-- An action is followed with the target it has, or with one that is found now. -/
theorem getNextAction_cases (hTaken : a.taken = true) (hHold : AllHold untils now label) :
    (∃ e, (Scenario.zip mode done (a :: rest) untils untilOpen).getNextAction now g curr label
      target = (.error e, Scenario.zip mode done (a :: rest) [] untilOpen)) ∨
    ∃ d, (a.targetLabel = none ∨ a.targetLabel = some d) ∧
      (Scenario.zip mode done (a :: rest) untils untilOpen).getNextAction now g curr label target =
        (.ok (some { a with targetLabel := some d }),
          Scenario.zip mode done ({ a with targetLabel := some d } :: rest) [] untilOpen) := by
  cases hTarget : a.targetLabel with
  | some d =>
    have hSame : { a with targetLabel := some d } = a := by rw [← hTarget]
    refine Or.inr ⟨d, Or.inr rfl, ?_⟩
    rw [hSame]
    exact getNextAction_known hTaken hTarget hHold
  | none =>
    unfold Scenario.getNextAction
    rw [current_zip]
    dsimp only [List.head?_cons]
    unfold Scenario.followAction
    rw [check_holds hHold, hTaken, hTarget]
    by_cases hFree : a.free = false
    · exact Or.inl ⟨.error, if_pos hFree⟩
    · cases hNext : g.getNextRunning curr a.oldTargets with
      | error e => exact Or.inl ⟨e, by simp [hFree]⟩
      | ok next =>
        cases next with
        | none => exact Or.inl ⟨.backtrack, by simp [hFree]⟩
        | some d =>
          refine Or.inr ⟨d, Or.inl rfl, ?_⟩
          simp only [hFree]
          rw [set_zip]
          rfl

/-- What the scenario decides, given the action. -/
theorem decide_of_action
    (hNext : s.getNextAction now g curr label target =
      (.ok (some a), Scenario.zip mode done (a :: rest) untils untilOpen)) :
    s.decideNextTarget now g curr label target =
      if a.sourceLabel ≠ getDesc curr then
        (.error .error, Scenario.zip mode done (a :: rest) untils untilOpen)
      else if label ≠ a.yieldLabel then
        (.ok none, Scenario.zip mode done (a :: rest) untils untilOpen)
      else if a.remCount = 0 then
        (.error .error, Scenario.zip mode done (a :: rest) untils untilOpen)
      else if a.remCount = 1 then
        (.ok a.targetLabel,
          Scenario.zip mode (done ++ [{ a with remCount := 0 }]) rest untils untilOpen)
      else (.ok none, Scenario.zip mode done ({ a with remCount := a.remCount - 1 } :: rest) untils
        untilOpen) := by
  unfold Scenario.decideNextTarget
  rw [hNext]
  dsimp only
  split
  · rfl
  · split
    · rfl
    · unfold Scenario.consumeCurrentAction
      rw [current_zip]
      dsimp only [List.head?_cons]
      by_cases hZero : a.remCount = 0
      · simp [hZero]
      · rw [if_neg hZero, if_neg hZero]
        by_cases hOne : a.remCount = 1
        · rw [if_pos hOne, if_pos hOne]
          have hRem : a.remCount - 1 = 0 := by omega
          dsimp only
          rw [hRem, set_zip]
          exact congrArg (Prod.mk _) (next_zip _)
        · rw [if_neg hOne, if_neg hOne]
          dsimp only
          rw [set_zip]
          rfl

/-- What is decided when the next action has its target: source and label are compared, and
the counter is what is left of the yields. -/
theorem decide_known (hTaken : a.taken = true) (hTarget : a.targetLabel = some d)
    (hHold : AllHold untils now label) :
    (Scenario.zip mode done (a :: rest) untils untilOpen).decideNextTarget now g curr label target =
      if a.sourceLabel ≠ getDesc curr then
        (.error .error, Scenario.zip mode done (a :: rest) [] untilOpen)
      else if label ≠ a.yieldLabel then
        (.ok none, Scenario.zip mode done (a :: rest) [] untilOpen)
      else if a.remCount = 0 then
        (.error .error, Scenario.zip mode done (a :: rest) [] untilOpen)
      else if a.remCount = 1 then
        (.ok a.targetLabel, Scenario.zip mode (done ++ [{ a with remCount := 0 }]) rest [] untilOpen)
      else (.ok none, Scenario.zip mode done ({ a with remCount := a.remCount - 1 } :: rest) []
        untilOpen) :=
  decide_of_action (getNextAction_known hTaken hTarget hHold)

/-- The check in `on_transfer` is about the action that was taken last. -/
@[simp] theorem onTransfer_zip (target : Party) :
    (Scenario.zip mode (done ++ [a]) rest untils untilOpen).onTransfer curr label target =
      (a.sourceLabel == getDesc curr && label == a.yieldLabel &&
        a.targetLabel == some (getDesc target)) := by
  have hIndex : (done ++ [a]).length = done.length + 1 := by simp
  have hAt : ((done ++ [a]) ++ rest)[(done ++ [a]).length - 1]? = some a := by
    rw [hIndex, Nat.add_sub_cancel, List.append_assoc, List.getElem?_append_right (Nat.le_refl _),
      Nat.sub_self]
    rfl
  have hLe : (done ++ [a]).length ≤ ((done ++ [a]) ++ rest).length := by simp
  have hPos : ¬ (done ++ [a]).length = 0 := by simp
  unfold Scenario.onTransfer Scenario.zip
  simp only [hPos, hLe, hAt, if_false, decide_true, Bool.true_and]

-- ---------------------------------------------------------------------------
-- Yields that are passed
-- ---------------------------------------------------------------------------

/-- The actions of a list that have been taken, as `preprocess_actions` keeps them. -/
def takenOf (actions : List TransferAction) : List TransferAction :=
  (actions.filter TransferAction.taken).map TransferAction.reset

theorem takenOf_append (xs ys : List TransferAction) :
    takenOf (xs ++ ys) = takenOf xs ++ takenOf ys := by
  unfold takenOf
  rw [List.filter_append, List.map_append]

theorem takenOf_cons (a : TransferAction) (actions : List TransferAction) :
    takenOf (a :: actions) = if a.taken then a.reset :: takenOf actions else takenOf actions := by
  rw [takenOf, List.filter_cons]
  split <;> rfl

theorem mem_takenOf {actions : List TransferAction} (h : a ∈ takenOf actions) :
    ∃ b ∈ actions, b.taken = true ∧ a = b.reset := by
  obtain ⟨b, hb, rfl⟩ := List.mem_map.mp h
  obtain ⟨hMem, hTaken⟩ := List.mem_filter.mp hb
  exact ⟨b, hMem, hTaken, rfl⟩

theorem takenOf_singleton (h : a.taken = false) : takenOf [a] = [] := by
  unfold takenOf
  rw [List.filter_cons_of_neg (by simp [h]), List.filter_nil, List.map_nil]

/-- The action that is written down for a yield. -/
def passedYield (curr : Party) (label : String) (target : Option Party) : TransferAction :=
  .make (getDesc curr) label (target.map getDesc) [] 1 false (target = none ∨ target = some .main)

/-- The first action of the list, if there is one, has been taken. -/
def HeadTaken (actions : List TransferAction) : Prop := ∀ b ∈ actions.head?, b.taken = true

theorem HeadTaken.not_any (h : HeadTaken rest) :
    ¬ rest.head?.any (fun action => !action.taken) = true := by
  cases rest with
  | nil => simp
  | cons b rest =>
    have hb := h b rfl
    simp [hb]

/-- Before the first action `on_yield` has nothing to compare with. -/
theorem onYield_nil (h : HeadTaken rest) :
    (Scenario.zip mode [] rest untils untilOpen).onYield curr label target =
      some (Scenario.zip mode [] rest untils untilOpen) := by
  unfold Scenario.onYield
  split
  · rfl
  · rw [current_zip, if_neg h.not_any]
    rfl

theorem insertIdx_append (xs ys : List TransferAction) (b : TransferAction) :
    (xs ++ ys).insertIdx xs.length b = xs ++ b :: ys := by
  induction xs with
  | nil => rfl
  | cons x xs ih => rw [List.cons_append, List.length_cons, List.insertIdx_succ_cons, ih,
      List.cons_append]

/-- Behind an action `on_yield` compares with the last one: the same untaken yield is
counted, any other is appended. -/
theorem onYield_concat (h : HeadTaken rest) :
    (Scenario.zip .explore (done ++ [a]) rest untils untilOpen).onYield curr label target =
      if a.targetLabel = some (getDesc curr) ∨ (a.sourceLabel = getDesc curr ∧ a.taken = false) then
        if a.taken = false ∧ a.yieldLabel = label then
          some (.zip .explore (done ++ [{ a with count := a.count + 1 }]) rest untils untilOpen)
        else some (.zip .explore ((done ++ [a]) ++ [passedYield curr label target]) rest untils untilOpen)
      else none := by
  have hIndex : (Scenario.zip .explore (done ++ [a]) rest untils untilOpen).index = done.length + 1 := by
    simp [Scenario.zip]
  have hAt : (Scenario.zip .explore (done ++ [a]) rest untils untilOpen).actions[done.length]? = some a := by
    simp [Scenario.zip]
  have hMode : ¬ (Scenario.zip .explore (done ++ [a]) rest untils untilOpen).mode = .replay := by
    simp [Scenario.zip]
  have hSet : (Scenario.zip .explore (done ++ [a]) rest untils untilOpen).actions.set done.length
      { a with count := a.count + 1 } = (done ++ [{ a with count := a.count + 1 }]) ++ rest := by
    show ((done ++ [a]) ++ rest).set done.length _ = _
    rw [List.append_assoc, List.set_append_right _ _ (Nat.le_refl _), Nat.sub_self, List.append_assoc]
    rfl
  have hInsert : (Scenario.zip .explore (done ++ [a]) rest untils untilOpen).actions.insertIdx
      (done.length + 1) (passedYield curr label target) =
        ((done ++ [a]) ++ [passedYield curr label target]) ++ rest := by
    have hLength : (done ++ [a]).length = done.length + 1 := by simp
    rw [← hLength, List.append_assoc (done ++ [a])]
    exact insertIdx_append (done ++ [a]) rest _
  unfold Scenario.onYield
  rw [if_neg hMode, current_zip, if_neg h.not_any, hIndex]
  dsimp only
  rw [hAt]
  dsimp only
  split
  · split
    · rw [hSet]
      simp [Scenario.zip]
    · have hMk := congrArg (fun actions => some (Scenario.mk Mode.explore actions untils
        (done.length + 1 + 1) untilOpen)) hInsert
      refine hMk.trans ?_
      simp [Scenario.zip]
  · rfl

theorem eq_nil_or_concat (xs : List TransferAction) : xs = [] ∨ ∃ init x, xs = init ++ [x] := by
  rcases List.eq_nil_or_concat xs with rfl | ⟨init, x, rfl⟩
  · exact .inl rfl
  · exact .inr ⟨init, x, List.concat_eq_append⟩

-- ---------------------------------------------------------------------------
-- Beyond the end of the list
-- ---------------------------------------------------------------------------

/-- The action that is added for a decision at the end of the list. -/
def added (curr : Party) (label d : String) (free : Bool) : TransferAction :=
  .make (getDesc curr) label (some d) [] 1 true free

/-- What is decided at the end of the list. -/
inductive Extends (done : List TransferAction) (untils : List (Condition σ)) (untilOpen : Bool)
    (curr : Party) (label : String) (target : Option Party) :
    Except Raised (Option TransferAction) × Scenario σ → Prop where
  | crash (s : Scenario σ) : Extends done untils untilOpen curr label target (.error .error, s)
  | nobody (hCurr : curr = .main) : Extends done untils untilOpen curr label target
      (.error .backtrack, .zip .explore done [] untils untilOpen)
  | unmet (hUntils : untils ≠ []) : Extends done untils untilOpen curr label target
      (.error .backtrack, .zip .explore done [] untils untilOpen)
  | stays {desc : String} (hCurr : curr = .member desc) (hTarget : target = some .main) :
      Extends done untils untilOpen curr label target
        (.ok none, .zip .explore done [] untils untilOpen)
  | adds {untils' : List (Condition σ)} (d : String) (free : Bool)
      (hUntils : untils' = untils ∨ untils' = []) (hFree : free = true → curr = .main) :
      Extends done untils untilOpen curr label target (.ok (some (added curr label d free)),
        .zip .explore done [added curr label d free] untils' untilOpen)

theorem addTransferAction_zip (curr : Party) (label d : String) (free : Bool) :
    (Scenario.zip .explore done [] untils untilOpen).addTransferAction curr label d free =
      (.ok (some (added curr label d free)),
        .zip .explore done [added curr label d free] untils untilOpen) := by
  simp [Scenario.addTransferAction, Scenario.zip, added]

/-- The conditions let control go on, or are left as they are. -/
theorem check_zip (done rest : List TransferAction) (untils : List (Condition σ)) (untilOpen : Bool)
    (now : σ) (label : String) (ending : Bool) :
    (∃ untils', (untils' = untils ∨ untils' = []) ∧
      (Scenario.zip .explore done rest untils untilOpen).checkAndResetUntils now label ending false =
        (true, .zip .explore done rest untils' untilOpen)) ∨
    ((ending = true → untils ≠ []) ∧
      (Scenario.zip .explore done rest untils untilOpen).checkAndResetUntils now label ending false =
        (false, .zip .explore done rest untils untilOpen)) := by
  unfold Scenario.checkAndResetUntils
  split
  case isTrue =>
    cases ending with
    | true => exact .inl ⟨untils, .inl rfl, rfl⟩
    | false => exact .inr ⟨fun h => absurd h Bool.false_ne_true, rfl⟩
  case isFalse hSome =>
    split
    · exact .inl ⟨[], .inr rfl, rfl⟩
    · refine .inr ⟨fun _ hNil => hSome ?_, rfl⟩
      show untils.isEmpty = true
      rw [hNil]
      rfl

/-- With nothing left to replay, `get_next_action` raises an error, stays, or adds an action
to one who can run. -/
theorem getNextAction_extends (now : σ) (g : Group) (curr : Party) (label : String)
    (target : Option Party) :
    Extends done untils untilOpen curr label target
      ((Scenario.zip .explore done [] untils untilOpen).getNextAction now g curr label target) := by
  have hIndex : ¬ ((Scenario.zip .explore done [] untils untilOpen).mode ≠ .explore ∨
      (Scenario.zip .explore done [] untils untilOpen).index ≠
        (Scenario.zip .explore done [] untils untilOpen).actions.length) := by
    simp [Scenario.zip]
  unfold Scenario.getNextAction
  rw [current_zip]
  dsimp only [List.head?_nil]
  rw [if_neg hIndex]
  unfold Scenario.extendActions
  cases curr with
  | main =>
    cases target with
    | none =>
      dsimp only
      split
      case h_1 e _ =>
        cases e with
        | backtrack => exact .nobody rfl
        | error => exact .crash _
      case h_2 => exact .nobody rfl
      case h_3 d _ =>
        split
        · exact .nobody rfl
        · rw [addTransferAction_zip]
          exact .adds d true (.inl rfl) fun _ => rfl
    | some tgt =>
      cases tgt with
      | main => exact .crash _
      | member d =>
        dsimp only
        split
        · exact .nobody rfl
        · rw [addTransferAction_zip]
          exact .adds d false (.inl rfl) fun _ => rfl
  | member desc =>
    cases target with
    | none => exact .crash _
    | some tgt =>
      dsimp only
      split
      · rcases check_zip done [] untils untilOpen now label true with ⟨untils', hUntils, hCheck⟩ | ⟨hUntils, hCheck⟩
        · rw [hCheck]
          simp only [addTransferAction_zip]
          exact .adds _ false hUntils fun h => by cases h
        · rw [hCheck]
          exact .unmet (hUntils rfl)
      · split
        · rw [addTransferAction_zip]
          exact .adds _ false (.inl rfl) fun h => by cases h
        case isFalse hMain =>
          rcases check_zip done [] untils untilOpen now label false with ⟨untils', hUntils, hCheck⟩ | ⟨-, hCheck⟩
          · rw [hCheck]
            simp only [addTransferAction_zip]
            exact .adds _ false hUntils fun h => by cases h
          · rw [hCheck]
            exact .stays rfl (congrArg some (not_not.mp hMain))

-- ---------------------------------------------------------------------------
-- Decisions
-- ---------------------------------------------------------------------------

theorem decide_of_error (h : s.getNextAction now g curr label target = (.error e, s')) :
    s.decideNextTarget now g curr label target = (.error e, s') := by
  rw [Scenario.decideNextTarget, h]

theorem decide_of_none (h : s.getNextAction now g curr label target = (.ok none, s')) :
    s.decideNextTarget now g curr label target = (.ok none, s') := by
  rw [Scenario.decideNextTarget, h]

/-- Control stays, and the yield is written down. -/
theorem decide_none (hDecide : r.scenario.decideNextTarget r.now r.group r.current label target =
      (.ok none, s)) (hYield : s.onYield r.current label target = some s') :
    r.decide p target label false = (r.stays p label).inScenario s' := by
  unfold Run.decide Run.decideNextTarget
  rw [hDecide]
  dsimp only
  rw [hYield]
  rfl

/-- Control goes on. -/
theorem decide_some (hDecide : r.scenario.decideNextTarget r.now r.group r.current label target =
      (.ok (some d), s)) (hMember : r.group.getMember d = .ok tgt) (hOther : tgt ≠ r.current)
    (hEnded : r.group.ended tgt = false) (hOn : s.onTransfer r.current label tgt = true) :
    r.decide p target label ending = (r.goes p label tgt).inScenario s := by
  unfold Run.decide Run.decideNextTarget
  rw [hDecide]
  dsimp only
  rw [hMember]
  dsimp only
  unfold Run.goTo
  rw [if_neg (by simp [hOther, hEnded]), if_neg (not_not.mpr hOn)]
  rfl

/-- Where the scenario decides on a target, control goes on to it. -/
theorem decide_ok (hDecide : r.scenario.decideNextTarget r.now r.group r.current label target =
      (.ok (some d), s)) (hAlive : (r.decide p target label ending).status ≠ .crashed) :
    ∃ tgt, r.group.getMember d = .ok tgt ∧ tgt ≠ r.current ∧ r.group.ended tgt = false := by
  unfold Run.decide Run.decideNextTarget at hAlive
  rw [hDecide] at hAlive
  dsimp only at hAlive
  cases hMember : r.group.getMember d with
  | error e =>
    rw [hMember, getMember_error hMember] at hAlive
    exact absurd (by simp [Run.raises, Run.stop]) hAlive
  | ok tgt =>
    refine ⟨tgt, rfl, ?_⟩
    rw [hMember] at hAlive
    dsimp only at hAlive
    unfold Run.goTo at hAlive
    by_cases hBad : tgt = r.current ∨ r.group.ended tgt = true
    · rw [if_pos hBad] at hAlive
      exact absurd rfl hAlive
    · simpa using hBad

/-- Where control stays, the yield can be written down. -/
theorem decide_stays (hDecide : r.scenario.decideNextTarget r.now r.group r.current label target =
      (.ok none, s)) (hAlive : (r.decide p target label ending).status ≠ .crashed) :
    ending = false ∧ ∃ s', s.onYield r.current label target = some s' := by
  unfold Run.decide Run.decideNextTarget at hAlive
  rw [hDecide] at hAlive
  dsimp only at hAlive
  cases hYield : s.onYield r.current label target with
  | none =>
    rw [hYield] at hAlive
    exact absurd rfl hAlive
  | some s' =>
    rw [hYield] at hAlive
    cases ending with
    | true => exact absurd (by simp [Run.stop]) hAlive
    | false => exact ⟨rfl, s', rfl⟩

/-- `preprocess_actions` keeps the actions taken, with their counters set back. -/
theorem preprocess_eq (h : ∀ a ∈ s.actions, a.count ≠ 0) :
    s.preprocessActions = some { s with index := 0, actions := takenOf s.actions } := by
  unfold Scenario.preprocessActions
  rw [if_neg]
  · rfl
  · rw [List.any_eq_true]
    rintro ⟨a, ha, hZero⟩
    exact h a (List.mem_filter.mp ha).1 (beq_iff_eq.mp hZero)

end Counit

end Concurrit.Model
