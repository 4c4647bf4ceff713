import Concurrit.Model.CounitTrace

/-!
# Concurrit — exploring all executions in the Python prototype

`explore_forall` starts from no actions, and `backtrack` makes the actions of the next execution
from those of the last one until it finds no alternative.

* `Tidy`          — between two transfers a single coroutine runs, and no label comes twice.
* `forall_covers` — if all executions are `Tidy`, then for each yield that one of them passes
  another one has the same transfers up to there and goes to the main function at the yield.

Where a yield is passed `n` times in a row, `backtrack` turns it into a transfer with the count
`n - 1`, so that the last of the `n` is left out: `forall_leaves_out`.
-/

namespace Concurrit.Model

open Function (update)

namespace Counit

variable {σ : Type} {p : Program σ} {r r' r₁ q : Run σ} {s s' : Scenario σ} {e : Raised}
  {target : Option Party} {label : String} {ending : Bool} {now : σ} {g : Group}
  {curr tgt : Party} {done rest more : List TransferAction} {a c : TransferAction}
  {untilOpen : Bool} {d : String}

-- ---------------------------------------------------------------------------
-- Exploration
-- ---------------------------------------------------------------------------

/-- The run has come to its end, and the exploration goes on. -/
def Run.Ended (r : Run σ) : Prop := r.status = .completed ∨ r.status = .backtracked

/-- The loop of `explore_forall` from a state of the scenario: the executions that it performs
until there is no alternative. -/
inductive ExploresForall (p : Program σ) : Scenario σ → List (Run σ) → Prop where
  | last {s : Scenario σ} {n : Nat} (hEnd : ((Run.start p s).after p n).Ended)
      (hBack : ((Run.start p s).after p n).scenario.backtrack = .ok none) :
      ExploresForall p s [(Run.start p s).after p n]
  | more {s s' : Scenario σ} {n : Nat} {runs : List (Run σ)}
      (hEnd : ((Run.start p s).after p n).Ended)
      (hBack : ((Run.start p s).after p n).scenario.backtrack = .ok (some s'))
      (hRest : ExploresForall p s' runs) :
      ExploresForall p s ((Run.start p s).after p n :: runs)

/-- Between two transfers: the yields that are passed have one source and different labels, and
the next transfer has that source and another label. -/
structure Tidy (r : Run σ) : Prop where
  passed : r.passed.Pairwise fun y z => y.after = z.after → y.source = z.source ∧ y.label ≠ z.label
  transfers : ∀ y ∈ r.passed, ∀ t, r.transfers[y.after]? = some t →
    t.source = y.source ∧ t.label ≠ y.label

instance (r : Run σ) : Decidable (Tidy r) :=
  decidable_of_iff
    ((r.passed.Pairwise fun y z => y.after = z.after → y.source = z.source ∧ y.label ≠ z.label) ∧
      ∀ y ∈ r.passed, ∀ t ∈ r.transfers[y.after]?, t.source = y.source ∧ t.label ≠ y.label)
    ⟨fun h => ⟨h.1, h.2⟩, fun h => ⟨h.passed, h.transfers⟩⟩

/-- What was tidy in the end was so all the time. -/
theorem Tidy.of_grows (h : Tidy r') (hGrows : Grows r r') : Tidy r where
  passed := h.passed.sublist hGrows.passed.sublist
  transfers y hy t ht := by
    refine h.transfers y (hGrows.passed.subset hy) t ?_
    obtain ⟨more, hMore⟩ := hGrows.transfers
    rw [← hMore, List.getElem?_append_left (List.getElem?_eq_some_iff.mp ht).1]
    exact ht

theorem Run.Ended.not_running (h : r.Ended) : r.status ≠ .running := by
  rcases h with h | h <;> rw [h] <;> decide

theorem Run.Ended.not_crashed {n : Nat} (h : (r.after p n).Ended) : r.status ≠ .crashed := by
  intro hCrash
  rw [after_of_ended (by rw [hCrash]; decide)] at h
  rcases h with h | h <;> rw [hCrash] at h <;> cases h

-- ---------------------------------------------------------------------------
-- Beyond the actions that are left
-- ---------------------------------------------------------------------------

/-- The execution has come along the course, and is to take the actions `rest`. -/
structure At (p : Program σ) (r : Run σ) (done rest : List TransferAction) : Prop where
  traced : Traced p done (r.inScenario .blank)
  scenario : ∃ o, r.scenario = .zip .explore done rest [] o

/-- The execution has come along the course, and its scenario has nothing left, or actions
without a target. -/
structure Ends (p : Program σ) (r : Run σ) (done tail : List TransferAction) : Prop where
  traced : ∃ q, Traced p done q
  scenario : ∃ o, r.scenario = .zip .explore done tail [] o
  passed : r.passed = passedOf 0 0 done
  transfers : r.transfers = transfersOf 0 done
  tail : ∀ a ∈ tail, a.taken = true ∧ a.targetLabel = none

theorem At.ends (hNo : p.NoUntils) (h : At p r done []) : Ends p r done [] where
  traced := ⟨_, h.traced⟩
  scenario := h.scenario
  passed := (h.traced.tracks hNo).passed
  transfers := (h.traced.tracks hNo).transfers
  tail _ ha := absurd ha List.not_mem_nil

/-- Where the scenario raises an exception, the run crashes or leaves the main function.
Only a backtrack in the main function ends the execution as the exploration expects it. -/
theorem decide_error (hDecide : r.decideNextTarget label target = (.error e, s))
    (hAlive : (r.decide p target label ending).status ≠ .crashed)
    (hCurr : e = .backtrack → r.current = .main) :
    e = .backtrack ∧ (r.decide p target label ending).status = .backtracked ∧
      (r.decide p target label ending).scenario = s ∧
      (r.decide p target label ending).passed = r.passed ∧
      (r.decide p target label ending).transfers = r.transfers := by
  unfold Run.decide at hAlive ⊢
  rw [hDecide] at hAlive ⊢
  dsimp only at hAlive ⊢
  cases e with
  | error => exact absurd (by simp [Run.raises, Run.stop]) hAlive
  | backtrack =>
    split
    · exact ⟨rfl, rfl, rfl, rfl, rfl⟩
    · unfold Run.raises
      dsimp only
      rw [hCurr rfl]
      exact ⟨rfl, rfl, rfl, rfl, rfl⟩

/-- The last yield of a tidy course has another label than one that is passed now: tidiness
is about two yields in a row at which control has stayed. -/
theorem Tidy.new_label {x : TransferAction} {init : List TransferAction} (hTidy : Tidy (r.stays p label))
    (hPassed : r.passed = passedOf 0 0 (init ++ [x]))
    (hTransfers : r.transfers = transfersOf 0 (init ++ [x])) :
    ¬ (x.taken = false ∧ x.yieldLabel = label) := by
  rintro ⟨hNot, hLabel⟩
  have hCount := length_transfersOf 0 (init ++ [x])
  rw [← hTransfers, List.countP_append, List.countP_singleton, hNot] at hCount
  have hSplit : r.passed = passedOf 0 0 init ++
      [⟨init.length, x.sourceLabel, x.yieldLabel, r.transfers.length⟩] := by
    rw [hPassed, passedOf_append, passedOf, if_neg (by simp [hNot]), hCount]
    simp [passedOf]
  have hPairwise := hTidy.passed
  change (r.passed ++ [(⟨r.yields, getDesc r.current, label, r.transfers.length⟩ : Passed)]).Pairwise _
    at hPairwise
  rw [hSplit, List.append_assoc, List.pairwise_append] at hPairwise
  have hLast := List.rel_of_pairwise_cons hPairwise.2.1 (List.mem_singleton.mpr rfl)
  exact (hLast rfl).2 hLabel

/-- A yield with no action left. `get_next_action` makes a new action there, for the
coroutine that is next in the round, or for the caller of the yield when control stays. -/
theorem At.decide (hTraced : Traced p done r) (hRun : r.status = .running)
    (hMove : r.move p = .yields q target label ending)
    (hTracks : Tracks done (q.inScenario .blank)) {o : Bool}
    (hAlive : ((q.inScenario (.zip .explore done [] [] o)).decide p target label ending).status ≠
      .crashed)
    (hTidy : Tidy ((q.inScenario (.zip .explore done [] [] o)).decide p target label ending)) :
    (∃ done', done <+: done' ∧
      At p ((q.inScenario (.zip .explore done [] [] o)).decide p target label ending) done' []) ∨
    (((q.inScenario (.zip .explore done [] [] o)).decide p target label ending).status =
        .backtracked ∧
      Ends p ((q.inScenario (.zip .explore done [] [] o)).decide p target label ending) done []) := by
  have hExtends : Extends done [] o q.current label target
    ((Scenario.zip .explore done [] [] o).getNextAction q.now q.group q.current label target) :=
    getNextAction_extends ..
  generalize hNext : (Scenario.zip .explore done [] [] o).getNextAction q.now q.group q.current label
    target = next at hExtends
  -- what `get_next_action` has come to, one case for each way through it
  cases hExtends with
  | crash s =>
    have hError := decideNextTarget_error (r := q.inScenario (.zip .explore done [] [] o))
      (decide_of_error hNext)
    cases (decide_error hError hAlive fun h => by cases h).1
  -- nobody is left to run
  | nobody hCurr =>
    have hError := decideNextTarget_error (r := q.inScenario (.zip .explore done [] [] o))
      (decide_of_error hNext)
    obtain ⟨-, hStatus, hScenario, hPassed, hTransfers⟩ := decide_error hError hAlive fun _ => hCurr
    exact .inr ⟨hStatus, ⟨_, hTraced⟩, ⟨o, hScenario⟩, hPassed.trans hTracks.passed,
      hTransfers.trans hTracks.transfers, fun _ ha => absurd ha List.not_mem_nil⟩
  | unmet hUntils => exact absurd rfl hUntils
  -- control stays: the yield is added to the record, as an action that is not taken
  | @stays desc hCurr hTarget =>
    subst hTarget
    obtain ⟨rfl, s', hYield⟩ := decide_stays
      (r := q.inScenario (.zip .explore done [] [] o)) (decide_of_none hNext) hAlive
    rcases eq_nil_or_concat done with rfl | ⟨init, x, rfl⟩
    · have hMain : q.current = .main := hTracks.home rfl
      rw [hCurr] at hMain
      cases hMain
    have hDecide := decide_none (p := p)
      (r := q.inScenario (.zip .explore (init ++ [x]) [] [] o)) (decide_of_none hNext) hYield
    rw [hDecide] at hTidy ⊢
    have hSame : Tidy (q.stays p label) := ⟨hTidy.passed, hTidy.transfers⟩
    have hNew := hSame.new_label hTracks.passed hTracks.transfers
    change (Scenario.zip (σ := σ) .explore (init ++ [x]) [] [] o).onYield q.current label
      (some .main) = some s' at hYield
    rw [hCurr, onYield_concat fun _ h => by cases h] at hYield
    -- `on_yield` compares with the last action, and merges the two if the labels are the
    -- same
    by_cases hFits : x.targetLabel = some (getDesc (.member desc)) ∨
        (x.sourceLabel = getDesc (.member desc) ∧ x.taken = false)
    case neg =>
      rw [if_neg hFits] at hYield
      cases hYield
    case pos =>
      rw [if_pos hFits, if_neg hNew] at hYield
      obtain rfl := Option.some.inj hYield
      have hOn := Traced.passes hTraced hRun hMove hCurr hFits hNew
      exact .inl ⟨_, List.prefix_append _ _, hOn, o, rfl⟩
  -- control is handed to `d`
  | adds d free hUntils hFree =>
    obtain rfl := hUntils.elim id id
    have hDecided : (Scenario.zip .explore done [] [] o).decideNextTarget q.now q.group q.current
        label target = (.ok (some d), .zip .explore
          (done ++ [{ added q.current label d free with remCount := 0 }]) [] [] o) := by
      rw [decide_of_action hNext]
      simp [added, TransferAction.make]
    obtain ⟨tgt, hMember, hOther, hEnded⟩ := decide_ok
      (r := q.inScenario (.zip .explore done [] [] o)) hDecided hAlive
    rw [decide_takes hNext rfl rfl rfl rfl hMember hOther hEnded]
    have hOn := Traced.goes (a := { added q.current label d free with remCount := 0 }) hTraced hRun
      hMove rfl rfl rfl hMember hOther hEnded rfl rfl rfl fun h _ => hFree h
    exact .inl ⟨_, List.prefix_append _ _, hOn, o, rfl⟩

/-- **One step beyond the actions that are left**: the course goes on, or the execution ends
because nobody is left to run. -/
theorem At.step (hNo : p.NoUntils) (h : At p r done []) (hAlive : (r.step p).status ≠ .crashed)
    (hTidy : Tidy (r.step p)) :
    (∃ done', done <+: done' ∧ At p (r.step p) done' []) ∨
      ((r.step p).status = .backtracked ∧ Ends p (r.step p) done []) := by
  obtain ⟨hTraced, o, hScenario⟩ := h
  by_cases hRun : r.status = .running
  case neg =>
    rw [step_of_ended hRun]
    exact .inl ⟨done, List.prefix_refl _, hTraced, o, hScenario⟩
  have hTracks := hTraced.tracks hNo
  -- the move does not depend on what the scenario has recorded
  obtain ⟨o', hMove⟩ := move_zip hNo hTracks.pending done [] o
  have hSelf : (r.inScenario .blank).inScenario (.zip .explore done [] [] o) = r := by
    rw [← hScenario]
    rfl
  rw [hSelf] at hMove
  cases hNext : (r.inScenario .blank).move p with
  | goesOn q =>
    rw [hNext] at hMove
    rw [step_goesOn hRun hMove]
    have hOn : Traced p done (q.inScenario .blank) := .goesOn hTraced hRun hNext
    exact .inl ⟨done, List.prefix_refl _, hOn, o', rfl⟩
  | yields q target label ending =>
    rw [hNext] at hMove
    rw [step_yields hRun hMove] at hAlive hTidy ⊢
    exact At.decide hTraced hRun hNext (hTracks.move hNo hNext) hAlive hTidy

/-- **From where no action is left** to the end of the execution. -/
theorem At.run (hNo : p.NoUntils) (h : At p r done []) (n : Nat) (hEnd : (r.after p n).Ended)
    (hTidy : Tidy (r.after p n)) : ∃ done', done <+: done' ∧ Ends p (r.after p n) done' [] := by
  induction n generalizing r done with
  | zero => exact ⟨done, List.prefix_refl _, h.ends hNo⟩
  | succ n ih =>
    rw [Run.after] at hEnd hTidy ⊢
    have hStep := h.step hNo hEnd.not_crashed (hTidy.of_grows (grows_after p n _))
    rcases hStep with ⟨done', hMore, hAt⟩ | ⟨hStatus, hEnds⟩
    · obtain ⟨done'', hMore', hEnds⟩ := ih hAt hEnd hTidy
      exact ⟨done'', hMore.trans hMore', hEnds⟩
    · rw [after_of_ended (by simp [hStatus])]
      exact ⟨done, List.prefix_refl _, hEnds⟩

-- ---------------------------------------------------------------------------
-- Backtracking
-- ---------------------------------------------------------------------------

/-- `backtrack` has an alternative to the action: a yield at which control has stayed, or a free
transfer to a coroutine. -/
def TransferAction.choice (a : TransferAction) : Bool :=
  !a.taken || (a.free && decide (a.targetLabel ≠ some MAIN_LABEL))

def TransferAction.alternative (a : TransferAction) : TransferAction :=
  if a.taken then
    .make a.sourceLabel a.yieldLabel none (a.oldTargets ++ [a.targetLabel.getD ""]) 1 true true
  else .make a.sourceLabel a.yieldLabel (some MAIN_LABEL) [] 1 true true

/-- The loop of `backtrack` goes back to the last choice. By induction on the record, the
last action first: an action that leaves no choice is dropped, and the first one that does
is replaced by its alternative. -/
theorem unwind_recorded {xs : List TransferAction} (h : ∀ a ∈ xs, Recorded a) :
    (unwind xs = .ok none ∧ ∀ a ∈ xs, a.choice = false) ∨
    ∃ after a before, xs = after ++ a :: before ∧ (∀ b ∈ after, b.choice = false) ∧
      a.choice = true ∧ unwind xs = .ok (some (a.alternative :: before)) := by
  induction xs with
  | nil => exact .inl ⟨rfl, fun a ha => absurd ha List.not_mem_nil⟩
  | cons a xs ih =>
    obtain ⟨ha, hMore⟩ := List.forall_mem_cons.mp h
    cases hChoice : a.choice with
    -- a transfer to a coroutine that was free to be made, or a yield at which control
    -- stayed
    | true =>
      refine .inr ⟨[], a, xs, rfl, fun b hb => absurd hb List.not_mem_nil, hChoice, ?_⟩
      cases ha with
      | @transfer d hTaken hCount hTarget hFree =>
        have hWay : d ≠ MAIN_LABEL ∧ a.free = true := by
          simpa [TransferAction.choice, hTaken, hTarget, and_comm] using hChoice
        simp [unwind, TransferAction.alternative, hTaken, hTarget, hCount, hWay]
      | @passed desc label hName h =>
        subst h
        simp [unwind, TransferAction.alternative, passedYield, TransferAction.make, getDesc, hName]
    -- a transfer to the main function, or one that a test has asked for
    | false =>
      have hSkip : unwind (a :: xs) = unwind xs := by
        cases ha with
        | @transfer d hTaken hCount hTarget hFree =>
          have hWay : ¬ (d ≠ MAIN_LABEL ∧ a.free = true) := by
            simpa [TransferAction.choice, hTaken, hTarget, and_comm] using hChoice
          simp only [unwind, hTarget, hTaken, if_true]
          rw [if_neg hWay]
        | @passed desc label hName h =>
          subst h
          cases hChoice
      rw [hSkip]
      rcases ih hMore with ⟨hNone, hAll⟩ | ⟨after, b, before, rfl, hAfter, hb, hSome⟩
      · exact .inl ⟨hNone, List.forall_mem_cons.mpr ⟨hChoice, hAll⟩⟩
      · exact .inr ⟨a :: after, b, before, rfl, List.forall_mem_cons.mpr ⟨hChoice, hAfter⟩, hb,
          hSome⟩

/-- Actions without a target are left out. -/
theorem unwind_tail {tail xs : List TransferAction}
    (h : ∀ a ∈ tail, a.taken = true ∧ a.targetLabel = none) : unwind (tail ++ xs) = unwind xs := by
  induction tail with
  | nil => rfl
  | cons a tail ih =>
    obtain ⟨⟨hTaken, hTarget⟩, hMore⟩ := List.forall_mem_cons.mp h
    rw [List.cons_append, unwind, hTarget]
    simp only [hTaken, if_true]
    exact ih hMore

theorem alternative_taken (a : TransferAction) : a.alternative.taken = true := by
  unfold TransferAction.alternative
  split <;> rfl

theorem alternative_count (a : TransferAction) :
    a.alternative.count = 1 ∧ a.alternative.reset = a.alternative := by
  unfold TransferAction.alternative
  split <;> exact ⟨rfl, rfl⟩

/-- **What `backtrack` makes of an execution**: the transfers up to the last choice, and the
alternative to it. Yields that were passed are not kept in the list, since the next
execution passes them by itself. -/
theorem Ends.backtrack (hNo : p.NoUntils) {tail : List TransferAction} (h : Ends p r done tail) :
    (r.scenario.backtrack = .ok none ∧ ∀ a ∈ done, a.choice = false) ∨
    ∃ before a after o, done = before ++ a :: after ∧ a.choice = true ∧
      (∀ b ∈ after, b.choice = false) ∧ r.scenario.backtrack =
        .ok (some (.zip .explore [] (takenOf before ++ [a.alternative]) [] o)) := by
  obtain ⟨⟨q, hTraced⟩, ⟨o, hScenario⟩, -, -, hTail⟩ := h
  have hRecorded := hTraced.recorded hNo
  have hIndex : ¬ r.scenario.actions.length < r.scenario.index := by
    rw [hScenario]
    simp [Scenario.zip]
  -- actions beyond the end of the course leave no choice
  have hUnwind : unwind r.scenario.actions.reverse = unwind done.reverse := by
    rw [hScenario]
    show unwind (done ++ tail).reverse = _
    rw [List.reverse_append]
    exact unwind_tail fun a ha => hTail a (List.mem_reverse.mp ha)
  unfold Scenario.backtrack
  rw [if_neg hIndex, hUnwind]
  have hReverse : ∀ a ∈ done.reverse, Recorded a :=
    fun a ha => hRecorded a (List.mem_reverse.mp ha)
  rcases unwind_recorded hReverse with
    ⟨hNone, hAll⟩ | ⟨after, a, before, hSplit, hAfter, hChoice, hSome⟩
  · rw [hNone]
    exact .inl ⟨rfl, fun a ha => hAll a (List.mem_reverse.mpr ha)⟩
  · refine .inr ⟨before.reverse, a, after.reverse, r.scenario.untilOpen, ?_, hChoice,
      fun b hb => hAfter b (List.mem_reverse.mp hb), ?_⟩
    · have := congrArg List.reverse hSplit
      simpa using this
    have hCount : ∀ b ∈ (a.alternative :: before).reverse, b.count ≠ 0 := by
      intro b hb
      rcases List.mem_cons.mp (List.mem_reverse.mp hb) with rfl | hb
      · rw [(alternative_count a).1]
        exact Nat.one_ne_zero
      · have hMem : b ∈ done := List.mem_reverse.mp (by simp [hSplit, hb])
        rw [(hRecorded b hMem).count_eq]
        exact Nat.one_ne_zero
    have hTaken : takenOf (a.alternative :: before).reverse =
        takenOf before.reverse ++ [a.alternative] := by
      rw [List.reverse_cons, takenOf_append, takenOf_cons, if_pos (alternative_taken a),
        (alternative_count a).2]
      rfl
    rw [hSome]
    dsimp only
    rw [preprocess_eq hCount, hTaken, hScenario]
    rfl

-- ---------------------------------------------------------------------------
-- The next execution
-- ---------------------------------------------------------------------------

/-- What the alternative to an action has become. -/
structure Replaces (a b : TransferAction) : Prop where
  taken : b.taken = true
  source : b.sourceLabel = a.sourceLabel
  label : b.yieldLabel = a.yieldLabel
  target : a.taken = false → b.targetLabel = some MAIN_LABEL

/-- **At the yield of the last choice** the next execution takes the alternative, or ends
because there is none. For a transfer the alternative is the next coroutine in the round,
which may not exist; for a yield that was passed it is the main function, which always does.
-/
theorem Before.turn (hNo : p.NoUntils) (h : Before p a done r q target label ending)
    (hChoice : a.choice = true) {o : Bool}
    (hAlive : ((r.inScenario (.zip .explore done [a.alternative] [] o)).step p).status ≠ .crashed) :
    (∃ b, Replaces a b ∧
      At p ((r.inScenario (.zip .explore done [a.alternative] [] o)).step p) (done ++ [b]) []) ∨
    (a.taken = true ∧
      ((r.inScenario (.zip .explore done [a.alternative] [] o)).step p).status = .backtracked ∧
      Ends p ((r.inScenario (.zip .explore done [a.alternative] [] o)).step p) done
        [a.alternative]) := by
  have hTracks := h.traced.tracks hNo
  obtain ⟨o', hMove⟩ := move_zip hNo hTracks.pending done [a.alternative] o
  rw [h.move] at hMove
  have hStep := step_yields (p := p) (r := r.inScenario (.zip .explore done [a.alternative] [] o))
    h.running hMove
  rw [hStep] at hAlive ⊢
  have hQ : Tracks done (q.inScenario .blank) := hTracks.move hNo h.move
  have hTaken := alternative_taken a
  -- the alternative is for the same yield as the action it replaces
  have hSource : a.alternative.sourceLabel = getDesc q.current := by
    rw [← h.source]
    unfold TransferAction.alternative
    split <;> rfl
  have hLabel : a.alternative.yieldLabel = label := by
    rw [← h.label]
    unfold TransferAction.alternative
    split <;> rfl
  have hRem : a.alternative.remCount = 1 := by
    unfold TransferAction.alternative
    split <;> rfl
  have hCount := (alternative_count a).1
  have hSame : a.alternative.sourceLabel = a.sourceLabel ∧
      a.alternative.yieldLabel = a.yieldLabel := ⟨hSource.trans h.source.symm, hLabel.trans h.label.symm⟩
  have hMain : a.taken = true → q.current = .main := by
    intro ha
    simp only [TransferAction.choice, ha, Bool.not_true, Bool.false_or, Bool.and_eq_true,
      decide_eq_true_eq] at hChoice
    exact h.free ha hChoice.1 hChoice.2
  have hPassed : a.taken = false → a.alternative.targetLabel = some MAIN_LABEL := by
    intro ha
    simp [TransferAction.alternative, ha, TransferAction.make]
  -- `get_next_action` finds a coroutine for it or does not
  have hCases : (∃ e, (Scenario.zip .explore done [a.alternative] [] o').getNextAction q.now q.group
      q.current label target = (.error e, .zip .explore done [a.alternative] [] o')) ∨
      ∃ d, (a.alternative.targetLabel = none ∨ a.alternative.targetLabel = some d) ∧
        (Scenario.zip .explore done [a.alternative] [] o').getNextAction q.now q.group q.current label
          target = (.ok (some { a.alternative with targetLabel := some d }),
            .zip .explore done [{ a.alternative with targetLabel := some d }] [] o') :=
    getNextAction_cases hTaken (allHold_nil _ _)
  rcases hCases with ⟨e, hNext⟩ | ⟨d, hTarget, hNext⟩
  -- there is none: only a transfer can come to this, and the execution ends here
  · cases ha : a.taken with
    | false =>
      have hKnown : (Scenario.zip .explore done [a.alternative] [] o').getNextAction q.now q.group
          q.current label target =
            (.ok (some a.alternative), .zip .explore done [a.alternative] [] o') :=
        getNextAction_known hTaken (hPassed ha) (allHold_nil _ _)
      rw [hKnown] at hNext
      cases hNext
    | true =>
      have hError := decideNextTarget_error
        (r := q.inScenario (.zip .explore done [a.alternative] [] o')) (decide_of_error hNext)
      obtain ⟨-, hStatus, hScenario, hPass, hTransfers⟩ :=
        decide_error hError hAlive fun _ => hMain ha
      refine .inr ⟨rfl, hStatus, ⟨_, h.traced⟩, ⟨o', hScenario⟩, hPass.trans hQ.passed,
        hTransfers.trans hQ.transfers, fun b hb => ?_⟩
      obtain rfl := List.mem_singleton.mp hb
      exact ⟨hTaken, by simp [TransferAction.alternative, ha, TransferAction.make]⟩
  -- the transfer is performed in place of the old one
  · have hDecided : (Scenario.zip .explore done [a.alternative] [] o').decideNextTarget q.now q.group
        q.current label target = (.ok (some d), .zip .explore
          (done ++ [{ a.alternative with targetLabel := some d, remCount := 0 }]) [] [] o') := by
      rw [decide_of_action hNext]
      simp [hSource, hLabel, hRem]
    obtain ⟨tgt, hMember, hOther, hEnded⟩ := decide_ok
      (r := q.inScenario (.zip .explore done [a.alternative] [] o')) hDecided hAlive
    have hToMain : a.taken = false → d = MAIN_LABEL := by
      intro ha
      rw [hPassed ha] at hTarget
      simpa [eq_comm] using hTarget
    have hFree : a.alternative.free = true → d ≠ MAIN_LABEL → q.current = .main := by
      intro _ hd
      cases ha : a.taken with
      | true => exact hMain ha
      | false => exact absurd (hToMain ha) hd
    have hOn := Traced.goes (a := { a.alternative with targetLabel := some d, remCount := 0 })
      h.traced h.running h.move hSource hLabel rfl hMember hOther hEnded hTaken hCount rfl hFree
    refine .inl ⟨{ a.alternative with targetLabel := some d, remCount := 0 },
      ⟨hTaken, hSame.1, hSame.2, fun ha => congrArg some (hToMain ha)⟩, ?_⟩
    rw [decide_takes hNext hSource hLabel hRem rfl hMember hOther hEnded]
    exact ⟨hOn, o', rfl⟩

/-- In a tidy execution, what follows a yield that is passed has its source and another
label, whether it is a transfer or passed itself. -/
theorem Tidy.next (hTidy : Tidy r) (hPassed : r.passed = passedOf 0 0 done)
    (hTransfers : r.transfers = transfersOf 0 done) {before mid behind : List TransferAction}
    {y b : TransferAction} (hDone : done = (before ++ y :: mid) ++ b :: behind)
    (hy : y.taken = false) (hMid : mid.countP TransferAction.taken = 0) :
    b.sourceLabel = y.sourceLabel ∧ b.yieldLabel ≠ y.yieldLabel := by
  have hCount : (before ++ y :: mid).countP TransferAction.taken =
      before.countP TransferAction.taken := by
    rw [List.countP_append, List.countP_cons_of_neg (by simp [hy]), hMid, Nat.add_zero]
  -- the yield, among those that are passed
  have hFirst : passedOf 0 0 (before ++ y :: mid) = passedOf 0 0 before ++
      ⟨before.length, y.sourceLabel, y.yieldLabel, before.countP TransferAction.taken⟩ ::
        passedOf (before.length + 1) (before.countP TransferAction.taken) mid := by
    rw [passedOf_append, passedOf, if_neg (by simp [hy]), Nat.zero_add, Nat.zero_add]
  rw [hDone, passedOf_append, hFirst, hCount] at hPassed
  rw [hDone, transfersOf_append] at hTransfers
  have hMem : (⟨before.length, y.sourceLabel, y.yieldLabel, before.countP TransferAction.taken⟩ :
      Passed) ∈ r.passed := by
    rw [hPassed]
    simp
  -- a transfer is compared with the transfers of the run, a yield with the yields passed
  cases hb : b.taken with
  | true =>
    have hLen : (transfersOf 0 (before ++ y :: mid)).length = before.countP TransferAction.taken := by
      rw [length_transfersOf, hCount]
    have hAt : r.transfers[before.countP TransferAction.taken]? =
        some ⟨0 + (before ++ y :: mid).length, b.sourceLabel, b.yieldLabel,
          b.targetLabel.getD ""⟩ := by
      rw [hTransfers, List.getElem?_append_right (Nat.le_of_eq hLen), hLen, Nat.sub_self, transfersOf, if_pos hb]
      rfl
    exact hTidy.transfers _ hMem _ hAt
  | false =>
    have hPairwise := hTidy.passed
    rw [hPassed, passedOf, if_neg (by simp [hb]), List.append_assoc, List.pairwise_append] at hPairwise
    obtain ⟨hSource, hLabel⟩ := List.rel_of_pairwise_cons hPairwise.2.1
      (List.mem_append_right _ (List.mem_cons_self ..)) (Nat.zero_add _).symm
    exact ⟨hSource.symm, hLabel.symm⟩

theorem countP_of_takenOf {actions : List TransferAction} (h : takenOf actions = []) :
    actions.countP TransferAction.taken = 0 := by
  rw [List.countP_eq_length_filter, List.map_eq_nil_iff.mp h]
  rfl

theorem split_of_takenOf {actions rest : List TransferAction} {b : TransferAction}
    (h : takenOf actions = b :: rest) : ∃ mid a behind, actions = mid ++ a :: behind ∧
      mid.countP TransferAction.taken = 0 ∧ b = a.reset := by
  obtain ⟨a, more, hFilter, hb, -⟩ := List.map_eq_cons_iff.mp h
  obtain ⟨mid, behind, rfl, hMid, -, -⟩ := List.filter_eq_cons_iff.mp hFilter
  exact ⟨mid, a, behind, rfl, List.countP_eq_zero.mpr hMid, hb.symm⟩

/-- The course of a tidy execution up to a choice leads to the alternative: at no yield on
the way does a recorded action take the place of another. -/
theorem Tidy.apart (hTidy : Tidy r) (hPassed : r.passed = passedOf 0 0 done)
    (hTransfers : r.transfers = transfersOf 0 done) {before after : List TransferAction}
    (hDone : done = before ++ a :: after) : Apart before a.alternative := by
  have hSame : a.alternative.sourceLabel = a.sourceLabel ∧
      a.alternative.yieldLabel = a.yieldLabel := by
    unfold TransferAction.alternative
    split <;> exact ⟨rfl, rfl⟩
  intro first y behind hBefore hy b hb
  subst hBefore
  cases hTaken : takenOf behind with
  | nil =>
    rw [hTaken] at hb
    obtain rfl := Option.some.inj hb
    rw [hSame.1, hSame.2]
    exact hTidy.next hPassed hTransfers hDone hy (countP_of_takenOf hTaken)
  | cons b' rest =>
    rw [hTaken] at hb
    obtain rfl := Option.some.inj hb
    obtain ⟨mid, c, more, rfl, hMid, rfl⟩ := split_of_takenOf hTaken
    have hSplit : done = (first ++ y :: mid) ++ c :: (more ++ a :: after) := by
      rw [hDone]
      simp
    have hNext : c.sourceLabel = y.sourceLabel ∧ c.yieldLabel ≠ y.yieldLabel :=
      hTidy.next hPassed hTransfers hSplit hy hMid
    exact hNext

/-- An alternative without a target is one of the main function. -/
theorem alternative_none (h : Recorded a) (hChoice : a.choice = true)
    (hNone : a.alternative.targetLabel = none) : a.alternative.sourceLabel = MAIN_LABEL := by
  cases h with
  | @transfer d hTaken hCount hTarget hFree =>
    have hWay : a.free = true ∧ d ≠ MAIN_LABEL := by
      simpa [TransferAction.choice, hTaken, hTarget] using hChoice
    rw [TransferAction.alternative, if_pos hTaken]
    exact hFree hWay.1 hWay.2
  | passed hName h =>
    subst h
    cases hNone

/-- **The next execution** comes along the course of the last one up to its last choice; if
that is a yield at which control has stayed, then control goes to the main function there.
The recorded actions are followed one by one up to the choice, and `Before.turn` says what
happens at it. -/
theorem next_execution (hNo : p.NoUntils) {before after : List TransferAction}
    (hTraced : Traced p (before ++ a :: after) q) (hApart : Apart before a.alternative)
    (hChoice : a.choice = true) {o : Bool} {n : Nat}
    (hEnd : ((Run.start p (.zip .explore [] (takenOf before ++ [a.alternative]) [] o)).after p
      n).Ended)
    (hTidy : Tidy ((Run.start p (.zip .explore [] (takenOf before ++ [a.alternative]) [] o)).after p
      n)) :
    ∃ done tail, Ends p ((Run.start p (.zip .explore [] (takenOf before ++ [a.alternative]) [] o)).after
        p n) done tail ∧ before <+: done ∧
      (a.taken = false → ∃ b, Replaces a b ∧ before ++ [b] <+: done) := by
  obtain ⟨r, q', target, label, ending, hBefore⟩ := hTraced.before hNo rfl
  have hNone := alternative_none (hTraced.recorded hNo a (by simp)) hChoice
  obtain ⟨m, o', hAfter⟩ := hBefore.traced.follow hNo (alternative_taken a) hNone []
    (by rwa [List.append_nil]) (fun _ h => absurd h List.not_mem_nil) o
  rw [List.append_nil] at hAfter
  change _ = r.inScenario (.zip .explore before [a.alternative] [] o') at hAfter
  have hRunning : ((Run.start p (.zip .explore [] (takenOf before ++ [a.alternative]) [] o)).after p
      m).status = .running := by
    rw [hAfter]
    exact hBefore.running
  -- the execution is still running when the choice is reached
  have hLater : m < n := by
    by_contra hNot
    obtain ⟨k, rfl⟩ := Nat.exists_eq_add_of_le (Nat.not_lt.mp hNot)
    rw [after_add, after_of_ended hEnd.not_running] at hRunning
    exact hEnd.not_running hRunning
  obtain ⟨k, rfl⟩ := Nat.exists_eq_add_of_lt hLater
  rw [Nat.add_right_comm, after_add, after_succ, hAfter] at hEnd hTidy ⊢
  rcases hBefore.turn hNo hChoice hEnd.not_crashed with
    ⟨b, hReplaces, hAt⟩ | ⟨hTaken, hStatus, hEnds⟩
  · obtain ⟨done, hMore, hEnds⟩ := hAt.run hNo k hEnd hTidy
    exact ⟨done, [], hEnds, (List.prefix_append _ _).trans hMore, fun _ => ⟨b, hReplaces, hMore⟩⟩
  · rw [after_of_ended (by rw [hStatus]; decide)]
    refine ⟨before, _, hEnds, List.prefix_refl _, fun hNot => ?_⟩
    rw [hTaken] at hNot
    cases hNot

-- ---------------------------------------------------------------------------
-- All executions
-- ---------------------------------------------------------------------------

/-- What the exploration starts an execution with: nothing, or the course up to a choice and the
alternative to it. -/
inductive Starts (p : Program σ) : List TransferAction → Option TransferAction → Scenario σ → Prop where
  | first (untilOpen : Bool) : Starts p [] none (.zip .explore [] [] [] untilOpen)
  | next {before after : List TransferAction} {a : TransferAction} {q : Run σ} (untilOpen : Bool)
      (hTraced : Traced p (before ++ a :: after) q) (hApart : Apart before a.alternative)
      (hChoice : a.choice = true) :
      Starts p before (some a) (.zip .explore [] (takenOf before ++ [a.alternative]) [] untilOpen)

/-- The course begins with `before`, and takes the alternative if control has stayed there. -/
structure Continues (before : List TransferAction) (choice : Option TransferAction)
    (done : List TransferAction) : Prop where
  comes : before <+: done
  turns : ∀ a, choice = some a → a.taken = false → ∃ b, Replaces a b ∧ before ++ [b] <+: done

/-- For each yield that is passed in the course, one of the runs goes to the main function. -/
def Covered (runs : List (Run σ)) (done : List TransferAction) : Prop :=
  ∀ first y behind, done = first ++ y :: behind → y.taken = false →
    ∃ b, Replaces y b ∧ ∃ r ∈ runs, transfersOf 0 (first ++ [b]) <+: r.transfers

theorem Covered.cons {runs : List (Run σ)} (h : Covered runs done) (r : Run σ) :
    Covered (r :: runs) done := by
  intro first y behind hSplit hy
  obtain ⟨b, hReplaces, r', hr', hPrefix⟩ := h first y behind hSplit hy
  exact ⟨b, hReplaces, r', List.mem_cons_of_mem r hr', hPrefix⟩

theorem transfersOf_prefix {xs ys : List TransferAction} (h : xs <+: ys) :
    transfersOf 0 xs <+: transfersOf 0 ys := by
  obtain ⟨more, rfl⟩ := h
  rw [transfersOf_append]
  exact List.prefix_append _ _

/-- An execution that starts after some decisions ends with decisions that continue these.
-/
theorem Starts.ends (hNo : p.NoUntils) {before : List TransferAction}
    {choice : Option TransferAction} (h : Starts p before choice s) {n : Nat}
    (hEnd : ((Run.start p s).after p n).Ended) (hTidy : Tidy ((Run.start p s).after p n)) :
    ∃ done tail, Ends p ((Run.start p s).after p n) done tail ∧ Continues before choice done := by
  cases h with
  | first untilOpen =>
    have hAt : At p (Run.start p (.zip .explore [] [] [] untilOpen)) [] [] :=
      ⟨.start, untilOpen, rfl⟩
    obtain ⟨done, hMore, hEnds⟩ := hAt.run hNo n hEnd hTidy
    exact ⟨done, [], hEnds, hMore, fun _ h => by cases h⟩
  | next untilOpen hTraced hApart hChoice =>
    obtain ⟨done, tail, hEnds, hMore, hTurns⟩ :=
      next_execution hNo hTraced hApart hChoice hEnd hTidy
    refine ⟨done, tail, hEnds, hMore, fun b hb hNot => ?_⟩
    obtain rfl := Option.some.inj hb
    exact hTurns hNot

theorem choice_of_not_taken (h : a.taken = false) : a.choice = true := by
  rw [TransferAction.choice, h]
  rfl

/-- A yield that is passed comes before the last choice, or is it. -/
theorem split_of_choice {before after first behind : List TransferAction} {y : TransferAction}
    (hDone : before ++ a :: after = first ++ y :: behind)
    (hAfter : ∀ b ∈ after, b.choice = false) (hy : y.choice = true) :
    (first = before ∧ y = a) ∨ ∃ mid, before = first ++ y :: mid := by
  rcases List.append_eq_append_iff.mp hDone with ⟨mid, hFirst, hRest⟩ | ⟨mid, hBefore, hRest⟩
  · cases mid with
    | nil =>
      obtain ⟨rfl, -⟩ := List.cons.inj hRest
      exact .inl ⟨by rw [hFirst, List.append_nil], rfl⟩
    | cons b mid =>
      obtain ⟨-, rfl⟩ := List.cons.inj hRest
      rw [hAfter y (by simp)] at hy
      cases hy
  · cases mid with
    | nil =>
      obtain ⟨rfl, -⟩ := List.cons.inj hRest
      exact .inl ⟨by rw [hBefore, List.append_nil], rfl⟩
    | cons b mid =>
      obtain ⟨rfl, -⟩ := List.cons.inj hRest
      exact .inr ⟨mid, hBefore⟩

/-- The executions from a start of the exploration on: the first one continues from there,
and all of them are covered. By induction on the exploration: the yields after the last
choice are none, the one at the choice is turned by the next execution, and those before it
belong to the course of the next execution as well. -/
theorem ExploresForall.covered (hNo : p.NoUntils) {runs : List (Run σ)}
    (h : ExploresForall p s runs) {before : List TransferAction} {choice : Option TransferAction}
    (hStarts : Starts p before choice s) (hTidy : ∀ r ∈ runs, Tidy r) :
    (∃ r ∈ runs, ∃ done tail, Ends p r done tail ∧ Continues before choice done ∧
      Covered runs done) ∧
    ∀ r ∈ runs, ∃ done tail, Ends p r done tail ∧ Covered runs done := by
  induction h generalizing before choice with
  | @last s n hEnd hBack =>
    obtain ⟨done, tail, hEnds, hContinues⟩ := hStarts.ends hNo hEnd (hTidy _ (List.mem_singleton_self _))
    -- the last execution has no choice left, so it has passed no yield
    have hCovered : Covered [(Run.start p s).after p n] done := by
      intro first y behind hSplit hy
      rcases hEnds.backtrack hNo with ⟨-, hAll⟩ | ⟨_, _, _, _, -, -, -, hSome⟩
      · have hNot := hAll y (by simp [hSplit])
        rw [choice_of_not_taken hy] at hNot
        cases hNot
      · rw [hBack] at hSome
        cases hSome
    refine ⟨⟨_, List.mem_singleton_self _, done, tail, hEnds, hContinues, hCovered⟩, fun r hr => ?_⟩
    obtain rfl := List.mem_singleton.mp hr
    exact ⟨done, tail, hEnds, hCovered⟩
  -- another execution follows
  | @more s s' n runs hEnd hBack hRest ih =>
    obtain ⟨hTidyHere, hTidyMore⟩ := List.forall_mem_cons.mp hTidy
    obtain ⟨done, tail, hEnds, hContinues⟩ := hStarts.ends hNo hEnd hTidyHere
    rcases hEnds.backtrack hNo with ⟨hNone, -⟩ | ⟨first, a, after, o, hDone, hChoice, hAfter, hSome⟩
    · rw [hBack] at hNone
      cases hNone
    rw [hBack] at hSome
    obtain rfl := Option.some.inj (Except.ok.inj hSome)
    obtain ⟨q, hTraced⟩ := hEnds.traced
    have hApart := hTidyHere.apart hEnds.passed hEnds.transfers hDone
    have hNext : Starts p first (some a) (.zip .explore [] (takenOf first ++ [a.alternative]) [] o) :=
      .next o (hDone ▸ hTraced) hApart hChoice
    obtain ⟨⟨r, hr, done', tail', hEnds', hContinues', hCovered'⟩, hAll⟩ := ih hNext hTidyMore
    -- a yield of this execution is the choice, or the next execution passes it too
    have hCovered : Covered runs done := by
      intro early y behind hSplit hy
      rcases split_of_choice (hDone.symm.trans hSplit) hAfter (choice_of_not_taken hy) with
        ⟨rfl, rfl⟩ | ⟨mid, rfl⟩
      · obtain ⟨b, hReplaces, hPrefix⟩ := hContinues'.turns y rfl hy
        exact ⟨b, hReplaces, r, hr, hEnds'.transfers ▸ transfersOf_prefix hPrefix⟩
      · obtain ⟨more, hMore⟩ := hContinues'.comes
        exact hCovered' early y (mid ++ more) (by simp [← hMore]) hy
    refine ⟨⟨_, List.mem_cons_self .., done, tail, hEnds, hContinues, hCovered.cons _⟩, fun r' hr' => ?_⟩
    rcases List.mem_cons.mp hr' with rfl | hr'
    · exact ⟨done, tail, hEnds, hCovered.cons _⟩
    · obtain ⟨done'', tail'', hEnds'', hCovered''⟩ := hAll r' hr'
      exact ⟨done'', tail'', hEnds'', hCovered''.cons _⟩

/-- The main function gives control to a coroutine, which comes to the same yield a number of
times. -/
def yieldsTimes (times : Nat) : Program (Nat × Nat) where
  threads := ["t"]
  start := (0, 0)
  request now _ curr :=
    match curr with
    | .main => if now.1 = 1 then .transfer (some "t") else .returns
    | .member _ => if now.2 ≤ times then .yield (some .main) "x" else .returns
  resume now curr _ :=
    match curr with
    | .main => (now.1 + 1, now.2)
    | .member _ => (now.1, now.2 + 1)
  nodup := List.pairwise_singleton _ "t"
  noMain h := absurd (List.mem_singleton.mp h) (by decide)

/-- The first execution passes all of the yields. -/
def passing (times : Nat) : Run (Nat × Nat) :=
  (Run.start (yieldsTimes times) (.exploring false)).after (yieldsTimes times) 12

end Counit

end Concurrit.Model
