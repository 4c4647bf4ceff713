import Concurrit.Model.CounitWays

/-!
# Concurrit — the choices that the Python prototype makes

The list of actions is a record of the choices of an execution: what has been tried at a yield is
the target of the action and its old targets.

* `AtYield.decide` — beyond the actions that are left, each choice is a new one.
* `AtYield.turns`  — the last choice is made again in another way, or all have been tried.
-/

namespace Concurrit.Model

open Function (update)

namespace Counit

variable {σ : Type} {p : Program σ} {r r' r₁ q : Run σ} {s s' : Scenario σ} {e : Raised}
  {target : Option Party} {label : String} {ending : Bool} {now : σ} {g : Group}
  {curr tgt : Party} {done rest more before after : List TransferAction} {a b c : TransferAction}
  {untilOpen : Bool} {d : String}

-- ---------------------------------------------------------------------------
-- The record of a choice
-- ---------------------------------------------------------------------------

def TransferAction.visit (a : TransferAction) : Visit where
  source := a.sourceLabel
  label := a.yieldLabel
  target := if a.taken then a.targetLabel else none

/-- Staying has been tried, or the target. -/
def Tried (a : TransferAction) (target : Option String) : Prop :=
  ∀ d, target = some d → a.taken = true ∧ d ∈ a.oldTargets ++ a.targetLabel.toList

def records : Choices.Record TransferAction Visit where
  choice := TransferAction.visit
  tried a x := Tried a x.target
  exhausted a := a.choice = false
  self := by
    intro a d hTarget
    cases hTaken : a.taken with
    | false => simp [TransferAction.visit, hTaken] at hTarget
    | true =>
      have hd : a.targetLabel = some d := by simpa [TransferAction.visit, hTaken] using hTarget
      exact ⟨rfl, List.mem_append_right _ (by simp [hd])⟩

theorem tried_none (a : TransferAction) : Tried a none := fun _ h => by cases h

/-- The choice is one that the yield offers, and is exhausted if it cannot be changed. Another
target is only looked for where the main function has named none. -/
structure Lawful (p : Program σ) (before : List TransferAction) (c : TransferAction) : Prop where
  offered : (ways p).offers (records.choices before) c.visit
  free : c.taken = true → c.choice = true →
    ∃ r q label ending, Offers p (records.choices before) c.visit r q none label ending
  exhausted : c.choice = false → ∀ x, (ways p).offers (records.choices before) x → Tried c x.target

def AllLawful (p : Program σ) (done : List TransferAction) : Prop :=
  ∀ before c after, done = before ++ c :: after → Lawful p before c

/-- Lawfulness is a matter of each decision, given those before it. -/
theorem AllLawful.concat (h : AllLawful p done) (hLast : Lawful p done c) :
    AllLawful p (done ++ [c]) := by
  intro before c' after hSplit
  rcases eq_nil_or_concat after with rfl | ⟨after, x, rfl⟩
  · obtain ⟨rfl, hc⟩ := List.append_inj' hSplit rfl
    obtain rfl := (List.cons.inj hc).1
    exact hLast
  · rw [← List.cons_append, ← List.append_assoc] at hSplit
    exact h before c' after (List.append_inj' hSplit rfl).1

theorem AllLawful.init (h : AllLawful p (before ++ after)) : AllLawful p before := by
  intro first c behind hSplit
  exact h first c (behind ++ after) (by rw [hSplit, List.append_assoc]; rfl)

/-- A choice that differs from another one at the same yield does so in the target. -/
theorem Offers.eq_of_target {visits : List Visit} {x y : Visit} {r' q' : Run σ}
    {target' : Option Party} {label' : String} {ending' : Bool}
    (h : Offers p visits x r q target label ending)
    (h' : Offers p visits y r' q' target' label' ending') (hTarget : x.target = y.target) : x = y := by
  obtain ⟨-, rfl, -, rfl, -⟩ := h.unique h'
  obtain ⟨source, name, t⟩ := x
  obtain ⟨source', name', t'⟩ := y
  rw [show source = source' from h.source.trans h'.source.symm,
    show name = name' from h.name.trans h'.name.symm, show t = t' from hTarget]

/-- What holds of all that is allowed at a yield holds of all choices that are offered there. -/
theorem Offers.all {visits : List Visit} {x : Visit} {P : Option String → Prop}
    (h : Offers p visits x r q target label ending) (hAll : ∀ t, Allowed q target label t → P t) :
    ∀ y, (ways p).offers visits y → P y.target := by
  rintro y ⟨r', q', target', label', ending', hOffers⟩
  obtain ⟨-, rfl, rfl, rfl, -⟩ := h.unique hOffers
  exact hAll y.target hOffers.allowed

/-- A course of lawful choices is a possible execution. By induction on the course: the
yields are the same as in the possible execution so far, since both have made the same
choices. -/
theorem Traced.possible (h : Traced p done r) (hLawful : AllLawful p done) :
    Possible p (records.choices done) r := by
  induction h with
  | start => exact .start
  | goesOn _ hRun hMove ih => exact .goesOn (ih hLawful) hRun hMove
  -- control stays
  | @passes init x r r₁ desc label _ hRun hMove hCurr _ _ ih =>
    have hPossible := ih hLawful.init
    obtain ⟨r', q, target, name, ending, hOffers⟩ := (hLawful _ _ [] rfl).offered
    obtain rfl := hOffers.at_yield hPossible ⟨hRun, hMove⟩
    obtain ⟨rfl, rfl, rfl, -⟩ := (AtYield.mk hRun hMove).unique hOffers.yields
    rw [Choices.choices_append, show passedYield (.member desc) label (some .main) =
      passedYield r₁.current label (some .main) by rw [hCurr]]
    exact .stays hPossible hRun hMove hOffers.allowed
  -- control is handed over
  | @goes done r r₁ target label ending a d tgt _ hRun hMove hSource hLabel hTarget hMember hOther
      hEnded hTaken _ _ _ ih =>
    have hPossible := ih hLawful.init
    have hVisit : a.visit = ⟨getDesc r₁.current, label, some d⟩ := by
      rw [TransferAction.visit, if_pos hTaken, hSource, hLabel, hTarget]
    obtain ⟨r', q, target', label', ending', hOffers⟩ := (hLawful _ _ [] rfl).offered
    obtain rfl := hOffers.at_yield hPossible ⟨hRun, hMove⟩
    obtain ⟨rfl, rfl, rfl, rfl⟩ := (AtYield.mk hRun hMove).unique hOffers.yields
    have hAllowed := hOffers.allowed
    rw [hVisit] at hAllowed
    rw [Choices.choices_append]
    show Possible p (records.choices done ++ [a.visit]) _
    rw [hVisit]
    exact .goes hPossible hRun hMove hAllowed hMember hOther hEnded

-- ---------------------------------------------------------------------------
-- What the scenario decides
-- ---------------------------------------------------------------------------

/-- The main function gets the first running member that has not been tried. -/
theorem nextRunning_main (hNodup : g.memberlist.Nodup) (old : List String) :
    g.getNextRunning .main old = .ok (g.memberlist.find? fun desc =>
      !(decide (0 < old.count desc) || (g.members desc).ended)) := by
  have hList : g.coroutines.memberlist = g.memberlist :=
    (CoroutineGroup.lists_of some g.memberlist).memberlist
  rw [g.getNextRunning_of_nodup hNodup .main (fun desc h => by cases h)]
  simp only [Party.toCurrent, CoroutineGroup.firstRunning, CoroutineGroup.circular, hList]
  refine congrArg Except.ok (congrArg (fun f => List.find? f g.memberlist) (funext fun desc => ?_))
  simp [CoroutineGroup.eligible, CoroutineGroup.untried, CoroutineGroup.skips, of_some_desc]

/-- Who is found to be next is a member that runs and was not tried before. -/
theorem nextRunning_some (hNodup : g.memberlist.Nodup) {old : List String}
    (h : g.getNextRunning .main old = .ok (some d)) :
    d ∈ g.memberlist ∧ (g.members d).ended = false ∧ d ∉ old := by
  rw [nextRunning_main hNodup] at h
  have hFind := Except.ok.inj h
  have hd := List.find?_some hFind
  simp only [Bool.not_or, Bool.and_eq_true, Bool.not_eq_true', decide_eq_false_iff_not,
    List.count_pos_iff] at hd
  exact ⟨List.mem_of_find?_eq_some hFind, hd.2, hd.1⟩

theorem nextRunning_none (hNodup : g.memberlist.Nodup) {old : List String}
    (h : g.getNextRunning .main old = .ok none) :
    ∀ desc ∈ g.memberlist, (g.members desc).ended = false → desc ∈ old := by
  rw [nextRunning_main hNodup] at h
  intro desc hMem hRuns
  have hd := List.find?_eq_none.mp (Except.ok.inj h) desc hMem
  simpa [hRuns, List.count_pos_iff] using hd

/-- A coroutine that the main function names at a yield has not ended: a transfer to one
that has is refused before the yield. -/
theorem ended_of_yields (hMove : r.move p = .yields q target label ending)
    (hTarget : target = some (.member d)) (hCurr : q.current = .main) :
    (q.group.members d).ended = false := by
  have hTransfer : ∀ {r : Run σ} {t : Option Party} {name : String} {b : Bool},
      r.transfer p t name b = .yields q target label ending → (q.group.members d).ended = false := by
    intro r t name b h
    unfold Run.transfer at h
    split at h
    · cases h
    split at h
    · cases h
    split at h
    · cases h
    case h_2 t' hResolve =>
      cases h
      subst hTarget
      unfold Run.resolve at hResolve
      split at hResolve
      · cases hResolve
      · split at hResolve
        -- `resolve` has looked at the group
        case isTrue hGoes =>
          cases hResolve
          simpa using hGoes.2
        case isFalse => cases hResolve
      · split at hResolve
        · cases hResolve
        · rename_i hMember
          rw [hCurr] at hMember
          cases hMember
  -- the requests that lead to a transfer
  unfold Run.move at hMove
  split at hMove
  · cases hMove
  · unfold Run.transferTo at hMove
    split at hMove
    · cases hMove
    split at hMove
    · cases hMove
    split at hMove
    · cases hMove
    · exact hTransfer hMove
  · split at hMove
    · cases hMove
    · exact hTransfer hMove
  · cases hMove
  · cases hMove
  · split at hMove
    · cases hMove
    · exact hTransfer hMove

/-- What is decided at the end of the list, without conditions. -/
inductive Extension (q : Run σ) (target : Option Party) (label : String)
    (done : List TransferAction) (untilOpen : Bool) :
    Except Raised (Option TransferAction) × Scenario σ → Prop where
  | crash (s : Scenario σ) : Extension q target label done untilOpen (.error .error, s)
  | nobody (hCurr : q.current = .main) (hTarget : target = none) (hAll : q.group.allEnded = true) :
      Extension q target label done untilOpen
        (.error .backtrack, .zip .explore done [] [] untilOpen)
  | stays (hAllowed : Allowed q target label none) :
      Extension q target label done untilOpen (.ok none, .zip .explore done [] [] untilOpen)
  | adds (d : String) (free : Bool) (hAllowed : Allowed q target label (some d))
      (hStays : ¬ Allowed q target label none)
      (hForced : free = false → ∀ t, Allowed q target label t → t = some d)
      (hFree : free = true → q.current = .main ∧ target = none ∧ d ∈ q.group.memberlist) :
      Extension q target label done untilOpen (.ok (some (added q.current label d free)),
        .zip .explore done [added q.current label d free] [] untilOpen)

theorem not_stays_of_main (hCurr : q.current = .main) : ¬ Allowed q target label none := by
  intro h
  cases h with
  | stays hMember _ _ => cases hCurr.symm.trans hMember

/-- Where a party is named and control may not stay, there is one choice. -/
theorem allowed_named {t : Party} (hTarget : target = some t)
    (hStays : ¬ Allowed q target label none) :
    ∀ x, Allowed q target label x → x = some (getDesc t) := by
  intro x hx
  cases hx with
  | stays hCurr hMain hLabel => exact absurd (.stays hCurr hMain hLabel) hStays
  | named hSame =>
    obtain rfl := Option.some.inj (hTarget.symm.trans hSame)
    rfl
  | any _ hNone _ _ => cases hTarget.symm.trans hNone

/-- **What `get_next_action` does beyond the recorded actions**: it crashes, finds nobody,
lets control stay, or adds the action of a choice that the yield allows. -/
theorem extension (hNodup : q.group.memberlist.Nodup)
    (hRuns : ∀ d, target = some (.member d) → q.current = .main → (q.group.members d).ended = false) :
    Extension q target label done untilOpen
      ((Scenario.zip .explore done [] [] untilOpen).getNextAction now q.group q.current label
        target) := by
  have hIndex : ¬ ((Scenario.zip (σ := σ) .explore done [] [] untilOpen).mode ≠ .explore ∨
      (Scenario.zip (σ := σ) .explore done [] [] untilOpen).index ≠
        (Scenario.zip (σ := σ) .explore done [] [] untilOpen).actions.length) := by
    simp [Scenario.zip]
  -- no until is set, so that checking them changes nothing
  have hCheck : ∀ b, (Scenario.zip (σ := σ) .explore done [] [] untilOpen).checkAndResetUntils now
      label b false = (b, .zip .explore done [] [] untilOpen) := by
    intro b
    unfold Scenario.checkAndResetUntils
    cases b <;> rfl
  unfold Scenario.getNextAction
  rw [current_zip]
  dsimp only [List.head?_nil]
  rw [if_neg hIndex]
  unfold Scenario.extendActions
  cases hCurr : q.current with
  -- the main function yields: to anybody, or to the coroutine it names
  | main =>
    cases target with
    | none =>
      dsimp only
      cases hNext : q.group.getNextRunning .main [] with
      | error e =>
        rw [nextRunning_main hNodup] at hNext
        cases hNext
      -- the next coroutine in the round
      | ok next =>
        cases next with
        | none =>
          refine .nobody hCurr rfl (List.all_eq_true.mpr fun desc hMem => ?_)
          cases hEnded : (q.group.members desc).ended with
          | true => rfl
          | false => exact absurd (nextRunning_none hNodup hNext desc hMem hEnded) List.not_mem_nil
        | some d =>
          obtain ⟨hMem, hEnded, -⟩ := nextRunning_some hNodup hNext
          dsimp only
          rw [hEnded, if_neg Bool.false_ne_true, addTransferAction_zip, ← hCurr]
          exact .adds d true (.any hCurr rfl hMem hEnded) (not_stays_of_main hCurr)
            (fun h => by cases h) fun _ => ⟨hCurr, rfl, hMem⟩
    | some tgt =>
      cases tgt with
      | main => exact .crash _
      | member d =>
        dsimp only
        rw [hRuns d rfl hCurr, if_neg Bool.false_ne_true, addTransferAction_zip, ← hCurr]
        exact .adds d false (.named (t := .member d) rfl) (not_stays_of_main hCurr)
          (fun _ => allowed_named rfl (not_stays_of_main hCurr)) fun h => by cases h
  -- a coroutine yields: it has ended, names another one, or stays
  | member desc =>
    cases target with
    | none => exact .crash _
    | some tgt =>
      dsimp only
      split
      case isTrue hEnding =>
        have hStays : ¬ Allowed q (some tgt) label none := by
          intro h
          cases h with
          | stays _ _ hLabel => exact hLabel hEnding
        rw [hCheck]
        simp only [addTransferAction_zip]
        rw [← hCurr]
        exact .adds _ false (.named rfl) hStays (fun _ => allowed_named rfl hStays) fun h => by cases h
      case isFalse hLabel =>
        split
        case isTrue hNotMain =>
          have hStays : ¬ Allowed q (some tgt) label none := by
            intro h
            cases h with
            | stays _ hMain _ => exact hNotMain (Option.some.inj hMain)
          rw [addTransferAction_zip, ← hCurr]
          exact .adds _ false (.named rfl) hStays (fun _ => allowed_named rfl hStays)
            fun h => by cases h
        case isFalse hMain =>
          rw [hCheck]
          exact .stays (.stays hCurr (congrArg some (not_not.mp hMain)) hLabel)

-- ---------------------------------------------------------------------------
-- Choices beyond the actions that are left
-- ---------------------------------------------------------------------------

/-- Nothing else has been tried at the yield. -/
def Fresh (p : Program σ) (before : List TransferAction) (c : TransferAction) : Prop :=
  ∀ x, (ways p).offers (records.choices before) x → Tried c x.target → x = c.visit

/-- Two runs have come to the same end. -/
structure SameEnd (w r : Run σ) : Prop where
  status : w.status = r.status
  now : w.now = r.now
  transfers : w.transfers = r.transfers
  passed : w.passed = r.passed

theorem Offers.lawful
    (h : Offers p (records.choices before) c.visit r q target label ending)
    (hFree : c.taken = true → c.choice = true → target = none)
    (hExhausted : c.choice = false → ∀ t, Allowed q target label t → Tried c t) :
    Lawful p before c :=
  ⟨⟨_, _, _, _, _, h⟩, fun hTaken hChoice => ⟨_, _, _, _, hFree hTaken hChoice ▸ h⟩,
    fun hChoice => h.all (hExhausted hChoice)⟩

theorem Offers.fresh
    (h : Offers p (records.choices before) c.visit r q target label ending)
    (hFresh : ∀ t, Allowed q target label t → Tried c t → t = c.visit.target) :
    Fresh p before c := by
  rintro x ⟨r', q', target', label', ending', hOffers⟩ hTried
  obtain ⟨-, rfl, rfl, rfl, -⟩ := h.unique hOffers
  exact hOffers.eq_of_target h (hFresh x.target hOffers.allowed hTried)

/-- The run comes to the yield, with these actions left. -/
abbrev Run.decideWith (q : Run σ) (p : Program σ) (done rest : List TransferAction) (o : Bool)
    (target : Option Party) (label : String) (ending : Bool) : Run σ :=
  (q.inScenario (.zip .explore done rest [] o)).decide p target label ending

/-- The main function gives up. -/
theorem decide_gives_up (hDecide : r.decideNextTarget label target = (.error .backtrack, s))
    (hCurr : r.current = .main) : r.decide p target label ending =
      ({ r with scenario := s, yields := r.yields + 1, pending := [] } : Run σ).stop .backtracked := by
  unfold Run.decide
  rw [hDecide]
  dsimp only
  split
  · rfl
  · unfold Run.raises
    dsimp only
    rw [hCurr]

/-- A yield with no action left is a new choice, or the end. What is added to the record is
lawful, as a choice that the yield allows, and fresh, as the first one that the exploration
makes there. -/
theorem AtYield.decide (hNo : p.NoUntils) (hTraced : Traced p done r) (hLawful : AllLawful p done)
    (hYield : AtYield p r q target label ending) {o : Bool}
    (hAlive : (q.decideWith p done [] o target label ending).status ≠ .crashed)
    (hTidy : Tidy (q.decideWith p done [] o target label ending)) :
    (∃ c, At p (q.decideWith p done [] o target label ending) (done ++ [c]) [] ∧
      Lawful p done c ∧ Fresh p done c) ∨
    ((q.decideWith p done [] o target label ending).status = .backtracked ∧
      Ends p (q.decideWith p done [] o target label ending) done [] ∧
      ∃ w, Possible p (records.choices done) w ∧
        SameEnd w (q.decideWith p done [] o target label ending)) := by
  have hPossible := hTraced.possible hLawful
  have hTracks := (hTraced.tracks hNo).move hNo hYield.move
  have hMembers : q.group.memberlist = p.threads := by
    have hSame := (lasts_move p r).memberlist
    rw [hYield.move] at hSame
    exact hSame.trans hPossible.memberlist
  have hExtension : Extension q target label done o
      ((Scenario.zip .explore done [] [] o).getNextAction q.now q.group q.current label target) :=
    -- the ways through `get_next_action`
    extension (hMembers ▸ p.nodup) fun d hTarget hCurr => ended_of_yields hYield.move hTarget hCurr
  generalize hNext : (Scenario.zip .explore done [] [] o).getNextAction q.now q.group q.current label
    target = next at hExtension
  cases hExtension with
  | crash s =>
    have hError := decideNextTarget_error (r := q.inScenario (.zip .explore done [] [] o))
      (decide_of_error hNext)
    cases (decide_error hError hAlive fun h => by cases h).1
  | nobody hCurr hTarget hAll =>
    subst hTarget
    have hError := decideNextTarget_error (r := q.inScenario (.zip .explore done [] [] o))
      (decide_of_error hNext)
    refine .inr ?_
    rw [Run.decideWith, decide_gives_up hError hCurr]
    exact ⟨rfl, ⟨⟨_, hTraced⟩, ⟨o, rfl⟩, hTracks.passed, hTracks.transfers,
      fun _ ha => absurd ha List.not_mem_nil⟩, _,
      .nobody hPossible hYield.running hYield.move hCurr hAll, ⟨rfl, rfl, rfl, rfl⟩⟩
  -- control stays, which is recorded as an action that is not taken
  | stays hAllowed =>
    obtain ⟨rfl, s', hWritten⟩ := decide_stays
      (r := q.inScenario (.zip .explore done [] [] o)) (decide_of_none hNext) hAlive
    have hCurr : ∃ desc, q.current = .member desc ∧ target = some .main := by
      cases hAllowed with
      | stays hCurr hTarget _ => exact ⟨_, hCurr, hTarget⟩
    obtain ⟨desc, hCurr, rfl⟩ := hCurr
    rcases eq_nil_or_concat done with rfl | ⟨init, x, rfl⟩
    · have hMain : q.current = .main := hTracks.home rfl
      rw [hCurr] at hMain
      cases hMain
    have hDecide := decide_none (p := p)
      (r := q.inScenario (.zip .explore (init ++ [x]) [] [] o)) (decide_of_none hNext) hWritten
    rw [Run.decideWith, hDecide] at hTidy ⊢
    have hSame : Tidy (q.stays p label) := ⟨hTidy.passed, hTidy.transfers⟩
    have hNew := hSame.new_label hTracks.passed hTracks.transfers
    change (Scenario.zip (σ := σ) .explore (init ++ [x]) [] [] o).onYield q.current label
      (some .main) = some s' at hWritten
    rw [hCurr, onYield_concat fun _ h => by cases h] at hWritten
    by_cases hFits : x.targetLabel = some (getDesc (.member desc)) ∨
        (x.sourceLabel = getDesc (.member desc) ∧ x.taken = false)
    case neg =>
      rw [if_neg hFits] at hWritten
      cases hWritten
    case pos =>
      rw [if_pos hFits, if_neg hNew] at hWritten
      obtain rfl := Option.some.inj hWritten
      have hOn := Traced.passes hTraced hYield.running hYield.move hCurr hFits hNew
      have hOffers : Offers p (records.choices (init ++ [x]))
          (passedYield (.member desc) label (some .main)).visit r q (some .main) label false :=
        ⟨hPossible, hYield, by rw [hCurr]; rfl, rfl, hAllowed⟩
      refine .inl ⟨_, ⟨hOn, o, rfl⟩, hOffers.lawful (fun h => by cases h) (fun h => by cases h),
        hOffers.fresh ?_⟩
      intro t _ hTried
      cases t with
      | none => rfl
      | some d => cases (hTried d rfl).1
  -- control is handed to `d`
  | adds d free hAllowed hStays hForced hFree =>
    have hDecided : (Scenario.zip .explore done [] [] o).decideNextTarget q.now q.group q.current
        label target = (.ok (some d), .zip .explore
          (done ++ [{ added q.current label d free with remCount := 0 }]) [] [] o) := by
      rw [decide_of_action hNext]
      simp [added, TransferAction.make]
    obtain ⟨tgt, hMember, hOther, hEnded⟩ := decide_ok
      (r := q.inScenario (.zip .explore done [] [] o)) hDecided hAlive
    rw [Run.decideWith, decide_takes hNext rfl rfl rfl rfl hMember hOther hEnded]
    have hOn := Traced.goes (a := { added q.current label d free with remCount := 0 }) hTraced
      hYield.running hYield.move rfl rfl rfl hMember hOther hEnded rfl rfl rfl fun h _ => (hFree h).1
    have hOffers : Offers p (records.choices done)
        ({ added q.current label d free with remCount := 0 } : TransferAction).visit r q target label
          ending := ⟨hPossible, hYield, rfl, rfl, hAllowed⟩
    refine .inl ⟨_, ⟨hOn, o, rfl⟩, hOffers.lawful (fun _ hChoice => ?_) fun hChoice t ht => ?_,
      hOffers.fresh ?_⟩
    -- the target was found by looking for somebody to run
    · have hWay : free = true := by
        cases free with
        | false => cases hChoice
        | true => rfl
      exact (hFree hWay).2.1
    -- the test has named the target
    · have hFixed : free = false := by
        cases free with
        | false => rfl
        | true =>
          have hMain : d = MAIN_LABEL := by
            simpa [TransferAction.choice, added, TransferAction.make] using hChoice
          exact absurd (hMembers ▸ (hFree rfl).2.2) (hMain ▸ p.noMain)
      obtain rfl := hForced hFixed t ht
      rintro d' hd'
      obtain rfl := Option.some.inj hd'
      exact ⟨rfl, List.mem_singleton_self _⟩
    · intro t ht hTried
      cases t with
      | none => exact absurd ht hStays
      | some d' => exact congrArg some (List.mem_singleton.mp (hTried d' rfl).2)

/-- How an execution has ended whose last choices, from `n` on, are new. -/
structure Explored (p : Program σ) (r : Run σ) (n : Nat) (done : List TransferAction) : Prop where
  ends : Ends p r done []
  lawful : AllLawful p done
  fresh : ∀ before c after, done = before ++ c :: after → n ≤ before.length → Fresh p before c
  same : ∃ w, Possible p (records.choices done) w ∧ SameEnd w r

/-- One step beyond the actions that are left: the course is the same, has one more choice,
which is new, or ends. -/
theorem At.explores_step (hNo : p.NoUntils) (h : At p r done []) (hLawful : AllLawful p done)
    (hAlive : (r.step p).status ≠ .crashed) (hTidy : Tidy (r.step p)) :
    At p (r.step p) done [] ∨
    (∃ c, At p (r.step p) (done ++ [c]) [] ∧ Lawful p done c ∧ Fresh p done c) ∨
    ((r.step p).status = .backtracked ∧ Ends p (r.step p) done [] ∧
      ∃ w, Possible p (records.choices done) w ∧ SameEnd w (r.step p)) := by
  obtain ⟨hTraced, o, hScenario⟩ := h
  by_cases hRun : r.status = .running
  case neg =>
    rw [step_of_ended hRun]
    exact .inl ⟨hTraced, o, hScenario⟩
  have hTracks := hTraced.tracks hNo
  obtain ⟨o', hMove⟩ := move_zip hNo hTracks.pending done [] o
  have hSelf : (r.inScenario .blank).inScenario (.zip .explore done [] [] o) = r := by
    rw [← hScenario]
    rfl
  rw [hSelf] at hMove
  cases hNext : (r.inScenario .blank).move p with
  | goesOn q =>
    rw [hNext] at hMove
    rw [step_goesOn hRun hMove]
    have hOn : Traced p done (q.inScenario .blank) := .goesOn hTraced hRun hNext
    exact .inl ⟨hOn, o', rfl⟩
  | yields q target label ending =>
    rw [hNext] at hMove
    rw [step_yields hRun hMove] at hAlive hTidy ⊢
    exact .inr (AtYield.decide hNo hTraced hLawful ⟨hRun, hNext⟩ hAlive hTidy)

/-- From where no action is left, all choices are new. By induction on the number of steps,
with the part of the course from position `k` on that has been chosen freshly. -/
theorem At.explores (hNo : p.NoUntils) {k : Nat} (h : At p r done []) (hLawful : AllLawful p done)
    (hFresh : ∀ before c after, done = before ++ c :: after → k ≤ before.length → Fresh p before c)
    (n : Nat) (hEnd : (r.after p n).Ended) (hTidy : Tidy (r.after p n)) :
    ∃ done', done <+: done' ∧ Explored p (r.after p n) k done' := by
  induction n generalizing r done with
  | zero =>
    refine ⟨done, List.prefix_refl _, h.ends hNo, hLawful, hFresh, r.inScenario .blank, ?_, ?_⟩
    · exact h.traced.possible hLawful
    · exact ⟨rfl, rfl, rfl, rfl⟩
  | succ n ih =>
    rw [Run.after] at hEnd hTidy ⊢
    have hStep := h.explores_step hNo hLawful hEnd.not_crashed
      (hTidy.of_grows (grows_after p n _))
    rcases hStep with hAt | ⟨c, hAt, hLast, hNew⟩ | ⟨hStatus, hEnds, hSame⟩
    · exact ih hAt hLawful hFresh hEnd hTidy
    -- the choice made last is new, and the earlier ones were
    · have hFresh' : ∀ before b after, done ++ [c] = before ++ b :: after → k ≤ before.length →
          Fresh p before b := by
        intro before b after hSplit hLen
        rcases eq_nil_or_concat after with rfl | ⟨after, x, rfl⟩
        · obtain ⟨rfl, hc⟩ := List.append_inj' hSplit rfl
          obtain rfl := (List.cons.inj hc).1
          exact hNew
        · rw [← List.cons_append, ← List.append_assoc] at hSplit
          exact hFresh before b after (List.append_inj' hSplit rfl).1 hLen
      obtain ⟨done', hMore, hExplored⟩ := ih hAt (hLawful.concat hLast) hFresh' hEnd hTidy
      exact ⟨done', (List.prefix_append _ _).trans hMore, hExplored⟩
    · rw [after_of_ended (by simp [hStatus])]
      exact ⟨done, List.prefix_refl _, hEnds, hLawful, hFresh, hSame⟩

-- ---------------------------------------------------------------------------
-- The last choice, made again
-- ---------------------------------------------------------------------------

/-- Another choice than those that have been tried. -/
structure Another (p : Program σ) (before : List TransferAction) (a b : TransferAction) : Prop where
  new : ¬ Tried a b.visit.target
  keeps : ∀ t, Tried a t → Tried b t
  only : ∀ x, (ways p).offers (records.choices before) x → Tried b x.target →
    Tried a x.target ∨ x = b.visit

/-- The alternative keeps the targets that have been tried, and adds its own, which is new.
-/
theorem Offers.another
    (h : Offers p (records.choices before) b.visit r q target label ending)
    (hNew : ¬ Tried a b.visit.target) (hKeeps : ∀ t, Tried a t → Tried b t)
    (hOnly : ∀ t, Allowed q target label t → Tried b t → Tried a t ∨ t = b.visit.target) :
    Another p before a b := by
  refine ⟨hNew, hKeeps, ?_⟩
  rintro x ⟨r', q', target', label', ending', hOffers⟩ hTried
  obtain ⟨-, rfl, rfl, rfl, -⟩ := h.unique hOffers
  exact (hOnly x.target hOffers.allowed hTried).imp id (hOffers.eq_of_target h)

/-- A yield at which control has stayed, as a transfer to the main function. -/
def TransferAction.toMain (a : TransferAction) : TransferAction :=
  .make a.sourceLabel a.yieldLabel (some MAIN_LABEL) [] 1 true true

/-- A transfer to `t`, as one to another coroutine. -/
def TransferAction.toOther (a : TransferAction) (t : String) : TransferAction :=
  .make a.sourceLabel a.yieldLabel none (a.oldTargets ++ [t]) 1 true true

/-- What is left of a choice for the next execution. -/
inductive Alternative (a : TransferAction) : TransferAction → Prop where
  | toMain (h : a.taken = false) : Alternative a a.toMain
  | toOther {t : String} (h : a.taken = true) (hFree : a.free = true) (hTarget : a.targetLabel = some t)
      (hMain : t ≠ MAIN_LABEL) : Alternative a (a.toOther t)

/-- What the source makes of a recorded choice for the next execution is an alternative to
it. -/
theorem alternative (h : Recorded a) (hChoice : a.choice = true) : Alternative a a.alternative := by
  cases hTaken : a.taken with
  | false =>
    rw [TransferAction.alternative, hTaken]
    exact .toMain hTaken
  | true =>
    obtain ⟨t, hTarget⟩ := Option.ne_none_iff_exists'.mp h.target_ne_none
    have hWay : a.free = true ∧ t ≠ MAIN_LABEL := by
      simpa [TransferAction.choice, hTaken, hTarget] using hChoice
    rw [TransferAction.alternative, hTaken, hTarget]
    exact .toOther hTaken hWay.1 hTarget hWay.2

/-- An action without a target gets the next running coroutine. -/
theorem getNextAction_open (hTaken : a.taken = true) (hTarget : a.targetLabel = none)
    (hFree : a.free = true) (hNext : g.getNextRunning curr a.oldTargets = .ok (some d)) :
    (Scenario.zip .explore done (a :: rest) [] untilOpen).getNextAction now g curr label target =
      (.ok (some { a with targetLabel := some d }),
        .zip .explore done ({ a with targetLabel := some d } :: rest) [] untilOpen) := by
  unfold Scenario.getNextAction
  rw [current_zip]
  dsimp only [List.head?_cons]
  unfold Scenario.followAction
  rw [check_holds (allHold_nil _ _), hTaken, hTarget, hNext, hFree]
  dsimp only
  rw [set_zip]
  rfl

/-- With nobody left to choose, the action cannot be followed, and the run backtracks. -/
theorem getNextAction_stuck (hTaken : a.taken = true) (hTarget : a.targetLabel = none)
    (hFree : a.free = true) (hNext : g.getNextRunning curr a.oldTargets = .ok none) :
    (Scenario.zip .explore done (a :: rest) [] untilOpen).getNextAction now g curr label target =
      (.error .backtrack, .zip .explore done (a :: rest) [] untilOpen) := by
  unfold Scenario.getNextAction
  rw [current_zip]
  dsimp only [List.head?_cons]
  unfold Scenario.followAction
  rw [check_holds (allHold_nil _ _), hTaken, hTarget, hNext, hFree]
  rfl

/-- An action for the yield is taken, and written down with its target. -/
theorem AtYield.takes (hTraced : Traced p done r) (hYield : AtYield p r q target label ending)
    {o : Bool} (hNext : (Scenario.zip .explore done rest [] o).getNextAction q.now q.group q.current
      label target = (.ok (some b), .zip .explore done [b] [] o))
    (hSource : b.sourceLabel = getDesc q.current) (hLabel : b.yieldLabel = label)
    (hTaken : b.taken = true) (hCount : b.count = 1) (hRem : b.remCount = 1)
    (hTarget : b.targetLabel = some d) (hFree : b.free = true → d ≠ MAIN_LABEL → q.current = .main)
    (hAlive : (q.decideWith p done rest o target label ending).status ≠ .crashed) :
    At p (q.decideWith p done rest o target label ending) (done ++ [{ b with remCount := 0 }]) [] := by
  have hDecided : (Scenario.zip .explore done rest [] o).decideNextTarget q.now q.group q.current
      label target =
        (.ok (some d), .zip .explore (done ++ [{ b with remCount := 0 }]) [] [] o) := by
    rw [decide_of_action hNext]
    simp [hSource, hLabel, hRem, hTarget]
  obtain ⟨tgt, hMember, hOther, hEnded⟩ := decide_ok
    (r := q.inScenario (.zip .explore done rest [] o)) hDecided hAlive
  rw [Run.decideWith, decide_takes hNext hSource hLabel hRem hTarget hMember hOther hEnded]
  have hOn := Traced.goes (a := { b with remCount := 0 }) hTraced hYield.running hYield.move hSource
    hLabel hTarget hMember hOther hEnded hTaken hCount rfl hFree
  exact ⟨hOn, o, rfl⟩

/-- An action that has stayed goes to the main function, which is the only other choice that
such a yield allows. -/
theorem AtYield.turns_toMain (hTraced : Traced p done r) (hLawful : AllLawful p done)
    (hLast : Lawful p done a) (hNot : a.taken = false) (hYield : AtYield p r q target label ending)
    {o : Bool} (hAlive : (q.decideWith p done [a.toMain] o target label ending).status ≠ .crashed) :
    ∃ b, At p (q.decideWith p done [a.toMain] o target label ending) (done ++ [b]) [] ∧
      Lawful p done b ∧ Another p done a b := by
  have hPossible := hTraced.possible hLawful
  obtain ⟨r', q', target', label', ending', hOffers⟩ := hLast.offered
  obtain rfl := hOffers.at_yield hPossible hYield
  obtain ⟨rfl, rfl, rfl, rfl⟩ := hYield.unique hOffers.yields
  have hStays : a.visit.target = none := by simp [TransferAction.visit, hNot]
  have hAllowed := hOffers.allowed
  rw [hStays] at hAllowed
  cases hAllowed with
  | @stays desc hCurr hTarget hLabel =>
  subst hTarget
  have hNext : (Scenario.zip .explore done [a.toMain] [] o).getNextAction q.now q.group q.current
      label (some .main) = (.ok (some a.toMain), .zip .explore done [a.toMain] [] o) :=
    getNextAction_known rfl rfl (allHold_nil q.now label)
  have hAt := AtYield.takes hTraced hYield hNext hOffers.source hOffers.name rfl rfl rfl rfl
    (fun _ h => absurd rfl h) hAlive
  have hTo : Offers p (records.choices done) ({ a.toMain with remCount := 0 } :
      TransferAction).visit r q (some .main) label ending :=
    ⟨hPossible, hYield, hOffers.source, hOffers.name, .named (t := .main) rfl⟩
  refine ⟨_, hAt, hTo.lawful (fun _ h => by cases h) fun _ t ht => ?_, hTo.another ?_ ?_ ?_⟩
  · cases ht with
    | stays _ _ _ => exact tried_none _
    | named hSame =>
      obtain rfl := Option.some.inj hSame
      rintro d hd
      obtain rfl := Option.some.inj hd
      exact ⟨rfl, List.mem_singleton_self _⟩
    | any _ hNone _ _ => cases hNone
  -- the main function has not been tried
  · intro hTried
    have hTaken := (hTried MAIN_LABEL rfl).1
    rw [hNot] at hTaken
    cases hTaken
  -- what has been tried before is tried now
  · intro t hTried
    cases t with
    | none => exact tried_none _
    | some d =>
      have hTaken := (hTried d rfl).1
      rw [hNot] at hTaken
      cases hTaken
  -- and nothing else is
  · intro t _ hTried
    cases t with
    | none => exact .inl (tried_none a)
    | some d => exact .inr (congrArg some (List.mem_singleton.mp (hTried d rfl).2))

/-- An action that has gone to a coroutine the main function has not named goes to the next
one, if another one runs that has not been tried. Otherwise all choices of the yield have
been tried, and the execution ends there. -/
theorem AtYield.turns_toOther (hNo : p.NoUntils) (hTraced : Traced p done r)
    (hLawful : AllLawful p done) (hLast : Lawful p done a) (hChoice : a.choice = true)
    {t : String} (hTaken : a.taken = true) (hTarget : a.targetLabel = some t)
    (hYield : AtYield p r q target label ending) {o : Bool}
    (hAlive : (q.decideWith p done [a.toOther t] o target label ending).status ≠ .crashed) :
    (∃ b, At p (q.decideWith p done [a.toOther t] o target label ending) (done ++ [b]) [] ∧
      Lawful p done b ∧ Another p done a b) ∨
    ((q.decideWith p done [a.toOther t] o target label ending).status = .backtracked ∧
      Ends p (q.decideWith p done [a.toOther t] o target label ending) done [a.toOther t] ∧
      ∀ x, (ways p).offers (records.choices done) x → Tried a x.target) := by
  have hPossible := hTraced.possible hLawful
  obtain ⟨r', q', label', ending', hOffers⟩ := hLast.free hTaken hChoice
  obtain rfl := hOffers.at_yield hPossible hYield
  obtain ⟨rfl, rfl, rfl, rfl⟩ := hYield.unique hOffers.yields
  have hMembers := hOffers.memberlist
  have hNodup : q.group.memberlist.Nodup := hMembers ▸ p.nodup
  have hVisit : a.visit.target = some t := by simp [TransferAction.visit, hTaken, hTarget]
  have hAllowed := hOffers.allowed
  rw [hVisit] at hAllowed
  have hCurr : q.current = .main := by
    cases hAllowed with
    | any hCurr _ _ _ => exact hCurr
    | named hNone => cases hNone
  -- what has been tried: the old targets and the last one
  have hTried : ∀ d, Tried a (some d) ↔ d ∈ a.oldTargets ++ [t] := by
    intro d
    constructor
    · intro h
      simpa [hTarget] using (h d rfl).2
    · rintro h d' hd'
      obtain rfl := Option.some.inj hd'
      exact ⟨hTaken, by simpa [hTarget] using h⟩
  have hSome : ∀ {t' : Option String}, Allowed q none label t' →
      ∃ d, t' = some d ∧ d ∈ q.group.memberlist ∧ (q.group.members d).ended = false := by
    intro t' ht'
    cases ht' with
    | stays _ hNone _ => cases hNone
    | named hNone => cases hNone
    | any _ _ hMember hRuns => exact ⟨_, rfl, hMember, hRuns⟩
  cases hNext : q.group.getNextRunning q.current (a.oldTargets ++ [t]) with
  | error e =>
    rw [hCurr, nextRunning_main hNodup] at hNext
    cases hNext
  | ok next =>
    cases next with
    -- no other coroutine is left
    | none =>
      have hAction : (Scenario.zip .explore done [a.toOther t] [] o).getNextAction q.now q.group
          q.current label none =
            (.error .backtrack, .zip .explore done [a.toOther t] [] o) :=
        getNextAction_stuck rfl rfl rfl hNext
      have hError := decideNextTarget_error
        (r := q.inScenario (.zip .explore done [a.toOther t] [] o)) (decide_of_error hAction)
      have hTracks := (hTraced.tracks hNo).move hNo hYield.move
      rw [hCurr] at hNext
      refine .inr ?_
      rw [Run.decideWith, decide_gives_up hError hCurr]
      refine ⟨rfl, ⟨⟨_, hTraced⟩, ⟨o, rfl⟩, hTracks.passed, hTracks.transfers, fun b hb => ?_⟩,
        hOffers.all fun t' ht' => ?_⟩
      · obtain rfl := List.mem_singleton.mp hb
        exact ⟨rfl, rfl⟩
      · obtain ⟨d, rfl, hMember, hRuns⟩ := hSome ht'
        exact (hTried d).mpr (nextRunning_none hNodup hNext d hMember hRuns)
    -- the next one in the round
    | some d =>
      have hAction : (Scenario.zip .explore done [a.toOther t] [] o).getNextAction q.now q.group
          q.current label none = (.ok (some { a.toOther t with targetLabel := some d }),
            .zip .explore done [{ a.toOther t with targetLabel := some d }] [] o) :=
        getNextAction_open rfl rfl rfl hNext
      have hAt := AtYield.takes hTraced hYield hAction hOffers.source hOffers.name rfl rfl rfl rfl
        (fun _ _ => hCurr) hAlive
      rw [hCurr] at hNext
      obtain ⟨hMember, hRuns, hNew⟩ := nextRunning_some hNodup hNext
      have hOther : d ≠ MAIN_LABEL := fun h => p.noMain (h ▸ hMembers ▸ hMember)
      have hTo : Offers p (records.choices done) ({ a.toOther t with
          targetLabel := some d, remCount := 0 } : TransferAction).visit r q none label ending :=
        ⟨hPossible, hYield, hOffers.source, hOffers.name, .any hCurr rfl hMember hRuns⟩
      refine .inl ⟨_, hAt, hTo.lawful (fun _ _ => rfl) fun hFixed => ?_, hTo.another ?_ ?_ ?_⟩
      · exact absurd hFixed (by simp [TransferAction.choice, TransferAction.toOther, TransferAction.make, hOther])
      · exact fun h => hNew ((hTried d).mp h)
      · intro t' h d' hd'
        subst hd'
        exact ⟨rfl, List.mem_append_left _ ((hTried d').mp h)⟩
      · intro t' ht' h
        obtain ⟨d', rfl, -, -⟩ := hSome ht'
        rcases List.mem_append.mp (h d' rfl).2 with hOld | hd'
        · exact .inl ((hTried d').mpr hOld)
        · exact .inr (congrArg some (List.mem_singleton.mp hd'))

/-- **The last choice is made again**, or there is no other one. The action in the record
says which of the two cases it is. -/
theorem AtYield.turns (hNo : p.NoUntils) (hTraced : Traced p done r) (hLawful : AllLawful p done)
    (hLast : Lawful p done a) (hRecorded : Recorded a) (hChoice : a.choice = true)
    (hYield : AtYield p r q target label ending) {o : Bool}
    (hAlive : (q.decideWith p done [a.alternative] o target label ending).status ≠ .crashed) :
    (∃ b, At p (q.decideWith p done [a.alternative] o target label ending) (done ++ [b]) [] ∧
      Lawful p done b ∧ Another p done a b) ∨
    ((q.decideWith p done [a.alternative] o target label ending).status = .backtracked ∧
      Ends p (q.decideWith p done [a.alternative] o target label ending) done [a.alternative] ∧
      ∀ x, (ways p).offers (records.choices done) x → Tried a x.target) := by
  have hAlternative := alternative hRecorded hChoice
  generalize a.alternative = alt at hAlternative hAlive ⊢
  cases hAlternative with
  | toMain hNot => exact .inl (hYield.turns_toMain hTraced hLawful hLast hNot hAlive)
  | toOther hTaken hFree hTarget hMain =>
    exact hYield.turns_toOther hNo hTraced hLawful hLast hChoice hTaken hTarget hAlive

end Counit

end Concurrit.Model
