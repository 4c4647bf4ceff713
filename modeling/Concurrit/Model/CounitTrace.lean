import Concurrit.Model.CounitLockstep

/-!
# Concurrit — the course of an execution

Without conditions, and as long as no label comes twice between two transfers, the actions
before the index are the course of the execution: one action for each yield. `Traced` is a run
along such a list, without a scenario that follows one.

* `Traced.follow` — a scenario that is to take the transfers of a course takes it again, with the
  yields passed between them.
-/

namespace Concurrit.Model

open Function (update)

namespace Counit

variable {σ : Type} {p : Program σ} {r r' r₁ q : Run σ} {s s' : Scenario σ} {e : Raised}
  {target : Option Party} {label : String} {ending : Bool} {n : Nat} {now : σ} {g : Group}
  {curr tgt : Party} {done rest more : List TransferAction} {a : TransferAction}
  {untilOpen : Bool} {d : String}

-- ---------------------------------------------------------------------------
-- Courses
-- ---------------------------------------------------------------------------

/-- The transfers of a course; `i` yields have come before it. -/
def transfersOf : Nat → List TransferAction → List Transfer
  | _, [] => []
  | i, a :: actions =>
    if a.taken then
      ⟨i, a.sourceLabel, a.yieldLabel, a.targetLabel.getD ""⟩ :: transfersOf (i + 1) actions
    else transfersOf (i + 1) actions

/-- The yields that are passed in a course; `i` yields, with `k` transfers, have come before. -/
def passedOf : Nat → Nat → List TransferAction → List Passed
  | _, _, [] => []
  | i, k, a :: actions =>
    if a.taken then passedOf (i + 1) (k + 1) actions
    else ⟨i, a.sourceLabel, a.yieldLabel, k⟩ :: passedOf (i + 1) k actions

/-- The transfers of two lists, one behind the other. -/
theorem transfersOf_append (i : Nat) (xs ys : List TransferAction) :
    transfersOf i (xs ++ ys) = transfersOf i xs ++ transfersOf (i + xs.length) ys := by
  induction xs generalizing i with
  | nil => rfl
  | cons a xs ih =>
    have hLen : i + (a :: xs).length = i + 1 + xs.length := by
      rw [List.length_cons]
      omega
    rw [List.cons_append, transfersOf, transfersOf, ih (i + 1), hLen]
    split <;> rfl

/-- There are as many transfers as actions taken. -/
theorem length_transfersOf (i : Nat) (xs : List TransferAction) :
    (transfersOf i xs).length = xs.countP TransferAction.taken := by
  induction xs generalizing i with
  | nil => rfl
  | cons a xs ih =>
    rw [transfersOf]
    split
    case isTrue h => rw [List.countP_cons_of_pos h, List.length_cons, ih]
    case isFalse h => rw [List.countP_cons_of_neg h, ih]

/-- The passed yields of two lists, the second one counted from where the first one ends. -/
theorem passedOf_append (i k : Nat) (xs ys : List TransferAction) :
    passedOf i k (xs ++ ys) = passedOf i k xs ++
      passedOf (i + xs.length) (k + xs.countP TransferAction.taken) ys := by
  induction xs generalizing i k with
  | nil => rfl
  | cons a xs ih =>
    have hLen : i + (a :: xs).length = i + 1 + xs.length := by
      rw [List.length_cons]
      omega
    rw [List.cons_append, passedOf, passedOf, hLen]
    split
    case isTrue h =>
      have hCount : k + (a :: xs).countP TransferAction.taken =
          k + 1 + xs.countP TransferAction.taken := by
        rw [List.countP_cons_of_pos h]
        omega
      rw [ih, hCount]
    case isFalse h =>
      rw [ih, List.countP_cons_of_neg h]
      rfl

/-- No condition is ever set. -/
def Program.NoUntils (p : Program σ) : Prop :=
  ∀ now g curr condition, p.request now g curr = .until condition → condition = none

theorem Program.NoUntils.run (h : p.NoUntils) (r : Run σ) (condition : Option (Condition σ))
    (hRequest : r.request p = .until condition) : condition = none := by
  unfold Run.request at hRequest
  split at hRequest
  · split at hRequest <;> cases hRequest
  · exact h _ _ _ _ hRequest

/-- A scenario without actions. -/
def Scenario.blank : Scenario σ := ⟨.explore, [], [], 0, false⟩

/-- The run without a scenario, along a course. A yield is passed by a coroutine that might have
gone to the main function. -/
inductive Traced (p : Program σ) : List TransferAction → Run σ → Prop where
  | start : Traced p [] (Run.start p .blank)
  | goesOn {done : List TransferAction} {r r₁ : Run σ} (h : Traced p done r)
      (hRun : r.status = .running) (hMove : r.move p = .goesOn r₁) :
      Traced p done (r₁.inScenario .blank)
  | passes {init : List TransferAction} {x : TransferAction} {r r₁ : Run σ} {desc label : String}
      (h : Traced p (init ++ [x]) r) (hRun : r.status = .running)
      (hMove : r.move p = .yields r₁ (some .main) label false)
      (hCurr : r₁.current = .member desc)
      (hFits : x.targetLabel = some desc ∨ (x.sourceLabel = desc ∧ x.taken = false))
      (hNew : ¬ (x.taken = false ∧ x.yieldLabel = label)) :
      Traced p ((init ++ [x]) ++ [passedYield (.member desc) label (some .main)])
        ((r₁.stays p label).inScenario .blank)
  | goes {done : List TransferAction} {r r₁ : Run σ} {target : Option Party} {label : String}
      {ending : Bool} {a : TransferAction} {d : String} {tgt : Party} (h : Traced p done r)
      (hRun : r.status = .running) (hMove : r.move p = .yields r₁ target label ending)
      (hSource : a.sourceLabel = getDesc r₁.current) (hLabel : a.yieldLabel = label)
      (hTarget : a.targetLabel = some d) (hMember : r₁.group.getMember d = .ok tgt)
      (hOther : tgt ≠ r₁.current) (hEnded : r₁.group.ended tgt = false)
      (hTaken : a.taken = true) (hCount : a.count = 1) (hRem : a.remCount = 0)
      (hFree : a.free = true → d ≠ MAIN_LABEL → r₁.current = .main) :
      Traced p (done ++ [a]) ((r₁.goes p label tgt).inScenario .blank)

/-- What a request does to a scenario without conditions. -/
theorem effect_zip {request : Request σ} (hNo : ∀ c, request = .until c → c = none)
    (done rest : List TransferAction) (untilOpen : Bool) :
    ∃ o, request.effect (Scenario.zip .explore done rest [] untilOpen) =
      Scenario.zip .explore done rest [] o := by
  cases request with
  | «until» condition =>
    obtain rfl := hNo condition rfl
    exact ⟨true, rfl⟩
  | transfer target =>
    refine ⟨false, ?_⟩
    show Scenario.mk _ _ (if untilOpen then [] else []) _ _ = _
    rw [ite_self]
    rfl
  | yield target label => exact ⟨untilOpen, rfl⟩
  | assumeFails => exact ⟨untilOpen, rfl⟩
  | assertFails => exact ⟨untilOpen, rfl⟩
  | returns => exact ⟨untilOpen, rfl⟩

/-- The next move in a scenario without conditions. -/
theorem move_zip (hNo : p.NoUntils) (hPending : r.pending = []) (done rest : List TransferAction)
    (untilOpen : Bool) :
    ∃ o, (r.inScenario (.zip .explore done rest [] untilOpen)).move p =
      (r.move p).inScenario (.zip .explore done rest [] o) := by
  have hTuned : Tuned r (.zip .explore done rest [] untilOpen) := ⟨hPending.symm, .inr hPending⟩
  obtain ⟨o, hEffect⟩ := effect_zip (hNo.run r) done rest untilOpen
  exact ⟨o, hEffect ▸ (move_inScenario hTuned).1⟩

/-- What a course says about the run along it. -/
structure Tracks (done : List TransferAction) (r : Run σ) : Prop where
  scenario : r.scenario = .blank
  yields : r.yields = done.length
  transfers : r.transfers = transfersOf 0 done
  passed : r.passed = passedOf 0 0 done
  pending : r.pending = []
  home : done = [] → r.current = .main
  named : ∀ desc, r.current = .member desc → desc ≠ MAIN_LABEL

theorem pending_move (hNo : p.NoUntils) (hPending : r.pending = []) :
    (r.move p).run.pending = [] := by
  have hTuned : Tuned r (.zip .explore [] [] [] false) := ⟨hPending.symm, .inr hPending⟩
  obtain ⟨o, hEffect⟩ := effect_zip (hNo.run r) [] [] false
  have hUntils := (move_inScenario (p := p) hTuned).2.1.untils
  rw [hEffect] at hUntils
  exact hUntils.symm

/-- A move of the program keeps what the course says about the run. -/
theorem Tracks.move {m : Move σ} (hNo : p.NoUntils) (h : Tracks done r) (hMove : r.move p = m) :
    Tracks done (m.run.inScenario .blank) := by
  subst hMove
  have hKept := kept_move p r
  refine ⟨rfl, hKept.yields.trans h.yields, hKept.transfers.trans h.transfers,
    hKept.passed.trans h.passed, pending_move hNo h.pending, fun hDone => ?_, fun desc hCurr => ?_⟩
  · exact hKept.current.elim (fun hSame => hSame.trans (h.home hDone)) id
  · rcases hKept.current with hSame | hMain
    · exact h.named desc (hSame.symm.trans hCurr)
    · rw [show (r.move p).run.current = .member desc from hCurr] at hMain
      cases hMain

/-- The course of a traced run tells its transfers, its passed yields and their number. -/
theorem Traced.tracks (hNo : p.NoUntils) (h : Traced p done r) : Tracks done r := by
  induction h with
  | start => exact ⟨rfl, rfl, rfl, rfl, rfl, fun _ => rfl, fun desc hCurr => by cases hCurr⟩
  | goesOn _ _ hMove ih => exact ih.move hNo hMove
  | @passes init x r r₁ desc label _ _ hMove hCurr _ _ ih =>
    have hTracks : Tracks (init ++ [x]) (r₁.inScenario .blank) := ih.move hNo hMove
    refine ⟨rfl, ?_, ?_, ?_, rfl, fun hDone => by simp at hDone, hTracks.named⟩
    · rw [List.length_append, ← hTracks.yields]
      rfl
    · rw [transfersOf_append, ← hTracks.transfers]
      exact (List.append_nil _).symm
    · have hCount := length_transfersOf 0 (init ++ [x])
      rw [← hTracks.transfers] at hCount
      rw [passedOf_append, ← hTracks.passed, ← hTracks.yields, ← hCount, Nat.zero_add,
        Nat.zero_add]
      show r₁.passed ++ [⟨r₁.yields, getDesc r₁.current, label, r₁.transfers.length⟩] = _
      rw [hCurr]
      rfl
  | @goes done r r₁ target label ending a d tgt _ _ hMove hSource hLabel hTarget hMember _ _
      hTaken _ _ _ ih =>
    have hTracks : Tracks done (r₁.inScenario .blank) := ih.move hNo hMove
    have hOf : ∀ i, transfersOf i [a] = [⟨i, getDesc r₁.current, label, d⟩] := by
      intro i
      rw [transfersOf, if_pos hTaken, hSource, hLabel, hTarget]
      rfl
    have hDesc := getDesc_of_getMember hMember
    refine ⟨rfl, ?_, ?_, ?_, rfl, fun hDone => by simp at hDone, fun desc hCurr => ?_⟩
    · rw [List.length_append, ← hTracks.yields]
      rfl
    · rw [transfersOf_append, ← hTracks.transfers, hOf, Nat.zero_add, ← hTracks.yields, ← hDesc]
      rfl
    · rw [passedOf_append, ← hTracks.passed, passedOf, if_pos hTaken]
      exact (List.append_nil _).symm
    · obtain rfl : tgt = .member desc := hCurr
      exact ne_main_of_getMember hMember

-- ---------------------------------------------------------------------------
-- Taking a course again
-- ---------------------------------------------------------------------------

/-- An action of another label lets the coroutine go on. -/
theorem decide_passes (hTaken : a.taken = true) (hTarget : a.targetLabel = some d)
    (hSource : a.sourceLabel = getDesc r.current) (hLabel : a.yieldLabel ≠ label)
    {init : List TransferAction} {x : TransferAction} {desc : String}
    (hCurr : r.current = .member desc)
    (hFits : x.targetLabel = some desc ∨ (x.sourceLabel = desc ∧ x.taken = false))
    (hNew : ¬ (x.taken = false ∧ x.yieldLabel = label)) :
    (r.inScenario (.zip .explore (init ++ [x]) (a :: rest) [] untilOpen)).decide p target label
        false =
      (r.stays p label).inScenario (.zip .explore
        ((init ++ [x]) ++ [passedYield (.member desc) label target]) (a :: rest) [] untilOpen) := by
  have hDecide : (Scenario.zip .explore (init ++ [x]) (a :: rest) [] untilOpen).decideNextTarget r.now
      r.group r.current label target =
        (.ok none, .zip .explore (init ++ [x]) (a :: rest) [] untilOpen) := by
    rw [decide_of_action (getNextAction_known hTaken hTarget (allHold_nil _ _)),
      if_neg (not_not.mpr hSource), if_pos (Ne.symm hLabel)]
  have hHead : HeadTaken (a :: rest) := fun b hb => by
    obtain rfl := Option.some.inj hb
    exact hTaken
  have hYield : (Scenario.zip (σ := σ) .explore (init ++ [x]) (a :: rest) [] untilOpen).onYield
      r.current label target = some (.zip .explore
        ((init ++ [x]) ++ [passedYield (.member desc) label target]) (a :: rest) [] untilOpen) := by
    rw [hCurr, onYield_concat hHead]
    exact (if_pos hFits).trans (if_neg hNew)
  exact decide_none (r := r.inScenario (.zip .explore (init ++ [x]) (a :: rest) [] untilOpen))
    hDecide hYield

/-- An action for this yield, whose count is 1, is taken. -/
theorem decide_takes (hNext : (Scenario.zip .explore done rest [] untilOpen).getNextAction r.now
      r.group r.current label target =
        (.ok (some a), .zip .explore done (a :: more) [] untilOpen))
    (hSource : a.sourceLabel = getDesc r.current) (hLabel : a.yieldLabel = label)
    (hRem : a.remCount = 1) (hTarget : a.targetLabel = some d)
    (hMember : r.group.getMember d = .ok tgt) (hOther : tgt ≠ r.current)
    (hEnded : r.group.ended tgt = false) :
    (r.inScenario (.zip .explore done rest [] untilOpen)).decide p target label ending =
      (r.goes p label tgt).inScenario
        (.zip .explore (done ++ [{ a with remCount := 0 }]) more [] untilOpen) := by
  have hDecide : (Scenario.zip .explore done rest [] untilOpen).decideNextTarget r.now r.group
      r.current label target =
        (.ok (some d), .zip .explore (done ++ [{ a with remCount := 0 }]) more [] untilOpen) := by
    rw [decide_of_action hNext, if_neg (not_not.mpr hSource), if_neg (not_not.mpr hLabel.symm),
      if_neg (by omega), if_pos hRem, hTarget]
  have hOn : (Scenario.zip (σ := σ) .explore (done ++ [{ a with remCount := 0 }]) more []
      untilOpen).onTransfer r.current label tgt = true := by
    rw [onTransfer_zip]
    simp [hSource, hLabel, hTarget, getDesc_of_getMember hMember]
  exact decide_some (r := r.inScenario (.zip .explore done rest [] untilOpen)) hDecide hMember
    hOther hEnded hOn

/-- In a course that leads to `c`, a yield that is passed has the source of the next transfer,
and another label. -/
def Apart (course : List TransferAction) (c : TransferAction) : Prop :=
  ∀ before a behind, course = before ++ a :: behind → a.taken = false →
    ∀ b, (takenOf behind ++ [c]).head? = some b →
      b.sourceLabel = a.sourceLabel ∧ b.yieldLabel ≠ a.yieldLabel

/-- **A course is taken again** by a scenario that has its transfers, and the action `c` behind
them. -/
theorem Traced.follow (hNo : p.NoUntils) (h : Traced p done q) {c : TransferAction}
    (hTaken : c.taken = true) (hNone : c.targetLabel = none → c.sourceLabel = MAIN_LABEL)
    (more : List TransferAction) (hApart : Apart (done ++ more) c)
    (hTargets : ∀ a ∈ more, a.taken = true → a.targetLabel ≠ none)
    (untilOpen : Bool) :
    ∃ m o, (Run.start p (.zip .explore [] (takenOf (done ++ more) ++ [c]) [] untilOpen)).after p m =
      q.inScenario (.zip .explore done (takenOf more ++ [c]) [] o) := by
  induction h generalizing more with
  | start => exact ⟨0, untilOpen, rfl⟩
  | @goesOn done r r₁ h hRun hMove ih =>
    obtain ⟨m, o, hAfter⟩ := ih more hApart hTargets
    have hTracks := h.tracks hNo
    obtain ⟨o', hSame⟩ := move_zip hNo hTracks.pending done (takenOf more ++ [c]) o
    refine ⟨m + 1, o', ?_⟩
    rw [hMove] at hSame
    rw [after_succ, hAfter]
    exact step_goesOn hRun hSame
  | @passes init x r r₁ desc label h hRun hMove hCurr hFits hNew ih =>
    have hAssoc := List.append_cons (init ++ [x]) (passedYield (.member desc) label (some .main)) more
    have hRest : takenOf (passedYield (.member desc) label (some .main) :: more) = takenOf more :=
      takenOf_cons _ more
    rw [← hAssoc] at hApart ⊢
    obtain ⟨m, o, hAfter⟩ := ih (passedYield (.member desc) label (some .main) :: more) hApart
      fun a ha hTaken' => by
        rcases List.mem_cons.mp ha with rfl | ha
        · cases hTaken'
        · exact hTargets a ha hTaken'
    rw [hRest] at hAfter
    have hTracks := h.tracks hNo
    obtain ⟨o', hSame⟩ := move_zip hNo hTracks.pending (init ++ [x]) (takenOf more ++ [c]) o
    refine ⟨m + 1, o', ?_⟩
    obtain ⟨b, rest, hHead⟩ : ∃ b rest, takenOf more ++ [c] = b :: rest := by
      cases takenOf more with
      | nil => exact ⟨c, [], rfl⟩
      | cons b rest => exact ⟨b, rest ++ [c], rfl⟩
    obtain ⟨hSource, hLabel⟩ := hApart (init ++ [x]) _ more rfl rfl b (by rw [hHead]; rfl)
    have hName : desc ≠ MAIN_LABEL :=
      hTracks.named desc ((untouched_of_yields hMove).current.symm.trans hCurr)
    have hb : b.taken = true ∧ b.targetLabel ≠ none := by
      have hMem : b ∈ takenOf more ++ [c] := hHead ▸ List.mem_cons_self ..
      rcases List.mem_append.mp hMem with hMem | hMem
      · obtain ⟨a, ha, hTaken', rfl⟩ := mem_takenOf hMem
        exact ⟨hTaken', hTargets a ha hTaken'⟩
      · obtain rfl := List.mem_singleton.mp hMem
        exact ⟨hTaken, fun hNil => hName (hSource.symm.trans (hNone hNil))⟩
    obtain ⟨d, hd⟩ := Option.ne_none_iff_exists'.mp hb.2
    rw [after_succ, hAfter, hHead]
    rw [hMove, hHead] at hSame
    refine (step_yields (r := r.inScenario (.zip .explore (init ++ [x]) (b :: rest) [] o)) hRun
      hSame).trans ?_
    exact decide_passes hb.1 hd (hSource.trans (by rw [hCurr]; rfl)) hLabel hCurr hFits hNew
  | @goes done r r₁ target label ending a d tgt h hRun hMove hSource hLabel hTarget hMember hOther
      hEnded hTaken' hCount hRem hFree ih =>
    have hAssoc := List.append_cons done a more
    have hRest : takenOf (a :: more) = a.reset :: takenOf more := by
      rw [takenOf_cons, if_pos hTaken']
    rw [← hAssoc] at hApart ⊢
    obtain ⟨m, o, hAfter⟩ := ih (a :: more) hApart fun b hb hTaken'' => by
      rcases List.mem_cons.mp hb with rfl | hb
      · rw [hTarget]
        exact Option.some_ne_none d
      · exact hTargets b hb hTaken''
    rw [hRest, List.cons_append] at hAfter
    have hTracks := h.tracks hNo
    obtain ⟨o', hSame⟩ := move_zip hNo hTracks.pending done (a.reset :: (takenOf more ++ [c])) o
    refine ⟨m + 1, o', ?_⟩
    have hAgain : { a.reset with remCount := 0 } = a := by
      rw [← hRem]
      rfl
    have hNext : (Scenario.zip .explore done (a.reset :: (takenOf more ++ [c])) [] o').getNextAction
        r₁.now r₁.group r₁.current label target =
          (.ok (some a.reset), .zip .explore done (a.reset :: (takenOf more ++ [c])) [] o') :=
      getNextAction_known hTaken' hTarget (allHold_nil _ _)
    rw [after_succ, hAfter]
    rw [hMove] at hSame
    refine (step_yields
      (r := r.inScenario (.zip .explore done (a.reset :: (takenOf more ++ [c])) [] o)) hRun
      hSame).trans ?_
    refine (decide_takes hNext hSource hLabel hCount hTarget hMember hOther hEnded).trans ?_
    rw [hAgain]
    rfl

-- ---------------------------------------------------------------------------
-- The actions of a course
-- ---------------------------------------------------------------------------

/-- An action of a course: a transfer, whose target can only be changed if the main function has
made it, or a yield at which a coroutine might have gone to the main function. -/
inductive Recorded (a : TransferAction) : Prop where
  | transfer {d : String} (hTaken : a.taken = true) (hCount : a.count = 1)
      (hTarget : a.targetLabel = some d)
      (hFree : a.free = true → d ≠ MAIN_LABEL → a.sourceLabel = MAIN_LABEL) : Recorded a
  | passed {desc label : String} (hName : desc ≠ MAIN_LABEL)
      (h : a = passedYield (.member desc) label (some .main)) : Recorded a

theorem Recorded.count_eq (h : Recorded a) : a.count = 1 := by
  cases h with
  | transfer _ hCount _ _ => exact hCount
  | passed _ h =>
    rw [h]
    rfl

/-- An action of a course has a target. -/
theorem Recorded.target_ne_none (h : Recorded a) : a.targetLabel ≠ none := by
  cases h with
  | transfer _ _ hTarget _ =>
    rw [hTarget]
    exact Option.some_ne_none _
  | passed _ h =>
    rw [h]
    exact Option.some_ne_none _

/-- The run before the yield of an action of the course. -/
structure Before (p : Program σ) (a : TransferAction) (done : List TransferAction) (r r₁ : Run σ)
    (target : Option Party) (label : String) (ending : Bool) : Prop where
  traced : Traced p done r
  running : r.status = .running
  move : r.move p = .yields r₁ target label ending
  source : a.sourceLabel = getDesc r₁.current
  label : a.yieldLabel = label
  passed : a.taken = false → target = some .main ∧ ∃ desc, r₁.current = .member desc ∧
    desc ≠ MAIN_LABEL
  free : a.taken = true → a.free = true → a.targetLabel ≠ some MAIN_LABEL → r₁.current = .main

/-- The actions of a course are transfers and passed yields as the exploration records them.
-/
theorem Traced.recorded (hNo : p.NoUntils) (h : Traced p done q) : ∀ a ∈ done, Recorded a := by
  induction h with
  | start => exact fun a ha => absurd ha List.not_mem_nil
  | goesOn _ _ _ ih => exact ih
  | @passes init x r r₁ desc label h hRun hMove hCurr _ _ ih =>
    have hName := (h.tracks hNo).named desc ((untouched_of_yields hMove).current.symm.trans hCurr)
    intro a ha
    rcases List.mem_append.mp ha with ha | ha
    · exact ih a ha
    · exact .passed hName (List.mem_singleton.mp ha)
  | @goes done r r₁ target label ending b d tgt _ _ _ hSource _ hTarget _ _ _ hTaken hCount _
      hFree ih =>
    intro a ha
    rcases List.mem_append.mp ha with ha | ha
    · exact ih a ha
    · obtain rfl := List.mem_singleton.mp ha
      refine .transfer hTaken hCount hTarget fun hb hd => ?_
      rw [hSource, hFree hb hd]
      rfl

/-- Every action of a course has been recorded by the run along the course before it. -/
theorem Traced.before (hNo : p.NoUntils) (h : Traced p done q) {before behind : List TransferAction}
    (hSplit : done = before ++ a :: behind) :
    ∃ r r₁ target label ending, Before p a before r r₁ target label ending := by
  induction h generalizing behind with
  | start => simp at hSplit
  | goesOn _ _ _ ih => exact ih hSplit
  | @passes init x r r₁ desc label h hRun hMove hCurr _ _ ih =>
    rcases eq_nil_or_concat behind with rfl | ⟨behind, b, rfl⟩
    · obtain ⟨rfl, hLast⟩ := List.append_inj' hSplit rfl
      obtain rfl := (List.cons.inj hLast).1
      have hName := (h.tracks hNo).named desc ((untouched_of_yields hMove).current.symm.trans hCurr)
      exact ⟨r, r₁, _, label, false, h, hRun, hMove, by rw [hCurr]; rfl, rfl,
        fun _ => ⟨rfl, desc, hCurr, hName⟩, fun hTaken => by cases hTaken⟩
    · rw [← List.cons_append, ← List.append_assoc] at hSplit
      exact ih (List.append_inj' hSplit rfl).1
  | @goes done r r₁ target label ending b d tgt h hRun hMove hSource hLabel hTarget _ _ _ hTaken
      _ _ hFree ih =>
    rcases eq_nil_or_concat behind with rfl | ⟨behind, b', rfl⟩
    · obtain ⟨rfl, hLast⟩ := List.append_inj' hSplit rfl
      obtain rfl := (List.cons.inj hLast).1
      refine ⟨r, r₁, target, label, ending, h, hRun, hMove, hSource, hLabel, fun hNot => ?_,
        fun _ hb hNotMain => hFree hb fun hd => hNotMain (by rw [hTarget, hd])⟩
      rw [hTaken] at hNot
      cases hNot
    · rw [← List.cons_append, ← List.append_assoc] at hSplit
      exact ih (List.append_inj' hSplit rfl).1

end Counit

end Concurrit.Model
