import Concurrit.Model.CounitFile
import Concurrit.Model.CounitMembers
import Concurrit.Model.CounitRecord

/-!
# Concurrit — replay in the Python prototype

`replay` runs the scenario again with the actions that an exploration has left, in memory or in
a file. It follows them by their labels and counts, and asks for the conditions of `until` at
each yield.

* `Repeatable`     — what a recorded run has to do at a yield for its replay to do the same.
* `reproduces_iff` — the replay reproduces the run iff the run is `Repeatable` at each of its
  yields.
-/

namespace Concurrit.Model

open Function (update)

namespace Counit

variable {σ : Type} {p : Program σ} {r r' r₁ q t last : Run σ} {s s' : Scenario σ} {e : Raised}
  {target : Option Party} {label : String} {ending : Bool} {n : Nat} {now : σ} {g : Group}
  {curr tgt : Party} {mode : Mode} {done rest more doneN restN actions : List TransferAction}
  {a b : TransferAction} {untils : List (Condition σ)} {untilOpen : Bool} {d : String}

/-- At its next yield the run does what the actions say: the conditions set since the yield
before hold, and if control stays, then the action for the next transfer is one of the party, at
another label or at a later visit. -/
def Repeatable (p : Program σ) (actions : List TransferAction) (r : Run σ) : Prop :=
  r.status = .running → ∀ q target label ending, r.move p = .yields q target label ending →
    AllHold q.pending q.now label ∧
      ((r.step p).transfers = r.transfers → ∃ a, actions[r.transfers.length]? = some a ∧
        a.sourceLabel = getDesc q.current ∧ (a.yieldLabel = label → r.visits label + 1 < a.count))

-- ---------------------------------------------------------------------------
-- The replay in step
-- ---------------------------------------------------------------------------

/-- The action, when its yield has been passed `n` times. -/
def TransferAction.visited (a : TransferAction) (n : Nat) : TransferAction :=
  { a with remCount := a.remCount - n }

theorem visited_source (a : TransferAction) (n : Nat) : (a.visited n).sourceLabel = a.sourceLabel := rfl

theorem visited_label (a : TransferAction) (n : Nat) : (a.visited n).yieldLabel = a.yieldLabel := rfl

theorem visited_rem (a : TransferAction) (n : Nat) : (a.visited n).remCount = a.remCount - n := rfl

theorem visited_again (a : TransferAction) (n : Nat) :
    { a.visited n with remCount := (a.visited n).remCount - 1 } = a.visited (n + 1) := by
  unfold TransferAction.visited
  dsimp only
  rw [Nat.sub_sub]

/-- The actions that are left, when the labels have been visited. -/
def due (visits : String → Nat) : List TransferAction → List TransferAction
  | [] => []
  | a :: more => a.visited (visits a.yieldLabel) :: more

theorem due_zero (actions : List TransferAction) : due (fun _ => 0) actions = actions := by
  cases actions <;> rfl

section

variable {visits : String → Nat}

/-- The next action is not due: the scenario counts the visit and lets control stay. -/
theorem decide_due_passes (hTaken : b.taken = true) (hTarget : b.targetLabel = some d)
    (hHold : AllHold untils now label) (hSource : b.sourceLabel = getDesc curr)
    (hLater : b.yieldLabel = label → visits label + 1 < b.remCount) :
    (Scenario.zip mode done (due visits (b :: more)) untils untilOpen).decideNextTarget now g curr
      label target = (.ok none, .zip mode done
        (due (fun l => visits l + if label = l then 1 else 0) (b :: more)) [] untilOpen) := by
  have hTaken' : (b.visited (visits b.yieldLabel)).taken = true := hTaken
  rw [due, due, decide_known hTaken' hTarget hHold, visited_again,
    if_neg (not_not.mpr ((visited_source ..).trans hSource))]
  by_cases hLabel : label = b.yieldLabel
  · have hMore := hLater hLabel.symm
    have hRem := visited_rem b (visits b.yieldLabel)
    rw [if_neg (not_not.mpr (hLabel.trans (visited_label ..).symm)), if_neg (by rw [hLabel] at hMore; omega),
      if_neg (by rw [hLabel] at hMore; omega), if_pos hLabel]
  · have hOther : label ≠ (b.visited (visits b.yieldLabel)).yieldLabel := hLabel
    rw [if_pos hOther, if_neg hLabel, Nat.add_zero]

/-- The next action is due. -/
theorem decide_due_takes (hTaken : b.taken = true) (hTarget : b.targetLabel = some d)
    (hHold : AllHold untils now label) (hSource : b.sourceLabel = getDesc curr)
    (hLabel : b.yieldLabel = label) (hDue : b.remCount = visits label + 1) :
    (Scenario.zip mode done (due visits (b :: more)) untils untilOpen).decideNextTarget now g curr
      label target =
        (.ok (some d), .zip mode (done ++ [{ b with remCount := 0 }]) more [] untilOpen) := by
  have hTaken' : (b.visited (visits b.yieldLabel)).taken = true := hTaken
  have hRem := visited_rem b (visits b.yieldLabel)
  subst hLabel
  rw [due, decide_known hTaken' hTarget hHold, if_neg (not_not.mpr ((visited_source ..).trans hSource)),
    if_neg (not_not.mpr (visited_label ..).symm), if_neg (by omega), if_pos (by omega), ← hTarget]
  rfl

end

theorem drop_of_getElem? {i : Nat} (h : actions[i]? = some a) :
    actions.drop i = a :: actions.drop (i + 1) := by
  obtain ⟨hLt, hGet⟩ := List.getElem?_eq_some_iff.mp h
  rw [List.drop_eq_getElem_cons hLt, hGet]

/-- The run `t` replays the actions and has come as far as `r`, whose list has `done` before the
index. -/
structure InStep (mode : Mode) (actions : List TransferAction) (r : Run σ)
    (done : List TransferAction) (t : Run σ) : Prop where
  same : ∃ done' untils untilOpen,
    t = r.inScenario (.zip mode done' (due r.visits (actions.drop r.transfers.length)) untils
      untilOpen) ∧
    Tuned r (.zip mode done' (due r.visits (actions.drop r.transfers.length)) untils untilOpen) ∧
    (mode = .explore → SameLast done done')
  ahead : ∀ a, actions[r.transfers.length]? = some a → r.visits a.yieldLabel < a.remCount

theorem InStep.status (h : InStep mode actions r done t) : t.status = r.status := by
  obtain ⟨_, _, _, rfl, -, -⟩ := h.same
  rfl

/-- The replay makes the same move: the moves of the main function and of the coroutines ask
the scenario for nothing but its untils. -/
theorem InStep.move {m : Move σ} (h : InStep mode actions r done t) (hMove : r.move p = m) :
    ∃ done' untils untilOpen,
      t.move p = m.inScenario (.zip mode done' (due r.visits (actions.drop r.transfers.length)) untils
        untilOpen) ∧
      Tuned m.run (.zip mode done' (due r.visits (actions.drop r.transfers.length)) untils
        untilOpen) ∧
      (mode = .explore → SameLast done done') := by
  obtain ⟨done', untils, untilOpen, rfl, hTuned, hSame⟩ := h.same
  obtain ⟨untils', untilOpen', hEffect⟩ := effect_zip_any (r.request p) mode done'
    (due r.visits (actions.drop r.transfers.length)) untils untilOpen
  obtain ⟨hMove', hTuned', -⟩ := move_inScenario (p := p) hTuned
  rw [hEffect] at hMove' hTuned'
  subst hMove
  exact ⟨done', untils', untilOpen', hMove', hTuned', hSame⟩

/-- A step of the program without a yield keeps both runs in step. -/
theorem InStep.goesOn (h : InStep mode actions r done t) (hRun : r.status = .running)
    (hMove : r.move p = .goesOn q) (hKept : Untouched r q) :
    InStep mode actions q done (t.step p) := by
  obtain ⟨done', untils, untilOpen, hMove', hTuned, hSame⟩ := h.move hMove
  have hVisits : q.visits = r.visits := funext hKept.visits
  rw [step_goesOn (h.status.trans hRun) hMove']
  refine ⟨⟨done', untils, untilOpen, ?_, ?_, hSame⟩, fun a ha => ?_⟩
  · rw [hVisits, hKept.transfers]
  · rw [hVisits, hKept.transfers]
    exact hTuned
  · rw [hVisits]
    exact h.ahead a (hKept.transfers ▸ ha)

/-- **A yield that is passed** by the run is passed by the replay, if its action is not due:
it is for another label, or for a later visit. -/
theorem InStep.passes {done₁ : List TransferAction} (h : InStep mode actions r done t)
    (hRun : r.status = .running) (hMove : r.move p = .yields q target label false)
    (hAlike : PassedAlike q.current label target done done₁ σ)
    (hHold : AllHold q.pending q.now label) (hNext : actions[r.transfers.length]? = some b)
    (hTaken : b.taken = true) (hTarget : b.targetLabel = some d)
    (hSource : b.sourceLabel = getDesc q.current)
    (hLater : b.yieldLabel = label → r.visits label + 1 < b.remCount) :
    InStep mode actions ((q.stays p label).inScenario s) done₁ (t.step p) := by
  obtain ⟨done', untils, untilOpen, hMove', hTuned, hSame⟩ := h.move hMove
  have hKept := untouched_of_yields hMove
  have hVisits : ((q.stays p label).inScenario s).visits =
      fun l => r.visits l + if label = l then 1 else 0 := by
    funext l
    rw [visits_stays, hKept.visits]
  have hTransfers : ((q.stays p label).inScenario s).transfers = r.transfers := hKept.transfers
  rw [drop_of_getElem? hNext] at hMove' hTuned
  have hUntils : untils = q.pending := hTuned.untils
  subst hUntils
  -- the scenario counts the visit
  have hDecide : (Scenario.zip mode done' (due r.visits (b :: actions.drop (r.transfers.length + 1)))
      q.pending untilOpen).decideNextTarget q.now q.group q.current label target =
        (.ok none, .zip mode done' (due ((q.stays p label).inScenario s).visits
          (b :: actions.drop (r.transfers.length + 1))) [] untilOpen) := by
    rw [hVisits]
    exact decide_due_passes hTaken hTarget hHold hSource hLater
  have hHead : HeadTaken (due ((q.stays p label).inScenario s).visits
      (b :: actions.drop (r.transfers.length + 1))) := by
    intro c hc
    obtain rfl := Option.some.inj hc
    exact hTaken
  obtain ⟨done₁', hYield, hSame'⟩ := hAlike mode done' _ [] untilOpen hSame hHead
  -- the step of the replay, and the actions still to come
  refine ⟨⟨done₁', [], untilOpen, ?_, ⟨rfl, .inr rfl⟩, hSame'⟩, fun c hc => ?_⟩
  · rw [step_yields (h.status.trans hRun) hMove', hTransfers, drop_of_getElem? hNext]
    exact decide_none (r := q.inScenario (.zip mode done' _ q.pending untilOpen)) hDecide hYield
  · rw [hTransfers, hNext] at hc
    obtain rfl := Option.some.inj hc
    have hAhead := h.ahead b hNext
    rw [hVisits]
    dsimp only
    -- a visit at the label of the next action is counted, another one is not
    by_cases hLabel : label = b.yieldLabel
    · subst hLabel
      have hMore := hLater rfl
      rw [if_pos rfl]
      exact hMore
    · rw [if_neg hLabel, Nat.add_zero]
      exact hAhead

theorem visits_goes_eq (hKept : Untouched r q) (hPast : ∀ y ∈ r.passed, y.after ≤ r.transfers.length)
    (s : Scenario σ) (label : String) (target : Party) :
    ((q.goes p label target).inScenario s).visits = fun _ => 0 := by
  have hPast' : ∀ y ∈ q.passed, y.after ≤ q.transfers.length := by
    rw [hKept.passed, hKept.transfers]
    exact hPast
  exact funext (visits_goes hPast' s label target)

/-- **A transfer of the run** is one of the replay, if its action is due. The counters of
visits start again with the transfer, in the run as in the replay. -/
theorem InStep.takes (h : InStep mode actions r done t) (hRun : r.status = .running)
    (hMove : r.move p = .yields q target label ending)
    (hPast : ∀ y ∈ r.passed, y.after ≤ r.transfers.length)
    (hMember : q.group.getMember d = .ok tgt) (hOther : tgt ≠ q.current)
    (hEnded : q.group.ended tgt = false) (hHold : AllHold q.pending q.now label)
    (hNext : actions[r.transfers.length]? = some b) (hTaken : b.taken = true)
    (hTarget : b.targetLabel = some d) (hSource : b.sourceLabel = getDesc q.current)
    (hLabel : b.yieldLabel = label) (hDue : b.remCount = r.visits label + 1) (hKey : a.key = b.key)
    (hPos : ∀ c ∈ actions, 0 < c.remCount) :
    InStep mode actions ((q.goes p label tgt).inScenario s) (done ++ [a]) (t.step p) := by
  obtain ⟨done', untils, untilOpen, hMove', hTuned, hSame⟩ := h.move hMove
  have hKept := untouched_of_yields hMove
  have hVisits : ((q.goes p label tgt).inScenario s).visits = fun _ => 0 :=
    visits_goes_eq hKept hPast s label tgt
  have hLength : ((q.goes p label tgt).inScenario s).transfers.length = r.transfers.length + 1 := by
    show (q.goes p label tgt).transfers.length = _
    rw [transfers_goes, List.length_append, List.length_singleton, hKept.transfers]
  rw [drop_of_getElem? hNext] at hMove' hTuned
  have hUntils : untils = q.pending := hTuned.untils
  subst hUntils
  have hDecide : (Scenario.zip mode done' (due r.visits (b :: actions.drop (r.transfers.length + 1)))
      q.pending untilOpen).decideNextTarget q.now q.group q.current label target =
        (.ok (some d), .zip mode (done' ++ [{ b with remCount := 0 }])
          (actions.drop (r.transfers.length + 1)) [] untilOpen) :=
    decide_due_takes hTaken hTarget hHold hSource hLabel hDue
  have hOn : (Scenario.zip (σ := σ) mode (done' ++ [{ b with remCount := 0 }])
      (actions.drop (r.transfers.length + 1)) [] untilOpen).onTransfer q.current label tgt = true := by
    rw [onTransfer_zip]
    simp [hSource, hLabel, hTarget, getDesc_of_getMember hMember]
  refine ⟨⟨done' ++ [{ b with remCount := 0 }], [], untilOpen, ?_, ⟨rfl, .inr rfl⟩,
    fun _ => sameLast_concat hKey⟩, fun c hc => ?_⟩
  · rw [step_yields (h.status.trans hRun) hMove', hVisits, due_zero, hLength]
    exact decide_some (r := q.inScenario (.zip mode done' _ q.pending untilOpen)) hDecide hMember hOther
      hEnded hOn
  · rw [hVisits]
    exact hPos c (List.mem_of_getElem? hc)

-- ---------------------------------------------------------------------------
-- The list of the recorded run
-- ---------------------------------------------------------------------------

/-- The list to replay is the recorded one, as far as following it goes. -/
structure Copies (actions recorded : List TransferAction) : Prop where
  alike : List.Forall₂ TransferAction.Alike actions recorded
  reset : ∀ a ∈ recorded, a.taken = true ∧ a.remCount = a.count
  count : ∀ a ∈ recorded, a.count ≠ 0

/-- The actions to replay are copies of the recorded ones, with the recorded counts ahead.
-/
theorem Copies.getElem? {recorded : List TransferAction} (h : Copies actions recorded) {i : Nat}
    (ha : recorded[i]? = some a) : ∃ b, actions[i]? = some b ∧ b.Alike a ∧ b.remCount = a.count ∧
      b.taken = true := by
  have hMem := List.mem_of_getElem? ha
  obtain ⟨hLt, hGet⟩ := List.getElem?_eq_some_iff.mp ha
  have hLength := h.alike.length_eq
  have hAlike := List.Forall₂.get h.alike (hLength ▸ hLt) hLt
  simp only [List.get_eq_getElem, hGet] at hAlike
  obtain ⟨hTaken, hReset⟩ := h.reset a hMem
  exact ⟨actions[i], List.getElem?_eq_getElem (hLength ▸ hLt), hAlike,
    hAlike.2.2.2.1.trans hReset, hAlike.2.2.2.2.trans hTaken⟩

/-- Every counter is above zero at the beginning of a replay. -/
theorem Copies.pos {recorded : List TransferAction} (h : Copies actions recorded) :
    ∀ b ∈ actions, 0 < b.remCount := by
  obtain ⟨hAlike, hReset, hCount⟩ := h
  induction hAlike with
  | nil => exact fun b hb => absurd hb List.not_mem_nil
  | @cons b a actions recorded hSame _ ih =>
    obtain ⟨hResetHere, hResetMore⟩ := List.forall_mem_cons.mp hReset
    obtain ⟨hCountHere, hCountMore⟩ := List.forall_mem_cons.mp hCount
    refine List.forall_mem_cons.mpr ⟨?_, ih hResetMore hCountMore⟩
    rw [hSame.2.2.2.1, hResetHere.2]
    exact Nat.pos_of_ne_zero hCountHere

theorem getElem?_of_prefix {α : Type} {xs ys : List α} {x : α} (h : xs ++ [x] <+: ys) :
    ys[xs.length]? = some x := by
  obtain ⟨more, rfl⟩ := h
  rw [List.append_assoc, List.getElem?_append_right (Nat.le_refl _), Nat.sub_self]
  rfl

/-- The action of a transfer, in the list that is recorded in the end. -/
theorem RecRun.next_takes {rest' : List TransferAction} (hRec : Recording r done rest)
    (hTakes : TakesNext curr label rest a d rest')
    (hMore : RecRun p last doneN restN r' (done ++ [a]) rest') :
    (takenOf (doneN ++ restN))[r.transfers.length]? = some a.reset := by
  have hPrefix := hMore.taken
  rw [hTakes.takenOf_concat done hRec.taken] at hPrefix
  rw [← hRec.transfers]
  exact getElem?_of_prefix hPrefix

/-- The next action, where a yield has been passed with actions left. -/
theorem RecRun.next_head (h : RecRun p last doneN restN r done rest) (hRest : rest = a :: more)
    (hTarget : a.targetLabel = some d) :
    (takenOf (doneN ++ restN))[r.transfers.length]? = some a.reset := by
  rw [← h.recording.transfers]
  exact getElem?_of_prefix (h.head hRest hTarget)

/-- The next action has a target, once a yield has been passed. -/
theorem RecRun.next_target {rest' : List TransferAction} (hOver : PassesOver curr label rest rest')
    (h : RecRun p last doneN restN r done rest')
    (ha : (takenOf (doneN ++ restN))[r.transfers.length]? = some a) : a.targetLabel ≠ none := by
  cases hOver with
  | nil _ =>
    rw [h.nil rfl, List.append_nil] at ha
    exact h.recordingLast.targets a (List.mem_of_getElem? ha)
  | cons _ _ _ =>
    rw [h.next_head rfl rfl] at ha
    obtain rfl := Option.some.inj ha
    exact Option.some_ne_none _

-- ---------------------------------------------------------------------------
-- Recorded and replayed steps
-- ---------------------------------------------------------------------------

/-- **The replay of a repeatable step.** The replay does what the run has done, a yield that
was passed or a transfer, with the next action of the list deciding which. -/
theorem InStep.step {done' rest' : List TransferAction} (h : InStep mode actions r done t)
    (hRun : r.status = .running) (hNext : r.step p = r') (hRec : Recording r done rest)
    (hStep : RecStep p r done rest r' done' rest') (hMore : RecRun p last doneN restN r' done' rest')
    (hCopies : Copies actions (takenOf (doneN ++ restN)))
    (hRep : Repeatable p (takenOf (doneN ++ restN)) r) : InStep mode actions r' done' (t.step p) := by
  cases hStep with
  | goesOn hMove hSame => exact h.goesOn hRun hMove hSame
  -- control has stayed
  | @passes q target label s _ _ hMove hSame hOver hTaken hAlike =>
    obtain ⟨hHold, hStay⟩ := hRep hRun q target label false hMove
    obtain ⟨a, ha, hSource, hLater⟩ := hStay (by rw [hNext]; exact hSame.transfers)
    have hTransfers : ((q.stays p label).inScenario s).transfers = r.transfers := hSame.transfers
    have hTarget : a.targetLabel ≠ none := hMore.next_target hOver (by rw [hTransfers]; exact ha)
    obtain ⟨d, hd⟩ := Option.ne_none_iff_exists'.mp hTarget
    obtain ⟨b, hb, ⟨hSameSource, hSameLabel, hSameTarget, -, -⟩, hCount, hTaken'⟩ :=
      hCopies.getElem? ha
    refine h.passes hRun hMove hAlike hHold hb hTaken' (hSameTarget.trans hd)
      (hSameSource.trans hSource) fun hLabel => ?_
    rw [hCount]
    exact hLater (hSameLabel.symm.trans hLabel)
  -- control has been handed over
  | @takes q target label d ending s a _ tgt hMove hSame hTakes hMember hOther hEnded =>
    obtain ⟨hHold, -⟩ := hRep hRun q target label ending hMove
    obtain ⟨b, hb, ⟨hSource, hLabel, hTarget, -, hSameTaken⟩, hCount, hTaken'⟩ :=
      hCopies.getElem? (hMore.next_takes hRec hTakes)
    obtain ⟨hSource', hLabel', hTarget', -⟩ := hTakes.action
    -- the action is due: it has been followed to its last visit, or it is new and there has
    -- been none
    have hDue : b.remCount = r.visits label + 1 := by
      rw [hCount]
      cases hTakes with
      | next _ hFirst hRem _ =>
        have hHead := hRec.head _ _ rfl
        rw [hFirst, hRem] at hHead
        exact hHead.symm.trans (Nat.add_comm ..)
      | new d free =>
        have hAhead := h.ahead b hb
        rw [hLabel, hCount] at hAhead
        change r.visits label < 1 at hAhead
        show 1 = r.visits label + 1
        omega
    have hKey : a.key = b.key := by
      unfold TransferAction.key
      rw [hSource, hLabel, hTarget, hSameTaken]
      rfl
    exact h.takes hRun hMove hRec.past hMember hOther hEnded hHold hb hTaken'
      (hTarget.trans hTarget') (hSource.trans hSource') (hLabel.trans hLabel') hDue hKey hCopies.pos

/-- Every step that comes to a yield counts it. -/
theorem RecStep.yields {done' rest' : List TransferAction} (h : RecStep p r done rest r' done' rest')
    (hMove : r.move p = .yields q target label ending) : r'.yields = r.yields + 1 := by
  have hKept := untouched_of_yields hMove
  rw [← hKept.yields]
  cases h with
  | goesOn hMove' _ =>
    rw [hMove] at hMove'
    cases hMove'
  | passes hMove' _ _ _ _ =>
    rw [hMove] at hMove'
    cases hMove'
    rfl
  | takes hMove' _ _ _ _ _ =>
    rw [hMove] at hMove'
    cases hMove'
    rfl

/-- A scenario that an execution of the exploration starts with. -/
structure Scenario.Fresh (s : Scenario σ) : Prop where
  mode : s.mode = .explore
  index : s.index = 0
  untils : s.untils = []
  actions : ∀ a ∈ s.actions, a.taken = true ∧ a.remCount = a.count

/-- At the beginning of an execution nothing has been taken, and the actions to follow are
all ahead. -/
theorem Scenario.Fresh.recording (h : s.Fresh) : Recording (Run.start p s) [] s.actions where
  zipped := ⟨[], s.untilOpen, by
    obtain ⟨mode, actions, untils, index, untilOpen⟩ := s
    obtain ⟨rfl, rfl, rfl, -⟩ := h
    rfl⟩
  taken a ha := (h.actions a ha).1
  targets _ ha := absurd ha List.not_mem_nil
  transfers := rfl
  past _ hy := absurd hy List.not_mem_nil
  head a more hRest := (h.actions a (by simp [hRest])).2
  tail a more hRest b hb := (h.actions b (by simp [hRest, hb])).2

end Counit

end Concurrit.Model
