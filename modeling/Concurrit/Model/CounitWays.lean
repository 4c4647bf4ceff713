import Mathlib.Logic.Relation
import Concurrit.Lib.Choices
import Concurrit.Model.CounitForall
import Concurrit.Model.CounitMembers
import Concurrit.Model.RoundRobin

/-!
# Concurrit — the executions that the Python prototype could perform

Without a scenario that decides, control may go on or stay at each yield of a coroutine towards
the main function, and may go to any running coroutine where the main function names none.
`Possible` are the executions that come about so.

* `ways` — the tree of their choices, for the search of `Choices`.
-/

namespace Concurrit.Model

open Function (update)

namespace Counit

variable {σ : Type} {p : Program σ} {r r' r₁ q q' : Run σ} {target target' : Option Party}
  {label label' : String} {ending ending' : Bool} {g : Group} {tgt : Party} {a c : TransferAction}
  {d : String}

-- ---------------------------------------------------------------------------
-- Possible executions
-- ---------------------------------------------------------------------------

/-- A choice at a yield: where control goes, or that it stays. -/
structure Visit where
  source : String
  label : String
  target : Option String
deriving DecidableEq

/-- Where control may go at a yield; `none` if it may stay. -/
inductive Allowed (q : Run σ) (target : Option Party) (label : String) : Option String → Prop where
  | stays {desc : String} (hCurr : q.current = .member desc) (hTarget : target = some .main)
      (hLabel : label ≠ ENDING_LABEL) : Allowed q target label none
  | named {t : Party} (hTarget : target = some t) : Allowed q target label (some (getDesc t))
  | any {d : String} (hCurr : q.current = .main) (hTarget : target = none)
      (hMember : d ∈ q.group.memberlist) (hRuns : (q.group.members d).ended = false) :
      Allowed q target label (some d)

/-- An execution and its choices. The main function gives up where it names no coroutine and all
have ended. -/
inductive Possible (p : Program σ) : List Visit → Run σ → Prop where
  | start : Possible p [] (Run.start p .blank)
  | goesOn {visits : List Visit} {r r₁ : Run σ} (h : Possible p visits r)
      (hRun : r.status = .running) (hMove : r.move p = .goesOn r₁) :
      Possible p visits (r₁.inScenario .blank)
  | stays {visits : List Visit} {r r₁ : Run σ} {target : Option Party} {label : String}
      (h : Possible p visits r) (hRun : r.status = .running)
      (hMove : r.move p = .yields r₁ target label false) (hAllowed : Allowed r₁ target label none) :
      Possible p (visits ++ [⟨getDesc r₁.current, label, none⟩])
        ((r₁.stays p label).inScenario .blank)
  | goes {visits : List Visit} {r r₁ : Run σ} {target : Option Party} {label : String}
      {ending : Bool} {d : String} {tgt : Party} (h : Possible p visits r)
      (hRun : r.status = .running) (hMove : r.move p = .yields r₁ target label ending)
      (hAllowed : Allowed r₁ target label (some d)) (hMember : r₁.group.getMember d = .ok tgt)
      (hOther : tgt ≠ r₁.current) (hEnded : r₁.group.ended tgt = false) :
      Possible p (visits ++ [⟨getDesc r₁.current, label, some d⟩])
        ((r₁.goes p label tgt).inScenario .blank)
  | nobody {visits : List Visit} {r r₁ : Run σ} {label : String} {ending : Bool}
      (h : Possible p visits r) (hRun : r.status = .running)
      (hMove : r.move p = .yields r₁ none label ending) (hCurr : r₁.current = .main)
      (hAll : r₁.group.allEnded = true) :
      Possible p visits ((r₁.stop .backtracked).inScenario .blank)

-- ---------------------------------------------------------------------------
-- What a run does between two choices
-- ---------------------------------------------------------------------------

/-- The run has come to a yield. -/
structure AtYield (p : Program σ) (r q : Run σ) (target : Option Party) (label : String)
    (ending : Bool) : Prop where
  running : r.status = .running
  move : r.move p = .yields q target label ending

theorem AtYield.unique (h : AtYield p r q target label ending)
    (h' : AtYield p r q' target' label' ending') :
    q = q' ∧ target = target' ∧ label = label' ∧ ending = ending' := by
  have hSame := h.move.symm.trans h'.move
  cases hSame
  exact ⟨rfl, rfl, rfl, rfl⟩

/-- A step that is not a choice. -/
inductive Silent (p : Program σ) (r : Run σ) : Run σ → Prop where
  | goesOn {r₁ : Run σ} (hRun : r.status = .running) (hMove : r.move p = .goesOn r₁) :
      Silent p r (r₁.inScenario .blank)
  | nobody {r₁ : Run σ} {label : String} {ending : Bool} (hYield : AtYield p r r₁ none label ending)
      (hCurr : r₁.current = .main) (hAll : r₁.group.allEnded = true) :
      Silent p r ((r₁.stop .backtracked).inScenario .blank)

/-- Steps without a decision are determined. -/
theorem Silent.unique (h : Silent p r q) (h' : Silent p r q') : q = q' := by
  cases h with
  | goesOn hRun hMove =>
    cases h' with
    | goesOn hRun' hMove' =>
      cases hMove.symm.trans hMove'
      rfl
    | nobody hYield _ _ => cases hMove.symm.trans hYield.move
  | nobody hYield _ _ =>
    cases h' with
    | goesOn _ hMove => cases hMove.symm.trans hYield.move
    | nobody hYield' _ _ =>
      obtain ⟨rfl, -, -, -⟩ := hYield.unique hYield'
      rfl

/-- No step of the run is without a choice. -/
def Stuck (p : Program σ) (r : Run σ) : Prop := ∀ q, ¬ Silent p r q

theorem stuck_of_ended (h : r.status ≠ .running) : Stuck p r := by
  intro q hSilent
  cases hSilent with
  | goesOn hRun _ => exact h hRun
  | nobody hYield _ _ => exact h hYield.running

/-- At a yield where control may go somewhere there is no step without a choice. -/
theorem AtYield.stuck (h : AtYield p r q target label ending) {x : Option String}
    (hAllowed : Allowed q target label x) : Stuck p r := by
  intro r' hSilent
  cases hSilent with
  | goesOn _ hMove => cases h.move.symm.trans hMove
  | nobody hYield _ hAll =>
    obtain ⟨rfl, rfl, -, -⟩ := h.unique hYield
    cases hAllowed with
    | stays _ hTarget _ => cases hTarget
    | named hTarget => cases hTarget
    | any _ _ hMember hRuns =>
      have hEnded := List.all_eq_true.mp hAll _ hMember
      rw [hRuns] at hEnded
      cases hEnded

/-- Steps without a choice lead to one run only in which a choice is needed. -/
theorem unique_of_stuck (h : Relation.ReflTransGen (Silent p) r q)
    (h' : Relation.ReflTransGen (Silent p) r q') (hStuck : Stuck p q) (hStuck' : Stuck p q') :
    q = q' := by
  have hUnique : Relator.RightUnique (Silent p) := fun _ _ _ => Silent.unique
  have hTotal := Relation.ReflTransGen.total_of_right_unique hUnique h h'
  rcases hTotal with h | h
  · rcases h.cases_head with rfl | ⟨_, hStep, _⟩
    · rfl
    · exact absurd hStep (hStuck _)
  · rcases h.cases_head with rfl | ⟨_, hStep, _⟩
    · rfl
    · exact absurd hStep (hStuck' _)

-- ---------------------------------------------------------------------------
-- The choices determine the execution
-- ---------------------------------------------------------------------------

/-- The run right after the last of the choices. -/
inductive Entry (p : Program σ) : List Visit → Run σ → Prop where
  | start : Entry p [] (Run.start p .blank)
  | stays {visits : List Visit} {r r₁ : Run σ} {target : Option Party} {label : String}
      (h : Possible p visits r) (hYield : AtYield p r r₁ target label false)
      (hAllowed : Allowed r₁ target label none) :
      Entry p (visits ++ [⟨getDesc r₁.current, label, none⟩]) ((r₁.stays p label).inScenario .blank)
  | goes {visits : List Visit} {r r₁ : Run σ} {target : Option Party} {label : String}
      {ending : Bool} {d : String} {tgt : Party} (h : Possible p visits r)
      (hYield : AtYield p r r₁ target label ending) (hAllowed : Allowed r₁ target label (some d))
      (hMember : r₁.group.getMember d = .ok tgt) :
      Entry p (visits ++ [⟨getDesc r₁.current, label, some d⟩])
        ((r₁.goes p label tgt).inScenario .blank)

/-- A possible run comes from the run right after its last choice, by steps without one. -/
theorem Possible.entry {visits : List Visit} (h : Possible p visits r) :
    ∃ e, Entry p visits e ∧ Relation.ReflTransGen (Silent p) e r := by
  induction h with
  | start => exact ⟨_, .start, .refl⟩
  | goesOn _ hRun hMove ih =>
    obtain ⟨e, hEntry, hSilent⟩ := ih
    exact ⟨e, hEntry, hSilent.tail (.goesOn hRun hMove)⟩
  | stays h hRun hMove hAllowed _ => exact ⟨_, .stays h ⟨hRun, hMove⟩ hAllowed, .refl⟩
  | goes h hRun hMove hAllowed hMember _ _ _ =>
    exact ⟨_, .goes h ⟨hRun, hMove⟩ hAllowed hMember, .refl⟩
  | nobody _ hRun hMove hCurr hAll ih =>
    obtain ⟨e, hEntry, hSilent⟩ := ih
    exact ⟨e, hEntry, hSilent.tail (.nobody ⟨hRun, hMove⟩ hCurr hAll)⟩

/-- A choice is made at the only yield that the choices before it lead to. -/
theorem Entry.last {visits : List Visit} {x : Visit} {e : Run σ} (h : Entry p (visits ++ [x]) e) :
    ∃ r q target label ending, Possible p visits r ∧ AtYield p r q target label ending ∧
      Allowed q target label x.target ∧
      ((x.target = none ∧ e = (q.stays p label).inScenario .blank) ∨
        ∃ d tgt, x.target = some d ∧ q.group.getMember d = .ok tgt ∧
          e = (q.goes p label tgt).inScenario .blank) := by
  generalize hVisits : visits ++ [x] = all at h
  cases h with
  | start => simp at hVisits
  | stays h hYield hAllowed =>
    obtain ⟨rfl, hx⟩ := List.append_inj' hVisits rfl
    obtain rfl := (List.cons.inj hx).1
    exact ⟨_, _, _, _, _, h, hYield, hAllowed, .inl ⟨rfl, rfl⟩⟩
  | goes h hYield hAllowed hMember =>
    obtain ⟨rfl, hx⟩ := List.append_inj' hVisits rfl
    obtain rfl := (List.cons.inj hx).1
    exact ⟨_, _, _, _, _, h, hYield, hAllowed, .inr ⟨_, _, rfl, hMember, rfl⟩⟩

/-- The run right after the last choice is determined by the choices. -/
theorem Entry.unique {visits : List Visit} {e e' : Run σ} (h : Entry p visits e)
    (h' : Entry p visits e') : e = e' := by
  induction visits using List.reverseRecOn generalizing e e' with
  | nil =>
    have hStart : ∀ {all : List Visit} {e : Run σ}, Entry p all e → all = [] →
        e = Run.start p .blank := by
      intro all e hEntry hNil
      cases hEntry with
      | start => rfl
      | stays _ _ _ => simp at hNil
      | goes _ _ _ _ => simp at hNil
    exact (hStart h rfl).trans (hStart h' rfl).symm
  | append_singleton visits x ih =>
    obtain ⟨r, q, target, label, ending, hPossible, hYield, hAllowed, hNext⟩ := h.last
    obtain ⟨r', q', target', label', ending', hPossible', hYield', hAllowed', hNext'⟩ := h'.last
    obtain ⟨e₀, hEntry, hSilent⟩ := hPossible.entry
    obtain ⟨e₀', hEntry', hSilent'⟩ := hPossible'.entry
    obtain rfl := ih hEntry hEntry'
    obtain rfl := unique_of_stuck hSilent hSilent' (hYield.stuck hAllowed) (hYield'.stuck hAllowed')
    obtain ⟨rfl, rfl, rfl, rfl⟩ := hYield.unique hYield'
    rcases hNext with ⟨hNone, rfl⟩ | ⟨d, tgt, hSome, hMember, rfl⟩
    · rcases hNext' with ⟨-, rfl⟩ | ⟨d', tgt', hSome', -, -⟩
      · rfl
      · rw [hNone] at hSome'
        cases hSome'
    · rcases hNext' with ⟨hNone', -⟩ | ⟨d', tgt', hSome', hMember', rfl⟩
      · rw [hNone'] at hSome
        cases hSome
      · obtain rfl := Option.some.inj (hSome.symm.trans hSome')
        obtain rfl := Except.ok.inj (hMember.symm.trans hMember')
        rfl

/-- **The choices determine** the yield, or the end, that they lead to. -/
theorem Possible.unique {visits : List Visit} (h : Possible p visits r) (h' : Possible p visits r')
    (hStuck : Stuck p r) (hStuck' : Stuck p r') : r = r' := by
  obtain ⟨e, hEntry, hSilent⟩ := h.entry
  obtain ⟨e', hEntry', hSilent'⟩ := h'.entry
  obtain rfl := hEntry.unique hEntry'
  exact unique_of_stuck hSilent hSilent' hStuck hStuck'

-- ---------------------------------------------------------------------------
-- The tree of choices
-- ---------------------------------------------------------------------------

/-- The choices lead to a yield where this choice may be made. -/
structure Offers (p : Program σ) (visits : List Visit) (x : Visit) (r q : Run σ)
    (target : Option Party) (label : String) (ending : Bool) : Prop where
  possible : Possible p visits r
  yields : AtYield p r q target label ending
  source : x.source = getDesc q.current
  name : x.label = label
  allowed : Allowed q target label x.target

theorem Offers.unique {visits : List Visit} {x y : Visit} (h : Offers p visits x r q target label ending)
    (h' : Offers p visits y r' q' target' label' ending') :
    r = r' ∧ q = q' ∧ target = target' ∧ label = label' ∧ ending = ending' := by
  obtain rfl := h.possible.unique h'.possible (h.yields.stuck h.allowed) (h'.yields.stuck h'.allowed)
  exact ⟨rfl, h.yields.unique h'.yields⟩

/-- A yield that the choices lead to is the one that offers the next choice. -/
theorem Offers.at_yield {visits : List Visit} {x : Visit}
    (h : Offers p visits x r' q' target' label' ending') (hPossible : Possible p visits r)
    (hYield : AtYield p r q target label ending) : r = r' := by
  obtain ⟨e, hEntry, hSilent⟩ := hPossible.entry
  obtain ⟨e', hEntry', hSilent'⟩ := h.possible.entry
  obtain rfl := hEntry.unique hEntry'
  have hUnique : Relator.RightUnique (Silent p) := fun _ _ _ => Silent.unique
  rcases Relation.ReflTransGen.total_of_right_unique hUnique hSilent hSilent' with hTo | hFrom
  · rcases hTo.cases_head with rfl | ⟨next, hStep, hNext⟩
    · rfl
    cases hStep with
    | goesOn _ hMove => cases hYield.move.symm.trans hMove
    | nobody _ _ _ =>
      -- the execution has ended there
      rcases hNext.cases_head with rfl | ⟨_, hMore, _⟩
      · cases h.yields.running
      · exact absurd hMore (stuck_of_ended (by simp [Run.inScenario, Run.stop]) _)
  · rcases hFrom.cases_head with rfl | ⟨_, hStep, _⟩
    · rfl
    · exact absurd hStep (h.yields.stuck h.allowed _)

def ways (p : Program σ) : Choices.Tree Visit where
  offers visits x := ∃ r q target label ending, Offers p visits x r q target label ending
  ends visits := ∃ r, Possible p visits r ∧ r.status ≠ .running
  stops := by
    rintro visits x ⟨r, hPossible, hEnded⟩ ⟨r', q, target, label, ending, hOffers⟩
    obtain rfl := hPossible.unique hOffers.possible (stuck_of_ended hEnded)
      (hOffers.yields.stuck hOffers.allowed)
    exact hEnded hOffers.yields.running

/-- The choices of an execution are a path of the tree. -/
theorem Possible.path {visits : List Visit} (h : Possible p visits r) : (ways p).Path visits := by
  have hConcat : ∀ {visits : List Visit} {y : Visit}, (ways p).Path visits →
      (ways p).offers visits y → (ways p).Path (visits ++ [y]) := by
    intro visits y hPath hOffers before x after hSplit
    rcases List.eq_nil_or_concat after with rfl | ⟨after, z, rfl⟩
    · obtain ⟨rfl, hLast⟩ := List.append_inj' hSplit rfl
      obtain rfl := (List.cons.inj hLast).1
      exact hOffers
    · rw [List.concat_eq_append, ← List.cons_append, ← List.append_assoc] at hSplit
      exact hPath before x after (List.append_inj' hSplit rfl).1
  induction h with
  | start => exact fun before x after hSplit => by simp at hSplit
  | goesOn _ _ _ ih => exact ih
  | stays h hRun hMove hAllowed ih =>
    have hOffers := Offers.mk (x := ⟨_, _, none⟩) h ⟨hRun, hMove⟩ rfl rfl hAllowed
    exact hConcat ih ⟨_, _, _, _, _, hOffers⟩
  | @goes visits r r₁ target label ending d tgt h hRun hMove hAllowed _ _ _ ih =>
    have hOffers := Offers.mk (x := ⟨_, _, some d⟩) h ⟨hRun, hMove⟩ rfl rfl hAllowed
    exact hConcat ih ⟨_, _, _, _, _, hOffers⟩
  | nobody _ _ _ _ _ ih => exact ih

-- ---------------------------------------------------------------------------
-- The members of the group
-- ---------------------------------------------------------------------------

/-- The members are the coroutines of the program. -/
theorem Possible.memberlist {visits : List Visit} (h : Possible p visits r) :
    r.group.memberlist = p.threads := by
  induction h with
  | start => rfl
  | @goesOn visits r r₁ _ _ hMove ih =>
    have hSame := (lasts_move p r).memberlist
    rw [hMove] at hSame
    exact hSame.trans ih
  | @stays visits r r₁ target label _ _ hMove _ ih =>
    have hSame := (lasts_move p r).memberlist
    rw [hMove] at hSame
    exact hSame.trans ih
  | @goes visits r r₁ target label ending d tgt _ _ hMove _ _ _ _ ih =>
    have hSame := (lasts_move p r).memberlist
    rw [hMove] at hSame
    refine Eq.trans ?_ (hSame.trans ih)
    exact ((lasts_leave _ _).trans (lasts_setCaller _ _ _)).memberlist
  | @nobody visits r r₁ label ending _ _ hMove _ _ ih =>
    have hSame := (lasts_move p r).memberlist
    rw [hMove] at hSame
    exact hSame.trans ih

theorem Offers.memberlist {visits : List Visit} {x : Visit}
    (h : Offers p visits x r q target label ending) : q.group.memberlist = p.threads := by
  have hSame := (lasts_move p r).memberlist
  rw [h.yields.move] at hSame
  exact hSame.trans h.possible.memberlist

end Counit

end Concurrit.Model
