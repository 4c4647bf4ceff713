import Concurrit.Model.CounitLockstep

/-!
# Concurrit — recorded runs of the Python prototype

A run in the mode `explore` writes down what it does at its yields, conditions or not.

* `recStep`       — what a step of a run that is not doomed does to the list of actions.
* `Recording.run` — a run that completes, step by step.
-/

namespace Concurrit.Model

open Function (update)

namespace Counit

variable {σ : Type} {p : Program σ} {r r' r₁ q : Run σ} {s s' : Scenario σ} {e : Raised}
  {target : Option Party} {label : String} {ending : Bool} {n : Nat} {now : σ} {g : Group}
  {curr tgt : Party} {mode : Mode} {done rest more : List TransferAction} {a : TransferAction}
  {untils : List (Condition σ)} {untilOpen : Bool} {d : String}

-- ---------------------------------------------------------------------------
-- Yields that are passed
-- ---------------------------------------------------------------------------

/-- What `on_yield` looks at in the last action. -/
def TransferAction.key (a : TransferAction) : String × String × Option String × Bool :=
  (a.sourceLabel, a.yieldLabel, a.targetLabel, a.taken)

/-- The lists end with the same action, up to its counts. -/
def SameLast (done done' : List TransferAction) : Prop :=
  done.getLast?.map TransferAction.key = done'.getLast?.map TransferAction.key

theorem sameLast_concat {xs ys : List TransferAction} {x y : TransferAction}
    (h : x.key = y.key) : SameLast (xs ++ [x]) (ys ++ [y]) := by
  unfold SameLast
  rw [List.getLast?_concat, List.getLast?_concat, Option.map_some, Option.map_some, h]

theorem SameLast.concat {xs ys : List TransferAction} {x : TransferAction}
    (h : SameLast (xs ++ [x]) ys) : ∃ init y, ys = init ++ [y] ∧ x.key = y.key := by
  rcases eq_nil_or_concat ys with rfl | ⟨init, y, rfl⟩
  · simp [SameLast] at h
  · exact ⟨init, y, rfl, by simpa [SameLast] using h⟩

theorem SameLast.nil {ys : List TransferAction} (h : SameLast [] ys) : ys = [] := by
  rcases eq_nil_or_concat ys with rfl | ⟨init, y, rfl⟩
  · rfl
  · simp [SameLast] at h

theorem takenOf_concat {xs : List TransferAction} {x : TransferAction} (h : x.taken = false) :
    takenOf (xs ++ [x]) = takenOf xs := by
  rw [takenOf_append, takenOf_singleton h, List.append_nil]

/-- What is written down for the yield in one scenario is written down in any other whose last
action is the same. -/
def PassedAlike (curr : Party) (label : String) (target : Option Party)
    (done done₁ : List TransferAction) (σ : Type) : Prop :=
  ∀ mode done' rest untils untilOpen, (mode = .explore → SameLast done done') → HeadTaken rest →
    ∃ done₁', (Scenario.zip (σ := σ) mode done' rest untils untilOpen).onYield curr label target =
        some (.zip mode done₁' rest untils untilOpen) ∧
      (mode = .explore → SameLast done₁ done₁')

/-- Passing alike has to be shown only for scenarios that explore, since the replay of an
action does not come here. -/
theorem PassedAlike.of_explore {done₁ : List TransferAction}
    (h : ∀ done' rest untils untilOpen, SameLast done done' → HeadTaken rest →
      ∃ done₁', (Scenario.zip (σ := σ) .explore done' rest untils untilOpen).onYield curr label target =
          some (.zip .explore done₁' rest untils untilOpen) ∧ SameLast done₁ done₁') :
    PassedAlike curr label target done done₁ σ := by
  intro mode done' rest untils untilOpen hSame hHead
  cases mode with
  | replay => exact ⟨done', rfl, fun h => by cases h⟩
  | explore =>
    obtain ⟨done₁', hYield, hSame'⟩ := h done' rest untils untilOpen (hSame rfl) hHead
    exact ⟨done₁', hYield, fun _ => hSame'⟩

/-- **What a yield that is passed does to the actions** before the index: it counts up the
last one if that is untaken and has the same label, and otherwise appends a new one. Any
other scenario with the same last action does the same. -/
theorem onYield_cases (hHead : HeadTaken rest)
    (hYield : (Scenario.zip .explore done rest untils untilOpen).onYield curr label target = some s) :
    ∃ done₁, s = .zip .explore done₁ rest untils untilOpen ∧ takenOf done₁ = takenOf done ∧
      PassedAlike curr label target done done₁ σ := by
  -- no action yet: the yield is the first one
  rcases eq_nil_or_concat done with rfl | ⟨init, x, rfl⟩
  · rw [onYield_nil hHead] at hYield
    obtain rfl := Option.some.inj hYield
    refine ⟨[], rfl, rfl, .of_explore fun done' rest' untils' untilOpen' hSame hHead' => ?_⟩
    rw [hSame.nil]
    exact ⟨[], onYield_nil hHead', rfl⟩
  rw [onYield_concat hHead] at hYield
  -- the assertion of `on_yield`
  by_cases hFits : x.targetLabel = some (getDesc curr) ∨
      (x.sourceLabel = getDesc curr ∧ x.taken = false)
  case neg =>
    rw [if_neg hFits] at hYield
    cases hYield
  rw [if_pos hFits] at hYield
  -- the other scenario looks at the same fields
  have hOther : ∀ done' rest' untils' untilOpen', SameLast (init ++ [x]) done' → HeadTaken rest' →
      ∃ init' x', done' = init' ++ [x'] ∧ x.key = x'.key ∧
        (Scenario.zip (σ := σ) .explore done' rest' untils' untilOpen').onYield curr label target =
          if x.taken = false ∧ x.yieldLabel = label then
            some (.zip .explore (init' ++ [{ x' with count := x'.count + 1 }]) rest' untils' untilOpen')
          else some (.zip .explore ((init' ++ [x']) ++ [passedYield curr label target]) rest' untils'
            untilOpen') := by
    intro done' rest' untils' untilOpen' hSame hHead'
    obtain ⟨init', x', rfl, hKey⟩ := hSame.concat
    obtain ⟨hSource, hLabel, hTarget, hTaken⟩ : x.sourceLabel = x'.sourceLabel ∧
        x.yieldLabel = x'.yieldLabel ∧ x.targetLabel = x'.targetLabel ∧ x.taken = x'.taken := by
      simpa [TransferAction.key] using hKey
    refine ⟨init', x', rfl, hKey, ?_⟩
    rw [onYield_concat hHead', ← hSource, ← hLabel, ← hTarget, ← hTaken, if_pos hFits]
  -- the same label again, or a new one
  by_cases hAgain : x.taken = false ∧ x.yieldLabel = label
  · rw [if_pos hAgain] at hYield
    obtain rfl := Option.some.inj hYield
    refine ⟨_, rfl, ?_, .of_explore fun done' rest' untils' untilOpen' hSame hHead' => ?_⟩
    · rw [takenOf_concat hAgain.1]
      exact takenOf_concat hAgain.1
    · obtain ⟨init', x', rfl, hKey, hEq⟩ := hOther done' rest' untils' untilOpen' hSame hHead'
      rw [hEq, if_pos hAgain]
      exact ⟨_, rfl, sameLast_concat hKey⟩
  · rw [if_neg hAgain] at hYield
    obtain rfl := Option.some.inj hYield
    refine ⟨_, rfl, takenOf_concat rfl, .of_explore fun done' rest' untils' untilOpen' hSame hHead' => ?_⟩
    obtain ⟨init', x', rfl, hKey, hEq⟩ := hOther done' rest' untils' untilOpen' hSame hHead'
    rw [hEq, if_neg hAgain]
    exact ⟨_, rfl, sameLast_concat rfl⟩

-- ---------------------------------------------------------------------------
-- What is decided
-- ---------------------------------------------------------------------------

/-- A yield that is passed: nothing is left to follow, or the next action is for another yield
of the party or for a later time. -/
inductive PassesOver (curr : Party) (label : String) :
    List TransferAction → List TransferAction → Prop where
  | nil {desc : String} (hCurr : curr = .member desc) : PassesOver curr label [] []
  | cons {a : TransferAction} {more : List TransferAction} {d : String} {k : Nat}
      (hSource : a.sourceLabel = getDesc curr)
      (hTarget : a.targetLabel = none ∨ a.targetLabel = some d)
      (hRem : (label ≠ a.yieldLabel ∧ k = a.remCount) ∨
        (label = a.yieldLabel ∧ k + 1 = a.remCount ∧ k ≠ 0)) :
      PassesOver curr label (a :: more) ({ a with targetLabel := some d, remCount := k } :: more)

/-- A yield at which control goes on, and the action that says so. -/
inductive TakesNext (curr : Party) (label : String) :
    List TransferAction → TransferAction → String → List TransferAction → Prop where
  | next {a : TransferAction} {more : List TransferAction} {d : String}
      (hSource : a.sourceLabel = getDesc curr) (hLabel : a.yieldLabel = label)
      (hRem : a.remCount = 1) (hTarget : a.targetLabel = none ∨ a.targetLabel = some d) :
      TakesNext curr label (a :: more) { a with targetLabel := some d, remCount := 0 } d more
  | new (d : String) (free : Bool) :
      TakesNext curr label [] { added curr label d free with remCount := 0 } d []

/-- What the scenario decides in the mode `explore`. -/
inductive Decided (done rest : List TransferAction) (untilOpen : Bool) (curr : Party)
    (label : String) : Except Raised (Option String) × Scenario σ → Prop where
  | error (e : Raised) (s : Scenario σ) : Decided done rest untilOpen curr label (.error e, s)
  | passes {rest' : List TransferAction} (untils : List (Condition σ))
      (h : PassesOver curr label rest rest') : Decided done rest untilOpen curr label
        (.ok none, .zip .explore done rest' untils untilOpen)
  | takes {a : TransferAction} {d : String} {rest' : List TransferAction}
      (untils : List (Condition σ)) (h : TakesNext curr label rest a d rest') :
      Decided done rest untilOpen curr label
        (.ok (some d), .zip .explore (done ++ [a]) rest' untils untilOpen)

/-- **What a scenario decides** while it explores: with nothing left to replay it may add an
action, and otherwise it follows the next action as far as its source and label fit. -/
theorem decided (hTaken : HeadTaken rest) (now : σ) (g : Group) (curr : Party) (label : String)
    (target : Option Party) : Decided done rest untilOpen curr label
      ((Scenario.zip .explore done rest untils untilOpen).decideNextTarget now g curr label target) := by
  -- nothing is left to replay
  cases rest with
  | nil =>
    have hExtends : Extends done untils untilOpen curr label target
      ((Scenario.zip .explore done [] untils untilOpen).getNextAction now g curr label target) :=
      getNextAction_extends ..
    generalize hNext : (Scenario.zip .explore done [] untils untilOpen).getNextAction now g curr
      label target = next at hExtends
    cases hExtends with
    | crash s =>
      rw [decide_of_error hNext]
      exact .error ..
    | nobody _ =>
      rw [decide_of_error hNext]
      exact .error ..
    | unmet _ =>
      rw [decide_of_error hNext]
      exact .error ..
    -- a choice to stay
    | stays hCurr _ =>
      rw [decide_of_none hNext]
      exact .passes _ (.nil hCurr)
    -- a choice to transfer: a new action, at once taken
    | @adds untils' d free _ _ =>
      have hDecide : (Scenario.zip .explore done [] untils untilOpen).decideNextTarget now g curr label
          target = (.ok (some d), .zip .explore
            (done ++ [{ added curr label d free with remCount := 0 }]) [] untils' untilOpen) := by
        rw [decide_of_action hNext]
        simp [added, TransferAction.make]
      rw [hDecide]
      exact .takes _ (.new d free)
  -- the next action is followed
  | cons a more =>
    have ha : a.taken = true := hTaken a rfl
    -- its condition first
    by_cases hHold : AllHold untils now label
    case neg =>
      rw [decide_of_error (getNextAction_fails ha hHold)]
      exact .error ..
    have hCases : (∃ e, (Scenario.zip .explore done (a :: more) untils untilOpen).getNextAction now g
        curr label target = (.error e, .zip .explore done (a :: more) [] untilOpen)) ∨
        ∃ d, (a.targetLabel = none ∨ a.targetLabel = some d) ∧
          (Scenario.zip .explore done (a :: more) untils untilOpen).getNextAction now g curr label
            target = (.ok (some { a with targetLabel := some d }),
              .zip .explore done ({ a with targetLabel := some d } :: more) [] untilOpen) :=
      getNextAction_cases ha hHold
    rcases hCases with ⟨e, hNext⟩ | ⟨d, hTarget, hNext⟩
    · rw [decide_of_error hNext]
      exact .error ..
    -- then the source, the label and the counter
    rw [decide_of_action hNext]
    by_cases hSource : a.sourceLabel = getDesc curr
    case neg =>
      rw [if_pos hSource]
      exact .error ..
    rw [if_neg (not_not.mpr hSource)]
    by_cases hLabel : label = a.yieldLabel
    case neg =>
      rw [if_pos hLabel]
      exact .passes _ (.cons hSource hTarget (.inl ⟨hLabel, rfl⟩))
    rw [if_neg (not_not.mpr hLabel)]
    dsimp only
    by_cases hZero : a.remCount = 0
    · rw [if_pos hZero]
      exact .error ..
    -- the last of the counted yields
    by_cases hOne : a.remCount = 1
    · rw [if_neg hZero, if_pos hOne]
      exact .takes _ (.next hSource hLabel.symm hOne hTarget)
    · rw [if_neg hZero, if_neg hOne]
      exact .passes _ (.cons hSource hTarget (.inr ⟨hLabel, by omega, by omega⟩))

-- ---------------------------------------------------------------------------
-- Recorded steps
-- ---------------------------------------------------------------------------

/-- The scenario of the run has come to the end of `done`. -/
def Zipped (r : Run σ) (done rest : List TransferAction) : Prop :=
  ∃ untils untilOpen, r.scenario = .zip .explore done rest untils untilOpen

/-- A step of a run that is not doomed, with the actions before and behind the index. -/
inductive RecStep (p : Program σ) (r : Run σ) (done rest : List TransferAction) :
    Run σ → List TransferAction → List TransferAction → Prop where
  | goesOn {q : Run σ} (hMove : r.move p = .goesOn q) (hSame : Untouched r q) :
      RecStep p r done rest q done rest
  | passes {q : Run σ} {target : Option Party} {label : String} {s : Scenario σ}
      {done' rest' : List TransferAction} (hMove : r.move p = .yields q target label false)
      (hSame : Untouched r q) (hRest : PassesOver q.current label rest rest')
      (hTaken : takenOf done' = takenOf done)
      (hAlike : PassedAlike q.current label target done done' σ) :
      RecStep p r done rest ((q.stays p label).inScenario s) done' rest'
  | takes {q : Run σ} {target : Option Party} {label d : String} {ending : Bool} {s : Scenario σ}
      {a : TransferAction} {rest' : List TransferAction} {tgt : Party}
      (hMove : r.move p = .yields q target label ending) (hSame : Untouched r q)
      (hTakes : TakesNext q.current label rest a d rest')
      (hMember : q.group.getMember d = .ok tgt) (hOther : tgt ≠ q.current)
      (hEnded : q.group.ended tgt = false) :
      RecStep p r done rest ((q.goes p label tgt).inScenario s) (done ++ [a]) rest'

theorem scenario_move (r : Run σ) : (r.move p).run.scenario =
    (r.request p).effect r.scenario := by
  have hTuned : Tuned r { r.scenario with untils := r.pending } := ⟨rfl, .inl rfl⟩
  exact (move_inScenario hTuned).2.2

/-- What a request leaves alone: it changes the conditions only. -/
theorem effect_zip_any (request : Request σ) (mode : Mode) (done rest : List TransferAction)
    (untils : List (Condition σ)) (untilOpen : Bool) :
    ∃ untils' untilOpen', request.effect (Scenario.zip mode done rest untils untilOpen) =
      Scenario.zip mode done rest untils' untilOpen' := by
  cases request with
  | «until» condition =>
    cases condition with
    | none => exact ⟨[], true, rfl⟩
    | some c => exact ⟨untils ++ [c], true, rfl⟩
  | transfer target => exact ⟨if untilOpen then untils else [], false, rfl⟩
  | yield target label => exact ⟨untils, untilOpen, rfl⟩
  | assumeFails => exact ⟨untils, untilOpen, rfl⟩
  | assertFails => exact ⟨untils, untilOpen, rfl⟩
  | returns => exact ⟨untils, untilOpen, rfl⟩

theorem Zipped.move (h : Zipped r done rest) : Zipped (r.move p).run done rest := by
  obtain ⟨untils, untilOpen, hScenario⟩ := h
  obtain ⟨untils', untilOpen', hEffect⟩ := effect_zip_any (r.request p) .explore
    done rest untils untilOpen
  exact ⟨untils', untilOpen', by rw [scenario_move, hScenario, hEffect]⟩

theorem TakesNext.action {rest' : List TransferAction} (h : TakesNext curr label rest a d rest') :
    a.sourceLabel = getDesc curr ∧ a.yieldLabel = label ∧ a.targetLabel = some d ∧
      a.remCount = 0 := by
  cases h with
  | next hSource hLabel _ _ => exact ⟨hSource, hLabel, rfl, rfl⟩
  | new d free => exact ⟨rfl, rfl, rfl, rfl⟩

/-- The action that is taken becomes the last transfer of the list. -/
theorem TakesNext.takenOf_concat {rest' : List TransferAction} (done : List TransferAction)
    (h : TakesNext curr label rest a d rest') (hTaken : ∀ b ∈ rest, b.taken = true) :
    takenOf (done ++ [a]) = takenOf done ++ [a.reset] := by
  have ha : a.taken = true := by
    cases h with
    | @next b _ _ _ _ _ _ =>
      have hb : b.taken = true := hTaken b (List.mem_cons_self ..)
      exact hb
    | new d free => rfl
  rw [takenOf_append, takenOf_cons, if_pos ha]
  rfl

/-- **What a step does**, if it does not doom the run: it goes on in its program, or passes
a yield, or takes an action. In each case the scenario is left between two lists again. -/
theorem recStep (hRun : r.status = .running) (hZip : Zipped r done rest) (hTaken : HeadTaken rest)
    (hAlive : ¬ Doomed (r.step p)) :
    ∃ done' rest', RecStep p r done rest (r.step p) done' rest' ∧ Zipped (r.step p) done' rest' := by
  have hMoves := moves p r
  have hZip' : Zipped (r.move p).run done rest := hZip.move
  -- no yield: the program goes on
  cases hMove : r.move p with
  | goesOn q =>
    rw [step_goesOn hRun hMove] at hAlive ⊢
    rw [hMove] at hMoves hZip'
    cases hMoves with
    | raises _ hDoomed => exact absurd (hDoomed hRun) hAlive
    | goesOn hSame => exact ⟨done, rest, .goesOn hMove hSame, hZip'⟩
  -- a yield: the scenario decides
  | yields q target label ending =>
    rw [step_yields hRun hMove] at hAlive ⊢
    rw [hMove] at hZip'
    have hSame := untouched_of_yields hMove
    have hRun₁ := (status_of_yields hMove).trans hRun
    obtain ⟨untils, untilOpen, hScenario⟩ := hZip'
    change q.scenario = _ at hScenario
    have hDecided : Decided done rest untilOpen q.current label
        (q.scenario.decideNextTarget q.now q.group q.current label target) := by
      rw [hScenario]
      exact decided hTaken ..
    have hNoCrash : (q.decide p target label ending).status ≠ .crashed :=
      fun h => hAlive (doomed_of_crashed h)
    generalize hDecide : q.scenario.decideNextTarget q.now q.group q.current label target = outcome
      at hDecided
    cases hDecided with
    | error e s => exact absurd (doomed_decide_error hRun₁ hDecide) hAlive
    -- the yield is passed
    | @passes rest' untils' hOver =>
      obtain ⟨rfl, s', hYield⟩ := decide_stays hDecide hNoCrash
      have hTaken' : HeadTaken rest' := by
        cases hOver with
        | nil => exact hTaken
        | @cons a _ _ _ _ _ _ =>
          have ha : a.taken = true := hTaken a rfl
          intro b hb
          obtain rfl := Option.some.inj hb
          exact ha
      obtain ⟨done', rfl, hSameTaken, hAlike⟩ := onYield_cases hTaken' hYield
      rw [decide_none hDecide hYield]
      exact ⟨done', rest', .passes hMove hSame hOver hSameTaken hAlike, untils', untilOpen, rfl⟩
    -- the action is taken
    | @takes a d rest' untils' hTakes =>
      obtain ⟨tgt, hMember, hOther, hEnded⟩ := decide_ok hDecide hNoCrash
      obtain ⟨hSource, hLabel, hTarget, -⟩ := hTakes.action
      -- the check in `on_transfer` looks at what was decided just now
      have hOn : (Scenario.zip (σ := σ) .explore (done ++ [a]) rest' untils' untilOpen).onTransfer
          q.current label tgt = true := by
        rw [onTransfer_zip]
        simp [hSource, hLabel, hTarget, getDesc_of_getMember hMember]
      rw [decide_some hDecide hMember hOther hEnded hOn]
      exact ⟨done ++ [a], rest', .takes hMove hSame hTakes hMember hOther hEnded, untils', untilOpen,
        rfl⟩

-- ---------------------------------------------------------------------------
-- Recorded runs
-- ---------------------------------------------------------------------------

/-- How often the run has passed a yield of the label since its last transfer. -/
def Run.visits (r : Run σ) (label : String) : Nat :=
  r.passed.countP fun y => y.after == r.transfers.length && y.label == label

/-- What the lists say about the run. -/
structure Recording (r : Run σ) (done rest : List TransferAction) : Prop where
  zipped : Zipped r done rest
  taken : ∀ a ∈ rest, a.taken = true
  targets : ∀ a ∈ takenOf done, a.targetLabel ≠ none
  transfers : (takenOf done).length = r.transfers.length
  past : ∀ y ∈ r.passed, y.after ≤ r.transfers.length
  head : ∀ a more, rest = a :: more → a.remCount + r.visits a.yieldLabel = a.count
  tail : ∀ a more, rest = a :: more → ∀ b ∈ more, b.remCount = b.count

theorem Recording.headTaken (h : Recording r done rest) : HeadTaken rest :=
  fun a ha => h.taken a (List.mem_of_mem_head? ha)

theorem Untouched.visits (h : Untouched r q) (label : String) : q.visits label = r.visits label := by
  rw [Run.visits, Run.visits, h.passed, h.transfers]

theorem visits_stays (r : Run σ) (s : Scenario σ) (label label' : String) :
    ((r.stays p label).inScenario s).visits label' =
      r.visits label' + if label = label' then 1 else 0 := by
  show (r.passed ++ [(⟨r.yields, getDesc r.current, label, r.transfers.length⟩ : Passed)]).countP _ = _
  rw [List.countP_append, List.countP_singleton]
  simp [Run.visits, Run.stays, Run.goOn, Run.inScenario]

theorem transfers_goes (r : Run σ) (label : String) (target : Party) :
    (r.goes p label target).transfers =
      r.transfers ++ [⟨r.yields, getDesc r.current, label, getDesc target⟩] := rfl

/-- After a transfer nothing has been passed yet. -/
theorem visits_goes (hPast : ∀ y ∈ r.passed, y.after ≤ r.transfers.length) (s : Scenario σ)
    (label : String) (target : Party) (label' : String) :
    ((r.goes p label target).inScenario s).visits label' = 0 := by
  refine List.countP_eq_zero.mpr fun y hy => ?_
  have hBefore := hPast y hy
  have hLength : ((r.goes p label target).inScenario s).transfers.length = r.transfers.length + 1 := by
    show (r.goes p label target).transfers.length = _
    rw [transfers_goes, List.length_append, List.length_singleton]
  rw [hLength]
  simp only [Bool.and_eq_true, beq_iff_eq, not_and]
  omega

/-- **The lists go on telling about the run**: what is taken are the transfers made so far,
and the counter of the next action is what is left of its yields. -/
theorem Recording.step {done' rest' : List TransferAction} (h : Recording r done rest)
    (hStep : RecStep p r done rest r' done' rest') (hZip : Zipped r' done' rest') :
    Recording r' done' rest' := by
  cases hStep with
  -- nothing that the lists tell about has changed
  | goesOn hMove hSame =>
    refine ⟨hZip, h.taken, h.targets, ?_, ?_, fun a more hRest => ?_, h.tail⟩
    · rw [hSame.transfers]
      exact h.transfers
    · rw [hSame.transfers, hSame.passed]
      exact h.past
    · rw [hSame.visits]
      exact h.head a more hRest
  | @passes q target label s _ _ hMove hSame hRest hTaken hAlike =>
    refine ⟨hZip, ?_, hTaken ▸ h.targets, ?_, ?_, ?_, ?_⟩
    · cases hRest with
      | nil => exact h.taken
      | cons _ _ _ =>
        obtain ⟨ha, hMore⟩ := List.forall_mem_cons.mp h.taken
        exact List.forall_mem_cons.mpr ⟨ha, hMore⟩
    · rw [hTaken, h.transfers, ← hSame.transfers]
      rfl
    · intro y hy
      rcases List.mem_append.mp hy with hy | hy
      · show y.after ≤ q.transfers.length
        rw [hSame.transfers]
        exact h.past y (hSame.passed ▸ hy)
      · obtain rfl := List.mem_singleton.mp hy
        exact Nat.le_refl _
    -- the counter: one less for a yield with the label of the action
    · intro a more hEq
      rw [visits_stays, hSame.visits]
      cases hRest with
      | nil => cases hEq
      | cons _ _ hRem =>
        obtain ⟨rfl, rfl⟩ := List.cons.inj hEq
        have hHead := h.head _ _ rfl
        rcases hRem with ⟨hOther, rfl⟩ | ⟨hLabel, hRem, -⟩
        · rw [if_neg hOther]
          exact hHead
        · rw [if_pos hLabel]
          dsimp only
          omega
    · intro a more hEq
      cases hRest with
      | nil => cases hEq
      | cons _ _ _ =>
        obtain ⟨rfl, rfl⟩ := List.cons.inj hEq
        exact h.tail _ _ rfl
  -- a transfer: the action moves in front of the index
  | @takes q target label d ending s a _ tgt hMove hSame hTakes _ _ _ =>
    have hPast : ∀ y ∈ q.passed, y.after ≤ q.transfers.length := by
      rw [hSame.passed, hSame.transfers]
      exact h.past
    -- the count of passed yields begins anew
    have hNone : ∀ label', ((q.goes p label tgt).inScenario s).visits label' = 0 :=
      visits_goes hPast s label tgt
    have hLength : ((q.goes p label tgt).inScenario s).transfers.length = r.transfers.length + 1 := by
      show (q.goes p label tgt).transfers.length = _
      rw [transfers_goes, List.length_append, List.length_singleton, hSame.transfers]
    have hDone := hTakes.takenOf_concat done h.taken
    refine ⟨hZip, ?_, ?_, ?_, ?_, ?_, ?_⟩
    · cases hTakes with
      | next _ _ _ _ => exact (List.forall_mem_cons.mp h.taken).2
      | new d free => exact h.taken
    · rw [hDone]
      intro b hb
      rcases List.mem_append.mp hb with hb | hb
      · exact h.targets b hb
      · obtain rfl := List.mem_singleton.mp hb
        show a.targetLabel ≠ none
        rw [hTakes.action.2.2.1]
        exact Option.some_ne_none d
    · rw [hDone, hLength, List.length_append, List.length_singleton, h.transfers]
    · intro y hy
      rw [hLength]
      have hBefore := h.past y (hSame.passed ▸ hy)
      omega
    -- the next action is the one behind, with its counter still whole
    · intro b more hEq
      rw [hNone, Nat.add_zero]
      cases hTakes with
      | next _ _ _ _ => exact h.tail _ _ rfl b (by simp [hEq])
      | new d free => cases hEq
    · intro b more hEq c hc
      cases hTakes with
      | next _ _ _ _ => exact h.tail _ _ rfl c (by simp [hEq, hc])
      | new d free => cases hEq

/-- The steps of a run up to its end, which it completes. -/
inductive RecRun (p : Program σ) (last : Run σ) (doneN restN : List TransferAction) :
    Run σ → List TransferAction → List TransferAction → Prop where
  | ends (hRec : Recording last doneN restN) (hStatus : last.status = .completed) :
      RecRun p last doneN restN last doneN restN
  | step {r r' : Run σ} {done rest done' rest' : List TransferAction} (hRun : r.status = .running)
      (hNext : r.step p = r') (hRec : Recording r done rest)
      (hStep : RecStep p r done rest r' done' rest') (hMore : RecRun p last doneN restN r' done' rest') :
      RecRun p last doneN restN r done rest

/-- **The steps of a completed run** in order, with the lists before each of them. A step
that dooms the run cannot be among them. -/
theorem Recording.run (h : Recording r done rest) (hDone : (r.after p n).status = .completed) :
    ∃ doneN restN, RecRun p (r.after p n) doneN restN r done rest := by
  induction n generalizing r done rest with
  | zero => exact ⟨done, rest, .ends h hDone⟩
  | succ n ih =>
    by_cases hRun : r.status = .running
    case neg =>
      rw [after_of_ended hRun] at hDone ⊢
      exact ⟨done, rest, .ends h hDone⟩
    have hAlive : ¬ Doomed (r.step p) := fun hDoomed => hDoomed.after n hDone
    obtain ⟨done', rest', hStep, hZip⟩ := recStep hRun h.zipped h.headTaken hAlive
    obtain ⟨doneN, restN, hMore⟩ := ih (h.step hStep hZip) hDone
    exact ⟨doneN, restN, .step hRun rfl h hStep hMore⟩

variable {last : Run σ} {doneN restN : List TransferAction}

theorem RecRun.recording (h : RecRun p last doneN restN r done rest) : Recording r done rest := by
  cases h with
  | ends hRec _ => exact hRec
  | step _ _ hRec _ _ => exact hRec

theorem RecRun.recordingLast (h : RecRun p last doneN restN r done rest) : Recording last doneN restN := by
  induction h with
  | ends hRec _ => exact hRec
  | step _ _ _ _ _ ih => exact ih

/-- The transfers of the list stay, since actions before the index are never removed. -/
theorem RecRun.taken (h : RecRun p last doneN restN r done rest) :
    takenOf done <+: takenOf (doneN ++ restN) := by
  induction h with
  | ends _ _ =>
    rw [takenOf_append]
    exact List.prefix_append _ _
  | step _ _ hRec hStep _ ih =>
    refine List.IsPrefix.trans ?_ ih
    cases hStep with
    | goesOn _ _ => exact List.prefix_refl _
    | passes _ _ _ hTaken _ => exact hTaken ▸ List.prefix_refl _
    | takes _ _ hTakes _ _ _ =>
      rw [hTakes.takenOf_concat _ hRec.taken]
      exact List.prefix_append _ _

theorem reset_of_target (k : Nat) (h : a.targetLabel = some d) :
    TransferAction.reset { a with targetLabel := some d, remCount := k } = a.reset := by
  rw [← h]
  rfl

/-- An action with a target stays, whether it is taken or left in the end: the decisions
keep its target. -/
theorem RecRun.head (h : RecRun p last doneN restN r done rest) (hRest : rest = a :: more)
    (hTarget : a.targetLabel = some d) : takenOf done ++ [a.reset] <+: takenOf (doneN ++ restN) := by
  induction h generalizing a more with
  -- the run has ended with the action left over
  | ends hRec _ =>
    rw [takenOf_append, hRest, takenOf_cons, if_pos (hRec.taken a (by simp [hRest]))]
    exact ⟨takenOf more, by simp⟩
  | step _ _ hRec hStep hMore ih =>
    cases hStep with
    | goesOn _ _ => exact ih hRest hTarget
    | passes _ _ hOver hTaken _ =>
      cases hOver with
      | nil _ => cases hRest
      | cons _ hSame _ =>
        -- passed: it stays at the head
        obtain ⟨rfl, rfl⟩ := List.cons.inj hRest
        rw [hTarget] at hSame
        obtain rfl := Option.some.inj (hSame.resolve_left (Option.some_ne_none d))
        have hPrefix := ih rfl rfl
        rw [hTaken] at hPrefix
        rw [reset_of_target _ hTarget] at hPrefix
        exact hPrefix
    -- taken: it is before the index from now on
    | takes _ _ hTakes _ _ _ =>
      have hPrefix := hMore.taken
      rw [hTakes.takenOf_concat _ hRec.taken] at hPrefix
      cases hTakes with
      | next _ _ _ hSame =>
        obtain ⟨rfl, rfl⟩ := List.cons.inj hRest
        rw [hTarget] at hSame
        obtain rfl := Option.some.inj (hSame.resolve_left (Option.some_ne_none d))
        rw [reset_of_target _ hTarget] at hPrefix
        exact hPrefix
      | new _ _ => cases hRest

/-- Nothing is added behind the index. -/
theorem RecRun.nil (h : RecRun p last doneN restN r done rest) (hRest : rest = []) : restN = [] := by
  induction h with
  | ends _ _ => exact hRest
  | step _ _ _ hStep _ ih =>
    subst hRest
    refine ih ?_
    cases hStep with
    | goesOn _ _ => rfl
    | passes _ _ hOver _ _ =>
      cases hOver
      rfl
    | takes _ _ hTakes _ _ _ =>
      cases hTakes
      rfl

/-- The transfers made so far stay as well. -/
theorem RecRun.transfers (h : RecRun p last doneN restN r done rest) :
    r.transfers <+: last.transfers := by
  induction h with
  | ends _ _ => exact List.prefix_refl _
  | step _ _ _ hStep _ ih =>
    refine List.IsPrefix.trans ?_ ih
    cases hStep with
    | goesOn _ hSame => exact hSame.transfers ▸ List.prefix_refl _
    | passes _ hSame _ _ _ => exact hSame.transfers ▸ List.prefix_refl _
    | takes _ hSame _ _ _ _ => exact hSame.transfers ▸ List.prefix_append _ _

/-- A coroutine that is running gives up control in the end, since a run is completed by the
main thread only. The induction is on the steps that are left. -/
theorem RecRun.member {desc : String} (h : RecRun p last doneN restN r done rest)
    (hRun : r.status = .running) (hCurr : r.current = .member desc) :
    r.transfers.length < last.transfers.length := by
  -- without control the main thread cannot be stopped
  have hStill : ∀ {r q : Run σ}, r.status = .running → r.current = .member desc → Untouched r q →
      q.status = .running := by
    intro r q hRun hCurr hSame
    rcases hSame.status with hStill | ⟨hMain, -⟩
    · exact hStill.trans hRun
    · rw [hCurr] at hMain
      cases hMain
  induction h with
  | ends _ hStatus =>
    rw [hRun] at hStatus
    cases hStatus
  | step _ _ _ hStep hMore ih =>
    cases hStep with
    | goesOn _ hSame =>
      rw [← hSame.transfers]
      exact ih (hStill hRun hCurr hSame) (hSame.current.trans hCurr)
    | @passes q target label s _ _ _ hSame _ _ _ =>
      have hOn : q.status = .running := hStill hRun hCurr hSame
      rw [← hSame.transfers]
      exact ih hOn (hSame.current.trans hCurr)
    | takes _ hSame _ _ _ _ =>
      obtain ⟨more, hMore⟩ := hMore.transfers
      rw [← hMore, ← hSame.transfers]
      simp [Run.goes, Run.handOver, Run.goOn, Run.inScenario]

/-- What is transferred later is transferred at later yields, as every yield counts. -/
theorem RecRun.later (h : RecRun p last doneN restN r done rest) {k : Nat} {t : Transfer}
    (hk : r.transfers.length ≤ k) (ht : last.transfers[k]? = some t) : r.yields ≤ t.position := by
  induction h with
  | ends _ _ =>
    rw [List.getElem?_eq_none hk] at ht
    cases ht
  | step _ _ _ hStep hMore ih =>
    cases hStep with
    | goesOn _ hSame =>
      rw [← hSame.yields]
      exact ih (hSame.transfers ▸ hk)
    | passes _ hSame _ _ _ =>
      have hNext := ih (hSame.transfers ▸ hk)
      rw [← hSame.yields]
      exact Nat.le_of_succ_le hNext
    | @takes q target label d ending s a rest' tgt _ hSame _ _ _ _ =>
      -- the transfer of this step
      rcases Nat.eq_or_lt_of_le hk with rfl | hLater
      · obtain ⟨more, hMore⟩ := hMore.transfers
        change (q.transfers ++ [_]) ++ more = _ at hMore
        rw [← hMore, ← hSame.transfers, List.append_assoc, List.getElem?_append_right (Nat.le_refl _),
          Nat.sub_self] at ht
        obtain rfl := Option.some.inj ht
        exact Nat.le_of_eq hSame.yields.symm
      -- a later one
      · have hNext := ih (by
          show (q.transfers ++ [_]).length ≤ k
          rw [List.length_append, List.length_singleton, hSame.transfers]
          exact hLater)
        rw [← hSame.yields]
        exact Nat.le_of_succ_le hNext

end Counit

end Concurrit.Model
