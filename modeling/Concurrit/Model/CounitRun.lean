import Concurrit.Model.Counit

/-!
# Concurrit — runs of the Python prototype

A deterministic scenario is a `Program`: every run of it starts in the same state, and what the
main function and the coroutines do next is a function of that state. `Run.step` takes a run to
the next call of the library, `coroutine.transfer` with its listeners, `Scenario.until` and
`Scenario.transfer`; `run_testcase` is the run of `Program.start` to its end. The schedule is
left to `Stackless`: control is with the party that has got it last.

`Explores` is the loop of `explore_exists`, `Scenario.replayed` the state `replay` starts in.
-/

namespace Concurrit.Model

open Function (update)

namespace Counit

variable {σ : Type}

-- ---------------------------------------------------------------------------
-- Programs
-- ---------------------------------------------------------------------------

/-- What the running function does next. -/
inductive Request (σ : Type) where
  /-- `Scenario.until`; `none` is `until_star` -/
  | until (condition : Option (Condition σ))
  /-- `Scenario.transfer` -/
  | transfer (target : Option String)
  /-- `coroutine.transfer(target, label)` -/
  | yield (target : Option Party) (label : String)
  /-- it raises `BacktrackException`, as `Assume` does -/
  | assumeFails
  /-- it raises another exception, as `Assert` does -/
  | assertFails
  | returns

/-- A deterministic scenario. Its test case creates the coroutines by `Scenario.thread`, before
its first transfer, or `explore` has got them as a list. -/
structure Program (σ : Type) where
  threads : List String
  /-- they come from a list (`add_thread`), and there is no test function -/
  listed : Bool := false
  start : σ
  request : σ → Group → Party → Request σ
  /-- the call returns: to its caller, with the party that control comes from, if any -/
  resume : σ → Party → Option Party → σ
  nodup : threads.Nodup
  noMain : MAIN_LABEL ∉ threads

/-- The function of the scenario that the main function is in. -/
inductive Phase where
  | setup
  | testcase
  | teardown
deriving DecidableEq, Repr

inductive Status where
  | running
  | completed
  /-- `BacktrackException` has left `run_testcase` -/
  | backtracked
  /-- another exception has -/
  | crashed
deriving DecidableEq, Repr

/-- A transfer of control, at the yield that `position` others have come before. -/
structure Transfer where
  position : Nat
  source : String
  label : String
  target : String
deriving DecidableEq, Repr

/-- A yield at which control has stayed, and how many transfers have come before it. -/
structure Passed where
  position : Nat
  source : String
  label : String
  after : Nat
deriving DecidableEq, Repr

/-- `yields` counts the yields so far, `transfers` are those at which control has gone on, and
`passed` those at which it has stayed; `pending` are the conditions that `until` has set since
the last yield. -/
structure Run (σ : Type) where
  now : σ
  group : Group
  scenario : Scenario σ
  current : Party
  phase : Phase
  status : Status
  yields : Nat
  transfers : List Transfer
  passed : List Passed
  pending : List (Condition σ)

-- ---------------------------------------------------------------------------
-- Steps
-- ---------------------------------------------------------------------------

/-- The current function goes on with the result of its call. -/
def Run.goOn (p : Program σ) (r : Run σ) (result : Option Party) : Run σ :=
  { r with now := p.resume r.now r.current result }

def Run.stop (r : Run σ) (status : Status) : Run σ := { r with status := status }

/-- The message a transfer passes on: nobody, where the sender has ended. -/
def Group.message (g : Group) (curr : Party) : Option Party :=
  if g.ended curr then none else some curr

/-- `receive`: a coroutine that has ended does not wait for a caller. -/
def Group.leave (g : Group) : Party → Group
  | .main => g
  | .member desc =>
    if (g.members desc).ended then g.setMember desc { g.members desc with caller := none } else g

/-- What the target of a transfer receives. -/
def Group.setCaller (g : Group) (target : Party) (message : Option Party) : Group :=
  match target with
  | .main => g
  | .member desc => g.setMember desc { g.members desc with caller := message }

/-- An exception leaves the current function. `tasklet_function` keeps a `BacktrackException`
for the main function, and transfers to it without asking the group. -/
def Run.raises (p : Program σ) (r : Run σ) (e : Raised) : Run σ :=
  match e, r.current with
  | .error, _ => r.stop .crashed
  | .backtrack, .main => r.stop .backtracked
  | .backtrack, .member desc =>
    let group := { r.group with exception := true }.setMember desc
      { r.group.members desc with ended := true }
    { r with group := group.leave (.member desc), current := .main }.goOn p none

/-- Control goes on to the target. -/
def Run.handOver (p : Program σ) (r : Run σ) (label : String) (target : Party) : Run σ :=
  let transfer : Transfer := ⟨r.yields, getDesc r.current, label, getDesc target⟩
  { r with
    group := (r.group.leave r.current).setCaller target (r.group.message r.current)
    current := target
    transfers := r.transfers ++ [transfer] }.goOn p (r.group.message r.current)

/-- `coroutine.transfer` once the target is decided. A tasklet that sends to itself is never
received from. -/
def Run.goTo (p : Program σ) (r : Run σ) (label : String) (target : Party) : Run σ :=
  if target = r.current ∨ r.group.ended target then r.stop .crashed
  else if ¬ r.scenario.onTransfer r.current label target then r.stop .crashed
  else r.handOver p label target

/-- The target that the group is asked about: `None` means the caller, or `main`. -/
def Run.resolve (r : Run σ) (target : Option Party) : Except Raised (Option Party) :=
  match target with
  | some .main => .ok (some .main)
  | some (.member desc) =>
    if (r.group.members desc).started ∧ ¬ (r.group.members desc).ended then .ok (some (.member desc))
    else .error .error
  | none =>
    match r.current with
    | .main => .ok none
    | .member desc => .ok (some ((r.group.members desc).caller.getD .main))

/-- `coroutine_group.decide_next_target`. -/
def Run.decideNextTarget (r : Run σ) (label : String) (target : Option Party) :
    Except Raised (Option Party) × Scenario σ :=
  match r.scenario.decideNextTarget r.now r.group r.current label target with
  | (.error e, s) => (.error e, s)
  | (.ok none, s) => (.ok none, s)
  | (.ok (some desc), s) =>
    match r.group.getMember desc with
    | .error e => (.error e, s)
    | .ok target => (.ok (some target), s)

/-- A yield: the group decides whether control goes on. A coroutine that is ending has left the
`try` of `tasklet_function`, so that what is raised reaches the main function, and does not run
any more if control stays with it. -/
def Run.decide (p : Program σ) (r : Run σ) (target : Option Party) (label : String)
    (ending : Bool) : Run σ :=
  match r.decideNextTarget label target with
  | (.error e, s) =>
    let r := { r with scenario := s, yields := r.yields + 1, pending := [] }
    if ending ∧ e = .backtrack then r.stop .backtracked else r.raises p e
  | (.ok none, s) =>
    match s.onYield r.current label target with
    | none => r.stop .crashed
    | some s =>
      let passed : Passed := ⟨r.yields, getDesc r.current, label, r.transfers.length⟩
      let r := { r with
        scenario := s
        yields := r.yields + 1
        passed := r.passed ++ [passed]
        pending := [] }
      if ending then r.stop .crashed else r.goOn p (some r.current)
  | (.ok (some target), s) =>
    let r' := { r with scenario := s, pending := [] }.goTo p label target
    { r' with yields := r.yields + 1 }

/-- What the next step of a run is. -/
inductive Move (σ : Type) where
  | goesOn (r : Run σ)
  | yields (r : Run σ) (target : Option Party) (label : String) (ending : Bool)

/-- `coroutine.transfer` up to the yield. -/
def Run.transfer (p : Program σ) (r : Run σ) (target : Option Party) (label : String)
    (ending : Bool) : Move σ :=
  if r.group.ended r.current ∧ ¬ ending then .goesOn (r.stop .crashed)
  else if r.current = .main ∧ target = some .main then .goesOn (r.goOn p (some .main))
  else
    match r.resolve target with
    | .error e => .goesOn (r.raises p e)
    | .ok target => .yields r target label ending

def Run.closeUntils (r : Run σ) : Run σ :=
  { r with
    scenario := r.scenario.closeUntils
    pending := if r.scenario.untilOpen then r.pending else [] }

/-- `Scenario.transfer` from there up to the yield. -/
def Run.transferTo (p : Program σ) (r : Run σ) (target : Option String) : Move σ :=
  if target.any fun desc => !r.group.hasMember desc then .goesOn (r.stop .crashed)
  else if r.current ≠ .main then .goesOn (r.stop .crashed)
  else if target.any fun desc => (r.group.members desc).ended then .goesOn (r.raises p .backtrack)
  else r.transfer p (target.map .member) MAIN_LABEL false

/-- The main function returns from a function of the scenario, with `try_run`. -/
def Run.endPhase (p : Program σ) (r : Run σ) : Run σ :=
  if r.group.exception then r.stop .backtracked
  else
    match r.phase with
    | .setup => { r with phase := .testcase }.goOn p none
    | .testcase => { r with phase := .teardown }.goOn p none
    | .teardown => r.stop .completed

def Run.markEnded (r : Run σ) (desc : String) : Run σ :=
  { r with group := r.group.setMember desc { r.group.members desc with ended := true } }

/-- The function of a coroutine returns. -/
def Run.endCoroutine (p : Program σ) (r : Run σ) (desc : String) : Move σ :=
  (r.markEnded desc).transfer p none ENDING_LABEL true

/-- The next call of the library. `testcase` without a test function transfers to any thread
until all of them have ended. -/
def Run.request (p : Program σ) (r : Run σ) : Request σ :=
  if p.listed ∧ r.current = .main ∧ r.phase = .testcase then
    if r.group.allEnded then .returns else .transfer none
  else p.request r.now r.group r.current

def Run.move (p : Program σ) (r : Run σ) : Move σ :=
  match r.request p with
  | .until condition =>
    .goesOn ({ r with
      scenario := r.scenario.until condition
      pending := condition.elim [] fun c => r.pending ++ [c] }.goOn p none)
  | .transfer target => r.closeUntils.transferTo p target
  | .yield target label =>
    -- the main function has to name a target, by whose group the yield is decided
    if r.current = .main ∧ target = none then .goesOn (r.stop .crashed)
    else r.transfer p target label false
  | .assumeFails => .goesOn (r.raises p .backtrack)
  | .assertFails => .goesOn (r.raises p .error)
  | .returns =>
    match r.current with
    | .main => .goesOn (r.endPhase p)
    | .member desc => r.endCoroutine p desc

def Run.step (p : Program σ) (r : Run σ) : Run σ :=
  if r.status ≠ .running then r
  else
    match r.move p with
    | .goesOn r => r
    | .yields r target label ending => r.decide p target label ending

/-- The run after `n` steps. -/
def Run.after (p : Program σ) : Nat → Run σ → Run σ
  | 0, r => r
  | n + 1, r => Run.after p n (r.step p)

/-- A run of `run_testcase`. -/
def Run.start (p : Program σ) (s : Scenario σ) : Run σ where
  now := p.start
  group := .fresh p.threads
  scenario := s
  current := .main
  phase := .setup
  status := .running
  yields := 0
  transfers := []
  passed := []
  pending := []

-- ---------------------------------------------------------------------------
-- Exploration and replay
-- ---------------------------------------------------------------------------

/-- The scenario in the state that `explore_exists` starts in. -/
def Scenario.exploring (untilOpen : Bool) : Scenario σ := ⟨.explore, [], [], 0, untilOpen⟩

/-- The loop of `explore_exists`, from a state of the scenario to the run that ends it. The
last run starts with the scenario `last`. -/
inductive Explores (p : Program σ) : Scenario σ → Scenario σ → Run σ → Prop where
  | done {s : Scenario σ} {n : Nat}
      (hEnd : ((Run.start p s).after p n).status = .completed) :
      Explores p s s ((Run.start p s).after p n)
  | again {s s' last : Scenario σ} {n : Nat} {r : Run σ}
      (hEnd : ((Run.start p s).after p n).status = .backtracked)
      (hBack : ((Run.start p s).after p n).scenario.backtrack = .ok (some s'))
      (hRest : Explores p s' last r) : Explores p s last r

/-- What the end of `explore_exists` and of `replay` leaves. -/
def Scenario.finished (s : Scenario σ) : Option (Scenario σ) :=
  s.preprocessActions.map fun s => { s with untils := [] }

/-- The state `replay` starts in, in one of the two modes. -/
def Scenario.replayed (s : Scenario σ) (mode : Mode) : Scenario σ :=
  { s with mode := mode, untils := [] }

/-- The group that `replay` starts with, in memory, after the run `r`: the test function creates
its coroutines again, and those of a list are as they were (`group.reset`). -/
def Program.left (p : Program σ) (r : Run σ) : Group :=
  if p.listed then { r.group with exception := false } else .fresh p.threads

end Counit

end Concurrit.Model
