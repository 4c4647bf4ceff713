import Mathlib.Logic.Function.Basic

/-!
# Concurrit — the Python prototype

`counit.py`: a scenario transfers control between coroutines, which offer to give it up at
their yields. A list of `TransferAction`s says at which yields control really goes on, and to
whom; beyond its end `Scenario.get_next_action` decides and writes down what it has decided.

Coroutines are known by their `desc`. A condition of `until` may look at the state of the
scenario, hence `Condition σ`. Where an assertion of the code fails, or Python raises an error
of its own, the result is `Raised.error`.
-/

namespace Concurrit.Model

open Function (update)

namespace Counit

def ENDING_LABEL : String := "ending"
def MAIN_LABEL : String := "main"

/-- `coroutine.main` or a coroutine. -/
inductive Party where
  | main
  | member (desc : String)
deriving DecidableEq, Repr

/-- `coroutine.get_desc`. -/
def getDesc : Party → String
  | .main => MAIN_LABEL
  | .member desc => desc

inductive Raised where
  /-- `BacktrackException` -/
  | backtrack
  /-- any other exception -/
  | error
deriving DecidableEq, Repr

-- ---------------------------------------------------------------------------
-- Actions
-- ---------------------------------------------------------------------------

structure TransferAction where
  sourceLabel : String
  yieldLabel : String
  targetLabel : Option String
  oldTargets : List String
  count : Nat
  remCount : Nat
  taken : Bool
  free : Bool
deriving DecidableEq, Repr

/-- `TransferAction.__init__`, whose assertion `count >= 1` is left to its callers. -/
def TransferAction.make (source label : String) (target : Option String) (oldTargets : List String)
    (count : Nat) (taken free : Bool) : TransferAction :=
  ⟨source, label, target, oldTargets, count, count, taken, free⟩

/-- What `preprocess_actions(reset_actions=True)` does to an action. -/
def TransferAction.reset (a : TransferAction) : TransferAction := { a with remCount := a.count }

-- ---------------------------------------------------------------------------
-- Groups
-- ---------------------------------------------------------------------------

structure Coroutine where
  caller : Option Party
  started : Bool
  ended : Bool
deriving DecidableEq, Repr

structure Group where
  memberlist : List String
  members : String → Coroutine
  exception : Bool

/-- The group after its threads have been created or restarted. -/
def Group.fresh (threads : List String) : Group where
  memberlist := threads
  members desc := ⟨none, threads.contains desc, false⟩
  exception := false

def Group.setMember (g : Group) (desc : String) (c : Coroutine) : Group :=
  { g with members := update g.members desc c }

def Group.hasMember (g : Group) (desc : String) : Bool := g.memberlist.contains desc

/-- The party is a coroutine that has ended. -/
def Group.ended (g : Group) : Party → Bool
  | .main => false
  | .member desc => (g.members desc).ended

def Group.getMember (g : Group) (desc : String) : Except Raised Party :=
  if desc = MAIN_LABEL then .ok .main
  else if g.hasMember desc then .ok (.member desc)
  else .error .error

def Group.allEnded (g : Group) : Bool := g.memberlist.all fun desc => (g.members desc).ended

/-- The `while` loop of `get_next_running` at index `i`. -/
def Group.scan (g : Group) (oldTargets : List String) :
    Nat → Nat → Option String → Option (Except Raised (Option String))
  | 0, _, _ => none
  | fuel + 1, i, curr =>
    match g.memberlist[i]? with
    | none => some (.error .error)
    | some desc =>
      if curr = some desc then some (.ok none)
      else if 0 < oldTargets.count desc || (g.members desc).ended then
        g.scan oldTargets fuel (if g.memberlist.length ≤ i + 1 then 0 else i + 1)
          (some (curr.getD desc))
      else some (.ok (some desc))

/-- `get_next_running`; `Party.main` stands for `None` too. Two rounds are enough for its
loop. -/
def Group.getNextRunning (g : Group) (curr : Party) (oldTargets : List String) :
    Except Raised (Option String) :=
  let fuel := 2 * g.memberlist.length + 2
  if g.allEnded then .ok none
  else
    match curr with
    | .main => (g.scan oldTargets fuel 0 none).getD (.error .error)
    | .member desc =>
      match g.memberlist.idxOf? desc with
      | none => .error .error
      | some j =>
        let i := if g.memberlist.length ≤ j + 1 then 0 else j + 1
        (g.scan oldTargets fuel i (some desc)).getD (.error .error)

-- ---------------------------------------------------------------------------
-- Scenarios
-- ---------------------------------------------------------------------------

inductive Mode where
  | replay
  | explore
deriving DecidableEq, Repr

/-- A condition given to `until`, on the state of the scenario and `map['yield_label']`. -/
abbrev Condition (σ : Type) := σ → String → Bool

structure Scenario (σ : Type) where
  mode : Mode
  actions : List TransferAction
  untils : List (Condition σ)
  index : Nat
  untilOpen : Bool

variable {σ : Type}

/-- `until`; `none` is `until_star`. -/
def Scenario.until (s : Scenario σ) (condition : Option (Condition σ)) : Scenario σ :=
  match condition with
  | none => { s with untils := [], untilOpen := true }
  | some c => { s with untils := s.untils ++ [c], untilOpen := true }

/-- What `Scenario.transfer` does first. -/
def Scenario.closeUntils (s : Scenario σ) : Scenario σ :=
  { s with untils := if s.untilOpen then s.untils else [], untilOpen := false }

def Scenario.checkAndResetUntils (s : Scenario σ) (now : σ) (label : String)
    (ending taken : Bool) : Bool × Scenario σ :=
  if s.untils.isEmpty then (ending || taken, s)
  else if s.untils.all fun f => f now label then (true, { s with untils := [] })
  else (false, s)

/-- `add_transfer_action(..., set_index=True)`. -/
def Scenario.addTransferAction (s : Scenario σ) (curr : Party) (label target : String)
    (free : Bool) : Except Raised (Option TransferAction) × Scenario σ :=
  let action := TransferAction.make (getDesc curr) label (some target) [] 1 true free
  (.ok (some action), { s with actions := s.actions ++ [action], index := s.actions.length })

/-- The part of `get_next_action` that follows the action at the index. -/
def Scenario.followAction (s : Scenario σ) (now : σ) (g : Group) (curr : Party) (label : String)
    (action : TransferAction) : Except Raised (Option TransferAction) × Scenario σ :=
  if action.taken = false then (.error .error, s)
  else
    match s.checkAndResetUntils now label false true with
    | (false, s) => (.error .backtrack, s)
    | (true, s) =>
      match action.targetLabel with
      | some _ => (.ok (some action), s)
      | none =>
        if action.free = false then (.error .error, s)
        else
          match g.getNextRunning curr action.oldTargets with
          | .error e => (.error e, s)
          | .ok none => (.error .backtrack, s)
          | .ok (some desc) =>
            let action := { action with targetLabel := some desc }
            (.ok (some action), { s with actions := s.actions.set s.index action })

/-- The part of `get_next_action` that finds out the next target and adds an action for it. -/
def Scenario.extendActions (s : Scenario σ) (now : σ) (g : Group) (curr : Party) (label : String)
    (target : Option Party) : Except Raised (Option TransferAction) × Scenario σ :=
  match curr, target with
  | .main, none =>
    match g.getNextRunning .main [] with
    | .error e => (.error e, s)
    | .ok none => (.error .backtrack, s)
    | .ok (some desc) =>
      if (g.members desc).ended then (.error .backtrack, s)
      else s.addTransferAction .main label desc true
  | .main, some .main => (.error .error, s)
  | .main, some (.member desc) =>
    if (g.members desc).ended then (.error .backtrack, s)
    else s.addTransferAction .main label desc false
  | .member _, none => (.error .error, s)
  | .member _, some target =>
    if label = ENDING_LABEL then
      match s.checkAndResetUntils now label true false with
      | (true, s) => s.addTransferAction curr label (getDesc target) false
      | (false, s) => (.error .backtrack, s)
    else if target ≠ .main then s.addTransferAction curr label (getDesc target) false
    else
      match s.checkAndResetUntils now label false false with
      | (true, s) => s.addTransferAction curr label (getDesc target) false
      | (false, s) => (.ok none, s)

def Scenario.getNextAction (s : Scenario σ) (now : σ) (g : Group) (curr : Party) (label : String)
    (target : Option Party) : Except Raised (Option TransferAction) × Scenario σ :=
  match s.actions[s.index]? with
  | some action => s.followAction now g curr label action
  | none =>
    if s.mode ≠ .explore ∨ s.index ≠ s.actions.length then (.error .error, s)
    else s.extendActions now g curr label target

/-- `consume_current_action`, with `consume_once`. -/
def Scenario.consumeCurrentAction (s : Scenario σ) : Except Raised Bool × Scenario σ :=
  match s.actions[s.index]? with
  | none => (.error .error, s)
  | some action =>
    if action.remCount = 0 then (.error .error, s)
    else
      let s := { s with
        actions := s.actions.set s.index { action with remCount := action.remCount - 1 } }
      if action.remCount = 1 then (.ok true, { s with index := s.index + 1 }) else (.ok false, s)

/-- `decide_next_target` of the scenario; `none` if control stays. -/
def Scenario.decideNextTarget (s : Scenario σ) (now : σ) (g : Group) (curr : Party)
    (label : String) (target : Option Party) : Except Raised (Option String) × Scenario σ :=
  match s.getNextAction now g curr label target with
  | (.error e, s) => (.error e, s)
  | (.ok none, s) => (.ok none, s)
  | (.ok (some action), s) =>
    if action.sourceLabel ≠ getDesc curr then (.error .error, s)
    else if label ≠ action.yieldLabel then (.ok none, s)
    else
      match s.consumeCurrentAction with
      | (.error e, s) => (.error e, s)
      | (.ok true, s) => (.ok action.targetLabel, s)
      | (.ok false, s) => (.ok none, s)

/-- `on_transfer` asserts that the last action is the transfer. -/
def Scenario.onTransfer (s : Scenario σ) (curr : Party) (label : String) (target : Party) : Bool :=
  decide (s.index ≤ s.actions.length) &&
    match if s.index = 0 then s.actions.getLast? else s.actions[s.index - 1]? with
    | none => false
    | some action => action.sourceLabel == getDesc curr && label == action.yieldLabel &&
        action.targetLabel == some (getDesc target)

/-- `on_yield`, which writes down a yield that has been passed; `none` if an assertion fails. -/
def Scenario.onYield (s : Scenario σ) (curr : Party) (label : String) (target : Option Party) :
    Option (Scenario σ) :=
  if s.mode = .replay then some s
  else if (s.actions[s.index]?).any fun action => !action.taken then none
  else
    match s.index with
    | 0 => some s
    | i + 1 =>
      match s.actions[i]? with
      | none => none
      | some action =>
        if action.targetLabel = some (getDesc curr) ∨
            (action.sourceLabel = getDesc curr ∧ action.taken = false) then
          if action.taken = false ∧ action.yieldLabel = label then
            some { s with actions := s.actions.set i { action with count := action.count + 1 } }
          else
            let free := target = none ∨ target = some .main
            let action := TransferAction.make (getDesc curr) label (target.map getDesc) [] 1 false free
            some { s with actions := s.actions.insertIdx s.index action, index := s.index + 1 }
        else none

/-- `preprocess_actions(reset_actions=True)`. -/
def Scenario.preprocessActions (s : Scenario σ) : Option (Scenario σ) :=
  let actions := s.actions.filter TransferAction.taken
  if actions.any fun action => action.count == 0 then none
  else some { s with index := 0, actions := actions.map TransferAction.reset }

/-- The loop of `backtrack`, over the actions from the last one on. -/
def unwind : List TransferAction → Except Raised (Option (List TransferAction))
  | [] => .ok none
  | action :: rest =>
    match action.targetLabel with
    | none => if action.taken then unwind rest else .error .error
    | some target =>
      let count := if 1 < action.count then action.count - 1 else 1
      if action.taken then
        if target ≠ MAIN_LABEL ∧ action.free then
          .ok (some (TransferAction.make action.sourceLabel action.yieldLabel none
            (action.oldTargets ++ [target]) count true true :: rest))
        else unwind rest
      else if action.sourceLabel = MAIN_LABEL ∨ target ≠ MAIN_LABEL then .error .error
      else if action.free then
        if action.oldTargets ≠ [] ∨ action.count = 0 then .error .error
        else .ok (some (TransferAction.make action.sourceLabel action.yieldLabel (some MAIN_LABEL)
          [] count true true :: rest))
      else unwind rest

/-- `backtrack`; `.ok none` if there is no alternative. -/
def Scenario.backtrack (s : Scenario σ) : Except Raised (Option (Scenario σ)) :=
  if s.actions.length < s.index then .error .error
  else
    match unwind s.actions.reverse with
    | .error e => .error e
    | .ok none => .ok none
    | .ok (some actions) =>
      match { s with actions := actions.reverse, untils := [] }.preprocessActions with
      | none => .error .error
      | some s => .ok (some s)

end Counit

end Concurrit.Model
