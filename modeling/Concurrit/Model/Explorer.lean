import Concurrit.Lib.Runs
import Concurrit.Model.Dsl

/-!
# Concurrit — exploration of a deterministic script

`Scenario::Explore` in FORALL mode without an execution budget, around
`RunTestCase`, as a machine that performs one operation of the test script per
step. The script is deterministic: its next operation is a function of the
answers it has received so far. What is not determined by the script (random
bits, the order in which threads evaluate a selection, timeouts) is the input
of the step.
-/

namespace Concurrit.Model

/-- A deterministic test script: the next operation after the answers so far. -/
abbrev Script := List Answer → Op

/-- An execution that has ended: the answers its script received, and why it ended. -/
structure Execution where
  history : List Answer
  reason : BacktrackReason
deriving DecidableEq, Repr

inductive Status where
  /-- an execution is in progress -/
  | running
  /-- the root is covered, `Explore` has left its loop -/
  | stopped
  /-- an internal check has failed -/
  | failed
deriving DecidableEq, Repr

structure Explorer where
  mgr : Manager
  /-- the answers the script has received in the execution in progress -/
  history : List Answer
  /-- the node stack as it was when the execution in progress began -/
  recorded : List ChildLoc
  /-- the executions that have ended, first one first -/
  executed : List Execution
  status : Status

namespace Explorer

/-- `Restart` before the next execution. -/
def startExecution (cfg : Cfg) (e : Explorer) : Explorer :=
  match e.mgr.restart cfg with
  | none => { e with status := .failed }
  | some m => { e with mgr := m, history := [], recorded := m.nodeStack, status := .running }

/-- The state before the first operation of the first execution. -/
def initial (cfg : Cfg) (nondet : StaticId → Bool) (numMembers : Nat) : Explorer :=
  startExecution cfg
    { mgr := Manager.initial nondet numMembers
      history := []
      recorded := []
      executed := []
      status := .running }

/-- `RunTestCase` turns a timeout after which all threads have ended into
`THREADS_ALLENDED`. -/
def handledReason (reason : BacktrackReason) (env : Env) : BacktrackReason :=
  if reason = .timeout ∧ env.allEndedAfter then .threadsAllEnded else reason

/-- The end of an execution: `EndWithSuccess`, then `Backtrack` decides whether
another execution starts. -/
def endExecution (cfg : Cfg) (e : Explorer) (reason : BacktrackReason) : Explorer :=
  match e.mgr.endWithSuccess cfg reason with
  | none => { e with status := .failed }
  | some m =>
    let ended : Execution := ⟨e.history, reason⟩
    let e := { e with mgr := m, executed := e.executed ++ [ended] }
    if m.isCovered ROOTNODE then { e with status := .stopped } else e.startExecution cfg

/-- One operation of the script. -/
def step (cfg : Cfg) (script : Script) (e : Explorer) (env : Env) : Explorer :=
  match e.status with
  | .running =>
    match e.mgr.dslOp (script e.history) env with
    | none => { e with status := .failed }
    | some (m, .returns a) => { e with mgr := m, history := e.history ++ [a] }
    | some (m, .throws reason) =>
      { e with mgr := m }.endExecution cfg (handledReason reason env)
  | _ => e

/-- The exploration of a script as a transition system. -/
def system (cfg : Cfg) (script : Script) (nondet : StaticId → Bool) (numMembers : Nat) :
    Runs.System Explorer Env :=
  Runs.machine (initial cfg nondet numMembers) (step cfg script)

/-- The exploration under a given sequence of inputs. -/
def run (cfg : Cfg) (script : Script) (nondet : StaticId → Bool) (numMembers : Nat)
    (envs : Nat → Env) : Nat → Explorer :=
  Runs.trace (initial cfg nondet numMembers) (step cfg script) envs

end Explorer

end Concurrit.Model
