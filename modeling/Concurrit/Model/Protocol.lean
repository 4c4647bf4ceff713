import Mathlib.Logic.Function.Basic
import Concurrit.Lib.Runs
import Concurrit.Model.Manager

/-!
# Concurrit — the reference to the current node

The main thread and any number of test threads around `atomic_ref_`, within one
execution: `AcquireRef` and `ReleaseRef`, the script's statements on the side of the
main thread, `OnControlledTransition` on the side of the test threads, and the ways
an execution ends, `EndWithSuccess` and `EndWithException`. Every access to the
reference, to the lock node's owner, to the semaphore, to the mutex or the condition
variable is a step of its own. Mutex and condition variable are static members of
`ExecutionTree`, so all nodes share one of each, the end node included.

Which predicate holds of which offered transition may change from one evaluation to
the next, so each evaluation comes with the truth of all predicates.
-/

namespace Concurrit.Model

open Function (update)

namespace Protocol

-- ---------------------------------------------------------------------------
-- The reference and the nodes
-- ---------------------------------------------------------------------------

/-- The values of `atomic_ref_`: null, the lock node, the end node, or a submitted node. -/
inductive Ref where
  | empty
  | lock
  | endNode
  | full (n : Nat)
deriving DecidableEq, Repr

inductive AcquireRefMode where
  | EXIT_ON_EMPTY
  | EXIT_ON_FULL
  | EXIT_ON_LOCK
deriving DecidableEq, Repr

/-- The values other than lock and end node with which `AcquireRef` returns in a mode. -/
def AcquireRefMode.exits : AcquireRefMode → Ref → Bool
  | .EXIT_ON_EMPTY, .empty => true
  | .EXIT_ON_FULL, .full _ => true
  | .EXIT_ON_LOCK, .empty => true
  | .EXIT_ON_LOCK, .full _ => true
  | _, _ => false

/-- `RunThroughNode`, `RunUntilNode` and the thread selections. -/
inductive NodeKind where
  | runThrough
  | runUntil
  | selectThread
deriving DecidableEq, Repr

/-- A submitted node, with the constraints that were installed then (not known to the code). -/
structure NodeInfo (P : Type) where
  kind : NodeKind
  pred : P
  installed : List P

/-- A transition a thread offers; the number tells its transitions apart. -/
structure Offer (Trans : Type) where
  number : Nat
  trans : Trans

/-- One evaluation of an offered transition on a node, with the truth of the predicates. -/
structure Entry (P Trans : Type) where
  thread : Nat
  offer : Offer Trans
  node : Nat
  holds : P → Bool
  consume : Bool
  take : Bool

/-- `EvalTransition` and `EvalSelectThread`: whether the node is consumed (`child_index >= 0`)
and whether the transition is taken. `selects` is the answer of `CheckAndSelectThread`. -/
def evalNode {P : Type} (holds : P → Bool) (constraints : List P) (selects : Bool) (kind : NodeKind)
    (pred : P) : Bool × Bool :=
  match kind with
  | .selectThread => (selects, false)
  | .runThrough => if constraints.all holds then (holds pred, true) else (false, false)
  | .runUntil => if constraints.all holds then (holds pred, !holds pred) else (false, false)

-- ---------------------------------------------------------------------------
-- Where a thread stands
-- ---------------------------------------------------------------------------

/-- The caller of `AcquireRef`. -/
inductive Call (P Trans : Type) where
  /-- `OnControlledTransition` -/
  | controlled (o : Offer Trans)
  /-- a statement that submits a node -/
  | submit (kind : NodeKind) (pred : P)
  /-- the same statement, waiting for the node to be consumed -/
  | await (n : Nat)
  /-- a choice or a conditional -/
  | choose
  | endWithSuccess (reason : BacktrackReason)
  /-- with the reason it adds to the end node, and the transition it was thrown in, if any -/
  | endWithException (reason : BacktrackReason) (thrown : Option (Offer Trans))

/-- The mode of the call. -/
def Call.mode {P Trans : Type} : Call P Trans → AcquireRefMode
  | .controlled _ => .EXIT_ON_FULL
  | .submit .. => .EXIT_ON_EMPTY
  | .await _ => .EXIT_ON_EMPTY
  | .choose => .EXIT_ON_EMPTY
  | .endWithSuccess _ => .EXIT_ON_LOCK
  | .endWithException .. => .EXIT_ON_LOCK

/-- What follows `ReleaseRef`. -/
inductive Next (Trans : Type) where
  /-- the transition is let through -/
  | finish
  /-- the node is consumed, the transition is offered again -/
  | again (o : Offer Trans)
  /-- wait for the node to be consumed -/
  | wait (o : Offer Trans) (n : Nat)
  | await (n : Nat)
  | script
  | throw (reason : BacktrackReason)
  | ended (reason : BacktrackReason)
  | broadcast

inductive Pc (P Trans : Type) where
  /-- not created yet -/
  | fresh
  /-- in its program; the main thread in the script -/
  | running
  | done
  /-- before `ExchangeRef(LOCKNODE())` -/
  | acquire (c : Call P Trans)
  /-- `ExchangeRef` has returned the value -/
  | saw (c : Call P Trans) (r : Ref)
  | semWait (c : Call P Trans)
  | semSignal (c : Call P Trans)
  /-- at the end of the loop of `AcquireRef` -/
  | retry (c : Call P Trans)
  /-- `AcquireRef` has returned -/
  | acquired (c : Call P Trans) (r : Ref)
  | evaluated (o : Offer Trans) (n : Nat) (consume take : Bool)
  /-- `ReleaseRef`, before `OnUnlock` -/
  | unlock (v : Ref) (k : Next Trans)
  /-- `ReleaseRef`, before `SetRef` -/
  | store (v : Ref) (k : Next Trans)
  /-- `ReleaseRef`, before `sem_ref_.Signal()` -/
  | signal (k : Next Trans)
  /-- holds the mutex, before it sleeps on the condition variable -/
  | condWait (o : Offer Trans) (n : Nat)
  /-- asleep, with the number of broadcasts that came before -/
  | asleep (o : Offer Trans) (n casts : Nat)
  | woken (o : Offer Trans) (n : Nat)
  | leaveMutex (o : Offer Trans) (n : Nat)
  /-- a backtrack exception unwinds the script -/
  | unwinding (reason : BacktrackReason)
  /-- `EndWithSuccess`, before `SetRef(LOCKNODE())` -/
  | force
  /-- `EndWithSuccess`, before `OnLock` -/
  | forced
  /-- `EndWithException`, before its broadcast -/
  | broadcast
  /-- an assertion has failed -/
  | aborted

structure Shared (P Trans : Type) where
  ref : Ref
  /-- the owner of the lock node -/
  owner : Option Nat
  /-- the value of `sem_ref_` -/
  sem : Nat
  /-- `trans_constraints_`, the last installed at the end -/
  constraints : List P
  nodes : List (NodeInfo P)
  /-- the owner of the mutex -/
  mutex : Option Nat
  /-- the broadcasts on the condition variable -/
  casts : Nat
  /-- the threads created and not ended -/
  live : List Nat
  /-- the reasons added to the end node -/
  reasons : List BacktrackReason
  /-- the transitions of a thread so far -/
  offers : Nat → Nat
  /-- the nodes consumed; not known to the code -/
  consumed : List Nat
  /-- the thread that has stored the end node and has its broadcast still to do; not known to
  the code -/
  herald : Option Nat
  /-- the evaluations so far, the oldest first; not known to the code -/
  log : List (Entry P Trans)

/-- The thread that runs the script. -/
def main : Nat := 0

variable {P Trans : Type}

/-- Where a thread goes on after `ReleaseRef`. -/
def Next.pc : Next Trans → Pc P Trans
  | .finish => .running
  | .again o => .acquire (.controlled o)
  | .wait o n => .condWait o n
  | .await n => .acquire (.await n)
  | .script => .running
  | .throw reason => .unwinding reason
  | .ended reason =>
    if reason = .success then .done else .acquire (.endWithException reason none)
  | .broadcast => .broadcast

/-- Whether the thread broadcasts after it has stored the end node. `EndWithSuccess` does not,
but `RunTestCase` goes on to `EndWithException` unless the script has come to its end. -/
def Next.heralds : Next Trans → Bool
  | .ended reason => reason != .success
  | _ => true

/-- Who owes the broadcast once thread `t` has stored `v`. -/
def Shared.heraldAfter (s : Shared P Trans) (t : Nat) (v : Ref) (k : Next Trans) : Option Nat :=
  if v = .endNode then if k.heralds then some t else none else s.herald

/-- The calls of the script, which `AcquireRefEx` leaves with an exception when it times out. -/
def Call.ofScript : Call P Trans → Bool
  | .submit .. => true
  | .await _ => true
  | .choose => true
  | _ => false

/-- The reasons with which `RunTestCase` goes on to `EndWithSuccess`. -/
def retries : BacktrackReason → Bool
  | .timeout | .replayFails | .treeNodeCovered | .assumeFails | .threadsAllEnded => true
  | _ => false

/-- Where `RunTestCase` goes on when it has caught a backtrack exception. -/
def caught (live : List Nat) (reason : BacktrackReason) : Pc P Trans :=
  -- a timeout counts as the end of all threads if they have ended meanwhile
  let reason := if reason = .timeout ∧ live = [] then .threadsAllEnded else reason
  if reason = .threadsAllEnded then .force
  else if retries reason then .acquire (.endWithSuccess reason)
  else .acquire (.endWithException reason none)

-- ---------------------------------------------------------------------------
-- Steps
-- ---------------------------------------------------------------------------

inductive Label where
  | step
  /-- the main thread's wait for the reference times out -/
  | timeout
  /-- `SetRef(LOCKNODE())` in `EndWithSuccess` -/
  | force
  /-- an exception leaves the block of a `ConstraintInstaller`, which removes its constraint -/
  | unwind
  /-- a node is consumed, the condition variable is broadcast -/
  | consume (n : Nat)
deriving DecidableEq, Repr

/-- One step of thread `t`: it changes what is shared and goes on to another place. -/
inductive Does (t : Nat) : Shared P Trans → Pc P Trans → Label → Shared P Trans → Pc P Trans → Prop
  where
  -- the program under test
  | create {s} (hTest : t ≠ main) : Does t s .fresh .step { s with live := t :: s.live } .running
  | exit {s} (hTest : t ≠ main) :
    Does t s .running .step { s with live := s.live.filter (· ≠ t) } .done
  | offer {s} (hTest : t ≠ main) (trans : Trans) :
    Does t s .running .step { s with offers := update s.offers t (s.offers t + 1) }
      (.acquire (.controlled ⟨s.offers t, trans⟩))
  /-- an exception of the program, or `concurritEndTest` -/
  | endExecution {s} (hTest : t ≠ main) (reason : BacktrackReason) :
    Does t s .running .step s (.acquire (.endWithException reason none))
  -- `AcquireRef`
  | exchange {s c} : Does t s (.acquire c) .step { s with ref := .lock } (.saw c s.ref)
  | yieldLock {s c} (hOwner : s.owner ≠ some t) : Does t s (.saw c .lock) .step s (.retry c)
  | relock {s c} (hOwner : s.owner = some t) (hMode : c.mode = .EXIT_ON_LOCK) :
    Does t s (.saw c .lock) .step s (.acquired c .lock)
  | doubleLock {s c} (hOwner : s.owner = some t) (hMode : c.mode ≠ .EXIT_ON_LOCK) :
    Does t s (.saw c .lock) .step s .aborted
  | seeEnd {s c} :
    Does t s (.saw c .endNode) .step { s with ref := .endNode } (.acquired c .endNode)
  | onLock {s c r} (hExits : c.mode.exits r = true) (hOwner : s.owner = none) :
    Does t s (.saw c r) .step { s with owner := some t } (.acquired c r)
  | onLockFails {s c r} (hExits : c.mode.exits r = true) (hOwner : s.owner ≠ none) :
    Does t s (.saw c r) .step s .aborted
  | putBack {s c r} (hExits : c.mode.exits r = false) (hLock : r ≠ .lock) (hEnd : r ≠ .endNode) :
    Does t s (.saw c r) .step { s with ref := r } (.semWait c)
  | semWait {s c} (hSem : 0 < s.sem) :
    Does t s (.semWait c) .step { s with sem := s.sem - 1 } (.semSignal c)
  | semSignal {s c} : Does t s (.semSignal c) .step { s with sem := s.sem + 1 } (.retry c)
  | retry {s c} : Does t s (.retry c) .step s (.acquire c)
  | waitTimeout {s c} (hMain : t = main) (hScript : c.ofScript = true) :
    Does t s (.semWait c) .timeout s (.unwinding .timeout)
  | retryTimeout {s c} (hMain : t = main) (hScript : c.ofScript = true) :
    Does t s (.retry c) .timeout s (.unwinding .timeout)
  /-- `EndWithSuccess` expects no timeout -/
  | endTimeout {s reason} (hMain : t = main) :
    Does t s (.retry (.endWithSuccess reason)) .timeout s .aborted
  -- `OnControlledTransition`
  | offerEnded {s o} : Does t s (.acquired (.controlled o) .endNode) .step s .running
  | evaluate {s o n info} (holds : P → Bool) (selects : Bool) (hNode : s.nodes[n]? = some info) :
    Does t s (.acquired (.controlled o) (.full n)) .step
      { s with log := s.log ++ [⟨t, o, n, holds,
          (evalNode holds s.constraints selects info.kind info.pred).1,
          (evalNode holds s.constraints selects info.kind info.pred).2⟩] }
      (.evaluated o n (evalNode holds s.constraints selects info.kind info.pred).1
        (evalNode holds s.constraints selects info.kind info.pred).2)
  /-- an assertion is violated or a predicate throws -/
  | evaluationThrows {s o n} (reason : BacktrackReason) :
    Does t s (.acquired (.controlled o) (.full n)) .step s
      (.acquire (.endWithException reason (some o)))
  | consume {s o n take} :
    Does t s (.evaluated o n true take) (.consume n)
      { s with casts := s.casts + 1, consumed := n :: s.consumed }
      (.unlock .empty (if take then .finish else .again o))
  | keep {s o n} : Does t s (.evaluated o n false true) .step s (.unlock (.full n) .finish)
  | lockMutex {s o n} (hFree : s.mutex = none) :
    Does t s (.evaluated o n false false) .step { s with mutex := some t }
      (.unlock (.full n) (.wait o n))
  | condWait {s o n} :
    Does t s (.condWait o n) .step { s with mutex := none } (.asleep o n s.casts)
  /-- a broadcast has come since, be it for this node, another one or the end node -/
  | wake {s o n casts} (hCast : casts < s.casts) :
    Does t s (.asleep o n casts) .step s (.woken o n)
  | wakeTimed {s o n casts} : Does t s (.asleep o n casts) .timeout s (.woken o n)
  | relockMutex {s o n} (hFree : s.mutex = none) :
    Does t s (.woken o n) .step { s with mutex := some t } (.leaveMutex o n)
  | leaveMutex {s o n} :
    Does t s (.leaveMutex o n) .step { s with mutex := none } (.acquire (.controlled o))
  -- `ReleaseRef`
  | unlock {s v k} (hLock : s.ref = .lock) (hOwner : s.owner = some t) :
    Does t s (.unlock v k) .step { s with owner := none } (.store v k)
  | unlockFails {s v k} (hNot : ¬ (s.ref = .lock ∧ s.owner = some t)) :
    Does t s (.unlock v k) .step s .aborted
  | store {s v k} :
    Does t s (.store v k) .step { s with ref := v, herald := s.heraldAfter t v k } (.signal k)
  | signal {s k} : Does t s (.signal k) .step { s with sem := s.sem + 1 } k.pc
  -- the script
  | install {s} (hMain : t = main) (p : P) :
    Does t s .running .step { s with constraints := s.constraints ++ [p] } .running
  | uninstall {s p cs} (hMain : t = main) (hLast : s.constraints = cs ++ [p]) :
    Does t s .running .step { s with constraints := cs } .running
  | submit {s} (hMain : t = main) (kind : NodeKind) (pred : P) :
    Does t s .running .step s (.acquire (.submit kind pred))
  | choose {s} (hMain : t = main) : Does t s .running .step s (.acquire .choose)
  | throw {s} (hMain : t = main) (reason : BacktrackReason)
    (hEnded : reason = .threadsAllEnded → s.live = []) :
    Does t s .running .step s (.unwinding reason)
  | testCaseEnds {s} (hMain : t = main) (hLeft : s.constraints = []) :
    Does t s .running .step s (.acquire (.endWithSuccess .success))
  | submitted {s kind pred} (hMain : t = main) :
    Does t s (.acquired (.submit kind pred) .empty) .step
      { s with nodes := s.nodes ++ [⟨kind, pred, s.constraints⟩] }
      (.unlock (.full s.nodes.length) (.await s.nodes.length))
  | awaited {s n} (hMain : t = main) : Does t s (.acquired (.await n) .empty) .step s (.unlock .empty .script)
  | chosen {s} (hMain : t = main) : Does t s (.acquired .choose .empty) .step s (.unlock .empty .script)
  /-- the node is covered, or a conditional has changed -/
  | refused {s c} (hMain : t = main) (hScript : c.ofScript = true) (hAwait : ∀ n, c ≠ .await n)
    (reason : BacktrackReason) (hReason : reason ≠ .threadsAllEnded) :
    Does t s (.acquired c .empty) .step s (.unlock .empty (.throw reason))
  /-- `AcquireRefEx` throws at the end node, with the exception of the thread that ended -/
  | scriptEnded {s c} (hMain : t = main) (hScript : c.ofScript = true) (reason : BacktrackReason)
    (hReason : reason = .exception ∨ reason ∈ s.reasons) :
    Does t s (.acquired c .endNode) .step s (.unwinding reason)
  | unwind {s p cs reason} (hMain : t = main) (hLast : s.constraints = cs ++ [p]) :
    Does t s (.unwinding reason) .unwind { s with constraints := cs } (.unwinding reason)
  | caught {s reason} (hMain : t = main) (hLeft : s.constraints = []) :
    Does t s (.unwinding reason) .step s (caught s.live reason)
  -- `EndWithSuccess`
  | force {s} (hMain : t = main) : Does t s .force .force { s with ref := .lock } .forced
  | forced {s} (hMain : t = main) (hOwner : s.owner = none) :
    Does t s .forced .step { s with owner := some t }
      (.acquired (.endWithSuccess .threadsAllEnded) .lock)
  | forcedFails {s} (hMain : t = main) (hOwner : s.owner ≠ none) : Does t s .forced .step s .aborted
  | endedWithSuccess {s r reason} (hMain : t = main) (hEnd : r ≠ .endNode) :
    Does t s (.acquired (.endWithSuccess reason) r) .step s (.unlock .endNode (.ended reason))
  | endedBefore {s reason} (hMain : t = main) :
    Does t s (.acquired (.endWithSuccess reason) .endNode) .step s
      (.acquire (.endWithException .exception none))
  -- `EndWithException`
  | addException {s r reason thrown} (hEnd : r ≠ .endNode) :
    Does t s (.acquired (.endWithException reason thrown) r) .step
      { s with reasons := reason :: s.reasons } (.unlock .endNode .broadcast)
  | addExceptionEnded {s reason thrown} :
    Does t s (.acquired (.endWithException reason thrown) .endNode) .step
      { s with reasons := reason :: s.reasons } .broadcast
  | broadcast {s} :
    Does t s .broadcast .step
      { s with casts := s.casts + 1, herald := if s.herald = some t then none else s.herald }
      (if t = main then .done else .running)

structure State (P Trans : Type) where
  shared : Shared P Trans
  pc : Nat → Pc P Trans

def State.start : State P Trans where
  shared :=
    { ref := .empty, owner := none, sem := 0, constraints := [], nodes := [],
      mutex := none, casts := 0, live := [], reasons := [], offers := fun _ => 0, consumed := [],
      herald := none, log := [] }
  pc t := if t = main then .running else .fresh

/-- The state after a step of thread `t`. -/
def State.put (s : State P Trans) (t : Nat) (sh : Shared P Trans) (pc : Pc P Trans) :
    State P Trans :=
  ⟨sh, update s.pc t pc⟩

@[simp]
theorem State.put_shared (s : State P Trans) (t : Nat) (sh : Shared P Trans) (pc : Pc P Trans) :
    (s.put t sh pc).shared = sh := rfl

@[simp]
theorem State.put_self (s : State P Trans) (t : Nat) (sh : Shared P Trans) (pc : Pc P Trans) :
    (s.put t sh pc).pc t = pc :=
  Function.update_self ..

theorem State.put_of_ne (s : State P Trans) (sh : Shared P Trans) (pc : Pc P Trans) {t u : Nat}
    (h : u ≠ t) : (s.put t sh pc).pc u = s.pc u :=
  Function.update_of_ne h ..

/-- Thread `t` does a step. -/
inductive Step (s : State P Trans) : Nat × Label → State P Trans → Prop where
  | mk {t l sh pc} (hDoes : Does t s.shared (s.pc t) l sh pc) : Step s (t, l) (s.put t sh pc)

def system (P Trans : Type) : Runs.System (State P Trans) (Nat × Label) where
  init s := s = .start
  step := Step

/-- One more step of a run. -/
theorem reach_put {s : State P Trans} {sh' : Shared P Trans} {pc pc' : Pc P Trans} {t : Nat} {l : Label}
    {ok : State P Trans → Nat × Label → Prop}
    (h : Runs.ReachableUnder (system P Trans) ok s) (hPc : s.pc t = pc)
    (hDoes : Does t s.shared pc l sh' pc') (hOk : ok s (t, l)) :
    Runs.ReachableUnder (system P Trans) ok (s.put t sh' pc') :=
  h.step hOk (.mk (hPc ▸ hDoes))

end Protocol

end Concurrit.Model
