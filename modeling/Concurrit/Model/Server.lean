import Concurrit.Model.Shadows

/-!
# Concurrit — the server of a remote program

Client threads send events on the event pipe, each one after the reply to the one before, and a
controller sends test requests on the control pipe. The server reads each pipe in a receiver of
its own (`ConcurrentPipe::thread_func`), which runs `ServerEventHandler::OnRecv` under the mutex
of the handler and then hands the event to the shadow thread of the client thread. The shadow
thread calls the callback of the event and replies (`ServerShadowThread::Run`). `StartTest`
waits for the next run of `__main__`; `EndTest` broadcasts `ThreadEndIntern` and waits until
every shadow thread has unregistered.

Mailboxes, registry and broadcasts are those of `ConcurrentPipe.lean`, where thread 0 is the
receiver of the event pipe and thread 1 the one of the control pipe.

`OnRecv` of a client's event is one step: it waits for `map_mutex_`, which nobody keeps outside
of a broadcast, and for the thread it creates. The callbacks return.

The program leaves it to the controller to start and to end the test: `concurritStartTest` and
`concurritEndTest` of the client, which send their request on the event pipe and read the pipe
in place of its receiver, come in `Requests.lean`. The reply to `ThreadEnd` ends the program, since
`set_tls(NULL)` asserts that nothing is set; a run ends with it.
-/

namespace Concurrit.Model

open Function (update)
open Ipc (EventKind)
open Ipc.EventKind

namespace Server

open Pipe (Event)

-- ---------------------------------------------------------------------------
-- States
-- ---------------------------------------------------------------------------

inductive Request where
  | testStart
  | testEnd
deriving DecidableEq, Repr

/-- The events a client thread sends. -/
def FromClient (k : EventKind) : Prop :=
  k ∈ [MemAccessBefore, MemAccessAfter, MemWrite, MemRead, FuncCall, FuncEnter, FuncReturn,
    ThreadStart, ThreadEnd, AtPc, AddressOfSymbol]

instance (k : EventKind) : Decidable (FromClient k) :=
  inferInstanceAs (Decidable (k ∈ _))

/-- A client thread, by its id. -/
inductive Client where
  | runs
  /-- in `SendRecvContinue`, until the reply to its event comes -/
  | waits (e : Event)
  /-- it has the reply to its `ThreadEnd` -/
  | ended
deriving DecidableEq, Repr

/-- The receiver of the control pipe. -/
inductive Control where
  | reads
  /-- before the mutex of the handler -/
  | locks (r : Request)
  /-- in `StartTest`, before `start_sem_.Wait()` -/
  | waitsStart
  /-- in `EndTest`, in `Broadcast` -/
  | broadcasts
  /-- in `EndTest`, until there are no shadow threads -/
  | waitsThreads
deriving DecidableEq, Repr

/-- In `StartTest` or `EndTest`, with the mutex of the handler. -/
def Control.holds : Control → Bool
  | .reads | .locks _ => false
  | .waitsStart | .broadcasts | .waitsThreads => true

/-- In `EndTest`. -/
def Control.ends : Control → Bool
  | .reads | .locks _ | .waitsStart => false
  | .broadcasts | .waitsThreads => true

/-- `sent` counts the events that a client thread has written to the event pipe, `continued` the
`Continue`s that the server has written for it; `asked` and `answered` count the requests read
from the control pipe and the `Continue`s written to it. -/
structure State where
  client : Nat → Client
  toServer : List Event
  toClient : List Event
  requests : List Request
  testStarted : Bool
  startSem : Nat
  endSem : Nat
  /-- `__main__` runs -/
  main : Bool
  /-- `clientpipe_` and `controlpipe_` have been assigned -/
  assigned : Bool
  /-- the event that the receiver of the event pipe has read and not yet passed to `OnRecv` -/
  received : Option Event
  control : Control
  pipe : Pipe.State
  /-- an assertion of the server has failed or it has used a `NULL` pipe -/
  crashed : Bool
  /-- an assertion of the program has failed -/
  clientFailed : Bool
  sent : Nat → Nat
  continued : Nat → Nat
  asked : Nat
  answered : Nat

def initial : State where
  client _ := .runs
  toServer := []
  toClient := []
  requests := []
  testStarted := false
  startSem := 0
  endSem := 0
  main := false
  assigned := false
  received := none
  control := .reads
  pipe := Pipe.noThreads
  crashed := false
  clientFailed := false
  sent _ := 0
  continued _ := 0
  asked := 0
  answered := 0

/-- Server and program are both there. -/
def State.up (s : State) : Prop := s.crashed = false ∧ s.clientFailed = false

-- ---------------------------------------------------------------------------
-- Steps
-- ---------------------------------------------------------------------------

/-- `ConcurrentPipe::SendContinue`. -/
def State.sendContinue (s : State) (tid : Nat) : State :=
  { s with
    toClient := s.toClient ++ [⟨Continue, tid⟩],
    continued := update s.continued tid (s.continued tid + 1) }

/-- The reply at the end of a round of `Run`, if it is the end of one. -/
def State.reply (s : State) (tid : Nat) : Pipe.Place → State
  | .handles e => if e.type = ThreadEndIntern then s else s.sendContinue tid
  | .absent | .loop | .waits | .copies | .leaves | .ended => s

def Client.next (e : Event) : Client :=
  if e.type = ThreadEnd then .ended else .runs

/-- A new shadow thread that has registered itself. -/
def registered (p : Pipe.State) (w tid : Nat) : Pipe.State :=
  { p with
    tid := update p.tid w tid, place := update p.place w .loop,
    registry := p.registry.orderedInsert
      (fun v v' => update p.tid w tid v ≤ update p.tid w tid v') w }

/-- `CreateShadowThread`. -/
inductive CreateShadowThread (p : Pipe.State) (tid : Nat) : Pipe.State → Prop where
  | new {w} (hAbsent : p.place w = .absent) (hTid : ∀ v ∈ p.registry, p.tid v ≠ tid) :
    CreateShadowThread p tid (registered p w tid)
  /-- `RegisterShadowThread` keeps the thread it has for the id: the new one is never found, so
  that it waits in its first `Recv` for ever -/
  | again {w} (hw : w ∈ p.registry) (hTid : p.tid w = tid) : CreateShadowThread p tid p

/-- `HandleEvent`: the shadow thread is started, if there is none for the id. -/
inductive HandleEvent (p : Pipe.State) (tid : Nat) : Pipe.State → Prop where
  | found {w} (hw : w ∈ p.registry) (hTid : p.tid w = tid) : HandleEvent p tid p
  | creates {p'} (hNone : ∀ v ∈ p.registry, p.tid v ≠ tid) (hCreate : CreateShadowThread p tid p') :
    HandleEvent p tid p'

/-- `OnRecv` passes the event on. -/
def State.forwards (s : State) (e : Event) : Prop :=
  e.type = AddressOfSymbol ∨ s.testStarted = true ∧ e.type ≠ ThreadStart

/-- `OnRecv` creates a shadow thread, which takes `clientpipe_` in `Run`. -/
def State.creates (s : State) (e : Event) : Prop :=
  s.testStarted = true ∧ e.type = ThreadStart ∨
    s.forwards e ∧ ∀ v ∈ s.pipe.registry, s.pipe.tid v ≠ e.threadid

inductive Label where
  /-- a client thread sends an event -/
  | send (e : Event)
  /-- a request is written to the control pipe -/
  | request (r : Request)
  /-- the client reads a message -/
  | client
  /-- the receiver of the event pipe, up to the end of `OnRecv` -/
  | receiver
  /-- the receiver of the control pipe -/
  | control
  | main
  /-- an event is handed over -/
  | sender (j : Nat)
  | shadow (w : Nat)
deriving DecidableEq, Repr

/-- A step that needs no new message. -/
def Label.internal : Label → Bool
  | .send _ | .request _ => false
  | .client | .receiver | .control | .main | .sender _ | .shadow _ => true

inductive Step (s : State) : Label → State → Prop where
  | send {e} (hRuns : s.client e.threadid = .runs) (hTid : 2 ≤ e.threadid) (hKind : FromClient e.type) :
    Step s (.send e)
      { s with
        client := update s.client e.threadid (.waits e), toServer := s.toServer ++ [e],
        sent := update s.sent e.threadid (s.sent e.threadid + 1) }
  | request (r : Request) : Step s (.request r) { s with requests := s.requests ++ [r] }
  -- the client
  | continues {t e rest} (hNext : s.toClient = ⟨Continue, t⟩ :: rest) (hWaits : s.client t = .waits e) :
    Step s .client
      { s with
        toClient := rest, client := update s.client t (.next e),
        -- `OnEnd`: the assertion of `set_tls(NULL)`
        clientFailed := e.type = ThreadEnd }
  | notices {e rest} (hNext : s.toClient = e :: rest) (hKind : e.type ≠ Continue) :
    Step s .client { s with toClient := rest }
  -- the receiver of the event pipe
  | reads {e rest} (hNext : s.toServer = e :: rest) (hNone : s.received = none)
    (hIdle : s.pipe.act 0 = .idle) :
    Step s .receiver { s with toServer := rest, received := some e }
  /-- the test has not started -/
  | ignores {e} (hAt : s.received = some e) (hFree : s.control.holds = false)
    (hNot : s.testStarted = false) (hKind : e.type ≠ AddressOfSymbol) :
    Step s .receiver (State.sendContinue { s with received := none } e.threadid)
  | startsThread {e p} (hAt : s.received = some e) (hFree : s.control.holds = false)
    (hMap : s.pipe.owner = none) (hStarted : s.testStarted = true) (hKind : e.type = ThreadStart)
    (hAssigned : s.assigned = true) (hCreate : CreateShadowThread s.pipe e.threadid p) :
    Step s .receiver (State.sendContinue { s with received := none, pipe := p } e.threadid)
  | forwards {e p} (hAt : s.received = some e) (hFree : s.control.holds = false)
    (hMap : s.pipe.owner = none) (hKind : s.forwards e)
    (hAssigned : s.creates e → s.assigned = true) (hHandle : HandleEvent s.pipe e.threadid p) :
    Step s .receiver
      { s with received := none, pipe := { p with act := update p.act 0 (.looksUp e) } }
  /-- `Run` of the new shadow thread finds no `clientpipe_` -/
  | noClientPipe {e} (hAt : s.received = some e) (hFree : s.control.holds = false)
    (hMap : s.pipe.owner = none) (hCreates : s.creates e) (hAssigned : s.assigned = false) :
    Step s .receiver { s with crashed := true }
  | handsOver {j p} (hStep : Pipe.Step s.pipe (.sender j) p) : Step s (.sender j) { s with pipe := p }
  -- `Run`
  | runs {w p} (hStep : Pipe.Step s.pipe (.shadow w) p) :
    Step s (.shadow w) (State.reply { s with pipe := p } (s.pipe.tid w) (s.pipe.place w))
  -- the receiver of the control pipe, with `controlpipe_->SendContinue(0)` for each reply
  | readsRequest {r rest} (hNext : s.requests = r :: rest) (hAt : s.control = .reads) :
    Step s .control { s with requests := rest, control := .locks r, asked := s.asked + 1 }
  /-- the test has started already -/
  | startsAgain (hAt : s.control = .locks .testStart) (hStarted : s.testStarted = true) :
    Step s .control { s with control := .reads, answered := s.answered + 1 }
  | waitsStart (hAt : s.control = .locks .testStart) (hNot : s.testStarted = false) :
    Step s .control { s with control := .waitsStart }
  | starts (hAt : s.control = .waitsStart) (hSem : 0 < s.startSem) :
    Step s .control
      { s with
        startSem := s.startSem - 1, testStarted := true,
        toClient := s.toClient ++ [⟨TestStart, 0⟩], control := .reads, answered := s.answered + 1 }
  | endsAgain (hAt : s.control = .locks .testEnd) (hNot : s.testStarted = false)
    (hAssigned : s.assigned = true) :
    Step s .control { s with control := .reads, answered := s.answered + 1 }
  /-- there is no `controlpipe_` for the reply -/
  | noControlPipe (hAt : s.control = .locks .testEnd) (hNot : s.testStarted = false)
    (hAssigned : s.assigned = false) : Step s .control { s with crashed := true }
  | ends (hAt : s.control = .locks .testEnd) (hStarted : s.testStarted = true) :
    Step s .control
      { s with
        testStarted := false, toClient := s.toClient ++ [⟨TestEnd, 0⟩], control := .broadcasts,
        pipe := { s.pipe with act := update s.pipe.act 1 (.broadcasts ⟨ThreadEndIntern, 0⟩) } }
  | broadcast (hAt : s.control = .broadcasts) (hDone : s.pipe.act 1 = .idle) :
    Step s .control { s with control := .waitsThreads }
  /-- the control pipe, `concpipe`, has no shadow threads of its own -/
  | ended (hAt : s.control = .waitsThreads) (hMap : s.pipe.owner = none)
    (hNone : s.pipe.registry = []) :
    Step s .control
      { s with endSem := s.endSem + 1, control := .reads, answered := s.answered + 1 }
  -- `main0`
  | mainBegins (hMain : s.main = false) (hEnd : s.endSem = 0) (hStart : s.startSem = 0) :
    Step s .main { s with main := true, assigned := true, startSem := s.startSem + 1 }
  | mainFails (hMain : s.main = false) (hSems : 0 < s.endSem ∨ 0 < s.startSem) :
    Step s .main { s with crashed := true }
  | mainEnds (hMain : s.main = true) (hSem : 0 < s.endSem) :
    Step s .main { s with main := false, endSem := s.endSem - 1 }

def system : Runs.System State Label where
  init s := s = initial
  step s l s' := s.up ∧ Step s l s'

/-- A test ends between the events: when the broadcast of `EndTest` locks the registry, the
receiver has no event that it has accepted and not looked up a shadow thread for, and no
registered shadow thread has its last event or is to get it; and the broadcast takes no permit
of a shadow thread that the receiver has found. Before `__main__` runs, no `TestEnd` and no
event that needs a shadow thread come to the handler. -/
def EndsBetween (s : State) : Label → Prop
  | .receiver => s.assigned = true ∨ ∀ e, s.received = some e → ¬ s.creates e
  | .control => s.assigned = true ∨ s.control ≠ .locks .testEnd
  | .sender j =>
    (∀ e, s.pipe.act j = .broadcasts e →
      (∀ e', s.pipe.act 0 ≠ .looksUp e') ∧ ∀ w ∈ s.pipe.registry, ¬ Pipe.Finishing s.pipe w) ∧
    ∀ w e rest e', s.pipe.act j = .signals w e (some rest) → s.pipe.act 0 ≠ .signals w e' none
  | .send _ | .request _ | .client | .main | .shadow _ => True

end Server

end Concurrit.Model
