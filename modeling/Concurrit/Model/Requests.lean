import Concurrit.Model.ServerProgress

/-!
# Concurrit — test start and test end requests

`ServerEventHandler::OnRecv` with `StartTest` and `EndTest`, for requests on both pipes. The
controller writes them to the control pipe. A program that calls `concurritStartTest` or
`concurritEndTest` itself writes them to the event pipe and reads the reply there, in place of
the receiver of the client. The server replies with `controlpipe_->SendContinue(0)` in either
case, and `controlpipe_` is `NULL` until `__main__` runs for the first time.

The server with its receivers, its shadow threads and its broadcasts is that of `Server.lean`,
where only the controller has requests. Here the receiver of the event pipe may be in `StartTest`
or `EndTest` too; the two receivers keep each other out by the mutex of the handler.

* `OnControl`         — the controller asks, not too early, and no thread of the program ends.
* `requests_answered` — then every request is answered once, on its pipe, whatever the order of
  the steps is.
-/

namespace Concurrit.Model

open Function (update)
open Ipc (EventKind)
open Ipc.EventKind

namespace Requests

open Server (Request Control Lasting UsesPipes)
open Pipe (Event)

-- ---------------------------------------------------------------------------
-- States
-- ---------------------------------------------------------------------------

inductive PipeName where
  | control
  | event
deriving DecidableEq, Repr

structure State where
  server : Server.State
  /-- where the receiver of the event pipe stands with a request of the program -/
  event : Control
  /-- the requests that it has read -/
  asked : Nat
  /-- the threads of the program in `pipe_->Recv` for the reply to a request -/
  waiting : Nat

def initial : State := ⟨Server.initial, .reads, 0, 0⟩

def requestType : Request → EventKind
  | .testStart => TestStart
  | .testEnd => TestEnd

-- ---------------------------------------------------------------------------
-- Steps
-- ---------------------------------------------------------------------------

inductive Label where
  /-- a step of the server or of the program that is none of the following -/
  | server (l : Server.Label)
  /-- a thread of the program calls `concurritStartTest` or `concurritEndTest` -/
  | asks (r : Request)
  /-- and gets a message -/
  | gets
  /-- the receiver of the event pipe, with a request -/
  | event
deriving DecidableEq, Repr

/-- A step that needs no new message. -/
def Label.internal : Label → Bool
  | .server l => l.internal
  | .asks _ => false
  | .gets | .event => true

inductive Step (x : State) : Label → State → Prop where
  | server {l s'} (hStep : Server.Step x.server l s')
    (hReceiver : l = .receiver →
      x.event = .reads ∧ ∀ e r, x.server.received = some e → e.type ≠ requestType r)
    (hMutex : l = .control → x.event.holds = true → ∀ r, x.server.control ≠ .locks r) :
    Step x (.server l) { x with server := s' }
  -- the program
  | asks (r : Request) :
    Step x (.asks r)
      { x with
        server := { x.server with toServer := x.server.toServer ++ [⟨requestType r, 0⟩] },
        waiting := x.waiting + 1 }
  /-- whatever comes next on the pipe; it has to be a `Continue` -/
  | gets {e rest} (hWaits : 0 < x.waiting) (hNext : x.server.toClient = e :: rest) :
    Step x .gets
      { x with
        server := { x.server with toClient := rest, clientFailed := e.type ≠ Continue },
        waiting := x.waiting - 1 }
  -- the receiver of the event pipe
  | takes {e r} (hReads : x.event = .reads) (hAt : x.server.received = some e)
    (hKind : e.type = requestType r) :
    Step x .event
      { x with
        server := { x.server with received := none }, event := .locks r, asked := x.asked + 1 }
  -- `StartTest` and `EndTest`, with `controlpipe_->SendContinue(0)` for each reply
  | startsAgain (hAt : x.event = .locks .testStart) (hFree : x.server.control.holds = false)
    (hStarted : x.server.testStarted = true) :
    Step x .event
      { x with event := .reads, server := { x.server with answered := x.server.answered + 1 } }
  | waitsStart (hAt : x.event = .locks .testStart) (hFree : x.server.control.holds = false)
    (hNot : x.server.testStarted = false) : Step x .event { x with event := .waitsStart }
  | starts (hAt : x.event = .waitsStart) (hSem : 0 < x.server.startSem) :
    Step x .event
      { x with
        event := .reads,
        server := { x.server with
          startSem := x.server.startSem - 1, testStarted := true,
          toClient := x.server.toClient ++ [⟨TestStart, 0⟩], answered := x.server.answered + 1 } }
  | endsAgain (hAt : x.event = .locks .testEnd) (hFree : x.server.control.holds = false)
    (hNot : x.server.testStarted = false) (hAssigned : x.server.assigned = true) :
    Step x .event
      { x with event := .reads, server := { x.server with answered := x.server.answered + 1 } }
  | noControlPipe (hAt : x.event = .locks .testEnd) (hFree : x.server.control.holds = false)
    (hNot : x.server.testStarted = false) (hAssigned : x.server.assigned = false) :
    Step x .event { x with server := { x.server with crashed := true } }
  | ends (hAt : x.event = .locks .testEnd) (hFree : x.server.control.holds = false)
    (hStarted : x.server.testStarted = true) :
    Step x .event
      { x with
        event := .broadcasts,
        server := { x.server with
          testStarted := false, toClient := x.server.toClient ++ [⟨TestEnd, 0⟩],
          pipe := { x.server.pipe with
            act := update x.server.pipe.act 0 (.broadcasts ⟨ThreadEndIntern, 0⟩) } } }
  | broadcast (hAt : x.event = .broadcasts) (hDone : x.server.pipe.act 0 = .idle) :
    Step x .event { x with event := .waitsThreads }
  | ended (hAt : x.event = .waitsThreads) (hMap : x.server.pipe.owner = none)
    (hNone : x.server.pipe.registry = []) :
    Step x .event
      { x with
        event := .reads,
        server := { x.server with
          endSem := x.server.endSem + 1, answered := x.server.answered + 1 } }

def system : Runs.System State Label where
  init x := x = initial
  step x l x' := x.server.up ∧ Step x l x'

/-- The requests come from the controller, no pipe is used before `__main__` runs for the first
time, and no thread of the program sends `ThreadEnd`. -/
def OnControl (x : State) : Label → Prop
  | .server l => UsesPipes x.server l ∧ ∀ e, l = .send e → e.type ≠ ThreadEnd
  | .asks _ => False
  | .gets | .event => True

-- ---------------------------------------------------------------------------
-- Requests and replies
-- ---------------------------------------------------------------------------

/-- The requests a receiver has read and not replied to. -/
def owes : Control → Nat
  | .reads => 0
  | .locks _ | .waitsStart | .broadcasts | .waitsThreads => 1

/-- The requests that a receiver has read from its pipe. -/
def State.arrivals (x : State) : PipeName → Nat
  | .control => x.server.asked
  | .event => x.asked

/-- The `Continue`s for thread 0 that have been written to a pipe. -/
def State.continues (x : State) : PipeName → Nat
  | .control => x.server.answered
  | .event => x.server.continued 0

def State.owes (x : State) : PipeName → Nat
  | .control => Requests.owes x.server.control
  | .event => Requests.owes x.event

/-- A request for a test, on the event pipe. -/
def asksForTest (e : Event) : Bool := e.type = TestStart ∨ e.type = TestEnd

/-- The requests that have been written to a pipe and not been replied to. -/
def State.unanswered (x : State) : PipeName → Nat
  | .control => x.server.requests.length + x.owes .control
  | .event => (x.server.toServer ++ x.server.received.toList).countP asksForTest + x.owes .event

/-- What a requester may rely on, where the steps to come meet `ok`. -/
structure Sound (ok : State → Label → Prop) (x : State) : Prop where
  /-- Each request that has arrived has been answered by one `Continue` on the pipe it has come
  from, or is the one that the receiver of the pipe is at; no pipe has another `Continue`. -/
  answered : ∀ p, x.continues p + x.owes p = x.arrivals p
  /-- Whatever the order of the steps, every request comes to its reply. -/
  released : Runs.Inevitable system (fun x l => l.internal = true ∧ ok x l)
    (fun x' => ∀ p, x'.unanswered p = 0) x

variable {x x' : State} {s s' : Server.State} {l : Server.Label}

-- ---------------------------------------------------------------------------
-- Requests of the controller
-- ---------------------------------------------------------------------------

/-- A broadcast does not come to a shadow thread that ends. -/
def Quietly (s : Server.State) : Server.Label → Prop
  | .sender j => ∀ e, s.pipe.act j = .broadcasts e →
    ∀ w ∈ s.pipe.registry, ¬ Pipe.Finishing s.pipe w
  | .send _ | .request _ | .client | .receiver | .control | .main | .shadow _ => True

/-- Where only the controller asks: the server runs as if nobody else could, and each request
that has arrived is answered or in progress. -/
structure Controlled (x : State) : Prop where
  reach    : Runs.ReachableUnder Server.system Quietly x.server
  lasting  : Lasting x.server
  crashed  : x.server.crashed = false
  answered : x.server.answered + owes x.server.control = x.server.asked
  unsent   : x.server.sent 0 = 0
  event    : x.event = .reads
  asked    : x.asked = 0
  waiting  : x.waiting = 0

theorem controlled_initial : Controlled initial :=
  ⟨.init rfl, Server.lasting_initial, rfl, rfl, rfl, rfl, rfl, rfl⟩

/-- A request is counted when it is read and when it is answered. -/
theorem answered_step (h : Server.Step s l s') (hOld : s.answered + owes s.control = s.asked) :
    s'.answered + owes s'.control = s'.asked := by
  cases h
  case runs =>
    rw [Server.reply_frame]
    exact hOld
  case readsRequest hAt | startsAgain hAt _ | waitsStart hAt _ | starts hAt _ | endsAgain hAt _ _
    | ends hAt _ | broadcast hAt _ | ended hAt _ _ =>
    rw [hAt] at hOld
    simpa [owes] using hOld
  all_goals exact hOld

/-- Nothing is ever sent for the thread 0, which is none of the program's. -/
theorem unsent_step (h : Server.Step s l s') (hOld : s.sent 0 = 0) : s'.sent 0 = 0 := by
  cases h
  case send e _ hTid _ =>
    have hNe : 0 ≠ e.threadid := by omega
    show update s.sent e.threadid _ 0 = 0
    rw [Function.update_of_ne hNe]
    exact hOld
  case runs =>
    rw [Server.reply_frame]
    exact hOld
  all_goals exact hOld

/-- The events on the event pipe are no requests. -/
theorem fromClient_ne (hKind : Server.FromClient t) (r : Request) : t ≠ requestType r := by
  rintro rfl
  cases r <;> exact absurd hKind (by decide)

theorem Controlled.no_request (hC : Controlled x) {e : Event} (he : e ∈ x.server.inside)
    (r : Request) : e.type ≠ requestType r :=
  fromClient_ne ((Server.accounts hC.reach).events e he).2 r

/-- Only the receiver of the control pipe broadcasts. -/
theorem broadcaster_eq {j : Nat} {e : Event} (hR : Server.Roles s)
    (hAct : s.pipe.act j = .broadcasts e) : j = 1 := by
  by_contra hNot
  rcases Nat.lt_or_ge j 2 with hLt | hGe
  · obtain rfl : j = 0 := by omega
    have hReceiver := hR.receiver
    rw [hAct] at hReceiver
    cases hReceiver
  · cases (hR.others j hGe).symm.trans hAct

/-- **A broadcast meets no shadow thread that ends**, as no thread of the program does. -/
theorem Controlled.quietly (hC : Controlled x) (l : Server.Label) : Quietly x.server l := by
  cases l
  case sender j =>
    intro e hAct w hw
    have hS := Server.shape hC.reach
    obtain rfl := broadcaster_eq hS.roles hAct
    exact hC.lasting.not_finishing hS (Server.accounts hC.reach) (Server.calm hC.reach)
      (Or.inr ⟨e, hAct⟩) hw
  all_goals trivial

/-- **Step lemma of the requests** where only the controller asks: each request that has
arrived is answered or in progress. -/
theorem Controlled.step {l : Label} (hC : Controlled x) (hOk : OnControl x l)
    (hStep : system.step x l x') : Controlled x' := by
  obtain ⟨hUp, hStep⟩ := hStep
  cases hStep with
  | @server l s' hStep _ _ =>
    have hReach := hC.reach.step (hC.quietly l) ⟨hUp, hStep⟩
    exact ⟨hReach, hC.lasting.step hOk.2 hStep,
      Server.up_step (Server.turns hC.reach) hUp.1 hOk.1 hStep, answered_step hStep hC.answered,
      unsent_step hStep hC.unsent, hC.event, hC.asked, hC.waiting⟩
  | asks r => exact absurd hOk id
  | gets hWaits _ =>
    rw [hC.waiting] at hWaits
    exact absurd hWaits (Nat.lt_irrefl 0)
  | @takes e r _ hAt hKind =>
    exact absurd hKind (hC.no_request (by simp [Server.State.inside, hAt]) r)
  | startsAgain hAt _ _ | waitsStart hAt _ _ | starts hAt _ | endsAgain hAt _ _ _
    | noControlPipe hAt _ _ _ | ends hAt _ _ | broadcast hAt _ | ended hAt _ _ =>
    cases hC.event.symm.trans hAt

theorem controlled (h : Runs.ReachableUnder system OnControl x) : Controlled x := by
  refine h.invariant ?_ fun _ _ _ hC hOk hStep => hC.step hOk hStep
  rintro _ rfl
  exact controlled_initial

-- ---------------------------------------------------------------------------
-- Every run
-- ---------------------------------------------------------------------------

/-- What arrives on a pipe is answered there or still owed. -/
theorem Controlled.answers (hC : Controlled x) (p : PipeName) :
    x.continues p + x.owes p = x.arrivals p := by
  cases p with
  | control => exact hC.answered
  | event =>
    have hSent := ((Server.accounts hC.reach).sent_le 0).1
    rw [hC.unsent] at hSent
    show x.server.continued 0 + owes x.event = x.asked
    rw [hC.event, hC.asked, Nat.le_zero.mp hSent]
    rfl

/-- No request waits, as none is written on the event pipe. -/
theorem Controlled.unanswered_iff (hC : Controlled x) :
    (∀ p, x.unanswered p = 0) ↔ x.server.requests = [] ∧ x.server.control = .reads := by
  have hEvent : x.unanswered .event = 0 := by
    have hNone : (x.server.toServer ++ x.server.received.toList).countP asksForTest = 0 := by
      refine List.countP_eq_zero.mpr fun e he hAsks => ?_
      have hIn : e ∈ x.server.inside := by
        rw [List.mem_append] at he
        rw [Server.State.inside, List.mem_append, List.mem_append]
        exact he.imp_right Or.inl
      rcases of_decide_eq_true hAsks with hKind | hKind
      · exact hC.no_request hIn .testStart hKind
      · exact hC.no_request hIn .testEnd hKind
    show List.countP _ _ + owes x.event = 0
    rw [hNone, hC.event]
    rfl
  have hControl : x.unanswered .control = 0 ↔ x.server.requests = [] ∧ x.server.control = .reads := by
    show x.server.requests.length + owes x.server.control = 0 ↔ _
    rw [Nat.add_eq_zero_iff, List.length_eq_zero_iff]
    refine and_congr_right fun _ => ⟨fun hOwes => ?_, fun hAt => by rw [hAt]; rfl⟩
    cases hAt : x.server.control with
    | reads => rfl
    | locks | waitsStart | broadcasts | waitsThreads =>
      rw [hAt] at hOwes
      cases hOwes
  rw [← hControl]
  refine ⟨fun hAll => hAll .control, fun hNone p => ?_⟩
  cases p with
  | control => exact hNone
  | event => exact hEvent

/-- What the condition says of a step of the server. -/
def Allowed (s : Server.State) (l : Server.Label) : Prop :=
  UsesPipes s l ∧ ∀ e, l = .send e → e.type ≠ ThreadEnd

theorem permits_allowed (s : Server.State) : Server.Permits Allowed s :=
  ⟨⟨trivial, nofun⟩, ⟨trivial, nofun⟩, fun _ => ⟨trivial, nofun⟩, fun _ _ _ => ⟨trivial, nofun⟩,
    fun hAt => ⟨Or.inr hAt, nofun⟩⟩

/-- From the accounts of the requests to what progress of the server needs. -/
theorem Controlled.ready (hC : Controlled x) : Server.Ready x.server := by
  have hCovers : Server.Covers Quietly fun _ _ => True :=
    ⟨fun _ _ _ => trivial, fun _ _ => trivial, fun _ _ => trivial, fun _ _ => trivial⟩
  have hOpen : Pipe.Open x.server.pipe := by
    refine Pipe.opened (Server.projected ⟨fun s j hOk => ?_, fun _ _ => ?_, fun _ _ => ?_, fun _ _ => ?_⟩
      hC.reach).2
    · intro k e hLabel hAct
      obtain rfl : j = k := by simpa using hLabel
      exact hOk e hAct
    all_goals
      intro _ _ hLabel
      cases hLabel
  exact ⟨Server.shape hC.reach, Server.accounts hC.reach, Server.turns hC.reach,
    Server.passing hC.reach, hOpen, Pipe.absent_exists (Server.projected hCovers hC.reach).2,
    hC.crashed, hC.lasting.alive⟩

/-- **As long as a request waits, some thread can go on**: a start waits for the next run of
`__main__` at most, and an end for shadow threads that all come to their ends. -/
theorem Controlled.goes (hC : Controlled x) (hWaits : ¬ ∀ p, x.unanswered p = 0) :
    ∃ l x', (l.internal = true ∧ OnControl x l) ∧ system.step x l x' := by
  have hR := hC.ready
  have hSome : x.server.requests ≠ [] ∨ x.server.control ≠ .reads :=
    Decidable.not_and_iff_or_not.mp fun h => hWaits (hC.unanswered_iff.mpr h)
  have hBroadcast : x.server.pipe.act 1 ≠ .idle → Server.Goes Allowed x.server := fun hBusy =>
    hR.goes_of_broadcast (permits_allowed _) hBusy
      (fun e hAct hMap => hR.goes_of_sender ⟨trivial, nofun⟩ (.lock hAct hMap))
      fun _ _ _ _ => ⟨trivial, nofun⟩
  obtain ⟨l, s', ⟨hInternal, hOk⟩, hUp, hStep⟩ := hR.goes_of_request (permits_allowed _) hBroadcast
    (fun hAssigned => ⟨Or.inl hAssigned, nofun⟩) hSome
  refine ⟨.server l, _, ⟨hInternal, hOk⟩, hUp, .server hStep (fun _ => ⟨hC.event, fun e r hAt => ?_⟩)
    fun _ hHolds => ?_⟩
  · exact hC.no_request (by simp [Server.State.inside, hAt]) r
  · rw [hC.event] at hHolds
    cases hHolds

end Requests

end Concurrit.Model
