import Mathlib.Data.List.Basic
import Concurrit.Lib.Runs

/-!
# Concurrit — the handshake of a coroutine and its creator

`Channel` with its one slot and one condition variable, `Coroutine::Start` and `Finish` of the
creator, and `Run` with `SetStarted`, `Transfer` and `SetEnded` of the coroutine, step by step.
The mutex of the channel is one for all channels, so other coroutines take it as well; it is
re-entrant, and a wait gives it back completely (`Mutex.lean`). The semaphore `sem_end_` has
its steps here and its value in `Coroutine.lean`.

A wait of POSIX may return without a signal, and `WaitReceive` does not test the slot before it
takes the message.

* `InTurn`     — the steps that keep the handshake in order.
* `handshake`  — in a run of such steps every message arrives, once, in order, at its receiver.
-/

namespace Concurrit.Model

namespace Handshake

-- ---------------------------------------------------------------------------
-- States
-- ---------------------------------------------------------------------------

/-- The messages that occur here. -/
inductive Message where
  | started
  | transfer
  | restart
  | terminate
deriving DecidableEq, Repr

/-- Those that take the mutex of the channel; `other` is any other coroutine. -/
inductive Party where
  | creator
  | coroutine
  | other
deriving DecidableEq, Repr

def Message.receiver : Message → Party
  | .started => .creator
  | .transfer | .restart | .terminate => .coroutine

/-- The values of `status_`, in their order. -/
inductive Status where
  | passive
  | enabled
  | waiting
  | ended
  | terminated
deriving DecidableEq, Repr

/-- Where the creator stands in `Start` and `Finish`. -/
inductive CreatorPlace where
  | outside
  /-- in `Start`, before the mutex of the channel -/
  | locksStart
  /-- before the tests of `status_` -/
  | tests
  /-- before `put` and `Signal` -/
  | sends (m : Message)
  /-- before `cv_.Wait` -/
  | waits
  | asleep
  | wakes (signalled : Bool)
  /-- before `take` -/
  | takes
  /-- before `CHECK(msg == MSG_STARTED)` -/
  | checks (m : Message)
  /-- before `sem_end_.Set(0)` -/
  | setsSem
  | signalsSem
  /-- before `safe_assert(status_ == WAITING)` -/
  | asserts
  /-- at the end of the scope of the mutex -/
  | unlocks (m : Message)
  /-- in `Finish`, before `status_ < TERMINATED` -/
  | finishes
  | testsEnded
  | testsWaiting
  /-- in `Finish`, before the mutex of the channel -/
  | locksFinish
  | cancels
  | joins
  /-- before `status_ = TERMINATED` -/
  | terminates
  | finished
deriving DecidableEq, Repr

/-- Where the coroutine stands in `Run`; `ended` tells the wait of `SetEnded` from the one of
`Transfer`. -/
inductive CoPlace where
  /-- no thread yet -/
  | absent
  /-- before `CHECK(status_ == PASSIVE)` -/
  | fresh
  /-- in `SetStarted`, before `status_ = ENABLED` -/
  | setsEnabled
  /-- in `Transfer`, before `status_ = WAITING` -/
  | setsWaiting
  /-- in `SendWaitReceive`, before the mutex -/
  | locks
  | sends
  | waits (ended : Bool)
  | asleep (ended : Bool)
  | wakes (ended signalled : Bool)
  | takes (ended : Bool)
  /-- has taken a message, inside the mutex -/
  | got (ended : Bool) (m : Message)
  /-- in `HandleMessage` of `Transfer`, outside the mutex -/
  | handles (m : Message)
  /-- in `Transfer`, before `status_ = ENABLED` -/
  | enables
  | runs
  /-- in `SetEnded`, before the mutex -/
  | locksEnd
  | ends
  | signalsEnd
  /-- before `status_ = TERMINATED` -/
  | terminates
  | exited
deriving DecidableEq, Repr

/-- The check that has ended the process. -/
inductive Failure where
  /-- `put` has found an unread message -/
  | put
  /-- `take` has found an empty slot -/
  | take
  /-- a message that is not meant for its reader -/
  | message
  | status
  /-- `unreachable()` in `Start` -/
  | unreachable
deriving DecidableEq, Repr

/-- `sent` and `received` are the messages so far, with their readers. -/
structure State where
  status : Status
  slot : Option Message
  holder : Option Party
  creator : CreatorPlace
  coroutine : CoPlace
  sent : List Message
  received : List (Party × Message)
  failed : Option Failure
deriving DecidableEq, Repr

def initial : State := ⟨.passive, none, none, .outside, .absent, [], [], none⟩

def State.fail (x : State) (f : Failure) : State := { x with failed := some f }

-- ---------------------------------------------------------------------------
-- Steps
-- ---------------------------------------------------------------------------

/-- `Signal` wakes the creator if it waits. -/
def CreatorPlace.woken : CreatorPlace → CreatorPlace
  | .asleep => .wakes true
  | c => c

def CoPlace.woken : CoPlace → CoPlace
  | .asleep ended => .wakes ended true
  | o => o

/-- `put` and `Signal`, both inside the mutex. Only the other party can wait on this condition
variable. -/
def State.send (x : State) (m : Message) (creator : CreatorPlace) (coroutine : CoPlace) : State :=
  if x.slot = none then
    { x with slot := some m, sent := x.sent ++ [m], creator := creator, coroutine := coroutine }
  else x.fail .put

/-- A step of `Start` or `Finish`. -/
def runCreator (x : State) : CreatorPlace → Option State
  | .outside => none
  | .locksStart =>
    if x.holder = none then some { x with holder := some .creator, creator := .tests } else none
  | .tests =>
    some (if x.status = .passive ∨ x.status = .terminated then
        -- `Thread::Start`
        { x with coroutine := .fresh, creator := .waits }
      else if x.status = .waiting ∨ x.status = .ended then { x with creator := .sends .restart }
      else x.fail .unreachable)
  | .sends m =>
    some (x.send m (if m = .restart then .waits else .unlocks m) x.coroutine.woken)
  | .waits => some { x with holder := none, creator := .asleep }
  | .asleep => none
  | .wakes _ =>
    if x.holder = none then some { x with holder := some .creator, creator := .takes } else none
  | .takes =>
    match x.slot with
    | none => some (x.fail .take)
    | some m =>
      some { x with
        slot := none
        received := x.received ++ [(.creator, m)]
        creator := .checks m }
  | .checks m => some (if m = .started then { x with creator := .setsSem } else x.fail .message)
  | .setsSem => some { x with creator := .signalsSem }
  | .signalsSem => some { x with creator := .asserts }
  | .asserts =>
    some (if x.status = .waiting then { x with creator := .sends .transfer } else x.fail .status)
  | .unlocks m =>
    some { x with holder := none, creator := if m = .terminate then .joins else .outside }
  | .finishes =>
    some (if x.status = .passive then x.fail .status
      else { x with creator := if x.status = .terminated then .terminates else .testsEnded })
  | .testsEnded =>
    some { x with creator := if x.status = .ended then .locksFinish else .testsWaiting }
  | .testsWaiting =>
    some { x with creator := if x.status = .waiting then .locksFinish else .cancels }
  | .locksFinish =>
    if x.holder = none then
      some { x with holder := some .creator, creator := .sends .terminate }
    else none
  | .cancels =>
    -- the thread ends, and gives the mutex back on its way
    some { x with
      holder := if x.holder = some .coroutine then none else x.holder
      coroutine := .exited
      creator := .joins }
  | .joins => if x.coroutine = .exited then some { x with creator := .terminates } else none
  | .terminates => some { x with status := .terminated, creator := .finished }
  | .finished => none

/-- A step of `Run`. -/
def runCoroutine (x : State) : CoPlace → Option State
  | .absent => none
  | .fresh =>
    some (if x.status = .passive then { x with coroutine := .setsEnabled } else x.fail .status)
  | .setsEnabled =>
    some (if x.status = .terminated then x.fail .status
      else { x with status := .enabled, coroutine := .setsWaiting })
  | .setsWaiting =>
    some (if x.status = .passive ∨ x.status = .terminated then x.fail .status
      else { x with
        status := if x.status = .ended then .ended else .waiting
        coroutine := .locks })
  | .locks =>
    if x.holder = none then some { x with holder := some .coroutine, coroutine := .sends }
    else none
  | .sends => some (x.send .started x.creator.woken (.waits false))
  | .waits ended => some { x with holder := none, coroutine := .asleep ended }
  | .asleep _ => none
  | .wakes ended _ =>
    if x.holder = none then some { x with holder := some .coroutine, coroutine := .takes ended }
    else none
  | .takes ended =>
    match x.slot with
    | none => some (x.fail .take)
    | some m =>
      some { x with
        slot := none
        received := x.received ++ [(.coroutine, m)]
        coroutine := .got ended m }
  | .got false m => some { x with holder := none, coroutine := .handles m }
  | .got true .started => some (x.fail .message)
  -- `SetEnded` returns, or `HandleMessage` throws: the loop of `Run` goes on
  | .got true .transfer | .got true .restart =>
    some { x with holder := none, coroutine := .setsEnabled }
  | .got true .terminate => some { x with holder := none, coroutine := .terminates }
  | .handles .started => some (x.fail .message)
  | .handles .transfer => some { x with coroutine := .enables }
  | .handles .restart => some { x with coroutine := .setsEnabled }
  | .handles .terminate => some { x with coroutine := .terminates }
  | .enables =>
    some { x with
      status := if x.status = .ended ∨ x.status = .terminated then x.status else .enabled
      coroutine := .runs }
  | .runs => some { x with coroutine := .locksEnd }
  | .locksEnd =>
    if x.holder = none then some { x with holder := some .coroutine, coroutine := .ends }
    else none
  | .ends => some { x with status := .ended, coroutine := .signalsEnd }
  | .signalsEnd => some { x with coroutine := .waits true }
  | .terminates => some { x with status := .terminated, coroutine := .exited }
  | .exited => none

inductive Label where
  /-- the creator calls `Start` -/
  | start
  /-- the creator calls `Finish` -/
  | finish
  | creator
  | coroutine
  /-- a wait is over without a signal -/
  | spurious (p : Party)
  /-- another coroutine takes the mutex of the channels, or gives it back -/
  | other
deriving DecidableEq, Repr

def spurious (x : State) : Party → Option State
  | .creator => if x.creator = .asleep then some { x with creator := .wakes false } else none
  | .coroutine =>
    match x.coroutine with
    | .asleep ended => some { x with coroutine := .wakes ended false }
    | _ => none
  | .other => none

def next (x : State) (l : Label) : Option State :=
  if x.failed ≠ none then none
  else match l with
    | .start => if x.creator = .outside then some { x with creator := .locksStart } else none
    | .finish =>
      -- callers ask for a status above `PASSIVE`
      if x.creator = .outside ∧ x.status ≠ .passive then some { x with creator := .finishes }
      else none
    | .creator => runCreator x x.creator
    | .coroutine => runCoroutine x x.coroutine
    | .spurious p => spurious x p
    | .other =>
      match x.holder with
      | none => some { x with holder := some .other }
      | some .other => some { x with holder := none }
      | some _ => none

def system : Runs.System State Label := Runs.partialMachine initial next

/-- What keeps the handshake in order: the creator gets the mutex of the channel in `Start` only
when the coroutine has not been started yet or has ended, in `Finish` only when it has ended,
and a wait that nobody has signalled returns only while the unread message is for the waiter. -/
def InTurn (x : State) : Label → Prop
  | .creator =>
    (x.creator = .locksStart → x.status = .passive ∨ x.status = .ended) ∧
      (x.creator = .locksFinish → x.status = .ended) ∧
      (x.creator = .wakes false → x.slot.map Message.receiver = some .creator)
  | .coroutine =>
    ∀ ended, x.coroutine = .wakes ended false → x.slot.map Message.receiver = some .coroutine
  | .start | .finish | .spurious _ | .other => True

instance (x : State) : (l : Label) → Decidable (InTurn x l)
  | .creator => inferInstanceAs (Decidable (_ ∧ _ ∧ _))
  | .coroutine => inferInstanceAs (Decidable (∀ _ : Bool, _))
  | .start | .finish | .spurious _ | .other => inferInstanceAs (Decidable True)

-- ---------------------------------------------------------------------------
-- The two parties
-- ---------------------------------------------------------------------------

/-- What a place of the creator says about the handshake. -/
inductive View where
  /-- in no call, or before the mutex in `Start` -/
  | away
  /-- in `Finish`, with a coroutine that has been started -/
  | started
  /-- inside the mutex in `Start` -/
  | testing
  /-- about to send a restart or a terminate message -/
  | calling
  /-- asleep until the started message -/
  | waiting
  /-- as before, but woken without a signal -/
  | roused
  | woken
  /-- inside the mutex, before the started message is taken -/
  | taking
  /-- has the started message, and not sent the transfer yet -/
  | handing
  | cancelling
  /-- the terminate message has been sent, or the coroutine cancelled -/
  | leaving
  | over
  /-- at no time -/
  | never
deriving DecidableEq, Repr

def CreatorPlace.view : CreatorPlace → View
  | .outside | .locksStart | .unlocks .transfer => .away
  | .tests => .testing
  | .sends .restart | .sends .terminate => .calling
  | .sends .transfer => .handing
  | .sends .started => .never
  | .waits | .asleep => .waiting
  | .wakes false => .roused
  | .wakes true => .woken
  | .takes => .taking
  | .checks .started | .setsSem | .signalsSem | .asserts => .handing
  | .checks .transfer | .checks .restart | .checks .terminate => .never
  | .unlocks .terminate | .joins => .leaving
  | .unlocks .started | .unlocks .restart => .never
  | .finishes | .testsEnded | .testsWaiting | .locksFinish => .started
  | .cancels => .cancelling
  | .terminates | .finished => .over

@[simp] def View.isAway (v : View) : Prop := v = .away ∨ v = .started

@[simp] def View.isWaiting (v : View) : Prop := v = .waiting ∨ v = .roused

@[simp] def View.isWoken (v : View) : Prop := v = .roused ∨ v = .woken ∨ v = .taking

/-- What a place of the coroutine says about the creator, the slot and `status_`. -/
def CoPlace.Agrees (v : View) (slot : Option Message) (status : Status) : CoPlace → Prop
  | .absent => (v = .away ∨ v = .testing) ∧ slot = none ∧ status = .passive
  | .fresh => v.isWaiting ∧ slot = none ∧ status = .passive
  | .setsEnabled => v.isWaiting ∧ slot = none ∧ (status = .passive ∨ status = .ended)
  | .setsWaiting => v.isWaiting ∧ slot = none ∧ status = .enabled
  | .locks | .sends => v.isWaiting ∧ slot = none ∧ status = .waiting
  | .waits false => (v = .roused ∨ v = .woken) ∧ slot = some .started ∧ status = .waiting
  | .asleep false =>
    ((v.isWoken ∧ slot = some .started) ∨ (v = .handing ∧ slot = none)) ∧ status = .waiting
  | .wakes false false =>
    ((v.isWoken ∧ slot = some .started) ∨ (v = .handing ∧ slot = none) ∨
      (v.isAway ∧ slot = some .transfer)) ∧ status = .waiting
  | .wakes false true | .takes false => v.isAway ∧ slot = some .transfer ∧ status = .waiting
  | .got false m | .handles m => m = .transfer ∧ v.isAway ∧ slot = none ∧ status = .waiting
  | .enables => v.isAway ∧ slot = none ∧ status = .waiting
  | .runs | .locksEnd | .ends => (v.isAway ∨ v = .cancelling) ∧ slot = none ∧ status = .enabled
  | .signalsEnd | .waits true =>
    (v.isAway ∨ v = .cancelling) ∧ slot = none ∧ status = .ended
  | .asleep true =>
    (v.isAway ∨ v = .cancelling ∨ v = .testing ∨ v = .calling) ∧ slot = none ∧ status = .ended
  | .wakes true false =>
    (((v.isAway ∨ v = .cancelling ∨ v = .testing ∨ v = .calling) ∧ slot = none) ∨
      (v.isWaiting ∧ slot = some .restart) ∨ (v = .leaving ∧ slot = some .terminate)) ∧
      status = .ended
  | .wakes true true | .takes true =>
    ((v.isWaiting ∧ slot = some .restart) ∨ (v = .leaving ∧ slot = some .terminate)) ∧
      status = .ended
  | .got true m =>
    ((m = .restart ∧ v.isWaiting) ∨ (m = .terminate ∧ v = .leaving)) ∧ slot = none ∧
      status = .ended
  | .terminates => v = .leaving ∧ slot = none
  | .exited => (v = .leaving ∨ v = .over) ∧ slot = none

/-- Inside the mutex of the channel. -/
def CreatorPlace.holds : CreatorPlace → Bool
  | .tests | .sends _ | .waits | .takes | .checks _ | .setsSem | .signalsSem | .asserts
  | .unlocks _ => true
  | .outside | .locksStart | .asleep | .wakes _ | .finishes | .testsEnded | .testsWaiting
  | .locksFinish | .cancels | .joins | .terminates | .finished => false

def CoPlace.holds : CoPlace → Bool
  | .sends | .waits _ | .takes _ | .got _ _ | .ends | .signalsEnd => true
  | .absent | .fresh | .setsEnabled | .setsWaiting | .locks | .asleep _ | .wakes _ _ | .handles _
  | .enables | .runs | .locksEnd | .terminates | .exited => false

/-- The places of the coroutine's thread, with the two loops that `WaitForMessage` is called
from kept apart: what the invariant says of a wait differs before and after the coroutine's
end. -/
@[elab_as_elim]
theorem CoPlace.byWait {motive : CoPlace → Prop} (o : CoPlace) (absent : motive .absent)
    (fresh : motive .fresh) (setsEnabled : motive .setsEnabled)
    (setsWaiting : motive .setsWaiting) (locks : motive .locks) (sends : motive .sends)
    (waits : motive (.waits false)) (asleep : motive (.asleep false))
    (woken : motive (.wakes false true)) (roused : motive (.wakes false false))
    (takes : motive (.takes false)) (got : ∀ m, motive (.got false m))
    (handles : ∀ m, motive (.handles m)) (enables : motive .enables) (runs : motive .runs)
    (locksEnd : motive .locksEnd) (ends : motive .ends) (signalsEnd : motive .signalsEnd)
    (waitsEnd : motive (.waits true)) (asleepEnd : motive (.asleep true))
    (wokenEnd : motive (.wakes true true)) (rousedEnd : motive (.wakes true false))
    (takesEnd : motive (.takes true)) (gotEnd : ∀ m, motive (.got true m))
    (terminates : motive .terminates) (exited : motive .exited) : motive o :=
  match o with
  | .absent => absent
  | .fresh => fresh
  | .setsEnabled => setsEnabled
  | .setsWaiting => setsWaiting
  | .locks => locks
  | .sends => sends
  | .waits false => waits
  | .waits true => waitsEnd
  | .asleep false => asleep
  | .asleep true => asleepEnd
  | .wakes false true => woken
  | .wakes false false => roused
  | .wakes true true => wokenEnd
  | .wakes true false => rousedEnd
  | .takes false => takes
  | .takes true => takesEnd
  | .got false m => got m
  | .got true m => gotEnd m
  | .handles m => handles m
  | .enables => enables
  | .runs => runs
  | .locksEnd => locksEnd
  | .ends => ends
  | .signalsEnd => signalsEnd
  | .terminates => terminates
  | .exited => exited

structure Inv (x : State) : Prop where
  creator   : x.holder = some .creator ↔ x.creator.holds
  coroutine : x.holder = some .coroutine ↔ x.coroutine.holds
  agrees    : x.coroutine.Agrees x.creator.view x.slot x.status
  order     : x.sent = x.received.map Prod.snd ++ x.slot.toList
  meant     : ∀ r ∈ x.received, r.2.receiver = r.1
  failed    : x.failed = none

variable {x x' : State} {v : View} {slot : Option Message} {status : Status} {o : CoPlace}
  {c : CreatorPlace}

-- ---------------------------------------------------------------------------
-- Steps of the creator
-- ---------------------------------------------------------------------------

section

attribute [local simp] CoPlace.Agrees

/-- `Finish` is called. -/
theorem CoPlace.Agrees.finish (h : o.Agrees .away slot status) (hStatus : status ≠ .passive) :
    o.Agrees .started slot status := by
  cases o using CoPlace.byWait <;> simp_all [CoPlace.Agrees]

/-- The creator is in the mutex of `Start`: the coroutine is asleep, or there is none. -/
theorem CoPlace.Agrees.test (h : o.Agrees .away slot status) (hFree : o.holds = false)
    (hStatus : status = .passive ∨ status = .ended) : o.Agrees .testing slot status := by
  cases o using CoPlace.byWait <;> simp_all [CoPlace.Agrees, CoPlace.holds]

/-- The creator is in the mutex of `Finish`. -/
theorem CoPlace.Agrees.recall (h : o.Agrees .started slot status) (hFree : o.holds = false)
    (hStatus : status = .ended) : o.Agrees .calling slot status := by
  cases o using CoPlace.byWait <;> simp_all [CoPlace.Agrees, CoPlace.holds]

theorem CoPlace.Agrees.of_testing (h : o.Agrees .testing slot status) :
    slot = none ∧ (status = .passive ∨ status = .ended) := by
  cases o using CoPlace.byWait <;> simp_all [CoPlace.Agrees]

theorem CoPlace.Agrees.call (h : o.Agrees .testing slot status) (hStatus : status ≠ .passive) :
    o.Agrees .calling slot status := by
  cases o using CoPlace.byWait <;> simp_all [CoPlace.Agrees]

/-- The creator sends a restart or a terminate message, and wakes the coroutine. -/
theorem CoPlace.Agrees.send_restart (h : o.Agrees .calling slot status) :
    slot = none ∧ o.woken.Agrees .waiting (some .restart) status := by
  cases o using CoPlace.byWait <;> simp_all [CoPlace.Agrees, CoPlace.woken]

theorem CoPlace.Agrees.send_terminate (h : o.Agrees .calling slot status) :
    slot = none ∧ o.woken.Agrees .leaving (some .terminate) status := by
  cases o using CoPlace.byWait <;> simp_all [CoPlace.Agrees, CoPlace.woken]

theorem CoPlace.Agrees.send_transfer (h : o.Agrees .handing slot status) :
    slot = none ∧ o.woken.Agrees .away (some .transfer) status := by
  cases o using CoPlace.byWait <;> simp_all [CoPlace.Agrees, CoPlace.woken]

/-- The wait of the creator is over: the coroutine is asleep. -/
theorem CoPlace.Agrees.wake (h : o.Agrees .woken slot status) (hFree : o.holds = false) :
    o.Agrees .taking slot status := by
  cases o using CoPlace.byWait <;> simp_all [CoPlace.Agrees, CoPlace.holds]

theorem CoPlace.Agrees.rouse (h : o.Agrees .waiting slot status) : o.Agrees .roused slot status := by
  cases o using CoPlace.byWait <;> simp_all [CoPlace.Agrees]

theorem CoPlace.Agrees.wake_roused (h : o.Agrees .roused slot status) (hFree : o.holds = false)
    (hSlot : slot.map Message.receiver = some .creator) : o.Agrees .taking slot status := by
  obtain ⟨m, rfl, hMeant⟩ := Option.map_eq_some_iff.mp hSlot
  cases o using CoPlace.byWait <;> cases m <;>
    simp_all [CoPlace.Agrees, CoPlace.holds, Message.receiver]

theorem CoPlace.Agrees.take (h : o.Agrees .taking slot status) :
    slot = some .started ∧ o.Agrees .handing none status := by
  cases o using CoPlace.byWait <;> simp_all [CoPlace.Agrees]

theorem CoPlace.Agrees.status_of_handing (h : o.Agrees .handing slot status) :
    status = .waiting := by
  cases o using CoPlace.byWait <;> simp_all [CoPlace.Agrees]

theorem CoPlace.Agrees.status_of_started (h : o.Agrees .started slot status) :
    status ≠ .passive ∧ status ≠ .terminated := by
  cases o using CoPlace.byWait <;> simp_all [CoPlace.Agrees]

theorem CoPlace.Agrees.cancel (h : o.Agrees .started slot status) (hStatus : status ≠ .waiting) :
    o.Agrees .cancelling slot status := by
  cases o using CoPlace.byWait <;> simp_all [CoPlace.Agrees]

theorem CoPlace.Agrees.slot_of_cancelling (h : o.Agrees .cancelling slot status) : slot = none := by
  cases o using CoPlace.byWait <;> simp_all [CoPlace.Agrees]

/-- Nothing depends on `status_` any more. -/
theorem CoPlace.Agrees.over (h : o.Agrees .over slot status) (status' : Status) :
    o.Agrees .over slot status' := by
  cases o using CoPlace.byWait <;> simp_all [CoPlace.Agrees]

theorem CoPlace.Agrees.not_never (h : o.Agrees .never slot status) : False := by
  cases o using CoPlace.byWait <;> simp_all [CoPlace.Agrees]

end

@[simp] theorem CoPlace.holds_woken (o : CoPlace) : o.woken.holds = o.holds := by
  cases o <;> rfl

@[simp] theorem CreatorPlace.holds_woken (c : CreatorPlace) : c.woken.holds = c.holds := by
  cases c <;> rfl

theorem Inv.coroutine_of_free (hInv : Inv x) (hFree : x.holder = none) :
    x.coroutine.holds = false := by
  have h := hInv.coroutine
  rw [hFree] at h
  simpa using h

theorem Inv.creator_of_free (hInv : Inv x) (hFree : x.holder = none) :
    x.creator.holds = false := by
  have h := hInv.creator
  rw [hFree] at h
  simpa using h

theorem Inv.coroutine_of_creator (hInv : Inv x) (hHolds : x.creator.holds) :
    x.coroutine.holds = false := by
  have h := hInv.coroutine
  rw [hInv.creator.mpr hHolds] at h
  simpa using h

theorem Inv.creator_of_coroutine (hInv : Inv x) (hHolds : x.coroutine.holds) :
    x.creator.holds = false := by
  have h := hInv.creator
  rw [hInv.coroutine.mpr hHolds] at h
  simpa using h

/-- The creator goes on, inside or outside the mutex as before. -/
theorem Inv.goto (hInv : Inv x) (hHolds : c.holds = x.creator.holds)
    (hAgrees : x.coroutine.Agrees c.view x.slot x.status) : Inv { x with creator := c } :=
  ⟨by rw [hHolds]; exact hInv.creator, hInv.coroutine, hAgrees, hInv.order, hInv.meant,
    hInv.failed⟩

/-- The creator gets the mutex. -/
theorem Inv.acquire (hInv : Inv x) (hFree : x.holder = none) (hHolds : c.holds = true)
    (hAgrees : x.coroutine.Agrees c.view x.slot x.status) :
    Inv { x with holder := some .creator, creator := c } :=
  ⟨by simp [hHolds], by simp [hInv.coroutine_of_free hFree], hAgrees, hInv.order, hInv.meant,
    hInv.failed⟩

/-- The creator gives the mutex back. -/
theorem Inv.release (hInv : Inv x) (hOld : x.creator.holds) (hNew : c.holds = false)
    (hAgrees : x.coroutine.Agrees c.view x.slot x.status) :
    Inv { x with holder := none, creator := c } :=
  ⟨by simp [hNew], by simp [hInv.coroutine_of_creator hOld], hAgrees, hInv.order, hInv.meant,
    hInv.failed⟩

/-- The creator sends a message. The place it goes to must allow for the full slot, and a
coroutine that is asleep is woken by the signal. -/
theorem Inv.send {m : Message} (hInv : Inv x) (hHolds : c.holds = x.creator.holds)
    (hSlot : x.slot = none) (hAgrees : x.coroutine.woken.Agrees c.view (some m) x.status) :
    Inv (x.send m c x.coroutine.woken) := by
  rw [State.send, if_pos hSlot]
  refine ⟨by rw [hHolds]; exact hInv.creator, ?_, hAgrees, ?_, hInv.meant, hInv.failed⟩
  · rw [CoPlace.holds_woken]
    exact hInv.coroutine
  · have hOrder := hInv.order
    rw [hSlot] at hOrder
    simpa using hOrder

/-- The creator takes a message that is meant for it. -/
theorem Inv.take {m : Message} (hInv : Inv x) (hHolds : c.holds = x.creator.holds)
    (hSlot : x.slot = some m) (hMeant : m.receiver = .creator)
    (hAgrees : x.coroutine.Agrees c.view none x.status) :
    Inv { x with slot := none, received := x.received ++ [(.creator, m)], creator := c } := by
  refine ⟨by rw [hHolds]; exact hInv.creator, hInv.coroutine, hAgrees, ?_, ?_, hInv.failed⟩
  · have hOrder := hInv.order
    rw [hSlot] at hOrder
    simpa using hOrder
  · intro r hr
    rcases List.mem_append.mp hr with hOld | hNew
    · exact hInv.meant r hOld
    · rw [List.mem_singleton.mp hNew]
      exact hMeant

/-- `Start` creates the thread, or restarts it by a message. By the invariant the coroutine
waits for a message whenever it has ended. -/
theorem Inv.runTests (hInv : Inv x) (hc : x.creator = .tests)
    (hStep : Handshake.runCreator x .tests = some x') : Inv x' := by
  have hAgrees := hInv.agrees
  rw [hc] at hAgrees
  obtain ⟨hSlot, hPassive | hEnded⟩ := hAgrees.of_testing
  · cases hStep
    rw [if_pos (.inl hPassive)]
    have hHolder := hInv.creator.mpr (by rw [hc]; rfl)
    refine ⟨by simp [hHolder, CreatorPlace.holds], by simp [hHolder, CoPlace.holds], ?_,
      hInv.order, hInv.meant, hInv.failed⟩
    exact ⟨.inl rfl, hSlot, hPassive⟩
  · cases hStep
    rw [if_neg (by simp [hEnded]), if_pos (.inr hEnded)]
    exact hInv.goto (by rw [hc]; rfl) (hAgrees.call (by simp [hEnded]))

/-- The creator sends only what it is its turn to send, and the slot is empty: `Send` does
not overwrite a message that is still unread. -/
theorem Inv.runSends {m : Message} (hInv : Inv x) (hc : x.creator = .sends m)
    (hStep : Handshake.runCreator x (.sends m) = some x') : Inv x' := by
  have hAgrees := hInv.agrees
  rw [hc] at hAgrees
  cases hStep
  cases m with
  | started => exact hAgrees.not_never.elim
  | transfer =>
    obtain ⟨hSlot, hSent⟩ := hAgrees.send_transfer
    exact hInv.send (by rw [hc]; rfl) hSlot hSent
  | restart =>
    obtain ⟨hSlot, hSent⟩ := hAgrees.send_restart
    exact hInv.send (by rw [hc]; rfl) hSlot hSent
  | terminate =>
    obtain ⟨hSlot, hSent⟩ := hAgrees.send_terminate
    exact hInv.send (by rw [hc]; rfl) hSlot hSent

/-- The wait of the creator is over. Without a signal this is in turn only if the started
message is there already, which the signal was for. -/
theorem Inv.runWakes {signalled : Bool} (hInv : Inv x) (hc : x.creator = .wakes signalled)
    (hWoken : x.creator = .wakes false → x.slot.map Message.receiver = some .creator)
    (hStep : Handshake.runCreator x (.wakes signalled) = some x') : Inv x' := by
  have hAgrees := hInv.agrees
  rw [hc] at hAgrees
  simp only [Handshake.runCreator] at hStep
  split at hStep
  · rename_i hFree
    have hAway := hInv.coroutine_of_free hFree
    cases hStep
    cases signalled with
    | false => exact hInv.acquire hFree rfl (hAgrees.wake_roused hAway (hWoken hc))
    | true => exact hInv.acquire hFree rfl (hAgrees.wake hAway)
  · cases hStep

/-- The coroutine is recalled by a message if it has ended; otherwise `Finish` goes on to
its second test. -/
theorem Inv.runTestsEnded (hInv : Inv x) (hc : x.creator = .testsEnded)
    (hStep : Handshake.runCreator x .testsEnded = some x') : Inv x' := by
  have hAgrees := hInv.agrees
  rw [hc] at hAgrees
  cases hStep
  by_cases hEnded : x.status = .ended
  · rw [if_pos hEnded]
    exact hInv.goto (by rw [hc]; rfl) hAgrees
  · rw [if_neg hEnded]
    exact hInv.goto (by rw [hc]; rfl) hAgrees

/-- It is cancelled unless it waits. Both tests are made without the mutex, and the
condition keeps the coroutine out of the way of the first one. -/
theorem Inv.runTestsWaiting (hInv : Inv x) (hc : x.creator = .testsWaiting)
    (hStep : Handshake.runCreator x .testsWaiting = some x') : Inv x' := by
  have hAgrees := hInv.agrees
  rw [hc] at hAgrees
  cases hStep
  by_cases hWaiting : x.status = .waiting
  · rw [if_pos hWaiting]
    exact hInv.goto (by rw [hc]; rfl) hAgrees
  · rw [if_neg hWaiting]
    exact hInv.goto (by rw [hc]; rfl) (hAgrees.cancel hWaiting)

/-- The thread that is cancelled gives the mutex back. -/
theorem Inv.runCancels (hInv : Inv x) (hc : x.creator = .cancels)
    (hStep : Handshake.runCreator x .cancels = some x') : Inv x' := by
  have hAgrees := hInv.agrees
  rw [hc] at hAgrees
  cases hStep
  have hNot : x.holder ≠ some .creator := fun h => by simpa [hc, CreatorPlace.holds] using hInv.creator.mp h
  refine ⟨?_, ?_, ⟨.inl rfl, hAgrees.slot_of_cancelling⟩, hInv.order, hInv.meant, hInv.failed⟩
  · split <;> simp [hNot, CreatorPlace.holds]
  · split <;> simp_all [CoPlace.holds]

/-- The creator is past the join when the thread has exited. -/
theorem Inv.runJoins (hInv : Inv x) (hc : x.creator = .joins)
    (hStep : Handshake.runCreator x .joins = some x') : Inv x' := by
  have hAgrees := hInv.agrees
  rw [hc] at hAgrees
  simp only [Handshake.runCreator] at hStep
  split at hStep
  · rename_i hExited
    cases hStep
    refine hInv.goto (by rw [hc]; rfl) ?_
    rw [hExited] at hAgrees ⊢
    exact ⟨.inr rfl, hAgrees.2⟩
  · cases hStep

/-- **A step of the creator.** The cases follow its places in `Start`, `Transfer` and
`Finish`; the tests are in turn by the condition, everything else by what the invariant says
of the coroutine at that place. -/
theorem Inv.runCreator (hInv : Inv x) (hOk : InTurn x .creator)
    (hStep : Handshake.runCreator x x.creator = some x') : Inv x' := by
  have hAgrees := hInv.agrees
  obtain ⟨hStart, hFinish, hWoken⟩ := hOk
  cases hc : x.creator with
  | outside | asleep | finished =>
    rw [hc] at hStep
    cases hStep
  | locksStart =>
    rw [hc] at hStep hAgrees
    simp only [Handshake.runCreator] at hStep
    split at hStep
    · rename_i hFree
      cases hStep
      exact hInv.acquire hFree rfl (hAgrees.test (hInv.coroutine_of_free hFree) (hStart hc))
    · cases hStep
  -- the test of the status in `Start`: the condition says where the coroutine is
  | tests => exact hInv.runTests hc (hc ▸ hStep)
  | sends m => exact hInv.runSends hc (hc ▸ hStep)
  | waits =>
    rw [hc] at hStep hAgrees
    cases hStep
    exact hInv.release (by rw [hc]; rfl) rfl hAgrees
  | wakes signalled => exact hInv.runWakes hc hWoken (hc ▸ hStep)
  | takes =>
    rw [hc] at hStep hAgrees
    obtain ⟨hSlot, hTaken⟩ := hAgrees.take
    simp only [Handshake.runCreator, hSlot] at hStep
    cases hStep
    exact hInv.take (by rw [hc]; rfl) hSlot rfl hTaken
  -- only the started message comes back to the creator
  | checks m =>
    rw [hc] at hStep hAgrees
    cases hStep
    cases m with
    | started => exact hInv.goto (by rw [hc]; rfl) hAgrees
    | _ => exact hAgrees.not_never.elim
  | setsSem | signalsSem =>
    rw [hc] at hStep hAgrees
    cases hStep
    exact hInv.goto (by rw [hc]; rfl) hAgrees
  -- the assertion of `Transfer`: the coroutine has not ended
  | asserts =>
    rw [hc] at hStep hAgrees
    cases hStep
    rw [if_pos hAgrees.status_of_handing]
    exact hInv.goto (by rw [hc]; rfl) hAgrees
  | unlocks m =>
    rw [hc] at hStep hAgrees
    cases hStep
    cases m with
    | transfer | terminate => exact hInv.release (by rw [hc]; rfl) rfl hAgrees
    | _ => exact hAgrees.not_never.elim
  | finishes =>
    rw [hc] at hStep hAgrees
    obtain ⟨hPassive, hTerminated⟩ := hAgrees.status_of_started
    cases hStep
    rw [if_neg hPassive, if_neg hTerminated]
    exact hInv.goto (by rw [hc]; rfl) hAgrees
  | testsEnded => exact hInv.runTestsEnded hc (hc ▸ hStep)
  | testsWaiting => exact hInv.runTestsWaiting hc (hc ▸ hStep)
  | locksFinish =>
    rw [hc] at hStep hAgrees
    simp only [Handshake.runCreator] at hStep
    split at hStep
    -- the mutex is free, so the coroutine is in a wait or has not come to it yet
    · rename_i hFree
      cases hStep
      exact hInv.acquire hFree rfl (hAgrees.recall (hInv.coroutine_of_free hFree) (hFinish hc))
    · cases hStep
  | cancels => exact hInv.runCancels hc (hc ▸ hStep)
  | joins => exact hInv.runJoins hc (hc ▸ hStep)
  | terminates =>
    rw [hc] at hStep hAgrees
    cases hStep
    -- the thread is over, and `Finish` ends with its status
    refine ⟨?_, hInv.coroutine, hAgrees.over _, hInv.order, hInv.meant, hInv.failed⟩
    have hSame := hInv.creator
    rwa [hc] at hSame

-- ---------------------------------------------------------------------------
-- Steps of the coroutine
-- ---------------------------------------------------------------------------

/-- The coroutine goes on, inside or outside the mutex as before. -/
theorem Inv.coGoto (hInv : Inv x) (hHolds : o.holds = x.coroutine.holds)
    (hAgrees : o.Agrees x.creator.view x.slot status) :
    Inv { x with status := status, coroutine := o } :=
  ⟨hInv.creator, by rw [hHolds]; exact hInv.coroutine, hAgrees, hInv.order, hInv.meant,
    hInv.failed⟩

/-- The coroutine gets the mutex. -/
theorem Inv.coAcquire (hInv : Inv x) (hFree : x.holder = none) (hHolds : o.holds = true)
    (hAgrees : o.Agrees x.creator.view x.slot x.status) :
    Inv { x with holder := some .coroutine, coroutine := o } :=
  ⟨by simp [hInv.creator_of_free hFree], by simp [hHolds], hAgrees, hInv.order, hInv.meant,
    hInv.failed⟩

/-- The coroutine gives the mutex back. -/
theorem Inv.coRelease (hInv : Inv x) (hOld : x.coroutine.holds) (hNew : o.holds = false)
    (hAgrees : o.Agrees x.creator.view x.slot x.status) :
    Inv { x with holder := none, coroutine := o } :=
  ⟨by simp [hInv.creator_of_coroutine hOld], by simp [hNew], hAgrees, hInv.order, hInv.meant,
    hInv.failed⟩

/-- The coroutine takes a message that is meant for it. -/
theorem Inv.coTake {m : Message} (hInv : Inv x) (hHolds : o.holds = x.coroutine.holds)
    (hSlot : x.slot = some m) (hMeant : m.receiver = .coroutine)
    (hAgrees : o.Agrees x.creator.view none x.status) :
    Inv { x with slot := none, received := x.received ++ [(.coroutine, m)], coroutine := o } := by
  refine ⟨hInv.creator, by rw [hHolds]; exact hInv.coroutine, hAgrees, ?_, ?_, hInv.failed⟩
  · have hOrder := hInv.order
    rw [hSlot] at hOrder
    simpa using hOrder
  · intro r hr
    rcases List.mem_append.mp hr with hOld | hNew
    · exact hInv.meant r hOld
    · rw [List.mem_singleton.mp hNew]
      exact hMeant

/-- The creator is woken by the started message; it cannot be on its way to sleep, inside the
mutex. -/
theorem woken_of_isWaiting (h : c.view.isWaiting) (hAway : c.holds = false) :
    c.woken.view = .roused ∨ c.woken.view = .woken := by
  cases c with
  | wakes signalled => cases signalled <;> simp_all [CreatorPlace.view, CreatorPlace.woken]
  | sends m | checks m | unlocks m => cases m <;> simp_all [CreatorPlace.view]
  | _ => simp_all [CreatorPlace.view, CreatorPlace.woken, CreatorPlace.holds]

/-- The wait of the coroutine is over, and the unread message is for it. -/
theorem CoPlace.Agrees.received {ended signalled : Bool}
    (h : (CoPlace.wakes ended signalled).Agrees v slot status)
    (hTurn : signalled = false → slot.map Message.receiver = some .coroutine) :
    (CoPlace.takes ended).Agrees v slot status := by
  cases signalled with
  | true => cases ended <;> exact h
  | false =>
    obtain ⟨m, rfl, hMeant⟩ := Option.map_eq_some_iff.mp (hTurn rfl)
    cases ended <;> cases m <;> simp_all [CoPlace.Agrees, Message.receiver]

/-- The coroutine takes a message only if there is one for it, by what holds at that place.
-/
theorem CoPlace.Agrees.taken {ended : Bool} (h : (CoPlace.takes ended).Agrees v slot status) :
    ∃ m, slot = some m ∧ m.receiver = .coroutine ∧ (CoPlace.got ended m).Agrees v none status := by
  cases ended with
  | false =>
    obtain ⟨hv, rfl, hStatus⟩ := h
    exact ⟨_, rfl, rfl, rfl, hv, rfl, hStatus⟩
  | true =>
    obtain ⟨⟨hv, rfl⟩ | ⟨hv, rfl⟩, hStatus⟩ := h
    · exact ⟨_, rfl, rfl, .inl ⟨rfl, hv⟩, rfl, hStatus⟩
    · exact ⟨_, rfl, rfl, .inr ⟨rfl, hv⟩, rfl, hStatus⟩

/-- The started message is sent: the creator waits for it, and the slot is empty since the
creator has read everything it was sent. -/
theorem Inv.runCoSends (hInv : Inv x) (ho : x.coroutine = .sends)
    (hStep : Handshake.runCoroutine x .sends = some x') : Inv x' := by
  have hAgrees := hInv.agrees
  rw [ho] at hAgrees
  obtain ⟨hv, hSlot, hStatus⟩ := hAgrees
  cases hStep
  have hHolds : x.coroutine.holds = true := by rw [ho]; rfl
  have hWoken := woken_of_isWaiting hv (hInv.creator_of_coroutine hHolds)
  rw [State.send, if_pos hSlot]
  refine ⟨?_, ?_, ⟨hWoken, rfl, hStatus⟩, ?_, hInv.meant, hInv.failed⟩
  · rw [CreatorPlace.holds_woken]
    exact hInv.creator
  · simp [hInv.coroutine.mpr hHolds, CoPlace.holds]
  · have hOrder := hInv.order
    rw [hSlot] at hOrder
    simpa using hOrder

/-- The coroutine waits for the next message. It takes one at once if `Send` was before it.
-/
theorem Inv.runCoWaits {ended : Bool} (hInv : Inv x) (ho : x.coroutine = .waits ended)
    (hStep : Handshake.runCoroutine x (.waits ended) = some x') : Inv x' := by
  have hAgrees := hInv.agrees
  rw [ho] at hAgrees
  cases hStep
  cases ended with
  | false =>
    obtain ⟨hv, hSlot, hStatus⟩ := hAgrees
    refine hInv.coRelease (by rw [ho]; rfl) rfl ⟨.inl ⟨?_, hSlot⟩, hStatus⟩
    exact hv.imp_right .inl
  | true =>
    obtain ⟨hv, hSlot, hStatus⟩ := hAgrees
    refine hInv.coRelease (by rw [ho]; rfl) rfl ⟨?_, hSlot, hStatus⟩
    exact hv.imp_right .inl

/-- The wait of the coroutine is over, by a signal or for no reason; in the second case the
message must be there already. -/
theorem Inv.runCoWakes {ended signalled : Bool} (hInv : Inv x) (ho : x.coroutine = .wakes ended signalled)
    (hTurn : signalled = false → x.slot.map Message.receiver = some .coroutine)
    (hStep : Handshake.runCoroutine x (.wakes ended signalled) = some x') : Inv x' := by
  have hAgrees := hInv.agrees
  rw [ho] at hAgrees
  simp only [Handshake.runCoroutine] at hStep
  split at hStep
  · rename_i hFree
    cases hStep
    exact hInv.coAcquire hFree rfl (hAgrees.received hTurn)
  · cases hStep

/-- The message is handled outside of the mutex. A restart leads back to the beginning of
`Run`, a transfer into the function, and `terminate` out of the thread. -/
theorem Inv.runCoGot {ended : Bool} {m : Message} (hInv : Inv x) (ho : x.coroutine = .got ended m)
    (hStep : Handshake.runCoroutine x (.got ended m) = some x') : Inv x' := by
  have hAgrees := hInv.agrees
  rw [ho] at hAgrees
  cases ended with
  | false =>
    cases hStep
    exact hInv.coRelease (by rw [ho]; rfl) rfl hAgrees
  | true =>
    obtain ⟨⟨rfl, hv⟩ | ⟨rfl, hv⟩, hSlot, hStatus⟩ := hAgrees
    · cases hStep
      exact hInv.coRelease (by rw [ho]; rfl) rfl ⟨hv, hSlot, .inr hStatus⟩
    · cases hStep
      exact hInv.coRelease (by rw [ho]; rfl) rfl ⟨hv, hSlot⟩

/-- **A step of the coroutine.** The assertions on its status hold because each place fixes
the status, up to the place at which it starts. -/
theorem Inv.runCoroutine (hInv : Inv x) (hOk : InTurn x .coroutine)
    (hStep : Handshake.runCoroutine x x.coroutine = some x') : Inv x' := by
  have hAgrees := hInv.agrees
  cases ho : x.coroutine with
  | absent | exited =>
    rw [ho] at hStep
    cases hStep
  | asleep ended =>
    rw [ho] at hStep
    cases hStep
  | fresh =>
    rw [ho] at hStep hAgrees
    obtain ⟨hv, hSlot, hStatus⟩ := hAgrees
    cases hStep
    rw [if_pos hStatus]
    exact hInv.coGoto (by rw [ho]; rfl) ⟨hv, hSlot, .inl hStatus⟩
  | setsEnabled =>
    rw [ho] at hStep hAgrees
    obtain ⟨hv, hSlot, hStatus⟩ := hAgrees
    cases hStep
    -- enabled from the two states a coroutine can start in
    rw [if_neg (by rcases hStatus with hs | hs <;> simp [hs])]
    exact hInv.coGoto (by rw [ho]; rfl) ⟨hv, hSlot, rfl⟩
  | setsWaiting =>
    rw [ho] at hStep hAgrees
    obtain ⟨hv, hSlot, hStatus⟩ := hAgrees
    cases hStep
    rw [if_neg (by simp [hStatus]), if_neg (by simp [hStatus])]
    exact hInv.coGoto (by rw [ho]; rfl) ⟨hv, hSlot, rfl⟩
  | locks =>
    rw [ho] at hStep hAgrees
    simp only [Handshake.runCoroutine] at hStep
    split at hStep
    · rename_i hFree
      cases hStep
      exact hInv.coAcquire hFree rfl hAgrees
    · cases hStep
  -- the started message for `Start`
  | sends => exact hInv.runCoSends ho (ho ▸ hStep)
  | waits ended => exact hInv.runCoWaits ho (ho ▸ hStep)
  | wakes ended signalled => exact hInv.runCoWakes ho (fun h => hOk ended (h ▸ ho)) (ho ▸ hStep)
  | takes ended =>
    rw [ho] at hStep hAgrees
    obtain ⟨m, hSlot, hMeant, hGot⟩ := hAgrees.taken
    simp only [Handshake.runCoroutine, hSlot] at hStep
    cases hStep
    exact hInv.coTake (by rw [ho]; rfl) hSlot hMeant hGot
  -- only here the message decides where the coroutine goes
  | got ended m => exact hInv.runCoGot ho (ho ▸ hStep)
  | handles m =>
    rw [ho] at hStep hAgrees
    obtain ⟨rfl, hRest⟩ := hAgrees
    cases hStep
    exact hInv.coGoto (by rw [ho]; rfl) hRest
  | enables =>
    rw [ho] at hStep hAgrees
    obtain ⟨hv, hSlot, hStatus⟩ := hAgrees
    cases hStep
    rw [if_neg (by simp [hStatus])]
    exact hInv.coGoto (by rw [ho]; rfl) ⟨.inl hv, hSlot, rfl⟩
  | runs =>
    rw [ho] at hStep hAgrees
    cases hStep
    exact hInv.coGoto (by rw [ho]; rfl) hAgrees
  -- its end is reported under the mutex as well
  | locksEnd =>
    rw [ho] at hStep hAgrees
    simp only [Handshake.runCoroutine] at hStep
    split at hStep
    · rename_i hFree
      cases hStep
      exact hInv.coAcquire hFree rfl hAgrees
    · cases hStep
  | ends =>
    rw [ho] at hStep hAgrees
    obtain ⟨hv, hSlot, -⟩ := hAgrees
    cases hStep
    exact hInv.coGoto (by rw [ho]; rfl) ⟨hv, hSlot, rfl⟩
  | signalsEnd =>
    rw [ho] at hStep hAgrees
    cases hStep
    exact hInv.coGoto (by rw [ho]; rfl) hAgrees
  | terminates =>
    rw [ho] at hStep hAgrees
    cases hStep
    exact hInv.coGoto (by rw [ho]; rfl) ⟨.inl hAgrees.1, hAgrees.2⟩

-- ---------------------------------------------------------------------------
-- Every run
-- ---------------------------------------------------------------------------

theorem CoPlace.Agrees.roused {ended : Bool} (h : (CoPlace.asleep ended).Agrees v slot status) :
    (CoPlace.wakes ended false).Agrees v slot status := by
  cases ended with
  | false => exact ⟨h.1.imp_right .inl, h.2⟩
  | true => exact ⟨.inl ⟨h.1, h.2.1⟩, h.2.2⟩

/-- A spurious wake-up changes nothing but the place. Whether it does harm is decided where
the wait goes on. -/
theorem Inv.spurious {p : Party} (hInv : Inv x) (hStep : Handshake.spurious x p = some x') :
    Inv x' := by
  have hAgrees := hInv.agrees
  cases p with
  | creator =>
    simp only [Handshake.spurious] at hStep
    split at hStep
    · rename_i hAsleep
      rw [hAsleep] at hAgrees
      cases hStep
      exact hInv.goto (by rw [hAsleep]; rfl) hAgrees.rouse
    · cases hStep
  | coroutine =>
    simp only [Handshake.spurious] at hStep
    split at hStep
    · rename_i ended hAsleep
      rw [hAsleep] at hAgrees
      cases hStep
      exact hInv.coGoto (by rw [hAsleep]; rfl) hAgrees.roused
    · cases hStep
  | other => cases hStep

/-- **A step in turn** keeps the handshake in order: the calls begin from the outside only,
and another holder of the mutex touches neither party. -/
theorem Inv.next {l : Label} (hInv : Inv x) (hOk : InTurn x l)
    (hStep : Handshake.next x l = some x') : Inv x' := by
  unfold Handshake.next at hStep
  rw [if_neg (by simp [hInv.failed])] at hStep
  have hAgrees := hInv.agrees
  cases l with
  | start =>
    simp only at hStep
    split at hStep
    · rename_i hOutside
      rw [hOutside] at hAgrees
      cases hStep
      exact hInv.goto (by rw [hOutside]; rfl) hAgrees
    · cases hStep
  | finish =>
    simp only at hStep
    split at hStep
    · rename_i hCall
      rw [hCall.1] at hAgrees
      cases hStep
      -- `Finish` is called once the coroutine has been started
      exact hInv.goto (by rw [hCall.1]; rfl) (hAgrees.finish hCall.2)
    · cases hStep
  | creator => exact hInv.runCreator hOk hStep
  | coroutine => exact hInv.runCoroutine hOk hStep
  | spurious p => exact hInv.spurious hStep
  | other =>
    simp only at hStep
    -- another thread takes the mutex, or gives it back
    split at hStep
    · rename_i hFree
      cases hStep
      exact ⟨by simp [hInv.creator_of_free hFree], by simp [hInv.coroutine_of_free hFree],
        hAgrees, hInv.order, hInv.meant, hInv.failed⟩
    · rename_i hOther
      have hCreator := hInv.creator
      have hCoroutine := hInv.coroutine
      cases hStep
      exact ⟨by simpa [hOther] using hCreator, by simpa [hOther] using hCoroutine,
        hAgrees, hInv.order, hInv.meant, hInv.failed⟩
    · cases hStep

theorem inv_initial : Inv initial :=
  ⟨by decide, by decide, ⟨.inl rfl, rfl, rfl⟩, rfl, by simp [initial], rfl⟩

theorem inv_reachable (h : Runs.ReachableUnder system InTurn x) : Inv x := by
  refine h.invariant ?_ fun _ _ _ hInv hOk hStep => hInv.next hOk hStep
  rintro _ rfl
  exact inv_initial

/-- The step of a party. -/
def Party.label : Party → Label
  | .creator => .creator
  | .coroutine => .coroutine
  | .other => .other

/-- What the handshake is for. -/
structure Sound (x : State) : Prop where
  /-- Every message sent has been received once, in order, or is the unread one. -/
  order : x.sent = x.received.map Prod.snd ++ x.slot.toList
  meant : ∀ r ∈ x.received, r.2.receiver = r.1
  slots : x.failed ≠ some .put ∧ x.failed ≠ some .take
  awake : ∀ m, x.slot = some m →
    (m.receiver = .creator → x.creator ≠ .asleep) ∧
      (m.receiver = .coroutine → ∀ ended, x.coroutine ≠ .asleep ended)
  /-- The next step of its receiver takes the unread message, or gets the mutex for that; or the
  next step of the one that has the mutex gives it back. -/
  arrives : ∀ m, x.slot = some m →
    (∃ x', next x m.receiver.label = some x' ∧
      (x'.received = x.received ++ [(m.receiver, m)] ∨ x'.holder = some m.receiver)) ∨
    ∃ p x', x.holder = some p ∧ p ≠ m.receiver ∧ next x p.label = some x' ∧
      x'.holder = none ∧ x'.slot = some m

/-- The creator has been woken for the started message. -/
theorem CoPlace.Agrees.started (h : o.Agrees v (some .started) status) : v.isWoken := by
  cases o using CoPlace.byWait with
  | waits => exact h.1.imp_right .inl
  | _ => simp_all [CoPlace.Agrees]

theorem CreatorPlace.of_isWoken (h : c.view.isWoken) :
    (∃ signalled, c = .wakes signalled) ∨ c = .takes := by
  cases c with
  | wakes signalled => exact .inl ⟨signalled, rfl⟩
  | takes => exact .inr rfl
  | sends m | checks m | unlocks m => cases m <;> simp [CreatorPlace.view] at h
  | _ => simp [CreatorPlace.view] at h

/-- The coroutine has been woken for the other ones. -/
theorem CoPlace.Agrees.unread {m : Message} (h : o.Agrees v (some m) status)
    (hMeant : m.receiver = .coroutine) :
    ∃ ended, (∃ signalled, o = .wakes ended signalled) ∨ o = .takes ended := by
  cases o using CoPlace.byWait <;> cases m <;> simp_all [CoPlace.Agrees, Message.receiver]

/-- Nothing is unread while the creator is about to send, or has just received. -/
theorem CoPlace.Agrees.slot_eq (h : o.Agrees v slot status)
    (hv : v = .testing ∨ v = .calling ∨ v = .handing) : slot = none := by
  rcases hv with rfl | rfl | rfl
  · exact h.of_testing.1
  · exact h.send_restart.1
  · exact h.send_transfer.1

theorem Inv.next_creator (hInv : Inv x) :
    Handshake.next x .creator = Handshake.runCreator x x.creator := by
  unfold Handshake.next
  rw [if_neg (by simp [hInv.failed])]

theorem Inv.next_coroutine (hInv : Inv x) :
    Handshake.next x .coroutine = Handshake.runCoroutine x x.coroutine := by
  unfold Handshake.next
  rw [if_neg (by simp [hInv.failed])]

/-- The creator gives the mutex back while a message to the coroutine is unread. It holds
the mutex at few places, and at most of these the slot is empty. -/
theorem Inv.creator_frees {m : Message} (hInv : Inv x) (hHolder : x.holder = some .creator)
    (hSlot : x.slot = some m) (hMeant : m.receiver = .coroutine) :
    ∃ x', Handshake.next x .creator = some x' ∧ x'.holder = none ∧ x'.slot = some m := by
  have hHolds := hInv.creator.mp hHolder
  have hAgrees := hInv.agrees
  -- where the creator tests or hands over nothing is unread
  have hUnread : ∀ {v'}, v' = .testing ∨ v' = .calling ∨ v' = .handing → x.creator.view ≠ v' := by
    intro v' hv' hView
    have hNone := hAgrees.slot_eq (hView ▸ hv')
    rw [hSlot] at hNone
    cases hNone
  rw [hInv.next_creator]
  cases hc : x.creator with
  -- the two places that are left
  | waits | unlocks m' => exact ⟨_, rfl, rfl, hSlot⟩
  | tests => exact absurd (by rw [hc]; rfl) (hUnread (.inl rfl))
  | setsSem | signalsSem | asserts => exact absurd (by rw [hc]; rfl) (hUnread (.inr (.inr rfl)))
  | sends m' =>
    rw [hc] at hAgrees hUnread
    cases m' with
    | started => exact hAgrees.not_never.elim
    | transfer => exact absurd rfl (hUnread (.inr (.inr rfl)))
    | restart | terminate => exact absurd rfl (hUnread (.inr (.inl rfl)))
  -- the message just read was the only one
  | checks m' =>
    rw [hc] at hAgrees hUnread
    cases m' with
    | started => exact absurd rfl (hUnread (.inr (.inr rfl)))
    | _ => exact hAgrees.not_never.elim
  | takes =>
    rw [hc] at hAgrees
    have hStarted := hSlot.symm.trans hAgrees.take.1
    cases hStarted
    cases hMeant
  | _ =>
    rw [hc] at hHolds
    cases hHolds

/-- The coroutine gives the mutex back while the started message is unread: it has sent it
just now and goes to wait. -/
theorem Inv.coroutine_frees (hInv : Inv x) (hHolder : x.holder = some .coroutine)
    (hSlot : x.slot = some .started) :
    ∃ x', Handshake.next x .coroutine = some x' ∧ x'.holder = none ∧ x'.slot = some .started := by
  have hHolds := hInv.coroutine.mp hHolder
  have hAgrees := hInv.agrees
  rw [hSlot] at hAgrees
  rw [hInv.next_coroutine]
  generalize hPlace : x.coroutine = o at hHolds hAgrees
  cases o using CoPlace.byWait with
  | waits => exact ⟨_, rfl, rfl, hSlot⟩
  | _ => simp_all [CoPlace.Agrees, CoPlace.holds]

/-- **An unread message arrives**: its receiver can take it, or the mutex for it, or whoever
holds the mutex can give it back with the message untouched. -/
theorem Inv.arrives {m : Message} (hInv : Inv x) (hSlot : x.slot = some m) :
    (∃ x', Handshake.next x m.receiver.label = some x' ∧
      (x'.received = x.received ++ [(m.receiver, m)] ∨ x'.holder = some m.receiver)) ∨
    ∃ p x', x.holder = some p ∧ p ≠ m.receiver ∧ Handshake.next x p.label = some x' ∧
      x'.holder = none ∧ x'.slot = some m := by
  have hAgrees := hInv.agrees
  rw [hSlot] at hAgrees
  -- a third thread can always give the mutex back
  have hOther : x.holder = some .other →
      ∃ x', Handshake.next x .other = some x' ∧ x'.holder = none ∧ x'.slot = some m := by
    intro hHolder
    refine ⟨{ x with holder := none }, ?_, rfl, hSlot⟩
    unfold Handshake.next
    rw [if_neg (by simp [hInv.failed])]
    simp only [hHolder]
  cases hMeant : m.receiver with
  -- to the creator there is only the started message, and it waits for it
  | creator =>
    have hm : m = .started := by cases m <;> first | rfl | cases hMeant
    subst hm
    rcases CreatorPlace.of_isWoken hAgrees.started with ⟨signalled, hc⟩ | hc
    · cases hHolder : x.holder with
      | none =>
        refine .inl ⟨{ x with holder := some .creator, creator := .takes }, ?_, .inr rfl⟩
        show Handshake.next x .creator = _
        rw [hInv.next_creator, hc]
        simp only [Handshake.runCreator, if_pos hHolder]
      | some p =>
        cases p with
        | creator =>
          have hHolds := hInv.creator.mp hHolder
          rw [hc] at hHolds
          cases hHolds
        | coroutine =>
          obtain ⟨x', hNext, hFree, hKept⟩ := hInv.coroutine_frees hHolder hSlot
          exact .inr ⟨.coroutine, x', rfl, by decide, hNext, hFree, hKept⟩
        | other =>
          obtain ⟨x', hNext, hFree, hKept⟩ := hOther hHolder
          exact .inr ⟨.other, x', rfl, by decide, hNext, hFree, hKept⟩
    -- it holds the mutex and takes the message
    · refine .inl ⟨{ x with
        slot := none
        received := x.received ++ [(.creator, .started)]
        creator := .checks .started }, ?_, .inl rfl⟩
      show Handshake.next x .creator = _
      rw [hInv.next_creator, hc]
      simp only [Handshake.runCreator, hSlot]
  -- to the coroutine: it is in one of its two loops
  | coroutine =>
    obtain ⟨ended, ⟨signalled, ho⟩ | ho⟩ := hAgrees.unread hMeant
    · cases hHolder : x.holder with
      | none =>
        refine .inl ⟨{ x with holder := some .coroutine, coroutine := .takes ended }, ?_, .inr rfl⟩
        show Handshake.next x .coroutine = _
        rw [hInv.next_coroutine, ho]
        simp only [Handshake.runCoroutine, if_pos hHolder]
      | some p =>
        cases p with
        | creator =>
          obtain ⟨x', hNext, hFree, hKept⟩ := hInv.creator_frees hHolder hSlot hMeant
          exact .inr ⟨.creator, x', rfl, by decide, hNext, hFree, hKept⟩
        | coroutine =>
          have hHolds := hInv.coroutine.mp hHolder
          rw [ho] at hHolds
          cases hHolds
        | other =>
          obtain ⟨x', hNext, hFree, hKept⟩ := hOther hHolder
          exact .inr ⟨.other, x', rfl, by decide, hNext, hFree, hKept⟩
    -- it holds the mutex and takes the message
    · refine .inl ⟨{ x with
        slot := none
        received := x.received ++ [(.coroutine, m)]
        coroutine := .got ended m }, ?_, .inl rfl⟩
      show Handshake.next x .coroutine = _
      rw [hInv.next_coroutine, ho]
      simp only [Handshake.runCoroutine, hSlot]
  | other => cases m <;> cases hMeant

/-- **The handshake** in every run of steps in turn: every message arrives, once, in the
order sent, at the party it is meant for. No party is asleep while its message is there, so
no wake-up is lost. -/
theorem handshake (h : Runs.ReachableUnder system InTurn x) : Sound x := by
  have hInv := inv_reachable h
  refine ⟨hInv.order, hInv.meant, by simp [hInv.failed], fun m hSlot => ⟨?_, ?_⟩,
    fun m => hInv.arrives⟩
  -- the creator is woken or past its wait
  · intro hMeant hAsleep
    have hAgrees := hInv.agrees
    have hm : m = .started := by cases m <;> first | rfl | cases hMeant
    rw [hSlot, hm] at hAgrees
    rcases CreatorPlace.of_isWoken hAgrees.started with ⟨signalled, hc⟩ | hc <;>
      simp [hAsleep] at hc
  -- so is the coroutine
  · intro hMeant ended hAsleep
    have hAgrees := hInv.agrees
    rw [hSlot] at hAgrees
    obtain ⟨ended', ⟨signalled, ho⟩ | ho⟩ := hAgrees.unread hMeant <;> simp [hAsleep] at ho

/-- A start, a restart and the end of a coroutine; the second wait of the creator is over before
the started message is sent. -/
def restartAndFinish : List Label :=
  let steps : List (Nat × Label) :=
    [(1, .start), (3, .creator), (6, .coroutine), (8, .creator), (10, .coroutine),
      (1, .start), (4, .creator), (6, .coroutine), (1, .spurious .creator), (2, .coroutine),
      (8, .creator), (10, .coroutine),
      (1, .finish), (5, .creator), (4, .coroutine), (2, .creator)]
  steps.flatMap fun (n, l) => List.replicate n l

/-- A coroutine that is started, ends, is started again and finished: six messages, all of
them received. -/
theorem handshake_restart : ∃ x, Sound x ∧ x.status = .terminated ∧
    x.sent = [.started, .transfer, .restart, .started, .transfer, .terminate] := by
  have hRun :
      restartAndFinish.foldlM (fun s l => if InTurn s l then next s l else none) initial =
        some ⟨.terminated, none, none, .finished, .exited,
          [.started, .transfer, .restart, .started, .transfer, .terminate],
          [(.creator, .started), (.coroutine, .transfer), (.coroutine, .restart),
            (.creator, .started), (.coroutine, .transfer), (.coroutine, .terminate)], none⟩ := by
    decide +kernel
  have hReach := @Runs.ReachableUnder.foldlM_guarded _ _ system InTurn _ next
    (fun _ _ _ hStep => hStep) _ _ (.init rfl) restartAndFinish hRun
  exact ⟨_, handshake hReach, rfl, rfl⟩

/-- Without the condition: the creator waits for the started message, its wait is over
without a signal, and `take` finds an empty slot. -/
theorem empty_slot_taken : ¬ ∀ x, Runs.Reachable system x → Sound x := by
  obtain ⟨x, hRun, hFailed⟩ : ∃ x,
      [.start, .creator, .creator, .creator, .spurious .creator, .creator, .creator].foldlM
        next initial = some x ∧ x.failed = some .take := ⟨_, rfl, rfl⟩
  intro hAll
  exact (hAll x (Runs.reachable_foldlM (.init rfl) _ hRun)).slots.2 hFailed

end Handshake

end Concurrit.Model
