import Concurrit.Lib.SharedStream
import Concurrit.Model.EventPipe

/-!
# Concurrit — many threads on one pipe

`ConcurrentPipe::Send`, with which any number of threads sends events over one pipe, and the
loop of `ConcurrentPipe::thread_func`, which receives them at the other end. `send_mutex_` is
held from the first byte of an event to the last; `my_write` and `my_read` move pieces of any
size, and the pipe holds a bounded number of bytes.

`events_delivered` says that this is a queue of whole events. What lies above the pipe may take
a `Send` for one step that puts the event into a list, and a `Recv` for one that takes the
first event out of it.
-/

namespace Concurrit.Model

open Transfer (Reader Shared)
open Transfer.Shared (Format Codec QueueStep Label)

namespace Ipc

/-- `EventHandler::OnSend`, which no handler of the program overrides. -/
def OnSend (_event : EventBuffer) : Bool := true

/-- `ConcurrentPipe::Send` after it has locked `send_mutex_`: the buffers it writes. -/
def ConcurrentPipe.Send (event : EventBuffer) : Option (List (List UInt8)) :=
  let cancel := !OnSend event
  if cancel then some [] else (Ipc.Send event).map (·.1)

/-- One pipe: what a call to `Send` writes, and what the loop does to receive an event. -/
def pipeFormat (capacity : Nat) (event : EventBuffer) : Format EventBuffer UInt8 EventBuffer where
  buffers e := (ConcurrentPipe.Send e).getD []
  body := Recv event
  capacity := capacity

/-- The bytes of an event as the pipe's format has them. -/
theorem pipe_symbols {capacity : Nat} {event e : EventBuffer} (hCheck : e.Check = true) :
    (pipeFormat capacity event).symbols e = wire e := by
  have hSend : ConcurrentPipe.Send e =
      some ((headFields ++ kindFields e.type).map (·.bytes e)) := by
    simp only [ConcurrentPipe.Send, OnSend, send_eq hCheck]
    rfl
  show ((ConcurrentPipe.Send e).getD []).flatten = wire e
  rw [hSend]
  rfl

/-- `Recv` undoes `Send`. -/
theorem pipe_codec {capacity : Nat} (hRoom : 0 < capacity) (event : EventBuffer) :
    Codec (pipeFormat capacity event) (fun e => e.Check = true) received where
  undoes e rest hCheck := by
    rw [pipe_symbols hCheck]
    exact run_recv hCheck event rest
  reads := rfl
  some := ⟨{ EventBuffer.cleared with type := EventKind.Continue, threadid := 0 }, by decide⟩
  room := hRoom

/-- What the pipe makes of an event: a `FuncCall` arrives as a direct one. -/
def EventBuffer.carried (e : EventBuffer) : EventBuffer :=
  if e.type = EventKind.FuncCall then { e with direct := 1 } else e

/-- `e'` is the event `e` that has been carried over the pipe: the same kind and thread, and the
same value of everything else that `operator=` copies for this kind, source locations apart. -/
def EventBuffer.Carries (e e' : EventBuffer) : Prop := e.carried.SameCopy e'

/-- What is received is what was sent, but for the flag of a call. -/
theorem carries_received (e : EventBuffer) : e.Carries (received e) := by
  unfold EventBuffer.Carries EventBuffer.carried
  split
  case isTrue hCall =>
    have hSame : received { e with direct := 1 } = received e := by
      simp only [received, hCall, kindFields, headFields, List.foldl_cons, List.foldl_nil,
        Field.copy_eq]
      rfl
    rw [← hSame]
    exact (sameCopy_received_iff _).mpr fun _ => rfl
  case isFalse hOther => exact (sameCopy_received_iff e).mpr fun hCall => absurd hCall hOther

variable {κ : Type} [DecidableEq κ]

/-- Threads with lists of events to send, and the loop that receives them. -/
abbrev pipeSystem (capacity : Nat) (event : EventBuffer) (events : κ → List EventBuffer) :=
  Shared.system (pipeFormat capacity event) events

/-- The events that the threads send arrive whole, once, and in the order of the mutex. -/
structure Delivered (capacity : Nat) (event : EventBuffer) (events : κ → List EventBuffer) :
    Prop where
  /-- at each step the pipe is a queue of events -/
  queue : ∀ s l s', Runs.Reachable (pipeSystem capacity event events) s →
    (pipeSystem capacity event events).step s l s' →
      QueueStep received (s.queue received, s.received) l (s'.queue received, s'.received)
  /-- what has been received are the first ones of the events that have been sent -/
  exact : ∀ s, Runs.Reachable (pipeSystem capacity event events) s →
    List.Forall₂ EventBuffer.Carries ((s.sent.map Prod.snd).take s.received.length) s.received
  /-- each thread's events go in its own order -/
  order : ∀ s k, Runs.Reachable (pipeSystem capacity event events) s →
    s.sentBy k <+: events k
  /-- whichever steps are taken that move bytes or return from calls, all events arrive -/
  arrives : ∀ s, Runs.Reachable (pipeSystem capacity event events) s →
    Runs.Inevitable (pipeSystem capacity event events) (fun _ l => Label.productive l)
      (fun s => List.Forall₂ EventBuffer.Carries (s.sent.map Prod.snd) s.received ∧
        ∀ k, s.sentBy k = events k) s

omit [DecidableEq κ] in
theorem forall₂_carries (sent : List (κ × EventBuffer)) :
    List.Forall₂ EventBuffer.Carries (sent.map Prod.snd) (sent.map fun m => received m.2) := by
  rw [List.forall₂_map_left_iff, List.forall₂_map_right_iff, List.forall₂_same]
  exact fun m _ => carries_received m.2

/-- **Delivery.** Any number of threads sends any events over a pipe that holds some byte.
In every interleaving of their writes the receiver gets each event whole and those of one
thread in the order sent; what is written is read in the end. -/
theorem events_delivered [Fintype κ] {capacity : Nat} (hRoom : 0 < capacity) (event : EventBuffer)
    (events : κ → List EventBuffer) (hCheck : ∀ k, ∀ e ∈ events k, e.Check = true) :
    Delivered capacity event events := by
  have hC := pipe_codec hRoom event
  have hInv : ∀ s, Runs.Reachable (pipeSystem capacity event events) s → _ :=
    fun s hReach => Shared.inv_reachable hC hCheck hReach
  refine ⟨fun s l s' hReach hStep => ?_, fun s hReach => ?_, fun s k hReach => ?_,
    fun s hReach => ?_⟩
  · exact hStep.queue hC ((hInv s hReach).pending_valid hCheck) (hInv s hReach)
  · have hReceived : s.received = (s.sent.take s.received.length).map fun m => received m.2 := by
      rw [List.map_take, ← (hInv s hReach).exact, List.take_left]
    rw [← List.map_take]
    have hCarries := forall₂_carries (s.sent.take s.received.length)
    rwa [← hReceived] at hCarries
  · exact ⟨s.todo k, (hInv s hReach).order k⟩
  · refine (Shared.finishes hC hCheck hReach).mono fun s' h => ⟨?_, h.2⟩
    rw [h.1]
    exact forall₂_carries _

/-- One thread begins with a function and another with a memory access. -/
def enterAndRead : Bool → List EventBuffer
  | true => [{ EventBuffer.cleared with type := EventKind.FuncEnter, threadid := 2, addr := 64 }]
  | false =>
    [{ EventBuffer.cleared with type := EventKind.MemRead, threadid := 3, addr := 8, size := 4 },
      { EventBuffer.cleared with type := EventKind.ThreadEnd, threadid := 3 }]

/-- Two threads with their events over a pipe that holds seven bytes. -/
theorem events_delivered_two : Delivered 7 EventBuffer.cleared enterAndRead :=
  events_delivered (by decide) _ _ (by decide)

end Ipc

end Concurrit.Model
