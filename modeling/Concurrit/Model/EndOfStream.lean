import Concurrit.Lib.Stream
import Concurrit.Model.EventPipe

/-!
# Concurrit — reading an event from a pipe that is closed

`my_read` asks again until it has all the bytes it was called for. A `read` at the end of the
stream returns 0, which passes `safe_check(sz >= 0)` and moves nothing, so the loop goes on
forever. `recv_halts_iff` says on which streams `EventPipe::Recv` comes to an end.
-/

namespace Concurrit.Model

open Transfer (Reader Halts Delivery)

namespace Ipc

/-- The bytes of some fields. -/
def sizeofAll : List Field → Nat
  | [] => 0
  | f :: fs => f.sizeof + sizeofAll fs

theorem fits_recvFields (fs : List Field) (event : EventBuffer) (stream : List UInt8) :
    (recvFields fs event).Fits stream ↔ sizeofAll fs ≤ stream.length := by
  induction fs generalizing event stream with
  | nil => exact iff_of_true trivial (Nat.zero_le _)
  | cons f fs ih =>
    rw [recvFields, Reader.Fits, ih, List.length_drop, sizeofAll]
    omega

/-- What is left of the stream after some fields. -/
theorem rest_recvFields {fs : List Field} {event e : EventBuffer} {stream rest : List UInt8}
    (hRun : (recvFields fs event).run stream = some (e, rest)) :
    rest = stream.drop (sizeofAll fs) := by
  induction fs generalizing event stream with
  | nil =>
    obtain ⟨-, rfl⟩ := Prod.mk.inj (Option.some.inj hRun)
    rfl
  | cons f fs ih =>
    rw [recvFields, Reader.run] at hRun
    split at hRun
    · rw [ih hRun, List.drop_drop, sizeofAll]
    · cases hRun

/-- Fields that the stream has are received. -/
theorem run_of_fits {fs : List Field} (event : EventBuffer) {stream : List UInt8}
    (hFits : sizeofAll fs ≤ stream.length) :
    ∃ e rest, (recvFields fs event).run stream = some (e, rest) := by
  induction fs generalizing event stream with
  | nil => exact ⟨event, stream, rfl⟩
  | cons f fs ih =>
    rw [sizeofAll] at hFits
    rw [recvFields, Reader.run, if_pos (by omega)]
    exact ih _ (by rw [List.length_drop]; omega)

/-- The kind of the event that the stream begins with. -/
def announced (stream : List UInt8) : EventKind :=
  Bytes.uint32.ofBytes (stream.take Field.type.sizeof)

/-- The fields before the switch set the kind. -/
theorem type_recv_headFields {event e : EventBuffer} {stream rest : List UInt8}
    (hRun : (recvFields headFields event).run stream = some (e, rest)) :
    e.type = announced stream := by
  simp only [headFields, recvFields, Reader.run] at hRun
  split at hRun
  · split at hRun
    · obtain ⟨rfl, -⟩ := Prod.mk.inj (Option.some.inj hRun)
      rfl
    · cases hRun
  · cases hRun

/-- The stream has the whole event that its first bytes announce. -/
def Whole (stream : List UInt8) : Prop :=
  sizeofAll headFields + sizeofAll (kindFields (announced stream)) ≤ stream.length

/-- The reads of an event fit the stream if and only if the stream has all bytes of it. -/
theorem fits_recv (event : EventBuffer) (stream : List UInt8) :
    (Recv event).Fits stream ↔ Whole stream := by
  have hKind : ∀ e rest, (recvFields headFields event.Clear).run stream = some (e, rest) →
      ((recvFields (kindFields e.type) e >>= fun event => do
          Reader.assert (event.type != EventKind.InvalidEventKind)
          Reader.assert (event.threadid != INVALID_THREADID)
          return event).Fits rest ↔
        sizeofAll (kindFields (announced stream)) ≤ stream.length - sizeofAll headFields) := by
    intro e rest hRun
    rw [Reader.fits_bind, fits_recvFields, type_recv_headFields hRun, rest_recvFields hRun,
      List.length_drop]
    refine and_iff_left fun e' rest' _ => ?_
    simp [Reader.fits_bind]
  rw [Recv, Reader.fits_bind, fits_recvFields, Whole]
  constructor
  · rintro ⟨hHead, hRest⟩
    obtain ⟨e, rest, hRun⟩ := run_of_fits event.Clear hHead
    have hSize := (hKind e rest hRun).mp (hRest e rest hRun)
    omega
  · intro hWhole
    refine ⟨by omega, fun e rest hRun => (hKind e rest hRun).mpr (by omega)⟩

/-- **Reading an event terminates**, whatever the calls deliver, exactly on the streams that
have the whole event. `my_read` reads again when `read` returns 0, which is what it returns
at the end of the stream. -/
theorem recv_halts_iff (event : EventBuffer) (stream : List UInt8) :
    (∀ ds, Halts (Recv event) stream ds) ↔ Whole stream := by
  rw [Transfer.halts_iff, fits_recv]

/-- The peer closes the pipe after three bytes: `read` returns 0 from then on, and `my_read`
calls it for ever. -/
theorem recv_loops : ¬ ∀ event stream ds, Halts (Recv event) stream ds := by
  intro hAll
  have hShort : ¬ (Recv EventBuffer.cleared).Fits [9, 0, 0] := fun h => absurd h.1 (by decide)
  exact Transfer.not_halts hShort (fun _ => by simp) (hAll _ _ fun _ => .some 0)

end Ipc

end Concurrit.Model
