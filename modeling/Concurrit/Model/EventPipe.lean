import Mathlib.Data.List.Forall2
import Concurrit.Lib.Bytes
import Concurrit.Lib.Transfer

/-!
# Concurrit — events on the wire

`EventBuffer` with `Clear` and `operator=`, and `EventPipe::Send` and
`EventPipe::Recv`. Both are instances of one macro, `DECL_SEND_RECV`, so the
fields of an event on the wire are one list, which `Send` writes and `Recv`
reads. What the list leaves out arrives as `Clear` has set it.

`my_write` and `my_read` loop over partial transfers; here each loop is a buffer
of a `Transfer.Link`, which moves it in pieces of any size.
-/

namespace Concurrit.Model

open Transfer (Reader)

namespace Ipc

-- ---------------------------------------------------------------------------
-- Events
-- ---------------------------------------------------------------------------

abbrev EventKind := UInt32

namespace EventKind

@[match_pattern] abbrev InvalidEventKind : EventKind := 0
@[match_pattern] abbrev MemAccessBefore : EventKind := 1
@[match_pattern] abbrev MemAccessAfter : EventKind := 2
@[match_pattern] abbrev MemWrite : EventKind := 3
@[match_pattern] abbrev MemRead : EventKind := 4
@[match_pattern] abbrev FuncCall : EventKind := 5
@[match_pattern] abbrev FuncEnter : EventKind := 6
@[match_pattern] abbrev FuncReturn : EventKind := 7
@[match_pattern] abbrev ThreadStart : EventKind := 8
@[match_pattern] abbrev ThreadEnd : EventKind := 9
@[match_pattern] abbrev TestStart : EventKind := 10
@[match_pattern] abbrev TestEnd : EventKind := 11
@[match_pattern] abbrev AtPc : EventKind := 12
@[match_pattern] abbrev Continue : EventKind := 13
@[match_pattern] abbrev TestShutdown : EventKind := 14
@[match_pattern] abbrev ThreadEndIntern : EventKind := 15
@[match_pattern] abbrev AddressOfSymbol : EventKind := 16

end EventKind

open EventKind

abbrev THREADID := Int32
abbrev ADDRINT := UInt64

def INVALID_THREADID : THREADID := -1

structure EventBuffer where
  type : EventKind
  threadid : THREADID
  addr : ADDRINT
  addr_target : ADDRINT
  size : UInt32
  direct : UInt32
  arg0 : ADDRINT
  arg1 : ADDRINT
  retval : ADDRINT
  pc : Int32
  /-- a pointer of this process, or `NULL` -/
  loc_src : Option Nat
  loc_target : Option Nat
  str : Vector UInt8 64
deriving DecidableEq

namespace EventBuffer

/-- What `Clear` sets, also in the constructor. -/
def cleared : EventBuffer where
  type := InvalidEventKind
  threadid := INVALID_THREADID
  addr := 0
  addr_target := 0
  size := 0
  direct := 1
  arg0 := 0
  arg1 := 0
  retval := 0
  pc := 0
  loc_src := none
  loc_target := none
  str := Vector.replicate 64 0

def Clear (_e : EventBuffer) : EventBuffer := cleared

def Check (e : EventBuffer) : Bool := e.type != InvalidEventKind && e.threadid != INVALID_THREADID

/-- `operator=`: `this` after the assignment of `e`. -/
def assign (this e : EventBuffer) : EventBuffer :=
  let this := { this with type := e.type, threadid := e.threadid, loc_src := e.loc_src }
  match e.type with
  | MemRead | MemWrite => { this with addr := e.addr, size := e.size }
  | FuncEnter => { this with addr := e.addr, arg0 := e.arg0, arg1 := e.arg1 }
  | FuncReturn => { this with addr := e.addr, retval := e.retval }
  | FuncCall =>
    { this with
      addr := e.addr, addr_target := e.addr_target, direct := e.direct, arg0 := e.arg0,
      arg1 := e.arg1, loc_target := e.loc_target }
  | AtPc => { this with pc := e.pc }
  | AddressOfSymbol => { this with addr := e.addr, str := e.str }
  | _ => this

/-- An event without its source locations. -/
def withoutLoc (e : EventBuffer) : EventBuffer := { e with loc_src := none, loc_target := none }

/-- Two events are the same to `operator=`, source locations apart. -/
def SameCopy (e e' : EventBuffer) : Prop :=
  ∀ this : EventBuffer, (this.assign e').withoutLoc = (this.assign e).withoutLoc

end EventBuffer

-- ---------------------------------------------------------------------------
-- Send and Recv
-- ---------------------------------------------------------------------------

/-- The fields that `DECL_SEND_RECV` mentions. -/
inductive Field where
  | type | threadid | addr | addr_target | size | arg0 | arg1 | retval | pc | str
deriving DecidableEq, Repr

namespace Field

/-- `sizeof` of the field. -/
def sizeof : Field → Nat
  | type => Bytes.uint32.size
  | threadid => Bytes.int32.size
  | size => Bytes.uint32.size
  | pc => Bytes.int32.size
  | str => (Bytes.chars 64).size
  | _ => Bytes.uint64.size

/-- The bytes of the field. -/
def bytes (f : Field) (e : EventBuffer) : List UInt8 :=
  match f with
  | type => Bytes.uint32.toBytes e.type
  | threadid => Bytes.int32.toBytes e.threadid
  | addr => Bytes.uint64.toBytes e.addr
  | addr_target => Bytes.uint64.toBytes e.addr_target
  | size => Bytes.uint32.toBytes e.size
  | arg0 => Bytes.uint64.toBytes e.arg0
  | arg1 => Bytes.uint64.toBytes e.arg1
  | retval => Bytes.uint64.toBytes e.retval
  | pc => Bytes.int32.toBytes e.pc
  | str => (Bytes.chars 64).toBytes e.str

/-- The event with these bytes in the field. -/
def store (f : Field) (e : EventBuffer) (bs : List UInt8) : EventBuffer :=
  match f with
  | type => { e with type := Bytes.uint32.ofBytes bs }
  | threadid => { e with threadid := Bytes.int32.ofBytes bs }
  | addr => { e with addr := Bytes.uint64.ofBytes bs }
  | addr_target => { e with addr_target := Bytes.uint64.ofBytes bs }
  | size => { e with size := Bytes.uint32.ofBytes bs }
  | arg0 => { e with arg0 := Bytes.uint64.ofBytes bs }
  | arg1 => { e with arg1 := Bytes.uint64.ofBytes bs }
  | retval => { e with retval := Bytes.uint64.ofBytes bs }
  | pc => { e with pc := Bytes.int32.ofBytes bs }
  | str => { e with str := (Bytes.chars 64).ofBytes bs }

theorem length_bytes (f : Field) (e : EventBuffer) : (f.bytes e).length = f.sizeof := by
  cases f <;> exact Bytes.Layout.length_toBytes _ _

end Field

/-- The fields of `DECL_SEND_RECV` before the switch. -/
def headFields : List Field := [.type, .threadid]

/-- The fields of `DECL_SEND_RECV` for a kind of event. -/
def kindFields : EventKind → List Field
  | MemRead | MemWrite => [.addr, .size]
  | FuncEnter => [.addr, .arg0, .arg1]
  | FuncReturn => [.addr, .retval]
  | FuncCall => [.addr, .addr_target, .arg0, .arg1]
  | AtPc => [.pc]
  | AddressOfSymbol => [.addr, .str]
  | _ => []

/-- `EventPipe::Send`: the buffers given to `my_write` one after the other, and the event
after the call. -/
def Send (event : EventBuffer) : Option (List (List UInt8) × EventBuffer) :=
  if event.type = InvalidEventKind then none
  else if event.threadid = INVALID_THREADID then none
  else some ((headFields ++ kindFields event.type).map (·.bytes event), event.Clear)

/-- `DORecv` of a list of fields. -/
def recvFields : List Field → EventBuffer → Reader UInt8 EventBuffer
  | [], event => pure event
  | f :: fs, event => .read f.sizeof fun bs => recvFields fs (f.store event bs)

/-- `EventPipe::Recv`. -/
def Recv (event : EventBuffer) : Reader UInt8 EventBuffer := do
  let event := event.Clear
  let event ← recvFields headFields event
  let event ← recvFields (kindFields event.type) event
  Reader.assert (event.type != InvalidEventKind)
  Reader.assert (event.threadid != INVALID_THREADID)
  return event

/-- The buffers of a sequence of calls to `Send`. -/
def sendAll (es : List EventBuffer) : Option (List (List UInt8)) :=
  (es.mapM Send).map fun sent => (sent.map (·.1)).flatten

/-- `n` calls to `Recv` on one buffer. -/
def recvAll : Nat → EventBuffer → Reader UInt8 (List EventBuffer)
  | 0, _ => pure []
  | n + 1, event => do
    let event ← Recv event
    let events ← recvAll n event
    return event :: events

-- ---------------------------------------------------------------------------
-- What arrives
-- ---------------------------------------------------------------------------

/-- One field sent and received. -/
def Field.copy (src e : EventBuffer) (f : Field) : EventBuffer := f.store e (f.bytes src)

/-- What copying one field does, written out. -/
theorem Field.copy_eq (src e : EventBuffer) (f : Field) :
    f.copy src e = match f with
      | .type => { e with type := src.type }
      | .threadid => { e with threadid := src.threadid }
      | .addr => { e with addr := src.addr }
      | .addr_target => { e with addr_target := src.addr_target }
      | .size => { e with size := src.size }
      | .arg0 => { e with arg0 := src.arg0 }
      | .arg1 => { e with arg1 := src.arg1 }
      | .retval => { e with retval := src.retval }
      | .pc => { e with pc := src.pc }
      | .str => { e with str := src.str } := by
  cases f <;> simp only [Field.copy, Field.store, Field.bytes, Bytes.Layout.ofBytes_toBytes]

/-- The event that `Recv` returns for a sent one. -/
def received (e : EventBuffer) : EventBuffer :=
  (kindFields e.type).foldl (fun ev f => f.copy e ev)
    (headFields.foldl (fun ev f => f.copy e ev) e.Clear)

theorem received_type (e : EventBuffer) : (received e).type = e.type := by
  simp only [received, kindFields]
  split <;> simp only [headFields, List.foldl_cons, List.foldl_nil] <;> simp only [Field.copy_eq]

theorem received_threadid (e : EventBuffer) : (received e).threadid = e.threadid := by
  simp only [received, kindFields]
  split <;> simp only [headFields, List.foldl_cons, List.foldl_nil] <;> simp only [Field.copy_eq]

/-- Receiving a list of fields from the bytes they were sent as. -/
theorem run_recvFields (fs : List Field) (src e : EventBuffer) (rest : List UInt8) :
    (recvFields fs e).run ((fs.map (·.bytes src)).flatten ++ rest) =
      some (fs.foldl (fun ev f => f.copy src ev) e, rest) := by
  induction fs generalizing e with
  | nil => rfl
  | cons f fs ih =>
    rw [recvFields, List.map_cons, List.flatten_cons, List.append_assoc,
      Reader.run_read_append (f.length_bytes src)]
    exact ih _

/-- The bytes of one event. -/
def wire (e : EventBuffer) : List UInt8 := ((headFields ++ kindFields e.type).map (·.bytes e)).flatten

/-- Reading an event back from its bytes leaves the rest of the stream. -/
theorem run_recv {e : EventBuffer} (hCheck : e.Check = true) (buff : EventBuffer)
    (rest : List UInt8) : (Recv buff).run (wire e ++ rest) = some (received e, rest) := by
  obtain ⟨hType, hTid⟩ := Bool.and_eq_true_iff.mp hCheck
  rw [wire, List.map_append, List.flatten_append, List.append_assoc]
  simp only [Recv, Reader.run_bind, run_recvFields headFields e, Option.bind_some]
  have hKind : (headFields.foldl (fun ev f => f.copy e ev) buff.Clear).type = e.type := by
    simp only [headFields, List.foldl_cons, List.foldl_nil, Field.copy_eq]
  rw [hKind, run_recvFields (kindFields e.type) e]
  show Option.bind (some (received e, rest)) _ = _
  simp only [Option.bind_some, received_type, received_threadid, hType, hTid, Reader.assert]
  rfl

/-- So does reading several of them, over one buffer. -/
theorem run_recvAll {es : List EventBuffer} (hCheck : ∀ e ∈ es, e.Check = true)
    (buff : EventBuffer) (rest : List UInt8) :
    (recvAll es.length buff).run ((es.map wire).flatten ++ rest) =
      some (es.map received, rest) := by
  induction es generalizing buff with
  | nil => rfl
  | cons e es ih =>
    rw [List.map_cons, List.flatten_cons, List.append_assoc]
    simp only [List.length_cons, recvAll, Reader.run_bind, run_recv (hCheck e (by simp)),
      Option.bind_some, ih fun x hx => hCheck x (by simp [hx])]
    rfl

theorem send_eq {e : EventBuffer} (hCheck : e.Check = true) :
    Send e = some ((headFields ++ kindFields e.type).map (·.bytes e), e.Clear) := by
  obtain ⟨hType, hTid⟩ := Bool.and_eq_true_iff.mp hCheck
  rw [Send, if_neg (bne_iff_ne.mp hType), if_neg (bne_iff_ne.mp hTid)]

/-- What is sent are the bytes of the events, one after the other. -/
theorem sendAll_eq {es : List EventBuffer} (hCheck : ∀ e ∈ es, e.Check = true) :
    ∃ buffers, sendAll es = some buffers ∧ buffers.flatten = (es.map wire).flatten := by
  induction es with
  | nil => exact ⟨[], rfl, rfl⟩
  | cons e es ih =>
    obtain ⟨buffers, hAll, hFlat⟩ := ih fun x hx => hCheck x (by simp [hx])
    obtain ⟨sent, hSent, rfl⟩ := Option.map_eq_some_iff.mp hAll
    refine ⟨(headFields ++ kindFields e.type).map (·.bytes e) ++ (sent.map (·.1)).flatten, ?_, ?_⟩
    · simp [sendAll, List.mapM_cons, send_eq (hCheck e (by simp)), hSent]
    · rw [List.flatten_append, hFlat]
      rfl

-- ---------------------------------------------------------------------------
-- The round trip
-- ---------------------------------------------------------------------------

/-- A sequence of events is written at one end and received at the other with the same number
of calls, whatever the cuts. -/
structure RoundTrip (es : List EventBuffer) (buff : EventBuffer) (buffers : List (List UInt8)) :
    Prop where
  /-- the buffers are those of the calls to `Send` -/
  sends : sendAll es = some buffers
  /-- no call is stuck -/
  proceeds : ∀ s, Runs.Reachable (Transfer.link buffers (recvAll es.length buff)) s →
    (s.toWrite = [] ∧ ∃ events, s.reader = .ret events) ∨
      ∃ l s', Transfer.Step s l s' ∧ l.productive
  /-- every run with transfers of positive size comes to an end -/
  stops : WellFounded fun s' s : Transfer.Link UInt8 (List EventBuffer) =>
    ∃ l : Transfer.Label, l.productive ∧ Transfer.Step s l s'
  /-- what is received is what was sent, and the stream is used up -/
  same : ∀ s events, Runs.Reachable (Transfer.link buffers (recvAll es.length buff)) s →
    s.reader = .ret events →
      List.Forall₂ EventBuffer.SameCopy es events ∧ s.stream = [] ∧ s.toWrite.flatten = []

/-- The only field that `operator=` copies and the wire does not carry is `direct`. -/
theorem sameCopy_received_iff (e : EventBuffer) :
    e.SameCopy (received e) ↔ (e.type = FuncCall → e.direct = 1) := by
  constructor
  · intro hSame hCall
    have hDirect := congrArg EventBuffer.direct (hSame e)
    simp only [EventBuffer.assign, EventBuffer.withoutLoc, received_type, received_threadid] at hDirect
    simp only [received, hCall, kindFields, headFields, List.foldl_cons, List.foldl_nil] at hDirect
    simp only [Field.copy_eq, EventBuffer.Clear, EventBuffer.cleared] at hDirect
    exact hDirect.symm
  · intro hDirect this
    simp only [EventBuffer.assign, EventBuffer.withoutLoc, received_type, received_threadid]
    split <;> rename_i hKind
    case h_8 => rfl
    all_goals
      simp only [received, hKind, kindFields, headFields, List.foldl_cons, List.foldl_nil]
      simp only [Field.copy_eq, EventBuffer.Clear, EventBuffer.cleared]
    exact (hDirect hKind) ▸ rfl

/-- Every way of cutting the stream leads to the events `received` says. -/
theorem roundTrip_iff_received {es : List EventBuffer} (hCheck : ∀ e ∈ es, e.Check = true)
    (buff : EventBuffer) {buffers : List (List UInt8)} (hSends : sendAll es = some buffers) :
    RoundTrip es buff buffers ↔ ∀ e ∈ es, e.SameCopy (received e) := by
  obtain ⟨_, hSends', hFlat⟩ := sendAll_eq hCheck
  obtain rfl := Option.some.inj (hSends.symm.trans hSends')
  have hRun : (recvAll es.length buff).run buffers.flatten = some (es.map received, []) := by
    have h := run_recvAll hCheck buff []
    rwa [List.append_nil, ← hFlat] at h
  -- what a reader that has finished has received
  have hResult : ∀ s events, Runs.Reachable (Transfer.link buffers (recvAll es.length buff)) s →
      s.reader = .ret events → events = es.map received ∧ s.stream = [] ∧ s.toWrite.flatten = [] := by
    intro s events hReach hRet
    have h := (Transfer.result hReach hRet).symm.trans hRun
    simp only [Option.some.injEq, Prod.mk.injEq, List.append_eq_nil_iff] at h
    exact h
  constructor
  · intro hTrip e hMem
    obtain ⟨s, hReach, _, events, hRet⟩ :=
      Transfer.finishes (.init rfl : Runs.Reachable _ _) hRun
    have hSame := (hTrip.same s events hReach hRet).1
    rw [(hResult s events hReach hRet).1, List.forall₂_map_right_iff, List.forall₂_same] at hSame
    exact hSame e hMem
  · intro hSame
    refine ⟨hSends, ?_, Transfer.productive_wellFounded, ?_⟩
    · intro s hReach
      exact Transfer.progress hReach hRun
    · intro s events hReach hRet
      obtain ⟨rfl, hStream, hWrite⟩ := hResult s events hReach hRet
      refine ⟨?_, hStream, hWrite⟩
      rw [List.forall₂_map_right_iff, List.forall₂_same]
      exact hSame

/-- **The wire format.** Valid events arrive as they were sent, whatever the cuts into
partial writes and reads, if and only if every `FuncCall` among them is marked as direct.
What is not sent of a call is whether it was direct. -/
theorem wire_roundTrip_iff (es : List EventBuffer) (hCheck : ∀ e ∈ es, e.Check = true)
    (buff : EventBuffer) :
    (∃ buffers, RoundTrip es buff buffers) ↔ ∀ e ∈ es, e.type = FuncCall → e.direct = 1 := by
  obtain ⟨buffers, hSends, _⟩ := sendAll_eq hCheck
  have hIff := roundTrip_iff_received hCheck buff hSends
  simp only [sameCopy_received_iff] at hIff
  rw [← hIff]
  constructor
  · rintro ⟨buffers', hTrip⟩
    obtain rfl := Option.some.inj (hTrip.sends.symm.trans hSends)
    exact hTrip
  · intro hTrip
    exact ⟨buffers, hTrip⟩

/-- An indirect call, as the instrumentation of an indirect branch reports it. -/
def indirectCall : EventBuffer :=
  { EventBuffer.cleared with
    type := FuncCall, threadid := 2, addr := 0x400, addr_target := 0x800, direct := 0 }

/-- A read, a direct call and the end of a thread. -/
def someEvents : List EventBuffer :=
  [{ EventBuffer.cleared with type := MemRead, threadid := 2, addr := 0x1000, size := 4 },
   { indirectCall with direct := 1 },
   { EventBuffer.cleared with type := ThreadEnd, threadid := 3 }]

/-- Events of several kinds, one after the other over the same buffer. -/
theorem wire_roundTrip_some :
    (∀ e ∈ someEvents, e.Check = true) ∧
      ∃ buffers, RoundTrip someEvents EventBuffer.cleared buffers := by
  have hCheck : ∀ e ∈ someEvents, e.Check = true := by decide
  exact ⟨hCheck, (wire_roundTrip_iff someEvents hCheck EventBuffer.cleared).mpr (by decide)⟩

/-- An indirect call arrives as a direct one, since `direct` is not among the fields that
are sent. -/
theorem wire_loses_direct :
    indirectCall.Check = true ∧
      ¬ ∃ buffers, RoundTrip [indirectCall] EventBuffer.cleared buffers := by
  refine ⟨by decide, ?_⟩
  rintro ⟨buffers, hTrip⟩
  have hSame := (roundTrip_iff_received (by decide) _ hTrip.sends).mp hTrip indirectCall (by simp)
  exact absurd ((sameCopy_received_iff _).mp hSame rfl) (by decide)

end Ipc

end Concurrit.Model
