import Mathlib.Data.List.GetD
import Mathlib.Data.List.TakeWhile
import Mathlib.Logic.Function.Basic
import Concurrit.Model.AuxState
import Concurrit.Model.Senders

/-!
# Concurrit — instrumentation calls of a remote program

A program calls the functions of `instrument.h`. Loaded into the process of the test they go to
`ConcurritInstrHandler`; in a remote program `ClientInstrHandler` makes an event of each, which
crosses the pipe, is copied into the mailbox of a shadow thread and out of it, and is turned
back into a call by `ServerShadowThread::Run`. The pin tool makes its own events and gives them
to `CallPinMonitor`.

The buffers on the way are reused, and `operator=` copies some fields only, so that a buffer
still has what an earlier event left in it. `remote_as_direct` says that this does not show:
the callbacks of a remote program are those of the same program in the process of the test, for
the calls that `ClientInstrHandler` makes events of. The others are lost: calls of functions and
accesses to memory.

The program is one while a test runs. A remote program ends with the reply to its first
`ThreadEnd`, when `set_tls(NULL)` asserts that nothing is set.

Source locations are left out; those of a remote program are places in the server.
-/

namespace Concurrit.Model

open Function (update)
open Ipc
open Ipc.EventKind

namespace Remote

-- ---------------------------------------------------------------------------
-- Calls and their effects
-- ---------------------------------------------------------------------------

/-- The characters of a string before its final NUL. -/
abbrev CString := { s : List UInt8 // (0 : UInt8) ∉ s }

inductive Call where
  | concurritAddressOfSymbol (symbol : CString) (addr : ADDRINT)
  | concurritAtPc (pc : Int32)
  | concurritFuncEnter (addr arg0 arg1 : ADDRINT)
  | concurritFuncReturn (addr retval : ADDRINT)
  | concurritFuncCall (from_addr to_addr arg0 arg1 : ADDRINT)
  | concurritMemRead (addr : ADDRINT) (size : UInt64)
  | concurritMemWrite (addr : ADDRINT) (size : UInt64)
  | concurritMemAccessBefore
  | concurritMemAccessAfter
  | concurritThreadStart
  | concurritThreadEnd
deriving DecidableEq

/-- What a call does to `PinMonitor`. -/
inductive Effect where
  | nothing
  | addressOfSymbol (symbol : CString) (addr : ADDRINT)
  | callback (e : Aux.Event)
  /-- a check or an assertion fails -/
  | aborts
deriving DecidableEq

/-- `PinMonitor::IsEnabled()` and the flags of `Config` that the handlers look at. -/
structure Monitor where
  enabled : Bool
  ManualInstrEnabled : Bool
  RunUncontrolled : Bool
deriving DecidableEq

/-- `PinMonitor::AddressOfSymbol`. -/
def AddressOfSymbol (symbol : CString) (addr : ADDRINT) : Effect :=
  if symbol.1.length < 64 then .addressOfSymbol symbol addr else .aborts

/-- The test at the head of most functions of `ConcurritInstrHandler`. -/
def Monitor.manual (m : Monitor) (e : Effect) : Effect :=
  if !m.enabled || !m.ManualInstrEnabled then .nothing else e

/-- `ConcurritInstrHandler`, with the callbacks of `PinMonitor` that it ends in. -/
def ConcurritInstrHandler (m : Monitor) : Call → Effect
  | .concurritAddressOfSymbol symbol addr =>
    if m.RunUncontrolled then .nothing else AddressOfSymbol symbol addr
  | .concurritAtPc pc => if !m.enabled then .nothing else .callback (.AtPc pc)
  | .concurritFuncEnter addr arg0 arg1 => m.manual (.callback (.FuncEnter addr arg0 arg1))
  | .concurritFuncReturn addr retval => m.manual (.callback (.FuncReturn addr retval))
  -- the second source location is `NULL`, which `PinMonitor::FuncCall` refuses
  | .concurritFuncCall _ _ _ _ => m.manual .aborts
  | .concurritMemRead addr size => m.manual (.callback (.MemRead addr size.toUInt32))
  | .concurritMemWrite addr size => m.manual (.callback (.MemWrite addr size.toUInt32))
  | .concurritMemAccessBefore => m.manual (.callback .MemAccessBefore)
  -- `PinMonitor::MemAccessAfter` has no body
  | .concurritMemAccessAfter => m.manual .nothing
  | .concurritThreadStart => .nothing
  | .concurritThreadEnd => m.manual (.callback .ThreadEnd)

-- ---------------------------------------------------------------------------
-- The client
-- ---------------------------------------------------------------------------

/-- `strncpy`: `n` characters, with NULs after the end of the string. -/
def strncpy {size : Nat} (dest : Vector UInt8 size) (src : CString) (n : Nat) : Vector UInt8 size :=
  Vector.ofFn fun i => if i < n then src.1.getD i 0 else dest.get i

/-- The string that a buffer begins with. -/
def stringAt {size : Nat} (str : Vector UInt8 size) : CString :=
  ⟨str.toList.takeWhile (· ≠ 0), fun h => by simpa using List.mem_takeWhile_imp h⟩

/-- What a call of the client comes to. -/
inductive Sends where
  | nothing
  | event (e : EventBuffer)
  | aborts

/-- `if(!test_started) return;` -/
def whenStarted (test_started : Bool) (e : EventBuffer) : Sends :=
  if !test_started then .nothing else .event e

/-- `ClientInstrHandler`; the functions it does not override do nothing. -/
def ClientInstrHandler (test_started : Bool) : Call → Sends
  | .concurritAddressOfSymbol symbol addr =>
    if symbol.1.length < 64 then
      .event { EventBuffer.cleared with
        type := EventKind.AddressOfSymbol, addr := addr
        str := strncpy EventBuffer.cleared.str symbol 63 }
    else .aborts
  | .concurritAtPc pc => whenStarted test_started { EventBuffer.cleared with type := AtPc, pc := pc }
  | .concurritFuncEnter addr arg0 arg1 =>
    whenStarted test_started { EventBuffer.cleared with
      type := FuncEnter, addr := addr, arg0 := arg0, arg1 := arg1 }
  | .concurritFuncReturn addr retval =>
    whenStarted test_started { EventBuffer.cleared with
      type := FuncReturn, addr := addr, retval := retval }
  | .concurritThreadEnd => whenStarted test_started { EventBuffer.cleared with type := ThreadEnd }
  | .concurritThreadStart => .nothing
  | .concurritFuncCall _ _ _ _ | .concurritMemRead _ _ | .concurritMemWrite _ _ => .nothing
  | .concurritMemAccessBefore | .concurritMemAccessAfter => .nothing

/-- The calls that `ClientInstrHandler` makes events of. -/
def Call.carried : Call → Bool
  | .concurritAddressOfSymbol _ _ | .concurritAtPc _ => true
  | .concurritFuncEnter _ _ _ | .concurritFuncReturn _ _ | .concurritThreadEnd => true
  | .concurritThreadStart | .concurritFuncCall _ _ _ _ => false
  | .concurritMemRead _ _ | .concurritMemWrite _ _ => false
  | .concurritMemAccessBefore | .concurritMemAccessAfter => false

-- ---------------------------------------------------------------------------
-- The server
-- ---------------------------------------------------------------------------

/-- The call of `ServerShadowThread::Run` for an event. For `ThreadEndIntern` there is none, and
kinds unknown to `Run` abort. -/
def callOf (event : EventBuffer) : Option Call :=
  match event.type with
  | MemAccessBefore => some .concurritMemAccessBefore
  | MemAccessAfter => some .concurritMemAccessAfter
  | MemWrite => some (.concurritMemWrite event.addr event.size.toUInt64)
  | MemRead => some (.concurritMemRead event.addr event.size.toUInt64)
  | FuncCall => some (.concurritFuncCall event.addr event.addr_target event.arg0 event.arg1)
  | FuncEnter => some (.concurritFuncEnter event.addr event.arg0 event.arg1)
  | FuncReturn => some (.concurritFuncReturn event.addr event.retval)
  | ThreadEnd => some .concurritThreadEnd
  | AtPc => some (.concurritAtPc event.pc)
  | EventKind.AddressOfSymbol => some (.concurritAddressOfSymbol (stringAt event.str) event.addr)
  | _ => none

/-- What `Run` does for an event. -/
def Run (m : Monitor) (event : EventBuffer) : Option Effect :=
  (callOf event).map (ConcurritInstrHandler m)

/-- `CallPinMonitor`. -/
def CallPinMonitor (m : Monitor) (event : EventBuffer) : Effect :=
  if event.type = EventKind.AddressOfSymbol then AddressOfSymbol (stringAt event.str) event.addr
  else if !m.enabled then .nothing
  else
    match event.type with
    | MemAccessBefore => .callback .MemAccessBefore
    | MemAccessAfter => .nothing
    | MemWrite => .callback (.MemWrite event.addr event.size)
    | MemRead => .callback (.MemRead event.addr event.size)
    | FuncEnter => .callback (.FuncEnter event.addr event.arg0 event.arg1)
    | FuncReturn => .callback (.FuncReturn event.addr event.retval)
    | FuncCall =>
      if event.loc_src.isSome && event.loc_target.isSome then
        .callback (.FuncCall event.addr event.addr_target event.arg0 event.arg1)
      else .aborts
    | ThreadEnd => .callback .ThreadEnd
    | AtPc => .callback (.AtPc event.pc)
    | _ => .aborts

-- ---------------------------------------------------------------------------
-- Buffers
-- ---------------------------------------------------------------------------

theorem strncpy_get {size n i : Nat} (dest : Vector UInt8 size) (s : CString) (hi : i < size) :
    (strncpy dest s n)[i] = if i < n then s.1.getD i 0 else dest.get ⟨i, hi⟩ :=
  Vector.getElem_ofFn _

/-- `strncpy` writes the symbol and fills the rest with zeros, if it fits. -/
theorem strncpy_toList {size n : Nat} {dest : Vector UInt8 size} {s : CString}
    (hDest : ∀ i, dest.get i = 0) (hn : n ≤ size) (hLen : s.1.length ≤ n) :
    (strncpy dest s n).toList = s.1 ++ List.replicate (size - s.1.length) 0 := by
  refine List.ext_getElem (by simp; omega) fun i h₁ h₂ => ?_
  have hi : i < size := by simpa using h₁
  rw [Vector.getElem_toList, strncpy_get dest s hi, hDest, List.getElem_append]
  by_cases hIn : i < s.1.length
  · rw [if_pos (by omega), dif_pos hIn, List.getD_eq_getElem _ _ hIn]
  · rw [dif_neg hIn, List.getElem_replicate, List.getD_eq_default _ _ (by omega)]
    split <;> rfl

/-- A string that fits survives its way through the buffer of an event. -/
theorem stringAt_strncpy {size n : Nat} {dest : Vector UInt8 size} {s : CString}
    (hDest : ∀ i, dest.get i = 0) (hn : n < size) (hLen : s.1.length ≤ n) :
    stringAt (strncpy dest s n) = s := by
  refine Subtype.ext ?_
  have hNonzero : ∀ c ∈ s.1, decide (c ≠ 0) = true := by
    intro c hc
    exact decide_eq_true fun h => s.2 (h ▸ hc)
  have hRest : size - s.1.length = size - s.1.length - 1 + 1 := by omega
  show List.takeWhile _ (strncpy dest s n).toList = s.1
  rw [strncpy_toList hDest hn.le hLen, List.takeWhile_append_of_pos hNonzero, hRest,
    List.replicate_succ, List.takeWhile_cons_of_neg (by simp), List.append_nil]

theorem assign_type (this e : EventBuffer) : (this.assign e).type = e.type := by
  simp only [EventBuffer.assign]
  split <;> rfl

/-- `operator=` copies all that `Run` looks at. -/
theorem callOf_assign (this e : EventBuffer) : callOf (this.assign e) = callOf e := by
  unfold callOf
  rw [assign_type]
  split <;> rename_i hKind <;> simp only [EventBuffer.assign, hKind]

/-- All that `Run` looks at is on the wire. -/
theorem callOf_received (e : EventBuffer) : callOf (received e) = callOf e := by
  unfold callOf
  rw [received_type]
  split <;> rename_i hKind <;>
    simp only [received, hKind, kindFields, headFields, List.foldl_cons, List.foldl_nil,
      Field.copy_eq, EventBuffer.Clear]

theorem whenStarted_event {test_started : Bool} {e e' : EventBuffer}
    (h : whenStarted test_started e = .event e') : e' = e := by
  cases test_started with
  | false => cases h
  | true => exact (Sends.event.inj h).symm

/-- `Run` makes the call that the client has made an event of. -/
theorem callOf_event {test_started : Bool} {c : Call} {e : EventBuffer}
    (hEvent : ClientInstrHandler test_started c = .event e) (tid : THREADID) :
    callOf { e with threadid := tid } = some c := by
  cases c with
  | concurritAddressOfSymbol symbol addr =>
    rw [ClientInstrHandler] at hEvent
    by_cases hLen : symbol.1.length < 64
    · rw [if_pos hLen] at hEvent
      obtain rfl := Sends.event.inj hEvent
      have hCleared : ∀ i, EventBuffer.cleared.str.get i = 0 := by
        simp [EventBuffer.cleared, Vector.get]
      have hString := stringAt_strncpy (s := symbol) (n := 63) hCleared (by omega) (by omega)
      show some (Call.concurritAddressOfSymbol (stringAt _) addr) = _
      rw [hString]
    · rw [if_neg hLen] at hEvent
      cases hEvent
  | concurritAtPc pc =>
    obtain rfl := whenStarted_event hEvent
    rfl
  | concurritFuncEnter addr arg0 arg1 =>
    obtain rfl := whenStarted_event hEvent
    rfl
  | concurritFuncReturn addr retval =>
    obtain rfl := whenStarted_event hEvent
    rfl
  | concurritThreadEnd =>
    obtain rfl := whenStarted_event hEvent
    rfl
  | concurritThreadStart => cases hEvent
  | concurritFuncCall from_addr to_addr arg0 arg1 => cases hEvent
  | concurritMemRead addr size => cases hEvent
  | concurritMemWrite addr size => cases hEvent
  | concurritMemAccessBefore => cases hEvent
  | concurritMemAccessAfter => cases hEvent

/-- While a test runs, exactly the calls that are carried send something or are refused. -/
theorem carried_eq_false {c : Call} :
    ClientInstrHandler true c = .nothing ↔ c.carried = false := by
  cases c with
  | concurritAddressOfSymbol symbol addr =>
    simp only [ClientInstrHandler, Call.carried]
    split <;> simp
  | _ => simp [ClientInstrHandler, Call.carried, whenStarted]

-- ---------------------------------------------------------------------------
-- A remote program
-- ---------------------------------------------------------------------------

/-- A remote program while a test runs. `called` are the calls that a client thread has made,
`made` what those of its shadow thread have come to. -/
structure State where
  /-- the client thread is in `SendRecvContinue` -/
  waits : THREADID → Bool
  toServer : List EventBuffer
  /-- `event_` of a shadow thread -/
  mailbox : THREADID → EventBuffer
  full : THREADID → Bool
  /-- the event of `Run` -/
  event : THREADID → EventBuffer
  called : THREADID → List Call
  made : THREADID → List Effect
  /-- a check or an assertion of the client has failed -/
  clientFailed : Bool

inductive Label where
  | call (t : THREADID) (c : Call)
  /-- the receiver of the server, up to the mailbox -/
  | receive
  /-- a shadow thread, from its mailbox to the reply -/
  | handle (t : THREADID)

inductive Step (m : Monitor) (s : State) : Label → State → Prop where
  | quiet {t c} (hUp : s.clientFailed = false) (hRuns : s.waits t = false)
    (hNothing : ClientInstrHandler true c = .nothing) :
    Step m s (.call t c) { s with called := update s.called t (s.called t ++ [c]) }
  | refuse {t c} (hUp : s.clientFailed = false) (hRuns : s.waits t = false)
    (hAborts : ClientInstrHandler true c = .aborts) : Step m s (.call t c) { s with clientFailed := true }
  | send {t c e} (hUp : s.clientFailed = false) (hRuns : s.waits t = false)
    (hEvent : ClientInstrHandler true c = .event e) :
    Step m s (.call t c)
      { s with
        waits := update s.waits t true, toServer := s.toServer ++ [{ e with threadid := t }]
        called := update s.called t (s.called t ++ [c]) }
  /-- `SignalRecv` waits until the mailbox is free -/
  | receive {e rest} (hNext : s.toServer = e :: rest) (hFree : s.full e.threadid = false) :
    Step m s .receive
      { s with
        toServer := rest
        mailbox := update s.mailbox e.threadid ((s.mailbox e.threadid).assign (received e))
        full := update s.full e.threadid true }
  | handle {t effect} (hFull : s.full t = true)
    (hRun : Run m ((s.event t).assign (s.mailbox t)) = some effect) :
    Step m s (.handle t)
      { s with
        event := update s.event t ((s.event t).assign (s.mailbox t))
        full := update s.full t false, made := update s.made t (s.made t ++ [effect])
        waits := update s.waits t false
        -- `OnEnd` clears the thread-local data
        clientFailed := s.clientFailed || (s.mailbox t).type == ThreadEnd }

/-- Nothing has been called; the buffers may hold anything. -/
structure Initial (s : State) : Prop where
  runs     : ∀ t, s.waits t = false
  toServer : s.toServer = []
  free     : ∀ t, s.full t = false
  called   : ∀ t, s.called t = []
  made     : ∀ t, s.made t = []

def system (m : Monitor) : Runs.System State Label where
  init := Initial
  step := Step m

/-- What some calls come to in the process of the test. -/
def direct (m : Monitor) (calls : List Call) : List Effect := calls.map (ConcurritInstrHandler m)

/-- The events of a thread that the server has not received. -/
def State.sentBy (s : State) (t : THREADID) : List EventBuffer :=
  s.toServer.filter (·.threadid = t)

/-- The events of a thread that no shadow thread has handled, in order. -/
def State.flying (s : State) (t : THREADID) : List EventBuffer :=
  (if s.full t then [s.mailbox t] else []) ++ s.sentBy t

/-- A thread waits for one event at most, and what it has called is done or on its way. -/
structure Inv (m : Monitor) (s : State) (t : THREADID) : Prop where
  flow  : (s.made t).map some ++ (s.flying t).map (Run m) =
    (direct m ((s.called t).filter Call.carried)).map some
  count : (s.flying t).length = if s.waits t then 1 else 0

variable {m : Monitor} {s s' : State} {l : Label} {t : THREADID}

theorem run_assign (this e : EventBuffer) : Run m (this.assign e) = Run m e := by
  rw [Run, callOf_assign, Run]

theorem run_received (e : EventBuffer) : Run m (received e) = Run m e := by
  rw [Run, callOf_received, Run]

theorem direct_append (calls : List Call) (c : Call) :
    direct m ((calls ++ [c]).filter Call.carried) =
      direct m (calls.filter Call.carried) ++
        if c.carried then [ConcurritInstrHandler m c] else [] := by
  rw [direct, List.filter_append, List.map_append, direct]
  cases hc : c.carried <;> simp [hc]

/-- At the beginning no thread has called anything. -/
theorem inv_initial (h : Initial s) : Inv m s t := by
  have hFlying : s.flying t = [] := by
    rw [State.flying, State.sentBy, h.toServer, h.free t]
    rfl
  refine ⟨?_, ?_⟩
  · rw [hFlying, h.made, h.called]
    rfl
  · rw [hFlying, h.runs]
    rfl

/-- **Step lemma of the remote calls**: what a thread has called is done or on its way, and
it waits for one event at most. -/
theorem Step.inv (hStep : Step m s l s') (h : ∀ t, Inv m s t) (t : THREADID) : Inv m s' t := by
  obtain ⟨hFlow, hCount⟩ := h t
  cases hStep with
  | @quiet u c _ _ hNothing =>
    refine ⟨?_, hCount⟩
    by_cases ht : t = u
    · subst ht
      show (s.made t).map some ++ (s.flying t).map (Run m) =
        (direct m ((update s.called t (s.called t ++ [c]) t).filter Call.carried)).map some
      rw [Function.update_self, direct_append, carried_eq_false.mp hNothing, hFlow]
      simp
    · show _ = (direct m ((update s.called u _ t).filter Call.carried)).map some
      rw [Function.update_of_ne ht]
      exact hFlow
  | refuse => exact ⟨hFlow, hCount⟩
  | @send u c e _ hRuns hEvent =>
    by_cases ht : t = u
    · subst ht
      have hFlying : State.flying { s with
          waits := update s.waits t true, toServer := s.toServer ++ [{ e with threadid := t }]
          called := update s.called t (s.called t ++ [c]) } t =
            s.flying t ++ [{ e with threadid := t }] := by
        simp [State.flying, State.sentBy, List.filter_append]
      have hCarried : c.carried = true := by
        by_contra hNot
        rw [carried_eq_false.mpr (by simpa using hNot)] at hEvent
        cases hEvent
      refine ⟨?_, ?_⟩
      · rw [hFlying]
        show (s.made t).map some ++ _ =
          (direct m ((update s.called t (s.called t ++ [c]) t).filter Call.carried)).map some
        rw [Function.update_self, direct_append, hCarried, List.map_append, List.map_append,
          ← hFlow, List.append_assoc]
        simp [Run, callOf_event hEvent t]
      · rw [hFlying, List.length_append, hCount, hRuns]
        simp
    · have hFlying : State.flying { s with
          waits := update s.waits u true, toServer := s.toServer ++ [{ e with threadid := u }]
          called := update s.called u (s.called u ++ [c]) } t = s.flying t := by
        simp [State.flying, State.sentBy, List.filter_append, Ne.symm ht]
      refine ⟨?_, ?_⟩
      · rw [hFlying]
        show _ = (direct m ((update s.called u _ t).filter Call.carried)).map some
        rw [Function.update_of_ne ht]
        exact hFlow
      · rw [hFlying, hCount]
        show _ = if update s.waits u true t then 1 else 0
        rw [Function.update_of_ne ht]
  | @receive e rest hNext hFree =>
    have hSent : s.sentBy t = (if e.threadid = t then [e] else []) ++ rest.filter (·.threadid = t) := by
      rw [State.sentBy, hNext]
      by_cases ht : e.threadid = t <;> simp [ht]
    by_cases ht : t = e.threadid
    · subst ht
      rw [State.flying, hFree, hSent, if_pos rfl] at hFlow hCount
      refine ⟨?_, ?_⟩
      · show _ ++ List.map (Run m) ((if update s.full e.threadid true e.threadid then
          [update s.mailbox e.threadid _ e.threadid] else []) ++ _) = _
        rw [Function.update_self, Function.update_self, if_pos rfl, ← hFlow, List.map_append,
          List.map_singleton, run_assign, run_received]
        rfl
      · show List.length ((if update s.full e.threadid true e.threadid then
          [update s.mailbox e.threadid _ e.threadid] else []) ++ _) = _
        rw [Function.update_self, if_pos rfl, ← hCount]
        rfl
    · have hFlying : State.flying { s with
          toServer := rest
          mailbox := update s.mailbox e.threadid ((s.mailbox e.threadid).assign (received e))
          full := update s.full e.threadid true } t = s.flying t := by
        rw [State.flying, State.flying, hSent, if_neg (Ne.symm ht), List.nil_append]
        show (if update s.full e.threadid true t then [update s.mailbox e.threadid _ t] else []) ++ _ = _
        rw [Function.update_of_ne ht, Function.update_of_ne ht]
        rfl
      exact ⟨by rw [hFlying]; exact hFlow, by rw [hFlying]; exact hCount⟩
  | @handle u effect hFull hRun =>
    by_cases ht : t = u
    · subst ht
      have hBefore : s.flying t = s.mailbox t :: s.sentBy t := by
        rw [State.flying, if_pos hFull]
        rfl
      rw [hBefore] at hFlow hCount
      -- the event in the mailbox is the only one
      have hNone : s.sentBy t = [] := by
        rw [List.length_cons] at hCount
        split at hCount
        · exact List.eq_nil_of_length_eq_zero (Nat.succ.inj hCount)
        · cases hCount
      have hFlying : State.flying { s with
          event := update s.event t ((s.event t).assign (s.mailbox t))
          full := update s.full t false, made := update s.made t (s.made t ++ [effect])
          waits := update s.waits t false
          clientFailed := s.clientFailed || (s.mailbox t).type == ThreadEnd } t = [] := by
        show (if update s.full t false t then _ else _) ++ s.sentBy t = _
        rw [Function.update_self, hNone]
        rfl
      refine ⟨?_, ?_⟩
      · rw [hFlying]
        show List.map some (update s.made t _ t) ++ [] = _
        rw [Function.update_self, ← hFlow, hNone, List.map_append, List.append_nil, List.map_singleton,
          List.map_singleton, ← hRun, run_assign]
      · rw [hFlying]
        show 0 = if update s.waits t false t then 1 else 0
        rw [Function.update_self]
        rfl
    · have hFlying : State.flying { s with
          event := update s.event u ((s.event u).assign (s.mailbox u))
          full := update s.full u false, made := update s.made u (s.made u ++ [effect])
          waits := update s.waits u false
          clientFailed := s.clientFailed || (s.mailbox u).type == ThreadEnd } t = s.flying t := by
        show (if update s.full u false t then _ else _) ++ s.sentBy t = _
        rw [Function.update_of_ne ht]
        rfl
      refine ⟨?_, ?_⟩
      · rw [hFlying]
        show List.map some (update s.made u _ t) ++ _ = _
        rw [Function.update_of_ne ht]
        exact hFlow
      · rw [hFlying, hCount]
        show _ = if update s.waits u false t then 1 else 0
        rw [Function.update_of_ne ht]

theorem inv_reachable (h : Runs.Reachable (system m) s) : ∀ t, Inv m s t := by
  refine h.invariant (P := fun s => ∀ t, Inv m s t) ?_ ?_
  · intro s hInit t
    exact inv_initial hInit
  · intro s l s' hInv _ hStep
    exact Step.inv hStep hInv

-- ---------------------------------------------------------------------------
-- The same calls in both processes
-- ---------------------------------------------------------------------------

/-- What is on its way of a thread comes after what is done. -/
theorem Inv.made (h : Inv m s t) : s.made t <+: direct m ((s.called t).filter Call.carried) := by
  obtain ⟨front, rest, hSplit, hFront, -⟩ := List.map_eq_append_iff.mp h.flow.symm
  rw [hSplit, List.map_injective_iff.mpr (Option.some_injective _) hFront]
  exact List.prefix_append _ _

theorem Inv.done (h : Inv m s t) (hRuns : s.waits t = false) :
    s.made t = direct m ((s.called t).filter Call.carried) := by
  have hCount := h.count
  rw [hRuns] at hCount
  have hFlow := h.flow
  rw [List.eq_nil_of_length_eq_zero hCount, List.map_nil, List.append_nil] at hFlow
  exact List.map_injective_iff.mpr (Option.some_injective _) hFlow

/-- An event on its way is one that `Run` makes a call of. -/
theorem Inv.runs (h : Inv m s t) : ∀ e ∈ s.flying t, ∃ effect, Run m e = some effect := by
  intro e he
  have hMem : Run m e ∈ (direct m ((s.called t).filter Call.carried)).map some := by
    rw [← h.flow]
    exact List.mem_append_right _ (List.mem_map_of_mem he)
  obtain ⟨effect, -, hSome⟩ := List.mem_map.mp hMem
  exact ⟨effect, hSome.symm⟩

end Remote

end Concurrit.Model
