import Concurrit.Model.LineFile

/-!
# Concurrit — the call stacks of the instrumenter

Every thread has a stack of the routines to instrument that it is in, and a flag that says
whether its instructions are monitored. Callbacks of all threads are interleaved; the switch
`pin_enabled` is shared.

* `Recorded`                — what the recorded stack keeps of the real one: the routines to
  instrument that were entered since the switch was last turned on.
* `call_stack_never_fails`  — in a well-nested life no callback of the thread fails, and its
  instructions are monitored if and only if its recorded stack is not empty.
-/

namespace Concurrit.Model

namespace Instrumenter

open LineFile (InstParams)

-- ---------------------------------------------------------------------------
-- Callbacks
-- ---------------------------------------------------------------------------

/-- The state of a thread between `ThreadStart` and `ThreadFini`. The top of the call stack is
its last element. -/
structure ThreadLocalState where
  inst_enabled : Bool
  call_stack : List UInt64

structure Pin where
  pin_enabled : Bool
  threads : Nat → ThreadLocalState

/-- The routines that are instrumented: the parameters, and the addresses in the PLT. -/
structure Routines extends InstParams where
  rtn_plt_addr : List UInt64

def Routines.IsPLT (routines : Routines) (addr : UInt64) : Bool :=
  routines.rtn_plt_addr.contains addr

def Routines.IsRoutineToInstrument (routines : Routines) (rtn_addr : UInt64) : Bool :=
  if rtn_addr = 0 then true
  else if routines.InstrumentAllRoutines then true
  else routines.RTNIdsToInstrument.contains rtn_addr

/-- The routines that the stack records. -/
def Routines.records (routines : Routines) (addr : UInt64) : Bool :=
  !routines.IsPLT addr && routines.IsRoutineToInstrument addr

/-- What is wrong in `OnFuncReturn`: the call stack is empty, or its top is another routine. -/
inductive Kind where
  | emptyStack
  | addressMismatch
deriving DecidableEq

/-- A thread fails. -/
structure Failure where
  threadid : Nat
  kind : Kind
deriving DecidableEq

def Pin.setThread (pin : Pin) (threadid : Nat) (tls : ThreadLocalState) : Pin :=
  { pin with threads := Function.update pin.threads threadid tls }

def OnThreadRestart (pin : Pin) (threadid : Nat) (enable : Bool) : Pin :=
  pin.setThread threadid { inst_enabled := enable, call_stack := [] }

/-- `OnFuncEnter`; the result says whether the thread is monitored. -/
def OnFuncEnter (routines : Routines) (pin : Pin) (threadid : Nat) (rtn_addr : UInt64) :
    Pin × Bool :=
  if !pin.pin_enabled then (pin, false)
  else if routines.IsPLT rtn_addr then (pin, false)
  else
    let is_inst_enabled := (pin.threads threadid).inst_enabled
    if routines.IsRoutineToInstrument rtn_addr then
      let pin := if !is_inst_enabled then OnThreadRestart pin threadid true else pin
      let tls := pin.threads threadid
      (pin.setThread threadid { tls with call_stack := tls.call_stack ++ [rtn_addr] }, true)
    else (pin, is_inst_enabled)

def OnFuncReturn (routines : Routines) (pin : Pin) (threadid : Nat) (rtn_addr : UInt64) :
    Except Failure (Pin × Bool) :=
  if !pin.pin_enabled then .ok (pin, false)
  else if routines.IsPLT rtn_addr then .ok (pin, false)
  else
    let tls := pin.threads threadid
    if tls.inst_enabled then
      match tls.call_stack.getLast? with
      | none => .error ⟨threadid, .emptyStack⟩
      | some last_addr =>
        if routines.IsRoutineToInstrument rtn_addr then
          if rtn_addr ≠ last_addr then .error ⟨threadid, .addressMismatch⟩
          else
            let call_stack := tls.call_stack.dropLast
            .ok (pin.setThread threadid ⟨!call_stack.isEmpty, call_stack⟩, true)
        else .ok (pin, true)
    else .ok (pin, false)

def OnInstruction (pin : Pin) (threadid : Nat) : Bool :=
  if !pin.pin_enabled then false else (pin.threads threadid).inst_enabled

def PinEnable (pin : Pin) : Pin := { pin with pin_enabled := true }

def PinDisable (pin : Pin) : Pin := { pin with pin_enabled := false }

-- ---------------------------------------------------------------------------
-- Runs
-- ---------------------------------------------------------------------------

/-- A callback of a thread. `StartInstrument` and `EndInstrument` enter and leave the routine at
address 0. -/
inductive Callback where
  | threadRestart
  | funcEnter (rtn_addr : UInt64)
  | funcReturn (rtn_addr : UInt64)
  | instruction

inductive Switch where
  | pinEnable
  | pinDisable
deriving DecidableEq

inductive Event where
  | callback (threadid : Nat) (callback : Callback)
  | switch (switch : Switch)

def call (routines : Routines) (pin : Pin) (threadid : Nat) : Callback → Except Failure Pin
  | .threadRestart => .ok (OnThreadRestart pin threadid false)
  | .funcEnter rtn_addr => .ok (OnFuncEnter routines pin threadid rtn_addr).1
  | .funcReturn rtn_addr => (OnFuncReturn routines pin threadid rtn_addr).map Prod.fst
  | .instruction => .ok pin

def Pin.turn (pin : Pin) : Switch → Pin
  | .pinEnable => PinEnable pin
  | .pinDisable => PinDisable pin

def step (routines : Routines) (pin : Pin) : Event → Except Failure Pin
  | .callback threadid callback => call routines pin threadid callback
  | .switch switch => .ok (pin.turn switch)

def run (routines : Routines) (pin : Pin) (events : List Event) : Except Failure Pin :=
  events.foldlM (step routines) pin

-- ---------------------------------------------------------------------------
-- The life of a thread
-- ---------------------------------------------------------------------------

def callbackOf (threadid : Nat) : Event → Option Callback
  | .callback t callback => if t = threadid then some callback else none
  | .switch _ => none

def switchOf : Event → Option Switch
  | .callback _ _ => none
  | .switch switch => some switch

/-- Every routine that returns is the innermost one that the thread is in, the first of `inside`.
A return from the outermost one leaves a routine that was entered before the life began. -/
def WellNested : List UInt64 → List Callback → Prop
  | _, [] => True
  | inside, .funcEnter rtn_addr :: callbacks => WellNested (rtn_addr :: inside) callbacks
  | [], .funcReturn _ :: callbacks => WellNested [] callbacks
  | last :: inside, .funcReturn rtn_addr :: callbacks =>
    rtn_addr = last ∧ WellNested inside callbacks
  | inside, .instruction :: callbacks => WellNested inside callbacks
  | _, .threadRestart :: _ => False

/-- What happens during a life of the thread, to it and to the others: its callbacks begin with
a restart and are well nested from there, and the switch is turned on at most once, and then off
at most once. -/
structure Life (threadid : Nat) (events : List Event) : Prop where
  nested : ∃ callbacks, events.filterMap (callbackOf threadid) = .threadRestart :: callbacks ∧
    WellNested [] callbacks
  switched : (events.filterMap switchOf).Sublist [.pinEnable, .pinDisable]

-- ---------------------------------------------------------------------------
-- A callback touches its own thread only
-- ---------------------------------------------------------------------------

@[simp] theorem setThread_self (pin : Pin) (t : Nat) (tls : ThreadLocalState) :
    (pin.setThread t tls).threads t = tls := Function.update_self ..

theorem setThread_other (pin : Pin) {t u : Nat} (tls : ThreadLocalState) (h : t ≠ u) :
    (pin.setThread u tls).threads t = pin.threads t := Function.update_of_ne h ..

/-- The state of the other threads and the switch stay. -/
structure Frame (u : Nat) (pin pin' : Pin) : Prop where
  enabled : pin'.pin_enabled = pin.pin_enabled
  others : ∀ t, t ≠ u → pin'.threads t = pin.threads t

theorem Frame.refl (u : Nat) (pin : Pin) : Frame u pin pin := ⟨rfl, fun _ _ => rfl⟩

theorem Frame.set {u : Nat} {pin pin' : Pin} (h : Frame u pin pin') (tls : ThreadLocalState) :
    Frame u pin (pin'.setThread u tls) where
  enabled := h.enabled
  others t ht := (setThread_other pin' tls ht).trans (h.others t ht)

/-- A call that is not recorded leaves everything as it is. -/
theorem onFuncEnter_skip (routines : Routines) (pin : Pin) (u : Nat) (a : UInt64)
    (h : pin.pin_enabled = false ∨ routines.records a = false) :
    (OnFuncEnter routines pin u a).1 = pin := by
  unfold OnFuncEnter
  split
  · rfl
  case isFalse hOn =>
    have hSkip := h.resolve_left (by simpa using hOn)
    split
    · rfl
    case isFalse hPLT =>
      simp only [Routines.records, hPLT, Bool.not_false, Bool.true_and] at hSkip
      simp [hSkip]

/-- An enter of a routine to instrument starts the stack, or adds to it. -/
theorem onFuncEnter_records (routines : Routines) (pin : Pin) (u : Nat) (a : UInt64)
    (hOn : pin.pin_enabled = true) (hRecords : routines.records a = true) :
    (OnFuncEnter routines pin u a).1 = pin.setThread u ⟨true,
      (if (pin.threads u).inst_enabled then (pin.threads u).call_stack else []) ++ [a]⟩ := by
  simp only [Routines.records, Bool.and_eq_true, Bool.not_eq_true'] at hRecords
  unfold OnFuncEnter
  rw [hOn, hRecords.1, hRecords.2]
  cases hMonitored : (pin.threads u).inst_enabled with
  | true => simp [hMonitored]
  | false => simp [OnThreadRestart, Pin.setThread]

/-- Entering a function touches the thread of the call only. -/
theorem onFuncEnter_frame (routines : Routines) (pin : Pin) (u : Nat) (a : UInt64) :
    Frame u pin (OnFuncEnter routines pin u a).1 := by
  by_cases h : pin.pin_enabled = false ∨ routines.records a = false
  · rw [onFuncEnter_skip routines pin u a h]
    exact .refl u pin
  · simp only [not_or, Bool.not_eq_false] at h
    rw [onFuncEnter_records routines pin u a h.1 h.2]
    exact (Frame.refl u pin).set _

/-- A return of a call that was not recorded leaves everything as it is. -/
theorem onFuncReturn_skip (routines : Routines) (pin : Pin) (u : Nat) (a : UInt64)
    (h : pin.pin_enabled = false ∨ (pin.threads u).inst_enabled = false ∨
      (pin.threads u).call_stack ≠ [] ∧ routines.records a = false) :
    ∃ monitored, OnFuncReturn routines pin u a = .ok (pin, monitored) := by
  unfold OnFuncReturn
  split
  · exact ⟨_, rfl⟩
  case isFalse hOn =>
    replace h := h.resolve_left (by simpa using hOn)
    split
    · exact ⟨_, rfl⟩
    case isFalse hPLT =>
      dsimp only
      split
      case isTrue hMonitored =>
        obtain ⟨hStack, hSkip⟩ := h.resolve_left (by simp [hMonitored])
        simp only [Routines.records, hPLT, Bool.not_false, Bool.true_and] at hSkip
        rw [List.getLast?_eq_some_getLast hStack]
        exact ⟨true, by simp [hSkip]⟩
      · exact ⟨_, rfl⟩

/-- A return from the routine on the top of the stack takes it away. -/
theorem onFuncReturn_records (routines : Routines) (pin : Pin) (u : Nat) (a : UInt64)
    {rest : List UInt64} (hOn : pin.pin_enabled = true) (hRecords : routines.records a = true)
    (hMonitored : (pin.threads u).inst_enabled = true)
    (hStack : (pin.threads u).call_stack = rest ++ [a]) :
    OnFuncReturn routines pin u a = .ok (pin.setThread u ⟨!rest.isEmpty, rest⟩, true) := by
  simp only [Routines.records, Bool.and_eq_true, Bool.not_eq_true'] at hRecords
  simp [OnFuncReturn, hOn, hRecords.1, hRecords.2, hMonitored, hStack]

/-- What a return does: nothing, or it takes the routine from the top of the stack. -/
theorem onFuncReturn_cases (routines : Routines) (pin : Pin) (u : Nat) (a : UInt64) :
    (∃ monitored, OnFuncReturn routines pin u a = .ok (pin, monitored)) ∨
    (∃ rest, (pin.threads u).call_stack = rest ++ [a] ∧
      OnFuncReturn routines pin u a =
        .ok (pin.setThread u ⟨!rest.isEmpty, rest⟩, true)) ∨
    (∃ kind, OnFuncReturn routines pin u a = .error ⟨u, kind⟩) := by
  unfold OnFuncReturn
  split
  · exact .inl ⟨_, rfl⟩
  split
  · exact .inl ⟨_, rfl⟩
  dsimp only
  split
  · split
    case h_1 => exact .inr (.inr ⟨_, rfl⟩)
    case h_2 last hLast =>
      split
      · split
        case isTrue => exact .inr (.inr ⟨_, rfl⟩)
        case isFalse hSame =>
          rw [not_not] at hSame
          subst hSame
          exact .inr (.inl ⟨_, (List.dropLast_append_getLast? a hLast).symm, rfl⟩)
      · exact .inl ⟨_, rfl⟩
  · exact .inl ⟨_, rfl⟩

/-- No callback touches another thread. -/
theorem call_frame {routines : Routines} {pin pin' : Pin} {u : Nat} {callback : Callback}
    (h : call routines pin u callback = .ok pin') : Frame u pin pin' := by
  cases callback with
  | threadRestart =>
    cases h
    exact (Frame.refl u pin).set _
  | funcEnter a =>
    cases h
    exact onFuncEnter_frame routines pin u a
  | funcReturn a =>
    rcases onFuncReturn_cases routines pin u a with ⟨_, hRet⟩ | ⟨_, _, hRet⟩ | ⟨_, hRet⟩ <;>
      rw [call, hRet] at h <;> cases h
    · exact .refl u pin
    · exact (Frame.refl u pin).set _
  | instruction =>
    cases h
    exact .refl u pin

/-- A callback that fails is one of the thread that fails. -/
theorem call_error {routines : Routines} {pin : Pin} {u : Nat} {callback : Callback}
    {failure : Failure} (h : call routines pin u callback = .error failure) :
    failure.threadid = u := by
  cases callback with
  | threadRestart => cases h
  | funcEnter a => cases h
  | funcReturn a =>
    rcases onFuncReturn_cases routines pin u a with ⟨_, hRet⟩ | ⟨_, _, hRet⟩ | ⟨_, hRet⟩ <;>
      rw [call, hRet] at h <;> cases h
    rfl
  | instruction => cases h

-- ---------------------------------------------------------------------------
-- The recorded stack and the real one
-- ---------------------------------------------------------------------------

/-- The thread is in the routines `inside`, and the switch is still to be turned as in `left`.
While the switch is on, the recorded stack keeps the routines to instrument among those that
were entered since; it is frozen while the switch is off, and empty if that is not for good. -/
structure Recorded (routines : Routines) (threadid : Nat) (inside : List UInt64)
    (left : List Switch) (pin : Pin) : Prop where
  monitored : (pin.threads threadid).inst_enabled = true ↔
    (pin.threads threadid).call_stack ≠ []
  on : pin.pin_enabled = true → ∃ since before, inside = since ++ before ∧
    (pin.threads threadid).call_stack = (since.filter routines.records).reverse
  off : pin.pin_enabled = false → .pinEnable ∈ left → (pin.threads threadid).call_stack = []

theorem Recorded.restart (routines : Routines) (pin : Pin) (t : Nat) (left : List Switch) :
    Recorded routines t [] left (OnThreadRestart pin t false) where
  monitored := by simp [OnThreadRestart]
  on _ := ⟨[], [], rfl, by simp [OnThreadRestart]⟩
  off _ _ := by simp [OnThreadRestart]

section

variable {routines : Routines} {pin pin' : Pin} {t u : Nat} {inside : List UInt64}
  {left : List Switch}

/-- A callback of another thread keeps what is recorded of this one. -/
theorem Recorded.frame (h : Recorded routines t inside left pin) (hFrame : Frame u pin pin')
    (hOther : t ≠ u) : Recorded routines t inside left pin' where
  monitored := by rw [hFrame.others t hOther]; exact h.monitored
  on hOn := by
    rw [hFrame.others t hOther]
    exact h.on (hFrame.enabled ▸ hOn)
  off hOff := by
    rw [hFrame.others t hOther]
    exact h.off (hFrame.enabled ▸ hOff)

/-- When the switch is turned on, the routines that the thread is in stay unrecorded. -/
theorem Recorded.turn {switch : Switch} (h : Recorded routines t inside (switch :: left) pin)
    (hLeft : (switch :: left).Sublist [.pinEnable, .pinDisable]) :
    Recorded routines t inside left (pin.turn switch) := by
  cases switch with
  | pinEnable =>
    refine ⟨h.monitored, fun _ => ?_, fun hOff => by cases hOff⟩
    cases hEnabled : pin.pin_enabled with
    | true => exact h.on hEnabled
    | false => exact ⟨[], inside, rfl, h.off hEnabled (List.mem_cons_self ..)⟩
  | pinDisable =>
    have hNone : left = [] := by
      cases hLeft with
      | cons _ hLeft => exact List.eq_nil_of_length_eq_zero (Nat.le_zero.mp
          (Nat.le_of_succ_le_succ hLeft.length_le))
    refine ⟨h.monitored, fun hOn => absurd hOn Bool.false_ne_true, fun _ hMem => ?_⟩
    rw [hNone] at hMem
    cases hMem

/-- The stack of a thread that is not monitored is empty. -/
theorem Recorded.stack_eq (h : Recorded routines t inside left pin) :
    (if (pin.threads t).inst_enabled then (pin.threads t).call_stack else []) =
      (pin.threads t).call_stack := by
  split
  · rfl
  case isFalse hNot => exact (not_not.mp (mt h.monitored.mpr hNot)).symm

/-- Entering a function puts it on the stack if it is to be recorded and monitoring is on.
-/
theorem Recorded.enter (h : Recorded routines t inside left pin) (a : UInt64) :
    Recorded routines t (a :: inside) left (OnFuncEnter routines pin t a).1 := by
  by_cases hSkip : pin.pin_enabled = false ∨ routines.records a = false
  · rw [onFuncEnter_skip routines pin t a hSkip]
    refine ⟨h.monitored, fun hOn => ?_, h.off⟩
    obtain ⟨since, before, hInside, hStack⟩ := h.on hOn
    have hNot := hSkip.resolve_left (by simp [hOn])
    refine ⟨a :: since, before, by rw [hInside, List.cons_append], ?_⟩
    rw [List.filter_cons_of_neg (by simp [hNot]), hStack]
  · simp only [not_or, Bool.not_eq_false] at hSkip
    rw [onFuncEnter_records routines pin t a hSkip.1 hSkip.2, h.stack_eq]
    refine ⟨by simp, fun hOn => ?_, fun hOff => absurd (hSkip.1.symm.trans hOff) (by decide)⟩
    obtain ⟨since, before, hInside, hStack⟩ := h.on hOn
    refine ⟨a :: since, before, by rw [hInside, List.cons_append], ?_⟩
    rw [List.filter_cons_of_pos hSkip.2, List.reverse_cons, setThread_self, hStack]

/-- A return from the innermost routine does not fail: if the routine is recorded, it is on the
top of the stack. -/
theorem Recorded.ret {a : UInt64} (h : Recorded routines t (a :: inside) left pin) :
    ∃ pin' monitored, OnFuncReturn routines pin t a = .ok (pin', monitored) ∧
      Recorded routines t inside left pin' := by
  cases hEnabled : pin.pin_enabled with
  | false =>
    obtain ⟨monitored, hRet⟩ := onFuncReturn_skip routines pin t a (.inl hEnabled)
    exact ⟨pin, monitored, hRet, h.monitored,
      fun hOn => absurd (hEnabled.symm.trans hOn) Bool.false_ne_true, h.off⟩
  | true =>
    obtain ⟨since, before, hInside, hStack⟩ := h.on hEnabled
    cases since with
    | nil =>
      -- the routine was entered before the switch was turned on
      have hNot : (pin.threads t).inst_enabled = false := by
        rw [← Bool.not_eq_true, h.monitored, hStack]
        simp
      obtain ⟨monitored, hRet⟩ := onFuncReturn_skip routines pin t a (.inr (.inl hNot))
      exact ⟨pin, monitored, hRet, h.monitored, fun _ => ⟨[], inside, rfl, hStack⟩, h.off⟩
    | cons b since =>
      obtain ⟨rfl, rfl⟩ := List.cons.inj hInside
      cases hRecords : routines.records a with
      | false =>
        rw [List.filter_cons_of_neg (by simp [hRecords])] at hStack
        have hSkip : (pin.threads t).inst_enabled = false ∨
            (pin.threads t).call_stack ≠ [] ∧ routines.records a = false := by
          rw [← Bool.not_eq_true, h.monitored]
          tauto
        obtain ⟨monitored, hRet⟩ := onFuncReturn_skip routines pin t a (.inr hSkip)
        exact ⟨pin, monitored, hRet, h.monitored, fun _ => ⟨since, before, rfl, hStack⟩, h.off⟩
      | true =>
        rw [List.filter_cons_of_pos hRecords, List.reverse_cons] at hStack
        have hMonitored := h.monitored.mpr (by simp [hStack])
        refine ⟨_, _, onFuncReturn_records routines pin t a hEnabled hRecords hMonitored hStack,
          by simp, fun _ => ⟨since, before, rfl, by simp⟩, fun hOff => ?_⟩
        exact absurd (hEnabled.symm.trans hOff) (by decide)

/-- A return from a routine that was entered before the life began. -/
theorem Recorded.ret_outer (h : Recorded routines t [] left pin) (a : UInt64) :
    ∃ pin' monitored, OnFuncReturn routines pin t a = .ok (pin', monitored) ∧
      Recorded routines t [] left pin' := by
  have hSkip : pin.pin_enabled = false ∨ (pin.threads t).inst_enabled = false := by
    cases hEnabled : pin.pin_enabled with
    | false => exact .inl rfl
    | true =>
      obtain ⟨since, before, hInside, hStack⟩ := h.on hEnabled
      obtain rfl := (List.append_eq_nil_iff.mp hInside.symm).1
      refine .inr ?_
      rw [← Bool.not_eq_true, h.monitored, hStack]
      simp
  obtain ⟨monitored, hRet⟩ := onFuncReturn_skip routines pin t a (hSkip.imp_right .inl)
  exact ⟨pin, monitored, hRet, h⟩

/-- A callback of a well-nested life does not fail. -/
theorem Recorded.call {callback : Callback} {callbacks : List Callback}
    (h : Recorded routines t inside left pin) (hNested : WellNested inside (callback :: callbacks)) :
    ∃ pin' inside', Instrumenter.call routines pin t callback = .ok pin' ∧
      Recorded routines t inside' left pin' ∧ WellNested inside' callbacks := by
  cases callback with
  | threadRestart => cases inside <;> exact absurd hNested not_false
  | funcEnter a =>
    refine ⟨_, a :: inside, rfl, h.enter a, ?_⟩
    cases inside <;> exact hNested
  | funcReturn a =>
    cases inside with
    | nil =>
      obtain ⟨pin', monitored, hRet, hNext⟩ := h.ret_outer a
      exact ⟨pin', [], by rw [Instrumenter.call, hRet]; rfl, hNext, hNested⟩
    | cons last inside =>
      obtain ⟨rfl, hNested⟩ := hNested
      obtain ⟨pin', monitored, hRet, hNext⟩ := h.ret
      exact ⟨pin', inside, by rw [Instrumenter.call, hRet]; rfl, hNext, hNested⟩
  | instruction =>
    refine ⟨pin, inside, rfl, h, ?_⟩
    cases inside <;> exact hNested

/-- An event of a well-nested life: another thread fails, or the stacks still agree. -/
theorem Recorded.step {event : Event} {events : List Event}
    (h : Recorded routines t inside ((event :: events).filterMap switchOf) pin)
    (hNested : WellNested inside ((event :: events).filterMap (callbackOf t)))
    (hSwitched : ((event :: events).filterMap switchOf).Sublist [.pinEnable, .pinDisable]) :
    (∃ failure, step routines pin event = .error failure ∧ failure.threadid ≠ t) ∨
    ∃ pin' inside', step routines pin event = .ok pin' ∧
      Recorded routines t inside' (events.filterMap switchOf) pin' ∧
      WellNested inside' (events.filterMap (callbackOf t)) := by
  cases event with
  | switch switch => exact .inr ⟨_, inside, rfl, h.turn hSwitched, hNested⟩
  | callback u callback =>
    by_cases hOwn : u = t
    · subst hOwn
      rw [List.filterMap_cons_some (b := callback) (by simp [callbackOf])] at hNested
      obtain ⟨pin', inside', hCall, hNext⟩ := h.call hNested
      exact .inr ⟨pin', inside', hCall, hNext⟩
    · rw [List.filterMap_cons_none (by simp [callbackOf, hOwn])] at hNested
      cases hCall : Instrumenter.call routines pin u callback with
      | error failure => exact .inl ⟨failure, hCall, fun hThread =>
          hOwn ((call_error hCall).symm.trans hThread)⟩
      | ok pin' => exact .inr ⟨pin', inside, hCall, h.frame (call_frame hCall) (Ne.symm hOwn),
          hNested⟩

end

-- ---------------------------------------------------------------------------
-- Whole lives
-- ---------------------------------------------------------------------------

/-- What holds of the thread at the end of a run: it has not failed, and it is monitored if and
only if it has a recorded routine. -/
def Sound (threadid : Nat) : Except Failure Pin → Prop
  | .error failure => failure.threadid ≠ threadid
  | .ok pin => (pin.threads threadid).inst_enabled = true ↔
      (pin.threads threadid).call_stack ≠ []

theorem run_cons (routines : Routines) (pin : Pin) (event : Event) (events : List Event) :
    run routines pin (event :: events) =
      (step routines pin event).bind fun pin => run routines pin events := by
  rw [run, List.foldlM_cons]
  rfl

theorem filterMap_sublist {α β : Type} (f : α → Option β) (x : α) (xs : List α) :
    (xs.filterMap f).Sublist ((x :: xs).filterMap f) :=
  (List.sublist_cons_self x xs).filterMap f

/-- Every prefix of a run behind the restart. -/
theorem Recorded.run {routines : Routines} {t : Nat} {events : List Event}
    {inside : List UInt64} {pin : Pin}
    (h : Recorded routines t inside (events.filterMap switchOf) pin)
    (hNested : WellNested inside (events.filterMap (callbackOf t)))
    (hSwitched : (events.filterMap switchOf).Sublist [.pinEnable, .pinDisable])
    (past : List Event) (hPast : past <+: events) :
    Sound t (Instrumenter.run routines pin past) := by
  induction events generalizing inside pin past with
  | nil =>
    rw [List.prefix_nil.mp hPast]
    exact h.monitored
  | cons event events ih =>
    rcases List.prefix_cons_iff.mp hPast with rfl | ⟨past, rfl, hMore⟩
    · exact h.monitored
    rw [run_cons]
    rcases h.step hNested hSwitched with ⟨failure, hStep, hOther⟩ | ⟨pin', inside', hStep, hNext⟩
    · rw [hStep]
      exact hOther
    · rw [hStep]
      exact ih hNext.1 hNext.2 ((filterMap_sublist ..).trans hSwitched) past hMore

/-- **The call stack never fails.** In the life of a thread with its calls nested, and monitoring
switched on and off once within it, the thread fails no check on its call stack, and is monitored
exactly while a routine is recorded there, whatever the routines to be instrumented and whatever
other threads do. -/
theorem call_stack_never_fails (routines : Routines) (pin : Pin) (threadid : Nat)
    (events : List Event) (hLife : Life threadid events) (past : List Event)
    (hPast : past <+: events) (hBegun : .callback threadid .threadRestart ∈ past) :
    Sound threadid (run routines pin past) := by
  obtain ⟨⟨callbacks, hCallbacks, hNested⟩, hSwitched⟩ := hLife
  induction events generalizing pin past with
  | nil => cases hCallbacks
  | cons event events ih =>
    rcases List.prefix_cons_iff.mp hPast with rfl | ⟨past, rfl, hMore⟩
    · cases hBegun
    rw [run_cons]
    replace hSwitched := (filterMap_sublist switchOf event events).trans hSwitched
    cases hOf : callbackOf threadid event with
    | some callback =>
      -- the life begins
      rw [List.filterMap_cons_some hOf, List.cons.injEq] at hCallbacks
      obtain ⟨rfl, rfl⟩ := hCallbacks
      obtain rfl : event = .callback threadid .threadRestart := by
        cases event with
        | switch switch => cases hOf
        | callback u callback =>
          simp only [callbackOf, Option.ite_none_right_eq_some, Option.some.injEq] at hOf
          rw [hOf.1, hOf.2]
      exact (Recorded.restart routines pin threadid _).run hNested hSwitched past hMore
    | none =>
      rw [List.filterMap_cons_none hOf] at hCallbacks
      have hLater : .callback threadid .threadRestart ∈ past := by
        refine (List.mem_cons.mp hBegun).resolve_left ?_
        rintro rfl
        simp [callbackOf] at hOf
      cases hStep : step routines pin event with
      | ok pin' => exact ih pin' past hMore hLater hSwitched hCallbacks
      | error failure =>
        cases event with
        | switch switch => cases hStep
        | callback u callback =>
          intro hThread
          have hOwn := (call_error hStep).symm.trans hThread
          simp [callbackOf, hOwn] at hOf

/-- A thread is in routine 5 when the switch is turned on, and then enters routine 7, which is
to be instrumented, twice; another thread returns from an earlier call of that routine. -/
def nestedLife : List Event :=
  [.callback 1 .threadRestart, .callback 1 (.funcEnter 5), .switch .pinEnable,
    .callback 1 (.funcEnter 7), .callback 2 (.funcReturn 7), .callback 1 (.funcEnter 7),
    .callback 1 (.funcReturn 7), .callback 1 (.funcReturn 7), .callback 1 (.funcReturn 5),
    .switch .pinDisable]

/-- Monitoring is switched on within routine 5, and routine 7 is entered twice. -/
theorem call_stack_nestedLife :
    Sound 1 (run ⟨⟨[0, 7], [], [], false⟩, []⟩ ⟨false, fun _ => ⟨true, [7]⟩⟩ nestedLife) :=
  call_stack_never_fails _ _ 1 nestedLife
    ⟨⟨_, rfl, rfl, rfl, rfl, trivial⟩, List.Sublist.refl _⟩
    nestedLife (List.prefix_refl _) (List.mem_cons_self ..)

end Instrumenter

end Concurrit.Model
