import Mathlib.Data.List.ReduceOption
import Concurrit.Model.Instrumenter
import Concurrit.Model.Locality

/-!
# Concurrit — what a memory access looks like to the predicates

`MemoryTrace` inserts calls before and after an instruction, when the instruction is compiled.
They run each time the instruction does, if the thread is monitored then, and `PinMonitor`, if it
is enabled, fills the tables that `READS` and `WRITES` look at. Any number of threads run their
instructions, step by step.

* `Item`            — an instruction, or another event of a thread.
* `Phase`           — how far a thread is in its last item.
* `accesses_exact`  — at a transition the predicates hold of the accesses of this very
  instruction and of no other; and every monitored access has had its transition.
-/

namespace Concurrit.Model

open Function (update)

namespace MemTrace

open Ipc (THREADID ADDRINT INVALID_THREADID)
open Aux (Event Loc Record Query raised)
open Instrumenter (Pin OnInstruction Routines Callback Switch)

-- ---------------------------------------------------------------------------
-- The inserted calls
-- ---------------------------------------------------------------------------

/-- What Pin says of an instruction. -/
structure INS where
  IsStackRead : Bool
  IsStackWrite : Bool
  IsMemoryWrite : Bool
  HasMemoryRead2 : Bool
  IsMemoryRead : Bool
  IsPrefetch : Bool
  HasFallThrough : Bool
  IsBranchOrCall : Bool

structure PinToolOptions where
  InstrAfterMemoryAccess : Bool

inductive IPOINT where
  | BEFORE
  | AFTER
  | TAKEN_BRANCH
deriving DecidableEq

/-- The functions that are called. `MemRead` is called with `IARG_MEMORYREAD_EA`, `MemRead2` is
`MemRead` with `IARG_MEMORYREAD2_EA`. -/
inductive AnalysisCall where
  | MemWrite
  | MemRead2
  | MemRead
  | MemAccessBefore
  | MemAccessAfter
deriving DecidableEq

/-- The calls that are inserted for an instruction, each behind `If_OnInstruction`. -/
def MemoryTrace (OPTIONS : PinToolOptions) (ins : INS) : List (IPOINT × AnalysisCall) :=
  if ins.IsStackRead || ins.IsStackWrite then []
  else
    let is_access :=
      ins.IsMemoryWrite || ins.HasMemoryRead2 || (ins.IsMemoryRead && !ins.IsPrefetch)
    if !is_access then []
    else
      let has_fallthrough := OPTIONS.InstrAfterMemoryAccess && ins.HasFallThrough
      let is_branchorcall := OPTIONS.InstrAfterMemoryAccess && ins.IsBranchOrCall
      if OPTIONS.InstrAfterMemoryAccess && !has_fallthrough && !is_branchorcall then []
      else
        (if ins.IsMemoryWrite then [(.BEFORE, .MemWrite)] else []) ++
        (if ins.HasMemoryRead2 then [(.BEFORE, .MemRead2)] else []) ++
        (if ins.IsMemoryRead && !ins.IsPrefetch then [(.BEFORE, .MemRead)] else []) ++
        [(.BEFORE, .MemAccessBefore)] ++
        (if has_fallthrough then [(.AFTER, .MemAccessAfter)] else []) ++
        (if is_branchorcall then [(.TAKEN_BRANCH, .MemAccessAfter)] else [])

/-- The instruction accesses memory outside the stack, and there is a point after it if there has
to be one. -/
def INS.instrumented (OPTIONS : PinToolOptions) (ins : INS) : Bool :=
  !ins.IsStackRead && !ins.IsStackWrite &&
    (ins.IsMemoryWrite || ins.HasMemoryRead2 || (ins.IsMemoryRead && !ins.IsPrefetch)) &&
    (!OPTIONS.InstrAfterMemoryAccess || ins.HasFallThrough || ins.IsBranchOrCall)

theorem memoryTrace_of_not_instrumented {OPTIONS : PinToolOptions} {ins : INS}
    (h : ins.instrumented OPTIONS = false) : MemoryTrace OPTIONS ins = [] := by
  simp only [INS.instrumented] at h
  simp only [MemoryTrace]
  grind

/-- The calls that are inserted at an instruction, in the order of the source. -/
theorem memoryTrace_of_instrumented {OPTIONS : PinToolOptions} {ins : INS}
    (h : ins.instrumented OPTIONS = true) :
    MemoryTrace OPTIONS ins =
      (if ins.IsMemoryWrite then [(.BEFORE, .MemWrite)] else []) ++
      (if ins.HasMemoryRead2 then [(.BEFORE, .MemRead2)] else []) ++
      (if ins.IsMemoryRead && !ins.IsPrefetch then [(.BEFORE, .MemRead)] else []) ++
      [(.BEFORE, .MemAccessBefore)] ++
      (if OPTIONS.InstrAfterMemoryAccess && ins.HasFallThrough then [(.AFTER, .MemAccessAfter)]
        else []) ++
      (if OPTIONS.InstrAfterMemoryAccess && ins.IsBranchOrCall then
        [(.TAKEN_BRANCH, .MemAccessAfter)] else []) := by
  simp only [INS.instrumented] at h
  simp only [MemoryTrace]
  grind

/-- An execution of an instruction: what the arguments of the calls are, and how it is left. A
predicated instruction whose predicate is false does not run its calls. -/
structure Execution where
  ins : INS
  MEMORYWRITE_EA : ADDRINT
  MEMORYWRITE_SIZE : UInt32
  MEMORYREAD2_EA : ADDRINT
  MEMORYREAD_EA : ADDRINT
  MEMORYREAD_SIZE : UInt32
  predicate : Bool
  taken : Bool
  write_size : MEMORYWRITE_SIZE ≠ 0
  read_size : MEMORYREAD_SIZE ≠ 0

namespace Execution

variable (OPTIONS : PinToolOptions) (x : Execution)

/-- The execution comes to the point. -/
def reaches : IPOINT → Bool
  | .BEFORE => true
  | .AFTER => !x.taken
  | .TAKEN_BRANCH => x.taken

/-- What a call tells `PinMonitor`, whose `MemAccessAfter` does nothing. -/
def event : AnalysisCall → Option Event
  | .MemWrite => some (.MemWrite x.MEMORYWRITE_EA x.MEMORYWRITE_SIZE)
  | .MemRead2 => some (.MemRead x.MEMORYREAD2_EA x.MEMORYREAD_SIZE)
  | .MemRead => some (.MemRead x.MEMORYREAD_EA x.MEMORYREAD_SIZE)
  | .MemAccessBefore => some .MemAccessBefore
  | .MemAccessAfter => none

/-- The calls of the execution. -/
def calls : List (Option Event) :=
  if x.predicate then ((MemoryTrace OPTIONS x.ins).filter fun c => x.reaches c.1).map fun c => x.event c.2
  else []

def writes : List ADDRINT := if x.ins.IsMemoryWrite then [x.MEMORYWRITE_EA] else []

def reads : List ADDRINT :=
  (if x.ins.HasMemoryRead2 then [x.MEMORYREAD2_EA] else []) ++
  (if x.ins.IsMemoryRead && !x.ins.IsPrefetch then [x.MEMORYREAD_EA] else [])

/-- The calls of the execution have a transition. -/
def traced : Bool := x.predicate && x.ins.instrumented OPTIONS

/-- The events before the transition. -/
def accesses : List Event :=
  x.writes.map (.MemWrite · x.MEMORYWRITE_SIZE) ++ x.reads.map (.MemRead · x.MEMORYREAD_SIZE)

/-- A call that is inserted on a condition tells its event if the execution comes to it. -/
theorem reduceOption_inserted (inserted : Bool) (c : IPOINT × AnalysisCall) :
    (((if inserted then [c] else []).filter fun c => x.reaches c.1).map
      fun c => x.event c.2).reduceOption =
    if inserted && x.reaches c.1 then (x.event c.2).toList else [] := by
  cases inserted with
  | false => rfl
  | true =>
    cases hReaches : x.reaches c.1 with
    | false => simp [hReaches]
    | true => cases hEvent : x.event c.2 <;> simp [hReaches, hEvent]

theorem calls_of_not_traced (h : x.traced OPTIONS = false) : x.calls OPTIONS = [] := by
  rw [traced, Bool.and_eq_false_iff] at h
  rcases h with h | h
  · simp [calls, h]
  · simp [calls, memoryTrace_of_not_instrumented h]

/-- **What the inserted calls tell**: each access, and then that the thread is at them. -/
theorem reduceOption_calls :
    (x.calls OPTIONS).reduceOption =
      if x.traced OPTIONS then x.accesses ++ [.MemAccessBefore] else [] := by
  cases hTraced : x.traced OPTIONS with
  | false => rw [x.calls_of_not_traced OPTIONS hTraced]; rfl
  | true =>
    obtain ⟨hPredicate, hIns⟩ := (Bool.and_eq_true _ _).mp hTraced
    have hHere := x.reduceOption_inserted true (.BEFORE, .MemAccessBefore)
    rw [if_pos rfl] at hHere
    have hAfter : (x.event .MemAccessAfter).toList = [] := rfl
    simp only [calls, hPredicate, if_true, memoryTrace_of_instrumented hIns, List.filter_append,
      List.map_append, List.reduceOption_append, reduceOption_inserted, hHere, hAfter, ite_self,
      List.append_nil]
    simp only [reaches, event, accesses, writes, reads, Bool.and_true, if_true]
    cases x.ins.IsMemoryWrite <;> cases x.ins.HasMemoryRead2 <;>
      cases (x.ins.IsMemoryRead && !x.ins.IsPrefetch) <;> rfl

end Execution

-- ---------------------------------------------------------------------------
-- The instructions of a thread
-- ---------------------------------------------------------------------------

/-- An instruction, and whether the thread was monitored when it came to it: it is instrumented,
and the switch of Pin and that of `PinMonitor` are on. Or another event that leads to a
transition. -/
inductive Item where
  | instruction (x : Execution) (monitored : Bool)
  | other (e : Event) (hControlled : e.controlled = true)

namespace Item

variable (OPTIONS : PinToolOptions)

/-- What the thread reads at the transition of the item. -/
def reads : Item → List ADDRINT
  | .instruction x _ => x.reads
  | .other .. => []

def writes : Item → List ADDRINT
  | .instruction x _ => x.writes
  | .other .. => []

def events : Item → List Event
  | .instruction x monitored =>
    if monitored && x.traced OPTIONS then x.accesses ++ [.MemAccessBefore] else []
  | .other e _ => [e]

/-- What the item leaves in the log, the newest first: its events, and then its transition. -/
def records (item : Item) : List Record :=
  if item.events OPTIONS = [] then []
  else .finished :: (item.events OPTIONS).reverse.map .raised

end Item

structure State where
  aux : Aux.State
  pin : Pin
  /-- `PinMonitor::enabled_` -/
  enabled : Bool
  /-- the calls of the thread's instruction that have not run yet, with what they tell -/
  todo : THREADID → List (Option Event)
  /-- what the thread has come to, the newest first; not known to the code -/
  history : THREADID → List Item

/-- The index of a thread in `ThreadLocalState_inst_enabled`. -/
def index (t : THREADID) : Nat := t.toUInt32.toNat

inductive Act where
  /-- the thread comes to an instruction -/
  | instruction (x : Execution)
  /-- the next inserted call of the instruction, behind `If_OnInstruction` -/
  | inserted
  /-- an event that is not told by `MemoryTrace` -/
  | raise (e : Event)
  /-- the thread goes on in the callback of `PinMonitor` -/
  | proceed
  | finish
  /-- the thread enters or leaves a routine, or is restarted -/
  | callback (callback : Callback)

inductive Label where
  | thread (t : THREADID) (act : Act)
  /-- `EnablePinTool` and `DisablePinTool` -/
  | switch (switch : Switch)
  /-- `PinMonitor::Enable` and `PinMonitor::Disable` -/
  | monitor (enabled : Bool)

/-- The monitor is not enabled before `concurritStartTest`. -/
def State.start (pin : Pin) : State := ⟨.start, pin, false, fun _ => [], fun _ => []⟩

/-- The thread is between two instructions. -/
def State.Between (s : State) (t : THREADID) : Prop := s.aux.loc t = .idle ∧ s.todo t = []

instance (s : State) (t : THREADID) : Decidable (s.Between t) := inferInstanceAs (Decidable (_ ∧ _))

/-- What the thread's calls tell is recorded. -/
def State.monitored (s : State) (t : THREADID) : Bool := OnInstruction s.pin (index t) && s.enabled

variable (OPTIONS : PinToolOptions) (routines : Routines)

def State.act (s : State) (t : THREADID) : Act → Option State
  | .instruction x =>
    if s.Between t then
      some { s with
        todo := update s.todo t (x.calls OPTIONS)
        history := update s.history t
          (.instruction x (s.monitored t) :: s.history t) }
    else none
  | .inserted =>
    match s.aux.loc t, s.todo t with
    | .idle, call :: rest =>
      if OnInstruction s.pin (index t) then
        match call with
        | some e =>
          -- `CallPinMonitor`
          if s.enabled then
            (s.aux.step t (.raise e)).map fun aux =>
              { s with aux := aux, todo := update s.todo t rest }
          else some { s with todo := update s.todo t rest }
        | none => some { s with todo := update s.todo t rest }
      else some { s with todo := update s.todo t rest }
    | _, _ => none
  | .raise e =>
    if hControlled : e.controlled = true then
      if s.Between t ∧ s.enabled = true then
        (s.aux.step t (.raise e)).map fun aux =>
          { s with
            aux := aux
            history := update s.history t (.other e hControlled :: s.history t) }
      else none
    else none
  | .proceed => (s.aux.step t .proceed).map fun aux => { s with aux := aux }
  | .finish => (s.aux.step t .finish).map fun aux => { s with aux := aux }
  | .callback callback =>
    if s.Between t then
      (Instrumenter.call routines s.pin (index t) callback).toOption.map fun pin =>
        { s with pin := pin }
    else none

def State.step (s : State) : Label → Option State
  | .thread t act => s.act OPTIONS routines t act
  | .switch switch => some { s with pin := s.pin.turn switch }
  | .monitor enabled => some { s with enabled := enabled }

def system : Runs.System State Label where
  init s := ∃ pin, s = .start pin
  step s a s' := s.step OPTIONS routines a = some s'

/-- The switches are not turned while the thread is in the calls of an instruction. -/
def Undisturbed (t : THREADID) (s : State) : Label → Prop
  | .switch _ | .monitor _ => s.todo t = []
  | .thread _ _ => True

-- ---------------------------------------------------------------------------
-- What a step does
-- ---------------------------------------------------------------------------

variable {OPTIONS : PinToolOptions} {routines : Routines} {s s' : State} {t u : THREADID} {act : Act}

/-- The steps of a thread, one constructor a case. -/
inductive Acted (OPTIONS : PinToolOptions) (routines : Routines) (s : State) (t : THREADID) :
    Act → State → Prop where
  | instruction (x : Execution) (hBetween : s.Between t) :
      Acted OPTIONS routines s t (.instruction x) { s with
        todo := update s.todo t (x.calls OPTIONS)
        history := update s.history t
          (.instruction x (s.monitored t) :: s.history t) }
  | tells {e rest aux} (hTodo : s.todo t = some e :: rest)
      (hOn : s.monitored t = true) (hStep : s.aux.step t (.raise e) = some aux) :
      Acted OPTIONS routines s t .inserted { s with aux := aux, todo := update s.todo t rest }
  | passes {call rest} (hTodo : s.todo t = call :: rest)
      (hSilent : call = none ∨ s.monitored t = false) :
      Acted OPTIONS routines s t .inserted { s with todo := update s.todo t rest }
  | raise {e aux} (hControlled : e.controlled = true) (hBetween : s.Between t)
      (hEnabled : s.enabled = true) (hStep : s.aux.step t (.raise e) = some aux) :
      Acted OPTIONS routines s t (.raise e) { s with
        aux := aux, history := update s.history t (.other e hControlled :: s.history t) }
  | proceed {aux} (hStep : s.aux.step t .proceed = some aux) :
      Acted OPTIONS routines s t .proceed { s with aux := aux }
  | finish {aux} (hStep : s.aux.step t .finish = some aux) :
      Acted OPTIONS routines s t .finish { s with aux := aux }
  | callback {callback pin} (hBetween : s.Between t)
      (hCall : Instrumenter.call routines s.pin (index t) callback = .ok pin) :
      Acted OPTIONS routines s t (.callback callback) { s with pin := pin }

/-- What a thread can do at each of its places. -/
theorem act_cases (h : s.act OPTIONS routines t act = some s') : Acted OPTIONS routines s t act s' := by
  cases act with
  | instruction x =>
    simp only [State.act, Option.ite_none_right_eq_some, Option.some.injEq] at h
    obtain ⟨hBetween, rfl⟩ := h
    exact .instruction x hBetween
  | inserted =>
    simp only [State.act] at h
    split at h
    · rename_i call rest hIdle hTodo
      split at h
      · rename_i hOn
        split at h
        · split at h
          · rename_i hEnabled
            obtain ⟨aux, hStep, rfl⟩ := Option.map_eq_some_iff.mp h
            exact .tells hTodo (by rw [State.monitored, hOn, hEnabled]; rfl) hStep
          · rename_i hEnabled
            obtain rfl := Option.some.inj h
            refine .passes hTodo (.inr ?_)
            rw [State.monitored, Bool.eq_false_of_not_eq_true hEnabled, Bool.and_false]
        · obtain rfl := Option.some.inj h
          exact .passes hTodo (.inl rfl)
      · rename_i hOff
        obtain rfl := Option.some.inj h
        refine .passes hTodo (.inr ?_)
        rw [State.monitored, Bool.eq_false_of_not_eq_true hOff, Bool.false_and]
    · cases h
  | raise e =>
    simp only [State.act] at h
    split at h
    · rename_i hControlled
      simp only [Option.ite_none_right_eq_some] at h
      obtain ⟨⟨hBetween, hEnabled⟩, h⟩ := h
      obtain ⟨aux, hStep, rfl⟩ := Option.map_eq_some_iff.mp h
      exact .raise hControlled hBetween hEnabled hStep
    · cases h
  | proceed =>
    obtain ⟨aux, hStep, rfl⟩ := Option.map_eq_some_iff.mp h
    exact .proceed hStep
  | finish =>
    obtain ⟨aux, hStep, rfl⟩ := Option.map_eq_some_iff.mp h
    exact .finish hStep
  | callback callback =>
    simp only [State.act, Option.ite_none_right_eq_some] at h
    obtain ⟨hBetween, h⟩ := h
    obtain ⟨pin, hCall, rfl⟩ := Option.map_eq_some_iff.mp h
    refine .callback hBetween ?_
    cases hResult : Instrumenter.call routines s.pin (index t) callback with
    | error failure => rw [hResult] at hCall; cases hCall
    | ok pin' =>
      rw [hResult] at hCall
      rw [Option.some.inj hCall]

/-- The steps on the tables are those of `Aux`. -/
theorem Acted.aux (h : Acted OPTIONS routines s t act s') :
    s'.aux = s.aux ∨ ∃ a, s.aux.step t a = some s'.aux := by
  cases h with
  | instruction | passes | callback => exact .inl rfl
  | tells _ _ hStep | raise _ _ _ hStep | proceed hStep | finish hStep => exact .inr ⟨_, hStep⟩

/-- What a thread has recorded, the newest first. -/
def records (t : THREADID) (log : List (THREADID × Record)) : List Record :=
  (Aux.own t log).map Prod.snd

theorem records_self (r : Record) (log : List (THREADID × Record)) :
    records t ((t, r) :: log) = r :: records t log := by
  simp [records, Aux.own]

theorem records_other (hu : u ≠ t) (r : Record) (log : List (THREADID × Record)) :
    records t ((u, r) :: log) = records t log := by
  simp [records, Aux.own, hu]

theorem records_of_stepped {a a' : Aux.State} {act : Aux.Act} (h : Aux.Stepped a u act a')
    (hu : u ≠ t) : records t a'.log = records t a.log := by
  cases h with
  | raise | finish => exact records_other hu _ _
  | access | enter | leave | resume | accessAfter | «return» => rfl

theorem index_inj (h : index t = index u) : t = u :=
  Int32.toBitVec_inj.mp (congrArg UInt32.toBitVec (UInt32.toNat_inj.mp h))

/-- What belongs to a thread is as before. -/
structure Same (t : THREADID) (s s' : State) : Prop where
  loc : s'.aux.loc t = s.aux.loc t
  raised : raised t s'.aux.log = raised t s.aux.log
  records : records t s'.aux.log = records t s.aux.log
  monitored : s'.monitored t = s.monitored t
  todo : s'.todo t = s.todo t
  history : s'.history t = s.history t

/-- A step of another thread. -/
theorem Acted.other (h : Acted OPTIONS routines s u act s') (hT : t ≠ INVALID_THREADID)
    (hu : t ≠ u) : Same t s s' := by
  have hStepped : ∀ {a aux}, s.aux.step u a = some aux → aux.loc t = s.aux.loc t ∧
      raised t aux.log = raised t s.aux.log ∧ records t aux.log = records t s.aux.log := by
    intro a aux hStep
    have hStepped := Aux.step_cases hStep
    obtain ⟨hLoc, hRaised, -⟩ := hStepped.other hT hu
    exact ⟨hLoc, hRaised, records_of_stepped hStepped fun hSame => hu hSame.symm⟩
  cases h with
  | instruction x =>
    exact ⟨rfl, rfl, rfl, rfl, Function.update_of_ne hu .., Function.update_of_ne hu ..⟩
  | tells _ _ hStep =>
    obtain ⟨hLoc, hRaised, hRecords⟩ := hStepped hStep
    exact ⟨hLoc, hRaised, hRecords, rfl, Function.update_of_ne hu .., rfl⟩
  | passes => exact ⟨rfl, rfl, rfl, rfl, Function.update_of_ne hu .., rfl⟩
  | raise _ _ _ hStep =>
    obtain ⟨hLoc, hRaised, hRecords⟩ := hStepped hStep
    exact ⟨hLoc, hRaised, hRecords, rfl, rfl, Function.update_of_ne hu ..⟩
  | proceed hStep | finish hStep =>
    obtain ⟨hLoc, hRaised, hRecords⟩ := hStepped hStep
    exact ⟨hLoc, hRaised, hRecords, rfl, rfl, rfl⟩
  | callback _ hCall =>
    have hFrame := Instrumenter.call_frame hCall
    refine ⟨rfl, rfl, rfl, ?_, rfl, rfl⟩
    rw [State.monitored, State.monitored, OnInstruction, OnInstruction, hFrame.enabled,
      hFrame.others _ fun hSame => hu (index_inj hSame)]

/-- The part of the state that `AuxState` makes up runs by its own steps. -/
theorem reachable_aux {ok : State → Label → Prop}
    (h : Runs.ReachableUnder (system OPTIONS routines) ok s) :
    Runs.Reachable Aux.system s.aux := by
  induction h with
  | init hInit =>
    obtain ⟨pin, rfl⟩ := hInit
    exact .init rfl
  | @step s s' label _ _ hStep ih =>
    cases label with
    | switch | monitor =>
      obtain rfl := Option.some.inj hStep
      exact ih
    | thread u act =>
      rcases (act_cases hStep).aux with hAux | ⟨a, hAux⟩
      · rw [hAux]
        exact ih
      · exact .step (i := (u, a)) ih trivial hAux

-- ---------------------------------------------------------------------------
-- How far a thread is
-- ---------------------------------------------------------------------------

/-- The events that the thread's instruction will still tell. -/
def State.due (s : State) (t : THREADID) : List Event :=
  if s.monitored t then (s.todo t).reduceOption else []

theorem State.due_update (s : State) (aux : Aux.State) (calls : List (Option Event))
    (history : THREADID → List Item) :
    State.due ⟨aux, s.pin, s.enabled, update s.todo t calls, history⟩ t =
      if s.monitored t then calls.reduceOption else [] := by
  simp only [State.due, Function.update_self]
  rfl

/-- The items of a thread are recorded, except that of the last there may be events to come. -/
inductive Phase (OPTIONS : PinToolOptions) (s : State) (t : THREADID) : Prop where
  | between (hRaised : raised t s.aux.log = []) (hDue : s.due t = [])
      (hLog : records t s.aux.log = (s.history t).flatMap (Item.records OPTIONS))
  | within {item : Item} {older : List Item} (hHistory : s.history t = item :: older)
      (hSome : item.events OPTIONS ≠ [])
      (hEvents : raised t s.aux.log ++ s.due t = item.events OPTIONS)
      (hLog : records t s.aux.log = (raised t s.aux.log).reverse.map .raised ++
        older.flatMap (Item.records OPTIONS))

theorem Same.due (h : Same t s s') : s'.due t = s.due t := by
  rw [State.due, State.due, h.monitored, h.todo]

/-- A step of another thread keeps the phase of this one. -/
theorem Same.phase (h : Same t s s') (hPhase : Phase OPTIONS s t) : Phase OPTIONS s' t := by
  cases hPhase with
  | between hRaised hDue hLog =>
    exact .between (h.raised.trans hRaised) (h.due.trans hDue)
      (by rw [h.records, hLog, h.history])
  | within hHistory hSome hEvents hLog =>
    exact .within (h.history.trans hHistory) hSome (by rw [h.raised, h.due, hEvents])
      (by rw [h.records, hLog, h.raised])

theorem accesses_uncontrolled {x : Execution} {e : Event} (h : e ∈ x.accesses) :
    e.controlled = false := by
  simp only [Execution.accesses, List.mem_append, List.mem_map] at h
  rcases h with ⟨_, -, rfl⟩ | ⟨_, -, rfl⟩ <;> rfl

/-- Of the events of an item the last one leads to the transition. -/
theorem Item.events_split {item : Item} (hSome : item.events OPTIONS ≠ []) :
    ∃ quiet e, item.events OPTIONS = quiet ++ [e] ∧ (∀ d ∈ quiet, d.controlled = false) ∧
      e.controlled = true := by
  cases item with
  | instruction x monitored =>
    rw [Item.events] at hSome ⊢
    by_cases hTraced : (monitored && x.traced OPTIONS) = true
    · rw [if_pos hTraced]
      exact ⟨_, .MemAccessBefore, rfl, fun _ => accesses_uncontrolled, rfl⟩
    · rw [if_neg hTraced] at hSome
      exact absurd rfl hSome
  | other e hControlled => exact ⟨[], e, rfl, fun _ h => (List.not_mem_nil h).elim, hControlled⟩

/-- If the thread has raised what leads to a transition, the events of its item are all raised. -/
theorem Item.due_eq_nil {item : Item} {done due : List Event} {e : Event}
    (hEvents : (done ++ [e]) ++ due = item.events OPTIONS) (hControlled : e.controlled = true) :
    due = [] := by
  have hSome : item.events OPTIONS ≠ [] := by
    rw [← hEvents]
    simp
  obtain ⟨quiet, last, hSplit, hQuiet, -⟩ := Item.events_split hSome
  rw [hSplit] at hEvents
  rcases List.eq_nil_or_concat' due with rfl | ⟨more, d, rfl⟩
  · rfl
  · rw [← List.append_assoc] at hEvents
    have hMem : e ∈ quiet := (List.append_inj' hEvents rfl).1 ▸ by simp
    rw [hQuiet e hMem] at hControlled
    cases hControlled

/-- If a thread's transition is controlled before a step, so is the one after it. -/
theorem controlled_of_stepped {a a' : Aux.State} {act : Aux.Act} {e : Event}
    (h : Aux.Stepped a u act a') (hBefore : ∀ e, a.loc t = .transition e → e.controlled = true)
    (hLoc : a'.loc t = .transition e) : e.controlled = true := by
  by_cases hu : t = u
  · subst hu
    cases h with
    | enter hWas hControlled =>
      simp only [Function.update_self, Loc.transition.injEq] at hLoc
      exact hLoc ▸ hControlled
    | raise | access | leave | resume | accessAfter | «return» | finish =>
      simp only [Function.update_self] at hLoc
      cases hLoc
  · refine hBefore e ?_
    rw [← hLoc]
    cases h <;> exact (Function.update_of_ne hu ..).symm

theorem transition_controlled {a : Aux.State} {e : Event} (h : Runs.Reachable Aux.system a)
    (hLoc : a.loc t = .transition e) : e.controlled = true := by
  refine h.invariant (P := fun a => ∀ e, a.loc t = .transition e → e.controlled = true) ?_ ?_ e hLoc
  · rintro a rfl e hLoc
    cases hLoc
  · exact fun a _ a' hBefore _ hStep e => controlled_of_stepped (Aux.step_cases hStep) hBefore

/-- What a thread has raised when it is in a transition. -/
theorem raised_at {e : Event} (h : Runs.Reachable Aux.system s.aux)
    (hT : t ≠ INVALID_THREADID) (hLoc : s.aux.loc t = .transition e) :
    ∃ done, raised t s.aux.log = done ++ [e] := by
  have hShaped := Aux.shaped_reachable h hT
  rw [Aux.Shaped, hLoc] at hShaped
  obtain ⟨done, hRaised, -⟩ := hShaped
  exact ⟨done, hRaised⟩

/-- At a transition all the events of the last item are raised. -/
theorem Phase.at_transition {e : Event} (hPhase : Phase OPTIONS s t)
    (h : Runs.Reachable Aux.system s.aux) (hT : t ≠ INVALID_THREADID)
    (hLoc : s.aux.loc t = .transition e) :
    ∃ item older, s.history t = item :: older ∧ s.due t = [] ∧
      raised t s.aux.log = item.events OPTIONS ∧ records t s.aux.log =
        (item.events OPTIONS).reverse.map .raised ++ older.flatMap (Item.records OPTIONS) := by
  obtain ⟨done, hRaised⟩ := raised_at h hT hLoc
  cases hPhase with
  | between hNone => simp [hNone] at hRaised
  | @within item older hHistory hSome hEvents hLog =>
    have hDue := Item.due_eq_nil (hRaised ▸ hEvents) (transition_controlled h hLoc)
    rw [hDue, List.append_nil] at hEvents
    exact ⟨item, older, hHistory, hDue, hEvents, hEvents ▸ hLog⟩

/-- A thread that is between two instructions has recorded its items. -/
theorem Phase.at_rest (hPhase : Phase OPTIONS s t) (h : Runs.Reachable Aux.system s.aux)
    (hT : t ≠ INVALID_THREADID) (hBetween : s.Between t) :
    raised t s.aux.log = [] ∧
      records t s.aux.log = (s.history t).flatMap (Item.records OPTIONS) := by
  cases hPhase with
  | between hRaised _ hLog => exact ⟨hRaised, hLog⟩
  | within hHistory hSome hEvents =>
    -- an event that leads to a transition would be among the quiet ones
    have hDue : s.due t = [] := by simp [State.due, hBetween.2]
    have hShaped := Aux.shaped_reachable h hT
    rw [Aux.Shaped, hBetween.1] at hShaped
    obtain ⟨quiet, e, hSplit, -, hControlled⟩ := Item.events_split hSome
    rw [hDue, List.append_nil, hSplit] at hEvents
    have hQuiet := (hShaped e (hEvents ▸ by simp)).1
    rw [hControlled] at hQuiet
    cases hQuiet

-- ---------------------------------------------------------------------------
-- Steps and runs
-- ---------------------------------------------------------------------------

theorem flatMap_records_of_none {item : Item} {older : List Item}
    (h : item.events OPTIONS = []) :
    (item :: older).flatMap (Item.records OPTIONS) = older.flatMap (Item.records OPTIONS) := by
  simp [Item.records, h]

theorem flatMap_records_of_some {item : Item} {older : List Item}
    (h : item.events OPTIONS ≠ []) :
    (item :: older).flatMap (Item.records OPTIONS) =
      .finished :: ((item.events OPTIONS).reverse.map .raised ++
        older.flatMap (Item.records OPTIONS)) := by
  simp [Item.records, h]

/-- A step that neither raises nor finishes, and leaves what is due. -/
theorem Phase.quiet {s s' : State} (hPhase : Phase OPTIONS s t) (hLog : s'.aux.log = s.aux.log)
    (hDue : s'.due t = s.due t) (hHistory : s'.history t = s.history t) : Phase OPTIONS s' t := by
  cases hPhase with
  | between hNone hDue' hRecords =>
    exact .between (hLog ▸ hNone) (hDue.trans hDue') (by rw [hLog, hRecords, hHistory])
  | within hItem hSome hEvents hRecords =>
    exact .within (hHistory.trans hItem) hSome (by rw [hLog, hDue, hEvents])
      (by rw [hLog, hRecords])

/-- The thread comes to an item, and has raised the first of its events. -/
theorem Phase.comes_to {s s' : State} {item : Item}
    (hRest : records t s.aux.log = (s.history t).flatMap (Item.records OPTIONS))
    (hHistory : s'.history t = item :: s.history t)
    (hEvents : raised t s'.aux.log ++ s'.due t = item.events OPTIONS)
    (hLog : records t s'.aux.log =
      (raised t s'.aux.log).reverse.map .raised ++ records t s.aux.log) : Phase OPTIONS s' t := by
  by_cases hSome : item.events OPTIONS = []
  · obtain ⟨hRaised, hDue⟩ := List.append_eq_nil_iff.mp (hEvents.trans hSome)
    refine .between hRaised hDue ?_
    rw [hLog, hRaised, hHistory, flatMap_records_of_none hSome]
    exact hRest
  · exact .within hHistory hSome hEvents (hRest ▸ hLog)

/-- One of the events that are due is raised. -/
theorem Phase.tells {s s' : State} {e : Event} (hPhase : Phase OPTIONS s t)
    (hDue : s.due t = e :: s'.due t) (hLog : s'.aux.log = (t, .raised e) :: s.aux.log)
    (hHistory : s'.history t = s.history t) : Phase OPTIONS s' t := by
  have hRaised : raised t s'.aux.log = raised t s.aux.log ++ [e] := by simp [hLog, raised]
  cases hPhase with
  | between _ hNone => rw [hNone] at hDue; cases hDue
  | within hItem hSome hEvents hRecords =>
    refine .within (hHistory.trans hItem) hSome ?_ ?_
    · rw [hRaised, List.append_assoc, List.singleton_append, ← hDue, hEvents]
    · rw [hRaised, hLog, records_self, hRecords]
      simp

/-- The transition is finished, and with it the item. -/
theorem Phase.finish {s s' : State} {e : Event} (hPhase : Phase OPTIONS s t)
    (h : Runs.Reachable Aux.system s.aux) (hT : t ≠ INVALID_THREADID)
    (hLoc : s.aux.loc t = .transition e) (hLog : s'.aux.log = (t, .finished) :: s.aux.log)
    (hDue : s'.due t = s.due t) (hHistory : s'.history t = s.history t) : Phase OPTIONS s' t := by
  obtain ⟨item, older, hItem, hNone, hRaised, hRecords⟩ := hPhase.at_transition h hT hLoc
  obtain ⟨done, hDone⟩ := raised_at h hT hLoc
  have hSome : item.events OPTIONS ≠ [] := by simp [← hRaised, hDone]
  refine .between (by simp [hLog, raised]) (hDue.trans hNone) ?_
  rw [hLog, records_self, hRecords, hHistory, hItem, flatMap_records_of_some hSome]

/-- **Step lemma**: what a thread does itself. -/
theorem Acted.phase (hAct : Acted OPTIONS routines s t act s') (hPhase : Phase OPTIONS s t)
    (h : Runs.Reachable Aux.system s.aux) (hT : t ≠ INVALID_THREADID) : Phase OPTIONS s' t := by
  cases hAct with
  | instruction x hBetween =>
    obtain ⟨hRaised, hRest⟩ := hPhase.at_rest h hT hBetween
    refine .comes_to hRest (Function.update_self ..) ?_ ?_
    · rw [hRaised, List.nil_append, s.due_update, x.reduceOption_calls, Item.events]
      simp only [Bool.and_eq_true, ite_and]
    · simp only [hRaised]
      rfl
  | @tells e rest aux hTodo hOn hStep =>
    cases Aux.step_cases hStep with
    | raise =>
      refine hPhase.tells ?_ rfl rfl
      rw [s.due_update, State.due, hTodo, if_pos hOn, if_pos hOn]
      rfl
  | @passes call rest hTodo hSilent =>
    refine hPhase.quiet rfl ?_ rfl
    rw [s.due_update, State.due, hTodo]
    rcases hSilent with rfl | hOff
    · rfl
    · simp only [hOff, Bool.false_eq_true, if_false]
  | raise hControlled hBetween hEnabled hStep =>
    obtain ⟨hRaised, hRest⟩ := hPhase.at_rest h hT hBetween
    cases Aux.step_cases hStep with
    | raise =>
      refine .comes_to hRest (Function.update_self ..) ?_ ?_
      · simp [State.due, hBetween.2, raised, hRaised, Item.events]
      · simp [records_self, raised, hRaised]
  | proceed hStep =>
    have hLog := Aux.step_cases hStep
    cases hLog <;> exact hPhase.quiet rfl rfl rfl
  | finish hStep =>
    cases Aux.step_cases hStep with
    | finish hLoc => exact hPhase.finish h hT hLoc rfl rfl rfl
  | callback hBetween hCall =>
    refine hPhase.quiet rfl ?_ rfl
    simp [State.due, hBetween.2]

/-- **Run lemma**. -/
theorem phase_reachable (h : Runs.ReachableUnder (system OPTIONS routines) (Undisturbed t) s)
    (hT : t ≠ INVALID_THREADID) : Phase OPTIONS s t := by
  refine h.invariant_of (P := fun s => Phase OPTIONS s t)
    (Q := fun s => Runs.Reachable Aux.system s.aux) (fun _ => reachable_aux) ?_ ?_
  · rintro s ⟨pin, rfl⟩
    refine .between rfl ?_ rfl
    rw [State.due]
    split <;> rfl
  · intro s label s' hAux hPhase hOk hStep
    cases label with
    | switch | monitor =>
      obtain rfl := Option.some.inj hStep
      refine hPhase.quiet rfl ?_ rfl
      simp [State.due, show s.todo t = [] from hOk]
    | thread u act =>
      have hAct := act_cases hStep
      by_cases hu : t = u
      · subst hu
        exact hAct.phase hPhase hAux hT
      · exact (hAct.other hT hu).phase hPhase

-- ---------------------------------------------------------------------------
-- What the predicates see
-- ---------------------------------------------------------------------------

theorem Item.events_instruction {x : Execution} {monitored : Bool}
    (hSome : (Item.instruction x monitored).events OPTIONS ≠ []) :
    (Item.instruction x monitored).events OPTIONS = x.accesses ++ [.MemAccessBefore] := by
  rw [Item.events] at hSome ⊢
  by_cases hTraced : (monitored && x.traced OPTIONS) = true
  · exact if_pos hTraced
  · exact absurd (if_neg hTraced) hSome

/-- All the accesses of an execution are left in the tables. -/
theorem kept_accesses (x : Execution) : Aux.Kept (x.accesses ++ [.MemAccessBefore]) := by
  refine Aux.kept_of_all fun e he => ?_
  simp only [Execution.accesses, List.mem_append, List.mem_map, List.mem_singleton] at he
  rcases he with (⟨_, -, rfl⟩ | ⟨_, -, rfl⟩) | rfl
  · exact decide_eq_true x.write_size
  · exact decide_eq_true x.read_size
  · rfl

/-- What leads to a transition is not an access. -/
theorem fact_of_controlled {e : Event} {k : Aux.Kind} {x : ADDRINT} (h : e.controlled = true)
    (hFact : e.fact = some (k, x)) : k ≠ .reads ∧ k ≠ .writes := by
  cases e <;> simp only [Event.fact, Option.some.injEq, Prod.mk.injEq, reduceCtorEq] at hFact
  case MemRead | MemWrite => cases h
  all_goals
    obtain ⟨rfl, -⟩ := hFact
    decide

/-- The predicates on accesses hold of the accesses of the item. -/
structure Sees (a : Aux.AuxState) (t : THREADID) (item : Item) : Prop where
  reads : ∀ x, Query.EvalState (.READS x) a t = true ↔ ∃ addr ∈ item.reads, x = 0 ∨ addr = x
  writes : ∀ x, Query.EvalState (.WRITES x) a t = true ↔ ∃ addr ∈ item.writes, x = 0 ∨ addr = x

/-- At a transition the predicates see the accesses of the instruction whose events have
been raised. -/
theorem sees_of_transition {a : Aux.State} {item : Item} (h : Runs.Reachable Aux.system a)
    (hIn : a.InTransition t) (hSome : item.events OPTIONS ≠ [])
    (hRaised : raised t a.log = item.events OPTIONS) : Sees a.aux t item := by
  have hAt := Aux.atTransition h hIn
  rw [hRaised] at hAt
  cases item with
  | instruction x monitored =>
    rw [Item.events_instruction hSome] at hAt
    have hExact := hAt.exact_iff.mpr (kept_accesses x)
    refine ⟨fun y => ?_, fun y => ?_⟩ <;> rw [Aux.evalState_iff, hExact] <;>
      simp [Query.Raised, Execution.accesses, Item.reads, Item.writes]
  | other e hControlled =>
    have hNone : ∀ k x, k = .reads ∨ k = .writes → (a.aux.facts t).recorded k x = false := by
      intro k x hk
      rw [hAt.recorded, Item.events, ← List.nil_append [e], Aux.lastWith_append, if_neg]
      · rfl
      · intro hFact
        obtain ⟨hReads, hWrites⟩ := fact_of_controlled hControlled hFact
        exact hk.elim hReads hWrites
    refine ⟨fun x => ?_, fun x => ?_⟩ <;>
      simp [Aux.evalState_iff, Aux.Facts.Says, Aux.Facts.Seen, hNone, Item.reads, Item.writes]

/-- What holds of a thread in every state reached. -/
structure Exact (OPTIONS : PinToolOptions) (s : State) (t : THREADID) : Prop where
  /-- at a transition: it is that of the last item, whose accesses the predicates see -/
  sees : ∀ e, s.aux.loc t = .transition e → ∃ item older, s.history t = item :: older ∧
    (item.events OPTIONS).getLast? = some e ∧ Sees s.aux.aux t item
  /-- between two instructions: each item has told its events and has had its transition -/
  recorded : s.Between t →
    records t s.aux.log = (s.history t).flatMap (Item.records OPTIONS)

/-- **The predicates on accesses are exact** in every run in which the thread is
undisturbed: at the transition of an instruction they hold of its own accesses, and at any
other transition of none. -/
theorem accesses_exact (OPTIONS : PinToolOptions) (routines : Routines) (s : State) (t : THREADID)
    (hT : t ≠ INVALID_THREADID)
    (h : Runs.ReachableUnder (system OPTIONS routines) (Undisturbed t) s) : Exact OPTIONS s t := by
  have hAux := reachable_aux h
  have hPhase := phase_reachable h hT
  refine ⟨fun e hLoc => ?_, fun hBetween => (hPhase.at_rest hAux hT hBetween).2⟩
  obtain ⟨item, older, hItem, -, hRaised, -⟩ := hPhase.at_transition hAux hT hLoc
  obtain ⟨done, hDone⟩ := raised_at hAux hT hLoc
  refine ⟨item, older, hItem, by simp [← hRaised, hDone], ?_⟩
  exact sees_of_transition hAux ⟨e, hLoc⟩ (by simp [← hRaised, hDone]) hRaised

/-- The state after steps of threads. -/
def State.run (OPTIONS : PinToolOptions) (routines : Routines) (s : State)
    (acts : List (THREADID × Act)) : Option State :=
  acts.foldlM (fun s a => s.act OPTIONS routines a.1 a.2) s

/-- A run given by its actions is a run of the system. -/
theorem reachable_run {acts : List (THREADID × Act)}
    (h : Runs.ReachableUnder (system OPTIONS routines) (Undisturbed t) s)
    (hRun : s.run OPTIONS routines acts = some s') :
    Runs.ReachableUnder (system OPTIONS routines) (Undisturbed t) s' := by
  induction acts generalizing s with
  | nil =>
    obtain rfl := Option.some.inj hRun
    exact h
  | cons a acts ih =>
    simp only [State.run, List.foldlM_cons, Option.bind_eq_bind, Option.bind_eq_some_iff] at hRun
    obtain ⟨s₁, hStep, hRun⟩ := hRun
    exact ih (h.step (i := .thread a.1 a.2) trivial hStep) hRun

/-- An instruction that adds to the four bytes at an address. -/
def addTo (addr : ADDRINT) : Execution where
  ins :=
    { IsStackRead := false, IsStackWrite := false, IsMemoryWrite := true, HasMemoryRead2 := false
      IsMemoryRead := true, IsPrefetch := false, HasFallThrough := true, IsBranchOrCall := false }
  MEMORYWRITE_EA := addr
  MEMORYWRITE_SIZE := 4
  MEMORYREAD2_EA := 0
  MEMORYREAD_EA := addr
  MEMORYREAD_SIZE := 4
  predicate := true
  taken := false
  write_size := by decide
  read_size := by decide

def allRoutines : Routines where
  InstrumentAllRoutines := true
  RTNIdsToInstrument := []
  RTNNamesToInstrument := []
  RTNNamesToSkip := []
  rtn_plt_addr := []

/-- Two threads come to an addition; the first is at its transition. -/
def addRun : List (THREADID × Act) :=
  [(2, .callback (.funcEnter 0)), (3, .callback (.funcEnter 0)), (2, .instruction (addTo 0x1000)),
    (2, .inserted), (3, .instruction (addTo 0x2000)), (3, .inserted), (2, .proceed), (2, .proceed),
    (2, .inserted), (2, .proceed), (3, .proceed), (2, .proceed), (2, .inserted), (2, .proceed)]

/-- The state after `concurritStartTest`. -/
def monitoring : State := { State.start ⟨true, fun _ => ⟨false, []⟩⟩ with enabled := true }

/-- Two threads come to an addition, and the first one is at its transition. -/
theorem accesses_exact_add :
    ∃ s, s.aux.loc 2 = .transition .MemAccessBefore ∧ Exact ⟨false⟩ s 2 := by
  obtain ⟨s, hRun, hLoc⟩ : ∃ s, monitoring.run ⟨false⟩ allRoutines addRun = some s ∧
      s.aux.loc 2 = .transition .MemAccessBefore := ⟨_, rfl, rfl⟩
  have hStart : Runs.ReachableUnder (system ⟨false⟩ allRoutines) (Undisturbed 2) monitoring :=
    .step (i := .monitor true) (.init ⟨_, rfl⟩) rfl rfl
  exact ⟨s, hLoc, accesses_exact ⟨false⟩ allRoutines s 2 (by decide) (reachable_run hStart hRun)⟩

end MemTrace

end Concurrit.Model
