import Mathlib.Data.List.AList
import Mathlib.Logic.Function.Basic
import Concurrit.Lib.Runs
import Concurrit.Model.EventPipe

/-!
# Concurrit — the auxiliary state of events

`AuxVar0` and `AuxVar1`, the tables that `PinMonitor` fills for each thread and
that the predicates `READS`, `WRITES`, `CALLS`, `ENTERS`, `RETURNS` and `HITS_PC`
look at, as a transition system: any number of threads raise events, and every
access to a table is a step of its own.
-/

namespace Concurrit.Model

open Function (update)

namespace Aux

open Ipc (THREADID ADDRINT INVALID_THREADID)

-- ---------------------------------------------------------------------------
-- Tables
-- ---------------------------------------------------------------------------

/-- A value for each thread; an absent entry is the undefined value. -/
structure AuxVar0 (T : Type) (undef_value : T) where
  map : THREADID → Option T
  defined : ∀ t v, map t = some v → v ≠ undef_value

namespace AuxVar0

variable {T : Type} [DecidableEq T] {undef_value : T}

def get (var : AuxVar0 T undef_value) (t : THREADID) : T := (var.map t).getD undef_value

def isset (var : AuxVar0 T undef_value) (t : THREADID) : Bool := var.get t != undef_value

def set (var : AuxVar0 T undef_value) (value : T) (t : THREADID) : AuxVar0 T undef_value where
  map := update var.map t (if value = undef_value then none else some value)
  defined u v hv := by
    by_cases hu : u = t
    · subst hu
      rw [Function.update_self] at hv
      split at hv
      · cases hv
      · rename_i hNe
        exact Option.some.inj hv ▸ hNe
    · rw [Function.update_of_ne hu] at hv
      exact var.defined u v hv

def reset (var : AuxVar0 T undef_value) (t : THREADID) : AuxVar0 T undef_value :=
  var.set undef_value t

/-- The table after `clear`. -/
def cleared : AuxVar0 T undef_value := ⟨fun _ => none, fun _ _ h => by cases h⟩

theorem get_set_self (var : AuxVar0 T undef_value) (value : T) (t : THREADID) :
    (var.set value t).get t = value := by
  simp only [get, set, Function.update_self]
  split
  · rename_i hEq
    exact hEq.symm
  · rfl

theorem get_set_of_ne (var : AuxVar0 T undef_value) (value : T) {t u : THREADID} (hu : u ≠ t) :
    (var.set value t).get u = var.get u := by
  simp only [get, set, Function.update_of_ne hu]

end AuxVar0

/-- A value for each thread and key. -/
structure AuxVar1 (K T : Type) [DecidableEq K] (undef_key : K) (undef_value : T) where
  map : THREADID → Option (AList fun _ : K => T)
  defined : ∀ t mm k v, map t = some mm → mm.lookup k = some v → v ≠ undef_value

namespace AuxVar1

variable {K T : Type} [DecidableEq K] [DecidableEq T] {undef_key : K} {undef_value : T}

def get (var : AuxVar1 K T undef_key undef_value) (key : K) (t : THREADID) : T :=
  match var.map t with
  | none => undef_value
  | some mm => (mm.lookup key).getD undef_value

/-- `isset` for one key. -/
def isset (var : AuxVar1 K T undef_key undef_value) (key : K) (t : THREADID) : Bool :=
  match var.map t with
  | none => false
  | some mm => (mm.lookup key).isSome

/-- `isset` for any key. -/
def issetAny (var : AuxVar1 K T undef_key undef_value) (t : THREADID) : Bool :=
  match var.map t with
  | none => false
  | some mm => !mm.keys.isEmpty

/-- `get_first_key`: the map is ordered by its keys. -/
def get_first_key [Min K] (var : AuxVar1 K T undef_key undef_value) (t : THREADID) : K :=
  match var.map t with
  | none => undef_key
  | some mm => mm.keys.min?.getD undef_key

/-- The keys of a thread after one of them is given a value. -/
def edit (undef_value : T) (mm : AList fun _ : K => T) (key : K) (value : T) :
    AList fun _ : K => T :=
  if value = undef_value then mm.erase key else mm.insert key value

/-- Editing the map of a thread: an entry with the default value is removed, since it would
not count as set. -/
theorem lookup_edit (mm : AList fun _ : K => T) (key k : K) (value : T) :
    (edit undef_value mm key value).lookup k =
      if k = key then (if value = undef_value then none else some value) else mm.lookup k := by
  unfold edit
  by_cases hk : k = key
  · subst hk
    rw [if_pos rfl]
    split
    · exact AList.lookup_erase k mm
    · exact AList.lookup_insert mm
  · rw [if_neg hk]
    split
    · exact AList.lookup_erase_ne hk
    · exact AList.lookup_insert_ne hk

/-- `set`; the undefined key fails the assertion. -/
def set (var : AuxVar1 K T undef_key undef_value) (key : K) (value : T) (t : THREADID) :
    Option (AuxVar1 K T undef_key undef_value) :=
  if key = undef_key then none
  else some {
    map := update var.map t (some (edit undef_value ((var.map t).getD ∅) key value))
    defined := by
      intro u mm k v hu hv
      by_cases hut : u = t
      · subst hut
        rw [Function.update_self] at hu
        obtain rfl := Option.some.inj hu
        rw [lookup_edit] at hv
        split at hv
        · split at hv
          · cases hv
          · rename_i hNe
            exact Option.some.inj hv ▸ hNe
        · cases hMap : var.map u with
          | none =>
            rw [hMap] at hv
            cases (AList.lookup_empty k).symm.trans hv
          | some mm =>
            rw [hMap] at hv
            exact var.defined u mm k v hMap hv
      · rw [Function.update_of_ne hut] at hu
        exact var.defined u mm k v hu hv }

def reset (var : AuxVar1 K T undef_key undef_value) (t : THREADID) :
    AuxVar1 K T undef_key undef_value where
  map := update var.map t ((var.map t).map fun _ => ∅)
  defined := by
    intro u mm k v hu hv
    by_cases hut : u = t
    · subst hut
      rw [Function.update_self] at hu
      obtain ⟨_, _, rfl⟩ := Option.map_eq_some_iff.mp hu
      cases (AList.lookup_empty k).symm.trans hv
    · rw [Function.update_of_ne hut] at hu
      exact var.defined u mm k v hu hv

/-- The table after `clear`. -/
def cleared : AuxVar1 K T undef_key undef_value := ⟨fun _ => none, fun _ _ _ _ h => by cases h⟩

variable {var var' : AuxVar1 K T undef_key undef_value} {key : K} {value : T} {t u : THREADID}

theorem key_of_set (h : var.set key value t = some var') : key ≠ undef_key := by
  intro hKey
  simp [set, hKey] at h

/-- `set` gives the key its value, the undefined value unsets it. -/
theorem isset_set_self (h : var.set key value t = some var') (k : K) :
    var'.isset k t = if k = key then decide (value ≠ undef_value) else var.isset k t := by
  simp only [set, if_neg (key_of_set h), Option.some.injEq] at h
  subst h
  simp only [isset, Function.update_self, lookup_edit]
  split
  · split <;> simp_all
  · cases hMap : var.map t with
    | none => rfl
    | some mm => rfl

theorem isset_set_of_ne (h : var.set key value t = some var') (hu : u ≠ t) (k : K) :
    var'.isset k u = var.isset k u := by
  simp only [set, if_neg (key_of_set h), Option.some.injEq] at h
  subst h
  simp only [isset, Function.update_of_ne hu]

omit [DecidableEq T] in
theorem isset_reset_self (k : K) : (var.reset t).isset k t = false := by
  simp only [isset, reset, Function.update_self]
  cases hMap : var.map t with
  | none => rfl
  | some mm => simp

omit [DecidableEq T] in
theorem isset_reset_of_ne (hu : u ≠ t) (k : K) : (var.reset t).isset k u = var.isset k u := by
  simp only [isset, reset, Function.update_of_ne hu]

omit [DecidableEq T] in
/-- `isset` without a key asks for any key with a value. -/
theorem issetAny_iff : var.issetAny t = true ↔ ∃ k, var.isset k t = true := by
  simp only [issetAny, isset]
  cases hMap : var.map t with
  | none => simp
  | some mm =>
    simp only [AList.lookup_isSome, AList.mem_keys, Bool.not_eq_true', List.isEmpty_eq_false_iff,
      List.ne_nil_iff_exists_cons]
    constructor
    · rintro ⟨k, ks, hk⟩
      exact ⟨k, by simp [hk]⟩
    · rintro ⟨k, hk⟩
      exact List.ne_nil_iff_exists_cons.mp (List.ne_nil_of_mem hk)

end AuxVar1

-- ---------------------------------------------------------------------------
-- Predicates on tables
-- ---------------------------------------------------------------------------

/-- `AuxVar0Pre` on a table, with the constant it compares with. -/
structure AuxVar0Pre (T : Type) where
  value : Option T

/-- `AuxVar0Pre::EvalState`: the result and the predicate afterwards, which may have captured
a value. -/
def AuxVar0Pre.EvalState {T : Type} [DecidableEq T] {undef_value : T} (p : AuxVar0Pre T)
    (var : AuxVar0 T undef_value) (tid : THREADID) : Bool × AuxVar0Pre T :=
  match p.value with
  | none => (var.isset tid, p)
  | some value =>
    if value = undef_value then
      if var.isset tid then (true, ⟨some (var.get tid)⟩) else (false, p)
    else if var.isset tid then (var.get tid == value, p)
    else (false, p)

/-- `AuxVar1Pre` on a table, with the constants for key and value. -/
structure AuxVar1Pre (K T : Type) where
  key : Option K
  value : Option T

/-- `AuxVar1Pre::EvalState`. Its assertions are left out: a predicate without a key has no value,
and one with a value has a key that is set. The factories make only such predicates from addresses
of functions, which are not null. -/
def AuxVar1Pre.EvalState {K T : Type} [DecidableEq K] [Min K] [DecidableEq T] {undef_key : K}
    {undef_value : T} (p : AuxVar1Pre K T) (var : AuxVar1 K T undef_key undef_value)
    (tid : THREADID) : Bool × AuxVar1Pre K T :=
  match p.key, p.value with
  | none, _ => (var.issetAny tid, p)
  | some key, none =>
    if key = undef_key then
      if var.issetAny tid then (true, { p with key := some (var.get_first_key tid) }) else (false, p)
    else (var.isset key tid, p)
  | some key, some value =>
    if value = undef_value then
      if var.isset key tid then (true, { p with value := some (var.get key tid) }) else (false, p)
    else if var.isset key tid then (var.get key tid == value, p)
    else (false, p)

-- ---------------------------------------------------------------------------
-- The tables of `AuxState`
-- ---------------------------------------------------------------------------

/-- `InFunc` and `NumInFunc` are tables of `int`, which cannot come near its bounds: they count the
activations of a function in one thread. -/
structure AuxState where
  Ends : AuxVar0 Bool false
  Reads : AuxVar1 ADDRINT UInt32 0 0
  Writes : AuxVar1 ADDRINT UInt32 0 0
  CallsFrom : AuxVar1 ADDRINT Bool 0 false
  CallsTo : AuxVar1 ADDRINT Bool 0 false
  Enters : AuxVar1 ADDRINT Bool 0 false
  Returns : AuxVar1 ADDRINT Bool 0 false
  InFunc : AuxVar1 ADDRINT Int 0 0
  NumInFunc : AuxVar1 ADDRINT Int 0 0
  Arg0 : AuxVar1 ADDRINT ADDRINT 0 0
  Arg1 : AuxVar1 ADDRINT ADDRINT 0 0
  RetVal : AuxVar1 ADDRINT ADDRINT 0 0
  Pc : AuxVar0 Int32 (-1)
  AtPc : AuxVar0 Bool false

namespace AuxState

def Reset (s : AuxState) (t : THREADID) : AuxState :=
  { s with
    Reads := s.Reads.reset t
    Writes := s.Writes.reset t
    CallsFrom := s.CallsFrom.reset t
    CallsTo := s.CallsTo.reset t
    Enters := s.Enters.reset t
    Returns := s.Returns.reset t
    AtPc := s.AtPc.reset t }

/-- The state after `Clear`. -/
def cleared : AuxState where
  Ends := .cleared
  Reads := .cleared
  Writes := .cleared
  CallsFrom := .cleared
  CallsTo := .cleared
  Enters := .cleared
  Returns := .cleared
  InFunc := .cleared
  NumInFunc := .cleared
  Arg0 := .cleared
  Arg1 := .cleared
  RetVal := .cleared
  Pc := .cleared
  AtPc := .cleared

end AuxState

/-- The predicates on the events of a thread, with the address or the program counter they are
called with. -/
inductive Query where
  | READS (x : ADDRINT)
  | WRITES (x : ADDRINT)
  | CALLS (f : ADDRINT)
  | ENTERS (f : ADDRINT)
  | RETURNS (f : ADDRINT)
  | HITS_PC (pc : Int32)
deriving DecidableEq, Repr

/-- `TP0` for the null address and `TP1` for the others. -/
def evalAccess (var : AuxVar1 ADDRINT UInt32 0 0) (x : ADDRINT) (tid : THREADID) : Bool :=
  if x = 0 then ((AuxVar1Pre.mk none none).EvalState var tid).1
  else ((AuxVar1Pre.mk (some x) none).EvalState var tid).1

/-- `TP0` for the null address and `TP3` with the value true for the others. -/
def evalFunc (var : AuxVar1 ADDRINT Bool 0 false) (f : ADDRINT) (tid : THREADID) : Bool :=
  if f = 0 then ((AuxVar1Pre.mk none none).EvalState var tid).1
  else ((AuxVar1Pre.mk (some f) (some true)).EvalState var tid).1

/-- The predicate evaluated for a thread. -/
def Query.EvalState (q : Query) (s : AuxState) (tid : THREADID) : Bool :=
  match q with
  | READS x => evalAccess s.Reads x tid
  | WRITES x => evalAccess s.Writes x tid
  | CALLS f => evalFunc s.CallsTo f tid
  | ENTERS f => evalFunc s.Enters f tid
  | RETURNS f => evalFunc s.Returns f tid
  | HITS_PC pc =>
    if pc < 0 then ((AuxVar0Pre.mk none).EvalState s.AtPc tid).1
    else ((AuxVar0Pre.mk none).EvalState s.AtPc tid).1 &&
      ((AuxVar0Pre.mk (some pc)).EvalState s.Pc tid).1

-- ---------------------------------------------------------------------------
-- Events
-- ---------------------------------------------------------------------------

/-- The callbacks of `PinMonitor` for a thread. -/
inductive Event where
  | MemAccessBefore
  | MemWrite (addr : ADDRINT) (size : UInt32)
  | MemRead (addr : ADDRINT) (size : UInt32)
  | FuncCall (addr_src addr_target arg0 arg1 : ADDRINT)
  | FuncEnter (addr arg0 arg1 : ADDRINT)
  | FuncReturn (addr retval : ADDRINT)
  | ThreadEnd
  | AtPc (pc : Int32)
deriving DecidableEq, Repr

/-- One access of a callback to a table. -/
inductive AuxOp where
  | setWrites (addr : ADDRINT) (size : UInt32)
  | setReads (addr : ADDRINT) (size : UInt32)
  | setCallsFrom (addr : ADDRINT)
  | setCallsTo (addr : ADDRINT)
  | setEnters (addr : ADDRINT)
  | setReturns (addr : ADDRINT)
  /-- the current value, incremented -/
  | incInFunc (addr : ADDRINT)
  | incNumInFunc (addr : ADDRINT)
  | setInFunc (addr : ADDRINT) (c : Int)
  | setArg0 (addr arg0 : ADDRINT)
  | setArg1 (addr arg1 : ADDRINT)
  | setRetVal (addr retval : ADDRINT)
  | setEnds
  | setPc (pc : Int32)
  | setAtPc
deriving DecidableEq, Repr

/-- The effect of an access by a thread; `none` when an assertion fails. -/
def AuxOp.apply (o : AuxOp) (tid : THREADID) (s : AuxState) : Option AuxState :=
  match o with
  | setWrites addr size => (s.Writes.set addr size tid).map fun v => { s with Writes := v }
  | setReads addr size => (s.Reads.set addr size tid).map fun v => { s with Reads := v }
  -- `set(addr_src, current->tid())`: the thread is given as the value, and the thread of the
  -- entry is the default one
  | setCallsFrom addr =>
    (s.CallsFrom.set addr (tid != 0) INVALID_THREADID).map fun v => { s with CallsFrom := v }
  | setCallsTo addr =>
    (s.CallsTo.set addr (tid != 0) INVALID_THREADID).map fun v => { s with CallsTo := v }
  | setEnters addr => (s.Enters.set addr true tid).map fun v => { s with Enters := v }
  | setReturns addr => (s.Returns.set addr true tid).map fun v => { s with Returns := v }
  | incInFunc addr =>
    let c := s.InFunc.get addr tid
    if c < 0 then none
    else (s.InFunc.set addr (c + 1) tid).map fun v => { s with InFunc := v }
  | incNumInFunc addr =>
    let c := s.NumInFunc.get addr tid
    if c < 0 then none
    else (s.NumInFunc.set addr (c + 1) tid).map fun v => { s with NumInFunc := v }
  | setInFunc addr c => (s.InFunc.set addr c tid).map fun v => { s with InFunc := v }
  | setArg0 addr arg0 => (s.Arg0.set addr arg0 tid).map fun v => { s with Arg0 := v }
  | setArg1 addr arg1 => (s.Arg1.set addr arg1 tid).map fun v => { s with Arg1 := v }
  | setRetVal addr retval => (s.RetVal.set addr retval tid).map fun v => { s with RetVal := v }
  | setEnds => if s.Ends.isset tid then none else some { s with Ends := s.Ends.set true tid }
  | setPc pc => some { s with Pc := s.Pc.set pc tid }
  | setAtPc => some { s with AtPc := s.AtPc.set true tid }

namespace Event

/-- What a callback does before `OnControlledTransition`. -/
def before : Event → List AuxOp
  | MemAccessBefore => []
  | MemWrite addr size => [.setWrites addr size]
  | MemRead addr size => [.setReads addr size]
  | FuncCall addr_src addr_target arg0 arg1 =>
    [.setCallsFrom addr_src, .setCallsTo addr_target, .setArg0 addr_target arg0,
      .setArg1 addr_target arg1]
  | FuncEnter addr arg0 arg1 =>
    [.setEnters addr, .incInFunc addr, .incNumInFunc addr, .setArg0 addr arg0, .setArg1 addr arg1]
  | FuncReturn addr retval => [.setReturns addr, .setRetVal addr retval]
  | ThreadEnd => [.setEnds]
  | AtPc pc => [.setPc pc, .setAtPc]

/-- The callback calls `OnControlledTransition`. -/
def controlled : Event → Bool
  | MemWrite .. => false
  | MemRead .. => false
  | _ => true

/-- What a callback does afterwards, given the tables when it reads them. -/
def after (e : Event) (tid : THREADID) (s : AuxState) : List AuxOp :=
  match e with
  | FuncReturn addr _ =>
    let c := s.InFunc.get addr tid
    if c = 0 then [] else [.setInFunc addr (c - 1), .setArg0 addr 0, .setArg1 addr 0]
  | _ => []

end Event

-- ---------------------------------------------------------------------------
-- The system
-- ---------------------------------------------------------------------------

/-- Where a thread stands. -/
inductive Loc where
  | idle
  /-- in a callback, with these accesses to go -/
  | before (e : Event) (ops : List AuxOp)
  /-- in `OnControlledTransition`, where the predicates are evaluated -/
  | transition (e : Event)
  /-- back from `OnControlledTransition` -/
  | finished (e : Event)
  | after (ops : List AuxOp)
deriving DecidableEq, Repr

inductive Record where
  | raised (e : Event)
  /-- `FinishControlledTransition` -/
  | finished
deriving DecidableEq, Repr

structure State where
  aux : AuxState
  loc : THREADID → Loc
  /-- what has happened, the newest first; not known to the code -/
  log : List (THREADID × Record)

inductive Act where
  | raise (e : Event)
  /-- the thread goes on in its callback -/
  | proceed
  | finish
deriving DecidableEq, Repr

namespace State

def start : State := ⟨.cleared, fun _ => .idle, []⟩

/-- Thread `t` does one step. -/
def step (s : State) (t : THREADID) : Act → Option State
  | .raise e =>
    match s.loc t with
    | .idle =>
      if t = INVALID_THREADID then none
      else some { s with loc := update s.loc t (.before e e.before), log := (t, .raised e) :: s.log }
    | _ => none
  | .proceed =>
    match s.loc t with
    | .before e (o :: ops) =>
      (o.apply t s.aux).map fun aux => { s with aux := aux, loc := update s.loc t (.before e ops) }
    | .before e [] =>
      some { s with loc := update s.loc t (if e.controlled then .transition e else .idle) }
    | .finished e => some { s with loc := update s.loc t (.after (e.after t s.aux)) }
    | .after (o :: ops) =>
      (o.apply t s.aux).map fun aux => { s with aux := aux, loc := update s.loc t (.after ops) }
    | .after [] => some { s with loc := update s.loc t .idle }
    | _ => none
  | .finish =>
    match s.loc t with
    | .transition e =>
      some { s with
        aux := s.aux.Reset t, loc := update s.loc t (.finished e), log := (t, .finished) :: s.log }
    | _ => none

end State

def system : Runs.System State (THREADID × Act) where
  init s := s = .start
  step s a s' := s.step a.1 a.2 = some s'

/-- What thread `t` has done itself. -/
def own (t : THREADID) (log : List (THREADID × Record)) : List (THREADID × Record) :=
  log.filter fun r => r.1 = t

/-- The events `t` has raised since its previous finished transition, the oldest first. -/
def raised (t : THREADID) : List (THREADID × Record) → List Event
  | [] => []
  | (u, r) :: log =>
    if u = t then
      match r with
      | .raised e => raised t log ++ [e]
      | .finished => []
    else raised t log

end Aux

end Concurrit.Model
