import Concurrit.Model.Locality

/-!
# Concurrit — what is recorded of calls

`PinMonitor::FuncEnter` and `FuncReturn` keep, for each thread and function, the
number of open activations (`InFunc`), the number of entries (`NumInFunc`) and the
arguments of a call (`Arg0`, `Arg1`). `callsTracked` says that these entries of a
thread are those its own events leave, whatever the other threads do.

`FuncReturn` updates the tables after its controlled transition: the events that
have taken place (`State.passed`) do not include a return that is still offered.
-/

namespace Concurrit.Model

open Function (update)

namespace Aux

open Ipc (THREADID ADDRINT INVALID_THREADID)

variable {s s' : State} {t u : THREADID} {aux aux' : AuxState} {o : AuxOp} {e : Event}
  {act : Act} {f g : ADDRINT}

-- ---------------------------------------------------------------------------
-- Values of a table
-- ---------------------------------------------------------------------------

namespace AuxVar1

variable {K T : Type} [DecidableEq K] [DecidableEq T] {undef_key : K} {undef_value : T}
  {var var' : AuxVar1 K T undef_key undef_value} {key : K} {value : T}

/-- Setting an entry of the thread itself changes exactly this entry. -/
theorem get_set_self (h : var.set key value t = some var') :
    (fun k => var'.get k t) = update (fun k => var.get k t) key value := by
  simp only [set, if_neg (key_of_set h), Option.some.injEq] at h
  subst h
  funext k
  rw [Function.update_apply]
  simp only [get, Function.update_self, lookup_edit]
  split
  · split <;> simp_all
  · cases hMap : var.map t with
    | none => rfl
    | some mm => rfl

theorem get_set_of_ne (h : var.set key value t = some var') (hu : u ≠ t) (k : K) :
    var'.get k u = var.get k u := by
  simp only [set, if_neg (key_of_set h), Option.some.injEq] at h
  subst h
  simp only [get, Function.update_of_ne hu]

omit [DecidableEq T] in
/-- An entry is set when its value is not the undefined one. -/
theorem isset_iff_get (k : K) : var.isset k t = true ↔ var.get k t ≠ undef_value := by
  unfold isset get
  cases hMap : var.map t with
  | none => simp
  | some mm =>
    cases hv : mm.lookup k with
    | none => simp [hv]
    | some v => simpa [hv] using var.defined t mm k v hMap hv

end AuxVar1

-- ---------------------------------------------------------------------------
-- The entries of a thread
-- ---------------------------------------------------------------------------

/-- What the tables of calls hold for one thread. -/
structure Calls where
  inFunc : ADDRINT → Int
  numInFunc : ADDRINT → Int
  arg0 : ADDRINT → ADDRINT
  arg1 : ADDRINT → ADDRINT

def Calls.none : Calls := ⟨fun _ => 0, fun _ => 0, fun _ => 0, fun _ => 0⟩

def AuxState.calls (aux : AuxState) (t : THREADID) : Calls where
  inFunc f := aux.InFunc.get f t
  numInFunc f := aux.NumInFunc.get f t
  arg0 f := aux.Arg0.get f t
  arg1 f := aux.Arg1.get f t

/-- What an access does to the entries of its thread. -/
def AuxOp.onCalls (c : Calls) : AuxOp → Calls
  | incInFunc f => { c with inFunc := update c.inFunc f (c.inFunc f + 1) }
  | incNumInFunc f => { c with numInFunc := update c.numInFunc f (c.numInFunc f + 1) }
  | setInFunc f n => { c with inFunc := update c.inFunc f n }
  | setArg0 f a => { c with arg0 := update c.arg0 f a }
  | setArg1 f a => { c with arg1 := update c.arg1 f a }
  | _ => c

/-- **An access of a thread** has its effect on the entries of that thread. -/
theorem calls_apply_self (h : o.apply t aux = some aux') : aux'.calls t = o.onCalls (aux.calls t) := by
  cases o <;> simp only [AuxOp.apply, Option.map_eq_some_iff] at h
  case incInFunc | incNumInFunc =>
    simp only [Option.ite_none_left_eq_some, Option.map_eq_some_iff] at h
    obtain ⟨_, v, hv, rfl⟩ := h
    simp only [AuxState.calls, AuxOp.onCalls, AuxVar1.get_set_self hv]
  case setInFunc | setArg0 | setArg1 =>
    obtain ⟨v, hv, rfl⟩ := h
    simp only [AuxState.calls, AuxOp.onCalls, AuxVar1.get_set_self hv]
  case setEnds =>
    simp only [Option.ite_none_left_eq_some, Option.some.injEq] at h
    obtain ⟨_, rfl⟩ := h
    rfl
  case setPc | setAtPc =>
    obtain rfl := Option.some.inj h
    rfl
  all_goals
    obtain ⟨v, hv, rfl⟩ := h
    rfl

/-- **An access of another thread** does not change them. -/
theorem calls_apply_of_ne (hu : t ≠ u) (h : o.apply u aux = some aux') :
    aux'.calls t = aux.calls t := by
  cases o <;> simp only [AuxOp.apply, Option.map_eq_some_iff] at h
  case incInFunc | incNumInFunc =>
    simp only [Option.ite_none_left_eq_some, Option.map_eq_some_iff] at h
    obtain ⟨_, v, hv, rfl⟩ := h
    simp only [AuxState.calls, AuxVar1.get_set_of_ne hv hu]
  case setInFunc | setArg0 | setArg1 =>
    obtain ⟨v, hv, rfl⟩ := h
    simp only [AuxState.calls, AuxVar1.get_set_of_ne hv hu]
  case setEnds =>
    simp only [Option.ite_none_left_eq_some, Option.some.injEq] at h
    obtain ⟨_, rfl⟩ := h
    rfl
  case setPc | setAtPc =>
    obtain rfl := Option.some.inj h
    rfl
  all_goals
    obtain ⟨v, hv, rfl⟩ := h
    rfl

-- ---------------------------------------------------------------------------
-- The events of a thread and its entries
-- ---------------------------------------------------------------------------

/-- What a whole callback does to the entries of its thread. -/
def Event.onCalls (c : Calls) : Event → Calls
  | FuncReturn f _ =>
    -- an unmatched return leaves everything as it is
    if c.inFunc f = 0 then c
    else { c with
      inFunc := update c.inFunc f (c.inFunc f - 1), arg0 := update c.arg0 f 0,
      arg1 := update c.arg1 f 0 }
  | e => e.before.foldl AuxOp.onCalls c

/-- The events `t` has raised, the oldest first. -/
def events (t : THREADID) : List (THREADID × Record) → List Event
  | [] => []
  | (u, r) :: log =>
    if u = t then
      match r with
      | .raised e => events t log ++ [e]
      | .finished => events t log
    else events t log

def Event.isReturn : Event → Bool
  | FuncReturn .. => true
  | _ => false

/-- The event a thread is at, up to the end of its controlled transition. -/
def Loc.event : Loc → Option Event
  | .before e _ => some e
  | .transition e => some e
  | .finished e => some e
  | _ => none

/-- A return whose controlled transition is not over. -/
def Loc.returning (l : Loc) : Bool := l.event.any Event.isReturn

/-- The events of a thread that have taken place. -/
def State.passed (s : State) (t : THREADID) : List Event :=
  if (s.loc t).returning then (events t s.log).dropLast else events t s.log

/-- The entries of a thread, once its callback is done, are those its events leave. -/
structure CallsTracked (s : State) (t : THREADID) : Prop where
  calls : (s.loc t).pending.foldl AuxOp.onCalls (s.aux.calls t) =
    (s.passed t).foldl Event.onCalls .none
  last  : ∀ e, (s.loc t).event = some e → ∃ es, events t s.log = es ++ [e]

theorem before_return (c : Calls) (h : e.isReturn = true) : e.before.foldl AuxOp.onCalls c = c := by
  cases e
  all_goals first
    | rfl
    | cases h

theorem onCalls_of_not_return (c : Calls) (h : e.isReturn = false) :
    e.onCalls c = e.before.foldl AuxOp.onCalls c := by
  cases e
  all_goals first
    | rfl
    | cases h

/-- The accesses after the transition complete the effect of the callback. -/
theorem onCalls_after (e : Event) (t : THREADID) (aux : AuxState) :
    (e.after t aux).foldl AuxOp.onCalls (aux.calls t) =
      if e.isReturn then e.onCalls (aux.calls t) else aux.calls t := by
  cases e with
  | FuncReturn f retval =>
    rw [if_pos (show (Event.FuncReturn f retval).isReturn = true from rfl)]
    by_cases hZero : aux.InFunc.get f t = 0
    · simp only [Event.after, hZero, if_true, Event.onCalls,
        show (aux.calls t).inFunc f = 0 from hZero, List.foldl_nil]
    · simp only [Event.after, hZero, if_false, Event.onCalls,
        show (aux.calls t).inFunc f ≠ 0 from hZero]
      rfl
  | _ => rfl

theorem calls_reset (aux : AuxState) (t u : THREADID) : (aux.Reset u).calls t = aux.calls t := rfl

/-- **Step lemma** for the entries of a thread. -/
theorem Stepped.callsTracked (h : Stepped s u act s') (hTr : CallsTracked s t) :
    CallsTracked s' t := by
  obtain ⟨hCalls, hLast⟩ := hTr
  by_cases hu : t = u
  · subst hu
    cases h with
    | raise x hLoc =>
      rw [hLoc] at hCalls
      have hIdle : s.passed t = events t s.log := by
        unfold State.passed
        rw [hLoc]
        rfl
      rw [hIdle] at hCalls
      have hCalls : s.aux.calls t = (events t s.log).foldl Event.onCalls .none := hCalls
      refine ⟨?_, ?_⟩
      · simp only [State.passed, Function.update_self, Loc.pending, Loc.returning, Loc.event,
          Option.any_some, events, if_true]
        cases hRet : x.isReturn with
        | true =>
          rw [before_return _ hRet, if_pos rfl, List.dropLast_concat, hCalls]
        | false =>
          rw [if_neg Bool.false_ne_true, List.foldl_append, ← hCalls]
          exact (onCalls_of_not_return _ hRet).symm
      · intro e he
        simp only [Function.update_self, Loc.event, Option.some.injEq] at he
        subst he
        exact ⟨events t s.log, by simp [events]⟩
    | @access x a ops m hLoc hApply =>
      rw [hLoc] at hCalls hLast
      refine ⟨?_, ?_⟩
      · simp only [State.passed, hLoc, Loc.returning, Loc.event, Loc.pending, List.foldl_cons,
          ← calls_apply_self hApply] at hCalls
        simpa only [State.passed, Function.update_self, Loc.pending, Loc.returning, Loc.event] using
          hCalls
      · intro e he
        simp only [Function.update_self] at he
        exact hLast e he
    | @enter x hLoc hCtl =>
      rw [hLoc] at hCalls hLast
      refine ⟨?_, ?_⟩
      · simp only [State.passed, hLoc, Loc.returning, Loc.event, Loc.pending] at hCalls
        simpa only [State.passed, Function.update_self, Loc.pending, Loc.returning, Loc.event] using
          hCalls
      · intro e he
        simp only [Function.update_self] at he
        exact hLast e he
    | @leave x hLoc hCtl =>
      rw [hLoc] at hCalls
      have hRet : x.isReturn = false := by
        cases x
        all_goals first
          | rfl
          | cases hCtl
      refine ⟨?_, ?_⟩
      · simp only [State.passed, hLoc, Loc.returning, Loc.event, Loc.pending, Option.any_some,
          hRet] at hCalls
        simpa only [State.passed, Function.update_self, Loc.pending, Loc.returning, Loc.event,
          Option.any_none] using hCalls
      · intro e he
        simp [Loc.event] at he
    | @resume x hLoc =>
      rw [hLoc] at hCalls hLast
      refine ⟨?_, ?_⟩
      · simp only [State.passed, Function.update_self, Loc.pending, Loc.returning, Loc.event,
          Option.any_none, Bool.false_eq_true, if_false, onCalls_after]
        obtain ⟨es, hEs⟩ := hLast x rfl
        simp only [State.passed, hLoc, Loc.returning, Loc.event, Loc.pending, Option.any_some,
          hEs, List.dropLast_concat, List.foldl_nil] at hCalls
        rw [hEs]
        cases hRet : x.isReturn with
        | true =>
          rw [hRet, if_pos rfl] at hCalls
          rw [if_pos rfl, hCalls, List.foldl_append]
          rfl
        | false =>
          rw [hRet, if_neg Bool.false_ne_true] at hCalls
          rw [if_neg Bool.false_ne_true, hCalls]
      · intro e he
        simp [Loc.event] at he
    | @accessAfter a ops m hLoc hApply =>
      rw [hLoc] at hCalls
      refine ⟨?_, ?_⟩
      · simp only [State.passed, hLoc, Loc.returning, Loc.event, Loc.pending, List.foldl_cons,
          ← calls_apply_self hApply] at hCalls
        simpa only [State.passed, Function.update_self, Loc.pending, Loc.returning, Loc.event] using
          hCalls
      · intro e he
        simp [Loc.event] at he
    | «return» hLoc =>
      rw [hLoc] at hCalls
      refine ⟨?_, ?_⟩
      · simp only [State.passed, hLoc, Loc.returning, Loc.event, Loc.pending] at hCalls
        simpa only [State.passed, Function.update_self, Loc.pending, Loc.returning, Loc.event] using
          hCalls
      · intro e he
        simp [Loc.event] at he
    | @finish x hLoc =>
      rw [hLoc] at hCalls hLast
      refine ⟨?_, ?_⟩
      · simp only [State.passed, hLoc, Loc.returning, Loc.event, Loc.pending] at hCalls
        simpa only [State.passed, Function.update_self, Loc.pending, Loc.returning, Loc.event, events,
          if_true, calls_reset] using hCalls
      · intro e he
        simp only [Function.update_self] at he
        simpa only [events, if_true] using hLast e he
  · have hu' : u ≠ t := fun h => hu h.symm
    have hSame : s'.loc t = s.loc t ∧ events t s'.log = events t s.log ∧
        s'.aux.calls t = s.aux.calls t := by
      cases h with
      | raise x => exact ⟨Function.update_of_ne hu .., by simp [events, hu'], rfl⟩
      | access hLoc hApply =>
        exact ⟨Function.update_of_ne hu .., rfl, calls_apply_of_ne hu hApply⟩
      | accessAfter hLoc hApply =>
        exact ⟨Function.update_of_ne hu .., rfl, calls_apply_of_ne hu hApply⟩
      | finish hLoc => exact ⟨Function.update_of_ne hu .., by simp [events, hu'], rfl⟩
      | enter | leave | resume | «return» => exact ⟨Function.update_of_ne hu .., rfl, rfl⟩
    obtain ⟨hLoc, hEvents, hAux⟩ := hSame
    refine ⟨?_, ?_⟩
    · rw [hLoc, hAux, hCalls]
      simp only [State.passed, hLoc, hEvents]
    · rw [hLoc, hEvents]
      exact hLast

/-- **Run lemma**: the entries of a thread are those its own events leave. -/
theorem callsTracked (h : Runs.Reachable system s) (t : THREADID) : CallsTracked s t := by
  refine h.invariant (P := fun s => CallsTracked s t) ?_ ?_
  · rintro s rfl
    exact ⟨rfl, fun e he => by simp [State.start, Loc.event] at he⟩
  · intro s a s' hTr _ hStep
    exact (step_cases hStep).callsTracked hTr

/-- No access of the thread is under way: it runs its own code, or is offered for a
transition, where the predicates are evaluated. -/
def State.AtRest (s : State) (t : THREADID) : Prop := s.loc t = .idle ∨ ∃ e, s.loc t = .transition e

/-- **Between two events the tables of a thread are what its past events have made of
them**, one after the other. -/
theorem calls_atRest (h : Runs.Reachable system s) (hRest : s.AtRest t) :
    s.aux.calls t = (s.passed t).foldl Event.onCalls .none := by
  rw [← (callsTracked h t).calls]
  rcases hRest with hLoc | ⟨e, hLoc⟩
  · rw [hLoc]
    rfl
  · rw [hLoc]
    rfl

end Aux

end Concurrit.Model
