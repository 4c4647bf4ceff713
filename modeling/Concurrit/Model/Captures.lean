import Concurrit.Lib.Formula
import Concurrit.Model.Activations

/-!
# Concurrit — capture variables

Event predicates with a variable in place of a constant (`AVAR`) bind it when they are
evaluated: `AuxVar0Pre` and `AuxVar1Pre` assign the recorded value to an unset variable
and are true then. Conjunctions, disjunctions and negations evaluate their parts from
left to right and undo nothing, so a predicate that is false has bound the variables of
the parts that were true before it failed. `failed_binds` says which variables these are,
and which predicates leave none.
-/

namespace Concurrit.Model

open Function (update)
open Formulas (Formula)

namespace Aux

open Ipc (THREADID ADDRINT INVALID_THREADID)

/-- The values of the variables a predicate refers to, each an `AuxConst0`. A constant
is a variable of its own. -/
structure Vars where
  addr : Nat → ADDRINT
  pc : Nat → Int32

namespace Vars

/-- No variable has a value. -/
def unset : Vars := ⟨fun _ => 0, fun _ => -1⟩

def setAddr (vars : Vars) (x : Nat) (v : ADDRINT) : Vars := { vars with addr := update vars.addr x v }

def setPc (vars : Vars) (x : Nat) (v : Int32) : Vars := { vars with pc := update vars.pc x v }

end Vars

/-- An event predicate, for the thread it is called with or, without one, the thread of
the transition (`TID`). -/
inductive EventPred where
  /-- predicates without variables -/
  | query (q : Query) (t : Option THREADID)
  | inFunc (f : ADDRINT) (k : Int) (t : Option THREADID)
  /-- `_WITH_ARG0` and `_WITH_ARG1`: `TP5` -/
  | withArg (i : ArgIndex) (f : ADDRINT) (x : Nat) (t : Option THREADID)
  /-- `TP2` of the arguments: the variable is the function -/
  | argOf (i : ArgIndex) (x : Nat) (t : Option THREADID)
  /-- `TP2` of `Pc` -/
  | atPc (x : Nat) (t : Option THREADID)
deriving DecidableEq, Repr

/-- `EvalState` for the transition of thread `tid`. -/
def EventPred.EvalState (aux : AuxState) (tid : THREADID) (e : EventPred) (vars : Vars) :
    Bool × Vars :=
  match e with
  | query q t => (q.EvalState aux (t.getD tid), vars)
  | inFunc f k t => (IN_FUNC f k aux (t.getD tid), vars)
  | withArg i f x t =>
    let r := (WITH_ARG f (vars.addr x)).EvalState (aux.args i) (t.getD tid)
    (r.1, vars.setAddr x (r.2.value.getD 0))
  | argOf i x t =>
    let r := (AuxVar1Pre.mk (some (vars.addr x)) none).EvalState (aux.args i) (t.getD tid)
    (r.1, vars.setAddr x (r.2.key.getD 0))
  | atPc x t =>
    let r := (AuxVar0Pre.mk (some (vars.pc x))).EvalState aux.Pc (t.getD tid)
    (r.1, vars.setPc x (r.2.value.getD (-1)))

/-- The predicate has no variable to bind. -/
def EventPred.Quiet : EventPred → Prop
  | query .. => True
  | inFunc .. => True
  | _ => False

/-- `EvalState` of a predicate. -/
def evalPred (aux : AuxState) (tid : THREADID) (p : Formula EventPred) (vars : Vars) : Bool × Vars :=
  p.eval (EventPred.EvalState aux tid) vars

variable {aux : AuxState} {tid : THREADID} {e : EventPred} {vars vars' : Vars}

@[simp] theorem setAddr_self (vars : Vars) (x : Nat) : vars.setAddr x (vars.addr x) = vars := by
  simp [Vars.setAddr]

@[simp] theorem setPc_self (vars : Vars) (x : Nat) : vars.setPc x (vars.pc x) = vars := by
  simp [Vars.setPc]

/-- A variable that has changed had no value, and has one recorded for some thread: an
argument of a function, a function with arguments, or a program counter. -/
structure Recorded (aux : AuxState) (vars vars' : Vars) : Prop where
  addr : ∀ x, vars'.addr x ≠ vars.addr x → vars.addr x = 0 ∧ ∃ i t,
    (∃ f, (aux.args i).isset f t = true ∧ vars'.addr x = (aux.args i).get f t) ∨
      (aux.args i).issetAny t = true ∧ vars'.addr x = (aux.args i).get_first_key t
  pc : ∀ x, vars'.pc x ≠ vars.pc x → vars.pc x = -1 ∧ ∃ t, aux.Pc.isset t = true ∧
    vars'.pc x = aux.Pc.get t

/-- An event predicate binds an unset variable to what is recorded, when it is true. -/
inductive Bound (aux : AuxState) (vars : Vars) : Bool × Vars → Prop where
  | none (b : Bool) : Bound aux vars (b, vars)
  | argument (x : Nat) (i : ArgIndex) (f : ADDRINT) (t : THREADID) (hUnset : vars.addr x = 0)
      (hSet : (aux.args i).isset f t = true) :
      Bound aux vars (true, vars.setAddr x ((aux.args i).get f t))
  | callee (x : Nat) (i : ArgIndex) (t : THREADID) (hUnset : vars.addr x = 0)
      (hSet : (aux.args i).issetAny t = true) :
      Bound aux vars (true, vars.setAddr x ((aux.args i).get_first_key t))
  | pc (x : Nat) (t : THREADID) (hUnset : vars.pc x = -1) (hSet : aux.Pc.isset t = true) :
      Bound aux vars (true, vars.setPc x (aux.Pc.get t))

/-- **The event predicates**, one case a kind. -/
theorem bound_event (aux : AuxState) (tid : THREADID) (e : EventPred) (vars : Vars) :
    Bound aux vars (e.EvalState aux tid vars) := by
  cases e with
  | query q t => exact .none _
  | inFunc f k t => exact .none _
  | withArg i f x t =>
    simp only [EventPred.EvalState, WITH_ARG, AuxVar1Pre.EvalState]
    by_cases hUnset : vars.addr x = 0
    · rw [if_pos hUnset]
      split
      · rename_i hSet
        exact .argument x i f _ hUnset hSet
      · simpa using (.none false : Bound aux vars (false, vars))
    · rw [if_neg hUnset]
      split
      · simpa using (.none _ : Bound aux vars (_, vars))
      · simpa using (.none false : Bound aux vars (false, vars))
  | argOf i x t =>
    simp only [EventPred.EvalState, AuxVar1Pre.EvalState]
    by_cases hUnset : vars.addr x = 0
    · rw [if_pos hUnset]
      split
      · rename_i hSet
        exact .callee x i _ hUnset hSet
      · simpa using (.none false : Bound aux vars (false, vars))
    · rw [if_neg hUnset]
      simpa using (.none _ : Bound aux vars (_, vars))
  | atPc x t =>
    simp only [EventPred.EvalState, AuxVar0Pre.EvalState]
    by_cases hUnset : vars.pc x = -1
    · rw [if_pos hUnset]
      split
      · rename_i hSet
        exact .pc x _ hUnset hSet
      · simpa using (.none false : Bound aux vars (false, vars))
    · rw [if_neg hUnset]
      split
      · simpa using (.none _ : Bound aux vars (_, vars))
      · simpa using (.none false : Bound aux vars (false, vars))

theorem Bound.unchanged {r : Bool × Vars} (h : Bound aux vars r) (hFalse : r.1 = false) :
    r.2 = vars := by
  cases h with
  | none => rfl
  | argument => cases hFalse
  | callee => cases hFalse
  | pc => cases hFalse

/-- What a predicate has bound comes from the tables of the thread. -/
theorem Bound.recorded {r : Bool × Vars} (h : Bound aux vars r) : Recorded aux vars r.2 := by
  cases h with
  | none => exact ⟨fun x hx => absurd rfl hx, fun x hx => absurd rfl hx⟩
  | argument x i f t hUnset hSet =>
    refine ⟨fun y hy => ?_, fun y hy => absurd rfl hy⟩
    by_cases hyx : y = x
    · subst hyx
      exact ⟨hUnset, i, t, Or.inl ⟨f, hSet, Function.update_self ..⟩⟩
    · exact absurd (Function.update_of_ne hyx ..) hy
  | callee x i t hUnset hSet =>
    refine ⟨fun y hy => ?_, fun y hy => absurd rfl hy⟩
    by_cases hyx : y = x
    · subst hyx
      exact ⟨hUnset, i, t, Or.inr ⟨hSet, Function.update_self ..⟩⟩
    · exact absurd (Function.update_of_ne hyx ..) hy
  | pc x t hUnset hSet =>
    refine ⟨fun y hy => absurd rfl hy, fun y hy => ?_⟩
    by_cases hyx : y = x
    · subst hyx
      exact ⟨hUnset, t, hSet, Function.update_self ..⟩
    · exact absurd (Function.update_of_ne hyx ..) hy

theorem recorded_refl (vars : Vars) : Recorded aux vars vars :=
  ⟨fun _ hx => absurd rfl hx, fun _ hx => absurd rfl hx⟩

/-- A variable that has been bound is not bound again. -/
theorem Recorded.trans {vars'' : Vars} (h₁ : Recorded aux vars vars') (h₂ : Recorded aux vars' vars'') :
    Recorded aux vars vars'' := by
  refine ⟨fun x hx => ?_, fun x hx => ?_⟩
  · by_cases hSame : vars'.addr x = vars.addr x
    · rw [← hSame] at hx ⊢
      exact h₂.addr x hx
    · by_cases hLater : vars''.addr x = vars'.addr x
      · rw [hLater]
        exact h₁.addr x hSame
      · have hFirst := h₁.addr x hSame
        exact ⟨hFirst.1, (h₂.addr x hLater).2⟩
  · by_cases hSame : vars'.pc x = vars.pc x
    · rw [← hSame] at hx ⊢
      exact h₂.pc x hx
    · by_cases hLater : vars''.pc x = vars'.pc x
      · rw [hLater]
        exact h₁.pc x hSame
      · have hFirst := h₁.pc x hSame
        exact ⟨hFirst.1, (h₂.pc x hLater).2⟩

/-- The evaluation of `p` has come to an event predicate that was true and gave the variable
`get` the value it has at the end. -/
def Binds {T : Type} (aux : AuxState) (tid : THREADID) (p : Formula EventPred) (vars : Vars)
    (get : Vars → T) : Prop :=
  ∃ v ∈ p.visits (EventPred.EvalState aux tid) vars, (v.1.EvalState aux tid v.2).1 = true ∧
    get (v.1.EvalState aux tid v.2).2 ≠ get v.2 ∧
      get (v.1.EvalState aux tid v.2).2 = get (evalPred aux tid p vars).2

theorem recorded_event (e : EventPred) (vars : Vars) :
    Recorded aux vars (e.EvalState aux tid vars).2 := (bound_event aux tid e vars).recorded

theorem recorded_eval (p : Formula EventPred) (vars : Vars) :
    Recorded aux vars (evalPred aux tid p vars).2 :=
  Formula.eval_rel recorded_refl (fun _ _ _ => Recorded.trans) recorded_event p vars

/-- A variable that has got another value has got it from an event predicate. -/
theorem binds_of_ne {T : Type} {p : Formula EventPred} (get : Vars → T)
    (hChange : get (evalPred aux tid p vars).2 ≠ get vars) : Binds aux tid p vars get := by
  have hChange : get (p.eval (EventPred.EvalState aux tid) vars).2 ≠ get vars := hChange
  obtain ⟨v, hv, hBefore, hAfter⟩ := Formula.eval_visited get p vars hChange
  have hBound := bound_event aux tid v.1 v.2
  refine ⟨v, hv, Bool.eq_true_of_not_eq_false fun hFalse => hBefore ?_, ?_, hAfter⟩
  · rw [← hBound.unchanged hFalse]
    exact hAfter
  · exact fun hSame => hBefore (hSame.symm.trans hAfter)

/-- What has been done before and after a visit. -/
theorem recorded_visit {p : Formula EventPred} {v : EventPred × Vars}
    (hv : v ∈ p.visits (EventPred.EvalState aux tid) vars) :
    Recorded aux vars v.2 ∧
      Recorded aux (v.1.EvalState aux tid v.2).2 (evalPred aux tid p vars).2 :=
  Formula.visits_rel recorded_refl (fun _ _ _ => Recorded.trans) recorded_event p vars v hv

/-- An address variable changes if and only if a part of the predicate that binds it is
evaluated and true. -/
theorem addr_ne_iff (p : Formula EventPred) (vars : Vars) (x : Nat) :
    (evalPred aux tid p vars).2.addr x ≠ vars.addr x ↔ Binds aux tid p vars fun v => v.addr x := by
  refine ⟨binds_of_ne fun v => v.addr x, ?_⟩
  rintro ⟨v, hv, -, hChange, hEnd⟩ hSame
  -- the variable was unset when it was bound, and so before
  have hUnset := ((recorded_event v.1 v.2).addr x hChange).1
  by_cases hFirst : v.2.addr x = vars.addr x
  · exact hChange (hEnd.trans (hSame.trans hFirst.symm))
  · have hOld := ((recorded_visit hv).1.addr x hFirst).1
    exact hFirst (hUnset.trans hOld.symm)

/-- The same for a variable of a program counter. -/
theorem pc_ne_iff (p : Formula EventPred) (vars : Vars) (x : Nat) :
    (evalPred aux tid p vars).2.pc x ≠ vars.pc x ↔ Binds aux tid p vars fun v => v.pc x := by
  refine ⟨binds_of_ne fun v => v.pc x, ?_⟩
  rintro ⟨v, hv, -, hChange, hEnd⟩ hSame
  have hUnset := ((recorded_event v.1 v.2).pc x hChange).1
  by_cases hFirst : v.2.pc x = vars.pc x
  · exact hChange (hEnd.trans (hSame.trans hFirst.symm))
  · have hOld := ((recorded_visit hv).1.pc x hFirst).1
    exact hFirst (hUnset.trans hOld.symm)

/-- A quiet predicate binds nothing. -/
theorem quiet_event (e : EventPred) (vars : Vars) (hQuiet : e.Quiet) :
    (e.EvalState aux tid vars).2 = vars := by
  cases e with
  | query => rfl
  | inFunc => rfl
  | withArg => exact hQuiet.elim
  | argOf => exact hQuiet.elim
  | atPc => exact hQuiet.elim

/-- What a predicate that is false has done to the variables. -/
structure Fails (aux : AuxState) (tid : THREADID) (p : Formula EventPred) (vars : Vars) : Prop where
  /-- Only variables without a value have got one, which is recorded. -/
  recorded : Recorded aux vars (evalPred aux tid p vars).2
  /-- They are those that an event predicate on the way has bound. -/
  addr : ∀ x, (evalPred aux tid p vars).2.addr x ≠ vars.addr x ↔
    Binds aux tid p vars fun v => v.addr x
  pc : ∀ x, (evalPred aux tid p vars).2.pc x ≠ vars.pc x ↔ Binds aux tid p vars fun v => v.pc x
  /-- There is none where the shape of the predicate keeps them. -/
  keeps : p.Keeps EventPred.Quiet false → (evalPred aux tid p vars).2 = vars

/-- **What a failed predicate has bound.** For every predicate, auxiliary state, thread and
values of the variables: a variable that has a value keeps it, and an unset one has got a value
just if the evaluation has come to an event predicate over it that was true. Whether a predicate
can leave something, `Formula.Keeps` reads off its shape: an event predicate with a variable
leaves something when it is true, a negation when its part has the other value, a conjunction
that is false when a part that is false does, or a part before the last one that is true. -/
theorem failed_binds (p : Formula EventPred) (aux : AuxState) (tid : THREADID) (vars : Vars) :
    (evalPred aux tid p vars).1 = false → Fails aux tid p vars := by
  intro hFalse
  refine ⟨recorded_eval p vars, addr_ne_iff p vars, pc_ne_iff p vars, fun hKeeps => ?_⟩
  exact Formula.eval_keeps (fun e vars h => (bound_event aux tid e vars).unchanged h) quiet_event
    false p vars hKeeps hFalse

/-- `WITH_ARG0(f, x) && ENTERS(g)` -/
def argThenEnters : Formula EventPred :=
  .nary .and [.atom (.withArg .arg0 0x800 0 none), .atom (.query (.ENTERS 0x900) none)]

/-- `ENTERS(g) && WITH_ARG0(f, x)` -/
def entersThenArg : Formula EventPred :=
  .nary .and [.atom (.query (.ENTERS 0x900) none), .atom (.withArg .arg0 0x800 0 none)]

/-- **A predicate that fails binds a variable**: the function has been entered with
argument 7, and the other one has not been entered. -/
theorem failed_binds_argument :
    ¬ ∀ (p : Formula EventPred) aux tid vars, (evalPred aux tid p vars).1 = false →
      (evalPred aux tid p vars).2 = vars := by
  intro hAll
  obtain ⟨s, -, hFalse, hBound⟩ : ∃ s, State.start.run onceRun = some s ∧
      (evalPred s.aux 2 argThenEnters .unset).1 = false ∧
      (evalPred s.aux 2 argThenEnters .unset).2.addr 0 = 7 := ⟨_, rfl, rfl, rfl⟩
  rw [hAll _ _ _ _ hFalse] at hBound
  cases hBound

/-- In the same state, either order of the parts: only the first one binds the variable. -/
theorem failed_binds_orders :
    ∃ s, State.start.run onceRun = some s ∧
      (Binds s.aux 2 argThenEnters .unset fun v => v.addr 0) ∧
      evalPred s.aux 2 entersThenArg .unset = (false, .unset) := by
  obtain ⟨s, hRun, hFalse, hBound, hFalse'⟩ : ∃ s, State.start.run onceRun = some s ∧
      (evalPred s.aux 2 argThenEnters .unset).1 = false ∧
      (evalPred s.aux 2 argThenEnters .unset).2.addr 0 = 7 ∧
      (evalPred s.aux 2 entersThenArg .unset).1 = false := ⟨_, rfl, rfl, rfl, rfl⟩
  have hBinds := (failed_binds argThenEnters s.aux 2 .unset hFalse).addr 0
  have hKeeps := (failed_binds entersThenArg s.aux 2 .unset hFalse').keeps
    (by simp [entersThenArg, Formula.Keeps, Formula.KeepsAll, EventPred.Quiet])
  refine ⟨s, hRun, hBinds.mp ?_, Prod.ext hFalse' hKeeps⟩
  rw [hBound]
  decide

end Aux

end Concurrit.Model
