import Mathlib.Data.Set.Basic
import Mathlib.Data.List.Dedup
import Mathlib.Data.List.Sort
import Mathlib.Logic.Function.Basic
import Concurrit.Lib.Formula
import Concurrit.Lib.Runs
import Concurrit.Model.Dsl

/-!
# Concurrit — thread expressions

The predicates on the thread of a transition: `ANY_THREAD`, `BY`, `NOT`, the sum and
the difference with a variable, `TEXPR` and `DISTINCT`. What a script writes is an
`Expr`; `Expr.build` is the predicate the code builds for it and `Expr.denote` the set
of threads it stands for.

`_TEXPR` adds its arguments to `ANY_THREAD`, so that a coercion is true of every thread.
`denotes_iff` says when the predicate is true of the threads of the set and no others.

`WAIT_FOR_DISTINCT_THREADS` excludes the threads it has selected by a difference that
grows. It is modelled over the execution tree's own operations, one EXISTS node for each
variable, and `wait_for_distinct` is about every order in which threads evaluate them.
-/

namespace Concurrit.Model

open Function (update)

namespace Exprs

-- ---------------------------------------------------------------------------
-- Thread variables
-- ---------------------------------------------------------------------------

/-- `AuxState::Tid`, bound to the thread of the transition. -/
def Tid : TVar := 0

/-- `thread_` of every variable. -/
abbrev Threads := TVar → Option Thread

/-- The variables of a `ThreadVarPtrSet`, bound or not, in the order of their addresses. -/
structure VarSet where
  vars : List TVar
  sorted : vars.SortedLT

theorem VarSet.nodup (set : VarSet) : set.vars.Nodup := set.sorted.nodup

/-- `MakeThreadVarPtrSet` of the arguments of a macro. -/
def MakeThreadVarPtrSet (args : List TVar) : VarSet where
  vars := args.dedup.insertionSort (· ≤ ·)
  sorted :=
    (List.sortedLE_insertionSort).sortedLT_of_nodup
      ((List.perm_insertionSort _ _).nodup_iff.mpr (List.nodup_dedup args))

-- ---------------------------------------------------------------------------
-- Predicates
-- ---------------------------------------------------------------------------

/-- `TPThreadVarsEqual::EvalState`. -/
def TPThreadVarsEqual (s : Threads) (tvar1 tvar2 : TVar) : Bool :=
  match s tvar1, s tvar2 with
  | some co1, some co2 => co1 == co2
  | _, _ => true

/-- `TPThreadVarsNotEqual::EvalState`. -/
def TPThreadVarsNotEqual (s : Threads) (tvar1 tvar2 : TVar) : Bool :=
  match s tvar1, s tvar2 with
  | some co1, some co2 => co1 != co2
  | _, _ => true

inductive ThreadExpr where
  | AnyThreadExpr
  | ThreadVarExpr (var : TVar)
  | NegThreadVarExpr (var : TVar)
  | PlusThreadExpr (expr : ThreadExpr) (var : TVar)
  | MinusThreadExpr (expr : ThreadExpr) (var : TVar)
deriving DecidableEq, Repr

namespace ThreadExpr

def EvalState (s : Threads) : ThreadExpr → Bool
  | AnyThreadExpr => true
  | ThreadVarExpr var => TPThreadVarsEqual s Tid var
  | NegThreadVarExpr var => TPThreadVarsNotEqual s Tid var
  | PlusThreadExpr expr var =>
    if expr.EvalState s then true else TPThreadVarsEqual s Tid var
  | MinusThreadExpr expr var =>
    if !expr.EvalState s then false else TPThreadVarsNotEqual s Tid var

end ThreadExpr

open ThreadExpr

/-- `_TEXPR`. An argument left out is `NULL` and ends the list. -/
def _TEXPR (args : List TVar) : ThreadExpr := args.foldl PlusThreadExpr AnyThreadExpr

/-- `_DISTINCT`. Its second argument is not used. -/
def _DISTINCT (scope : VarSet) : ThreadExpr :=
  if scope.vars.isEmpty then AnyThreadExpr else scope.vars.foldl MinusThreadExpr AnyThreadExpr

-- ---------------------------------------------------------------------------
-- What a script writes
-- ---------------------------------------------------------------------------

inductive Expr where
  | ANY_THREAD
  | BY (t : TVar)
  | NOT (t : TVar)
  | add (e : Expr) (t : TVar)
  | sub (e : Expr) (t : TVar)
  | TEXPR (args : List TVar)
  | DISTINCT (scope : VarSet)

namespace Expr

/-- The object the macros and operators build. -/
def build : Expr → ThreadExpr
  | ANY_THREAD => AnyThreadExpr
  | BY t => ThreadVarExpr t
  | NOT t => NegThreadVarExpr t
  | add e t => PlusThreadExpr e.build t
  | sub e t => MinusThreadExpr e.build t
  | TEXPR args => _TEXPR args
  | DISTINCT scope => _DISTINCT scope

/-- The threads an expression stands for. -/
def denote (s : Threads) : Expr → Set Thread
  | ANY_THREAD => Set.univ
  | BY t => {u | s t = some u}
  | NOT t => {u | s t ≠ some u}
  | add e t => e.denote s ∪ {u | s t = some u}
  | sub e t => e.denote s \ {u | s t = some u}
  | TEXPR [] => Set.univ
  | TEXPR (t :: ts) => {u | ∃ v ∈ t :: ts, s v = some u}
  | DISTINCT scope => {u | ∀ v ∈ scope.vars, s v ≠ some u}

/-- The variables an expression names. -/
def vars : Expr → List TVar
  | ANY_THREAD => []
  | BY t => [t]
  | NOT t => [t]
  | add e t => e.vars ++ [t]
  | sub e t => e.vars ++ [t]
  | TEXPR args => args
  | DISTINCT scope => scope.vars

/-- The expression starts from a coercion of one variable or more. -/
def Coerced : Expr → Prop
  | add e _ => e.Coerced
  | sub e _ => e.Coerced
  | TEXPR args => args ≠ []
  | _ => False

end Expr

-- ---------------------------------------------------------------------------
-- Evaluation
-- ---------------------------------------------------------------------------

section

variable {s : Threads} {t : Thread}

theorem TPThreadVarsEqual_iff {v : TVar} {u : Thread} (hTid : s Tid = some t) (hv : s v = some u) :
    TPThreadVarsEqual s Tid v = true ↔ s v = some t := by
  simp only [TPThreadVarsEqual, hTid, hv, beq_iff_eq, Option.some.injEq]
  exact eq_comm

theorem TPThreadVarsNotEqual_iff {v : TVar} {u : Thread} (hTid : s Tid = some t)
    (hv : s v = some u) : TPThreadVarsNotEqual s Tid v = true ↔ s v ≠ some t := by
  simp only [TPThreadVarsNotEqual, hTid, hv, bne_iff_ne, ne_eq, Option.some.injEq]
  exact not_congr eq_comm

/-- A variable that is added makes the expression true of its thread as well. -/
theorem evalState_plus {e : ThreadExpr} {v : TVar} :
    (PlusThreadExpr e v).EvalState s = true ↔
      e.EvalState s = true ∨ TPThreadVarsEqual s Tid v = true := by
  rw [EvalState]
  split
  · rename_i he
    exact iff_of_true rfl (Or.inl he)
  · rename_i he
    exact (or_iff_right he).symm

theorem evalState_minus {e : ThreadExpr} {v : TVar} :
    (MinusThreadExpr e v).EvalState s = true ↔
      e.EvalState s = true ∧ TPThreadVarsNotEqual s Tid v = true := by
  rw [EvalState]
  cases e.EvalState s <;> simp

/-- Once an expression is true, sums keep it true. -/
theorem evalState_foldl_plus {e : ThreadExpr} (args : List TVar) (he : e.EvalState s = true) :
    (args.foldl PlusThreadExpr e).EvalState s = true := by
  induction args generalizing e with
  | nil => exact he
  | cons v rest ih => exact ih (evalState_plus.mpr (Or.inl he))

theorem evalState_foldl_minus {e : ThreadExpr} (args : List TVar) :
    (args.foldl MinusThreadExpr e).EvalState s = true ↔
      e.EvalState s = true ∧ ∀ v ∈ args, TPThreadVarsNotEqual s Tid v = true := by
  induction args generalizing e with
  | nil => simp
  | cons v rest ih =>
    rw [List.foldl_cons, ih, evalState_minus, List.forall_mem_cons, and_assoc]

/-- **A coercion is true of every thread.** -/
theorem evalState_TEXPR (args : List TVar) : (_TEXPR args).EvalState s = true :=
  evalState_foldl_plus args rfl

/-- `DISTINCT` is true of a thread that none of the variables is bound to. -/
theorem evalState_DISTINCT (scope : VarSet) :
    (_DISTINCT scope).EvalState s = true ↔
      ∀ v ∈ scope.vars, TPThreadVarsNotEqual s Tid v = true := by
  unfold _DISTINCT
  split
  · rename_i hEmpty
    rw [List.isEmpty_iff.mp hEmpty]
    simp [EvalState]
  · rw [evalState_foldl_minus]
    simp [EvalState]

end

-- ---------------------------------------------------------------------------
-- The set an expression denotes
-- ---------------------------------------------------------------------------

/-- **A thread expression denotes its set of threads** unless it starts from a coercion;
then it does for the threads it names. `_TEXPR` of variables starts from `ANY_THREAD` and
joins the variables to that, so it is true of any thread. -/
theorem denotes_iff (e : Expr) (s : Threads) (t : Thread) (hTid : s Tid = some t)
    (hBound : ∀ v ∈ e.vars, ∃ u, s v = some u) :
    ((e.build.EvalState s = true) ↔ t ∈ e.denote s) ↔
      (e.Coerced → ∃ v ∈ e.vars, s v = some t) := by
  induction e with
  | ANY_THREAD => exact iff_of_true (iff_of_true rfl trivial) (fun h => h.elim)
  | BY v =>
    obtain ⟨u, hu⟩ := hBound v (List.mem_singleton.mpr rfl)
    exact iff_of_true (TPThreadVarsEqual_iff hTid hu) (fun h => h.elim)
  | NOT v =>
    obtain ⟨u, hu⟩ := hBound v (List.mem_singleton.mpr rfl)
    exact iff_of_true (TPThreadVarsNotEqual_iff hTid hu) (fun h => h.elim)
  | add e v ih =>
    have hv : ∃ u, s v = some u := hBound v (by simp [Expr.vars])
    obtain ⟨u, hu⟩ := hv
    have ih := ih fun w hw => hBound w (by simp [Expr.vars, hw])
    have hEval : (Expr.add e v).build.EvalState s = true ↔
        e.build.EvalState s = true ∨ s v = some t := by
      rw [Expr.build, evalState_plus, TPThreadVarsEqual_iff hTid hu]
    have hMem : t ∈ (Expr.add e v).denote s ↔ t ∈ e.denote s ∨ s v = some t := Iff.rfl
    have hVars : (∃ w ∈ (Expr.add e v).vars, s w = some t) ↔
        (∃ w ∈ e.vars, s w = some t) ∨ s v = some t := by
      simp [Expr.vars, or_and_right, exists_or]
    have hCoerced : (Expr.add e v).Coerced ↔ e.Coerced := Iff.rfl
    rw [hEval, hMem, hVars, hCoerced]
    by_cases ht : s v = some t
    · simp only [ht, or_true, implies_true]
    · simp only [ht, or_false]
      exact ih
  | sub e v ih =>
    have hv : ∃ u, s v = some u := hBound v (by simp [Expr.vars])
    obtain ⟨u, hu⟩ := hv
    have ih := ih fun w hw => hBound w (by simp [Expr.vars, hw])
    have hEval : (Expr.sub e v).build.EvalState s = true ↔
        e.build.EvalState s = true ∧ s v ≠ some t := by
      rw [Expr.build, evalState_minus, TPThreadVarsNotEqual_iff hTid hu]
    have hMem : t ∈ (Expr.sub e v).denote s ↔ t ∈ e.denote s ∧ s v ≠ some t := Iff.rfl
    have hVars : (∃ w ∈ (Expr.sub e v).vars, s w = some t) ↔
        (∃ w ∈ e.vars, s w = some t) ∨ s v = some t := by
      simp [Expr.vars, or_and_right, exists_or]
    have hCoerced : (Expr.sub e v).Coerced ↔ e.Coerced := Iff.rfl
    rw [hEval, hMem, hVars, hCoerced]
    by_cases ht : s v = some t
    · simp only [ht, ne_eq, not_true_eq_false, and_false, or_true, implies_true]
    · simp only [ht, ne_eq, not_false_eq_true, and_true, or_false]
      exact ih
  | TEXPR args =>
    have hEval : (Expr.TEXPR args).build.EvalState s = true := evalState_TEXPR args
    rw [iff_true_left hEval]
    cases args with
    | nil => exact iff_of_true trivial (fun h => absurd rfl h)
    | cons v rest => exact ⟨fun h _ => h, fun h => h (List.cons_ne_nil v rest)⟩
  | DISTINCT scope =>
    refine iff_of_true ?_ (fun h => h.elim)
    rw [Expr.build, evalState_DISTINCT]
    refine forall₂_congr fun v hv => ?_
    obtain ⟨u, hu⟩ := hBound v hv
    exact TPThreadVarsNotEqual_iff hTid hu

/-- The transition is of thread 3, and the variable 1 is bound to thread 3. -/
def bound₃ : Threads := fun v => if v = Tid ∨ v = 1 then some 3 else if v = 2 then some 4 else none

/-- The variable bound to thread 3 less the one bound to thread 4, at thread 3. -/
theorem denotes_iff_difference :
    ((Expr.sub (.TEXPR [1]) 2).build.EvalState bound₃ = true ↔
      3 ∈ (Expr.sub (.TEXPR [1]) 2).denote bound₃) := by
  refine (denotes_iff (.sub (.TEXPR [1]) 2) bound₃ 3 rfl ?_).mpr ?_
  · intro v hv
    have hv : v = 1 ∨ v = 2 := by simpa [Expr.vars] using hv
    rcases hv with rfl | rfl
    · exact ⟨3, rfl⟩
    · exact ⟨4, rfl⟩
  · exact fun _ => ⟨1, by simp [Expr.vars], rfl⟩

/-- `TEXPR` of a variable bound to thread 4 is true of thread 3, which is bound to another
variable. -/
theorem coercion_of_another_thread :
    ¬ ((Expr.TEXPR [2]).build.EvalState bound₃ = true ↔ 3 ∈ (Expr.TEXPR [2]).denote bound₃) := by
  intro h
  obtain ⟨v, hv, hBound⟩ := h.mp rfl
  obtain rfl := List.mem_singleton.mp hv
  cases hBound

-- ---------------------------------------------------------------------------
-- WAIT_FOR_DISTINCT_THREADS
-- ---------------------------------------------------------------------------

/-- The parts of the predicate of one selection. -/
inductive Part where
  | given
  | texpr (e : ThreadExpr)

/-- The predicate of the EXISTS node: `(p) && q`, and `ANY_THREAD` that
`DSLExistsThread` adds. -/
def selectPred (q : ThreadExpr) : Formulas.Formula Part :=
  .nary .and [.nary .and [.atom .given, .atom (.texpr q)], .atom (.texpr AnyThreadExpr)]

section

variable {World : Type}

/-- `EvalState` of a part. The given predicate may depend on anything, which is `World`. -/
def Part.EvalState (p : World → Thread → Bool) (world : World) (thread : Thread) :
    Part → Threads → Bool × Threads
  | given, s => (p world thread, s)
  | texpr e, s => (e.EvalState s, s)

/-- `CanSelectThread`: binds `Tid` and evaluates the predicate. -/
def CanSelectThread (p : World → Thread → Bool) (q : ThreadExpr) (s : Threads) (world : World)
    (thread : Thread) : Bool :=
  ((selectPred q).eval (Part.EvalState p world thread) (update s Tid (some thread))).1

/-- A thread can be selected if it satisfies the predicate and, as `Tid`, the expression. -/
theorem CanSelectThread_iff {p : World → Thread → Bool} {q : ThreadExpr} {s : Threads}
    {world : World} {thread : Thread} : CanSelectThread p q s world thread = true ↔
      p world thread = true ∧ q.EvalState (update s Tid (some thread)) = true := by
  unfold CanSelectThread selectPred
  cases hp : p world thread <;>
    cases hq : q.EvalState (update s Tid (some thread)) <;>
      simp [Formulas.Formula.eval, Formulas.Formula.evalAll, Formulas.Op.unit, Part.EvalState,
        EvalState, hp, hq]

/-- A variable, the thread selected for it and when. -/
structure Selection (World : Type) where
  var : TVar
  thread : Thread
  world : World

/-- The main thread in `_WAIT_FOR_DISTINCT_THREADS`. `rest` are the variables from `itr` to
`end`, `select` is the node that is pending; `selected` records the selections. -/
structure WaitForDistinct (World : Type) where
  m : Manager
  s : Threads
  q : ThreadExpr
  rest : List TVar
  select : Option NodeId
  selected : List (Selection World)

/-- A node of the macro is submitted, a thread evaluates it, or `Tid` is bound for another
predicate. -/
inductive Event (World : Type) where
  | submit
  | offer (world : World) (thread : Thread)
  | other (tid : Option Thread)

/-- The scope `()` of the macro's EXISTS nodes. -/
def noScope : Model.ThreadVarPtrSet := ⟨[], List.nodup_nil⟩

/-- One step of `_WAIT_FOR_DISTINCT_THREADS` for the predicate `p`. -/
def WaitForDistinct.next (p : World → Thread → Bool) (x : WaitForDistinct World) :
    Event World → Option (WaitForDistinct World)
  | .submit =>
    match x.select, x.rest with
    | none, _ :: _ => do
      let (m, select) ← x.m.submitExistsThread noScope
      return { x with m := m, select := some select }
    | _, _ => none
  | .offer world thread =>
    match x.select, x.rest with
    | some select, t :: rest => do
      let canSelect := CanSelectThread p x.q x.s world thread
      let s := update x.s Tid (some thread)
      let (m, index) ← x.m.evalSelectThread select ⟨thread, canSelect⟩
      match index with
      | none => return { x with m := m, s := s }
      | some i =>
        let m ← m.addToPath select i
        m.checkConsumed select thread
        -- `t << lvar`, `q = q - t`
        return {
          m := m
          s := update s t (some thread)
          q := MinusThreadExpr x.q t
          rest := rest
          select := none
          selected := x.selected ++ [⟨t, thread, world⟩] }
    | _, _ => none
  | .other tid => if x.rest = [] then none else some { x with s := update x.s Tid tid }

/-- `_WAIT_FOR_DISTINCT_THREADS` on a set, started on any tree and any bindings. -/
def waitForDistinct (p : World → Thread → Bool) (set : VarSet) :
    Runs.System (WaitForDistinct World) (Event World) where
  init x := x.q = AnyThreadExpr ∧ x.rest = set.vars ∧ x.select = none ∧ x.selected = []
  step x e x' := x.next p e = some x'

/-- A thread that consumes a selection satisfies its predicate. -/
theorem canSelect_of_evalSelectThread {m m' : Manager} {n : NodeId} {o : Offer} {i : Nat}
    (h : m.evalSelectThread n o = some (m', some i)) : o.canSelect = true := by
  simp only [Manager.evalSelectThread, Option.bind_eq_bind, Option.bind_eq_some_iff] at h
  obtain ⟨nd, hNode, _, _, ⟨parent, idx⟩, _, _, _, h⟩ := h
  split at h
  · simp only [Manager.checkAndSelectForall, Option.bind_eq_bind, Option.bind_eq_some_iff] at h
    obtain ⟨nd', _, h⟩ := h
    split at h
    · simp only [Option.bind_eq_some_iff] at h
      obtain ⟨_, _, h⟩ := h
      split at h
      · cases h
      · by_contra hNot
        rw [if_pos hNot] at h
        cases h
    · cases h
  · simp only [Manager.checkAndSelectExists, Option.bind_eq_bind, Option.bind_eq_some_iff] at h
    obtain ⟨nd', _, h⟩ := h
    split at h
    · simp only [Option.bind_eq_some_iff] at h
      obtain ⟨_, _, h⟩ := h
      split at h
      · cases h
      · split at h
        · assumption
        · simp only [Option.bind_eq_some_iff, Option.pure_def, Option.some.injEq, Prod.mk.injEq,
            reduceCtorEq, and_false, exists_false] at h
    · cases h
  · cases h

/-- What holds between two steps of the macro. -/
structure WaitForDistinct.Inv (p : World → Thread → Bool) (set : VarSet)
    (x : WaitForDistinct World) : Prop where
  split     : x.selected.map Selection.var ++ x.rest = set.vars
  expr      : x.q = (x.selected.map Selection.var).foldl MinusThreadExpr AnyThreadExpr
  -- `Tid` is bound anew by every evaluation; no thread is selected after it
  bound     : ∀ e ∈ x.selected, e.var ≠ Tid ∨ x.rest = [] → x.s e.var = some e.thread
  distinct  : (x.selected.map Selection.thread).Nodup
  satisfied : ∀ e ∈ x.selected, p e.world e.thread = true

/-- The difference is true of a thread only if the variables selected before exclude it. -/
theorem WaitForDistinct.Inv.excludes {p : World → Thread → Bool} {set : VarSet}
    {x : WaitForDistinct World} (hInv : x.Inv p set) {thread : Thread}
    (hq : x.q.EvalState (update x.s Tid (some thread)) = true) :
    ∀ e ∈ x.selected, e.var ≠ Tid ∧ e.thread ≠ thread := by
  intro e he
  rw [hInv.expr, evalState_foldl_minus] at hq
  have hNe := hq.2 e.var (List.mem_map_of_mem he)
  by_cases hTid : e.var = Tid
  · -- `Tid` differs from itself in no state
    rw [hTid] at hNe
    simp [TPThreadVarsNotEqual] at hNe
  · have hBound := hInv.bound e he (Or.inl hTid)
    have hVar : update x.s Tid (some thread) e.var = some e.thread := by
      rw [Function.update_of_ne hTid, hBound]
    have hSame : update x.s Tid (some thread) Tid = some thread := Function.update_self ..
    have hOther := (TPThreadVarsNotEqual_iff hSame hVar).mp hNe
    rw [hVar] at hOther
    exact ⟨hTid, fun h => hOther (congrArg some h)⟩

/-- Before the last selection `Tid` may be bound to any thread. -/
theorem WaitForDistinct.Inv.rebind {p : World → Thread → Bool} {set : VarSet}
    {x : WaitForDistinct World} (hInv : x.Inv p set) (hRest : x.rest ≠ []) (m : Manager)
    (tid : Option Thread) : { x with m := m, s := update x.s Tid tid }.Inv p set := by
  refine ⟨hInv.split, hInv.expr, fun e he hVar => ?_, hInv.distinct, hInv.satisfied⟩
  have hTid : e.var ≠ Tid := hVar.resolve_right hRest
  exact (Function.update_of_ne hTid ..).trans (hInv.bound e he (Or.inl hTid))

/-- **One step of the macro.** -/
theorem WaitForDistinct.Inv.next {p : World → Thread → Bool} {set : VarSet}
    {x x' : WaitForDistinct World} {e : Event World} (hInv : x.Inv p set)
    (hStep : x.next p e = some x') : x'.Inv p set := by
  cases e with
  | submit =>
    simp only [WaitForDistinct.next] at hStep
    split at hStep
    · simp only [Option.bind_eq_bind, Option.bind_eq_some_iff, Option.pure_def,
        Option.some.injEq] at hStep
      obtain ⟨_, _, rfl⟩ := hStep
      exact ⟨hInv.split, hInv.expr, hInv.bound, hInv.distinct, hInv.satisfied⟩
    · cases hStep
  | other tid =>
    simp only [WaitForDistinct.next] at hStep
    split at hStep
    · cases hStep
    · rename_i hRest
      cases hStep
      exact hInv.rebind hRest x.m tid
  | offer world thread =>
    simp only [WaitForDistinct.next] at hStep
    split at hStep
    · rename_i select t rest hSelect hRest
      simp only [Option.bind_eq_bind, Option.bind_eq_some_iff] at hStep
      obtain ⟨⟨m, index⟩, hEval, hStep⟩ := hStep
      cases index with
      | none =>
        cases hStep
        exact hInv.rebind (by simp [hRest]) m (some thread)
      | some i =>
        simp only [Option.bind_eq_some_iff, Option.pure_def, Option.some.injEq] at hStep
        obtain ⟨m₁, _, _, _, rfl⟩ := hStep
        have hCan : CanSelectThread p x.q x.s world thread = true :=
          canSelect_of_evalSelectThread hEval
        obtain ⟨hp, hq⟩ := CanSelectThread_iff.mp hCan
        have hExcludes := hInv.excludes hq
        have hNodup : (x.selected.map Selection.var ++ t :: rest).Nodup := by
          rw [← hRest, hInv.split]
          exact set.nodup
        have hNew : ∀ e ∈ x.selected, e.var ≠ t := by
          intro e he hEq
          have hNotMem := (List.nodup_append.mp hNodup).2.2 e.var (List.mem_map_of_mem he) t
          exact hNotMem List.mem_cons_self hEq
        refine ⟨?_, ?_, ?_, ?_, ?_⟩
        · rw [← hInv.split, hRest]
          simp
        · rw [hInv.expr]
          simp
        · intro e he _
          rcases List.mem_append.mp he with he | he
          · have hBound := hInv.bound e he (Or.inl (hExcludes e he).1)
            exact (Function.update_of_ne (hNew e he) ..).trans
              ((Function.update_of_ne (hExcludes e he).1 ..).trans hBound)
          · obtain rfl := List.mem_singleton.mp he
            exact Function.update_self ..
        · rw [List.map_append, List.nodup_append]
          refine ⟨hInv.distinct, by simp, ?_⟩
          intro u hu v hv
          obtain ⟨e, he, rfl⟩ := List.mem_map.mp hu
          obtain rfl : v = thread := by simpa using hv
          exact (hExcludes e he).2
        · intro e he
          rcases List.mem_append.mp he with he | he
          · exact hInv.satisfied e he
          · obtain rfl := List.mem_singleton.mp he
            exact hp
    · cases hStep

/-- The invariant holds in every state the macro reaches. -/
theorem waitForDistinct_inv {p : World → Thread → Bool} {set : VarSet} {x : WaitForDistinct World}
    (h : Runs.Reachable (waitForDistinct p set) x) : x.Inv p set := by
  refine h.invariant ?_ (fun x e x' hInv _ hStep => hInv.next hStep)
  rintro x ⟨hq, hRest, hSelect, hSelected⟩
  exact ⟨by simp [hRest, hSelected], by simp [hq, hSelected], by simp [hSelected],
    by simp [hSelected], by simp [hSelected]⟩

/-- **`WAIT_FOR_DISTINCT_THREADS` selects distinct threads**, each of which satisfied the
predicate when it was selected, for any number of variables, any order of arrivals and any
change of the world in between. -/
theorem wait_for_distinct (p : World → Thread → Bool) (set : VarSet) (x : WaitForDistinct World)
    (h : Runs.Reachable (waitForDistinct p set) x) (hDone : x.rest = []) :
    (∀ v ∈ set.vars, ∃ t world, x.s v = some t ∧ ⟨v, t, world⟩ ∈ x.selected ∧ p world t = true) ∧
      set.vars.Pairwise (fun v v' => x.s v ≠ x.s v') := by
  have hInv := waitForDistinct_inv h
  have hSplit : x.selected.map Selection.var = set.vars := by
    have hSplit := hInv.split
    rwa [hDone, List.append_nil] at hSplit
  have hBound : ∀ e ∈ x.selected, x.s e.var = some e.thread :=
    fun e he => hInv.bound e he (Or.inr hDone)
  rw [← hSplit]
  constructor
  · intro v hv
    obtain ⟨e, he, rfl⟩ := List.mem_map.mp hv
    exact ⟨e.thread, e.world, hBound e he, he, hInv.satisfied e he⟩
  · rw [List.pairwise_map]
    refine (List.pairwise_map.mp hInv.distinct).imp_of_mem ?_
    intro e e' he he' hNe hEq
    rw [hBound e he, hBound e' he'] at hEq
    exact hNe (Option.some.inj hEq)

end

/-- A test case before its first operation. -/
def started : WaitForDistinct Unit :=
  ⟨{ Manager.initial (fun _ => false) 1 with stackIndex := 1 }, fun _ => none, AnyThreadExpr,
    [1, 2], none, []⟩

/-- Thread 5 is selected first; it is refused for the second variable, and thread 6 is
selected. -/
def fiveThenSix : List (Event Unit) :=
  [.submit, .offer () 5, .submit, .offer () 5, .other (some 9), .offer () 6]

/-- Thread 5 comes twice and is selected once, thread 6 is the second one. -/
theorem wait_for_distinct_five_six : ∃ x : WaitForDistinct Unit, x.rest = [] ∧ x.s 2 = some 6 ∧
    [1, 2].Pairwise (fun v v' => x.s v ≠ x.s v') := by
  obtain ⟨x, hRun, hDone, hSix⟩ : ∃ x, fiveThenSix.foldlM (WaitForDistinct.next fun _ _ => true)
      started = some x ∧ x.rest = [] ∧ x.s 2 = some 6 := ⟨_, rfl, rfl, rfl⟩
  have hReach : Runs.Reachable (waitForDistinct (fun (_ : Unit) _ => true) ⟨[1, 2], by decide⟩) x :=
    Runs.ReachableUnder.foldlM (fun _ _ _ hStep => hStep) (.init ⟨rfl, rfl, rfl, rfl⟩) _ hRun
  exact ⟨x, hDone, hSix, (wait_for_distinct _ _ x hReach hDone).2⟩

end Exprs

end Concurrit.Model
