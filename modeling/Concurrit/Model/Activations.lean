import Concurrit.Model.Calls

/-!
# Concurrit — activations of a function

What the predicates `IN_FUNC`, `WITH_ARG0` and `WITH_ARG1` see of the calls of a
thread, against the calls themselves:

* `nesting_iff`    — `InFunc` counts the open activations, and `IN_FUNC` with a
  number holds outside of every activation once a function has been left twice;
* `innermost_iff`  — the recorded arguments are those of the innermost open
  activation until a nested call returns;
* `withArg_iff`    — comparing with a recorded argument, where 0 stands for the
  undefined value.
-/

namespace Concurrit.Model

open Function (update)

namespace Aux

open Ipc (THREADID ADDRINT INVALID_THREADID)

variable {s : State} {t : THREADID} {aux : AuxState} {f : ADDRINT} {es : List Event} {e : Event}

-- ---------------------------------------------------------------------------
-- Nesting
-- ---------------------------------------------------------------------------

/-- The open activations of `f` after an event; an unmatched return opens none. -/
def Event.openAfter (f : ADDRINT) (n : Nat) : Event → Nat
  | FuncEnter g _ _ => if g = f then n + 1 else n
  | FuncReturn g _ => if g = f then n - 1 else n
  | _ => n

/-- The number of open activations of `f`. -/
def openActivations (f : ADDRINT) (es : List Event) : Nat := es.foldl (Event.openAfter f) 0

/-- The event enters `f`. -/
def Event.enters (f : ADDRINT) : Event → Bool
  | FuncEnter g _ _ => g == f
  | _ => false

/-- The number of times `f` has been entered. -/
def entered (f : ADDRINT) (es : List Event) : Nat := es.countP (Event.enters f)

/-- `_IN_FUNC(f, t, k)`: `TPInFunc` for one and `TP3` of `NumInFunc` for the others. -/
def IN_FUNC (f : ADDRINT) (k : Int) (aux : AuxState) (tid : THREADID) : Bool :=
  if k = 1 then decide (0 < aux.InFunc.get f tid)
  else ((AuxVar1Pre.mk (some f) (some k)).EvalState aux.NumInFunc tid).1

/-- The counters of a thread after its events: `InFunc` has the open activations of a
function, `NumInFunc` all entries so far. By induction on the events, the last one first. -/
theorem counters_events (f : ADDRINT) (es : List Event) :
    (es.foldl Event.onCalls .none).inFunc f = openActivations f es ∧
      (es.foldl Event.onCalls .none).numInFunc f = entered f es := by
  induction es using List.reverseRecOn with
  | nil => exact ⟨rfl, rfl⟩
  | append_singleton es e ih =>
    obtain ⟨hOpen, hEntered⟩ := ih
    simp only [openActivations, entered] at hOpen hEntered ⊢
    rw [List.foldl_append, List.foldl_append, List.countP_append]
    simp only [List.foldl_cons, List.foldl_nil, List.countP_singleton]
    generalize hc : es.foldl Event.onCalls .none = c at hOpen hEntered ⊢
    generalize es.foldl (Event.openAfter f) 0 = n at hOpen ⊢
    -- an entry counts for its own function in both counters
    cases e with
    | FuncEnter g a b =>
      show update c.inFunc g (c.inFunc g + 1) f = _ ∧ update c.numInFunc g (c.numInFunc g + 1) f = _
      by_cases hg : g = f
      · subst hg
        simp [Event.openAfter, Event.enters, hOpen, hEntered]
      · simp [Event.openAfter, Event.enters, hg, Ne.symm hg, Function.update_of_ne, hOpen, hEntered]
    -- a return only lowers `InFunc`, and only if it is not zero
    | FuncReturn g r =>
      simp only [Event.onCalls, Event.enters, Bool.false_eq_true, if_false, Nat.add_zero]
      by_cases hg : g = f
      · subst hg
        simp only [Event.openAfter, if_true]
        split
        · rename_i hZero
          omega
        · rename_i hPos
          simp only [Function.update_self]
          omega
      · simp only [Event.openAfter, hg, if_false]
        split
        · exact ⟨hOpen, hEntered⟩
        · exact ⟨(Function.update_of_ne (Ne.symm hg) ..).trans hOpen, hEntered⟩
    | _ => simpa [Event.openAfter, Event.enters] using ⟨hOpen, hEntered⟩

/-- What `TPInFunc::EvalState` compares: for the number 1 whether an activation is open, and
for the other ones the number of entries. -/
theorem in_func_iff {k : Int} (hk : 1 ≤ k) :
    IN_FUNC f k aux t = true ↔
      if k = 1 then 0 < (aux.calls t).inFunc f else (aux.calls t).numInFunc f = k := by
  unfold IN_FUNC
  split
  · rw [decide_eq_true_eq]
    rfl
  · have hk0 : k ≠ 0 := by omega
    simp only [AuxVar1Pre.EvalState, hk0, if_false]
    show _ ↔ aux.NumInFunc.get f t = k
    split
    · exact beq_iff_eq
    · rename_i hSet
      have hGet : aux.NumInFunc.get f t = 0 := by
        by_contra hNe
        exact hSet ((AuxVar1.isset_iff_get f).mpr hNe)
      rw [hGet]
      exact ⟨fun h => by simp at h, fun h => absurd h.symm hk0⟩

/-- **The nesting of a function** in every state reached: the recorded state is the number
of open activations. `IN_FUNC` holds only while one is open, for every number, if and only
if the function has been entered at most once or an activation is open: the second counter
is never reset. -/
theorem nesting_iff (h : Runs.Reachable system s) (hRest : s.AtRest t) (f : ADDRINT) :
    (s.aux.InFunc.get f t = openActivations f (s.passed t) ∧
        ∀ k : Int, 1 ≤ k → IN_FUNC f k s.aux t = true → 0 < openActivations f (s.passed t)) ↔
      entered f (s.passed t) ≤ 1 ∨ 0 < openActivations f (s.passed t) := by
  have hCalls := calls_atRest h hRest
  obtain ⟨hOpen, hEntered⟩ := counters_events f (s.passed t)
  rw [← hCalls] at hOpen hEntered
  constructor
  -- with two entries and none open, the number of entries is a counterexample
  · rintro ⟨-, hOnly⟩
    by_contra hNot
    have hMany : 2 ≤ entered f (s.passed t) := by omega
    refine hNot (Or.inr (hOnly (entered f (s.passed t)) (by omega) ?_))
    rw [in_func_iff (by omega), if_neg (by omega), hEntered]
  -- for one entry `IN_FUNC` asks for an open activation
  · intro hCond
    refine ⟨hOpen, fun k hk hIn => ?_⟩
    rw [in_func_iff hk] at hIn
    split at hIn
    · omega
    · rcases hCond with hOnce | hPos
      · omega
      · exact hPos

/-- Thread 2 enters a function. -/
def enterRun (arg0 arg1 : ADDRINT) : List (THREADID × Act) :=
  [(2, .raise (.FuncEnter 0x800 arg0 arg1))] ++ List.replicate 6 (2, .proceed) ++
    [(2, .finish), (2, .proceed), (2, .proceed)]

/-- Thread 2 returns from the function. -/
def leaveRun : List (THREADID × Act) :=
  [(2, .raise (.FuncReturn 0x800 0))] ++ List.replicate 3 (2, .proceed) ++ [(2, .finish)] ++
    List.replicate 5 (2, .proceed)

/-- Thread 2 enters a function and leaves it, twice. -/
def twiceRun : List (THREADID × Act) :=
  enterRun 7 8 ++ leaveRun ++ (enterRun 7 8 ++ leaveRun)

/-- **`IN_FUNC(f, t, 2)` holds after the second activation has ended.** A return sets the
record to what it was before the entry, but the counter `NumInFunc`, which `IN_FUNC`
compares, only ever counts entries. -/
theorem in_func_outside :
    ¬ ∀ s t f, Runs.Reachable system s → s.AtRest t →
      s.aux.InFunc.get f t = openActivations f (s.passed t) ∧
        ∀ k : Int, 1 ≤ k → IN_FUNC f k s.aux t = true → 0 < openActivations f (s.passed t) := by
  intro hAll
  obtain ⟨s, hRun, hIdle, hIn, hOpen⟩ : ∃ s, State.start.run twiceRun = some s ∧
      s.loc 2 = .idle ∧ IN_FUNC 0x800 2 s.aux 2 = true ∧
      openActivations 0x800 (s.passed 2) = 0 := ⟨_, rfl, rfl, rfl, rfl⟩
  have hPos := (hAll s 2 0x800 (reachable_run (.init rfl) hRun) (Or.inl hIdle)).2 2 (by decide) hIn
  rw [hOpen] at hPos
  exact absurd hPos (by decide)

/-- Thread 2 is in its first activation. -/
def onceRun : List (THREADID × Act) :=
  [(2, .raise (.FuncEnter 0x800 7 8))] ++ List.replicate 6 (2, .proceed)

/-- Thread 2 has returned from a nested activation, and thread 3 is in its first. -/
def nestedRun : List (THREADID × Act) :=
  enterRun 7 8 ++ enterRun 9 10 ++ onceRun.map (fun a => (3, a.2)) ++ leaveRun

/-- Two activations of thread 2, the inner one of which has returned, and one of thread 3:
one activation of thread 2 is open. -/
theorem nesting_nested :
    ∃ s, Runs.Reachable system s ∧ entered 0x800 (s.passed 2) = 2 ∧ s.aux.InFunc.get 0x800 2 = 1 ∧
      ∀ k : Int, 1 ≤ k → IN_FUNC 0x800 k s.aux 2 = true → 0 < openActivations 0x800 (s.passed 2) := by
  obtain ⟨s, hRun, hIdle, hOpen, hTwice⟩ : ∃ s, State.start.run nestedRun = some s ∧
      s.loc 2 = .idle ∧ openActivations 0x800 (s.passed 2) = 1 ∧ entered 0x800 (s.passed 2) = 2 :=
    ⟨_, rfl, rfl, rfl, rfl⟩
  have hReach := reachable_run (.init rfl) hRun
  have hBoth := (nesting_iff hReach (Or.inl hIdle) 0x800).mpr (Or.inr (by rw [hOpen]; decide))
  rw [hOpen] at hBoth
  exact ⟨s, hReach, hTwice, hBoth.1, by rw [hOpen]; exact hBoth.2⟩

-- ---------------------------------------------------------------------------
-- Recorded arguments
-- ---------------------------------------------------------------------------

/-- The tables of the first and the second argument. -/
inductive ArgIndex where
  | arg0
  | arg1
deriving DecidableEq, Repr

def AuxState.args (aux : AuxState) : ArgIndex → AuxVar1 ADDRINT ADDRINT 0 0
  | .arg0 => aux.Arg0
  | .arg1 => aux.Arg1

/-- The argument recorded for a function, if any. -/
def AuxState.argument (aux : AuxState) (i : ArgIndex) (f : ADDRINT) (tid : THREADID) :
    Option ADDRINT :=
  if (aux.args i).isset f tid then some ((aux.args i).get f tid) else none

def Calls.arg (c : Calls) : ArgIndex → ADDRINT → ADDRINT
  | .arg0 => c.arg0
  | .arg1 => c.arg1

/-- The entry of a function: its arguments. -/
structure Frame where
  addr : ADDRINT
  arg0 : ADDRINT
  arg1 : ADDRINT
deriving DecidableEq, Repr

def Frame.arg (fr : Frame) : ArgIndex → ADDRINT
  | .arg0 => fr.arg0
  | .arg1 => fr.arg1

/-- The function an event enters or leaves. -/
def Event.callee : Event → Option ADDRINT
  | FuncEnter g _ _ => some g
  | FuncReturn g _ => some g
  | _ => none

/-- The last entry of `f` or return from it. -/
def lastCall (f : ADDRINT) (es : List Event) : Option Event :=
  (es.filter fun e => e.callee = some f).getLast?

/-- The last call of a function after one more event. -/
theorem lastCall_append (f : ADDRINT) (es : List Event) (e : Event) :
    lastCall f (es ++ [e]) = if e.callee = some f then some e else lastCall f es := by
  unfold lastCall
  rw [List.filter_append]
  split
  · rename_i hCallee
    simp [hCallee]
  · rename_i hCallee
    simp [hCallee]

/-- The argument of an entry, zero for a return. -/
def Event.argument (i : ArgIndex) : Event → ADDRINT
  | FuncEnter g a b => (Frame.mk g a b).arg i
  | _ => 0

/-- An argument is recorded unless the entry is zero, which is the default of the table. -/
theorem argument_eq (i : ArgIndex) (f : ADDRINT) (aux : AuxState) (t : THREADID) :
    aux.argument i f t = if (aux.calls t).arg i f = 0 then none else some ((aux.calls t).arg i f) := by
  have hSet : (aux.args i).isset f t = true ↔ _ := AuxVar1.isset_iff_get f
  have hGet : (aux.args i).get f t = (aux.calls t).arg i f := by cases i <;> rfl
  rw [hGet] at hSet
  unfold AuxState.argument
  rw [hGet]
  by_cases hZero : (aux.calls t).arg i f = 0
  · rw [if_pos hZero, if_neg (fun h => hSet.mp h hZero)]
  · rw [if_neg hZero, if_pos (hSet.mpr hZero)]

/-- No event records the arguments of a call before the entry. -/
def NoFuncCall (es : List Event) : Prop := ∀ e ∈ es, ∀ x y a b, e ≠ .FuncCall x y a b

/-- No return of a function that is not open. -/
def Matched (es : List Event) : Prop :=
  ∀ pre f r post, es = pre ++ .FuncReturn f r :: post → 0 < openActivations f pre

theorem Matched.init (h : Matched (es ++ [e])) : Matched es := by
  intro pre f r post hEs
  exact h pre f r (post ++ [e]) (by simp [hEs])

/-- **The arguments recorded** are those of the last entry, none after a return. `FuncCall`,
which also sets them, is excluded, and a return without an entry would leave them. -/
theorem arg_events (hCalls : NoFuncCall es) (hMatched : Matched es) (i : ArgIndex) (f : ADDRINT) :
    (es.foldl Event.onCalls .none).arg i f = ((lastCall f es).map (Event.argument i)).getD 0 := by
  induction es using List.reverseRecOn with
  | nil => cases i <;> rfl
  | append_singleton es e ih =>
    have ih := ih (fun d hd => hCalls d (by simp [hd])) hMatched.init
    have hOpen := (counters_events f es).1
    rw [List.foldl_append, lastCall_append]
    simp only [List.foldl_cons, List.foldl_nil]
    generalize es.foldl Event.onCalls .none = c at ih hOpen ⊢
    cases e with
    | FuncCall x y a b => exact absurd rfl (hCalls _ (by simp) x y a b)
    -- an entry sets both arguments
    | FuncEnter g a b =>
      by_cases hg : g = f
      · subst hg
        cases i <;> simp [Event.onCalls, Event.before, AuxOp.onCalls, Calls.arg, Event.argument,
          Frame.arg, Event.callee]
      · rw [if_neg (by simpa [Event.callee] using hg), ← ih]
        cases i
        · exact Function.update_of_ne (Ne.symm hg) ..
        · exact Function.update_of_ne (Ne.symm hg) ..
    -- a return unsets them, as the function is open
    | FuncReturn g r =>
      by_cases hg : g = f
      · subst hg
        have hPos : c.inFunc g ≠ 0 := by
          have := hMatched es g r [] rfl
          omega
        rw [if_pos (show (Event.FuncReturn g r).callee = some g from rfl)]
        simp only [Event.onCalls, if_neg hPos, Option.map_some, Option.getD_some, Event.argument]
        cases i <;> exact Function.update_self ..
      · rw [if_neg (by simpa [Event.callee] using hg), ← ih]
        simp only [Event.onCalls]
        split
        · rfl
        · cases i
          · exact Function.update_of_ne (Ne.symm hg) ..
          · exact Function.update_of_ne (Ne.symm hg) ..
    | MemRead | MemWrite | MemAccessBefore | ThreadEnd | AtPc =>
      rw [if_neg (by simp [Event.callee]), ← ih]
      rfl

/-- The open calls after an event, the innermost first; `none` for a return that does
not match the last entry. -/
def Event.onStack (st : List Frame) : Event → Option (List Frame)
  | FuncEnter g a b => some (⟨g, a, b⟩ :: st)
  | FuncReturn g _ =>
    match st with
    | [] => none
    | fr :: rest => if fr.addr = g then some rest else none
  | _ => some st

/-- The open calls of a well-nested sequence of events. -/
def callStack (es : List Event) : Option (List Frame) := es.foldlM Event.onStack []

/-- The innermost open activation of `f`. -/
def innermost (f : ADDRINT) (st : List Frame) : Option Frame := st.find? fun fr => fr.addr == f

theorem callStack_append (es : List Event) (e : Event) :
    callStack (es ++ [e]) = (callStack es).bind fun st => e.onStack st := by
  unfold callStack
  rw [List.foldlM_append]
  cases es.foldlM Event.onStack [] with
  | none => rfl
  | some st => simp

/-- The stack against the events it comes from. -/
structure StackOf (f : ADDRINT) (es : List Event) (st : List Frame) : Prop where
  count   : openActivations f es = st.countP fun fr => fr.addr == f
  entry   : ∀ a b, lastCall f es = some (.FuncEnter f a b) → innermost f st = some ⟨f, a, b⟩
  nothing : lastCall f es = none → innermost f st = none

/-- The stack of a well-nested run has the open activations of each function, the arguments
of the last entry, if this was not followed by a return, on top, and nothing of a function
without events. -/
theorem stackOf {st : List Frame} (hStack : callStack es = some st) (f : ADDRINT) :
    StackOf f es st := by
  induction es using List.reverseRecOn generalizing st with
  | nil =>
    obtain rfl := Option.some.inj hStack
    exact ⟨rfl, nofun, fun _ => rfl⟩
  | append_singleton es e ih =>
    rw [callStack_append, Option.bind_eq_some_iff] at hStack
    obtain ⟨st₀, hStack₀, hStep⟩ := hStack
    obtain ⟨hCount, hEntry, hNothing⟩ := ih hStack₀
    have hOpen : openActivations f (es ++ [e]) = e.openAfter f (openActivations f es) := by
      simp only [openActivations, List.foldl_append, List.foldl_cons, List.foldl_nil]
    have hOther : e.callee ≠ some f → lastCall f (es ++ [e]) = lastCall f es := by
      intro hCallee
      rw [lastCall_append, if_neg hCallee]
    cases e with
    -- an entry is pushed
    | FuncEnter g a b =>
      obtain rfl := Option.some.inj hStep
      by_cases hg : g = f
      · subst hg
        refine ⟨?_, fun a' b' hLast => ?_, fun hLast => ?_⟩
        · rw [hOpen, hCount]
          simp [Event.openAfter]
        · rw [lastCall_append, if_pos (show (Event.FuncEnter g a b).callee = some g from rfl)] at hLast
          cases hLast
          simp [innermost]
        · rw [lastCall_append, if_pos (show (Event.FuncEnter g a b).callee = some g from rfl)] at hLast
          cases hLast
      · have hLast := hOther (by simpa [Event.callee] using hg)
        rw [show (Event.FuncEnter g a b).openAfter f (openActivations f es) = openActivations f es by
          simp [Event.openAfter, hg]] at hOpen
        refine ⟨?_, fun a' b' h => ?_, fun h => ?_⟩
        · rw [hOpen, hCount]
          simp [hg]
        · rw [← hEntry a' b' (hLast ▸ h)]
          simp [innermost, hg]
        · rw [← hNothing (hLast ▸ h)]
          simp [innermost, hg]
    -- a return takes the top, which is the activation of the same function
    | FuncReturn g r =>
      simp only [Event.onStack] at hStep
      split at hStep
      · cases hStep
      rename_i fr rest
      split at hStep
      case isFalse => cases hStep
      rename_i hAddr
      obtain rfl := Option.some.inj hStep
      by_cases hg : g = f
      · subst hg
        refine ⟨?_, fun a' b' hLast => ?_, fun hLast => ?_⟩
        · rw [hOpen, hCount]
          simp [Event.openAfter, hAddr]
        · rw [lastCall_append, if_pos (show (Event.FuncReturn g r).callee = some g from rfl)] at hLast
          cases hLast
        · rw [lastCall_append, if_pos (show (Event.FuncReturn g r).callee = some g from rfl)] at hLast
          cases hLast
      · have hLast := hOther (by simpa [Event.callee] using hg)
        rw [show (Event.FuncReturn g r).openAfter f (openActivations f es) = openActivations f es by
          simp [Event.openAfter, hg]] at hOpen
        have hTop : (fr.addr == f) = false := by simp [hAddr, hg]
        refine ⟨?_, fun a' b' h => ?_, fun h => ?_⟩
        · rw [hOpen, hCount, List.countP_cons, hTop]
          simp
        · rw [← hEntry a' b' (hLast ▸ h)]
          simp [innermost, hTop]
        · rw [← hNothing (hLast ▸ h)]
          simp [innermost, hTop]
    | MemRead | MemWrite | MemAccessBefore | ThreadEnd | AtPc | FuncCall =>
      obtain rfl := Option.some.inj hStep
      have hLast := hOther (by simp [Event.callee])
      exact ⟨hOpen.trans hCount, fun a' b' h => hEntry a' b' (hLast ▸ h),
        fun h => hNothing (hLast ▸ h)⟩

/-- A function is open when some activation of it is on the stack. -/
theorem StackOf.open_iff {st : List Frame} (h : StackOf f es st) :
    0 < openActivations f es ↔ innermost f st ≠ none := by
  rw [h.count, List.countP_pos_iff, innermost, Ne, List.find?_eq_none]
  simp

/-- A well-nested run returns only from open activations. -/
theorem matched_of_callStack {st : List Frame} (hStack : callStack es = some st) : Matched es := by
  rintro pre f r post rfl
  rw [show pre ++ Event.FuncReturn f r :: post = (pre ++ [.FuncReturn f r]) ++ post by simp] at hStack
  unfold callStack at hStack
  rw [List.foldlM_append, Option.bind_eq_bind, Option.bind_eq_some_iff] at hStack
  obtain ⟨st₁, hFirst, -⟩ := hStack
  have hFirst : callStack (pre ++ [.FuncReturn f r]) = some st₁ := hFirst
  rw [callStack_append, Option.bind_eq_some_iff] at hFirst
  obtain ⟨st₀, hStack₀, hStep⟩ := hFirst
  rw [(stackOf hStack₀ f).open_iff]
  simp only [Event.onStack] at hStep
  split at hStep
  · cases hStep
  rename_i fr rest
  split at hStep
  case isFalse => cases hStep
  rename_i hAddr
  simp [innermost, hAddr]

/-- **Recorded arguments** at every point of a well-nested run of a thread: they are those
of the innermost open activation, none when no activation is open, if and only if no
activation is open or the last event of the function is its entry, with neither argument
zero. A return from a nested call unsets the arguments of the outer one. -/
theorem innermost_iff (h : Runs.Reachable system s) (hRest : s.AtRest t)
    (hCalls : NoFuncCall (s.passed t)) {st : List Frame} (hStack : callStack (s.passed t) = some st)
    (f : ADDRINT) :
    (∀ i, s.aux.argument i f t = (innermost f st).map (Frame.arg · i)) ↔
      innermost f st = none ∨
        ∃ a b, lastCall f (s.passed t) = some (.FuncEnter f a b) ∧ a ≠ 0 ∧ b ≠ 0 := by
  have hOf := stackOf hStack f
  -- what the table has: the argument of the last event of the function, with zero for none
  have hArg : ∀ i, s.aux.argument i f t =
      if ((lastCall f (s.passed t)).map (Event.argument i)).getD 0 = 0 then none
      else some (((lastCall f (s.passed t)).map (Event.argument i)).getD 0) := by
    intro i
    rw [argument_eq, calls_atRest h hRest, arg_events hCalls (matched_of_callStack hStack)]
  -- no event of the function, an entry or a return last
  cases hLast : lastCall f (s.passed t) with
  | none =>
    have hNone := hOf.nothing hLast
    rw [hNone]
    refine ⟨fun _ => Or.inl rfl, fun _ i => ?_⟩
    rw [hArg, hLast]
    rfl
  | some e =>
    have hCallee : e.callee = some f := by
      unfold lastCall at hLast
      simpa using (List.mem_filter.mp (List.mem_of_getLast? hLast)).2
    simp only [hLast, Option.map_some, Option.getD_some] at hArg
    cases e with
    | FuncEnter g a b =>
      obtain rfl := Option.some.inj hCallee
      -- the last entry is the innermost activation
      rw [hOf.entry a b hLast]
      constructor
      · intro hAll
        refine Or.inr ⟨a, b, rfl, fun ha => ?_, fun hb => ?_⟩
        · have h₀ := hAll .arg0
          rw [hArg] at h₀
          simp [Event.argument, Frame.arg, ha] at h₀
        · have h₁ := hAll .arg1
          rw [hArg] at h₁
          simp [Event.argument, Frame.arg, hb] at h₁
      · rintro (hNone | ⟨a', b', hEq, ha, hb⟩) i
        · cases hNone
        · cases hEq
          rw [hArg]
          cases i
          · simp [Event.argument, Frame.arg, ha]
          · simp [Event.argument, Frame.arg, hb]
    -- after a return nothing is recorded, which is right if no activation is left
    | FuncReturn g r =>
      constructor
      · intro hAll
        have h₀ := hAll .arg0
        rw [hArg] at h₀
        cases hIn : innermost f st with
        | none => exact Or.inl rfl
        | some fr =>
          rw [hIn] at h₀
          simp [Event.argument] at h₀
      · rintro (hNone | ⟨a', b', hEq, -⟩) i
        · rw [hNone, hArg]
          rfl
        · cases hEq
    | _ => cases hCallee

/-- **A return from a recursive call unsets the arguments of the outer one**: the arguments
are kept for each function and thread, not for each activation, so that the outer call has
none while it still runs. -/
theorem outer_arguments_lost :
    ¬ ∀ s t f st, Runs.Reachable system s → s.AtRest t → NoFuncCall (s.passed t) →
      callStack (s.passed t) = some st →
        ∀ i, s.aux.argument i f t = (innermost f st).map (Frame.arg · i) := by
  intro hAll
  obtain ⟨s, hRun, hIdle, hPassed, hArg⟩ : ∃ s, State.start.run nestedRun = some s ∧
      s.loc 2 = .idle ∧
      s.passed 2 = [.FuncEnter 0x800 7 8, .FuncEnter 0x800 9 10, .FuncReturn 0x800 0] ∧
      s.aux.argument .arg0 0x800 2 = none := ⟨_, rfl, rfl, rfl, rfl⟩
  have hOuter := hAll s 2 0x800 [⟨0x800, 7, 8⟩] (reachable_run (.init rfl) hRun) (Or.inl hIdle)
    (by rw [hPassed]; simp [NoFuncCall]) (by rw [hPassed]; rfl) .arg0
  rw [hArg] at hOuter
  cases hOuter

/-- Thread 2 is in a nested activation, and thread 3 has entered the function in between. -/
def innerRun : List (THREADID × Act) :=
  enterRun 7 8 ++ onceRun.map (fun a => (3, a.2)) ++ enterRun 9 10

/-- Two entries without a return: the arguments are those of the inner activation. -/
theorem innermost_nested :
    ∃ s, Runs.Reachable system s ∧ callStack (s.passed 2) = some [⟨0x800, 9, 10⟩, ⟨0x800, 7, 8⟩] ∧
      ∀ i, s.aux.argument i 0x800 2 = some ((Frame.mk 0x800 9 10).arg i) := by
  obtain ⟨s, hRun, hIdle, hPassed⟩ : ∃ s, State.start.run innerRun = some s ∧
      s.loc 2 = .idle ∧ s.passed 2 = [.FuncEnter 0x800 7 8, .FuncEnter 0x800 9 10] :=
    ⟨_, rfl, rfl, rfl⟩
  have hReach := reachable_run (.init rfl) hRun
  have hStack : callStack (s.passed 2) = some [⟨0x800, 9, 10⟩, ⟨0x800, 7, 8⟩] := by
    rw [hPassed]
    rfl
  refine ⟨s, hReach, hStack, ?_⟩
  exact (innermost_iff hReach (Or.inl hIdle) (by rw [hPassed]; simp [NoFuncCall])
    hStack 0x800).mpr
    (Or.inr ⟨9, 10, by rw [hPassed]; rfl, by decide, by decide⟩)

-- ---------------------------------------------------------------------------
-- Predicates on arguments
-- ---------------------------------------------------------------------------

/-- The thread has only entered functions. -/
def OnlyEnters (es : List Event) : Prop := ∀ e ∈ es, ∃ f a b, e = .FuncEnter f a b

/-- The argument of the last entry of `f`. -/
def lastArgument (i : ArgIndex) (f : ADDRINT) (es : List Event) : Option ADDRINT :=
  (lastCall f es).map (Event.argument i)

/-- `_WITH_ARG0` and `_WITH_ARG1`: both a constant and a capture variable are an
`AuxConst0` with a value, zero when it is unset. -/
def WITH_ARG (f v : ADDRINT) : AuxVar1Pre ADDRINT ADDRINT := ⟨some f, some v⟩

/-- The law of the predicates on argument `i` of `f` in thread `t`, for a constant `v`
and for a capture variable. -/
structure ArgumentLaw (s : State) (t : THREADID) (i : ArgIndex) (f v : ADDRINT) : Prop where
  const : ((WITH_ARG f v).EvalState (s.aux.args i) t).1 = true ↔
    lastArgument i f (s.passed t) = some v
  unchanged : ((WITH_ARG f v).EvalState (s.aux.args i) t).2 = WITH_ARG f v
  capture : ((WITH_ARG f 0).EvalState (s.aux.args i) t).1 = true ↔
    lastArgument i f (s.passed t) ≠ none
  captured : ∀ a, lastArgument i f (s.passed t) = some a →
    ((WITH_ARG f 0).EvalState (s.aux.args i) t).2 = WITH_ARG f a

theorem noFuncCall_of_enters (h : OnlyEnters es) : NoFuncCall es := by
  rintro e he x y a b rfl
  obtain ⟨f, a', b', hEq⟩ := h _ he
  cases hEq

theorem matched_of_enters (h : OnlyEnters es) : Matched es := by
  rintro pre f r post rfl
  obtain ⟨g, a, b, hEq⟩ := h (.FuncReturn f r) (by simp)
  cases hEq

/-- What the predicate does on a recorded value. -/
theorem withArg_eval {var : AuxVar1 ADDRINT ADDRINT 0 0} {v a : ADDRINT} (hGet : var.get f t = a) :
    (WITH_ARG f v).EvalState var t =
      if a = 0 then (false, WITH_ARG f v)
      else if v = 0 then (true, WITH_ARG f a) else (a == v, WITH_ARG f v) := by
  have hSet : var.isset f t = true ↔ a ≠ 0 := by
    rw [AuxVar1.isset_iff_get, hGet]
  unfold WITH_ARG AuxVar1Pre.EvalState
  simp only [hGet]
  by_cases ha : a = 0
  · simp [hSet, ha]
  · simp [hSet, ha]

/-- **The predicates on arguments** after any entries of functions by a thread: the law
holds for a constant and a capture variable if and only if nothing is recorded, or the
constant is not zero and the recorded argument is not zero. -/
theorem withArg_iff (h : Runs.Reachable system s) (hRest : s.AtRest t)
    (hEnters : OnlyEnters (s.passed t)) (i : ArgIndex) (f v : ADDRINT) :
    ArgumentLaw s t i f v ↔
      lastArgument i f (s.passed t) = none ∨ v ≠ 0 ∧ lastArgument i f (s.passed t) ≠ some 0 := by
  have hGet : (s.aux.args i).get f t = (lastArgument i f (s.passed t)).getD 0 := by
    rw [← show (s.aux.calls t).arg i f = (s.aux.args i).get f t by cases i <;> rfl,
      calls_atRest h hRest]
    exact arg_events (noFuncCall_of_enters hEnters) (matched_of_enters hEnters) i f
  have hEval : ∀ w, (WITH_ARG f w).EvalState (s.aux.args i) t = _ := fun w => withArg_eval (v := w) hGet
  -- no entry: all parts of the law are false together
  cases hLast : lastArgument i f (s.passed t) with
  | none =>
    rw [hLast] at hEval
    refine ⟨fun _ => Or.inl rfl, fun _ => ⟨?_, ?_, ?_, ?_⟩⟩
    · simp [hEval, hLast]
    · simp [hEval]
    · simp [hEval, hLast]
    · simp [hLast]
  | some a =>
    rw [hLast] at hEval
    simp only [Option.getD_some] at hEval
    constructor
    · rintro ⟨hConst, hUnchanged, hCapture, -⟩
      -- a recorded zero is not seen as an argument
      have ha : a ≠ 0 := by
        intro ha
        have hTrue := hCapture.mpr (by rw [hLast]; exact nofun)
        rw [hEval, if_pos ha] at hTrue
        cases hTrue
      refine Or.inr ⟨fun hv => ?_, fun hEq => ha (Option.some.inj hEq)⟩
      rw [hEval, if_neg ha, if_pos hv, hv] at hUnchanged
      simp only [WITH_ARG, AuxVar1Pre.mk.injEq, Option.some.injEq, true_and] at hUnchanged
      exact ha hUnchanged
    -- neither is zero, and the comparison is the one meant
    · rintro (hNone | ⟨hv, hZero⟩)
      · cases hNone
      have ha : a ≠ 0 := fun ha => hZero (by rw [ha])
      refine ⟨?_, ?_, ?_, ?_⟩
      · simp [hEval, ha, hv, hLast]
      · simp [hEval, ha, hv]
      · simp [hEval, ha, hLast]
      · rintro b hb
        rw [hLast] at hb
        obtain rfl := Option.some.inj hb
        simp [hEval, ha]

/-- **The constant zero** is taken for an unset capture variable: the predicate with the
value 0 holds of an entry with argument 7, and binds the constant to it. -/
theorem withArg_zero :
    ¬ ∀ s t i f v, Runs.Reachable system s → s.AtRest t → OnlyEnters (s.passed t) →
      ArgumentLaw s t i f v := by
  intro hAll
  obtain ⟨s, hRun, hIn, hPassed⟩ : ∃ s, State.start.run onceRun = some s ∧
      s.InTransition 2 ∧ s.passed 2 = [.FuncEnter 0x800 7 8] := ⟨_, rfl, ⟨_, rfl⟩, rfl⟩
  have hReach := reachable_run (.init rfl) hRun
  have hEnters : OnlyEnters (s.passed 2) := by
    rw [hPassed]
    simp [OnlyEnters]
  have hLaw := hAll s 2 .arg0 0x800 0 hReach (Or.inr hIn) hEnters
  have hTrue := hLaw.capture.mpr (by rw [hPassed]; decide)
  have hZero := hLaw.const.mp hTrue
  rw [hPassed] at hZero
  exact absurd hZero (by decide)

/-- After two entries of thread 2 the argument that is compared is that of the second one.
-/
theorem withArg_nested :
    ∃ s, Runs.Reachable system s ∧ lastArgument .arg0 0x800 (s.passed 2) = some 9 ∧
      ArgumentLaw s 2 .arg0 0x800 7 := by
  obtain ⟨s, hRun, hIdle, hPassed⟩ : ∃ s, State.start.run innerRun = some s ∧
      s.loc 2 = .idle ∧ s.passed 2 = [.FuncEnter 0x800 7 8, .FuncEnter 0x800 9 10] :=
    ⟨_, rfl, rfl, rfl⟩
  have hReach := reachable_run (.init rfl) hRun
  have hLast : lastArgument .arg0 0x800 (s.passed 2) = some 9 := by
    rw [hPassed]
    rfl
  exact ⟨s, hReach, hLast, (withArg_iff hReach (Or.inl hIdle) (by rw [hPassed]; simp [OnlyEnters])
    .arg0 0x800 7).mpr (Or.inr ⟨by decide, by rw [hLast]; decide⟩)⟩

end Aux

end Concurrit.Model
