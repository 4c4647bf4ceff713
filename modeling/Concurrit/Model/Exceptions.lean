import Concurrit.Lib.Runs
import Concurrit.Model.Manager

/-!
# Concurrit — exceptions of one execution

The end node collects the exceptions that end an execution. They form a chain
of `ConcurritException` objects, the one added last first; `Explore` searches
the chain for a cause of a given class to decide what the execution was.

An exception object is its address together with its class, so that two
objects are the same exception only if they are the same pointer
(`ConcurritException::contains` compares pointers).
-/

namespace Concurrit.Model

-- ---------------------------------------------------------------------------
-- Exceptions and chains
-- ---------------------------------------------------------------------------

/-- The classes `Explore` tells apart. An assumption violation is a backtrack
exception, a deadlock is an assertion violation. -/
inductive ExceptionClass where
  | backtrack (reason : BacktrackReason)
  | assertionViolation
  | internal
  | other
deriving DecidableEq, Repr

/-- An exception object. -/
structure Exc where
  address : Nat
  cls : ExceptionClass
deriving DecidableEq, Repr

namespace Exc

/-- `INSTANCEOF(e, BacktrackException*)`. -/
def isBacktrack (e : Exc) : Bool :=
  match e.cls with
  | .backtrack _ => true
  | _ => false

/-- `INSTANCEOF(e, AssertionViolationException*)`. -/
def isAssertionViolation (e : Exc) : Bool := e.cls == .assertionViolation

/-- `INSTANCEOF(e, InternalException*)`. -/
def isInternal (e : Exc) : Bool := e.cls == .internal

end Exc

/-- One link of a chain. -/
structure ConcurritException where
  where_ : String
  cause : Exc
  owner : Nat
deriving DecidableEq, Repr

/-- A chain of `ConcurritException` objects along `next`; `NULL` is the empty one. -/
abbrev ExcChain := List ConcurritException

namespace ExcChain

/-- `contains`. -/
def contains (chain : ExcChain) (e : Exc) : Bool := chain.any fun ce => ce.cause == e

/-- The first cause of the chain in a class. -/
def findCause (chain : ExcChain) (isClass : Exc → Bool) : Option Exc :=
  (chain.find? fun ce => isClass ce.cause).map ConcurritException.cause

/-- `get_backtrack`. -/
def getBacktrack (chain : ExcChain) : Option Exc := findCause chain Exc.isBacktrack

/-- `get_assertion_violation`. -/
def getAssertionViolation (chain : ExcChain) : Option Exc :=
  findCause chain Exc.isAssertionViolation

/-- `get_internal`. -/
def getInternal (chain : ExcChain) : Option Exc := findCause chain Exc.isInternal

/-- `get_non_backtrack`. -/
def getNonBacktrack (chain : ExcChain) : Option Exc := findCause chain fun e => !e.isBacktrack

end ExcChain

-- ---------------------------------------------------------------------------
-- The end node
-- ---------------------------------------------------------------------------

/-- The field `EndNode` adds to a node. -/
structure EndNode where
  exception : ExcChain
deriving DecidableEq, Repr

namespace EndNode

/-- `clear_exceptions`. -/
def clearExceptions (_ : EndNode) : EndNode := ⟨[]⟩

/-- `add_exception`: both conjuncts of the condition are those of the source. -/
def addException (en : EndNode) (e : Exc) (owner : Nat) (where_ : String) : EndNode :=
  if en.exception = [] ∧ ¬ ExcChain.contains en.exception e then ⟨⟨where_, e, owner⟩ :: en.exception⟩
  else en

end EndNode

/-- `JoinAllThreads` when threads are not cancelled: `waits` are the numbers of
threads that `WaitForAllEnd` reports as timed out, call by call. The result says
whether the deadlock exception was added. -/
def joinAllThreads (maxTimeOutsBeforeDeadlock : Nat) (deadlock : Exc) (owner : Nat) :
    List Nat → Nat → EndNode → EndNode × Bool
  | waits, numTimedOut, en =>
    if (ExcChain.getNonBacktrack en.exception).isSome then (en, false)
    else if numTimedOut = maxTimeOutsBeforeDeadlock then
      (en.addException deadlock owner "JoinAllThreads", true)
    else match waits with
      | [] => (en, false)
      | timedOut :: rest =>
        if 0 < timedOut then
          joinAllThreads maxTimeOutsBeforeDeadlock deadlock owner rest (numTimedOut + 1) en
        else (en, false)

-- ---------------------------------------------------------------------------
-- Between two restarts
-- ---------------------------------------------------------------------------

/-- What adds exceptions between two restarts: `EndWithException` of the main
thread or of a test thread, a direct `add_exception`, and the joins of the main
thread. -/
inductive EndEvent where
  | endWithException (thread : Nat) (e : Exc) (where_ : String)
  | joinAllThreads (maxTimeOutsBeforeDeadlock : Nat) (deadlock : Exc) (main : Nat)
      (waits : List Nat)
deriving Repr

/-- The end node, and every exception it has been given since the last restart. -/
structure EndState where
  endNode : EndNode
  added : List Exc

namespace EndState

/-- One caller after the other: each call runs under the lock on the reference, or
after the test has ended. -/
def step (s : EndState) : EndEvent → EndState
  | .endWithException thread e where_ => ⟨s.endNode.addException e thread where_, s.added ++ [e]⟩
  | .joinAllThreads maxTimeOuts deadlock main waits =>
    let (en, tried) := Model.joinAllThreads maxTimeOuts deadlock main waits 0 s.endNode
    ⟨en, if tried then s.added ++ [deadlock] else s.added⟩

/-- The end node after `Restart`. -/
def initial : EndState := ⟨EndNode.clearExceptions ⟨[]⟩, []⟩

/-- The orders in which exceptions are added in one execution. -/
def system : Runs.System EndState EndEvent := Runs.machine initial step

end EndState

-- ---------------------------------------------------------------------------
-- What a chain holds
-- ---------------------------------------------------------------------------

variable {en : EndNode} {e e' : Exc} {chain : ExcChain} {s : EndState}

namespace ExcChain

theorem contains_iff : contains chain e = true ↔ ∃ ce ∈ chain, ce.cause = e := by
  simp [contains, List.any_eq_true]

theorem findCause_eq_none {isClass : Exc → Bool} :
    findCause chain isClass = none ↔ ∀ ce ∈ chain, isClass ce.cause = false := by
  simp [findCause, List.find?_eq_none]

theorem findCause_isSome {isClass : Exc → Bool} (hMem : contains chain e = true)
    (hClass : isClass e = true) : ∃ c, findCause chain isClass = some c := by
  obtain ⟨ce, hce, rfl⟩ := contains_iff.mp hMem
  rcases hFind : findCause chain isClass with _ | c
  · rw [findCause_eq_none.mp hFind ce hce] at hClass
    cases hClass
  · exact ⟨c, rfl⟩

end ExcChain

/-- **Only the first exception is kept.** -/
theorem addException_eq (en : EndNode) (e : Exc) (owner : Nat) (where_ : String) :
    en.addException e owner where_ = if en.exception = [] then ⟨[⟨where_, e, owner⟩]⟩ else en := by
  unfold EndNode.addException
  by_cases hNil : en.exception = []
  · simp [hNil, ExcChain.contains]
  · simp [hNil]

/-- `JoinAllThreads` leaves the end node alone, or adds the deadlock to it. -/
theorem joinAllThreads_cases (maxTimeOuts : Nat) (deadlock : Exc) (owner : Nat) (waits : List Nat)
    (k : Nat) (en : EndNode) :
    joinAllThreads maxTimeOuts deadlock owner waits k en = (en, false) ∨
    joinAllThreads maxTimeOuts deadlock owner waits k en =
      (en.addException deadlock owner "JoinAllThreads", true) := by
  induction waits generalizing k with
  | nil =>
    unfold joinAllThreads
    split
    · exact Or.inl rfl
    · split
      · exact Or.inr rfl
      · exact Or.inl rfl
  | cons timedOut rest ih =>
    unfold joinAllThreads
    split
    · exact Or.inl rfl
    · split
      · exact Or.inr rfl
      · dsimp only
        split
        · exact ih (k + 1)
        · exact Or.inl rfl

/-- The chain holds the first exception added, and no other one. -/
def KeepsFirst (s : EndState) : Prop :=
  s.endNode.exception.map ConcurritException.cause = s.added.head?.toList

/-- Adding an exception: the chain holds the first one added, and no other one. -/
theorem keepsFirst_add (hKeep : KeepsFirst s) (e : Exc) (owner : Nat) (where_ : String) :
    KeepsFirst ⟨s.endNode.addException e owner where_, s.added ++ [e]⟩ := by
  unfold KeepsFirst at *
  simp only [addException_eq]
  rcases hAdded : s.added with _ | ⟨first, rest⟩
  · rw [hAdded] at hKeep
    have hNil : s.endNode.exception = [] := by simpa using hKeep
    simp [hNil]
  · rw [hAdded] at hKeep
    have hNe : s.endNode.exception ≠ [] := by
      intro hNil
      simp [hNil] at hKeep
    simpa [hNe] using hKeep

/-- **Step lemma of the chain**: every way of reporting keeps the first exception, and no
other one. -/
theorem keepsFirst_step (s : EndState) (event : EndEvent) (hKeep : KeepsFirst s) :
    KeepsFirst (s.step event) := by
  cases event with
  | endWithException thread e where_ => exact keepsFirst_add hKeep e thread where_
  | joinAllThreads maxTimeOuts deadlock main waits =>
    unfold EndState.step
    rcases joinAllThreads_cases maxTimeOuts deadlock main waits 0 s.endNode with hEq | hEq
    · simpa only [hEq, Bool.false_eq_true, if_false] using hKeep
    · simpa only [hEq, if_true] using keepsFirst_add hKeep deadlock main "JoinAllThreads"

/-- **In every execution the chain holds the exception added first.** -/
theorem keepsFirst_reachable (h : Runs.Reachable EndState.system s) : KeepsFirst s := by
  refine h.invariant ?_ ?_
  · rintro _ rfl
    rfl
  · rintro s event _ hKeep _ rfl
    exact keepsFirst_step s event hKeep

/-- What the chain contains after any order of calls. -/
theorem contains_reachable (h : Runs.Reachable EndState.system s) :
    ExcChain.contains s.endNode.exception e = true ↔ s.added.head? = some e := by
  have hKeep := keepsFirst_reachable h
  unfold KeepsFirst at hKeep
  rw [ExcChain.contains_iff]
  constructor
  · rintro ⟨ce, hce, rfl⟩
    have hMem : ce.cause ∈ s.endNode.exception.map ConcurritException.cause :=
      List.mem_map_of_mem hce
    rw [hKeep, Option.mem_toList] at hMem
    exact hMem
  · intro hHead
    have hMem : e ∈ s.endNode.exception.map ConcurritException.cause := by
      rw [hKeep, hHead]
      simp
    obtain ⟨ce, hce, hCause⟩ := List.mem_map.mp hMem
    exact ⟨ce, hce, hCause⟩

end Concurrit.Model
