import Mathlib.Data.List.Nodup
import Mathlib.Logic.Function.Basic
import Concurrit.Lib.Runs
import Concurrit.Model.EventPipe
import Concurrit.Model.Tree

/-!
# Concurrit — the group of coroutines

`CoroutineGroup` keeps the coroutines of a scenario in a map from ids to objects and in
the order of their creation. A coroutine that is created without an id gets the id after
the one seen last, and in the executions after the first one `Scenario::CreateThread` hands
the coroutines out again in the order of their creation.

`unique_iff` says when the ids of the members stay unique, and `identifies` when
`CreateThread` returns the coroutine it is asked for.
-/

namespace Concurrit.Model

open Function (update)

namespace Group

open Ipc (THREADID)

-- ---------------------------------------------------------------------------
-- States
-- ---------------------------------------------------------------------------

def MAIN_TID : THREADID := 0

abbrev StatusType := Nat

def PASSIVE : StatusType := 1
def ENABLED : StatusType := 2

structure CoroutineGroup where
  next_tid : THREADID
  members : THREADID → Option Thread
  member_tidseq : List THREADID
  next_idx : Nat

/-- A call of `CreateThread` that has returned: the id asked for, the coroutine, and what the
id map holds under the id asked for. -/
structure Call where
  asked : THREADID
  co : Thread
  found : Option Thread
deriving DecidableEq, Repr

/-- The group, the `Coroutine` objects made so far, of which `next` is the number, and the
calls of `CreateThread` in the current execution. -/
structure State where
  group : CoroutineGroup
  tid : Thread → THREADID
  status : Thread → StatusType
  next : Thread
  calls : List Call

namespace State

variable {s s' : State} {t : THREADID} {co : Thread}

def initial : State where
  group := ⟨1, fun _ => none, [], 0⟩
  tid := fun _ => -1
  status := fun _ => PASSIVE
  next := 0
  calls := []

/-- `new Coroutine(tid, ...)`. -/
def newCoroutine (s : State) (tid : THREADID) : State × Thread :=
  ({ s with
    tid := update s.tid s.next tid
    status := update s.status s.next PASSIVE
    next := s.next + 1 }, s.next)

/-- `AddMember`. -/
def AddMember (s : State) (member : Thread) : Option State := do
  guard (s.tid member ≠ MAIN_TID)
  -- `HasMember`
  guard (s.group.members (s.tid member) = none)
  let tid := if s.tid member < 0 then s.group.next_tid else s.tid member
  guard (s.group.next_idx = s.group.member_tidseq.length)
  return { s with
    tid := update s.tid member tid
    group := {
      next_tid := tid + 1
      members := update s.group.members tid (some member)
      member_tidseq := s.group.member_tidseq ++ [tid]
      next_idx := s.group.next_idx + 1 } }

/-- `GetNthCreatedMember` with the default for `tid`. -/
def GetNthCreatedMember (s : State) (i : Nat) : Option (Option Thread) := do
  guard (i ≤ s.group.next_idx ∧ s.group.next_idx ≤ s.group.member_tidseq.length)
  match s.group.member_tidseq[i]? with
  | none => return none
  | some exp_tid =>
    let member ← s.group.members exp_tid
    guard (s.tid member = exp_tid ∧ s.status member > PASSIVE)
    return some member

/-- `GetNextCreatedMember`. It does not use the id it is given. -/
def GetNextCreatedMember (s : State) (_tid : THREADID) : Option (State × Option Thread) := do
  guard (s.group.next_idx ≤ s.group.member_tidseq.length)
  if s.group.next_idx < s.group.member_tidseq.length then
    let found ← s.GetNthCreatedMember s.group.next_idx
    guard (∀ member ∈ found, s.tid member ≠ MAIN_TID)
    return ({ s with group.next_idx := s.group.next_idx + 1 }, found)
  else
    return (s, none)

/-- The coroutine created next in an earlier execution, or a new one. -/
def recreateOrCreate (s : State) (tid : THREADID) : Option (State × Thread) := do
  let (s, found) ← s.GetNextCreatedMember tid
  match found with
  | none =>
    let (s, co) := s.newCoroutine tid
    let s ← s.AddMember co
    return (s, co)
  | some co =>
    guard (s.status co > PASSIVE)
    return (s, co)

/-- `Scenario::CreateThread` up to `Start`. `CreatePThread` is the same without an id. -/
def CreateThread (s : State) (tid : THREADID) : Option State := do
  guard (tid < 0 ∨ tid > MAIN_TID)
  let (s, co) ← s.recreateOrCreate tid
  guard (s.tid co > MAIN_TID)
  return { s with calls := s.calls ++ [⟨tid, co, s.group.members tid⟩] }

/-- `Restart`, at the beginning of the next execution. -/
def Restart (s : State) : State := { s with group.next_idx := 0, calls := [] }

/-- `DeleteAllMembers`, at the end of an execution whose threads are cancelled. -/
def DeleteAllMembers (s : State) : State := { s with group := ⟨1, fun _ => none, [], 0⟩ }

end State

/-- What a test does with the group; a coroutine changes its status by itself. -/
inductive Event where
  | CreateThread (tid : THREADID)
  | Restart
  | DeleteAllMembers
  | setStatus (co : Thread) (status : StatusType)

def next (s : State) : Event → Option State
  | .CreateThread tid => s.CreateThread tid
  | .Restart => some s.Restart
  | .DeleteAllMembers => some s.DeleteAllMembers
  | .setStatus co status => some { s with status := update s.status co status }

def system : Runs.System State Event := Runs.partialMachine State.initial next

-- ---------------------------------------------------------------------------
-- Adding a member
-- ---------------------------------------------------------------------------

namespace State

/-- A coroutine is made, with an id or without one, and added. -/
def add (s : State) (tid : THREADID) : Option State :=
  (s.newCoroutine tid).1.AddMember (s.newCoroutine tid).2

/-- The id a new member gets. -/
def idFor (s : State) (tid : THREADID) : THREADID := if tid < 0 then s.group.next_tid else tid

end State

section

variable {s s' : State} {t : THREADID} {co : Thread}

/-- **`AddMember` of a new coroutine.** -/
theorem add_cases (h : s.add t = some s') :
    t ≠ MAIN_TID ∧ s.group.members t = none ∧
      s.group.next_idx = s.group.member_tidseq.length ∧
      s' = { s with
        tid := update s.tid s.next (s.idFor t)
        status := update s.status s.next PASSIVE
        next := s.next + 1
        group := {
          next_tid := s.idFor t + 1
          members := update s.group.members (s.idFor t) (some s.next)
          member_tidseq := s.group.member_tidseq ++ [s.idFor t]
          next_idx := s.group.next_idx + 1 } } := by
  simp only [State.add, State.newCoroutine, State.AddMember, Function.update_self,
    Function.update_idem, Option.bind_eq_bind, Option.bind_eq_some_iff, Option.guard_eq_some',
    Option.pure_def, Option.some.injEq] at h
  obtain ⟨_, hMain, _, hUnused, _, hIdx, rfl⟩ := h
  exact ⟨hMain, hUnused, (Option.guard_eq_some' _).mp hIdx, rfl⟩

/-- The id after the last one of a sequence. -/
def successor (seq : List THREADID) : THREADID := (seq.getLast?.map (· + 1)).getD 1

@[simp] theorem successor_append (seq : List THREADID) (tid : THREADID) :
    successor (seq ++ [tid]) = tid + 1 := by
  simp [successor]

/-- The map, the sequence and the counter fit together, whatever has been created. -/
structure Registers (s : State) : Prop where
  counter : s.group.next_tid = successor s.group.member_tidseq
  idx     : s.group.next_idx ≤ s.group.member_tidseq.length
  found   : ∀ t ∈ s.group.member_tidseq, ∃ co, s.group.members t = some co
  member  : ∀ t co, s.group.members t = some co →
    t ∈ s.group.member_tidseq ∧ co < s.next ∧ s.tid co = t

theorem Registers.initial : Registers State.initial where
  counter := rfl
  idx := Nat.le_refl _
  found := fun _ ht => absurd ht List.not_mem_nil
  member := fun _ _ h => by cases h

/-- An id is in the sequence when the map has it. -/
theorem Registers.mem_iff (r : Registers s) :
    t ∈ s.group.member_tidseq ↔ s.group.members t ≠ none := by
  constructor
  · intro ht
    obtain ⟨co, hco⟩ := r.found t ht
    simp [hco]
  · intro ht
    obtain ⟨co, hco⟩ := Option.ne_none_iff_exists'.mp ht
    exact (r.member t co hco).1

/-- **A member is added**: whatever its id is, it is registered under it. -/
theorem Registers.add (r : Registers s) (h : s.add t = some s') : Registers s' := by
  obtain ⟨-, -, hIdx, rfl⟩ := add_cases h
  constructor
  case counter => exact (successor_append _ _).symm
  case idx => simp [hIdx]
  case found =>
    intro u hu
    by_cases hEq : u = s.idFor t
    · exact ⟨s.next, by rw [hEq]; exact Function.update_self ..⟩
    · have hOld : u ∈ s.group.member_tidseq := by simpa [hEq] using hu
      obtain ⟨co, hco⟩ := r.found u hOld
      exact ⟨co, (Function.update_of_ne hEq ..).trans hco⟩
  case member =>
    intro u co hco
    by_cases hEq : u = s.idFor t
    · obtain rfl : s.next = co := by
        simpa [hEq] using hco
      exact ⟨by simp [hEq], Nat.lt_succ_self _, by rw [hEq]; exact Function.update_self ..⟩
    · have hOld : s.group.members u = some co := (Function.update_of_ne hEq ..).symm.trans hco
      obtain ⟨hMem, hLt, hTid⟩ := r.member u co hOld
      refine ⟨List.mem_append_left _ hMem, Nat.lt_succ_of_lt hLt, ?_⟩
      exact (Function.update_of_ne (Nat.ne_of_lt hLt) ..).trans hTid

-- ---------------------------------------------------------------------------
-- Unique ids
-- ---------------------------------------------------------------------------

/-- The coroutines made so far, in the order of their creation. -/
def State.created (s : State) : List Thread := List.range s.next

/-- **The ids are unique**: no two members have the same one, the map still has every member
that was added, and the sequence has exactly these members. -/
structure Unique (s : State) : Prop where
  distinct   : (s.created.map s.tid).Nodup
  registered : ∀ co ∈ s.created, s.group.members (s.tid co) = some co
  sequence   : s.group.member_tidseq = s.created.map s.tid

/-- All coroutines have been added one after the other. -/
structure Added (s : State) : Prop where
  registers : Registers s
  sequence  : s.group.member_tidseq = s.created.map s.tid

theorem Added.initial : Added State.initial := ⟨.initial, rfl⟩

/-- Adding a coroutine appends its id to the sequence of the ids. -/
theorem Added.add (a : Added s) (h : s.add t = some s') : Added s' := by
  refine ⟨a.registers.add h, ?_⟩
  obtain ⟨-, -, -, rfl⟩ := add_cases h
  have hOld : s.created.map (update s.tid s.next (s.idFor t)) = s.created.map s.tid := by
    refine List.map_congr_left fun co hco => ?_
    exact Function.update_of_ne (Nat.ne_of_lt (List.mem_range.mp hco)) ..
  simp only [State.created, List.range_succ, List.map_append, List.map_cons, List.map_nil,
    Function.update_self, a.sequence] at hOld ⊢
  rw [hOld]

/-- Of added members the ids are unique when the sequence repeats none. -/
theorem Added.unique_iff_nodup (a : Added s) : Unique s ↔ s.group.member_tidseq.Nodup := by
  constructor
  · intro u
    rw [u.sequence]
    exact u.distinct
  · intro hNodup
    have hDistinct := hNodup
    rw [a.sequence] at hDistinct
    refine ⟨hDistinct, fun co hco => ?_, a.sequence⟩
    have hMem : s.tid co ∈ s.group.member_tidseq := by
      rw [a.sequence]
      exact List.mem_map_of_mem hco
    obtain ⟨co', hFound⟩ := a.registers.found _ hMem
    obtain ⟨-, hLt, hTid⟩ := a.registers.member _ _ hFound
    have hSame : co' = co :=
      List.inj_on_of_nodup_map hDistinct (List.mem_range.mpr hLt) hco hTid
    rw [hFound, hSame]

/-- The id of a new member repeats one of the sequence only if it is an automatic one. -/
theorem Registers.idFor_fresh_iff (r : Registers s) (h : s.add t = some s') :
    s.idFor t ∉ s.group.member_tidseq ↔
      (t < 0 → s.group.members (successor s.group.member_tidseq) = none) := by
  obtain ⟨-, hUnused, -, -⟩ := add_cases h
  rw [r.mem_iff, not_not, State.idFor]
  split
  · rename_i hAuto
    rw [r.counter]
    exact (imp_iff_right hAuto).symm
  · rename_i hExplicit
    exact iff_of_true hUnused fun hAuto => absurd hAuto hExplicit

/-- Before every request without an id, the id after the last one is not in use. -/
def CountsOn : State → List THREADID → Prop
  | _, [] => True
  | s, t :: rest =>
    (t < 0 → s.group.members (successor s.group.member_tidseq) = none) ∧
      ∀ s', s.add t = some s' → CountsOn s' rest

/-- From any state, the sequence repeats no id in the end if it repeats none now and the
requests count on from unused ids. -/
theorem Registers.nodup_iff {tids : List THREADID} (r : Registers s)
    (hRun : tids.foldlM State.add s = some s') :
    s'.group.member_tidseq.Nodup ↔ s.group.member_tidseq.Nodup ∧ CountsOn s tids := by
  induction tids generalizing s with
  | nil =>
    obtain rfl : s = s' := by simpa using hRun
    simp [CountsOn]
  | cons t rest ih =>
    rw [List.foldlM_cons, Option.bind_eq_bind, Option.bind_eq_some_iff] at hRun
    obtain ⟨s₁, hAdd, hRest⟩ := hRun
    have hSeq : s₁.group.member_tidseq = s.group.member_tidseq ++ [s.idFor t] := by
      obtain ⟨-, -, -, rfl⟩ := add_cases hAdd
      rfl
    have hNodup : s₁.group.member_tidseq.Nodup ↔
        s.group.member_tidseq.Nodup ∧ s.idFor t ∉ s.group.member_tidseq := by
      rw [hSeq, ← List.concat_eq_append, List.nodup_concat, and_comm]
    have hCounts : CountsOn s (t :: rest) ↔
        (t < 0 → s.group.members (successor s.group.member_tidseq) = none) ∧
          CountsOn s₁ rest := by
      simp [CountsOn, hAdd]
    rw [ih (r.add hAdd) hRest, hNodup, r.idFor_fresh_iff hAdd, hCounts, and_assoc]

/-- **Thread ids are unique** exactly when no automatic id is one that is in use. The next
automatic id is one more than the last id given, not than the largest one. -/
theorem unique_iff (tids : List THREADID) (s : State)
    (hRun : tids.foldlM State.add State.initial = some s) :
    Unique s ↔ CountsOn State.initial tids := by
  have hAdded : ∀ (tids : List THREADID) (s₀ s : State), Added s₀ →
      tids.foldlM State.add s₀ = some s → Added s := by
    intro tids
    induction tids with
    | nil =>
      intro s₀ s a hRun
      obtain rfl : s₀ = s := by simpa using hRun
      exact a
    | cons t rest ih =>
      intro s₀ s a hRun
      rw [List.foldlM_cons, Option.bind_eq_bind, Option.bind_eq_some_iff] at hRun
      obtain ⟨s₁, hAdd, hRest⟩ := hRun
      exact ih s₁ s (a.add hAdd) hRest
  rw [(hAdded tids _ s .initial hRun).unique_iff_nodup, Registers.initial.nodup_iff hRun]
  exact and_iff_right List.nodup_nil

/-- An explicit id, and two members that count on from it: the ids are 5, 6 and 7. -/
theorem unique_counting_on : ∃ s, [5, -1, -1].foldlM State.add State.initial = some s ∧
    Unique s := by
  refine ⟨_, rfl, (unique_iff [5, -1, -1] _ rfl).mpr ⟨fun h => absurd h (by decide), ?_⟩⟩
  intro s₁ h₁
  obtain rfl := Option.some.inj h₁
  refine ⟨fun _ => rfl, fun s₂ h₂ => ?_⟩
  obtain rfl := Option.some.inj h₂
  exact ⟨fun _ => rfl, fun _ _ => trivial⟩

/-- **A member is overwritten**: after the ids 5 and 3 the automatic ids are 4 and 5, and
the second of these takes the place of the first member. -/
theorem member_overwritten :
    ¬ ∀ (tids : List THREADID) s, tids.foldlM State.add State.initial = some s → Unique s := by
  intro hAll
  have hUnique := hAll [5, 3, -1, -1] _ rfl
  have hFirst := hUnique.registered 0 (List.mem_range.mpr (by decide))
  cases hFirst

-- ---------------------------------------------------------------------------
-- Re-executions
-- ---------------------------------------------------------------------------

/-- **`GetNextCreatedMember`** of a group in order: past the sequence there is none, and
before that it is the member registered under the id at the position. -/
theorem Registers.next_cases (r : Registers s) {asked : THREADID} {found : Option Thread}
    (h : s.GetNextCreatedMember asked = some (s', found)) :
    (found = none ∧ s' = s ∧ s.group.next_idx = s.group.member_tidseq.length) ∨
      (∃ co t, found = some co ∧ s' = { s with group.next_idx := s.group.next_idx + 1 } ∧
        s.group.member_tidseq[s.group.next_idx]? = some t ∧ s.group.members t = some co) := by
  simp only [State.GetNextCreatedMember, Option.bind_eq_bind, Option.bind_eq_some_iff,
    Option.guard_eq_some'] at h
  obtain ⟨_, _, h⟩ := h
  split at h
  · rename_i hLt
    simp only [Option.bind_eq_bind, Option.bind_eq_some_iff, State.GetNthCreatedMember,
      List.getElem?_eq_getElem hLt, Option.pure_def, Option.some.injEq, Prod.mk.injEq] at h
    obtain ⟨_, ⟨_, _, co, hFound, _, _, rfl⟩, _, _, rfl, rfl⟩ := h
    exact Or.inr ⟨co, _, rfl, rfl, List.getElem?_eq_getElem hLt, hFound⟩
  · rename_i hGe
    cases h
    exact Or.inl ⟨rfl, rfl, Nat.le_antisymm r.idx (Nat.le_of_not_lt hGe)⟩

/-- **`CreateThread`** makes a new coroutine at a new position, and returns the one that is
registered at a position of the sequence. -/
theorem Registers.createThread_cases (r : Registers s) {asked : THREADID}
    (h : s.CreateThread asked = some s') :
    (∃ s₁, s.group.next_idx = s.group.member_tidseq.length ∧ s.add asked = some s₁ ∧
      s' = { s₁ with calls := s.calls ++ [⟨asked, s.next, s₁.group.members asked⟩] }) ∨
      (∃ co t, s.group.member_tidseq[s.group.next_idx]? = some t ∧ s.group.members t = some co ∧
        s' = { s with
          group.next_idx := s.group.next_idx + 1
          calls := s.calls ++ [⟨asked, co, s.group.members asked⟩] }) := by
  simp only [State.CreateThread, State.recreateOrCreate, Option.bind_eq_bind,
    Option.bind_eq_some_iff, Option.pure_def, Option.some.injEq] at h
  obtain ⟨_, _, ⟨s₁, co⟩, ⟨⟨s₂, found⟩, hNext, hCo⟩, _, _, rfl⟩ := h
  rcases r.next_cases hNext with ⟨rfl, rfl, hIdx⟩ | ⟨member, t, rfl, rfl, hAt, hFound⟩
  · simp only [Option.bind_eq_some_iff, Option.some.injEq, Prod.mk.injEq] at hCo
    obtain ⟨s₃, hAdd, rfl, rfl⟩ := hCo
    refine Or.inl ⟨s₃, hIdx, hAdd, ?_⟩
    obtain ⟨-, -, -, rfl⟩ := add_cases hAdd
    rfl
  · simp only [Option.bind_eq_some_iff, Option.some.injEq, Prod.mk.injEq] at hCo
    obtain ⟨_, _, rfl, rfl⟩ := hCo
    exact Or.inr ⟨member, t, hAt, hFound, rfl⟩

/-- What one call of a test asks for: at a position of the sequence its own id, if any, and
at a new position without an id nothing that is in use. -/
def SameOrder (s : State) : Event → Prop
  | .CreateThread asked =>
    (∀ t, s.group.member_tidseq[s.group.next_idx]? = some t → asked > MAIN_TID → asked = t) ∧
      (s.group.next_idx = s.group.member_tidseq.length → asked < 0 →
        s.group.members (successor s.group.member_tidseq) = none)
  | _ => True

/-- **Threads have their identity**: a call with an id has returned the coroutine with the id,
registered under it, and no coroutine has been returned twice in the execution. -/
structure Identifies (s : State) : Prop where
  asked : ∀ c ∈ s.calls, c.asked > MAIN_TID → s.tid c.co = c.asked ∧ c.found = some c.co
  once  : (s.calls.map Call.co).Nodup

/-- What holds between two calls. -/
structure Recycles (s : State) : Prop where
  registers  : Registers s
  nodup      : s.group.member_tidseq.Nodup
  identifies : Identifies s
  old        : ∀ c ∈ s.calls, c.co < s.next
  -- a registered coroutine that has been returned stands before the position
  behind     : ∀ c ∈ s.calls, ∀ i t, s.group.member_tidseq[i]? = some t →
    s.group.members t = some c.co → i < s.group.next_idx

theorem Recycles.initial : Recycles State.initial where
  registers := .initial
  nodup := List.nodup_nil
  identifies := ⟨fun _ hc => absurd hc List.not_mem_nil, List.nodup_nil⟩
  old := fun _ hc => absurd hc List.not_mem_nil
  behind := fun _ hc => absurd hc List.not_mem_nil

/-- A call that returns a coroutine not returned before. -/
theorem Identifies.append {c : Call} (hS : Identifies s)
    (hTid : ∀ co, (∃ d ∈ s.calls, d.co = co) → s'.tid co = s.tid co)
    (hCalls : s'.calls = s.calls ++ [c]) (hNew : ∀ d ∈ s.calls, d.co ≠ c.co)
    (hAsked : c.asked > MAIN_TID → s'.tid c.co = c.asked ∧ c.found = some c.co) :
    Identifies s' := by
  constructor
  · intro d hd hExplicit
    rw [hCalls] at hd
    rcases List.mem_append.mp hd with hd | hd
    · rw [hTid d.co ⟨d, hd, rfl⟩]
      exact hS.asked d hd hExplicit
    · obtain rfl := List.mem_singleton.mp hd
      exact hAsked hExplicit
  · rw [hCalls, List.map_append, List.nodup_append]
    refine ⟨hS.once, by simp, ?_⟩
    intro co hco co' hco'
    obtain ⟨d, hd, rfl⟩ := List.mem_map.mp hco
    obtain rfl : co' = c.co := by simpa using hco'
    exact hNew d hd

/-- **A new coroutine** in the group. -/
theorem Recycles.create {s₁ : State} {asked : THREADID} (r : Recycles s)
    (hOk : SameOrder s (.CreateThread asked))
    (hIdx : s.group.next_idx = s.group.member_tidseq.length) (hAdd : s.add asked = some s₁) :
    Recycles { s₁ with calls := s.calls ++ [⟨asked, s.next, s₁.group.members asked⟩] } := by
  have hRegisters := r.registers.add hAdd
  have hFresh := (r.registers.idFor_fresh_iff hAdd).mpr (hOk.2 hIdx)
  obtain ⟨-, -, -, rfl⟩ := add_cases hAdd
  refine ⟨⟨hRegisters.counter, hRegisters.idx, hRegisters.found, hRegisters.member⟩, ?_, ?_, ?_, ?_⟩
  · rw [← List.concat_eq_append, List.nodup_concat]
    exact ⟨hFresh, r.nodup⟩
  · refine r.identifies.append ?_ rfl (fun d hd => Nat.ne_of_lt (r.old d hd)) ?_
    · rintro co ⟨d, hd, rfl⟩
      exact Function.update_of_ne (Nat.ne_of_lt (r.old d hd)) ..
    · intro hExplicit
      have hPos : ¬ asked < 0 := by
        intro hNeg
        exact Int32.lt_irrefl (Int32.lt_trans hNeg hExplicit)
      have hId : s.idFor asked = asked := if_neg hPos
      constructor
      · exact (Function.update_self ..).trans hId
      · simp only [hId]
        exact Function.update_self ..
  · intro c hc
    rcases List.mem_append.mp hc with hc | hc
    · exact Nat.lt_succ_of_lt (r.old c hc)
    · obtain rfl := List.mem_singleton.mp hc
      exact Nat.lt_succ_self _
  · -- all positions are behind the one after the new member
    intro c _ i t hAt _
    have hLt := (List.getElem?_eq_some_iff.mp hAt).1
    simpa [hIdx] using hLt

/-- **A coroutine is returned again**, the one registered under the id at the position. -/
theorem Recycles.recreate {asked t : THREADID} (r : Recycles s)
    (hOk : SameOrder s (.CreateThread asked))
    (hAt : s.group.member_tidseq[s.group.next_idx]? = some t)
    (hFound : s.group.members t = some co) :
    Recycles { s with
      group.next_idx := s.group.next_idx + 1
      calls := s.calls ++ [⟨asked, co, s.group.members asked⟩] } := by
  obtain ⟨-, hLt, hTid⟩ := r.registers.member t co hFound
  have hNew : ∀ d ∈ s.calls, d.co ≠ co := by
    rintro d hd rfl
    exact absurd (r.behind d hd _ t hAt hFound) (Nat.lt_irrefl _)
  refine ⟨⟨r.registers.counter, ?_, r.registers.found, r.registers.member⟩, r.nodup, ?_, ?_, ?_⟩
  · exact (List.getElem?_eq_some_iff.mp hAt).1
  · refine r.identifies.append (fun _ _ => rfl) rfl hNew fun hExplicit => ?_
    have hSame : asked = t := hOk.1 t hAt hExplicit
    exact ⟨hTid.trans hSame.symm, by rw [hSame]; exact hFound⟩
  · intro c hc
    rcases List.mem_append.mp hc with hc | hc
    · exact r.old c hc
    · obtain rfl := List.mem_singleton.mp hc
      exact hLt
  · intro c hc i u hu hMember
    rcases List.mem_append.mp hc with hc | hc
    · exact Nat.lt_succ_of_lt (r.behind c hc i u hu hMember)
    · -- the ids of the sequence differ, so the coroutine stands at one position only
      obtain rfl := List.mem_singleton.mp hc
      have hSame : u = t := (r.registers.member u co hMember).2.2.symm.trans hTid
      have hPos : i = s.group.next_idx := by
        obtain ⟨hi, hui⟩ := List.getElem?_eq_some_iff.mp hu
        obtain ⟨hn, htn⟩ := List.getElem?_eq_some_iff.mp hAt
        exact (r.nodup.getElem_inj_iff).mp (by rw [hui, htn, hSame])
      rw [hPos]
      exact Nat.lt_succ_self _

/-- **One step.** -/
theorem Recycles.next {e : Event} (r : Recycles s) (hOk : SameOrder s e)
    (h : next s e = some s') : Recycles s' := by
  cases e with
  | CreateThread asked =>
    rcases r.registers.createThread_cases h with
      ⟨s₁, hIdx, hAdd, rfl⟩ | ⟨co, t, hAt, hFound, rfl⟩
    · exact r.create hOk hIdx hAdd
    · exact r.recreate hOk hAt hFound
  | Restart =>
    obtain rfl := Option.some.inj h
    exact ⟨⟨r.registers.counter, Nat.zero_le _, r.registers.found, r.registers.member⟩, r.nodup,
      ⟨fun _ hc => absurd hc List.not_mem_nil, List.nodup_nil⟩,
      fun _ hc => absurd hc List.not_mem_nil, fun _ hc => absurd hc List.not_mem_nil⟩
  | DeleteAllMembers =>
    obtain rfl := Option.some.inj h
    exact ⟨⟨rfl, Nat.le_refl _, Registers.initial.found, fun _ _ hMember => by cases hMember⟩,
      List.nodup_nil, ⟨r.identifies.asked, r.identifies.once⟩, r.old,
      fun _ _ _ _ _ hMember => by cases hMember⟩
  | setStatus co status =>
    obtain rfl := Option.some.inj h
    exact ⟨⟨r.registers.counter, r.registers.idx, r.registers.found, r.registers.member⟩, r.nodup,
      ⟨r.identifies.asked, r.identifies.once⟩, r.old, r.behind⟩

/-- **Re-executions give threads back their identity** when each one creates its threads in
the order of the executions before it. The members are handed out in that order, whatever id
is asked for. -/
theorem identifies (s : State) (h : Runs.ReachableUnder system SameOrder s) : Identifies s := by
  have hRecycles : Recycles s := by
    refine h.invariant ?_ fun s e s' r hOk hStep => r.next hOk hStep
    rintro s rfl
    exact .initial
  exact hRecycles.identifies

end

/-- Threads 5 and 7 are created and run, and the next execution begins. -/
def fiveThenSeven : List Event :=
  [.CreateThread 5, .setStatus 0 ENABLED, .CreateThread 7, .setStatus 1 ENABLED, .Restart]

/-- **The wrong coroutine is returned**: thread 7 is created first in the next execution,
and gets the coroutine of thread 5, the first one of the execution before. -/
theorem identity_lost : ¬ ∀ s, Runs.Reachable system s → Identifies s := by
  intro hAll
  obtain ⟨s, hRun, hCalls⟩ : ∃ s, (fiveThenSeven ++ [Event.CreateThread 7]).foldlM
      next State.initial = some s ∧ s.calls = [⟨7, 0, some 1⟩] := ⟨_, rfl, rfl⟩
  have hReach : Runs.Reachable system s := Runs.reachable_foldlM (.init rfl) _ hRun
  have hAsked := (hAll s hReach).asked ⟨7, 0, some 1⟩ (by simp [hCalls]) (by decide)
  cases hAsked.2

/-- In the order of the first execution, thread 5 gets its coroutine again. -/
theorem identifies_five : ∃ s, Identifies s ∧ s.calls = [⟨5, 0, some 0⟩] := by
  have hStart : Runs.ReachableUnder system SameOrder State.initial := .init rfl
  have h₁ := hStart.step (i := Event.CreateThread 5)
    ⟨fun _ h => (by cases h), fun _ h => absurd h (by decide)⟩ (show next _ _ = some _ from rfl)
  have h₂ := h₁.step (i := Event.setStatus 0 ENABLED) trivial (show next _ _ = some _ from rfl)
  have h₃ := h₂.step (i := Event.CreateThread 7)
    ⟨fun _ h => (by cases h), fun _ h => absurd h (by decide)⟩ (show next _ _ = some _ from rfl)
  have h₄ := h₃.step (i := Event.setStatus 1 ENABLED) trivial (show next _ _ = some _ from rfl)
  have h₅ := h₄.step (i := Event.Restart) trivial (show next _ _ = some _ from rfl)
  have h₆ := h₅.step (i := Event.CreateThread 5)
    ⟨fun t h _ => by cases h; rfl, fun h => by cases h⟩ (show next _ _ = some _ from rfl)
  exact ⟨_, identifies _ h₆, rfl⟩

end Group

end Concurrit.Model
