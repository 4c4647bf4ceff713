import Mathlib.Data.List.Sort
import Mathlib.Logic.Function.Basic
import Concurrit.Lib.Runs
import Concurrit.Model.EventPipe

/-!
# Concurrit — shadow threads and their registry

`ShadowThread::WaitRecv` and `SignalRecv`, the registry of a `ConcurrentPipe` with
`RegisterShadowThread`, `GetShadowThread`, `UnregisterShadowThread` and `Broadcast`,
and the loop of `ServerShadowThread::Run`. Any number of threads looks shadow threads
up, signals them or broadcasts.

Each access to a semaphore or to the mailbox is a step of its own. A section that holds
`map_mutex_` and does not wait inside is one step, taken while the mutex is free; a
broadcast holds the mutex from its first to its last step.
-/

namespace Concurrit.Model

open Function (update)
open Ipc (EventKind)
open Ipc.EventKind (ThreadEnd ThreadEndIntern)

namespace Pipe

/-- What the hand-over looks at in an event. -/
structure Event where
  type : EventKind
  threadid : Nat
deriving DecidableEq, Repr

/-- After such an event `Run` leaves its loop. -/
def Event.last (e : Event) : Bool :=
  e.type = ThreadEnd || e.type = ThreadEndIntern

/-- Where a shadow thread stands in `Run`. -/
inductive Place where
  /-- not created yet -/
  | absent
  /-- at the head of the loop, before `sem2_.Signal()` -/
  | loop
  /-- before `sem_.Wait()` -/
  | waits
  /-- before it copies the event out of the mailbox -/
  | copies
  | handles (e : Event)
  /-- before `UnregisterShadowThread` -/
  | leaves
  | ended
deriving DecidableEq, Repr

/-- What a thread does that hands events over. A list of shadow threads, if any, is what is
left of the broadcast that the hand-over belongs to. -/
inductive Act where
  | idle
  /-- before `GetShadowThread` -/
  | looksUp (e : Event)
  /-- before `sem2_.Wait()` -/
  | signals (w : Nat) (e : Event) (rest : Option (List Nat))
  /-- before it copies the event into the mailbox -/
  | fills (w : Nat) (e : Event) (rest : Option (List Nat))
  /-- before `sem_.Signal()` -/
  | raises (w : Nat) (e : Event) (rest : Option (List Nat))
  /-- before `Broadcast` locks the mutex -/
  | broadcasts (e : Event)
  /-- in the loop of `Broadcast` -/
  | visits (e : Event) (rest : List Nat)
  /-- an assertion has failed -/
  | aborted
deriving DecidableEq, Repr

structure State where
  tid : Nat → Nat
  place : Nat → Place
  sem : Nat → Nat
  sem2 : Nat → Nat
  /-- `event_`, the mailbox -/
  event : Nat → Event
  /-- `tid_to_shadowthread_`, in the order of the thread ids -/
  registry : List Nat
  /-- the thread that holds `map_mutex_` for a broadcast -/
  owner : Option Nat
  act : Nat → Act

inductive Label where
  /-- a thread begins to hand an event over -/
  | request (j : Nat)
  /-- a new shadow thread -/
  | register (w : Nat)
  | sender (j : Nat)
  | shadow (w : Nat)
deriving DecidableEq, Repr

/-- What follows a hand-over. -/
def Act.next (e : Event) : Option (List Nat) → Act
  | none => .idle
  | some rest => .visits e rest

/-- Where `Run` goes on after an event. -/
def Event.next (e : Event) : Place :=
  if e.last then .leaves else .loop

inductive Step (s : State) : Label → State → Prop where
  | request {j} (e : Event) (hIdle : s.act j = .idle) :
    Step s (.request j) { s with act := update s.act j (.looksUp e) }
  | requestAll {j} (e : Event) (hIdle : s.act j = .idle) :
    Step s (.request j) { s with act := update s.act j (.broadcasts e) }
  | register {w} (tid : Nat) (hAbsent : s.place w = .absent) (hFree : s.owner = none)
    (hTid : ∀ v ∈ s.registry, s.tid v ≠ tid) :
    Step s (.register w)
      { s with
        tid := update s.tid w tid, place := update s.place w .loop,
        registry := s.registry.orderedInsert
          (fun v v' => update s.tid w tid v ≤ update s.tid w tid v') w }
  -- `GetShadowThread`
  | find {j e w} (hAct : s.act j = .looksUp e) (hFree : s.owner = none)
    (hFind : s.registry.find? (s.tid · = e.threadid) = some w) :
    Step s (.sender j) { s with act := update s.act j (.signals w e none) }
  /-- the message is ignored -/
  | findNone {j e} (hAct : s.act j = .looksUp e) (hFree : s.owner = none)
    (hFind : s.registry.find? (s.tid · = e.threadid) = none) :
    Step s (.sender j) { s with act := update s.act j .idle }
  -- `SignalRecv`
  | wait {j w e rest} (hAct : s.act j = .signals w e rest) (hSem : 0 < s.sem2 w) :
    Step s (.sender j)
      { s with sem2 := update s.sem2 w (s.sem2 w - 1), act := update s.act j (.fills w e rest) }
  | fill {j w e rest} (hAct : s.act j = .fills w e rest) :
    Step s (.sender j)
      { s with event := update s.event w e, act := update s.act j (.raises w e rest) }
  | raise {j w e rest} (hAct : s.act j = .raises w e rest) (hSem : s.sem w = 0) :
    Step s (.sender j)
      { s with sem := update s.sem w (s.sem w + 1), act := update s.act j (.next e rest) }
  | raiseFails {j w e rest} (hAct : s.act j = .raises w e rest) (hSem : 0 < s.sem w) :
    Step s (.sender j) { s with act := update s.act j .aborted }
  -- `Broadcast`
  | lock {j e} (hAct : s.act j = .broadcasts e) (hFree : s.owner = none) :
    Step s (.sender j) { s with owner := some j, act := update s.act j (.visits e s.registry) }
  | visit {j e w rest} (hAct : s.act j = .visits e (w :: rest)) :
    Step s (.sender j)
      { s with act := update s.act j (.signals w { e with threadid := s.tid w } (some rest)) }
  | unlock {j e} (hAct : s.act j = .visits e []) :
    Step s (.sender j) { s with owner := none, act := update s.act j .idle }
  -- `WaitRecv`
  | ready {w} (hPlace : s.place w = .loop) :
    Step s (.shadow w)
      { s with sem2 := update s.sem2 w (s.sem2 w + 1), place := update s.place w .waits }
  | receive {w} (hPlace : s.place w = .waits) (hSem : 0 < s.sem w) :
    Step s (.shadow w)
      { s with sem := update s.sem w (s.sem w - 1), place := update s.place w .copies }
  | copy {w} (hPlace : s.place w = .copies) :
    Step s (.shadow w) { s with place := update s.place w (.handles (s.event w)) }
  /-- the callback of the event and the reply; kinds unknown to `Run` abort and are left out -/
  | handle {w e} (hPlace : s.place w = .handles e) :
    Step s (.shadow w) { s with place := update s.place w e.next }
  | unregister {w} (hPlace : s.place w = .leaves) (hFree : s.owner = none) :
    Step s (.shadow w)
      { s with registry := s.registry.erase w, place := update s.place w .ended }

/-- No shadow thread is there yet. -/
structure Initial (s : State) : Prop where
  place    : ∀ w, s.place w = .absent
  sems     : ∀ w, s.sem w = 0 ∧ s.sem2 w = 0
  registry : s.registry = []
  owner    : s.owner = none
  act      : ∀ j, s.act j = .idle

def system : Runs.System State Label where
  init := Initial
  step := Step

variable {s s' : State} {l : Label} {j k w : Nat} {e : Event}

-- ---------------------------------------------------------------------------
-- Mailboxes
-- ---------------------------------------------------------------------------

/-- The shadow thread whose mailbox is taken. -/
def Act.hands : Act → Option Nat
  | .fills w _ _ | .raises w _ _ => some w
  | _ => none

theorem Act.next_hands (e : Event) (rest : Option (List Nat)) : (Act.next e rest).hands = none := by
  cases rest <;> rfl

/-- A mailbox that is waited for is free, taken by one thread, or full; any other is closed. -/
structure Boxes (s : State) : Prop where
  one    : ∀ j k w, (s.act j).hands = some w → (s.act k).hands = some w → j = k
  taken  : ∀ j w, (s.act j).hands = some w → s.place w = .waits ∧ s.sem2 w = 0 ∧ s.sem w = 0
  waited : ∀ w, s.place w = .waits → (∀ j, (s.act j).hands ≠ some w) → s.sem2 w + s.sem w = 1
  closed : ∀ w, s.place w ≠ .waits → s.sem2 w = 0 ∧ s.sem w = 0
  filled : ∀ j w e rest, s.act j = .raises w e rest → s.event w = e

/-- At the beginning every mailbox is empty and every semaphore zero. -/
theorem boxes_initial (h : Initial s) : Boxes s := by
  refine ⟨fun j k w hj => ?_, fun j w hj => ?_, fun w hw => ?_, fun w _ => ?_, fun j w e rest hj => ?_⟩
  · rw [h.act j] at hj
    cases hj
  · rw [h.act j] at hj
    cases hj
  · rw [h.place w] at hw
    cases hw
  · exact ⟨(h.sems w).2, (h.sems w).1⟩
  · rw [h.act j] at hj
    cases hj

/-- A step that leaves the mailboxes and the threads at them alone. -/
theorem Boxes.of_same (hB : Boxes s) (hSem : s'.sem = s.sem) (hSem2 : s'.sem2 = s.sem2)
    (hEvent : s'.event = s.event) (hPlace : ∀ w, (s'.place w = .waits ↔ s.place w = .waits))
    (hHands : ∀ j, (s'.act j).hands = (s.act j).hands)
    (hRaises : ∀ j w e rest, s'.act j = .raises w e rest → s.act j = .raises w e rest) :
    Boxes s' := by
  refine ⟨fun j k w hj hk => ?_, fun j w hj => ?_, fun w hw hNone => ?_, fun w hw => ?_,
    fun j w e rest hj => ?_⟩
  · exact hB.one j k w (hHands j ▸ hj) (hHands k ▸ hk)
  · rw [hPlace, hSem, hSem2]
    exact hB.taken j w (hHands j ▸ hj)
  · rw [hSem, hSem2]
    exact hB.waited w ((hPlace w).mp hw) fun j => hHands j ▸ hNone j
  · rw [hSem, hSem2]
    exact hB.closed w fun h => hw ((hPlace w).mpr h)
  · rw [hEvent]
    exact hB.filled j w e rest (hRaises j w e rest hj)

/-- A thread that is at no mailbox, before and after. -/
theorem Boxes.of_act (hB : Boxes s) {a : Act} {registry : List Nat} {owner : Option Nat}
    (hOld : (s.act j).hands = none) (hNew : a.hands = none) :
    Boxes { s with registry := registry, owner := owner, act := update s.act j a } := by
  refine hB.of_same rfl rfl rfl (fun _ => Iff.rfl) (fun k => ?_) (fun k w e rest hk => ?_)
  · by_cases hkj : k = j
    · subst hkj
      simp [hOld, hNew]
    · simp [hkj]
  · by_cases hkj : k = j
    · subst hkj
      simp only [Function.update_self] at hk
      rw [hk] at hNew
      cases hNew
    · simpa [hkj] using hk

/-- A thread gets at the mailbox of `w`. -/
theorem Boxes.wait (hB : Boxes s) {rest : Option (List Nat)} (hAct : s.act j = .signals w e rest)
    (hSem : 0 < s.sem2 w) :
    Boxes { s with sem2 := update s.sem2 w (s.sem2 w - 1), act := update s.act j (.fills w e rest) } := by
  have hNobody : ∀ k, (s.act k).hands ≠ some w := fun k hk => by
    rw [(hB.taken k w hk).2.1] at hSem
    cases hSem
  have hWaits : s.place w = .waits := by
    by_contra hNot
    rw [(hB.closed w hNot).1] at hSem
    cases hSem
  have hOne := hB.waited w hWaits hNobody
  have hHands : ∀ k v, (update s.act j (.fills w e rest) k).hands = some v →
      k = j ∧ v = w ∨ (s.act k).hands = some v := by
    intro k v hk
    by_cases hkj : k = j
    · subst hkj
      exact Or.inl ⟨rfl, by simpa [Act.hands, eq_comm] using hk⟩
    · exact Or.inr (by simpa [hkj] using hk)
  refine ⟨fun k k' v hk hk' => ?_, fun k v hk => ?_, fun v hv hNone => ?_, fun v hv => ?_,
    fun k v e' rest' hk => ?_⟩
  · rcases hHands k v hk with ⟨rfl, rfl⟩ | hOld
    · rcases hHands k' v hk' with ⟨rfl, _⟩ | hOld'
      · rfl
      · exact absurd hOld' (hNobody k')
    · rcases hHands k' v hk' with ⟨_, rfl⟩ | hOld'
      · exact absurd hOld (hNobody k)
      · exact hB.one k k' v hOld hOld'
  · rcases hHands k v hk with ⟨_, rfl⟩ | hk
    · refine ⟨hWaits, ?_, ?_⟩
      · show update s.sem2 v (s.sem2 v - 1) v = 0
        rw [Function.update_self]
        omega
      · show s.sem v = 0
        omega
    · have hvw : v ≠ w := fun h => hNobody k (h ▸ hk)
      simpa [hvw] using hB.taken k v hk
  · have hvw : v ≠ w := by
      rintro rfl
      exact hNone j (by simp [Act.hands])
    show update s.sem2 w _ v + s.sem v = 1
    rw [Function.update_of_ne hvw]
    refine hB.waited v hv fun k hk => ?_
    by_cases hkj : k = j
    · subst hkj
      rw [hAct] at hk
      cases hk
    · exact hNone k (by simpa [hkj] using hk)
  · have hvw : v ≠ w := fun h => hv (h ▸ hWaits)
    simpa [hvw] using hB.closed v hv
  · by_cases hkj : k = j
    · subst hkj
      simp at hk
    · exact hB.filled k v e' rest' (by simpa [hkj] using hk)

/-- The event is written into the mailbox that the sender has taken. -/
theorem Boxes.fill (hB : Boxes s) {rest : Option (List Nat)} (hAct : s.act j = .fills w e rest) :
    Boxes { s with event := update s.event w e, act := update s.act j (.raises w e rest) } := by
  have hMine : (s.act j).hands = some w := by rw [hAct]; rfl
  have hHands : ∀ k, (update s.act j (.raises w e rest) k).hands = (s.act k).hands := by
    intro k
    by_cases hkj : k = j
    · subst hkj
      rw [hMine, Function.update_self]
      rfl
    · simp [hkj]
  refine ⟨fun k k' v hk hk' => ?_, fun k v hk => ?_, fun v hv hNone => ?_, hB.closed,
    fun k v e' rest' hk => ?_⟩
  · exact hB.one k k' v (hHands k ▸ hk) (hHands k' ▸ hk')
  · exact hB.taken k v (hHands k ▸ hk)
  · exact hB.waited v hv fun k => hHands k ▸ hNone k
  · show update s.event w e v = e'
    by_cases hkj : k = j
    · subst hkj
      simp only [Function.update_self, Act.raises.injEq] at hk
      obtain ⟨rfl, rfl, _⟩ := hk
      simp
    · have hOld : s.act k = .raises v e' rest' := by simpa [hkj] using hk
      have hvw : v ≠ w := by
        rintro rfl
        exact hkj (hB.one k j v (by rw [hOld]; rfl) hMine)
      rw [Function.update_of_ne hvw]
      exact hB.filled k v e' rest' hOld

/-- The mailbox of `w` becomes full. -/
theorem Boxes.raise (hB : Boxes s) {rest : Option (List Nat)} (hAct : s.act j = .raises w e rest) :
    Boxes { s with
      sem := update s.sem w (s.sem w + 1), act := update s.act j (.next e rest) } := by
  have hMine : (s.act j).hands = some w := by rw [hAct]; rfl
  obtain ⟨hWaits, hSem2, hSem⟩ := hB.taken j w hMine
  have hHands : ∀ k v, (update s.act j (.next e rest) k).hands = some v →
      k ≠ j ∧ v ≠ w ∧ (s.act k).hands = some v := by
    intro k v hk
    by_cases hkj : k = j
    · subst hkj
      rw [Function.update_self, Act.next_hands] at hk
      cases hk
    · have hk : (s.act k).hands = some v := by simpa [hkj] using hk
      refine ⟨hkj, ?_, hk⟩
      rintro rfl
      exact hkj (hB.one k j v hk hMine)
  refine ⟨fun k k' v hk hk' => ?_, fun k v hk => ?_, fun v hv hNone => ?_, fun v hv => ?_,
    fun k v e' rest' hk => ?_⟩
  · exact hB.one k k' v (hHands k v hk).2.2 (hHands k' v hk').2.2
  · obtain ⟨_, hvw, hk⟩ := hHands k v hk
    simpa [hvw] using hB.taken k v hk
  · show s.sem2 v + update s.sem w (s.sem w + 1) v = 1
    by_cases hvw : v = w
    · subst hvw
      simp [hSem, hSem2]
    · rw [Function.update_of_ne hvw]
      refine hB.waited v hv fun k hk => ?_
      by_cases hkj : k = j
      · subst hkj
        exact hvw (Option.some.inj (hk.symm.trans hMine))
      · exact hNone k (by simpa [hkj] using hk)
  · have hvw : v ≠ w := fun h => hv (h ▸ hWaits)
    simpa [hvw] using hB.closed v hv
  · by_cases hkj : k = j
    · subst hkj
      cases rest <;> simp [Act.next] at hk
    · exact hB.filled k v e' rest' (by simpa [hkj] using hk)

/-- A shadow thread that begins to wait opens its mailbox, which was closed until then. -/
theorem Boxes.ready (hB : Boxes s) (hPlace : s.place w = .loop) :
    Boxes { s with sem2 := update s.sem2 w (s.sem2 w + 1), place := update s.place w .waits } := by
  obtain ⟨hSem2, hSem⟩ := hB.closed w (by rw [hPlace]; nofun)
  have hNobody : ∀ k v, (s.act k).hands = some v → v ≠ w := by
    rintro k v hk rfl
    cases hPlace.symm.trans (hB.taken k v hk).1
  refine ⟨hB.one, fun k v hk => ?_, fun v hv hNone => ?_, fun v hv => ?_, hB.filled⟩
  · simpa [hNobody k v hk] using hB.taken k v hk
  · show update s.sem2 w (s.sem2 w + 1) v + s.sem v = 1
    by_cases hvw : v = w
    · subst hvw
      simp [hSem, hSem2]
    · rw [Function.update_of_ne hvw]
      exact hB.waited v (by simpa [hvw] using hv) hNone
  · have hvw : v ≠ w := by
      rintro rfl
      simp at hv
    simpa [hvw] using hB.closed v (by simpa [hvw] using hv)

/-- A shadow thread that receives finds the mailbox full, and closes it. -/
theorem Boxes.receive (hB : Boxes s) (hPlace : s.place w = .waits) (hSem : 0 < s.sem w) :
    Boxes { s with sem := update s.sem w (s.sem w - 1), place := update s.place w .copies } := by
  have hNobody : ∀ k v, (s.act k).hands = some v → v ≠ w := by
    rintro k v hk rfl
    rw [(hB.taken k v hk).2.2] at hSem
    cases hSem
  have hOne := hB.waited w hPlace fun k hk => hNobody k w hk rfl
  refine ⟨hB.one, fun k v hk => ?_, fun v hv hNone => ?_, fun v hv => ?_, hB.filled⟩
  · simpa [hNobody k v hk] using hB.taken k v hk
  · have hvw : v ≠ w := by
      rintro rfl
      simp at hv
    simpa [hvw] using hB.waited v (by simpa [hvw] using hv) hNone
  · by_cases hvw : v = w
    · subst hvw
      refine ⟨?_, ?_⟩
      · show s.sem2 v = 0
        omega
      · show update s.sem v (s.sem v - 1) v = 0
        rw [Function.update_self]
        omega
    · simpa [hvw] using hB.closed v (by simpa [hvw] using hv)

/-- **Step lemma of the mailboxes**: one that is waited for is free, taken by one thread, or
full, and any other is closed. -/
theorem Boxes.step (hB : Boxes s) (h : Step s l s') : Boxes s' := by
  cases h
  case request j e hIdle => exact hB.of_act (by rw [hIdle]; rfl) rfl
  case requestAll j e hIdle => exact hB.of_act (by rw [hIdle]; rfl) rfl
  case find j e w hAct _ _ => exact hB.of_act (by rw [hAct]; rfl) rfl
  case findNone j e hAct _ _ => exact hB.of_act (by rw [hAct]; rfl) rfl
  case lock j e hAct _ => exact hB.of_act (by rw [hAct]; rfl) rfl
  case visit j e w rest hAct => exact hB.of_act (by rw [hAct]; rfl) rfl
  case unlock j e hAct => exact hB.of_act (by rw [hAct]; rfl) rfl
  case register w tid hAbsent hFree hTid =>
    refine hB.of_same rfl rfl rfl (fun v => ?_) (fun _ => rfl) (fun _ _ _ _ => id)
    by_cases hv : v = w <;> simp [hv, hAbsent]
  case copy w hPlace =>
    refine hB.of_same rfl rfl rfl (fun v => ?_) (fun _ => rfl) (fun _ _ _ _ => id)
    by_cases hv : v = w <;> simp [hv, hPlace]
  case handle w e hPlace =>
    refine hB.of_same rfl rfl rfl (fun v => ?_) (fun _ => rfl) (fun _ _ _ _ => id)
    by_cases hv : v = w
    · subst hv
      simp only [Function.update_self, hPlace, Event.next]
      split <;> simp
    · simp [hv]
  case unregister w hPlace hFree =>
    refine hB.of_same rfl rfl rfl (fun v => ?_) (fun _ => rfl) (fun _ _ _ _ => id)
    by_cases hv : v = w <;> simp [hv, hPlace]
  case wait j w e rest hAct hSem => exact hB.wait hAct hSem
  case fill j w e rest hAct => exact hB.fill hAct
  case raise j w e rest hAct _ => exact hB.raise hAct
  case raiseFails j w e rest hAct hSem =>
    rw [(hB.taken j w (by rw [hAct]; rfl)).2.2] at hSem
    cases hSem
  case ready w hPlace => exact hB.ready hPlace
  case receive w hPlace hSem => exact hB.receive hPlace hSem

theorem boxes {ok : State → Label → Prop} (h : Runs.ReachableUnder system ok s) : Boxes s :=
  h.invariant (fun _ => boxes_initial) fun _ _ _ hB _ hStep => hB.step hStep

end Pipe

end Concurrit.Model
