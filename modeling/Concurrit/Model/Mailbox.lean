import Mathlib.Logic.Function.Basic
import Concurrit.Lib.Runs

/-!
# Concurrit — the mailbox of a shadow thread

`ShadowThread::SignalRecv` and `WaitRecv` step by step: any number of threads hand an event
over, the shadow thread receives. The slot `event_` is guarded by `sem2_`, which says that
the shadow thread waits, and by `sem_`, which says that the slot is full.

The states of the mailbox form a cycle (`Phase`): closed, free, held by one thread, full,
taken. `mailbox_exact` reads the order of the events off it.
-/

namespace Concurrit.Model

open Function (update)

namespace Mailbox

variable {Event : Type}

/-- Where a thread stands in `SignalRecv`. -/
inductive Sender (Event : Type) where
  | idle
  /-- before `sem2_.Wait()` -/
  | waits (e : Event)
  /-- before `event_ = *event` -/
  | fills (e : Event)
  /-- before `sem_.Get() > 0` -/
  | checks (e : Event)
  /-- before `sem_.Signal()` -/
  | raises (e : Event)
  /-- `safe_fail` -/
  | aborted

/-- Where the shadow thread stands in `WaitRecv`. -/
inductive Receiver where
  /-- before `sem2_.Signal()` -/
  | idle
  /-- before `sem_.Get() <= 1` -/
  | checks
  /-- before `sem_.Wait()` -/
  | waits
  /-- before `*event = event_` -/
  | copies
  | aborted
deriving DecidableEq, Repr

/-- `unread` is set from the moment the slot is filled until it is read. `accepted` are the
events of the threads that have passed `sem2_`, `returned` those of the completed calls of
`WaitRecv`. -/
structure State (Event : Type) where
  sem : Nat
  sem2 : Nat
  event : Event
  sender : Nat → Sender Event
  receiver : Receiver
  unread : Bool
  accepted : List Event
  returned : List Event

inductive Label (Event : Type) where
  /-- a thread calls `SignalRecv` -/
  | signal (i : Nat) (e : Event)
  | sender (i : Nat)
  | receiver

/-- A step of `SignalRecv`. -/
def SignalRecv (x : State Event) (i : Nat) : Option (State Event) :=
  match x.sender i with
  | .waits e =>
    if 0 < x.sem2 then
      some { x with
        sem2 := x.sem2 - 1
        sender := update x.sender i (.fills e)
        accepted := x.accepted ++ [e] }
    else none
  | .fills e => some { x with event := e, unread := true, sender := update x.sender i (.checks e) }
  | .checks e =>
    some { x with sender := update x.sender i (if 0 < x.sem then .aborted else .raises e) }
  | .raises _ => some { x with sem := x.sem + 1, sender := update x.sender i .idle }
  | _ => none

/-- A step of `WaitRecv`. -/
def WaitRecv (x : State Event) : Option (State Event) :=
  match x.receiver with
  | .idle => some { x with sem2 := x.sem2 + 1, receiver := .checks }
  | .checks => some { x with receiver := if x.sem ≤ 1 then .waits else .aborted }
  | .waits => if 0 < x.sem then some { x with sem := x.sem - 1, receiver := .copies } else none
  | .copies =>
    some { x with
      unread := false
      receiver := .idle
      returned := x.returned ++ [x.event] }
  | .aborted => none

def next (x : State Event) : Label Event → Option (State Event)
  | .signal i e =>
    match x.sender i with
    | .idle => some { x with sender := update x.sender i (.waits e) }
    | _ => none
  | .sender i => SignalRecv x i
  | .receiver => WaitRecv x

/-- A new shadow thread; the slot has what `EventBuffer` is made with. -/
def initial (event : Event) : State Event :=
  ⟨0, 0, event, fun _ => .idle, .idle, false, [], []⟩

def system (event : Event) : Runs.System (State Event) (Label Event) :=
  Runs.partialMachine (initial event) next

-- ---------------------------------------------------------------------------
-- The cycle
-- ---------------------------------------------------------------------------

/-- The event of a thread that has passed `sem2_` and not raised `sem_`. -/
def Sender.held : Sender Event → Option Event
  | .fills e | .checks e | .raises e => some e
  | _ => none

/-- The shadow thread has announced that it waits. -/
def Receiver.ready (r : Receiver) : Prop := r = .checks ∨ r = .waits

/-- No thread is between the two semaphores. -/
def Nobody (x : State Event) : Prop := ∀ i, (x.sender i).held = none

/-- The slot is not written yet, or has the event. -/
def Written (unread : Bool) (event e : Event) : Sender Event → Prop
  | .fills _ => unread = false
  | _ => unread = true ∧ event = e

inductive Phase (x : State Event) : Prop where
  | closed (hReceiver : x.receiver = .idle) (hSem2 : x.sem2 = 0) (hSem : x.sem = 0)
    (hNobody : Nobody x) (hUnread : x.unread = false) (hLogs : x.accepted = x.returned)
  | free (hReceiver : x.receiver.ready) (hSem2 : x.sem2 = 1) (hSem : x.sem = 0)
    (hNobody : Nobody x) (hUnread : x.unread = false) (hLogs : x.accepted = x.returned)
  | held (i : Nat) (e : Event) (hReceiver : x.receiver.ready) (hSem2 : x.sem2 = 0)
    (hSem : x.sem = 0) (hHeld : (x.sender i).held = some e)
    (hOne : ∀ j ≠ i, (x.sender j).held = none) (hWritten : Written x.unread x.event e (x.sender i))
    (hLogs : x.accepted = x.returned ++ [e])
  | full (hReceiver : x.receiver.ready) (hSem2 : x.sem2 = 0) (hSem : x.sem = 1)
    (hNobody : Nobody x) (hUnread : x.unread = true) (hLogs : x.accepted = x.returned ++ [x.event])
  | taken (hReceiver : x.receiver = .copies) (hSem2 : x.sem2 = 0) (hSem : x.sem = 0)
    (hNobody : Nobody x) (hUnread : x.unread = true) (hLogs : x.accepted = x.returned ++ [x.event])

variable {x x' : State Event} {i : Nat} {e : Event}

theorem Nobody.update (h : Nobody x) {p : Sender Event} (hp : p.held = none) (j : Nat) :
    (update x.sender i p j).held = none := by
  by_cases hji : j = i
  · rw [hji, Function.update_self]
    exact hp
  · rw [Function.update_of_ne hji]
    exact h j

/-- A thread that calls `SignalRecv` is not at the slot yet. -/
theorem Phase.signal (hx : Phase x) (hIdle : x.sender i = .idle) :
    Phase { x with sender := update x.sender i (.waits e) } := by
  cases hx with
  | closed hReceiver hSem2 hSem hNobody hUnread hLogs =>
    exact .closed hReceiver hSem2 hSem (hNobody.update rfl) hUnread hLogs
  | free hReceiver hSem2 hSem hNobody hUnread hLogs =>
    exact .free hReceiver hSem2 hSem (hNobody.update rfl) hUnread hLogs
  | full hReceiver hSem2 hSem hNobody hUnread hLogs =>
    exact .full hReceiver hSem2 hSem (hNobody.update rfl) hUnread hLogs
  | taken hReceiver hSem2 hSem hNobody hUnread hLogs =>
    exact .taken hReceiver hSem2 hSem (hNobody.update rfl) hUnread hLogs
  | held k f hReceiver hSem2 hSem hHeld hOne hWritten hLogs =>
    have hki : k ≠ i := by
      rintro rfl
      rw [hIdle] at hHeld
      cases hHeld
    have hSame : update x.sender i (.waits e) k = x.sender k := Function.update_of_ne hki ..
    refine .held k f hReceiver hSem2 hSem ?_ (fun j hj => ?_) ?_ hLogs
    · show (update x.sender i (.waits e) k).held = some f
      rw [hSame]
      exact hHeld
    · show (update x.sender i (.waits e) j).held = none
      by_cases hji : j = i
      · rw [hji, Function.update_self]
        rfl
      · rw [Function.update_of_ne hji]
        exact hOne j hj
    · show Written x.unread x.event f (update x.sender i (.waits e) k)
      rw [hSame]
      exact hWritten

/-- A thread that holds the slot is the one that holds it. -/
theorem Phase.of_held (hx : Phase x) (hHeld : (x.sender i).held = some e) :
    x.receiver.ready ∧ x.sem2 = 0 ∧ x.sem = 0 ∧ (∀ j ≠ i, (x.sender j).held = none) ∧
      Written x.unread x.event e (x.sender i) ∧ x.accepted = x.returned ++ [e] := by
  cases hx with
  | held k f hReceiver hSem2 hSem hHeld' hOne hWritten hLogs =>
    have hik : i = k := by
      by_contra hNe
      rw [hOne i hNe] at hHeld
      cases hHeld
    subst hik
    obtain rfl : f = e := Option.some.inj (hHeld'.symm.trans hHeld)
    exact ⟨hReceiver, hSem2, hSem, hOne, hWritten, hLogs⟩
  | closed hReceiver hSem2 hSem hNobody hUnread hLogs =>
    rw [hNobody i] at hHeld
    cases hHeld
  | free hReceiver hSem2 hSem hNobody hUnread hLogs =>
    rw [hNobody i] at hHeld
    cases hHeld
  | full hReceiver hSem2 hSem hNobody hUnread hLogs =>
    rw [hNobody i] at hHeld
    cases hHeld
  | taken hReceiver hSem2 hSem hNobody hUnread hLogs =>
    rw [hNobody i] at hHeld
    cases hHeld

/-- `sem2_` is up in one phase only. -/
theorem Phase.of_sem2 (hx : Phase x) (hSem2 : 0 < x.sem2) :
    x.receiver.ready ∧ x.sem2 = 1 ∧ x.sem = 0 ∧ Nobody x ∧ x.unread = false ∧
      x.accepted = x.returned := by
  cases hx with
  | free hReceiver hOne hSem hNobody hUnread hLogs =>
    exact ⟨hReceiver, hOne, hSem, hNobody, hUnread, hLogs⟩
  | closed _ hZero => exact absurd hSem2 (by omega)
  | held _ _ _ hZero => exact absurd hSem2 (by omega)
  | full _ hZero => exact absurd hSem2 (by omega)
  | taken _ hZero => exact absurd hSem2 (by omega)

/-- `sem_` is up in one phase only. -/
theorem Phase.of_sem (hx : Phase x) (hSem : 0 < x.sem) :
    x.receiver.ready ∧ x.sem2 = 0 ∧ x.sem = 1 ∧ Nobody x ∧ x.unread = true ∧
      x.accepted = x.returned ++ [x.event] := by
  cases hx with
  | full hReceiver hSem2 hOne hNobody hUnread hLogs =>
    exact ⟨hReceiver, hSem2, hOne, hNobody, hUnread, hLogs⟩
  | closed _ _ hZero => exact absurd hSem (by omega)
  | free _ _ hZero => exact absurd hSem (by omega)
  | held _ _ _ _ hZero => exact absurd hSem (by omega)
  | taken _ _ hZero => exact absurd hSem (by omega)

/-- **A step of `SignalRecv`.** -/
theorem Phase.signalRecv (hx : Phase x) (hStep : SignalRecv x i = some x') : Phase x' := by
  have hOthers : ∀ {p : Sender Event}, (∀ j ≠ i, (x.sender j).held = none) →
      ∀ j ≠ i, (update x.sender i p j).held = none := by
    intro p hOne j hj
    rw [Function.update_of_ne hj]
    exact hOne j hj
  unfold SignalRecv at hStep
  split at hStep
  · rename_i e hAt
    split at hStep
    · rename_i hSem2
      obtain ⟨hReceiver, hOne, hSem, hNobody, hUnread, hLogs⟩ := hx.of_sem2 hSem2
      cases hStep
      refine .held i e hReceiver (by simp [hOne]) hSem ?_ (hOthers fun j _ => hNobody j) ?_ ?_
      · simp [Sender.held]
      · simpa [Written] using hUnread
      · simp [hLogs]
    · cases hStep
  · rename_i e hAt
    obtain ⟨hReceiver, hSem2, hSem, hOne, hWritten, hLogs⟩ := hx.of_held (by rw [hAt]; rfl)
    cases hStep
    refine .held i e hReceiver hSem2 hSem ?_ (hOthers hOne) ?_ hLogs
    · simp [Sender.held]
    · simp [Written]
  · rename_i e hAt
    obtain ⟨hReceiver, hSem2, hSem, hOne, hWritten, hLogs⟩ := hx.of_held (by rw [hAt]; rfl)
    rw [hAt] at hWritten
    cases hStep
    refine .held i e hReceiver hSem2 hSem ?_ (hOthers hOne) ?_ hLogs
    · simp [Sender.held, hSem]
    · simpa [Written, hSem] using hWritten
  · rename_i e hAt
    obtain ⟨hReceiver, hSem2, hSem, hOne, hWritten, hLogs⟩ := hx.of_held (by rw [hAt]; rfl)
    rw [hAt] at hWritten
    obtain ⟨hUnread, hEvent⟩ := hWritten
    cases hStep
    refine .full hReceiver hSem2 (by simp [hSem]) (fun j => ?_) hUnread (by simp [hLogs, hEvent])
    by_cases hji : j = i
    · simp [hji, Sender.held]
    · exact hOthers hOne j hji
  · cases hStep

/-- **A step of `WaitRecv`.** -/
theorem Phase.waitRecv (hx : Phase x) (hStep : WaitRecv x = some x') : Phase x' := by
  unfold WaitRecv at hStep
  split at hStep
  · rename_i hAt
    cases hStep
    cases hx with
    | closed hReceiver hSem2 hSem hNobody hUnread hLogs =>
      exact .free (Or.inl rfl) (by simp [hSem2]) hSem hNobody hUnread hLogs
    | free hReceiver => simp [hAt, Receiver.ready] at hReceiver
    | held _ _ hReceiver => simp [hAt, Receiver.ready] at hReceiver
    | full hReceiver => simp [hAt, Receiver.ready] at hReceiver
    | taken hReceiver => simp [hAt] at hReceiver
  · rename_i hAt
    cases hStep
    cases hx with
    | closed hReceiver => simp [hAt] at hReceiver
    | free hReceiver hSem2 hSem hNobody hUnread hLogs =>
      exact .free (Or.inr (by simp [hSem])) hSem2 hSem hNobody hUnread hLogs
    | held i e hReceiver hSem2 hSem hHeld hOne hWritten hLogs =>
      exact .held i e (Or.inr (by simp [hSem])) hSem2 hSem hHeld hOne hWritten hLogs
    | full hReceiver hSem2 hSem hNobody hUnread hLogs =>
      exact .full (Or.inr (by simp [hSem])) hSem2 hSem hNobody hUnread hLogs
    | taken hReceiver => simp [hAt] at hReceiver
  · split at hStep
    · rename_i hSem
      obtain ⟨-, hSem2, hOne, hNobody, hUnread, hLogs⟩ := hx.of_sem hSem
      cases hStep
      exact .taken rfl hSem2 (by simp [hOne]) hNobody hUnread hLogs
    · cases hStep
  · rename_i hAt
    cases hStep
    cases hx with
    | taken hReceiver hSem2 hSem hNobody hUnread hLogs =>
      exact .closed rfl hSem2 hSem hNobody rfl hLogs
    | closed hReceiver => simp [hAt] at hReceiver
    | free hReceiver => simp [hAt, Receiver.ready] at hReceiver
    | held _ _ hReceiver => simp [hAt, Receiver.ready] at hReceiver
    | full hReceiver => simp [hAt, Receiver.ready] at hReceiver
  · cases hStep

/-- **Step lemma of the mailbox**: it is closed, free, held by one sender, full, or taken by
the receiver, and goes through these phases in order. -/
theorem Phase.next {l : Label Event} (hx : Phase x) (hStep : next x l = some x') : Phase x' := by
  cases l with
  | signal i e =>
    simp only [Mailbox.next] at hStep
    split at hStep
    · rename_i hIdle
      cases hStep
      exact hx.signal hIdle
    · cases hStep
  | sender i => exact hx.signalRecv hStep
  | receiver => exact hx.waitRecv hStep

theorem phase_of_reachable {event : Event} (h : Runs.Reachable (system event) x) : Phase x := by
  refine h.invariant ?_ fun x l x' hx _ hStep => hx.next hStep
  rintro x rfl
  exact .closed rfl rfl rfl (fun _ => rfl) rfl rfl

theorem update_ne_aborted {p : Sender Event} (hOld : ∀ j, x.sender j ≠ .aborted)
    (hp : p ≠ .aborted) (j : Nat) : update x.sender i p j ≠ .aborted := by
  by_cases hji : j = i
  · rw [hji, Function.update_self]
    exact hp
  · rw [Function.update_of_ne hji]
    exact hOld j

/-- No thread finds the slot full when it checks. -/
theorem Phase.not_aborted {l : Label Event} (hx : Phase x) (hOld : ∀ j, x.sender j ≠ .aborted)
    (hStep : Mailbox.next x l = some x') : ∀ j, x'.sender j ≠ .aborted := by
  cases l with
  | signal i e =>
    simp only [Mailbox.next] at hStep
    split at hStep
    · cases hStep
      exact update_ne_aborted hOld (by simp)
    · cases hStep
  | sender i =>
    simp only [Mailbox.next, SignalRecv] at hStep
    split at hStep
    · split at hStep
      · cases hStep
        exact update_ne_aborted hOld (by simp)
      · cases hStep
    · cases hStep
      exact update_ne_aborted hOld (by simp)
    · rename_i e hAt
      obtain ⟨-, -, hSem, -⟩ := hx.of_held (by rw [hAt]; rfl)
      cases hStep
      exact update_ne_aborted hOld (by simp [hSem])
    · cases hStep
      exact update_ne_aborted hOld (by simp)
    · cases hStep
  | receiver =>
    simp only [Mailbox.next, WaitRecv] at hStep
    split at hStep
    · cases hStep
      exact hOld
    · cases hStep
      exact hOld
    · split at hStep
      · cases hStep
        exact hOld
      · cases hStep
    · cases hStep
      exact hOld
    · cases hStep

/-- The events returned are the first ones of the events accepted. -/
theorem Phase.returned_first (hx : Phase x) : x.returned <+: x.accepted := by
  cases hx with
  | closed _ _ _ _ _ hLogs => exact ⟨[], by rw [hLogs, List.append_nil]⟩
  | free _ _ _ _ _ hLogs => exact ⟨[], by rw [hLogs, List.append_nil]⟩
  | held _ e _ _ _ _ _ _ hLogs => exact ⟨[e], hLogs.symm⟩
  | full _ _ _ _ _ hLogs => exact ⟨[x.event], hLogs.symm⟩
  | taken _ _ _ _ _ hLogs => exact ⟨[x.event], hLogs.symm⟩

theorem Phase.sem_le (hx : Phase x) : x.sem ≤ 1 := by
  cases hx with
  | closed _ _ hSem => omega
  | free _ _ hSem => omega
  | held _ _ _ _ hSem => omega
  | full _ _ hSem => omega
  | taken _ _ hSem => omega

/-- What the mailbox does with the events, and that no check fails. -/
structure Exact (x : State Event) : Prop where
  order    : ∀ (k : Nat) (e : Event), x.returned[k]? = some e → x.accepted[k]? = some e
  -- a thread about to write finds the slot read
  kept     : ∀ i e, x.sender i = .fills e → x.unread = false
  sem_le   : x.sem ≤ 1
  sender   : ∀ i, x.sender i ≠ .aborted
  receiver : x.receiver ≠ .aborted

/-- **The mailbox neither loses, duplicates nor overwrites events.** What is returned is
what was accepted, in the same order; a sender about to write finds the slot read; the
semaphore stays binary, and no assertion of either side fails. -/
theorem mailbox_exact (event : Event) (x : State Event) (h : Runs.Reachable (system event) x) :
    Exact x := by
  have hx : Phase x := phase_of_reachable h
  constructor
  case order =>
    intro k e hk
    obtain ⟨rest, hRest⟩ := hx.returned_first
    have hLt := (List.getElem?_eq_some_iff.mp hk).1
    rw [← hRest, List.getElem?_append_left hLt]
    exact hk
  case kept =>
    intro i e hAt
    obtain ⟨-, -, -, -, hWritten, -⟩ := hx.of_held (by rw [hAt]; rfl)
    rw [hAt] at hWritten
    exact hWritten
  case sem_le => exact hx.sem_le
  case sender =>
    refine h.invariant_of (fun _ => phase_of_reachable) ?_ fun x l x' hx hOld _ hStep =>
      hx.not_aborted hOld hStep
    rintro x rfl i
    simp [initial]
  case receiver =>
    intro hAborted
    cases hx with
    | closed hReceiver => simp [hAborted] at hReceiver
    | free hReceiver => simp [hAborted, Receiver.ready] at hReceiver
    | held _ _ hReceiver => simp [hAborted, Receiver.ready] at hReceiver
    | full hReceiver => simp [hAborted, Receiver.ready] at hReceiver
    | taken hReceiver => simp [hAborted] at hReceiver

/-- Two threads hand the events 7 and 8 over, the second one first; one event is received. -/
def eightThenSeven : List (Label Nat) :=
  [.signal 0 7, .signal 1 8, .receiver, .sender 1, .sender 1, .sender 1, .receiver, .sender 1,
    .receiver, .receiver, .receiver, .sender 0]

/-- Two senders hand over 7 and 8, and the receiver gets 8 first. -/
theorem mailbox_eight_first : ∃ x : State Nat, Runs.Reachable (system 0) x ∧ Exact x ∧
    x.returned = [8] ∧ x.accepted = [8, 7] := by
  obtain ⟨x, hRun, hReturned, hAccepted⟩ : ∃ x, eightThenSeven.foldlM next (initial 0) = some x ∧
      x.returned = [8] ∧ x.accepted = [8, 7] := ⟨_, rfl, rfl, rfl⟩
  have hReach : Runs.Reachable (system 0) x := Runs.reachable_foldlM (.init rfl) _ hRun
  exact ⟨x, hReach, mailbox_exact 0 x hReach, hReturned, hAccepted⟩

end Mailbox

end Concurrit.Model
