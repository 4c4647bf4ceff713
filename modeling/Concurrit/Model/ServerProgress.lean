import Mathlib.Order.WellFounded
import Concurrit.Model.ServerEnds

/-!
# Concurrit — every event is replied to

Where tests end between the events, some thread of the server can go on as long as a client
thread waits (`goes`), each step without a new message leaves less to do (`shrinks`), and so
every client thread gets its reply whatever the order of the steps is (`events_answered`).
Otherwise an event may get lost in the end of a test (`event_lost`).
-/

namespace Concurrit.Model

open Function (update)
open Ipc.EventKind

namespace Server

open Pipe (Event Act HasLast)

variable {s s' : State} {l : Label} {p p' : Pipe.State} {e e' : Event} {j t v w : Nat}

-- ---------------------------------------------------------------------------
-- Threads that can go on
-- ---------------------------------------------------------------------------

/-- What the requests need: a broadcast comes only to shadow threads that wait for an event. -/
structure Ready (s : State) : Prop where
  shape    : Shape s
  accounts : Accounts s
  turns    : Turns s
  passing  : Passing s
  opened   : Pipe.Open s.pipe
  absent   : ∃ w, s.pipe.place w = .absent
  up       : s.up

/-- What holds where tests end between the events. -/
structure Sound (s : State) : Prop extends Ready s where
  lookups  : Lookups s
  kept     : Kept s

/-- A condition on the steps that holds up nobody but the receiver of the event pipe, an end of
a test, and a broadcast at its begin or at a permit. -/
structure Permits (ok : State → Label → Prop) (s : State) : Prop where
  client  : ok s .client
  main    : ok s .main
  shadow  : ∀ w, ok s (.shadow w)
  sender  : ∀ j, (∀ e, s.pipe.act j ≠ .broadcasts e) →
    (∀ w e rest, s.pipe.act j ≠ .signals w e (some rest)) → ok s (.sender j)
  control : s.control ≠ .locks .testEnd → ok s .control

theorem permits_endsBetween (s : State) : Permits EndsBetween s :=
  ⟨trivial, trivial, fun _ => trivial, fun _ hBegins hTakes =>
    ⟨fun e h => absurd h (hBegins e), fun w e rest _ h => absurd h (hTakes w e rest)⟩, Or.inr⟩

theorem Turns.sems_of_not_main (hT : Turns s) (hMain : s.main = false) :
    s.startSem = 0 ∧ s.endSem = 0 := by
  have hSems := hT.sems
  rw [hMain, Bool.toNat_false] at hSems
  omega

/-- No pipe is used before `__main__` runs for the first time: neither a `TestEnd` nor an event
that needs a shadow thread comes to the handler. -/
def UsesPipes (s : State) : Label → Prop
  | .receiver => s.assigned = true ∨ ∀ e, s.received = some e → ¬ s.creates e
  | .control => s.assigned = true ∨ s.control ≠ .locks .testEnd
  | .send _ | .request _ | .client | .main | .sender _ | .shadow _ => True

theorem usesPipes_of_endsBetween (h : EndsBetween s l) : UsesPipes s l := by
  cases l
  case receiver | control => exact h
  all_goals trivial

/-- **The program stays up** as long as the pipes are used after `__main__` has set them.
The only other failure is the assertion of `__main__`, which is made before either semaphore
is raised. -/
theorem up_step (hT : Turns s) (hUp : s.crashed = false) (hOk : UsesPipes s l)
    (h : Step s l s') : s'.crashed = false := by
  cases h
  case noClientPipe e hAt _ _ hCreates hAssigned =>
    rcases hOk with hSet | hNone
    · cases hAssigned.symm.trans hSet
    · exact absurd hCreates (hNone e hAt)
  case noControlPipe hAt _ hAssigned =>
    rcases hOk with hSet | hNone
    · cases hAssigned.symm.trans hSet
    · exact absurd hAt hNone
  -- both semaphores are zero when `__main__` begins
  case mainFails hMain hSems =>
    have hZero := hT.sems_of_not_main hMain
    omega
  case runs =>
    rw [reply_frame]
    exact hUp
  all_goals exact hUp

/-- Where tests end between the events, the server does not fail. -/
theorem not_crashed (h : Runs.ReachableUnder system EndsBetween s) : s.crashed = false := by
  refine h.invariant_of (P := fun s => s.crashed = false) (fun _ => turns) ?_ ?_
  · rintro _ rfl
    rfl
  · exact fun s l s' hT hUp hOk hStep => up_step hT hUp (usesPipes_of_endsBetween hOk) hStep.2

theorem sound (h : Runs.ReachableUnder system EndsBetween s) (hClient : s.clientFailed = false) :
    Sound s := by
  have hCovers : Covers EndsBetween fun _ _ => True :=
    ⟨fun _ _ _ => trivial, fun _ _ => trivial, fun _ _ => trivial, fun _ _ => trivial⟩
  exact ⟨⟨shape h, accounts h, turns h, passing h, opened h,
    Pipe.absent_exists (projected hCovers h).2, not_crashed h, hClient⟩, lookups h, kept h⟩

/-- Some thread of the server, or the client, can go on with a step that meets `ok`. -/
def Goes (ok : State → Label → Prop) (s : State) : Prop :=
  ∃ l s', (l.internal = true ∧ ok s l) ∧ system.step s l s'

section Requests

variable {ok : State → Label → Prop}

theorem Ready.goes_of_shadow (hR : Ready s) (hP : Permits ok s) (h : Pipe.Step s.pipe (.shadow w) p) :
    Goes ok s :=
  ⟨.shadow w, _, ⟨rfl, hP.shadow w⟩, hR.up, .runs h⟩

theorem Ready.goes_of_sender (hR : Ready s) (hOk : ok s (.sender j))
    (h : Pipe.Step s.pipe (.sender j) p) : Goes ok s :=
  ⟨.sender j, _, ⟨rfl, hOk⟩, hR.up, .handsOver h⟩

/-- An event goes into a mailbox: the two steps of `SendRecvSignal` after the wait for the
permit need nothing from anyone. -/
theorem Ready.goes_of_puts (hR : Ready s) (hP : Permits ok s) (h : (s.pipe.act j).puts = some (w, e)) :
    Goes ok s := by
  have hB := hR.shape.boxes
  cases hAct : s.pipe.act j <;> rw [hAct] at h
  case fills v e' rest =>
    exact hR.goes_of_sender (hP.sender j (by rw [hAct]; nofun) (by rw [hAct]; nofun)) (.fill hAct)
  case raises v e' rest =>
    have hSem := (hB.taken j v (by rw [hAct]; rfl)).2.2
    exact hR.goes_of_sender (hP.sender j (by rw [hAct]; nofun) (by rw [hAct]; nofun))
      (.raise hAct hSem)
  all_goals cases h

/-- A shadow thread handles its event. Whatever it does at its place, it is its own step and
never blocks. -/
theorem Ready.goes_of_carried (hR : Ready s) (hP : Permits ok s) (h : s.pipe.carried w = some e) :
    Goes ok s := by
  cases hPlace : s.pipe.place w <;> rw [Pipe.State.carried, hPlace] at h
  case waits =>
    by_cases hSem : 0 < s.pipe.sem w
    · exact hR.goes_of_shadow hP (.receive hPlace hSem)
    · simp [hSem] at h
  case copies => exact hR.goes_of_shadow hP (.copy hPlace)
  case handles e' => exact hR.goes_of_shadow hP (.handle hPlace)
  all_goals cases h

/-- A shadow thread with its last event comes to its end. For this it needs the registry
once, which is why no one may keep it locked. -/
theorem Ready.goes_of_last (hR : Ready s) (hP : Permits ok s) (hMap : s.pipe.owner = none)
    (hw : w ∈ s.pipe.registry) (h : HasLast s.pipe w) : Goes ok s := by
  rcases h with hPlace | ⟨e, he, _⟩ | ⟨k, e, hPuts, _⟩
  · cases hAt : s.pipe.place w
    case handles e => exact hR.goes_of_shadow hP (.handle hAt)
    case leaves => exact hR.goes_of_shadow hP (.unregister hAt hMap)
    case ended => exact absurd hAt (hR.shape.addressed.gone w hw)
    case absent => exact absurd hAt (hR.shape.listed.listed w hw)
    all_goals
      rw [hAt] at hPlace
      cases hPlace
  · exact hR.goes_of_carried hP he
  · exact hR.goes_of_puts hP hPuts

/-- A thread waits for a permit. If there is none, the shadow thread is on its way to give
one, since it does not finish. -/
theorem Ready.goes_of_signals (hR : Ready s) (hP : Permits ok s) {rest : Option (List Nat)}
    (hAct : s.pipe.act j = .signals w e rest) (hNot : (s.pipe.place w).finishing = false)
    (hOk : ok s (.sender j)) : Goes ok s := by
  obtain ⟨l, p, hStep, rfl | rfl | ⟨k, rfl, hHands⟩⟩ :=
    Pipe.step_of_signals hR.shape.boxes hAct (Pipe.stays_of_not_finishing hNot)
  · exact hR.goes_of_sender hOk hStep
  · exact hR.goes_of_shadow hP hStep
  · refine hR.goes_of_sender (hP.sender k (fun e h => ?_) fun v e r h => ?_) hStep
    · rw [h] at hHands
      cases hHands
    · rw [h] at hHands
      cases hHands

/-- Nobody but the receiver of the control pipe keeps the registry locked. -/
theorem Ready.owner (hR : Ready s) (hNot : (s.pipe.act 1).round = none) : s.pipe.owner = none := by
  by_contra hOwner
  obtain ⟨k, hk⟩ := Option.ne_none_iff_exists'.mp hOwner
  have hRound := (hR.shape.listed.holder k).mp hk
  rcases Nat.lt_or_ge k 2 with hLt | hGe
  · obtain rfl | rfl : k = 0 ∨ k = 1 := by omega
    · have hReceiver := hR.shape.roles.receiver
      cases hAct : s.pipe.act 0 <;> rw [hAct] at hRound hReceiver
      case signals w e rest | fills w e rest | raises w e rest =>
        obtain rfl : rest = none := Option.isNone_iff_eq_none.mp hReceiver
        cases hRound
      case visits | broadcasts | aborted => cases hReceiver
      all_goals cases hRound
    · rw [hNot] at hRound
      cases hRound
  · rw [hR.shape.roles.others k hGe] at hRound
    cases hRound

/-- A broadcast goes on: it begins by what the condition says, and takes its permits. Each
shadow thread it visits is registered and has not ended. -/
theorem Ready.goes_of_broadcast (hR : Ready s) (hP : Permits ok s) (hBusy : s.pipe.act 1 ≠ .idle)
    (hBegins : ∀ e, s.pipe.act 1 = .broadcasts e → s.pipe.owner = none → Goes ok s)
    (hTakes : ∀ w e rest, s.pipe.act 1 = .signals w e (some rest) → ok s (.sender 1)) :
    Goes ok s := by
  have hBroadcaster := hR.shape.roles.broadcaster
  cases hAct : s.pipe.act 1 <;> rw [hAct] at hBroadcaster
  case idle => exact absurd hAct hBusy
  case broadcasts e => exact hBegins e hAct (hR.owner (by rw [hAct]; rfl))
  -- the loop over the registered threads
  case visits e rest =>
    have hOk : ok s (.sender 1) := hP.sender 1 (by rw [hAct]; nofun) (by rw [hAct]; nofun)
    cases rest with
    | nil => exact hR.goes_of_sender hOk (.unlock hAct)
    | cons w rest => exact hR.goes_of_sender hOk (.visit hAct)
  -- a permit from the shadow thread
  case signals w e rest =>
    obtain ⟨rest, rfl⟩ := Option.isSome_iff_exists.mp (Bool.and_eq_true .. |>.mp hBroadcaster).1
    have hNot := hR.opened 1 (w :: rest) (by rw [hAct]; rfl) w List.mem_cons_self
    exact hR.goes_of_signals hP hAct (Bool.eq_false_iff.mpr fun h => hNot (Or.inl h))
      (hTakes w e rest hAct)
  case fills w e rest => exact hR.goes_of_puts hP (by rw [hAct]; rfl)
  case raises w e rest => exact hR.goes_of_puts hP (by rw [hAct]; rfl)
  all_goals cases hBroadcaster

/-- `__main__` begins or ends, unless a test is on. -/
theorem Ready.goes_of_main (hR : Ready s) (hP : Permits ok s) (hNot : s.testStarted = false)
    (hEnds : s.control.ends = false) (hStart : s.startSem = 0) : Goes ok s := by
  have hSems := hR.turns.sems
  rw [hNot, hEnds, hStart, Bool.toNat_false] at hSems
  cases hMain : s.main <;> rw [hMain] at hSems
  · rw [Bool.toNat_false] at hSems
    exact ⟨.main, _, ⟨rfl, hP.main⟩, hR.up, .mainBegins hMain (by omega) hStart⟩
  · rw [Bool.toNat_true] at hSems
    exact ⟨.main, _, ⟨rfl, hP.main⟩, hR.up, .mainEnds hMain (by omega)⟩

theorem Ready.goes_of_control_step (hR : Ready s) (hP : Permits ok s)
    (hAt : s.control ≠ .locks .testEnd) (h : Step s .control s') : Goes ok s :=
  ⟨.control, s', ⟨rfl, hP.control hAt⟩, hR.up, h⟩

/-- `StartTest` or `EndTest` goes on: it waits for `__main__`, for the broadcast or for the
last shadow thread, and in each case this one can take a step. -/
theorem Ready.goes_of_control (hR : Ready s) (hP : Permits ok s) (hHolds : s.control.holds = true)
    (hBroadcast : s.pipe.act 1 ≠ .idle → Goes ok s) : Goes ok s := by
  cases hAt : s.control <;> rw [hAt] at hHolds
  -- `StartTest` waits for `__main__`
  case waitsStart =>
    rcases Nat.eq_zero_or_pos s.startSem with hZero | hPos
    · exact hR.goes_of_main hP (hR.turns.waiting hAt) (by rw [hAt]; rfl) hZero
    · exact hR.goes_of_control_step hP (by rw [hAt]; nofun) (.starts hAt hPos)
  case broadcasts =>
    by_cases hDone : s.pipe.act 1 = .idle
    · exact hR.goes_of_control_step hP (by rw [hAt]; nofun) (.broadcast hAt hDone)
    · exact hBroadcast hDone
  -- `EndTest` waits until nobody is registered any more
  case waitsThreads =>
    have hIdle := hR.shape.roles.broadcast (by rw [hAt]; nofun)
    have hMap := hR.owner (by rw [hIdle]; rfl)
    cases hRegistry : s.pipe.registry with
    | nil => exact hR.goes_of_control_step hP (by rw [hAt]; nofun) (.ended hAt hMap hRegistry)
    | cons w rest =>
      have hw : w ∈ s.pipe.registry := by simp [hRegistry]
      -- whoever is still registered has its last event, as the broadcast is over
      rcases hR.passing (by rw [hAt]; rfl) w hw with hNext | hLast
      · rw [ahead, hIdle] at hNext
        cases hNext
      · exact hR.goes_of_last hP hMap hw hLast
  all_goals cases hHolds

/-- A test has started only after `__main__` has assigned the pipes. -/
theorem Turns.assigned_of_started (hT : Turns s) (hStarted : s.testStarted = true) :
    s.assigned = true := by
  refine hT.assigned ?_
  have hSems := hT.sems
  rw [hStarted, Bool.toNat_true] at hSems
  cases hMain : s.main
  · rw [hMain, Bool.toNat_false] at hSems
    omega
  · rfl

/-- **As long as a request is not answered, some thread can go on.** The broadcast and the
use of the pipe are left to the condition. -/
theorem Ready.goes_of_request (hR : Ready s) (hP : Permits ok s)
    (hBroadcast : s.pipe.act 1 ≠ .idle → Goes ok s) (hAssigned : s.assigned = true → ok s .control)
    (hSome : s.requests ≠ [] ∨ s.control ≠ .reads) : Goes ok s := by
  cases hAt : s.control
  -- the next request is read
  case reads =>
    obtain ⟨r, rest, hNext⟩ := List.exists_cons_of_ne_nil (hSome.resolve_right (absurd hAt))
    exact hR.goes_of_control_step hP (by rw [hAt]; nofun) (.readsRequest hNext hAt)
  case locks r =>
    cases r with
    | testStart =>
      have hNot : s.control ≠ .locks .testEnd := by rw [hAt]; nofun
      cases hStarted : s.testStarted
      · exact hR.goes_of_control_step hP hNot (.waitsStart hAt hStarted)
      · exact hR.goes_of_control_step hP hNot (.startsAgain hAt hStarted)
    | testEnd =>
      cases hStarted : s.testStarted
      · cases hPipe : s.assigned
        · -- `__main__` has not run yet
          have hMain : s.main = false := Bool.eq_false_iff.mpr fun h => by
            cases hPipe.symm.trans (hR.turns.assigned h)
          obtain ⟨hStart, hEnd⟩ := hR.turns.sems_of_not_main hMain
          exact ⟨.main, _, ⟨rfl, hP.main⟩, hR.up, .mainBegins hMain hEnd hStart⟩
        · exact ⟨.control, _, ⟨rfl, hAssigned hPipe⟩, hR.up, .endsAgain hAt hStarted hPipe⟩
      · have hPipe := hR.turns.assigned_of_started hStarted
        exact ⟨.control, _, ⟨rfl, hAssigned hPipe⟩, hR.up, .ends hAt hStarted⟩
  -- the request is inside a wait
  case waitsStart | broadcasts | waitsThreads =>
    exact hR.goes_of_control hP (by rw [hAt]; rfl) hBroadcast

end Requests

/-- The receiver of the event pipe goes on with an event that it has accepted: it looks up
the shadow thread, waits for its permit and fills its mailbox. -/
theorem Sound.goes_of_receiver (hS : Sound s) (hBusy : s.pipe.act 0 ≠ .idle) :
    Goes EndsBetween s := by
  have hP := permits_endsBetween s
  have hReceiver := hS.shape.roles.receiver
  cases hAct : s.pipe.act 0 <;> rw [hAct] at hReceiver
  case idle => exact absurd hAct hBusy
  -- by the condition nobody keeps the registry locked now
  case looksUp e =>
    have hMap : s.pipe.owner = none := by
      by_contra hOwner
      exact hS.lookups.apart hOwner e hAct
    have hOk : EndsBetween s (.sender 0) := hP.sender 0 (by rw [hAct]; nofun) (by rw [hAct]; nofun)
    cases hFind : s.pipe.registry.find? (s.pipe.tid · = e.threadid) with
    | some w => exact hS.goes_of_sender hOk (.find hAct hMap hFind)
    | none => exact hS.goes_of_sender hOk (.findNone hAct hMap hFind)
  case signals w e rest =>
    obtain rfl : rest = none := Option.isNone_iff_eq_none.mp hReceiver
    have hNot := (hS.lookups.kept w e hAct).2
    refine hS.goes_of_signals hP hAct (Bool.eq_false_iff.mpr fun h => hNot (Or.inl h)) ?_
    exact hP.sender 0 (by rw [hAct]; nofun) (by rw [hAct]; nofun)
  case fills w e rest => exact hS.goes_of_puts hP (by rw [hAct]; rfl)
  case raises w e rest => exact hS.goes_of_puts hP (by rw [hAct]; rfl)
  all_goals cases hReceiver

/-- A broadcast goes on. It may have to wait for the receiver, and for shadow threads that
end, but not the other way round. -/
theorem Sound.goes_of_broadcast (hS : Sound s) (hBusy : s.pipe.act 1 ≠ .idle) :
    Goes EndsBetween s := by
  -- the receiver goes first if it is busy
  by_cases hReceiver : s.pipe.act 0 = .idle
  · refine hS.toReady.goes_of_broadcast (permits_endsBetween s) hBusy (fun e hAct hMap => ?_)
      fun w e rest hAct => ⟨by rw [hAct]; nofun, fun v e' r e'' _ => by rw [hReceiver]; nofun⟩
    by_cases hSome : ∃ w ∈ s.pipe.registry, Pipe.Finishing s.pipe w
    · -- the threads that end are waited for
      obtain ⟨w, hw, hFin⟩ := hSome
      refine hS.goes_of_last (permits_endsBetween s) hMap hw
        (Pipe.hasLast_of_finishing (fun k e' => ?_) hFin)
      -- no sender is on its way to such a thread
      rcases Nat.lt_or_ge k 2 with hLt | hGe
      · obtain rfl | rfl : k = 0 ∨ k = 1 := by omega
        · rw [hReceiver]
          nofun
        · rw [hAct]
          nofun
      · rw [hS.shape.roles.others k hGe]
        nofun
    · refine hS.goes_of_sender ⟨fun e' _ => ⟨by rw [hReceiver]; nofun, fun w hw hFin => ?_⟩,
        by rw [hAct]; nofun⟩ (.lock hAct hMap)
      exact hSome ⟨w, hw, hFin⟩
  · exact hS.goes_of_receiver hReceiver

/-- There is a shadow thread for the id, or one can be created. -/
theorem Sound.create (hS : Sound s) (t : Nat) :
    (∃ w ∈ s.pipe.registry, s.pipe.tid w = t) ∨
      (∀ v ∈ s.pipe.registry, s.pipe.tid v ≠ t) ∧ ∃ p, CreateShadowThread s.pipe t p := by
  by_cases hSome : ∃ w ∈ s.pipe.registry, s.pipe.tid w = t
  · exact Or.inl hSome
  · have hNone : ∀ v ∈ s.pipe.registry, s.pipe.tid v ≠ t := fun v hv h => hSome ⟨v, hv, h⟩
    obtain ⟨w, hAbsent⟩ := hS.absent
    exact Or.inr ⟨hNone, _, .new hAbsent hNone⟩

/-- `OnRecv` of an event. While `StartTest` or `EndTest` holds the mutex, these go on;
otherwise the event is forwarded, starts a thread or is ignored. -/
theorem Sound.goes_of_received (hS : Sound s) (hAt : s.received = some e) : Goes EndsBetween s := by
  cases hFree : s.control.holds
  case true => exact hS.goes_of_control (permits_endsBetween s) hFree hS.goes_of_broadcast
  case false =>
    have hEnds := ends_of_holds hFree
    have hIdle := hS.shape.roles.broadcast fun h => by
      rw [h] at hEnds
      cases hEnds
    have hMap := hS.owner (by rw [hIdle]; rfl)
    -- the event is forwarded to a shadow thread
    by_cases hForwards : s.forwards e
    · by_cases hAssigned : s.creates e → s.assigned = true
      · have hOk : EndsBetween s .receiver := by
          by_cases hCreates : s.creates e
          · exact Or.inl (hAssigned hCreates)
          · refine Or.inr fun e' he' => ?_
            obtain rfl : e = e' := Option.some.inj (hAt.symm.trans he')
            exact hCreates
        rcases hS.create e.threadid with ⟨w, hw, hTid⟩ | ⟨hNone, p, hCreate⟩
        · exact ⟨.receiver, _, ⟨rfl, hOk⟩, hS.up,
            .forwards hAt hFree hMap hForwards hAssigned (.found hw hTid)⟩
        · exact ⟨.receiver, _, ⟨rfl, hOk⟩, hS.up,
            .forwards hAt hFree hMap hForwards hAssigned (.creates hNone hCreate)⟩
      · -- `__main__` has not run yet
        obtain ⟨hCreates, hNull⟩ := Classical.not_imp.mp hAssigned
        have hMain : s.main = false := Bool.eq_false_iff.mpr fun h => hNull (hS.turns.assigned h)
        obtain ⟨hStart, hEnd⟩ := hS.turns.sems_of_not_main hMain
        exact ⟨.main, _, ⟨rfl, trivial⟩, hS.up, .mainBegins hMain hEnd hStart⟩
    -- it is not forwarded
    · have hKind : e.type ≠ AddressOfSymbol := fun h => hForwards (Or.inl h)
      cases hStarted : s.testStarted
      -- within a test this is `ThreadStart`
      case true =>
        have hStart : e.type = ThreadStart := by
          by_contra hNot
          exact hForwards (Or.inr ⟨hStarted, hNot⟩)
        have hAssigned := hS.turns.assigned_of_started hStarted
        rcases hS.create e.threadid with ⟨w, hw, hTid⟩ | ⟨_, p, hCreate⟩
        · exact ⟨.receiver, _, ⟨rfl, Or.inl hAssigned⟩, hS.up,
            .startsThread hAt hFree hMap hStarted hStart hAssigned (.again hw hTid)⟩
        · exact ⟨.receiver, _, ⟨rfl, Or.inl hAssigned⟩, hS.up,
            .startsThread hAt hFree hMap hStarted hStart hAssigned hCreate⟩
      -- outside of a test it is answered and ignored
      case false =>
        have hOk : EndsBetween s .receiver := by
          refine Or.inr fun e' he' hCreates => ?_
          obtain rfl : e = e' := Option.some.inj (hAt.symm.trans he')
          rcases hCreates with ⟨hSome, _⟩ | ⟨hSome, _⟩
          · cases hStarted.symm.trans hSome
          · exact hForwards hSome
        exact ⟨.receiver, _, ⟨rfl, hOk⟩, hS.up, .ignores hAt hFree hStarted hKind⟩

/-- **As long as a client thread waits, some thread can go on.** By the accounts its event
is inside the server or its reply is in the pipe; the case distinction follows the way of
the event. -/
theorem Sound.goes (hS : Sound s) (hWaits : 0 < (s.client t).waiting) : Goes EndsBetween s := by
  have hKept := hS.kept t
  rcases Nat.eq_zero_or_pos (s.replies t) with hNone | hSome
  · -- the event is inside
    obtain ⟨e, he, _⟩ := List.countP_pos_iff.mp (show 0 < s.insideOf t by omega)
    -- accepted by the receiver
    by_cases hReceived : ∃ e', s.received = some e'
    · obtain ⟨e', hAt⟩ := hReceived
      exact hS.goes_of_received hAt
    have hReceived : s.received = none := Option.not_isSome_iff_eq_none.mp fun h =>
      hReceived (Option.isSome_iff_exists.mp h)
    by_cases hIdle : s.pipe.act 0 = .idle
    · cases hServer : s.toServer with
      | cons e' rest =>
        refine ⟨.receiver, _, ⟨rfl, Or.inr fun e'' h => ?_⟩, hS.up, .reads hServer hReceived hIdle⟩
        cases hReceived.symm.trans h
      | nil =>
        -- with a shadow thread
        have hEvent : e ∈ shadowEvents s.pipe := by
          simpa [State.inside, given, hServer, hReceived, hIdle, handed] using he
        obtain ⟨w, _, hw⟩ := List.mem_filterMap.mp hEvent
        obtain ⟨hCarried, _⟩ := Option.filter_eq_some_iff.mp hw
        exact hS.goes_of_carried (permits_endsBetween s) hCarried
    · exact hS.goes_of_receiver hIdle
  · -- a reply is on its way
    cases hClient : s.toClient with
    | nil =>
      rw [State.replies, hClient] at hSome
      cases hSome
    | cons e rest =>
      by_cases hKind : e.type = Continue
      · obtain ⟨k, u⟩ := e
        obtain rfl : k = Continue := hKind
        have hOne : 0 < s.replies u := by
          rw [State.replies, hClient]
          exact List.count_pos_iff.mpr List.mem_cons_self
        have hOnce := hS.accounts.once u
        cases hAt : s.client u <;> rw [hAt] at hOnce
        case waits e => exact ⟨.client, _, ⟨rfl, trivial⟩, hS.up, .continues hClient hAt⟩
        all_goals
          simp only [Client.waiting] at hOnce
          omega
      · exact ⟨.client, _, ⟨rfl, trivial⟩, hS.up, .notices hClient hKind⟩

-- ---------------------------------------------------------------------------
-- What is left to do
-- ---------------------------------------------------------------------------

/-- The steps of the receiver of the control pipe that are left of a request. -/
def Control.left : Control → Nat
  | .reads => 0
  | .locks _ => 4
  | .waitsStart | .waitsThreads => 1
  | .broadcasts => 2

def begins : Act → Nat
  | .broadcasts _ => 1
  | .idle | .looksUp _ | .signals _ _ _ | .fills _ _ _ | .raises _ _ _ | .visits _ _ | .aborted => 0

/-- What is left of the requests, up to the lock of the registry in a broadcast. -/
def State.requestsLeft (s : State) : Nat :=
  5 * s.requests.length + s.control.left + begins (s.pipe.act 1)

/-- What is left of the events, of a broadcast and of `__main__`. -/
def State.eventsLeft (s : State) : Nat :=
  12 * s.toServer.length + 11 * s.received.toList.length + s.pipe.work + s.toClient.length +
    2 * s.endSem + (!s.main).toNat

/-- The requests come first: with a broadcast the shadow threads get new events. -/
def State.left (s : State) : Nat × Nat := (s.requestsLeft, s.eventsLeft)

/-- Creating a shadow thread adds one step to the work that is left. -/
theorem work_create (hL : Pipe.Listed p) (h : CreateShadowThread p t p') : p'.work ≤ p.work + 1 := by
  cases h with
  | again _ _ => exact Nat.le_succ _
  | @new w hAbsent _ =>
    have hOther : ∀ v ∈ p.registry, (registered p w t).stepsOf v = p.stepsOf v := by
      intro v hv
      have hvw : v ≠ w := fun h => hL.listed v hv (h ▸ hAbsent)
      exact Pipe.stepsOf_congr (Function.update_of_ne hvw ..) rfl
    -- the registry is kept in order, so the new thread may stand anywhere in it
    have hPerm := (List.perm_orderedInsert (fun v v' => update p.tid w t v ≤ update p.tid w t v') w
      p.registry).map (registered p w t).stepsOf
    have hNew : (registered p w t).stepsOf w = 1 := by simp [Pipe.State.stepsOf, registered]
    have hSum : ((registered p w t).registry.map (registered p w t).stepsOf).sum =
        1 + (p.registry.map p.stepsOf).sum := by
      refine hPerm.sum_eq.trans ?_
      rw [List.map_cons, List.sum_cons, hNew, List.map_congr_left hOther]
    have hAct : (registered p w t).act = p.act := rfl
    rw [Pipe.State.work, Pipe.State.work, hSum, hAct]
    omega

/-- An event that the receiver takes over adds the nine steps of its lookup, its permit and
its mailbox. -/
theorem work_looksUp (hIdle : p.act 0 = .idle) :
    Pipe.State.work { p with act := update p.act 0 (.looksUp e) } = p.work + 9 := by
  have hSteps := Pipe.steps_update (s := p) (b := .looksUp e) (Or.inl rfl : 0 = 0 ∨ 0 = 1)
  have hSame : Pipe.State.stepsOf { p with act := update p.act 0 (.looksUp e) } = p.stepsOf := rfl
  have hNone : (p.act 0).steps = 0 := by
    rw [hIdle]
    rfl
  have hNine : (Act.looksUp e).steps = 9 := rfl
  simp only [Pipe.State.work, hSame]
  omega

/-- A hand-over does not begin a broadcast. -/
theorem begins_step (h : Pipe.Step p (.sender j) p') : begins (p'.act j) = 0 := by
  cases h
  case raise e rest _ _ => cases rest <;> simp [Act.next, begins]
  all_goals simp [begins]

/-- **A step of a sender leaves less to do.** Locking the registry for a broadcast counts as
part of the request, every other step as work inside the pipe. -/
theorem Ready.shrinks_of_sender (hS : Ready s) (h : Pipe.Step s.pipe (.sender j) p) :
    Prod.Lex (· < ·) (· < ·) (State.left { s with pipe := p }) s.left := by
  refine Prod.lex_iff.mpr ?_
  have hBegins : begins (p.act 1) = if j = 1 then 0 else begins (s.pipe.act 1) := by
    split
    · rename_i hj
      subst hj
      exact begins_step h
    · rename_i hj
      obtain ⟨a, hAct⟩ := h.act_of_sender
      rw [hAct, Function.update_of_ne (Ne.symm hj)]
  -- only this step adds work, one round over the registry
  by_cases hLocks : ∃ e, s.pipe.act j = .broadcasts e
  · -- the registry is locked
    obtain ⟨e, hLocks⟩ := hLocks
    have hj : j = 1 := by
      rcases hS.shape.roles.sender h with rfl | rfl
      · have hReceiver := hS.shape.roles.receiver
        rw [hLocks] at hReceiver
        cases hReceiver
      · rfl
    subst hj
    have hNone : begins (p.act 1) = 0 := begins_step h
    have hOne : begins (s.pipe.act 1) = 1 := by
      rw [hLocks]
      rfl
    refine Or.inl ?_
    simp only [State.left, State.requestsLeft]
    omega
  · have hNot : ∀ e, s.pipe.act j ≠ .broadcasts e := fun e he => hLocks ⟨e, he⟩
    have hWork := h.work_of_sender hS.shape.boxes hS.shape.listed hS.shape.addressed
      (hS.shape.roles.sender h) hNot
    refine Or.inr ⟨?_, ?_⟩
    · simp only [State.left, State.requestsLeft, hBegins]
      split
      · rename_i hj
        subst hj
        cases hAct : s.pipe.act 1 <;> first | rfl | exact absurd hAct (hNot _)
      · rfl
    · simp only [State.left, State.eventsLeft]
      omega

/-- So does a step of a shadow thread, with the reply it sends counted as well. -/
theorem Ready.shrinks_of_shadow (hS : Ready s) (h : Pipe.Step s.pipe (.shadow w) p) :
    Prod.Lex (· < ·) (· < ·)
      (State.left (State.reply { s with pipe := p } (s.pipe.tid w) (s.pipe.place w))) s.left := by
  obtain ⟨hWork, hReply⟩ := h.work_of_shadow hS.shape.boxes hS.shape.listed hS.shape.addressed
  refine Prod.lex_iff.mpr (Or.inr ⟨?_, ?_⟩)
  · rw [reply_frame]
    simp only [State.left, State.requestsLeft, h.act_of_shadow]
  · by_cases hHandles : ∃ e, s.pipe.place w = .handles e ∧ e.type ≠ ThreadEndIntern
    · obtain ⟨e, hPlace, hKind⟩ := hHandles
      have hMore := hReply e hPlace
      rw [hPlace, reply_of_handles hKind]
      simp only [State.left, State.eventsLeft, State.sendContinue, List.length_append,
        List.length_singleton]
      omega
    · rw [reply_of_other fun e he => by_contra fun hKind => hHandles ⟨e, he, hKind⟩]
      simp only [State.left, State.eventsLeft]
      omega

/-- **A step without a new message leaves less to do.** The order is lexicographic: the work
of the requests first, since a request can add work on events by its broadcast, then that of
the events. -/
theorem Ready.shrinks (hS : Ready s) (hInternal : l.internal = true) (hUp : s'.crashed = false)
    (h : Step s l s') : Prod.Lex (· < ·) (· < ·) s'.left s.left := by
  cases h
  -- a new message
  case send | request => cases hInternal
  case noClientPipe | noControlPipe | mainFails => cases hUp
  case handsOver j p hStep => exact hS.shrinks_of_sender hStep
  case runs w p hStep => exact hS.shrinks_of_shadow hStep
  -- the client takes a reply
  case continues hNext _ =>
    refine Prod.lex_iff.mpr (Or.inr ⟨rfl, ?_⟩)
    simp [State.left, State.eventsLeft, hNext]
  case notices hNext _ =>
    refine Prod.lex_iff.mpr (Or.inr ⟨rfl, ?_⟩)
    simp [State.left, State.eventsLeft, hNext]
  -- the receiver reads an event
  case reads hNext hNone _ =>
    refine Prod.lex_iff.mpr (Or.inr ⟨rfl, ?_⟩)
    simp [State.left, State.eventsLeft, hNext, hNone]
    omega
  case ignores hAt _ _ _ =>
    refine Prod.lex_iff.mpr (Or.inr ⟨rfl, ?_⟩)
    simp [State.left, State.eventsLeft, State.sendContinue, hAt]
    omega
  -- the event creates a shadow thread
  case startsThread p hAt _ _ _ _ _ hCreate =>
    have hWork := work_create hS.shape.listed hCreate
    refine Prod.lex_iff.mpr (Or.inr ⟨?_, ?_⟩)
    · simp only [State.left, State.requestsLeft, State.sendContinue, hCreate.act]
    · simp [State.left, State.eventsLeft, State.sendContinue, hAt]
      omega
  case forwards e p hAt _ _ _ _ hHandle =>
    have hAct := hHandle.create.act
    have hWork := work_create hS.shape.listed hHandle.create
    have hLooks := work_looksUp (e := e) (hAct ▸ hS.shape.roles.reading e hAt)
    refine Prod.lex_iff.mpr (Or.inr ⟨?_, ?_⟩)
    · simp [State.left, State.requestsLeft, hAct]
    · simp [State.left, State.eventsLeft, hAt]
      omega
  -- the control thread gets on with its request
  case readsRequest hNext hAt =>
    refine Prod.lex_iff.mpr (Or.inl ?_)
    simp [State.left, State.requestsLeft, hNext, hAt, Control.left]
    omega
  case startsAgain hAt _ =>
    refine Prod.lex_iff.mpr (Or.inl ?_)
    simp [State.left, State.requestsLeft, hAt, Control.left]
  case waitsStart hAt _ =>
    refine Prod.lex_iff.mpr (Or.inl ?_)
    simp [State.left, State.requestsLeft, hAt, Control.left]
  case starts hAt _ =>
    refine Prod.lex_iff.mpr (Or.inl ?_)
    simp [State.left, State.requestsLeft, hAt, Control.left]
  case endsAgain hAt _ _ =>
    refine Prod.lex_iff.mpr (Or.inl ?_)
    simp [State.left, State.requestsLeft, hAt, Control.left]
  case ends hAt _ =>
    have hIdle := hS.shape.roles.broadcast (by simp [hAt])
    refine Prod.lex_iff.mpr (Or.inl ?_)
    simp [State.left, State.requestsLeft, hAt, Control.left, begins]
    omega
  case broadcast hAt _ =>
    refine Prod.lex_iff.mpr (Or.inl ?_)
    simp [State.left, State.requestsLeft, hAt, Control.left]
  case ended hAt _ _ =>
    refine Prod.lex_iff.mpr (Or.inl ?_)
    simp [State.left, State.requestsLeft, hAt, Control.left]
  -- `__main__` is about to run, or to end
  case mainBegins hMain _ _ =>
    refine Prod.lex_iff.mpr (Or.inr ⟨rfl, ?_⟩)
    simp [State.left, State.eventsLeft, hMain]
  case mainEnds hMain hSem =>
    refine Prod.lex_iff.mpr (Or.inr ⟨rfl, ?_⟩)
    simp [State.left, State.eventsLeft, hMain]
    omega

-- ---------------------------------------------------------------------------
-- Replies
-- ---------------------------------------------------------------------------

/-- Every event gets one reply, where the steps to come meet `ok`. -/
structure Answered (ok : State → Label → Prop) (s : State) : Prop where
  /-- At most the last event of a client thread has no reply yet. -/
  once      : ∀ t, s.continued t ≤ s.sent t ∧ s.sent t ≤ s.continued t + 1
  /-- A reply goes to a client thread that waits for it. -/
  solicited : ∀ l s', ok s l → system.step s l s' → ∀ t, s'.continued t = s.continued t ∨
    s'.continued t = s.continued t + 1 ∧ s.sent t = s.continued t + 1 ∧ ∃ e, s.client t = .waits e
  /-- Whatever the order of the steps, every client thread comes to its reply, unless the reply
  to a `ThreadEnd` ends the program. -/
  released  : Runs.Inevitable system (fun s l => l.internal = true ∧ ok s l)
    (fun s' => s'.clientFailed = true ∨ ∀ t, (s'.client t).waiting = 0 ∧ s'.continued t = s'.sent t) s

theorem Accounts.sent_le (hAcc : Accounts s) (t : Nat) :
    s.continued t ≤ s.sent t ∧ s.sent t ≤ s.continued t + 1 := by
  have hReplied := hAcc.replied t
  have hOnce := hAcc.once t
  have hLe : (s.client t).waiting ≤ 1 := by cases s.client t <;> simp [Client.waiting]
  omega

/-- In every run a reply goes to a client thread that waits for it. By the accounts an event
that is inside the server has its thread waiting and no reply on its way. -/
theorem Accounts.solicited (hAcc : Accounts s) (h : Tally s s') (t : Nat) :
    s'.continued t = s.continued t ∨
      s'.continued t = s.continued t + 1 ∧ s.sent t = s.continued t + 1 ∧
        ∃ e, s.client t = .waits e := by
  cases h with
  | moves hQuiet _ => exact Or.inl (by rw [hQuiet.continued])
  | sends _ _ _ _ _ _ _ hContinued => exact Or.inl (by rw [hContinued])
  | continues _ _ _ _ _ _ _ hContinued => exact Or.inl (by rw [hContinued])
  | loses _ _ _ hQuiet _ => exact Or.inl (by rw [hQuiet.continued])
  | replies e hInside _ _ _ hContinued =>
    by_cases hte : t = e.threadid
    · have he : e ∈ s.inside := hInside.mem_iff.mpr List.mem_cons_self
      have hWaits := (hAcc.events e he).1
      have hNone := (hAcc.waits he).2
      have hReplied := hAcc.replied e.threadid
      rw [hWaits, hNone] at hReplied
      rw [hContinued, hte, Function.update_self]
      exact Or.inr ⟨rfl, hReplied, e, hWaits⟩
    · exact Or.inl (by rw [hContinued, Function.update_of_ne hte])

theorem reach_step {ok : State → Label → Prop} (h : Runs.ReachableUnder system ok s)
    (hUp : s.up) (hStep : Step s l s') (hOk : ok s l) : Runs.ReachableUnder system ok s' :=
  h.step hOk ⟨hUp, hStep⟩

/-- A test is on and the receiver has accepted the first event of a client thread. -/
def accepted : State :=
  { initial with
    client := update initial.client 2 (.waits ⟨AtPc, 2⟩), toClient := [⟨TestStart, 0⟩],
    testStarted := true, main := true, assigned := true, sent := update initial.sent 2 1,
    asked := 1, answered := 1,
    pipe :=
      { registered Pipe.noThreads 0 2 with act := update Pipe.noThreads.act 0 (.looksUp ⟨AtPc, 2⟩) } }

/-- The run behind the examples: the receiver has accepted an event. -/
theorem accepted_reached : Runs.ReachableUnder system EndsBetween accepted := by
  have h0 : Runs.ReachableUnder system EndsBetween initial := .init rfl
  have h1 := reach_step h0 ⟨rfl, rfl⟩ (.mainBegins rfl rfl rfl) trivial
  have h2 := reach_step h1 ⟨rfl, rfl⟩ (.request .testStart) trivial
  have h3 := reach_step h2 ⟨rfl, rfl⟩ (.readsRequest rfl rfl) (Or.inl rfl)
  have h4 := reach_step h3 ⟨rfl, rfl⟩ (.waitsStart rfl rfl) (Or.inl rfl)
  have h5 := reach_step h4 ⟨rfl, rfl⟩ (.starts rfl Nat.zero_lt_one) (Or.inl rfl)
  have h6 := reach_step h5 ⟨rfl, rfl⟩ (.send (e := ⟨AtPc, 2⟩) rfl (Nat.le_refl 2) (by decide)) trivial
  have h7 := reach_step h6 ⟨rfl, rfl⟩ (.reads rfl rfl rfl) (Or.inl rfl)
  exact reach_step h7 ⟨rfl, rfl⟩ (.forwards rfl rfl rfl (Or.inr ⟨rfl, by decide⟩) (fun _ => rfl)
    (.creates nofun (.new (w := 0) rfl nofun))) (Or.inl rfl)

/-- A client thread waits, and neither its event nor a reply to it is there any more. -/
structure Lost (s : State) (t : Nat) : Prop where
  waits    : ∃ e, s.client t = .waits e
  inside   : s.insideOf t = 0
  answered : s.replies t = 0

/-- **A lost event stays lost**: nobody but the client thread itself could send again, and
it waits. -/
theorem Lost.step (hLost : Lost s t) (h : Tally s s') : Lost s' t := by
  obtain ⟨⟨e, hWaits⟩, hInside, hReplies⟩ := hLost
  cases h with
  | moves hQuiet hPerm =>
    exact ⟨⟨e, by rw [hQuiet.client, hWaits]⟩, by rw [insideOf_perm hPerm, hInside],
      by rw [hQuiet.replies, hReplies]⟩
  | sends e' hRuns _ hPerm hClient hSame _ _ =>
    have hNe : t ≠ e'.threadid := fun h => by
      rw [h, hRuns] at hWaits
      cases hWaits
    refine ⟨⟨e, ?_⟩, ?_, ?_⟩
    · rw [hClient, Function.update_of_ne hNe, hWaits]
    · rw [insideOf_cons hPerm, hInside, if_neg (Ne.symm hNe)]
    · rw [hSame, hReplies]
  | replies e' hPerm hClient hSome _ _ =>
    have hCount := insideOf_cons hPerm t
    have hNe : e'.threadid ≠ t := fun h => by
      rw [if_pos h] at hCount
      omega
    rw [if_neg hNe] at hCount
    refine ⟨⟨e, by rw [hClient, hWaits]⟩, by omega, ?_⟩
    rw [hSome, hReplies, if_neg (Ne.symm hNe)]
  | continues u e' _ hPerm hClient hSome _ _ =>
    have hCount := hSome t
    have hNe : t ≠ u := fun h => by
      rw [if_pos h] at hCount
      omega
    rw [if_neg hNe] at hCount
    refine ⟨⟨e, ?_⟩, ?_, by omega⟩
    · rw [hClient, Function.update_of_ne hNe, hWaits]
    · rw [State.insideOf, hPerm]
      exact hInside
  | loses e' _ _ hQuiet hPerm =>
    have hCount := insideOf_cons hPerm t
    refine ⟨⟨e, by rw [hQuiet.client, hWaits]⟩, by omega, ?_⟩
    rw [hQuiet.replies, hReplies]

/-- **A lost event is lost for ever**, whatever comes. -/
theorem Lost.forever {s₀ : State} {ok : State → Label → Prop} (hReach : Runs.Reachable system s₀)
    (hLost : Lost s₀ t) (h : Runs.ReachableUnder (system.startingAt s₀) ok s) : Lost s t := by
  refine (h.invariant (P := fun s => Runs.Reachable system s ∧ Lost s t) ?_ ?_).2
  · rintro _ rfl
    exact ⟨hReach, hLost⟩
  · rintro s l s' ⟨hOld, hLost⟩ _ hStep
    exact ⟨hOld.step trivial hStep, hLost.step (tally hOld hStep)⟩

theorem lasting_accepted : Lasting accepted := by
  refine lasting_initial.of_client (t := 2) (c := .waits ⟨AtPc, 2⟩) rfl (fun e he => ?_) nofun rfl
  cases he
  decide

/-- A test ends after the receiver has accepted an event and before it looks up the shadow
thread. The shadow thread is gone then, and nobody replies. -/
theorem event_lost : ∃ s : State, Runs.Reachable system s ∧ Lasting s ∧ Lost s 2 := by
  have h0 : Runs.Reachable system accepted := accepted_reached.reachable
  have h1 := reach_step h0 ⟨rfl, rfl⟩ (.request .testEnd) trivial
  have h2 := reach_step h1 ⟨rfl, rfl⟩ (.readsRequest rfl rfl) trivial
  have h3 := reach_step h2 ⟨rfl, rfl⟩ (.ends rfl rfl) trivial
  have h4 := reach_step h3 ⟨rfl, rfl⟩ (.handsOver (.lock (j := 1) rfl rfl)) trivial
  have h5 := reach_step h4 ⟨rfl, rfl⟩ (.handsOver (.visit (j := 1) rfl)) trivial
  have h6 := reach_step h5 ⟨rfl, rfl⟩ (.runs (.ready (w := 0) rfl)) trivial
  have h7 := reach_step h6 ⟨rfl, rfl⟩ (.handsOver (.wait (j := 1) rfl Nat.zero_lt_one)) trivial
  have h8 := reach_step h7 ⟨rfl, rfl⟩ (.handsOver (.fill (j := 1) rfl)) trivial
  have h9 := reach_step h8 ⟨rfl, rfl⟩ (.handsOver (.raise (j := 1) rfl rfl)) trivial
  have h10 := reach_step h9 ⟨rfl, rfl⟩ (.handsOver (.unlock (j := 1) rfl)) trivial
  have h11 := reach_step h10 ⟨rfl, rfl⟩ (.broadcast rfl rfl) trivial
  have h12 := reach_step h11 ⟨rfl, rfl⟩ (.runs (.receive (w := 0) rfl Nat.zero_lt_one)) trivial
  have h13 := reach_step h12 ⟨rfl, rfl⟩ (.runs (.copy (w := 0) rfl)) trivial
  have h14 := reach_step h13 ⟨rfl, rfl⟩ (.runs (.handle (w := 0) rfl)) trivial
  have h15 := reach_step h14 ⟨rfl, rfl⟩ (.runs (.unregister (w := 0) rfl rfl)) trivial
  have h16 := reach_step h15 ⟨rfl, rfl⟩ (.ended rfl rfl rfl) trivial
  have h17 := reach_step h16 ⟨rfl, rfl⟩ (.handsOver (.findNone (j := 0) rfl rfl rfl)) trivial
  exact ⟨_, h17, lasting_accepted.of_same rfl rfl, ⟨⟨_, rfl⟩, rfl, by decide⟩⟩

/-- Without the condition some events are never answered. -/
theorem events_not_answered :
    ¬ ∀ s : State, Runs.Reachable system s → Answered (fun _ _ => True) s := by
  intro hAll
  obtain ⟨s, hReach, hLasting, hLost⟩ := event_lost
  obtain ⟨s', hReach', hReleased⟩ := (hAll s hReach).released.possible (.init rfl)
  obtain ⟨e, hWaits⟩ := (hLost.forever hReach hReach').waits
  rcases hReleased with hFailed | hReleased
  · -- no event is sent any more, and none of the old ones ends the program
    have hLasting' : Lasting s' := by
      refine hReach'.invariant (P := Lasting) ?_ ?_
      · rintro _ rfl
        exact hLasting
      · rintro s l s' hL hOk ⟨_, hStep⟩
        refine hL.step ?_ hStep
        rintro e rfl
        cases hOk.1
    cases hLasting'.alive.symm.trans hFailed
  · have hNone := (hReleased 2).1
    rw [hWaits] at hNone
    cases hNone

end Server

end Concurrit.Model
