import Concurrit.Model.ServerReplies

/-!
# Concurrit — the ends of tests

Outside of `EndTest` no shadow thread has a `ThreadEndIntern`, and one that has left its loop has
replied to the `ThreadEnd` of its client thread (`Calm`). Inside of it, each registered thread
has its last event, or the broadcast is still to come to it (`Passing`). Where tests end between
the events, the receiver finds a shadow thread for each event it has accepted, and this one is
still to take it (`Lookups`), so that no event is lost (`kept`).
-/

namespace Concurrit.Model

open Function (update)
open Ipc.EventKind

namespace Server

open Pipe (Event Act HasLast)

variable {s s' : State} {l : Label} {p p' : Pipe.State} {e e' : Event} {j t v w : Nat}

-- ---------------------------------------------------------------------------
-- Turns of `__main__` and the tests
-- ---------------------------------------------------------------------------

/-- Each run of `__main__` is a start that waits, a test, an end in progress, or one that waits. -/
structure Turns (s : State) : Prop where
  sems     : s.startSem + s.endSem + s.testStarted.toNat + s.control.ends.toNat = s.main.toNat
  assigned : s.main = true → s.assigned = true
  waiting  : s.control = .waitsStart → s.testStarted = false

theorem turns_initial : Turns initial := ⟨rfl, fun h => h, fun _ => rfl⟩

theorem Turns.of_same (hT : Turns s) (hStart : s'.startSem = s.startSem)
    (hEnd : s'.endSem = s.endSem) (hTest : s'.testStarted = s.testStarted)
    (hControl : s'.control = s.control) (hMain : s'.main = s.main)
    (hAssigned : s'.assigned = s.assigned) : Turns s' :=
  ⟨by rw [hStart, hEnd, hTest, hControl, hMain]; exact hT.sems,
    by rw [hMain, hAssigned]; exact hT.assigned, by rw [hControl, hTest]; exact hT.waiting⟩

/-- The receiver of the control pipe goes on outside of `EndTest`. -/
theorem Turns.of_control (hT : Turns s) {c : Control} {n : Nat} (hEnds : c.ends = s.control.ends)
    (hWaits : c = .waitsStart → s.testStarted = false) :
    Turns { s with control := c, answered := n } :=
  ⟨by rw [hEnds]; exact hT.sems, hT.assigned, hWaits⟩

/-- **Step lemma of the turns**: each run of `__main__` is a start that waits, a test, an
end in progress, or one that waits. -/
theorem Turns.step (hT : Turns s) (h : Step s l s') : Turns s' := by
  have hSems := hT.sems
  cases h
  case runs w p hStep =>
    rw [reply_frame]
    exact hT.of_same rfl rfl rfl rfl rfl rfl
  -- a request is read: the control thread had none before
  case readsRequest r rest hNext hAt =>
    exact ⟨by simpa [hAt, Control.ends] using hSems, hT.assigned, nofun⟩
  case startsAgain hAt _ => exact hT.of_control (by rw [hAt]; rfl) nofun
  case endsAgain hAt _ _ => exact hT.of_control (by rw [hAt]; rfl) nofun
  case waitsStart hAt hNot => exact hT.of_control (by rw [hAt]; rfl) fun _ => hNot
  case broadcast hAt _ => exact hT.of_control (by rw [hAt]; rfl) nofun
  -- the test starts: one of the semaphores goes down, the flag up
  case starts hAt hSem =>
    have hNot := hT.waiting hAt
    refine ⟨?_, hT.assigned, nofun⟩
    simp only [hAt, hNot, Control.ends, Bool.toNat_false, Bool.toNat_true] at hSems ⊢
    omega
  case ends hAt hStarted =>
    refine ⟨?_, hT.assigned, nofun⟩
    simpa [hAt, hStarted, Control.ends] using hSems
  -- the test has ended, when the main thread may go on
  case ended hAt _ _ =>
    refine ⟨?_, hT.assigned, nofun⟩
    simp only [hAt, Control.ends, Bool.toNat_false, Bool.toNat_true] at hSems ⊢
    omega
  -- the main thread runs a test
  case mainBegins hMain hEnd hStart =>
    refine ⟨?_, fun _ => rfl, hT.waiting⟩
    simp only [hMain, Bool.toNat_false, Bool.toNat_true] at hSems ⊢
    omega
  case mainEnds hMain hSem =>
    refine ⟨?_, nofun, hT.waiting⟩
    simp only [hMain, Bool.toNat_false, Bool.toNat_true] at hSems ⊢
    omega
  all_goals exact hT.of_same rfl rfl rfl rfl rfl rfl

theorem turns {ok : State → Label → Prop} (h : Runs.ReachableUnder system ok s) : Turns s := by
  refine h.invariant ?_ fun _ _ _ hT _ hStep => hT.step hStep.2
  rintro _ rfl
  exact turns_initial

-- ---------------------------------------------------------------------------
-- Client threads that have ended
-- ---------------------------------------------------------------------------

/-- No thread of the program has sent `ThreadEnd`. -/
structure Lasting (s : State) : Prop where
  waits : ∀ t e, s.client t = .waits e → e.type ≠ ThreadEnd
  runs  : ∀ t, s.client t ≠ .ended
  alive : s.clientFailed = false

theorem lasting_initial : Lasting initial := ⟨nofun, nofun, rfl⟩

theorem Lasting.of_same (hL : Lasting s) (hClient : s'.client = s.client)
    (hFailed : s'.clientFailed = s.clientFailed) : Lasting s' :=
  ⟨hClient ▸ hL.waits, hClient ▸ hL.runs, hFailed.trans hL.alive⟩

/-- A thread of the program goes on. -/
theorem Lasting.of_client (hL : Lasting s) {c : Client} (hClient : s'.client = update s.client t c)
    (hWaits : ∀ e, c = .waits e → e.type ≠ ThreadEnd) (hRuns : c ≠ .ended)
    (hAlive : s'.clientFailed = false) : Lasting s' := by
  refine ⟨fun u e hu => ?_, fun u hu => ?_, hAlive⟩
  all_goals
    rw [hClient] at hu
    by_cases hut : u = t
  · rw [hut, Function.update_self] at hu
    exact hWaits e hu
  · rw [Function.update_of_ne hut] at hu
    exact hL.waits u e hu
  · rw [hut, Function.update_self] at hu
    exact hRuns hu
  · rw [Function.update_of_ne hut] at hu
    exact hL.runs u hu

/-- The program goes on as long as none of its threads sends `ThreadEnd`: a thread that has
sent another event goes on after the reply. -/
theorem Lasting.step (hL : Lasting s) (hSend : ∀ e, l = .send e → e.type ≠ ThreadEnd)
    (h : Step s l s') : Lasting s' := by
  cases h
  case send e _ _ _ =>
    refine hL.of_client rfl (fun e' he => ?_) nofun hL.alive
    cases he
    exact hSend e rfl
  case continues u e rest _ hWaits =>
    have hKind := hL.waits u e hWaits
    have hNext : Client.next e = .runs := if_neg hKind
    exact hL.of_client rfl (by rw [hNext]; nofun) (by rw [hNext]; nofun) (by simpa using hKind)
  case runs w p hStep =>
    rw [reply_frame]
    exact hL.of_same rfl rfl
  all_goals exact hL.of_same rfl rfl

/-- The client thread sends nothing more. -/
def Client.final : Client → Prop
  | .waits e => e.type = ThreadEnd
  | .ended => True
  | .runs => False

/-- The server has replied to the last event of a client thread. -/
def Gone (s : State) (t : Nat) : Prop := s.insideOf t = 0 ∧ (s.client t).final

/-- A client thread that has got the reply to its last event stays so, whatever the others
do. -/
theorem Gone.step (hG : Gone s t) (h : Tally s s') : Gone s' t := by
  obtain ⟨hNone, hFinal⟩ := hG
  cases h with
  | moves hQuiet hInside =>
    refine ⟨(insideOf_perm hInside t).trans hNone, ?_⟩
    rwa [hQuiet.client]
  -- another thread has sent something
  | sends e hRuns hKind hInside hClient =>
    have hNe : t ≠ e.threadid := by
      rintro rfl
      rw [hRuns] at hFinal
      exact hFinal
    refine ⟨?_, ?_⟩
    · rw [insideOf_cons hInside, hNone, if_neg (Ne.symm hNe)]
    · rwa [hClient, Function.update_of_ne hNe]
  | replies e hInside hClient =>
    have hCount := insideOf_cons hInside t
    refine ⟨by omega, ?_⟩
    rwa [hClient]
  -- the reply to its `ThreadEnd` ends the thread
  | continues u e hWaits hInside hClient =>
    refine ⟨by rw [State.insideOf, hInside]; exact hNone, ?_⟩
    rw [hClient]
    by_cases htu : t = u
    · subst htu
      rw [hWaits] at hFinal
      have hKind : e.type = ThreadEnd := hFinal
      rw [Function.update_self, Client.next, if_pos hKind]
      trivial
    · rwa [Function.update_of_ne htu]
  -- an event for which no shadow thread is registered is lost
  | loses e hAct hNone' hQuiet hInside =>
    have hCount := insideOf_cons hInside t
    refine ⟨by omega, ?_⟩
    rwa [hQuiet.client]

-- ---------------------------------------------------------------------------
-- Outside of a broadcast
-- ---------------------------------------------------------------------------

/-- Outside of `EndTest`, or before its broadcast locks the registry. -/
def Before (s : State) : Prop := s.control.ends = false ∨ ∃ e, s.pipe.act 1 = .broadcasts e

/-- No shadow thread has been told to end; one that ends has replied to a `ThreadEnd`. -/
def Calm (s : State) : Prop :=
  Before s → ∀ w ∈ s.pipe.registry,
    (∀ e, s.pipe.carried w = some e → e.type ≠ ThreadEndIntern) ∧
    (s.pipe.place w = .leaves → Gone s (s.pipe.tid w))

/-- A step after which the shadow threads have what they have had before. -/
theorem Calm.of_same (hC : Calm s) (hTally : Tally s s') (hBefore : Before s' → Before s)
    (hRegistry : s'.pipe.registry = s.pipe.registry) (hPlace : s'.pipe.place = s.pipe.place)
    (hTid : s'.pipe.tid = s.pipe.tid)
    (hCarried : ∀ w, s'.pipe.carried w = s.pipe.carried w) : Calm s' := by
  intro hEnds w hw
  obtain ⟨hKind, hLeaves⟩ := hC (hBefore hEnds) w (hRegistry ▸ hw)
  rw [hCarried, hPlace, hTid]
  exact ⟨hKind, fun hAt => (hLeaves hAt).step hTally⟩

/-- A new shadow thread carries nothing yet and has not left. -/
theorem Calm.of_create (hC : Calm s) (hTally : Tally s s') (hBefore : Before s' → Before s)
    (hCreate : CreateShadowThread s.pipe t p)
    (hPipe : s'.pipe = { p with act := s'.pipe.act }) : Calm s' := by
  intro hEnds w hw
  replace hEnds := hBefore hEnds
  rw [hPipe] at hw ⊢
  cases hCreate with
  | again _ _ =>
    obtain ⟨hKind, hLeaves⟩ := hC hEnds w hw
    exact ⟨hKind, fun hAt => (hLeaves hAt).step hTally⟩
  -- the thread is the new one, or was there before
  | @new v hAbsent hTid =>
    by_cases hwv : w = v
    · subst hwv
      refine ⟨fun e he => ?_, fun hAt => ?_⟩
      · simp [Pipe.State.carried, registered] at he
      · simp [registered] at hAt
    · have hOld : w ∈ s.pipe.registry := by simpa [registered, hwv] using hw
      obtain ⟨hKind, hLeaves⟩ := hC hEnds w hOld
      have hSame : Pipe.State.carried { registered s.pipe v t with act := s'.pipe.act } w =
          s.pipe.carried w := Pipe.carried_congr (Function.update_of_ne hwv ..) rfl rfl
      refine ⟨fun e he => hKind e (hSame.symm.trans he), fun hAt => ?_⟩
      · have hTidw : (registered s.pipe v t).tid w = s.pipe.tid w := Function.update_of_ne hwv ..
        show Gone s' ((registered s.pipe v t).tid w)
        rw [hTidw]
        exact (hLeaves (by simpa [registered, hwv] using hAt)).step hTally

theorem mem_inside (hw : w ∈ s.pipe.registry) (hCarried : s.pipe.carried w = some e)
    (hKind : e.type ≠ ThreadEndIntern) : e ∈ s.inside := by
  have hEvent : e ∈ shadowEvents s.pipe :=
    List.mem_filterMap.mpr ⟨w, hw, clientEvent_of_carried hCarried hKind⟩
  simp [State.inside, given, hEvent]

/-- The reply to `ThreadEnd`. -/
theorem gone_of_reply (hAcc : Accounts s) (hSame : s'.client = s.client)
    (hAcc' : Accounts (s'.sendContinue e.threadid)) (he : e ∈ s.inside) (hKind : e.type = ThreadEnd) :
    Gone (s'.sendContinue e.threadid) e.threadid := by
  have hClient : (s'.sendContinue e.threadid).client e.threadid = .waits e := by
    rw [State.sendContinue, hSame]
    exact (hAcc.events e he).1
  have hOnce := hAcc'.once e.threadid
  rw [replies_sendContinue, if_pos rfl, hClient] at hOnce
  simp only [Client.waiting] at hOnce
  refine ⟨by omega, ?_⟩
  rw [hClient]
  exact hKind

theorem last_of_client (hLast : e.last = true) (hKind : e.type ≠ ThreadEndIntern) :
    e.type = ThreadEnd := by
  simpa [Event.last, hKind] using hLast

/-- A shadow thread goes on outside of `EndTest`. It leaves only after `ThreadEnd`, and its
reply is what lets the client thread end. -/
theorem Calm.of_shadow (hC : Calm s) (hS : Shape s) (hAcc : Accounts s)
    (h : Pipe.Step s.pipe (.shadow w) p)
    (hTally : Tally s (State.reply { s with pipe := p } (s.pipe.tid w) (s.pipe.place w))) :
    Calm (State.reply { s with pipe := p } (s.pipe.tid w) (s.pipe.place w)) := by
  intro hEnds v hv
  have hAcc' := hAcc.step hTally
  have hControl : Before s := by
    rw [reply_frame] at hEnds
    exact hEnds.imp_right fun ⟨e, he⟩ => ⟨e, h.act_of_shadow ▸ he⟩
  have hvOld : v ∈ s.pipe.registry := by
    rw [reply_frame] at hv
    rcases h.registry_of_shadow with hSame | ⟨_, hErase⟩
    · exact hSame ▸ hv
    · exact List.mem_of_mem_erase (hErase ▸ hv)
  obtain ⟨hKind, hLeaves⟩ := hC hControl v hvOld
  have hPipe : (State.reply { s with pipe := p } (s.pipe.tid w) (s.pipe.place w)).pipe = p := by
    rw [reply_frame]
  rw [hPipe, h.tid_of_internal rfl]
  refine ⟨fun e he => hKind e (h.carried_of_shadow hS.boxes he), fun hAt => ?_⟩
  -- it has left before, or leaves with this step
  rcases h.leaves hAt with hOld | ⟨e, hLabel, hPlace, hLast⟩
  · exact (hLeaves hOld).step hTally
  · -- the thread has handled its last event
    obtain rfl : w = v := by simpa using hLabel
    have hCarried : s.pipe.carried w = some e := by rw [Pipe.State.carried, hPlace]
    have hClient := hKind e hCarried
    have hInside := mem_inside hvOld hCarried hClient
    have hTid := hS.addressed.carried w e hCarried
    rw [hPlace, reply_of_handles hClient, ← hTid] at hAcc' ⊢
    exact gone_of_reply hAcc rfl hAcc' hInside (last_of_client hLast hClient)

/-- A hand-over does not begin a broadcast. -/
theorem begins_never (h : Pipe.Step p (.sender j) p') (e : Event) : p'.act j ≠ .broadcasts e := by
  cases h
  case raise e rest _ _ => cases rest <;> simp [Act.next]
  all_goals simp

/-- The receiver hands an event over, while no broadcast has locked the registry. What it
hands over is an event of the program. -/
theorem Calm.of_sender (hC : Calm s) (hS : Shape s) (hAcc : Accounts s)
    (h : Pipe.Step s.pipe (.sender j) p) (hTally : Tally s { s with pipe := p }) :
    Calm { s with pipe := p } := by
  intro hEnds w hw
  have hw' : w ∈ s.pipe.registry := h.registry_of_sender ▸ hw
  -- a broadcast that goes on has locked the registry
  obtain ⟨rfl, hBefore⟩ : j = 0 ∧ Before s := by
    rcases hS.roles.sender h with rfl | rfl
    · obtain ⟨a, hUpdate⟩ := h.act_of_sender
      refine ⟨rfl, hEnds.imp_right fun ⟨e, he⟩ => ⟨e, ?_⟩⟩
      rw [hUpdate] at he
      simpa using he
    · rcases hEnds with hEnds | ⟨e, he⟩
      · refine absurd (hS.roles.broadcast fun hAt => ?_) h.busy
        have hEnds' : s.control.ends = false := hEnds
        rw [hAt] at hEnds'
        cases hEnds'
      · exact absurd he (begins_never h e)
  obtain ⟨hKind, hLeaves⟩ := hC hBefore w hw'
  show (∀ e, p.carried w = some e → _) ∧ (p.place w = .leaves → Gone _ (p.tid w))
  rw [h.tid_of_internal rfl, h.place_of_sender]
  refine ⟨fun e he => ?_, fun hAt => (hLeaves hAt).step hTally⟩
  -- where the event is: it has been put into the box of a shadow thread, or has not moved
  rcases h.carried hS.boxes with hSame | ⟨k, v, e', rest, hLabel, hAct, _, hNew, hSame⟩ | ⟨_, _, hLabel, _⟩
  · exact hKind e (hSame w ▸ he)
  · by_cases hwv : w = v
    · obtain rfl : 0 = k := by simpa using hLabel
      have hReceiver := hS.roles.receiver
      rw [hAct] at hReceiver
      obtain rfl : rest = none := Option.isNone_iff_eq_none.mp hReceiver
      subst hwv
      obtain rfl : e' = e := Option.some.inj (hNew.symm.trans he)
      exact hAcc.clientEvents (by rw [hAct]; rfl)
    · exact hKind e (hSame w hwv ▸ he)
  · cases hLabel

/-- **Step lemma before a test ends**: no shadow thread has been told to end, and one that
ends has replied to a `ThreadEnd`. -/
theorem Calm.step (hC : Calm s) (hS : Shape s) (hAcc : Accounts s) (hTally : Tally s s')
    (h : Step s l s') : Calm s' := by
  cases h
  case startsThread e p _ _ _ _ _ _ hCreate =>
    exact hC.of_create hTally (Or.imp_right fun ⟨e, he⟩ => ⟨e, hCreate.act ▸ he⟩) hCreate rfl
  case forwards e p _ _ _ _ _ hHandle =>
    refine hC.of_create hTally (Or.imp_right fun ⟨e, he⟩ => ⟨e, ?_⟩) hHandle.create rfl
    rw [← hHandle.create.act]
    simpa using he
  case runs w p hStep => exact hC.of_shadow hS hAcc hStep hTally
  case handsOver j p hStep => exact hC.of_sender hS hAcc hStep hTally
  -- the broadcast is over when the registry is empty
  case ended _ _ hNone =>
    intro _ w hw
    rw [hNone] at hw
    cases hw
  -- the broadcast that begins is the one of `EndTest`
  case broadcast hAt hDone =>
    rintro (hEnds | ⟨e, he⟩)
    · cases hEnds
    · cases hDone.symm.trans he
  case ends hAt _ =>
    exact hC.of_same hTally (fun _ => Or.inl (by rw [hAt]; rfl)) rfl rfl rfl fun _ => rfl
  case readsRequest hAt =>
    exact hC.of_same hTally (fun _ => Or.inl (by rw [hAt]; rfl)) rfl rfl rfl fun _ => rfl
  case startsAgain hAt _ =>
    exact hC.of_same hTally (fun _ => Or.inl (by rw [hAt]; rfl)) rfl rfl rfl fun _ => rfl
  case waitsStart hAt _ =>
    exact hC.of_same hTally (fun _ => Or.inl (by rw [hAt]; rfl)) rfl rfl rfl fun _ => rfl
  case starts hAt _ =>
    exact hC.of_same hTally (fun _ => Or.inl (by rw [hAt]; rfl)) rfl rfl rfl fun _ => rfl
  case endsAgain hAt _ _ =>
    exact hC.of_same hTally (fun _ => Or.inl (by rw [hAt]; rfl)) rfl rfl rfl fun _ => rfl
  all_goals exact hC.of_same hTally id rfl rfl rfl fun _ => rfl

theorem calm {ok : State → Label → Prop} (h : Runs.ReachableUnder system ok s) : Calm s := by
  refine h.invariant_of (fun s hReach => And.intro (And.intro (shape hReach) (accounts hReach))
    fun {l s'} (hStep : system.step s l s') => Server.tally hReach hStep) ?_ ?_
  · rintro _ rfl _ w hw
    cases hw
  · rintro s l s' ⟨⟨hS, hAcc⟩, hTally⟩ hC _ hStep
    exact hC.step hS hAcc (hTally hStep) hStep.2

/-- **No shadow thread ends before the broadcast**, as long as no thread of the program
does: it would have to carry a last event, and these are the `ThreadEnd` of the program and
the broadcast of `EndTest`. -/
theorem Lasting.not_finishing (hL : Lasting s) (hS : Shape s) (hAcc : Accounts s) (hC : Calm s)
    (hBefore : Before s) (hw : w ∈ s.pipe.registry) : ¬ Pipe.Finishing s.pipe w := by
  obtain ⟨hKind, hLeaves⟩ := hC hBefore w hw
  -- an event of the program is not the last one of its thread
  have hClient : ∀ e ∈ s.inside, e.last = false := by
    intro e he
    rw [← Bool.not_eq_true]
    intro hLast
    obtain ⟨hWaits, hFrom⟩ := hAcc.events e he
    exact hL.waits _ _ hWaits (last_of_client hLast hFrom.ne_intern)
  have hCarried : ∀ e, s.pipe.carried w = some e → e.last = false := fun e he =>
    hClient e (mem_inside hw he (hKind e he))
  -- where the last event could be: with the thread, in its box, or in the hands of a sender
  rintro (hPlace | ⟨hMail, hLast⟩ | ⟨j, e, hSingle, hLast⟩)
  · cases hAt : s.pipe.place w <;> rw [hAt] at hPlace
    case handles e => cases (hCarried e (by rw [Pipe.State.carried, hAt])).symm.trans hPlace
    case leaves =>
      have hFinal := (hLeaves hAt).2
      cases hAtClient : s.client (s.pipe.tid w) <;> rw [hAtClient] at hFinal
      case waits e => exact hL.waits _ _ hAtClient hFinal
      case ended => exact hL.runs _ hAtClient
      case runs => exact hFinal
    case ended => exact hS.addressed.gone w hw hAt
    case absent => exact hS.listed.listed w hw hAt
    all_goals cases hPlace
  · have hSome : s.pipe.carried w = some (s.pipe.event w) := by
      rcases hMail with hAt | ⟨hAt, hSem⟩
      · rw [Pipe.State.carried, hAt]
      · rw [Pipe.State.carried, hAt]
        exact if_pos hSem
    cases (hCarried _ hSome).symm.trans hLast
  · rcases Nat.lt_or_ge j 2 with hLt | hGe
    · obtain rfl | rfl : j = 0 ∨ j = 1 := by omega
      · have hHanded : handed (s.pipe.act 0) = some e := by
          cases hAct : s.pipe.act 0 <;> rw [hAct] at hSingle
          case signals v e' rest | fills v e' rest | raises v e' rest =>
            cases rest <;> cases hSingle
            rfl
          all_goals cases hSingle
        have he : e ∈ s.inside := by simp [State.inside, given, hHanded]
        cases (hClient e he).symm.trans hLast
      · have hBroadcaster := hS.roles.broadcaster
        cases hAct : s.pipe.act 1 <;> rw [hAct] at hSingle hBroadcaster
        case signals v e' rest | fills v e' rest | raises v e' rest =>
          cases rest
          · cases hBroadcaster
          · cases hSingle
        all_goals cases hSingle
    · rw [hS.roles.others j hGe] at hSingle
      cases hSingle

-- ---------------------------------------------------------------------------
-- Inside of `EndTest`
-- ---------------------------------------------------------------------------

/-- The shadow threads that the broadcast has still to come to. -/
def ahead (p : Pipe.State) : List Nat :=
  match p.act 1 with
  | .broadcasts _ => p.registry
  | .visits _ rest => rest
  | .signals w _ rest => w :: rest.getD []
  | .fills _ _ rest | .raises _ _ rest => rest.getD []
  | .idle | .looksUp _ | .aborted => []

/-- Every registered thread has its last event or is to get it. -/
def Passing (s : State) : Prop :=
  s.control.ends = true → ∀ w ∈ s.pipe.registry, w ∈ ahead s.pipe ∨ HasLast s.pipe w

/-- The broadcast comes to the next thread, or has taken the permit of this one and is about
to hand it the last event. -/
theorem ahead_step (hB : Pipe.Boxes p) (hBroadcaster : broadcastsEnd (p.act 1) = true)
    (h : Pipe.Step p (.sender 1) p') (hw : w ∈ ahead p) : w ∈ ahead p' ∨ HasLast p' w := by
  cases h
  case find hAct | findNone hAct =>
    rw [hAct] at hBroadcaster
    cases hBroadcaster
  case lock hFree hAct =>
    rw [ahead, hAct] at hw
    exact Or.inl (by simpa [ahead] using hw)
  case visit hAct =>
    rw [ahead, hAct] at hw
    exact Or.inl (by simpa [ahead] using hw)
  -- the permit of `v` has been taken
  case wait v e rest hSem hAct =>
    rw [hAct] at hBroadcaster
    rw [ahead, hAct] at hw
    rcases List.mem_cons.mp hw with rfl | hRest
    · have hKind : e.type = ThreadEndIntern := by
        simpa using (Bool.and_eq_true .. |>.mp hBroadcaster).2
      refine Or.inr (Or.inr (Or.inr ⟨1, e, ?_, by simp [Event.last, hKind]⟩))
      simp [Act.puts]
    · exact Or.inl (by simpa [ahead] using hRest)
  case fill hAct =>
    rw [ahead, hAct] at hw
    exact Or.inl (by simpa [ahead] using hw)
  case raise v e rest hSem hAct =>
    rw [hAct] at hBroadcaster
    rw [ahead, hAct] at hw
    cases rest with
    | none => cases hBroadcaster
    | some rest => exact Or.inl (by simpa [ahead, Act.next] using hw)
  case raiseFails v e rest hSem hAct =>
    rw [(hB.taken 1 v (by rw [hAct]; rfl)).2.2] at hSem
    cases hSem
  case unlock hAct =>
    rw [ahead, hAct] at hw
    cases hw

/-- The broadcast does not move. -/
theorem ahead_of_same (hAct : p'.act 1 = p.act 1) (hw : w ∈ p'.registry) (hAhead : w ∈ ahead p) :
    w ∈ ahead p' := by
  unfold ahead at hAhead ⊢
  rw [hAct]
  split
  · exact hw
  all_goals simp_all

/-- A step inside the pipe keeps the shadow threads that are still to be visited ahead. -/
theorem Passing.of_pipe (hP : Passing s) (hS : Shape s) (hControl : s'.control = s.control)
    {k : Pipe.Label} (hStep : Pipe.Step s.pipe k s'.pipe)
    (hRegistry : ∀ w ∈ s'.pipe.registry, w ∈ s.pipe.registry)
    (hAhead : ∀ w ∈ s'.pipe.registry, w ∈ ahead s.pipe → w ∈ ahead s'.pipe ∨ HasLast s'.pipe w) :
    Passing s' := by
  intro hEnds w hw
  have hOld := hRegistry w hw
  rcases hP (hControl ▸ hEnds) w hOld with hNext | hLast
  · exact hAhead w hw hNext
  · exact Or.inr (hLast.step hS.boxes (hS.listed.listed w hOld) hStep)

/-- A step that is not one of the pipe. -/
theorem Passing.of_same (hP : Passing s) (hControl : s'.control.ends = true → s.control.ends = true)
    (hPipe : s'.pipe = s.pipe) : Passing s' := by
  intro hEnds
  rw [hPipe]
  exact hP (hControl hEnds)

theorem ends_of_holds {c : Control} (h : c.holds = false) : c.ends = false := by
  cases c <;> first | rfl | cases h

/-- **Step lemma of the end of a test**: each registered shadow thread has its last event or
is to get it. -/
theorem Passing.step (hP : Passing s) (hS : Shape s) (h : Step s l s') : Passing s' := by
  cases h
  case handsOver j p hStep =>
    have hRegistry := hStep.registry_of_sender
    refine hP.of_pipe hS rfl hStep (fun w hw => hRegistry ▸ hw) fun w hw hNext => ?_
    rcases hS.roles.sender hStep with rfl | rfl
    · obtain ⟨a, hAct⟩ := hStep.act_of_sender
      exact Or.inl (ahead_of_same (by rw [hAct]; rfl) hw hNext)
    · exact ahead_step hS.boxes hS.roles.broadcaster hStep hNext
  case runs w p hStep =>
    rw [reply_frame]
    refine hP.of_pipe hS rfl hStep (fun v hv => ?_) fun v hv hNext => ?_
    · rcases hStep.registry_of_shadow with hSame | ⟨_, hErase⟩
      · exact hSame ▸ hv
      · exact List.mem_of_mem_erase (hErase ▸ hv)
    · exact Or.inl (ahead_of_same (by rw [hStep.act_of_shadow]) hv hNext)
  case startsThread hFree _ _ _ _ _ =>
    intro hEnds
    cases (ends_of_holds hFree).symm.trans hEnds
  case forwards hFree _ _ _ _ =>
    intro hEnds
    cases (ends_of_holds hFree).symm.trans hEnds
  -- all shadow threads are ahead of a broadcast that begins
  case ends hAt _ =>
    intro _ w hw
    exact Or.inl (by simpa [ahead] using hw)
  case broadcast hAt _ => exact hP.of_same (fun _ => by rw [hAt]; rfl) rfl
  case readsRequest | startsAgain | waitsStart | starts | endsAgain | ended =>
    intro hEnds
    cases hEnds
  all_goals exact hP.of_same id rfl

theorem passing {ok : State → Label → Prop} (h : Runs.ReachableUnder system ok s) : Passing s := by
  refine h.invariant_of (fun _ => shape) ?_ fun _ _ _ hS hP _ hStep => hP.step hS hStep.2
  rintro _ rfl _ w hw
  cases hw

-- ---------------------------------------------------------------------------
-- Events that are accepted
-- ---------------------------------------------------------------------------

/-- The shadow thread of an event that the receiver has accepted is registered and still to get
it. -/
structure Lookups (s : State) : Prop where
  apart : s.pipe.owner ≠ none → ∀ e, s.pipe.act 0 ≠ .looksUp e
  found : ∀ e, s.pipe.act 0 = .looksUp e →
    ∃ w ∈ s.pipe.registry, s.pipe.tid w = e.threadid ∧ ¬ HasLast s.pipe w
  kept  : ∀ w e, s.pipe.act 0 = .signals w e none → w ∈ s.pipe.registry ∧ ¬ HasLast s.pipe w

theorem lookups_initial : Lookups initial :=
  ⟨fun h => absurd rfl h, nofun, nofun⟩

theorem Lookups.of_same (hK : Lookups s) (hPipe : s'.pipe = s.pipe) : Lookups s' :=
  ⟨hPipe ▸ hK.apart, hPipe ▸ hK.found, hPipe ▸ hK.kept⟩

/-- The receiver has nothing to hand over. -/
theorem Lookups.of_idle (hIdle : s.pipe.act 0 = .idle) : Lookups s :=
  ⟨fun _ _ h => absurd (hIdle.symm.trans h) nofun, fun _ h => absurd (hIdle.symm.trans h) nofun,
    fun _ _ h => absurd (hIdle.symm.trans h) nofun⟩

/-- **A shadow thread of an event that `OnRecv` passes on** has no last event. A client
thread waits for the reply after each event, so no other event of it is on its way, and
before the broadcast no other last event exists. -/
theorem not_hasLast (hS : Shape s) (hAcc : Accounts s) (hC : Calm s) (hAt : s.received = some e)
    (hEnds : s.control.ends = false) (hw : w ∈ s.pipe.registry)
    (hTid : s.pipe.tid w = e.threadid) : ¬ HasLast s.pipe w := by
  obtain ⟨hKind, hLeaves⟩ := hC (Or.inl hEnds) w hw
  have he : e ∈ s.inside := by simp [State.inside, hAt]
  have hOnce := hAcc.waits he
  -- the event that the thread is to get is the only one of the client thread
  have hCarried : ∀ e', s.pipe.carried w ≠ some e' := by
    intro e' hw'
    have hSame := (hS.addressed.carried w e' hw').trans hTid
    -- otherwise there are two events of the same thread inside
    have hTwo : 2 ≤ s.insideOf e.threadid := by
      have hGiven : e' ∈ given s.pipe := by
        have hEvent : e' ∈ shadowEvents s.pipe :=
          List.mem_filterMap.mpr ⟨w, hw, clientEvent_of_carried hw' (hKind e' hw')⟩
        simp [given, hEvent]
      have hPos : 0 < (given s.pipe).countP (·.threadid = e.threadid) :=
        List.countP_pos_iff.mpr ⟨e', hGiven, by simpa using hSame⟩
      simp only [State.insideOf, State.inside, hAt, List.countP_append, Option.toList_some,
        List.countP_singleton, decide_true, if_true]
      omega
    omega
  rintro (hPlace | ⟨e', hw', _⟩ | ⟨k, e', hPuts, _⟩)
  · cases hAtw : s.pipe.place w
    case handles e' => exact hCarried e' (by rw [Pipe.State.carried, hAtw])
    case leaves =>
      have hGone := (hLeaves hAtw).1
      rw [hTid] at hGone
      omega
    case ended => exact hS.addressed.gone w hw hAtw
    case absent => exact hS.listed.listed w hw hAtw
    all_goals
      rw [hAtw] at hPlace
      cases hPlace
  · exact hCarried e' hw'
  · -- nobody hands anything over
    have hIdle : s.pipe.act k = .idle := by
      rcases Nat.lt_or_ge k 2 with hLt | hGe
      · obtain rfl | rfl : k = 0 ∨ k = 1 := by omega
        · exact hS.roles.reading e hAt
        · refine hS.roles.broadcast fun hControl => ?_
          rw [hControl] at hEnds
          cases hEnds
      · exact hS.roles.others k hGe
    rw [hIdle] at hPuts
    cases hPuts

/-- A new shadow thread has no event, let alone its last one. -/
theorem not_hasLast_new (hB : Pipe.Boxes p) (hAbsent : p.place w = .absent) :
    ¬ HasLast (registered p w t) w := by
  rintro (hPlace | ⟨e, he, _⟩ | ⟨k, e, hPuts, _⟩)
  · simp [registered, Pipe.Place.finishing] at hPlace
  · simp [Pipe.State.carried, registered] at he
  · have hHands : (p.act k).hands = some w := by
      have hAct : (p.act k).puts = some (w, e) := hPuts
      cases hAt : p.act k <;> rw [hAt] at hAct <;> cases hAct <;> rfl
    rw [(hB.taken k w hHands).1] at hAbsent
    cases hAbsent

/-- What the receiver has accepted: the shadow thread that `HandleEvent` has found or made
is registered, and will not leave before the event reaches it. -/
theorem Lookups.of_forwards (hS : Shape s) (hAcc : Accounts s) (hC : Calm s)
    (hAt : s.received = some e) (hFree : s.control.holds = false) (hMap : s.pipe.owner = none)
    (hHandle : HandleEvent s.pipe e.threadid p) :
    Lookups { s with received := none, pipe := { p with act := update p.act 0 (.looksUp e) } } := by
  have hAct := hHandle.create.act
  have hIdle : p.act 0 = .idle := by
    rw [hAct]
    exact hS.roles.reading e hAt
  have hRequest : Pipe.Step p (.request 0) { p with act := update p.act 0 (.looksUp e) } :=
    .request e hIdle
  obtain ⟨hB, w, hw, hTid, hNot⟩ : Pipe.Boxes p ∧
      ∃ w ∈ p.registry, p.tid w = e.threadid ∧ ¬ HasLast p w := by
    -- found in the registry, or created for the event
    cases hHandle with
    | @found w hw hTid =>
      have hNot := not_hasLast hS hAcc hC hAt (ends_of_holds hFree) hw hTid
      exact ⟨hS.boxes, w, hw, hTid, hNot⟩
    | creates hNone hCreate =>
      cases hCreate with
      | again hw hTid => exact absurd hTid (hNone _ hw)
      | @new w hAbsent hTid =>
        have hStep : Pipe.Step s.pipe (.register w) (registered s.pipe w e.threadid) :=
          .register e.threadid hAbsent hMap hTid
        refine ⟨hS.boxes.step hStep, w, by simp [registered], by simp [registered], ?_⟩
        exact not_hasLast_new hS.boxes hAbsent
  have hOwner : p.owner = none := by
    rw [← hMap]
    cases hHandle.create <;> rfl
  refine ⟨fun h => absurd hOwner h, fun e' he' => ⟨w, hw, ?_, fun hLast => ?_⟩, fun v e' he' => ?_⟩
  · obtain rfl : e = e' := by simpa using he'
    exact hTid
  · rcases hRequest.hasLast hB hLast with hOld | ⟨_, _, _, hLabel, _⟩
    · exact hNot hOld
    · cases hLabel
  · simp at he'

/-- An event is looked up before it is handed to a shadow thread. -/
theorem finds_step (h : Pipe.Step p (.sender j) p') :
    (∀ e, p'.act j ≠ .looksUp e) ∧ ∀ w e, p'.act j = .signals w e none →
      p.act j = .looksUp e ∧ w ∈ p.registry ∧ p.tid w = e.threadid := by
  cases h
  case find e w hFree hFind hAct =>
    refine ⟨by simp, fun v e' h => ?_⟩
    obtain ⟨rfl, rfl⟩ : w = v ∧ e = e' := by simpa using h
    exact ⟨hAct, List.mem_of_find?_eq_some hFind, by simpa using List.find?_some hFind⟩
  case raise w e rest _ _ => cases rest <;> simp [Act.next]
  all_goals simp

/-- The receiver hands an event over. -/
theorem Lookups.of_receiver (hK : Lookups s) (hS : Shape s) (h : Pipe.Step s.pipe (.sender 0) p) :
    Lookups { s with pipe := p } := by
  obtain ⟨hNever, hFinds⟩ := finds_step h
  refine ⟨fun _ => hNever, fun e he => absurd he (hNever e), fun w e he => ?_⟩
  obtain ⟨hAct, hw, hTid⟩ := hFinds w e he
  refine ⟨h.registry_of_sender ▸ hw, fun hLast => ?_⟩
  obtain ⟨v, hv, hTidv, hNot⟩ := hK.found e hAct
  obtain rfl := hS.addressed.unique v hv w hw (hTidv.trans hTid.symm)
  rcases h.hasLast hS.boxes hLast with hOld | ⟨k, e', rest, hLabel, hAct', _⟩
  · exact hNot hOld
  · obtain rfl : 0 = k := by simpa using hLabel
    cases hAct.symm.trans hAct'

/-- A broadcast goes on. It may take the event of no thread that the receiver has looked up,
which is the condition on the steps. -/
theorem Lookups.of_broadcast (hK : Lookups s) (hS : Shape s) (hOk : EndsBetween s (.sender 1))
    (h : Pipe.Step s.pipe (.sender 1) p) : Lookups { s with pipe := p } := by
  have hBroadcaster := hS.roles.broadcaster
  obtain ⟨a, hUpdate⟩ := h.act_of_sender
  have hAct : p.act 0 = s.pipe.act 0 := by rw [hUpdate, Function.update_of_ne (by decide)]
  have hRegistry := h.registry_of_sender
  have hTid := h.tid_of_internal rfl
  -- no event is looked up while the registry is locked
  -- otherwise the receiver waits for the lock of the registry
  have hApart : ∀ e, s.pipe.act 0 ≠ .looksUp e := by
    by_cases hLocks : ∃ e, s.pipe.act 1 = .broadcasts e
    · obtain ⟨e, hLocks⟩ := hLocks
      exact (hOk.1 e hLocks).1
    · refine hK.apart fun hFree => ?_
      have hHolder := hS.listed.holder 1
      rw [hFree] at hHolder
      have hRound : (s.pipe.act 1).round.isSome = true := by
        have hBusy := h.busy
        cases hAt : s.pipe.act 1 <;> rw [hAt] at hBroadcaster
        case idle => exact absurd hAt hBusy
        case broadcasts e => exact absurd ⟨e, hAt⟩ hLocks
        case signals w e rest =>
          obtain ⟨rest, rfl⟩ := Option.isSome_iff_exists.mp (Bool.and_eq_true .. |>.mp hBroadcaster).1
          rfl
        case fills w e rest =>
          obtain ⟨rest, rfl⟩ := Option.isSome_iff_exists.mp (Bool.and_eq_true .. |>.mp hBroadcaster).1
          rfl
        case raises w e rest =>
          obtain ⟨rest, rfl⟩ := Option.isSome_iff_exists.mp (Bool.and_eq_true .. |>.mp hBroadcaster).1
          rfl
        case visits => rfl
        case looksUp => cases hBroadcaster
        case aborted => cases hBroadcaster
      cases hHolder.mpr hRound
  refine ⟨fun _ e he => hApart e (hAct ▸ he), fun e he => absurd (hAct ▸ he) (hApart e),
    fun w e he => ?_⟩
  have he' : s.pipe.act 0 = .signals w e none := hAct ▸ he
  obtain ⟨hw, hNot⟩ := hK.kept w e he'
  refine ⟨hRegistry ▸ hw, fun hLast => ?_⟩
  rcases h.hasLast hS.boxes hLast with hOld | ⟨k, e', rest, hLabel, hAct', _⟩
  · exact hNot hOld
  · obtain rfl : 1 = k := by simpa using hLabel
    rw [hAct'] at hBroadcaster
    obtain ⟨rest, rfl⟩ := Option.isSome_iff_exists.mp (Bool.and_eq_true .. |>.mp hBroadcaster).1
    exact hOk.2 w e' rest e hAct' he'

/-- A shadow thread goes on. One without a last event stays registered. -/
theorem Lookups.of_shadow (hK : Lookups s) (hS : Shape s) (h : Pipe.Step s.pipe (.shadow v) p)
    (hPipe : s'.pipe = p) : Lookups s' := by
  have hTid := h.tid_of_internal rfl
  have hAct := h.act_of_shadow
  have hOwner : p.owner = s.pipe.owner := by cases h <;> rfl
  -- a thread leaves the registry only after its last event
  have hStays : ∀ w ∈ s.pipe.registry, ¬ HasLast s.pipe w → w ∈ p.registry ∧ ¬ HasLast p w := by
    intro w hw hNot
    refine ⟨?_, fun hLast => ?_⟩
    · rcases h.registry_of_shadow with hSame | ⟨hPlace, hErase⟩
      · exact hSame ▸ hw
      · rw [hErase]
        refine hS.listed.nodup.mem_erase_iff.mpr ⟨?_, hw⟩
        rintro rfl
        exact hNot (Or.inl (by rw [hPlace]; rfl))
    · rcases h.hasLast hS.boxes hLast with hOld | ⟨_, _, _, hLabel, _⟩
      · exact hNot hOld
      · cases hLabel
  refine ⟨?_, fun e he => ?_, fun w e he => ?_⟩
  · rw [hPipe, hOwner, hAct]
    exact hK.apart
  · rw [hPipe, hAct] at he
    obtain ⟨w, hw, hTidw, hNot⟩ := hK.found e he
    rw [hPipe, hTid]
    exact ⟨w, (hStays w hw hNot).1, hTidw, (hStays w hw hNot).2⟩
  · rw [hPipe, hAct] at he
    obtain ⟨hw, hNot⟩ := hK.kept w e he
    rw [hPipe]
    exact hStays w hw hNot

/-- **Step lemma of the lookups**: the shadow thread of an event that the receiver has
accepted is registered and still to get it. -/
theorem Lookups.step (hK : Lookups s) (hS : Shape s) (hAcc : Accounts s) (hC : Calm s)
    (hOk : EndsBetween s l) (h : Step s l s') : Lookups s' := by
  cases h
  case handsOver j p hStep =>
    rcases hS.roles.sender hStep with rfl | rfl
    -- the receiver looks the thread up and hands the event over, or the broadcast goes on
    · exact hK.of_receiver hS hStep
    · exact hK.of_broadcast hS hOk hStep
  case runs w p hStep => exact hK.of_shadow hS hStep (by rw [reply_frame])
  case startsThread e p hAt _ _ _ _ _ hCreate =>
    refine .of_idle ?_
    show p.act 0 = .idle
    rw [hCreate.act]
    exact hS.roles.reading e hAt
  case forwards e p hAt hFree hMap _ _ hHandle => exact .of_forwards hS hAcc hC hAt hFree hMap hHandle
  -- `EndTest` starts the broadcast: nothing has been handed over yet
  case ends hAt _ =>
    have hIdle := hS.roles.broadcast (by rw [hAt]; nofun)
    have hRequest : Pipe.Step s.pipe (.request 1) { s.pipe with
        act := update s.pipe.act 1 (.broadcasts ⟨ThreadEndIntern, 0⟩) } := .requestAll _ hIdle
    have hSame : ∀ w, HasLast { s.pipe with
        act := update s.pipe.act 1 (.broadcasts ⟨ThreadEndIntern, 0⟩) } w → HasLast s.pipe w := by
      intro w hLast
      rcases hRequest.hasLast hS.boxes hLast with hOld | ⟨_, _, _, hLabel, _⟩
      · exact hOld
      · cases hLabel
    refine ⟨fun hOwner e he => hK.apart hOwner e (by simpa using he), fun e he => ?_, fun w e he => ?_⟩
    · obtain ⟨w, hw, hTid, hNot⟩ := hK.found e (by simpa using he)
      exact ⟨w, hw, hTid, fun hLast => hNot (hSame w hLast)⟩
    · obtain ⟨hw, hNot⟩ := hK.kept w e (by simpa using he)
      exact ⟨hw, fun hLast => hNot (hSame w hLast)⟩
  all_goals exact hK.of_same rfl

theorem lookups (h : Runs.ReachableUnder system EndsBetween s) : Lookups s := by
  refine h.invariant_of (fun s hReach => And.intro (shape hReach)
    (And.intro (accounts hReach) (calm hReach))) ?_ ?_
  · rintro _ rfl
    exact lookups_initial
  · rintro s l s' ⟨hS, hAcc, hC⟩ hK hOk hStep
    exact hK.step hS hAcc hC hOk hStep.2

-- ---------------------------------------------------------------------------
-- No event is lost
-- ---------------------------------------------------------------------------

/-- The event of a client thread that waits, or the reply to it, is there. -/
def Kept (s : State) : Prop := ∀ t, s.insideOf t + s.replies t = (s.client t).waiting

/-- **Step lemma of the waiting threads**: the event of each of them, or the reply to it, is
there. -/
theorem Kept.step (hKept : Kept s) (hK : Lookups s) (h : Tally s s') : Kept s' := by
  intro t
  have hOld := hKept t
  cases h with
  | moves hQuiet hInside =>
    rw [hQuiet.client, hQuiet.replies, insideOf_perm hInside]
    exact hOld
  | sends e hRuns hKind hInside hClient hReplies hSent hContinued =>
    rw [hReplies, insideOf_cons hInside, hClient, waiting_update]
    by_cases hte : t = e.threadid
    · rw [hte, hRuns] at hOld
      rw [hte, if_pos rfl, if_pos rfl]
      simp only [Client.waiting] at hOld ⊢
      omega
    · rwa [if_neg hte, if_neg (Ne.symm hte), Nat.add_zero]
  | replies e hInside hClient hReplies hSent hContinued =>
    rw [insideOf_cons hInside] at hOld
    rw [hReplies, hClient]
    simp only [eq_comm (a := t)]
    omega
  | continues u e hWaits hInside hClient hReplies hSent hContinued =>
    rw [hReplies] at hOld
    rw [hClient, waiting_update, State.insideOf, hInside, waiting_next]
    change s.insideOf t + _ = _
    by_cases htu : t = u
    · rw [htu, hWaits, if_pos rfl] at hOld
      rw [htu, if_pos rfl]
      simp only [Client.waiting] at hOld
      omega
    · rw [if_neg htu] at hOld ⊢
      exact hOld
  -- an event with a registered shadow thread is not lost
  | loses e hAct hNone =>
    obtain ⟨w, hw, hTid, _⟩ := hK.found e hAct
    exact absurd hTid (hNone w hw)

theorem kept (h : Runs.ReachableUnder system EndsBetween s) : Kept s := by
  refine h.invariant_of (fun s hReach => And.intro (lookups hReach)
    fun {l s'} (hStep : system.step s l s') => Server.tally hReach hStep) ?_ ?_
  · rintro _ rfl t
    rfl
  · rintro s l s' ⟨hK, hTally⟩ hKept _ hStep
    exact hKept.step hK (hTally hStep)

end Server

end Concurrit.Model
