import Concurrit.Model.Locality

/-!
# Concurrit — the end of a thread

`Coroutine::Run` from the start of a coroutine to `SetEnded`, over any number of
executions: the entry function, which may be the loop of a `ServerShadowThread`,
the exception that simulates `pthread_exit`, other exceptions, and
`PinMonitor::ThreadEnd` with the table `Ends`. The callbacks of the threads are
those of the auxiliary state; every access to a table is a step of its own, and
the threads take their steps in any order.

`ends_once` is the condition under which the end of every thread is reported
exactly once.
-/

namespace Concurrit.Model

open Function (update)

namespace ThreadEnd

open Ipc (THREADID ADDRINT INVALID_THREADID)
open Aux

-- ---------------------------------------------------------------------------
-- States
-- ---------------------------------------------------------------------------

inductive Status where
  | PASSIVE
  | ENABLED
  | BLOCKED
  | ENDED
deriving DecidableEq, Repr

/-- The entry function of a coroutine. -/
inductive Entry where
  /-- a function of the program -/
  | program
  /-- `ShadowThread::thread_func` of a `ServerShadowThread` -/
  | shadow
deriving DecidableEq, Repr

/-- An exception the entry function lets through. -/
inductive Thrown where
  /-- `BacktrackException` with the reason `PTH_EXIT` -/
  | PTH_EXIT
  | other
deriving DecidableEq, Repr

/-- Where `Start` and `Run` stand. -/
inductive Place where
  | passive
  /-- `Start` has created the thread or sent the restart message -/
  | starting
  /-- in the entry function, with this many calls open -/
  | body (calls : Nat)
  /-- in the loop of `ServerShadowThread::Run`, or out of it -/
  | shadow (done : Bool)
  | unwinding (calls : Nat) (x : Thrown)
  /-- back from `call_function` -/
  | returned
  /-- in `PinMonitor::ThreadEnd` -/
  | reporting
  /-- before `SetEnded` -/
  | ending
  | ended
deriving DecidableEq, Repr

namespace Place

/-- The coroutine does not run. -/
def atRest : Place → Bool
  | .passive | .ended => true
  | _ => false

/-- The calls an exception has to leave. -/
def calls : Place → Nat
  | .body n => n
  | _ => 0

end Place

structure Coroutine where
  entry : Entry
  place : Place
  status_ : Status
  return_value_ : ADDRINT
  /-- the local variable of `Run` -/
  return_value : ADDRINT
  /-- what the entry function has returned or given to `pthread_exit`; this and the fields
  below are not known to the code -/
  result : Option ADDRINT
  /-- monitoring was enabled when the body had ended -/
  monitored : Bool
  /-- how often the coroutine has entered `PinMonitor::ThreadEnd` in this execution -/
  raised : Nat
  /-- how often it has offered a final transition in this execution -/
  offers : Nat
deriving DecidableEq, Repr

def Coroutine.new : Coroutine := ⟨.program, .passive, .PASSIVE, 0, 0, none, false, 0, 0⟩

/-- An evaluation of `ENDS(t)`, with whether the thread had offered its final transition. -/
structure Evaluation where
  thread : THREADID
  result : Bool
  offered : Bool
deriving DecidableEq, Repr

/-- A join with the value it yields, and what the thread has returned. -/
structure Joined where
  thread : THREADID
  value : ADDRINT
  result : Option ADDRINT
deriving DecidableEq, Repr

structure State where
  aux : Aux.State
  /-- `PinMonitor::IsEnabled` -/
  enabled : Bool
  /-- `member_tidseq_` of the group -/
  members : List THREADID
  next_idx_ : Nat
  co : THREADID → Coroutine
  evaluations : List Evaluation
  joins : List Joined

namespace State

def start : State := ⟨.start, false, [], 0, fun _ => .new, [], []⟩

def setCo (s : State) (t : THREADID) (c : Coroutine) : State := { s with co := update s.co t c }

end State

/-- `ENDS(t)`: `TP1` with the value true. -/
def ENDS (aux : AuxState) (t : THREADID) : Bool :=
  ((AuxVar0Pre.mk (some true)).EvalState aux.Ends t).1

/-- The callback of `ConcurritInstrHandler` reaches `PinMonitor`. -/
def handled (ManualInstrEnabled : Bool) (s : State) : Event → Bool
  | .AtPc _ => s.enabled
  | _ => s.enabled && ManualInstrEnabled

-- ---------------------------------------------------------------------------
-- Steps
-- ---------------------------------------------------------------------------

/-- What a coroutine does next. -/
inductive CoAct where
  | SetStarted
  /-- the entry function or one it has called calls a function -/
  | call
  /-- a called function returns -/
  | leave
  /-- the entry function returns -/
  | ret (v : ADDRINT)
  | pthread_exit (v : ADDRINT)
  | throw
  | unwind
  | catch
  /-- the program calls the handler of an event -/
  | callback (e : Event)
  /-- the Pin tool calls `CallPinMonitor` -/
  | CallPinMonitor (e : Event)
  /-- the shadow thread receives an event, or `ThreadEndIntern` -/
  | Recv (e : Option Event)
  /-- the thread goes on in a callback -/
  | proceed
  | FinishControlledTransition
  /-- an assertion on the transition is violated -/
  | violate
  /-- `if(PinMonitor::IsEnabled())` -/
  | checkEnabled
  | SetEnded
deriving DecidableEq, Repr

inductive Act where
  /-- `PinMonitor::Enable` or `Disable` -/
  | enable (b : Bool)
  /-- `Scenario::Start` of the next execution, when the threads have ended or, with
  `CancelThreadsToRestart`, are cancelled -/
  | restart (cancel : Bool)
  /-- `CreateThread`; the thread id is for a new coroutine -/
  | create (entry : Entry) (tid : THREADID)
  | run (t : THREADID) (a : CoAct)
  /-- thread `u`, in a transition, evaluates `ENDS(t)` -/
  | evaluate (u t : THREADID)
  /-- `JoinPThread`, after `WaitForEnd` -/
  | join (t : THREADID)
deriving DecidableEq, Repr

/-- A thread enters a callback of `PinMonitor`. -/
def raise (s : State) (t : THREADID) (e : Event) (place : Place) : Option State :=
  (s.aux.step t (.raise e)).map fun aux =>
    { s.setCo t { s.co t with
        place := place
        raised := (s.co t).raised + if e = .ThreadEnd then 1 else 0 } with aux := aux }

/-- `OnControlledTransition` up to the evaluations. -/
def offer (s : State) (t : THREADID) (e : Event) : State :=
  if (s.co t).status_ = .ENABLED then
    { s.setCo t { s.co t with
        status_ := .BLOCKED
        offers := (s.co t).offers + if e = .ThreadEnd then 1 else 0 } with
      aux := { s.aux with loc := update s.aux.loc t (.transition e) } }
  else { s with aux := { s.aux with loc := update s.aux.loc t (.finished e) } }

/-- A coroutine in `Run`, in no callback. -/
def runIdle (ManualInstrEnabled : Bool) (s : State) (t : THREADID) (a : CoAct) : Option State :=
  let c := s.co t
  match c.place, a with
  | .starting, .SetStarted =>
    some (s.setCo t { c with
      place := if c.entry = .program then .body 0 else .shadow false
      status_ := .ENABLED, return_value_ := 0, return_value := 0, result := none })
  | .body n, .call => some (s.setCo t { c with place := .body (n + 1) })
  | .body (n + 1), .leave => some (s.setCo t { c with place := .body n })
  | .body 0, .ret v =>
    some (s.setCo t { c with
      place := .returned, return_value_ := v, return_value := v, result := some v })
  | .body n, .pthread_exit v =>
    some (s.setCo t { c with
      place := .unwinding n .PTH_EXIT, return_value_ := v, result := some v })
  | .body n, .throw => some (s.setCo t { c with place := .unwinding n .other })
  | .body n, .callback e =>
    if handled ManualInstrEnabled s e then raise s t e (.body n) else some s
  | .body n, .CallPinMonitor e =>
    -- the tool sends no event for the end of a thread
    if s.enabled ∧ e ≠ .ThreadEnd then raise s t e (.body n) else none
  | .shadow false, .Recv none => some (s.setCo t { c with place := .shadow true })
  | .shadow false, .Recv (some e) =>
    let place := Place.shadow (e == .ThreadEnd)
    if handled ManualInstrEnabled s e then raise s t e place
    else some (s.setCo t { c with place := place })
  | .shadow true, .ret _ =>
    some (s.setCo t { c with
      place := .returned, return_value_ := 0, return_value := 0, result := some 0 })
  | .unwinding (n + 1) x, .unwind => some (s.setCo t { c with place := .unwinding n x })
  | .unwinding 0 .PTH_EXIT, .catch =>
    some (s.setCo t { c with
      place := .ending, return_value := c.return_value_, monitored := s.enabled })
  | .unwinding 0 .other, .catch => some (s.setCo t { c with place := .ending })
  | .returned, .checkEnabled =>
    if s.enabled then raise (s.setCo t { c with monitored := true }) t .ThreadEnd .reporting
    else some (s.setCo t { c with place := .ending, monitored := false })
  | .reporting, .SetEnded => some (s.setCo t { c with place := .ended, status_ := .ENDED })
  | .ending, .SetEnded => some (s.setCo t { c with place := .ended, status_ := .ENDED })
  | _, _ => none

/-- A coroutine in a callback. -/
def runCallback (s : State) (t : THREADID) (a : CoAct) : Option State :=
  match a, s.aux.loc t with
  | .proceed, .before e [] =>
    if e.controlled then some (offer s t e)
    else (s.aux.step t .proceed).map fun aux => { s with aux := aux }
  | .proceed, _ => (s.aux.step t .proceed).map fun aux => { s with aux := aux }
  | .FinishControlledTransition, _ =>
    (s.aux.step t .finish).map fun aux =>
      { s.setCo t { s.co t with status_ := .ENABLED } with aux := aux }
  | .violate, .transition _ =>
    some { s.setCo t { s.co t with place := .unwinding (s.co t).place.calls .other } with
      aux := { s.aux with loc := update s.aux.loc t .idle } }
  | _, _ => none

/-- The coroutine is started; its thread is created or sent the restart message. -/
def State.create (s : State) (t : THREADID) (entry : Entry) (members : List THREADID) : State :=
  { s.setCo t { s.co t with entry := entry, place := .starting, return_value_ := 0 } with
    members := members, next_idx_ := s.next_idx_ + 1 }

-- the members of the group are run through, not the thread numbers
instance (s : State) : Decidable (∀ t ∈ s.members, (s.co t).place = .ended) :=
  List.decidableBAll _ _

def next (ManualInstrEnabled : Bool) (s : State) : Act → Option State
  | .enable b => some { s with enabled := b }
  | .restart true =>
    some { s with aux := .start, members := [], next_idx_ := 0, co := fun _ => .new }
  | .restart false =>
    if ∀ t ∈ s.members, (s.co t).place = .ended then
      some { s with
        aux := .start
        next_idx_ := 0
        co := fun t => { s.co t with monitored := false, raised := 0, offers := 0 } }
    else none
  | .create entry tid =>
    match s.members[s.next_idx_]? with
    | some t => if (s.co t).place = .ended then some (s.create t entry s.members) else none
    | none =>
      if tid ∈ s.members ∨ tid = INVALID_THREADID then none
      else some (s.create tid entry (s.members ++ [tid]))
  | .run t a =>
    if s.aux.loc t = .idle then runIdle ManualInstrEnabled s t a else runCallback s t a
  | .evaluate u t =>
    match s.aux.loc u with
    | .transition _ =>
      some { s with
        evaluations := ⟨t, ENDS s.aux.aux t, decide (0 < (s.co t).offers)⟩ :: s.evaluations }
    | _ => none
  | .join t =>
    if (s.co t).place = .ended then
      some { s with joins := ⟨t, (s.co t).return_value_, (s.co t).result⟩ :: s.joins }
    else none

def system (ManualInstrEnabled : Bool) : Runs.System State Act :=
  Runs.partialMachine .start (next ManualInstrEnabled)

-- ---------------------------------------------------------------------------
-- What reporting the end should guarantee
-- ---------------------------------------------------------------------------

structure EndsOnce (s : State) : Prop where
  once        : ∀ t v, (s.co t).place = .ended → (s.co t).result = some v →
                  (s.co t).monitored = true → (s.co t).offers = 1
  atMostOnce  : ∀ t, (s.co t).offers ≤ 1
  evaluations : ∀ r ∈ s.evaluations, r.result = r.offered
  lasting     : ∀ t, (s.co t).offers = 1 → ENDS s.aux.aux t = true
  /-- the assertions before `Ends` is set -/
  before      : ∀ t, s.aux.loc t = .before .ThreadEnd [.setEnds] →
                  (s.co t).status_ = .ENABLED ∧ s.aux.aux.Ends.isset t = false
  /-- the assertions afterwards -/
  after       : ∀ t, s.aux.loc t = .before .ThreadEnd [] ∨ s.aux.loc t = .finished .ThreadEnd →
                  s.aux.aux.Ends.isset t = true
  joined      : ∀ r ∈ s.joins, ∀ v, r.result = some v → r.value = v

/-- The condition on the steps: a body that returns has not entered `PinMonitor::ThreadEnd`
itself, one that ends by `pthread_exit` has done so once, no body does it twice, and
`ENDS(t)` is not evaluated between the update of `Ends` and the transition of `t`. -/
def Announced (ManualInstrEnabled : Bool) (s : State) : Act → Prop
  | .run t (.callback .ThreadEnd) => handled ManualInstrEnabled s .ThreadEnd = true →
      (s.co t).raised = 0
  | .run t .checkEnabled => s.enabled = true → (s.co t).raised = 0
  | .run t .catch => (s.co t).place = .unwinding 0 .PTH_EXIT → s.enabled = true →
      (s.co t).raised = 1
  | .evaluate _ t => s.aux.loc t ≠ .before .ThreadEnd []
  | _ => True

-- ---------------------------------------------------------------------------
-- The table of ended threads
-- ---------------------------------------------------------------------------

variable {ManualInstrEnabled : Bool} {s s' : State} {t u : THREADID} {aux aux' : AuxState}
  {m m' : Aux.State} {act : Aux.Act}

theorem ENDS_eq_isset (aux : AuxState) (t : THREADID) : ENDS aux t = aux.Ends.isset t := by
  simp only [ENDS, AuxVar0Pre.EvalState]
  by_cases hSet : aux.Ends.isset t = true
  · have hGet : aux.Ends.get t = true := by simpa [AuxVar0.isset] using hSet
    simp [hSet, hGet]
  · simp [hSet]

/-- Only `setEnds` changes the table. -/
theorem ends_apply {o : AuxOp} (h : o.apply u aux = some aux') :
    aux'.Ends = if o = .setEnds then aux.Ends.set true u else aux.Ends := by
  cases o <;> simp only [AuxOp.apply, Option.map_eq_some_iff, Option.ite_none_left_eq_some,
    Option.some.injEq] at h
  case setEnds =>
    obtain ⟨_, rfl⟩ := h
    rfl
  case setPc | setAtPc => exact h ▸ rfl
  case incInFunc | incNumInFunc =>
    obtain ⟨_, v, _, rfl⟩ := h
    rfl
  all_goals
    obtain ⟨v, _, rfl⟩ := h
    rfl

theorem isset_apply_of_ne {o : AuxOp} (h : o.apply u aux = some aux') (hu : t ≠ u) :
    aux'.Ends.isset t = aux.Ends.isset t := by
  rw [ends_apply h]
  split
  · simp only [AuxVar0.isset, AuxVar0.get_set_of_ne _ _ hu]
  · rfl

/-- A step of another thread. -/
theorem stepped_other (h : Stepped m u act m') (hu : t ≠ u) :
    m'.loc t = m.loc t ∧ m'.aux.Ends.isset t = m.aux.Ends.isset t := by
  cases h with
  | access hLoc hApply => exact ⟨Function.update_of_ne hu .., isset_apply_of_ne hApply hu⟩
  | accessAfter hLoc hApply => exact ⟨Function.update_of_ne hu .., isset_apply_of_ne hApply hu⟩
  | raise | finish | enter | leave | resume | «return» => exact ⟨Function.update_of_ne hu .., rfl⟩

/-- The accesses a thread has still to make in a callback are the last ones of that callback. -/
def Within : Loc → Prop
  | .before e ops => ops <:+ e.before
  | .after ops => .setEnds ∉ ops
  | _ => True

theorem before_setEnds {e : Event} (h : .setEnds ∈ e.before) : e = .ThreadEnd := by
  cases e <;> simp [Event.before] at h ⊢

theorem setEnds_not_mem_after (e : Event) (t : THREADID) (aux : AuxState) :
    .setEnds ∉ e.after t aux := by
  cases e with
  | FuncReturn addr retval =>
    simp only [Event.after]
    split <;> simp
  | _ => simp [Event.after]

-- ---------------------------------------------------------------------------
-- Invariant of a thread
-- ---------------------------------------------------------------------------

/-- What `Ends` holds for a thread, and the transitions it has offered. -/
inductive Told (loc : Loc) (raised offers : Nat) (ends : Bool) : Prop where
  | quiet (hLoc : ∀ ops, loc ≠ .before .ThreadEnd ops) (hRaised : raised = 0)
      (hOffers : offers = 0) (hEnds : ends = false)
  | raising (hLoc : loc = .before .ThreadEnd [.setEnds]) (hRaised : raised = 1)
      (hOffers : offers = 0) (hEnds : ends = false)
  | set (hLoc : loc = .before .ThreadEnd []) (hRaised : raised = 1) (hOffers : offers = 0)
      (hEnds : ends = true)
  | offered (hLoc : ∀ ops, loc ≠ .before .ThreadEnd ops) (hRaised : raised = 1)
      (hOffers : offers = 1) (hEnds : ends = true)

/-- The value of a body that has ended, and whether its end had to be reported. -/
def Done (c : Coroutine) : Prop :=
  ∀ v, c.result = some v → c.return_value_ = v ∧ (c.monitored = true → c.raised = 1)

def Placed (loc : Loc) (c : Coroutine) : Prop :=
  match c.place with
  | .passive | .starting => loc = .idle ∧ c.raised = 0
  | .body _ | .shadow true => c.result = none
  | .shadow false => c.result = none ∧ c.raised = 0
  | .unwinding _ .PTH_EXIT | .returned => loc = .idle ∧ c.result = some c.return_value_
  | .unwinding _ .other | .ending | .ended => loc = .idle ∧ Done c
  | .reporting => c.result = some c.return_value_ ∧ c.raised = 1

/-- `Run` is in the entry function or in the callback at its end. -/
def Place.running : Place → Bool
  | .body _ | .shadow _ | .returned | .reporting => true
  | _ => false

/-- **Invariant** of a thread: where it is in its callback, the coroutine, and `Ends`. -/
structure Kept (loc : Loc) (c : Coroutine) (ends : Bool) : Prop where
  told    : Told loc c.raised c.offers ends
  within  : Within loc
  placed  : Placed loc c
  enabled : c.place.running = true → (∀ e, loc ≠ .transition e) → c.status_ = .ENABLED
  passed  : loc = .transition .ThreadEnd ∨ loc = .finished .ThreadEnd → c.raised = 1

def KeptAt (s : State) (t : THREADID) : Prop :=
  Kept (s.aux.loc t) (s.co t) (s.aux.aux.Ends.isset t)

variable {loc loc' : Loc} {c d : Coroutine} {ends : Bool} {e : Event} {p : Place}

/-- Away from the update of `Ends`, the table says what has been offered. -/
theorem Told.settled (h : Told loc c.raised c.offers ends)
    (hLoc : ∀ ops, loc ≠ .before .ThreadEnd ops) :
    c.offers = c.raised ∧ ends = decide (0 < c.offers) := by
  cases h with
  | quiet _ hRaised hOffers hEnds => simp [hRaised, hOffers, hEnds]
  | raising hAt => exact absurd hAt (hLoc _)
  | set hAt => exact absurd hAt (hLoc _)
  | offered _ hRaised hOffers hEnds => simp [hRaised, hOffers, hEnds]

/-- So it does whenever the thread is not between the update and its transition. -/
theorem Told.reported (h : Told loc c.raised c.offers ends) (hLoc : loc ≠ .before .ThreadEnd []) :
    ends = decide (0 < c.offers) := by
  cases h with
  | quiet hNot hRaised hOffers hEnds => simp [hOffers, hEnds]
  | raising _ _ hOffers hEnds => simp [hOffers, hEnds]
  | set hAt => exact absurd hAt hLoc
  | offered _ _ hOffers hEnds => simp [hOffers, hEnds]

/-- A move between places away from the update of `Ends`. -/
theorem Told.move {raised offers : Nat} (h : Told loc raised offers ends)
    (hLoc : ∀ ops, loc ≠ .before .ThreadEnd ops) (hLoc' : ∀ ops, loc' ≠ .before .ThreadEnd ops) :
    Told loc' raised offers ends := by
  cases h with
  | quiet _ hRaised hOffers hEnds => exact .quiet hLoc' hRaised hOffers hEnds
  | raising hAt => exact absurd hAt (hLoc _)
  | set hAt => exact absurd hAt (hLoc _)
  | offered _ hRaised hOffers hEnds => exact .offered hLoc' hRaised hOffers hEnds

/-- A coroutine in no callback goes on to another place. -/
theorem Kept.goto (h : Kept .idle c ends) (hRaised : d.raised = c.raised)
    (hOffers : d.offers = c.offers) (hPlaced : Placed .idle d)
    (hStatus : d.place.running = true → d.status_ = .ENABLED) : Kept .idle d ends where
  told := by
    rw [hRaised, hOffers]
    exact h.told
  within := trivial
  placed := hPlaced
  enabled hRun _ := hStatus hRun
  passed := by simp

/-- A coroutine enters a callback. It raises `ThreadEnd` for the first time, if at all, and
then its entry in `Ends` is still to be set. -/
theorem Kept.raise (h : Kept .idle c ends) (hFirst : e = .ThreadEnd → c.raised = 0)
    (hStatus : c.status_ = .ENABLED)
    (hPlaced : ∀ raised, raised = c.raised + (if e = .ThreadEnd then 1 else 0) →
      Placed (.before e e.before) { c with place := p, raised := raised }) :
    Kept (.before e e.before)
      { c with place := p, raised := c.raised + if e = .ThreadEnd then 1 else 0 } ends where
  told := by
    by_cases hEnd : e = .ThreadEnd
    · subst hEnd
      obtain ⟨hOffers, hEnds⟩ := h.told.settled (by simp)
      rw [hFirst rfl] at hOffers
      refine .raising rfl ?_ hOffers (by rw [hEnds, hOffers]; rfl)
      simp [hFirst rfl]
    · rw [if_neg hEnd, Nat.add_zero]
      exact h.told.move (by simp) fun ops hAt => hEnd (Loc.before.inj hAt).1
  within := List.suffix_refl _
  placed := hPlaced _ rfl
  enabled _ _ := hStatus
  passed := by simp

/-- The coroutine of a thread in a callback is at one of these places. -/
theorem Placed.place_of_busy (h : Placed loc c) (hLoc : loc ≠ .idle) :
    (∃ n, c.place = .body n) ∨ (∃ d, c.place = .shadow d) ∨ c.place = .reporting := by
  unfold Placed at h
  split at h
  all_goals first
    | exact absurd h.1 hLoc
    | simp [*]

/-- In a callback a place does not depend on where the thread is in it. -/
theorem Placed.relocate (h : Placed loc c) (hLoc : loc ≠ .idle) (loc' : Loc) : Placed loc' c := by
  rcases h.place_of_busy hLoc with ⟨n, hPlace⟩ | ⟨d, hPlace⟩ | hPlace
  · simpa only [Placed, hPlace] using h
  · cases d <;> simpa only [Placed, hPlace] using h
  · simpa only [Placed, hPlace] using h

theorem Placed.running_of_busy (h : Placed loc c) (hLoc : loc ≠ .idle) :
    c.place.running = true := by
  rcases h.place_of_busy hLoc with ⟨n, hPlace⟩ | ⟨d, hPlace⟩ | hPlace <;> simp [hPlace, Place.running]

-- ---------------------------------------------------------------------------
-- Steps of a callback
-- ---------------------------------------------------------------------------

/-- A step within a callback, away from the table. -/
theorem Kept.within_callback (h : Kept loc c ends) (hBusy : loc ≠ .idle)
    (hNot : ∀ e, loc ≠ .transition e) (hLoc : ∀ ops, loc ≠ .before .ThreadEnd ops)
    (hLoc' : ∀ ops, loc' ≠ .before .ThreadEnd ops) (hWithin : Within loc')
    (hPassed : loc' ≠ .transition .ThreadEnd ∧ loc' ≠ .finished .ThreadEnd) : Kept loc' c ends where
  told := h.told.move hLoc hLoc'
  within := hWithin
  placed := h.placed.relocate hBusy loc'
  enabled hRun _ := h.enabled hRun hNot
  passed hAt := hAt.elim (absurd · hPassed.1) (absurd · hPassed.2)

/-- **An access to the tables before the transition.** For `ThreadEnd` it is the one that
sets the entry of the thread; for the other events none does. -/
theorem Kept.access {o : AuxOp} {ops : List AuxOp}
    (h : Kept (.before e (o :: ops)) c (aux.Ends.isset t)) (hApply : o.apply t aux = some aux') :
    Kept (.before e ops) c (aux'.Ends.isset t) := by
  have hWithin : ops <:+ e.before := (List.suffix_cons o ops).trans h.within
  by_cases hEnd : e = .ThreadEnd
  · subst hEnd
    -- the only access there is sets the entry of the thread
    obtain ⟨rfl, rfl⟩ : o = .setEnds ∧ ops = [] := by
      have hLen : ops.length + 1 ≤ 1 := h.within.length_le
      obtain rfl : ops = [] := List.length_eq_zero_iff.mp (by omega)
      exact ⟨List.mem_singleton.mp (h.within.subset (List.mem_singleton_self o)), rfl⟩
    -- where the thread is with the report of its end
    cases h.told with
    | raising _ hRaised hOffers _ =>
      refine ⟨.set rfl hRaised hOffers ?_, hWithin, h.placed.relocate (by simp) _,
        fun hRun _ => h.enabled hRun (by simp), by simp⟩
      rw [ends_apply hApply, if_pos rfl, AuxVar0.isset, AuxVar0.get_set_self]
      rfl
    | quiet hLoc => exact absurd rfl (hLoc _)
    | set hLoc => cases hLoc
    | offered hLoc => exact absurd rfl (hLoc _)
  -- another event: the table `Ends` is left alone
  · have hOther : o ≠ .setEnds := by
      rintro rfl
      exact hEnd (before_setEnds (h.within.subset List.mem_cons_self))
    rw [ends_apply hApply, if_neg hOther]
    exact h.within_callback (by simp) (by simp) (fun _ hAt => hEnd (Loc.before.inj hAt).1)
      (fun _ hAt => hEnd (Loc.before.inj hAt).1) hWithin (by simp)

/-- **A step of a callback** that is not the transition: accesses before and after it, and
the moves between them. -/
theorem kept_proceed (h : Stepped m t .proceed m')
    (hNot : ∀ e, m.loc t = .before e [] → e.controlled = false)
    (hKept : Kept (m.loc t) c (m.aux.Ends.isset t)) :
    Kept (m'.loc t) c (m'.aux.Ends.isset t) := by
  cases h with
  | access hLoc hApply =>
    rw [hLoc] at hKept
    simp only [Function.update_self]
    exact hKept.access hApply
  -- this step is the transition, which is excluded
  | enter hLoc hCtl =>
    rw [hNot _ hLoc] at hCtl
    cases hCtl
  | @leave e hLoc hCtl =>
    rw [hLoc] at hKept
    simp only [Function.update_self]
    refine hKept.within_callback (by simp) (by simp) ?_ (by simp) trivial (by simp)
    rintro ops hAt
    rw [(Loc.before.inj hAt).1] at hCtl
    cases hCtl
  | @resume e hLoc =>
    rw [hLoc] at hKept
    simp only [Function.update_self]
    exact hKept.within_callback (by simp) (by simp) (by simp) (by simp)
      (setEnds_not_mem_after e t m.aux) (by simp)
  | @accessAfter o ops aux' hLoc hApply =>
    rw [hLoc] at hKept
    have hOther : o ≠ .setEnds := fun ho => hKept.within (ho ▸ List.mem_cons_self)
    simp only [Function.update_self, ends_apply hApply, if_neg hOther]
    exact hKept.within_callback (by simp) (by simp) (by simp) (by simp)
      (fun hMem => hKept.within (List.mem_cons_of_mem _ hMem)) (by simp)
  | «return» hLoc =>
    rw [hLoc] at hKept
    simp only [Function.update_self]
    exact hKept.within_callback (by simp) (by simp) (by simp) (by simp) trivial (by simp)

/-- **The transition is offered**: the status is `ENABLED`, so `OnControlledTransition` does
not return at once. -/
theorem kept_offer (hLoc : s.aux.loc t = .before e []) (hKept : KeptAt s t) :
    KeptAt (offer s t e) t := by
  unfold KeptAt at hKept
  rw [hLoc] at hKept
  have hStatus := hKept.enabled (hKept.placed.running_of_busy (by simp)) (by simp)
  simp only [KeptAt, offer, if_pos hStatus, State.setCo, Function.update_self]
  have hPlaced := hKept.placed.relocate (by simp) (.transition e)
  by_cases hEnd : e = .ThreadEnd
  · subst hEnd
    cases hKept.told with
    | set _ hRaised hOffers hEnds =>
      exact ⟨.offered (by simp) hRaised (by simp [hOffers]) hEnds, trivial, hPlaced,
        fun _ hNot => absurd rfl (hNot _), fun _ => hRaised⟩
    | raising hAt => cases hAt
    | quiet hNot => exact absurd rfl (hNot _)
    | offered hNot => exact absurd rfl (hNot _)
  · rw [if_neg hEnd]
    exact ⟨hKept.told.move (fun _ hAt => hEnd (Loc.before.inj hAt).1) (by simp), trivial, hPlaced,
      fun _ hNot => absurd rfl (hNot _), by simp [hEnd]⟩

/-- What a step of thread `t` leaves of the others. -/
structure Others (s s' : State) (t : THREADID) : Prop where
  loc  : ∀ u, u ≠ t → s'.aux.loc u = s.aux.loc u
  co   : ∀ u, u ≠ t → s'.co u = s.co u
  ends : ∀ u, u ≠ t → s'.aux.aux.Ends.isset u = s.aux.aux.Ends.isset u
  group : s'.members = s.members ∧ s'.next_idx_ = s.next_idx_
  records : s'.evaluations = s.evaluations ∧ s'.joins = s.joins

theorem Others.kept (h : Others s s' t) (hu : u ≠ t) (hKept : KeptAt s u) : KeptAt s' u := by
  unfold KeptAt
  rwa [h.loc u hu, h.co u hu, h.ends u hu]

theorem Others.trans {s₁ : State} (h : Others s s₁ t) (h' : Others s₁ s' t) : Others s s' t :=
  ⟨fun u hu => (h'.loc u hu).trans (h.loc u hu), fun u hu => (h'.co u hu).trans (h.co u hu),
    fun u hu => (h'.ends u hu).trans (h.ends u hu),
    ⟨h'.group.1.trans h.group.1, h'.group.2.trans h.group.2⟩,
    ⟨h'.records.1.trans h.records.1, h'.records.2.trans h.records.2⟩⟩

theorem others_setCo (s : State) (t : THREADID) (c : Coroutine) : Others s (s.setCo t c) t :=
  ⟨fun _ _ => rfl, fun _ hu => Function.update_of_ne hu .., fun _ _ => rfl, ⟨rfl, rfl⟩, ⟨rfl, rfl⟩⟩

theorem others_stepped (h : Stepped s.aux t act m') : Others s { s with aux := m' } t :=
  ⟨fun _ hu => (stepped_other h hu).1, fun _ _ => rfl, fun _ hu => (stepped_other h hu).2,
    ⟨rfl, rfl⟩, ⟨rfl, rfl⟩⟩

/-- Only the coroutine and the callback of the thread are changed. -/
theorem others_setCo_aux (hAux : Others s { s with aux := m' } t) (c : Coroutine) :
    Others s { s.setCo t c with aux := m' } t :=
  ⟨hAux.loc, fun _ hu => Function.update_of_ne hu .., hAux.ends, ⟨rfl, rfl⟩, ⟨rfl, rfl⟩⟩

theorem others_loc (s : State) (t : THREADID) (loc : Loc) :
    Others s { s with aux := { s.aux with loc := update s.aux.loc t loc } } t :=
  ⟨fun _ hu => Function.update_of_ne hu .., fun _ _ => rfl, fun _ _ => rfl, ⟨rfl, rfl⟩, ⟨rfl, rfl⟩⟩

/-- **Step lemma** for a thread in a callback. The cases are the transition, the other
steps, the return to the body, and an exception that leaves the callback. -/
theorem kept_runCallback {a : CoAct} (hNext : runCallback s t a = some s') (hKept : KeptAt s t) :
    KeptAt s' t ∧ Others s s' t := by
  unfold runCallback at hNext
  split at hNext
  · rename_i e hLoc
    -- the event has a transition to offer, or returns without one
    split at hNext
    · obtain rfl := Option.some.inj hNext
      refine ⟨kept_offer hLoc hKept, ?_⟩
      unfold offer
      split
      · exact others_setCo_aux (others_loc s t _) _
      · exact others_loc s t _
    · rename_i hCtl
      obtain ⟨m', hStep, rfl⟩ := Option.map_eq_some_iff.mp hNext
      refine ⟨kept_proceed (step_cases hStep) ?_ hKept, others_stepped (step_cases hStep)⟩
      intro e' hLoc'
      rw [(Loc.before.inj (hLoc'.symm.trans hLoc)).1]
      simpa using hCtl
  · rename_i hNot
    obtain ⟨m', hStep, rfl⟩ := Option.map_eq_some_iff.mp hNext
    exact ⟨kept_proceed (step_cases hStep) (fun e hLoc => absurd hLoc (hNot e)) hKept,
      others_stepped (step_cases hStep)⟩
  -- the callback returns
  · obtain ⟨m', hStep, rfl⟩ := Option.map_eq_some_iff.mp hNext
    have hStepped := step_cases hStep
    refine ⟨?_, others_setCo_aux (others_stepped hStepped) _⟩
    unfold KeptAt at hKept
    cases hStepped with
    | finish hLoc =>
      rw [hLoc] at hKept
      simp only [KeptAt, State.setCo, Function.update_self]
      refine ⟨hKept.told.move (by simp) (by simp), trivial, hKept.placed.relocate (by simp) _,
        fun _ _ => rfl, ?_⟩
      simpa using hKept.passed
  -- an exception leaves the callback and goes on through the calls
  · rename_i e hLoc
    obtain rfl := Option.some.inj hNext
    refine ⟨?_, others_setCo_aux (others_loc s t _) _⟩
    unfold KeptAt at hKept
    rw [hLoc] at hKept
    simp only [KeptAt, State.setCo, Function.update_self]
    refine ⟨hKept.told.move (by simp) (by simp), trivial, ⟨rfl, ?_⟩, (fun h => by cases h), by simp⟩
    -- an exception at the end of `Run` leaves a body that has returned and is reported
    intro v hv
    rcases hKept.placed.place_of_busy (by simp) with ⟨n, hPlace⟩ | ⟨d, hPlace⟩ | hPlace
    · have hPlaced := hKept.placed
      simp only [Placed, hPlace] at hPlaced
      rw [hPlaced] at hv
      cases hv
    · have hPlaced := hKept.placed
      cases d
      all_goals simp only [Placed, hPlace] at hPlaced
      · rw [hPlaced.1] at hv
        cases hv
      · rw [hPlaced] at hv
        cases hv
    · have hPlaced := hKept.placed
      simp only [Placed, hPlace] at hPlaced
      exact ⟨Option.some.inj (hPlaced.1.symm.trans hv), fun _ => hPlaced.2⟩
  · cases hNext

-- ---------------------------------------------------------------------------
-- Steps of a coroutine
-- ---------------------------------------------------------------------------

/-- **A coroutine raises an event**: from outside of a callback it comes to the place before
its first access. -/
theorem kept_raise (hLoc : s.aux.loc t = .idle) (hNext : raise s t e p = some s')
    (hKept : KeptAt s t) (hFirst : e = .ThreadEnd → (s.co t).raised = 0)
    (hStatus : (s.co t).status_ = .ENABLED)
    (hPlaced : ∀ raised, raised = (s.co t).raised + (if e = .ThreadEnd then 1 else 0) →
      Placed (.before e e.before) { s.co t with place := p, raised := raised }) :
    KeptAt s' t ∧ Others s s' t := by
  unfold KeptAt at hKept
  rw [hLoc] at hKept
  obtain ⟨m', hStep, rfl⟩ := Option.map_eq_some_iff.mp hNext
  have hStepped := step_cases hStep
  refine ⟨?_, others_setCo_aux (others_stepped hStepped) _⟩
  cases hStepped with
  | raise _ hIdle hT =>
    simp only [KeptAt, State.setCo, Function.update_self]
    exact hKept.raise hFirst hStatus hPlaced

/-- A coroutine goes on to another place. -/
theorem keptAt_goto (hLoc : s.aux.loc t = .idle) (hKept : KeptAt s t)
    (hRaised : d.raised = (s.co t).raised) (hOffers : d.offers = (s.co t).offers)
    (hPlaced : Placed .idle d) (hStatus : d.place.running = true → d.status_ = .ENABLED) :
    KeptAt (s.setCo t d) t ∧ Others s (s.setCo t d) t := by
  refine ⟨?_, others_setCo s t d⟩
  unfold KeptAt at hKept ⊢
  rw [hLoc] at hKept
  rw [show (s.setCo t d).aux.loc t = .idle from hLoc,
    show (s.setCo t d).co t = d from Function.update_self ..]
  exact hKept.goto hRaised hOffers hPlaced hStatus

/-- What is known of a coroutine in no callback. -/
theorem KeptAt.of_idle (hKept : KeptAt s t) (hLoc : s.aux.loc t = .idle) :
    Placed .idle (s.co t) ∧
      ((s.co t).place.running = true → (s.co t).status_ = .ENABLED) := by
  unfold KeptAt at hKept
  rw [hLoc] at hKept
  exact ⟨hKept.placed, fun hRun => hKept.enabled hRun (by simp)⟩

/-- The body of a thread of the program: it calls and returns, ends, or reaches a callback.
That it has not reported its end before is the condition on the steps. -/
theorem kept_body {a : CoAct} {n : Nat} (hLoc : s.aux.loc t = .idle)
    (hPlace : (s.co t).place = .body n) (hNext : runIdle ManualInstrEnabled s t a = some s')
    (hOk : Announced ManualInstrEnabled s (.run t a)) (hKept : KeptAt s t) :
    KeptAt s' t ∧ Others s s' t := by
  obtain ⟨hPlaced, hStatus⟩ := hKept.of_idle hLoc
  -- the match is reduced at the place and the act, not split
  delta runIdle at hNext
  dsimp -iota only at hNext
  have hEnabled := hStatus (by rw [hPlace]; rfl)
  rw [hPlace] at hNext
  simp only [Placed, hPlace] at hPlaced
  cases a with
  | call =>
    obtain rfl := Option.some.inj hNext
    exact keptAt_goto hLoc hKept rfl rfl hPlaced fun _ => hEnabled
  | leave =>
    cases n with
    | zero => cases hNext
    | succ n =>
      obtain rfl := Option.some.inj hNext
      exact keptAt_goto hLoc hKept rfl rfl hPlaced fun _ => hEnabled
  | ret v =>
    cases n with
    | zero =>
      obtain rfl := Option.some.inj hNext
      exact keptAt_goto hLoc hKept rfl rfl ⟨rfl, rfl⟩ fun _ => hEnabled
    | succ n => cases hNext
  | pthread_exit v =>
    obtain rfl := Option.some.inj hNext
    exact keptAt_goto hLoc hKept rfl rfl ⟨rfl, rfl⟩ nofun
  | throw =>
    obtain rfl := Option.some.inj hNext
    refine keptAt_goto hLoc hKept rfl rfl ⟨rfl, fun v hv => ?_⟩ nofun
    cases hPlaced.symm.trans hv
  | callback e =>
    dsimp only at hNext
    split at hNext
    -- monitored: the callback is entered
    · rename_i hHandled
      refine kept_raise hLoc hNext hKept ?_ hEnabled fun _ _ => hPlaced
      rintro rfl
      exact hOk hHandled
    -- not monitored: nothing happens
    · obtain rfl := Option.some.inj hNext
      exact ⟨hKept, fun _ _ => rfl, fun _ _ => rfl, fun _ _ => rfl, ⟨rfl, rfl⟩, ⟨rfl, rfl⟩⟩
  | CallPinMonitor e =>
    dsimp only at hNext
    split at hNext
    · rename_i hGuard
      exact kept_raise hLoc hNext hKept (fun hEnd => absurd hEnd hGuard.2) hEnabled
        fun _ _ => hPlaced
    · cases hNext
  | _ => cases hNext

/-- The loop of a shadow thread. It reports what it receives, and ends after `ThreadEnd`, of
which it gets one. -/
theorem kept_shadow {a : CoAct} {done : Bool} (hLoc : s.aux.loc t = .idle)
    (hPlace : (s.co t).place = .shadow done) (hNext : runIdle ManualInstrEnabled s t a = some s')
    (hKept : KeptAt s t) :
    KeptAt s' t ∧ Others s s' t := by
  obtain ⟨hPlaced, hStatus⟩ := hKept.of_idle hLoc
  -- the match is reduced at the place and the act, not split
  delta runIdle at hNext
  dsimp -iota only at hNext
  have hEnabled := hStatus (by rw [hPlace]; rfl)
  rw [hPlace] at hNext
  simp only [Placed, hPlace] at hPlaced
  cases a with
  | Recv msg =>
    cases done with
    | true => cases hNext
    | false =>
      -- the message ends the loop, or is an event to report
      cases msg with
      | none =>
        obtain rfl := Option.some.inj hNext
        exact keptAt_goto hLoc hKept rfl rfl hPlaced.1 fun _ => hEnabled
      | some e =>
        have hNew : ∀ raised, raised = (s.co t).raised + (if e = .ThreadEnd then 1 else 0) →
            ∀ loc, Placed loc
              { s.co t with place := .shadow (e == .ThreadEnd), raised := raised } := by
          -- after `ThreadEnd` the loop ends, so that it is reported once
          intro raised hRaised loc
          by_cases hEnd : e = .ThreadEnd
          · subst hEnd
            exact hPlaced.1
          · rw [if_neg hEnd, hPlaced.2] at hRaised
            rw [beq_eq_false_iff_ne.mpr hEnd]
            exact ⟨hPlaced.1, hRaised⟩
        dsimp only at hNext
        split at hNext
        · exact kept_raise hLoc hNext hKept (fun _ => hPlaced.2) hEnabled
            fun raised hRaised => hNew raised hRaised _
        · obtain rfl := Option.some.inj hNext
          refine keptAt_goto hLoc hKept rfl rfl ?_ fun _ => hEnabled
          cases e == Event.ThreadEnd with
          | false => exact hPlaced
          | true => exact hPlaced.1
  | ret v =>
    cases done with
    | false => cases hNext
    | true =>
      obtain rfl := Option.some.inj hNext
      exact keptAt_goto hLoc hKept rfl rfl ⟨rfl, rfl⟩ fun _ => hEnabled
  | _ => cases done <;> cases hNext

/-- An exception leaves the calls, or is caught at the end of `Run`. The handlers do not
report the end; for `pthread_exit` the condition says that it has been reported. -/
theorem kept_unwinding {a : CoAct} {n : Nat} {x : Thrown} (hLoc : s.aux.loc t = .idle)
    (hPlace : (s.co t).place = .unwinding n x)
    (hNext : runIdle ManualInstrEnabled s t a = some s')
    (hOk : Announced ManualInstrEnabled s (.run t a)) (hKept : KeptAt s t) :
    KeptAt s' t ∧ Others s s' t := by
  obtain ⟨hPlaced, -⟩ := hKept.of_idle hLoc
  -- the match is reduced at the place and the act, not split
  delta runIdle at hNext
  dsimp -iota only at hNext
  rw [hPlace] at hNext
  cases a with
  | unwind =>
    cases n with
    | zero => cases x <;> cases hNext
    | succ n =>
      obtain rfl := Option.some.inj hNext
      refine keptAt_goto hLoc hKept rfl rfl ?_ nofun
      cases x
      all_goals
        simp only [Placed, hPlace] at hPlaced
        exact ⟨rfl, hPlaced.2⟩
  | «catch» =>
    cases n with
    | succ n => cases x <;> cases hNext
    -- `pthread_exit` or another exception
    | zero =>
      cases x with
      | PTH_EXIT =>
        obtain rfl := Option.some.inj hNext
        simp only [Placed, hPlace] at hPlaced
        refine keptAt_goto hLoc hKept rfl rfl ⟨rfl, fun v hv => ?_⟩ nofun
        exact ⟨Option.some.inj (hPlaced.2.symm.trans hv), fun hEnabled => hOk hPlace hEnabled⟩
      | other =>
        obtain rfl := Option.some.inj hNext
        simp only [Placed, hPlace] at hPlaced
        exact keptAt_goto hLoc hKept rfl rfl ⟨rfl, hPlaced.2⟩ nofun
  | _ => cases n <;> cases x <;> cases hNext

/-- The body has returned, and its end is reported if the monitor is enabled. The condition
says that it has not been reported before. -/
theorem kept_returned {a : CoAct} (hLoc : s.aux.loc t = .idle) (hPlace : (s.co t).place = .returned)
    (hNext : runIdle ManualInstrEnabled s t a = some s')
    (hOk : Announced ManualInstrEnabled s (.run t a)) (hKept : KeptAt s t) :
    KeptAt s' t ∧ Others s s' t := by
  obtain ⟨hPlaced, hStatus⟩ := hKept.of_idle hLoc
  -- the match is reduced at the place and the act, not split
  delta runIdle at hNext
  dsimp -iota only at hNext
  rw [hPlace] at hNext
  cases a with
  | checkEnabled =>
    simp only [Placed, hPlace] at hPlaced
    dsimp only at hNext
    -- the report: `ThreadEnd` is raised from `Run`
    split at hNext
    · rename_i hEnabled
      have hZero : (s.co t).raised = 0 := hOk hEnabled
      obtain ⟨hSame, hOthers⟩ :
          KeptAt (s.setCo t { s.co t with place := .returned, monitored := true }) t ∧
            Others s (s.setCo t { s.co t with place := .returned, monitored := true }) t :=
        keptAt_goto hLoc hKept rfl rfl ⟨rfl, hPlaced.2⟩ fun _ => hStatus (by rw [hPlace]; rfl)
      generalize hMid : s.setCo t { s.co t with place := .returned, monitored := true } = s₁
        at hNext hSame hOthers
      have hCo : s₁.co t = { s.co t with place := .returned, monitored := true } := by
        rw [← hMid]
        exact Function.update_self ..
      obtain ⟨hKept', hOthers'⟩ := kept_raise (by rw [← hMid]; exact hLoc) hNext hSame
        (fun _ => by rw [hCo]; exact hZero) (by rw [hCo]; exact hStatus (by rw [hPlace]; rfl))
        fun raised hRaised => by
          rw [hCo] at hRaised ⊢
          exact ⟨hPlaced.2, by simpa [hZero] using hRaised⟩
      exact ⟨hKept', hOthers.trans hOthers'⟩
    -- the monitor is off, so there is no end to report
    · obtain rfl := Option.some.inj hNext
      refine keptAt_goto hLoc hKept rfl rfl ⟨rfl, fun v hv => ?_⟩ nofun
      exact ⟨Option.some.inj (hPlaced.2.symm.trans hv), nofun⟩
  | _ => cases hNext

/-- **Step lemma** for a coroutine in no callback, with one lemma for each place that has
more than one way on. -/
theorem kept_runIdle {a : CoAct} (hLoc : s.aux.loc t = .idle)
    (hNext : runIdle ManualInstrEnabled s t a = some s')
    (hOk : Announced ManualInstrEnabled s (.run t a)) (hKept : KeptAt s t) :
    KeptAt s' t ∧ Others s s' t := by
  obtain ⟨hPlaced, -⟩ := hKept.of_idle hLoc
  have hRun := hNext
  delta runIdle at hNext
  dsimp -iota only at hNext
  cases hPlace : (s.co t).place with
  | starting =>
    rw [hPlace] at hNext
    simp only [Placed, hPlace] at hPlaced
    cases a with
    | SetStarted =>
      obtain rfl := Option.some.inj hNext
      refine keptAt_goto hLoc hKept rfl rfl ?_ fun _ => rfl
      cases (s.co t).entry with
      | program => rfl
      | shadow => exact ⟨rfl, hPlaced.2⟩
    | _ => cases hNext
  | body n => exact kept_body hLoc hPlace hRun hOk hKept
  | shadow done => exact kept_shadow hLoc hPlace hRun hKept
  | unwinding n x => exact kept_unwinding hLoc hPlace hRun hOk hKept
  | returned => exact kept_returned hLoc hPlace hRun hOk hKept
  | reporting =>
    rw [hPlace] at hNext
    simp only [Placed, hPlace] at hPlaced
    cases a with
    | SetEnded =>
      obtain rfl := Option.some.inj hNext
      refine keptAt_goto hLoc hKept rfl rfl ⟨rfl, fun v hv => ?_⟩ nofun
      exact ⟨Option.some.inj (hPlaced.1.symm.trans hv), fun _ => hPlaced.2⟩
    | _ => cases hNext
  | ending =>
    rw [hPlace] at hNext
    simp only [Placed, hPlace] at hPlaced
    cases a with
    | SetEnded =>
      obtain rfl := Option.some.inj hNext
      exact keptAt_goto hLoc hKept rfl rfl ⟨rfl, hPlaced.2⟩ nofun
    | _ => cases hNext
  | _ =>
    rw [hPlace] at hNext
    cases a <;> cases hNext

-- ---------------------------------------------------------------------------
-- Runs
-- ---------------------------------------------------------------------------

/-- **Invariant**: every thread is as `Kept` says, and a coroutine runs at most once in an
execution, when its turn in the order of creation comes. -/
structure Inv (s : State) : Prop where
  kept        : ∀ t, KeptAt s t
  nodup       : s.members.Nodup
  rest        : ∀ t, t ∉ s.members.take s.next_idx_ →
                  (s.co t).place.atRest = true ∧ (s.co t).raised = 0
  evaluations : ∀ r ∈ s.evaluations, r.result = r.offered
  joins       : ∀ r ∈ s.joins, ∀ v, r.result = some v → r.value = v

/-- A thread in no callback, of which nothing is reported yet. -/
theorem kept_fresh (hPlaced : Placed .idle c) (hRaised : c.raised = 0) (hOffers : c.offers = 0)
    (hRest : c.place.running = false) : Kept .idle c (AuxState.cleared.Ends.isset t) where
  told := .quiet (by simp) hRaised hOffers rfl
  within := trivial
  placed := hPlaced
  enabled hRun _ := by
    rw [hRest] at hRun
    cases hRun
  passed := by simp

theorem Place.cases_of_atRest (h : p.atRest = true) : p = .passive ∨ p = .ended := by
  cases p <;> simp_all [Place.atRest]

/-- A thread at rest is handling no event. -/
theorem KeptAt.idle_of_atRest (hKept : KeptAt s t) (hRest : (s.co t).place.atRest = true) :
    s.aux.loc t = .idle := by
  by_contra hBusy
  have hRun := hKept.placed.running_of_busy hBusy
  rcases Place.cases_of_atRest hRest with hPlace | hPlace
  all_goals
    rw [hPlace] at hRun
    cases hRun

/-- A coroutine at rest does nothing until it is started. -/
theorem not_atRest {a : CoAct} (hKept : KeptAt s t)
    (hNext : next ManualInstrEnabled s (.run t a) = some s') :
    (s.co t).place.atRest = false := by
  by_contra hRest
  rw [Bool.not_eq_false] at hRest
  simp only [next, if_pos (hKept.idle_of_atRest hRest)] at hNext
  rcases Place.cases_of_atRest hRest with hPlace | hPlace
  all_goals
    delta runIdle at hNext
    simp only [hPlace] at hNext
    cases hNext

/-- **A coroutine is started**, in its turn in the order of creation; the others are left
alone. -/
theorem Inv.create (hI : Inv s) {entry : Entry} {members : List THREADID}
    (hRest : t ∉ s.members.take s.next_idx_) (hNodup : members.Nodup)
    (hTake : ∀ u, u ∉ members.take (s.next_idx_ + 1) → u ≠ t ∧ u ∉ s.members.take s.next_idx_) :
    Inv (s.create t entry members) := by
  obtain ⟨hAtRest, hZero⟩ := hI.rest t hRest
  have hLoc := (hI.kept t).idle_of_atRest hAtRest
  refine ⟨fun u => ?_, hNodup, fun u hu => ?_, hI.evaluations, hI.joins⟩
  · by_cases hut : u = t
    · subst hut
      exact (keptAt_goto (d := { s.co u with entry := entry, place := .starting, return_value_ := 0 })
        hLoc (hI.kept u) rfl rfl ⟨rfl, hZero⟩ nofun).1
    · exact (others_setCo s t _).kept hut (hI.kept u)
  · obtain ⟨hut, hOld⟩ := hTake u hu
    show ((update s.co t _ u).place.atRest = true ∧ (update s.co t _ u).raised = 0)
    rw [Function.update_of_ne hut]
    exact hI.rest u hOld

/-- **Step lemma.** Only the step of a thread says anything about its own report; the others
start threads, look at the tables, or begin another execution. -/
theorem inv_next {a : Act} (hI : Inv s) (hOk : Announced ManualInstrEnabled s a)
    (hNext : next ManualInstrEnabled s a = some s') : Inv s' := by
  cases a with
  | enable b =>
    obtain rfl := Option.some.inj hNext
    exact ⟨hI.kept, hI.nodup, hI.rest, hI.evaluations, hI.joins⟩
  -- the next execution, with the old threads cancelled or kept
  | restart cancel =>
    cases cancel with
    | true =>
      obtain rfl := Option.some.inj hNext
      exact ⟨fun t => kept_fresh ⟨rfl, rfl⟩ rfl rfl rfl, List.nodup_nil, fun t _ => ⟨rfl, rfl⟩,
        hI.evaluations, hI.joins⟩
    | false =>
      simp only [next] at hNext
      split at hNext
      · rename_i hEnded
        obtain rfl := Option.some.inj hNext
        have hRest : ∀ t, (s.co t).place.atRest = true := by
          intro t
          by_cases hMem : t ∈ s.members.take s.next_idx_
          · rw [hEnded t (List.mem_of_mem_take hMem)]
            rfl
          · exact (hI.rest t hMem).1
        refine ⟨fun t => ?_, hI.nodup, fun t _ => ⟨hRest t, rfl⟩, hI.evaluations, hI.joins⟩
        have hPlaced := (hI.kept t).placed
        rcases Place.cases_of_atRest (hRest t) with hPlace | hPlace
        · refine kept_fresh ?_ rfl rfl (by simp [hPlace, Place.running])
          simp [Placed, hPlace]
        · refine kept_fresh ?_ rfl rfl (by simp [hPlace, Place.running])
          simp only [Placed, hPlace] at hPlaced ⊢
          exact ⟨trivial, fun v hv => ⟨(hPlaced.2 v hv).1, nofun⟩⟩
      · cases hNext
  -- the coroutine is the next one of the group, or is new to it
  | create entry tid =>
    simp only [next] at hNext
    split at hNext
    · rename_i t hNth
      split at hNext
      · obtain rfl := Option.some.inj hNext
        have hTake : s.members.take (s.next_idx_ + 1) = s.members.take s.next_idx_ ++ [t] := by
          rw [List.take_add_one, hNth]
          rfl
        have hNodup : (s.members.take s.next_idx_ ++ [t]).Nodup :=
          hTake ▸ (List.take_sublist _ _).nodup hI.nodup
        refine hI.create (fun hMem => ?_) hI.nodup fun u hu => ?_
        · exact (List.nodup_append.mp hNodup).2.2 t hMem t (List.mem_singleton_self t) rfl
        · rw [hTake, List.mem_append, List.mem_singleton, not_or] at hu
          exact ⟨hu.2, hu.1⟩
      · cases hNext
    · rename_i hNone
      split at hNext
      · cases hNext
      · rename_i hNew
        obtain rfl := Option.some.inj hNext
        rw [not_or] at hNew
        have hLe := List.getElem?_eq_none_iff.mp hNone
        refine hI.create (fun hMem => hNew.1 (List.mem_of_mem_take hMem)) ?_ fun u hu => ?_
        · exact List.nodup_append.mpr ⟨hI.nodup, List.nodup_singleton _, by
            rintro x hx y hy rfl
            exact hNew.1 (List.mem_singleton.mp hy ▸ hx)⟩
        · rw [List.take_of_length_le (by simp; omega), List.mem_append, List.mem_singleton,
            not_or] at hu
          exact ⟨hu.2, fun hMem => hu.1 (List.mem_of_mem_take hMem)⟩
  -- a thread goes on
  | run t a =>
    obtain ⟨hKept, hOthers⟩ : KeptAt s' t ∧ Others s s' t := by
      simp only [next] at hNext
      split at hNext
      · rename_i hLoc
        exact kept_runIdle hLoc hNext hOk (hI.kept t)
      · exact kept_runCallback hNext (hI.kept t)
    refine ⟨fun u => ?_, hOthers.group.1 ▸ hI.nodup, fun u hu => ?_, hOthers.records.1 ▸ hI.evaluations,
      hOthers.records.2 ▸ hI.joins⟩
    · by_cases hut : u = t
      · exact hut ▸ hKept
      · exact hOthers.kept hut (hI.kept u)
    · rw [hOthers.group.1, hOthers.group.2] at hu
      by_cases hut : u = t
      · subst hut
        have hRest := (hI.rest u hu).1
        rw [not_atRest (hI.kept u) hNext] at hRest
        cases hRest
      · rw [hOthers.co u hut]
        exact hI.rest u hu
  -- an evaluation of `ENDS` reads the table
  | evaluate u t =>
    simp only [next] at hNext
    split at hNext
    · obtain rfl := Option.some.inj hNext
      refine ⟨hI.kept, hI.nodup, hI.rest, fun r hr => ?_, hI.joins⟩
      rcases List.mem_cons.mp hr with rfl | hr
      · exact (ENDS_eq_isset _ t).trans ((hI.kept t).told.reported hOk)
      · exact hI.evaluations r hr
    · cases hNext
  -- a join yields what the thread has returned
  | join t =>
    simp only [next] at hNext
    split at hNext
    · rename_i hPlace
      obtain rfl := Option.some.inj hNext
      refine ⟨hI.kept, hI.nodup, hI.rest, hI.evaluations, fun r hr v hv => ?_⟩
      rcases List.mem_cons.mp hr with rfl | hr
      · have hPlaced := (hI.kept t).placed
        simp only [Placed, hPlace] at hPlaced
        exact (hPlaced.2 v hv).1
      · exact hI.joins r hr v hv
    · cases hNext

theorem inv_start : Inv .start :=
  ⟨fun _ => kept_fresh ⟨rfl, rfl⟩ rfl rfl rfl, List.nodup_nil, fun _ _ => ⟨rfl, rfl⟩, by simp [State.start],
    by simp [State.start]⟩

/-- **The invariant gives the property**: what it says of a place is what the end of the
thread, the evaluations and the joins have to show there. -/
theorem Inv.endsOnce (hI : Inv s) : EndsOnce s where
  once t v hEnded hResult hMonitored := by
    have hKept := hI.kept t
    have hPlaced := hKept.placed
    simp only [Placed, hEnded] at hPlaced
    rw [(hKept.told.settled (by simp [hPlaced.1])).1]
    exact (hPlaced.2 v hResult).2 hMonitored
  atMostOnce t := by
    cases (hI.kept t).told with
    | quiet _ _ hOffers | raising _ _ hOffers | set _ _ hOffers | offered _ _ hOffers => omega
  evaluations := hI.evaluations
  lasting t hOne := by
    rw [ENDS_eq_isset]
    cases (hI.kept t).told with
    | quiet _ _ hOffers | raising _ _ hOffers => omega
    | set _ _ _ hEnds | offered _ _ _ hEnds => exact hEnds
  before t hLoc := by
    have hKept := hI.kept t
    have hStatus := hKept.enabled (hKept.placed.running_of_busy (by simp [hLoc])) (by simp [hLoc])
    cases hKept.told with
    | raising _ _ _ hEnds => exact ⟨hStatus, hEnds⟩
    | quiet hNot | offered hNot => exact absurd hLoc (hNot _)
    | set hAt => cases hAt.symm.trans hLoc
  after t hLoc := by
    have hKept := hI.kept t
    rcases hLoc with hLoc | hLoc
    · cases hKept.told with
      | set _ _ _ hEnds | offered _ _ _ hEnds => exact hEnds
      | raising hAt => cases hAt.symm.trans hLoc
      | quiet hNot => exact absurd hLoc (hNot _)
    · obtain ⟨hOffers, hEnds⟩ := hKept.told.settled (by simp [hLoc])
      rw [hEnds, hOffers, hKept.passed (.inr hLoc)]
      rfl
  joined := hI.joins

theorem inv_reachable (h : Runs.ReachableUnder (system ManualInstrEnabled)
    (Announced ManualInstrEnabled) s) : Inv s := by
  refine h.invariant (P := Inv) ?_ ?_
  · rintro s rfl
    exact inv_start
  · intro s a s' hI hOk hStep
    exact inv_next hI hOk hStep

/-- **The end of a thread is reported once**, in every run of any number of executions in
which a body that returns has not called `concurritThreadEnd` itself and one that ends by
`pthread_exit` has called it once. -/
theorem ends_once (h : Runs.ReachableUnder (system ManualInstrEnabled)
    (Announced ManualInstrEnabled) s) : EndsOnce s :=
  (inv_reachable h).endsOnce

/-- A function that calls another one and returns 7. -/
def returnRun : List Act :=
  [.enable true, .create .program 1, .run 1 .SetStarted, .run 1 .call, .run 1 .leave, .run 1 (.ret 7)]

/-- The report at its end, from the transition on. -/
def reportRun : List Act :=
  [.run 1 .FinishControlledTransition, .run 1 .proceed, .run 1 .proceed, .run 1 .SetEnded, .join 1]

/-- A thread returns 7, its end is reported once, and the joiner gets the 7. -/
theorem ends_once_returned : ∃ s, s.joins = [⟨1, 7, some 7⟩] ∧
    s.evaluations = [⟨1, true, true⟩] ∧ (s.co 1).offers = 1 ∧ EndsOnce s := by
  have hStart : Runs.ReachableUnder (system true) (Announced true) .start := .init rfl
  have hReturned := hStart.foldlM_under (fun _ _ _ h => h) returnRun
    (by simp [returnRun, Announced]) rfl
  have hRaised := hReturned.step (i := .run 1 .checkEnabled) (by intro _; rfl)
    (show next true _ _ = some _ from rfl)
  have hOffered := hRaised.foldlM_under (fun _ _ _ h => h) [.run 1 .proceed, .run 1 .proceed]
    (by simp [Announced]) rfl
  have hEvaluated := hOffered.step (i := .evaluate 1 1) (by intro h; cases h)
    (show next true _ _ = some _ from rfl)
  have hEnded := hEvaluated.foldlM_under (fun _ _ _ h => h) reportRun
    (by simp [reportRun, Announced]) rfl
  exact ⟨_, rfl, rfl, rfl, ends_once hEnded⟩

/-- A function that calls another one, which calls `pthread_exit(5)`. -/
def exitRun : List Act :=
  [.enable true, .create .program 1, .run 1 .SetStarted, .run 1 .call, .run 1 (.pthread_exit 5),
    .run 1 .unwind, .run 1 .catch, .run 1 .SetEnded]

/-- A remote thread sends `ThreadEnd`. -/
def shadowRun : List Act :=
  [.enable true, .create .shadow 1, .run 1 .SetStarted, .run 1 (.Recv (some .ThreadEnd)),
    .run 1 .proceed, .run 1 .proceed, .run 1 .FinishControlledTransition, .run 1 .proceed,
    .run 1 .proceed, .run 1 (.ret 0), .run 1 .checkEnabled]

/-- `pthread_exit` is caught without a report, so that `ENDS` never holds of this thread;
and a shadow thread reports the end it has reported already. -/
theorem end_misreported :
    (∃ s, Runs.Reachable (system true) s ∧ (s.co 1).place = .ended ∧ (s.co 1).result = some 5 ∧
      (s.co 1).offers = 0 ∧ ENDS s.aux.aux 1 = false ∧ ¬ EndsOnce s) ∧
    (∃ s, Runs.Reachable (system true) s ∧ s.aux.loc 1 = .before .ThreadEnd [.setEnds] ∧
      ENDS s.aux.aux 1 = true ∧ ¬ EndsOnce s) := by
  constructor
  · refine ⟨_, Runs.reachable_foldlM (.init rfl) exitRun rfl, rfl, rfl, rfl, rfl, fun h => ?_⟩
    cases h.once 1 5 rfl rfl rfl
  · refine ⟨_, Runs.reachable_foldlM (.init rfl) shadowRun rfl, rfl, rfl, fun h => ?_⟩
    cases (h.before 1 rfl).2

end ThreadEnd

end Concurrit.Model
