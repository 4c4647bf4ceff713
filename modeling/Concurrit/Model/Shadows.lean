import Mathlib.Algebra.BigOperators.Group.List.Basic
import Concurrit.Model.Broadcast

/-!
# Concurrit — the events that shadow threads are given

What a shadow thread carries between `SignalRecv` and the end of the handling, whom it is
addressed to, and which threads have got their last event. In every run of the pipe an event
is carried by the registered thread of its id (`Addressed`), and each step of a hand-over or of
a shadow thread leaves less to do (`Step.work_lt`).
-/

namespace Concurrit.Model

open Function (update)
open Ipc.EventKind (ThreadEnd ThreadEndIntern)

namespace Pipe

variable {s s' : State} {l : Label} {j k v w : Nat} {e : Event} {a : Act}

-- ---------------------------------------------------------------------------
-- Carried events
-- ---------------------------------------------------------------------------

/-- The event a shadow thread has been given and has not handled yet. -/
def State.carried (s : State) (w : Nat) : Option Event :=
  match s.place w with
  | .waits => if 0 < s.sem w then some (s.event w) else none
  | .copies => some (s.event w)
  | .handles e => some e
  | .absent | .loop | .leaves | .ended => none

/-- The hand-over an act is in, once the shadow thread is known. -/
def Act.gives : Act → Option (Nat × Event)
  | .signals w e _ | .fills w e _ | .raises w e _ => some (w, e)
  | .idle | .looksUp _ | .broadcasts _ | .visits _ _ | .aborted => none

/-- The shadow threads an act hands events to. -/
def Act.targets : Act → List Nat
  | .signals w _ rest | .fills w _ rest | .raises w _ rest => w :: rest.getD []
  | .visits _ rest => rest
  | .idle | .looksUp _ | .broadcasts _ | .aborted => []

theorem carried_congr (hPlace : s'.place v = s.place v) (hSem : s'.sem v = s.sem v)
    (hEvent : s'.event v = s.event v) : s'.carried v = s.carried v := by
  simp only [State.carried, hPlace, hSem, hEvent]

/-- A step that leaves what is carried alone. -/
theorem carried_update {p : Place} {sem sem2 : Nat → Nat} {tid : Nat → Nat} {registry : List Nat}
    (hSem : ∀ v, v ≠ w → sem v = s.sem v)
    (hSame : State.carried { s with sem := sem, sem2 := sem2, place := update s.place w p } w =
      s.carried w) (v : Nat) :
    State.carried { s with
      tid := tid, sem := sem, sem2 := sem2, place := update s.place w p, registry := registry } v =
      s.carried v := by
  by_cases hvw : v = w
  · subst hvw
    exact hSame
  · exact carried_congr (Function.update_of_ne hvw ..) (hSem v hvw) rfl

/-- **What a step does to the carried events**: one is put into a mailbox, one is handled,
or all stay. An event is carried from the moment the second semaphore of its shadow thread
goes up to the moment the thread has handled it. -/
theorem Step.carried (hB : Boxes s) (h : Step s l s') :
    (∀ v, s'.carried v = s.carried v) ∨
    (∃ j w e rest, l = .sender j ∧ s.act j = .raises w e rest ∧ s.carried w = none ∧
      s'.carried w = some e ∧ ∀ v, v ≠ w → s'.carried v = s.carried v) ∨
    ∃ w e, l = .shadow w ∧ s.place w = .handles e ∧ s'.place w = e.next ∧ s'.carried w = none ∧
      ∀ v, v ≠ w → s'.carried v = s.carried v := by
  cases h
  case fill j w e rest hAct =>
    -- the mailbox is not full yet
    obtain ⟨hWaits, _, hSem⟩ := hB.taken j w (by rw [hAct]; rfl)
    refine Or.inl fun v => ?_
    by_cases hvw : v = w
    · subst hvw
      simp [State.carried, hWaits, hSem]
    · exact carried_congr rfl rfl (Function.update_of_ne hvw ..)
  -- the mailbox becomes full
  case raise j w e rest hAct hSem =>
    obtain ⟨hWaits, _, _⟩ := hB.taken j w (by rw [hAct]; rfl)
    refine Or.inr (Or.inl ⟨j, w, e, rest, rfl, hAct, ?_, ?_, fun v hvw => ?_⟩)
    · simp [State.carried, hWaits, hSem]
    · simp [State.carried, hWaits, hB.filled j w e rest hAct]
    · exact carried_congr rfl (Function.update_of_ne hvw ..) rfl
  case register w tid hAbsent _ _ =>
    exact Or.inl (carried_update (fun _ _ => rfl) (by simp [State.carried, hAbsent]))
  case ready w hPlace =>
    have hClosed := (hB.closed w (by rw [hPlace]; nofun)).2
    exact Or.inl (carried_update (fun _ _ => rfl) (by simp [State.carried, hPlace, hClosed]))
  case receive w hPlace hSem =>
    refine Or.inl (carried_update (fun v hvw => Function.update_of_ne hvw ..) ?_)
    simp [State.carried, hPlace, hSem]
  case copy w hPlace =>
    exact Or.inl (carried_update (fun _ _ => rfl) (by simp [State.carried, hPlace]))
  -- the event is handled
  case handle w e hPlace =>
    refine Or.inr (Or.inr ⟨w, e, rfl, hPlace, Function.update_self .., ?_, fun v hvw => ?_⟩)
    · cases hLast : e.last <;> simp [State.carried, Event.next, hLast]
    · exact carried_congr (Function.update_of_ne hvw ..) rfl rfl
  case unregister w hPlace _ =>
    exact Or.inl (carried_update (fun _ _ => rfl) (by simp [State.carried, hPlace]))
  all_goals exact Or.inl fun _ => rfl

/-- A step of a thread that hands events over moves nobody else. -/
theorem Step.act_of_sender (h : Step s (.sender j) s') : ∃ a, s'.act = update s.act j a := by
  cases h <;> exact ⟨_, rfl⟩

theorem Step.busy (h : Step s (.sender j) s') : s.act j ≠ .idle := by
  cases h <;> simp_all

theorem Step.act_of_shadow (h : Step s (.shadow w) s') : s'.act = s.act := by
  cases h <;> rfl

theorem Step.tid_of_internal (h : Step s l s') (hInternal : l.internal = true) :
    s'.tid = s.tid := by
  cases h
  case request | requestAll | register => cases hInternal
  all_goals rfl

theorem Step.registry_of_sender (h : Step s (.sender j) s') : s'.registry = s.registry := by
  cases h <;> rfl

theorem Step.place_of_sender (h : Step s (.sender j) s') : s'.place = s.place := by
  cases h <;> rfl

theorem Act.mem_targets (h : a.gives = some (w, e)) : w ∈ a.targets := by
  cases a
  case signals | fills | raises =>
    cases h
    exact List.mem_cons_self
  all_goals cases h

/-- A thread comes to a shadow thread that is registered, or that its broadcast had before
it: the list of a broadcast is the registry at the time it takes the lock. -/
theorem Step.targets_of_sender (h : Step s (.sender j) s') :
    ∀ w ∈ (s'.act j).targets, w ∈ (s.act j).targets ∨ w ∈ s.registry := by
  cases h
  case find e w _ hFind _ =>
    intro v hv
    simp only [Function.update_self, Act.targets, Option.getD_none, List.mem_singleton] at hv
    exact Or.inr (hv ▸ List.mem_of_find?_eq_some hFind)
  case lock =>
    intro v hv
    exact Or.inr (by simpa [Act.targets] using hv)
  case visit e w rest hAct =>
    intro v hv
    rw [hAct]
    exact Or.inl (by simpa [Act.targets] using hv)
  case wait w e rest _ hAct =>
    intro v hv
    rw [hAct]
    exact Or.inl (by simpa [Act.targets] using hv)
  case fill w e rest hAct =>
    intro v hv
    rw [hAct]
    exact Or.inl (by simpa [Act.targets] using hv)
  case raise w e rest _ hAct =>
    intro v hv
    rw [hAct]
    simp only [Function.update_self] at hv
    cases rest with
    | none => cases hv
    | some rest => exact Or.inl (List.mem_cons_of_mem _ hv)
  all_goals
    intro v hv
    simp [Act.targets] at hv

/-- The event that a thread hands over stays the same; a new one is for the thread it is
handed to. -/
theorem Step.gives_of_sender (h : Step s (.sender j) s') (hGives : (s'.act j).gives = some (w, e)) :
    (s.act j).gives = some (w, e) ∨ e.threadid = s.tid w := by
  cases h
  case find e' v _ hFind _ =>
    simp only [Function.update_self, Act.gives, Option.some.injEq, Prod.mk.injEq] at hGives
    obtain ⟨rfl, rfl⟩ := hGives
    have hSame := List.find?_some hFind
    exact Or.inr (of_decide_eq_true hSame).symm
  case visit e' v rest _ =>
    simp only [Function.update_self, Act.gives, Option.some.injEq, Prod.mk.injEq] at hGives
    obtain ⟨rfl, rfl⟩ := hGives
    exact Or.inr rfl
  case wait v e' rest _ hAct =>
    rw [hAct]
    exact Or.inl (by simpa [Act.gives] using hGives)
  case fill v e' rest hAct =>
    rw [hAct]
    exact Or.inl (by simpa [Act.gives] using hGives)
  case raise v e' rest _ _ =>
    simp only [Function.update_self] at hGives
    cases rest <;> cases hGives
  all_goals simp [Act.gives] at hGives

-- ---------------------------------------------------------------------------
-- Addresses
-- ---------------------------------------------------------------------------

/-- A shadow thread is registered from its creation until it unregisters, as the only one of its
id, and the events it is given are for this id. -/
structure Addressed (s : State) : Prop where
  alive   : ∀ w, s.place w ≠ .absent → s.place w ≠ .ended → w ∈ s.registry
  gone    : ∀ w ∈ s.registry, s.place w ≠ .ended
  unique  : ∀ v ∈ s.registry, ∀ w ∈ s.registry, s.tid v = s.tid w → v = w
  known   : ∀ j, ∀ w ∈ (s.act j).targets, s.place w ≠ .absent
  given   : ∀ j w e, (s.act j).gives = some (w, e) → e.threadid = s.tid w
  carried : ∀ w e, s.carried w = some e → e.threadid = s.tid w

/-- At the beginning nobody is registered and nobody has an event. -/
theorem addressed_initial (h : Initial s) : Addressed s := by
  refine ⟨fun w hw => absurd (h.place w) hw, fun w hw => ?_, fun v hv => ?_, fun j w hw => ?_,
    fun j w e hj => ?_, fun w e hw => ?_⟩
  · rw [h.registry] at hw
    cases hw
  · rw [h.registry] at hv
    cases hv
  · rw [h.act j] at hw
    cases hw
  · rw [h.act j] at hj
    cases hj
  · rw [State.carried, h.place w] at hw
    cases hw

theorem Addressed.mem_of_carried (hA : Addressed s) (hw : s.carried w = some e) :
    w ∈ s.registry := by
  refine hA.alive w (fun hPlace => ?_) fun hPlace => ?_
  · rw [State.carried, hPlace] at hw
    cases hw
  · rw [State.carried, hPlace] at hw
    cases hw

/-- A thread begins to hand an event over. -/
theorem Addressed.of_request (hA : Addressed s) (hTargets : a.targets = []) :
    Addressed { s with act := update s.act j a } := by
  have hOther : ∀ k w, w ∈ (update s.act j a k).targets → k ≠ j := by
    rintro k w hw rfl
    rw [Function.update_self, hTargets] at hw
    cases hw
  refine ⟨hA.alive, hA.gone, hA.unique, fun k w hw => ?_, fun k w e hk => ?_, hA.carried⟩
  · have hkj := hOther k w hw
    exact hA.known k w (by simpa [hkj] using hw)
  · have hkj := hOther k w (Act.mem_targets hk)
    exact hA.given k w e (by simpa [hkj] using hk)

/-- A sender gives an event to the shadow thread of the event's own id. -/
theorem Addressed.of_sender (hA : Addressed s) (hB : Boxes s) (hL : Listed s)
    (h : Step s (.sender j) s') : Addressed s' := by
  obtain ⟨a, hAct⟩ := h.act_of_sender
  have hTid := h.tid_of_internal rfl
  -- the fields in turn: the registry, the broadcasts, the events handed over, the events
  -- carried
  refine ⟨?_, ?_, ?_, fun k w hw => ?_, fun k w e hk => ?_, fun w e hw => ?_⟩
  · rw [h.place_of_sender, h.registry_of_sender]
    exact hA.alive
  · rw [h.place_of_sender, h.registry_of_sender]
    exact hA.gone
  · rw [hTid, h.registry_of_sender]
    exact hA.unique
  · rw [h.place_of_sender]
    by_cases hkj : k = j
    · subst hkj
      rcases h.targets_of_sender w hw with hOld | hRegistered
      · exact hA.known k w hOld
      · exact hL.listed w hRegistered
    · rw [hAct, Function.update_of_ne hkj] at hw
      exact hA.known k w hw
  · rw [hTid]
    by_cases hkj : k = j
    · subst hkj
      rcases h.gives_of_sender hk with hOld | hNew
      · exact hA.given k w e hOld
      · exact hNew
    · rw [hAct, Function.update_of_ne hkj] at hk
      exact hA.given k w e hk
  · rw [hTid]
    -- an event carried now was carried before, or has just been put into the mailbox
    rcases h.carried hB with hSame | ⟨k, v, e', rest, _, hRaises, _, hNew, hSame⟩ | ⟨_, _, hLabel, _⟩
    · exact hA.carried w e (hSame w ▸ hw)
    · by_cases hwv : w = v
      · subst hwv
        obtain rfl : e' = e := Option.some.inj (hNew.symm.trans hw)
        exact hA.given k w e' (by rw [hRaises]; rfl)
      · exact hA.carried w e (hSame w hwv ▸ hw)
    · cases hLabel

/-- A shadow thread gets no event by a step of its own. -/
theorem Step.carried_of_shadow (hB : Boxes s) (h : Step s (.shadow w) s')
    (hv : s'.carried v = some e) : s.carried v = some e := by
  rcases h.carried hB with hSame | ⟨_, _, _, _, hLabel, _⟩ | ⟨v', _, _, _, _, hNone, hSame⟩
  · exact hSame v ▸ hv
  · cases hLabel
  · by_cases hvv' : v = v'
    · rw [hvv', hNone] at hv
      cases hv
    · exact hSame v hvv' ▸ hv

/-- A shadow thread goes on and stays registered; only its own place changes. -/
theorem Addressed.of_shadow (hA : Addressed s) (hB : Boxes s) (h : Step s (.shadow w) s')
    {p : Place} (hPlace : s'.place = update s.place w p) (hp : p ≠ .absent ∧ p ≠ .ended)
    (hRegistry : s'.registry = s.registry) (hOld : s.place w ≠ .absent ∧ s.place w ≠ .ended) :
    Addressed s' := by
  have hTid := h.tid_of_internal rfl
  refine ⟨fun v hAbsent hEnded => ?_, fun v hv => ?_, ?_, fun k v hv => ?_, fun k v e hk => ?_,
    fun v e hv => ?_⟩
  · rw [hRegistry]
    by_cases hvw : v = w
    · subst hvw
      exact hA.alive v hOld.1 hOld.2
    · rw [hPlace, Function.update_of_ne hvw] at hAbsent hEnded
      exact hA.alive v hAbsent hEnded
  · rw [hPlace]
    by_cases hvw : v = w
    · rw [hvw, Function.update_self]
      exact hp.2
    · rw [Function.update_of_ne hvw]
      exact hA.gone v (hRegistry ▸ hv)
  · rw [hTid, hRegistry]
    exact hA.unique
  · rw [h.act_of_shadow] at hv
    rw [hPlace]
    by_cases hvw : v = w
    · rw [hvw, Function.update_self]
      exact hp.1
    · rw [Function.update_of_ne hvw]
      exact hA.known k v hv
  · rw [h.act_of_shadow] at hk
    rw [hTid]
    exact hA.given k v e hk
  · rw [hTid]
    exact hA.carried v e (h.carried_of_shadow hB hv)

/-- **Step lemma of the registry**: a shadow thread is in it from its creation until it
unregisters, as the only one of its id, and gets events for this id. -/
theorem Addressed.step (hA : Addressed s) (hB : Boxes s) (hL : Listed s) (h : Step s l s') :
    Addressed s' := by
  have hStep := h
  cases h
  case request j e _ => exact hA.of_request rfl
  case requestAll j e _ => exact hA.of_request rfl
  -- a new shadow thread, with an id that no registered one has
  case register w tid hAbsent _ hTid =>
    have hNew : ∀ v, s.place v ≠ .absent → v ≠ w := by
      rintro v hv rfl
      exact hv hAbsent
    have hOther : ∀ v ∈ s.registry, v ≠ w := fun v hv => hNew v (hL.listed v hv)
    refine ⟨fun v hv hvEnded => ?_, fun v hv => ?_, fun v hv v' hv' hSame => ?_,
      fun k v hv => ?_, fun k v e hk => ?_, fun v e hv => ?_⟩
    · by_cases hvw : v = w
      · simp [hvw]
      · have hOld := hA.alive v (by simpa [hvw] using hv) (by simpa [hvw] using hvEnded)
        simp [hOld]
    · by_cases hvw : v = w
      · simp [hvw]
      · simpa [hvw] using hA.gone v (by simpa [hvw] using hv)
    · by_cases hvw : v = w
      · by_cases hvw' : v' = w
        · rw [hvw, hvw']
        · have hOld : v' ∈ s.registry := by simpa [hvw'] using hv'
          exact absurd (by simpa [hvw, hvw'] using hSame.symm) (hTid v' hOld)
      · have hOld : v ∈ s.registry := by simpa [hvw] using hv
        by_cases hvw' : v' = w
        · exact absurd (by simpa [hvw, hvw'] using hSame) (hTid v hOld)
        · exact hA.unique v hOld v' (by simpa [hvw'] using hv') (by simpa [hvw, hvw'] using hSame)
    · by_cases hvw : v = w
      · simp [hvw]
      · simpa [hvw] using hA.known k v hv
    · have hvw := hNew v (hA.known k v (Act.mem_targets hk))
      simpa [hvw] using hA.given k v e hk
    · rcases hStep.carried hB with hSame | ⟨_, _, _, _, hLabel, _⟩ | ⟨_, _, hLabel, _⟩
      · rw [hSame v] at hv
        have hvw := hOther v (hA.mem_of_carried hv)
        simpa [hvw] using hA.carried v e hv
      · cases hLabel
      · cases hLabel
  case ready w hPlace => exact hA.of_shadow hB hStep rfl (by simp) rfl (by simp [hPlace])
  case receive w hPlace _ => exact hA.of_shadow hB hStep rfl (by simp) rfl (by simp [hPlace])
  case copy w hPlace => exact hA.of_shadow hB hStep rfl (by simp) rfl (by simp [hPlace])
  case handle w e hPlace =>
    refine hA.of_shadow hB hStep rfl ?_ rfl (by simp [hPlace])
    cases hLast : e.last <;> simp [Event.next, hLast]
  -- a shadow thread leaves the registry
  case unregister w hPlace _ =>
    have hMem : ∀ v, v ∈ s.registry.erase w → v ≠ w ∧ v ∈ s.registry := fun v hv =>
      hL.nodup.mem_erase_iff.mp hv
    refine ⟨fun v hAbsent hEnded => ?_, fun v hv => ?_, fun v hv v' hv' => ?_, fun k v hv => ?_,
      hA.given, fun v e hv => ?_⟩
    · have hvw : v ≠ w := by
        rintro rfl
        simp at hEnded
      refine hL.nodup.mem_erase_iff.mpr ⟨hvw, hA.alive v ?_ ?_⟩
      · simpa [hvw] using hAbsent
      · simpa [hvw] using hEnded
    · obtain ⟨hvw, hOld⟩ := hMem v hv
      simpa [hvw] using hA.gone v hOld
    · exact hA.unique v (hMem v hv).2 v' (hMem v' hv').2
    · by_cases hvw : v = w
      · simp [hvw]
      · simpa [hvw] using hA.known k v hv
    · exact hA.carried v e (hStep.carried_of_shadow hB hv)
  all_goals exact hA.of_sender hB hL hStep

theorem addressed {ok : State → Label → Prop} (h : Runs.ReachableUnder system ok s) :
    Addressed s :=
  h.invariant_of (fun _ hReach => And.intro (boxes hReach) (listed hReach))
    (fun _ => addressed_initial) fun _ _ _ hBL hA _ hStep => hA.step hBL.1 hBL.2 hStep

-- ---------------------------------------------------------------------------
-- Last events
-- ---------------------------------------------------------------------------

/-- The mailbox that a thread puts an event into, its permit taken. -/
def Act.puts : Act → Option (Nat × Event)
  | .fills w e _ | .raises w e _ => some (w, e)
  | .idle | .looksUp _ | .signals _ _ _ | .broadcasts _ | .visits _ _ | .aborted => none

/-- The shadow thread has got its last event, or nobody else can put one into its mailbox
before it gets it. -/
def HasLast (s : State) (w : Nat) : Prop :=
  (s.place w).finishing = true ∨ (∃ e, s.carried w = some e ∧ e.last = true) ∨
    ∃ j e, (s.act j).puts = some (w, e) ∧ e.last = true

/-- Who finishes has its last event, if nobody is still bringing it. -/
theorem hasLast_of_finishing (hNone : ∀ j e, (s.act j).single ≠ some (w, e)) (h : Finishing s w) :
    HasLast s w := by
  rcases h with hPlace | ⟨hMail, hLast⟩ | ⟨j, e, hSingle, _⟩
  · exact Or.inl hPlace
  · refine Or.inr (Or.inl ⟨s.event w, ?_, hLast⟩)
    rcases hMail with hAt | ⟨hAt, hSem⟩
    · rw [State.carried, hAt]
    · rw [State.carried, hAt]
      exact if_pos hSem
  · exact absurd hSingle (hNone j e)

theorem puts_of_update {b : Act} (hPuts : ∀ p, b.puts = some p → (s.act j).puts = some p)
    (h : (update s.act j b k).puts = some (w, e)) : (s.act k).puts = some (w, e) := by
  by_cases hkj : k = j
  · subst hkj
    rw [Function.update_self] at h
    exact hPuts _ h
  · rwa [Function.update_of_ne hkj] at h

/-- A thread takes a permit, or puts only what it has put before. -/
theorem Step.puts (h : Step s l s') (hPuts : (s'.act k).puts = some (w, e)) :
    (s.act k).puts = some (w, e) ∨ ∃ rest, l = .sender k ∧ s.act k = .signals w e rest := by
  cases h
  case wait j v e' rest hAct _ =>
    by_cases hkj : k = j
    · subst hkj
      simp only [Function.update_self, Act.puts, Option.some.injEq, Prod.mk.injEq] at hPuts
      obtain ⟨rfl, rfl⟩ := hPuts
      exact Or.inr ⟨rest, rfl, hAct⟩
    · exact Or.inl (by simpa [hkj] using hPuts)
  case fill j v e' rest hAct =>
    exact Or.inl (puts_of_update (fun p hp => by rw [hAct]; exact hp) hPuts)
  case raise j v e' rest _ _ =>
    exact Or.inl (puts_of_update (fun p hp => by cases rest <;> cases hp) hPuts)
  case request | requestAll | find | findNone | raiseFails | lock | visit | unlock =>
    exact Or.inl (puts_of_update (fun p hp => by cases hp) hPuts)
  all_goals exact Or.inl hPuts

/-- **A shadow thread has its last event coming** only once a thread has taken the permit to
hand it over. So who watches the permits sees the end of a shadow thread coming. -/
theorem Step.hasLast (hB : Boxes s) (h : Step s l s') (hLast : HasLast s' w) :
    HasLast s w ∨ ∃ j e rest, l = .sender j ∧ s.act j = .signals w e rest ∧ e.last = true := by
  -- the event has been handled, is carried, or is being put into the mailbox
  rcases hLast with hPlace | ⟨e, hw, hLast⟩ | ⟨j, e, hPuts, hLast⟩
  · refine Or.inl ?_
    cases h
    case register v tid _ _ _ =>
      by_cases hwv : w = v
      · subst hwv
        simp [Place.finishing] at hPlace
      · exact Or.inl (by simpa [hwv] using hPlace)
    case ready v _ =>
      by_cases hwv : w = v
      · subst hwv
        simp [Place.finishing] at hPlace
      · exact Or.inl (by simpa [hwv] using hPlace)
    case receive v _ _ =>
      by_cases hwv : w = v
      · subst hwv
        simp [Place.finishing] at hPlace
      · exact Or.inl (by simpa [hwv] using hPlace)
    case copy v hAt =>
      by_cases hwv : w = v
      · subst hwv
        refine Or.inr (Or.inl ⟨s.event w, by rw [State.carried, hAt], ?_⟩)
        simpa [Place.finishing] using hPlace
      · exact Or.inl (by simpa [hwv] using hPlace)
    case handle v e hAt =>
      by_cases hwv : w = v
      · subst hwv
        refine Or.inl ?_
        rw [hAt]
        cases hLast : e.last
        · simp [Event.next, hLast, Place.finishing] at hPlace
        · exact hLast
      · exact Or.inl (by simpa [hwv] using hPlace)
    case unregister v hAt _ =>
      by_cases hwv : w = v
      · subst hwv
        exact Or.inl (by rw [hAt]; rfl)
      · exact Or.inl (by simpa [hwv] using hPlace)
    all_goals exact Or.inl hPlace
  · rcases h.carried hB with hSame | ⟨j, v, e', rest, _, hRaises, _, hNew, hSame⟩ | ⟨v, _, _, _, _, hNone, hSame⟩
    · exact Or.inl (Or.inr (Or.inl ⟨e, hSame w ▸ hw, hLast⟩))
    · by_cases hwv : w = v
      · subst hwv
        obtain rfl : e' = e := Option.some.inj (hNew.symm.trans hw)
        exact Or.inl (Or.inr (Or.inr ⟨j, e', by rw [hRaises]; rfl, hLast⟩))
      · exact Or.inl (Or.inr (Or.inl ⟨e, hSame w hwv ▸ hw, hLast⟩))
    · by_cases hwv : w = v
      · rw [hwv, hNone] at hw
        cases hw
      · exact Or.inl (Or.inr (Or.inl ⟨e, hSame w hwv ▸ hw, hLast⟩))
  · rcases h.puts hPuts with hOld | ⟨rest, hLabel, hAct⟩
    · exact Or.inl (Or.inr (Or.inr ⟨j, e, hOld, hLast⟩))
    · exact Or.inr ⟨j, e, rest, hLabel, hAct, hLast⟩

theorem puts_kept {b : Act} (hPuts : ∀ p, (s.act j).puts = some p → b.puts = some p)
    (h : (s.act k).puts = some (w, e)) : (update s.act j b k).puts = some (w, e) := by
  by_cases hkj : k = j
  · subst hkj
    rw [Function.update_self]
    exact hPuts _ h
  · rwa [Function.update_of_ne hkj]

/-- An event that a thread puts into a mailbox comes there: nobody else takes the permit in
between. -/
theorem Step.puts_or_carried (hB : Boxes s) (h : Step s l s')
    (hPuts : (s.act k).puts = some (w, e)) :
    (s'.act k).puts = some (w, e) ∨ s'.carried w = some e := by
  cases h
  case request j e' hIdle => exact Or.inl (puts_kept (fun p hp => by rw [hIdle] at hp; cases hp) hPuts)
  case requestAll j e' hIdle =>
    exact Or.inl (puts_kept (fun p hp => by rw [hIdle] at hp; cases hp) hPuts)
  case find j e' v hAct _ _ => exact Or.inl (puts_kept (fun p hp => by rw [hAct] at hp; cases hp) hPuts)
  case findNone j e' hAct _ _ =>
    exact Or.inl (puts_kept (fun p hp => by rw [hAct] at hp; cases hp) hPuts)
  case wait j v e' rest hAct _ => exact Or.inl (puts_kept (fun p hp => by rw [hAct] at hp; cases hp) hPuts)
  case fill j v e' rest hAct => exact Or.inl (puts_kept (fun p hp => by rw [hAct] at hp; exact hp) hPuts)
  -- the step that fills the mailbox
  case raise j v e' rest hAct hSem =>
    by_cases hkj : k = j
    · subst hkj
      rw [hAct] at hPuts
      obtain ⟨rfl, rfl⟩ : v = w ∧ e' = e := by simpa [Act.puts] using hPuts
      have hWaits := (hB.taken k v (by rw [hAct]; rfl)).1
      refine Or.inr ?_
      simp [State.carried, hWaits, hB.filled k v e' rest hAct]
    · exact Or.inl (by simpa [hkj] using hPuts)
  case raiseFails j v e' rest hAct hSem =>
    rw [(hB.taken j v (by rw [hAct]; rfl)).2.2] at hSem
    cases hSem
  case lock j e' hAct _ => exact Or.inl (puts_kept (fun p hp => by rw [hAct] at hp; cases hp) hPuts)
  case visit j e' v rest hAct => exact Or.inl (puts_kept (fun p hp => by rw [hAct] at hp; cases hp) hPuts)
  case unlock j e' hAct => exact Or.inl (puts_kept (fun p hp => by rw [hAct] at hp; cases hp) hPuts)
  all_goals exact Or.inl hPuts

/-- A shadow thread with its last event only comes nearer to its end: from the hands of a
sender to the mailbox, to the thread, and out of the registry. -/
theorem HasLast.step (hLast : HasLast s w) (hB : Boxes s) (hAbsent : s.place w ≠ .absent)
    (h : Step s l s') : HasLast s' w := by
  rcases hLast with hPlace | ⟨e, hw, hLast⟩ | ⟨j, e, hPuts, hLast⟩
  · refine Or.inl ?_
    cases h
    case register v tid hAt _ _ =>
      have hwv : w ≠ v := fun h => hAbsent (h ▸ hAt)
      simpa [hwv] using hPlace
    case ready v hAt =>
      have hwv : w ≠ v := fun h => by simp [h, hAt, Place.finishing] at hPlace
      simpa [hwv] using hPlace
    case receive v hAt _ =>
      have hwv : w ≠ v := fun h => by simp [h, hAt, Place.finishing] at hPlace
      simpa [hwv] using hPlace
    case copy v hAt =>
      have hwv : w ≠ v := fun h => by simp [h, hAt, Place.finishing] at hPlace
      simpa [hwv] using hPlace
    case handle v e hAt =>
      by_cases hwv : w = v
      · subst hwv
        rw [hAt] at hPlace
        simp [Event.next, show e.last = true from hPlace, Place.finishing]
      · simpa [hwv] using hPlace
    case unregister v _ _ =>
      by_cases hwv : w = v
      · simp [hwv, Place.finishing]
      · simpa [hwv] using hPlace
    all_goals exact hPlace
  · rcases h.carried hB with hSame | ⟨j, v, e', rest, _, _, hNone, _, hSame⟩ | ⟨v, e', _, hAt, hNext, _, hSame⟩
    · exact Or.inr (Or.inl ⟨e, (hSame w).trans hw, hLast⟩)
    · have hwv : w ≠ v := by
        rintro rfl
        cases hw.symm.trans hNone
      exact Or.inr (Or.inl ⟨e, (hSame w hwv).trans hw, hLast⟩)
    · by_cases hwv : w = v
      · subst hwv
        rw [State.carried, hAt] at hw
        cases hw
        refine Or.inl ?_
        rw [hNext, Event.next, if_pos hLast]
        rfl
      · exact Or.inr (Or.inl ⟨e, (hSame w hwv).trans hw, hLast⟩)
  · rcases h.puts_or_carried hB hPuts with hPuts' | hw
    · exact Or.inr (Or.inr ⟨j, e, hPuts', hLast⟩)
    · exact Or.inr (Or.inl ⟨e, hw, hLast⟩)

/-- A shadow thread leaves its loop after its last event, and for no other reason. -/
theorem Step.leaves (h : Step s l s') (hPlace : s'.place v = .leaves) :
    s.place v = .leaves ∨ ∃ e, l = .shadow v ∧ s.place v = .handles e ∧ e.last = true := by
  cases h
  case handle w e hAt =>
    by_cases hvw : v = w
    · subst hvw
      cases hLast : e.last
      · simp [Event.next, hLast] at hPlace
      · exact Or.inr ⟨e, rfl, hAt, hLast⟩
    · exact Or.inl (by simpa [hvw] using hPlace)
  case register w _ _ _ _ =>
    by_cases hvw : v = w
    · simp [hvw] at hPlace
    · exact Or.inl (by simpa [hvw] using hPlace)
  case ready w _ =>
    by_cases hvw : v = w
    · simp [hvw] at hPlace
    · exact Or.inl (by simpa [hvw] using hPlace)
  case receive w _ _ =>
    by_cases hvw : v = w
    · simp [hvw] at hPlace
    · exact Or.inl (by simpa [hvw] using hPlace)
  case copy w _ =>
    by_cases hvw : v = w
    · simp [hvw] at hPlace
    · exact Or.inl (by simpa [hvw] using hPlace)
  case unregister w _ _ =>
    by_cases hvw : v = w
    · simp [hvw] at hPlace
    · exact Or.inl (by simpa [hvw] using hPlace)
  all_goals exact Or.inl hPlace

/-- A shadow thread takes nobody but itself out of the registry, and only in the end. -/
theorem Step.registry_of_shadow (h : Step s (.shadow w) s') :
    s'.registry = s.registry ∨ s.place w = .leaves ∧ s'.registry = s.registry.erase w := by
  cases h
  case unregister hFree hPlace => exact Or.inr ⟨hPlace, rfl⟩
  all_goals exact Or.inl rfl

-- ---------------------------------------------------------------------------
-- What is left to do
-- ---------------------------------------------------------------------------

/-- The steps a shadow thread has before it waits for an event, with a reply as one more. -/
def State.stepsOf (s : State) (w : Nat) : Nat :=
  match s.place w with
  | .waits => if 0 < s.sem w then 5 else 0
  | .copies => 4
  | .handles _ => 3
  | .loop | .leaves => 1
  | .absent | .ended => 0

theorem stepsOf_congr (hPlace : s'.place v = s.place v) (hSem : s'.sem v = s.sem v) :
    s'.stepsOf v = s.stepsOf v := by
  simp only [State.stepsOf, hPlace, hSem]

/-- The steps a hand-over leads to, those of the shadow threads included. -/
def Act.steps : Act → Nat
  | .looksUp _ => 9
  | .signals _ _ rest => 8 + 10 * (rest.getD []).length + if rest.isSome then 1 else 0
  | .fills _ _ rest => 7 + 10 * (rest.getD []).length + if rest.isSome then 1 else 0
  | .raises _ _ rest => 6 + 10 * (rest.getD []).length + if rest.isSome then 1 else 0
  | .visits _ rest => 1 + 10 * rest.length
  | .idle | .broadcasts _ | .aborted => 0

/-- The steps that two threads and the registered shadow threads have to do. -/
def State.work (s : State) : Nat :=
  (s.act 0).steps + (s.act 1).steps + (s.registry.map s.stepsOf).sum

theorem sum_map_update {l : List Nat} {f g : Nat → Nat} (hNodup : l.Nodup) (hw : w ∈ l)
    (hSame : ∀ v, v ≠ w → g v = f v) : (l.map g).sum + f w = (l.map f).sum + g w := by
  have hRest : (l.erase w).map g = (l.erase w).map f :=
    List.map_congr_left fun v hv => hSame v (hNodup.mem_erase_iff.mp hv).1
  rw [← List.sum_map_erase f hw, ← List.sum_map_erase g hw, hRest]
  omega

/-- The steps that both senders lead to, when one of them takes up another act. -/
theorem steps_update {b : Act} (hj : j = 0 ∨ j = 1) :
    (update s.act j b 0).steps + (update s.act j b 1).steps + (s.act j).steps =
      (s.act 0).steps + (s.act 1).steps + b.steps := by
  rcases hj with rfl | rfl
  · simp
    omega
  · simp
    omega

/-- A thread that hands events over does less and less, until it locks the registry again.
The measure is what it has still to visit, with the steps each shadow thread will make for
the event it gets. -/
theorem Step.work_of_sender (hB : Boxes s) (hL : Listed s) (hA : Addressed s)
    (h : Step s (.sender j) s') (hj : j = 0 ∨ j = 1) (hLock : ∀ e, s.act j ≠ .broadcasts e) :
    s'.work < s.work := by
  have hUpdate : ∀ b, (update s.act j b 0).steps + (update s.act j b 1).steps + (s.act j).steps =
      (s.act 0).steps + (s.act 1).steps + b.steps := fun b => steps_update hj
  -- all but `raise` leave the shadow threads where they are
  have hLess : ∀ b : Act, b.steps < (s.act j).steps → s'.act = update s.act j b →
      s'.stepsOf = s.stepsOf → s'.work < s.work := by
    intro b hb hAct hSame
    have hSum := hUpdate b
    rw [State.work, State.work, hAct, hSame, h.registry_of_sender]
    omega
  cases h
  case find e w _ _ hAct => exact hLess _ (by rw [hAct]; simp [Act.steps]) rfl rfl
  case findNone e _ _ hAct => exact hLess _ (by rw [hAct]; simp [Act.steps]) rfl rfl
  case wait w e rest _ hAct => exact hLess _ (by rw [hAct]; simp [Act.steps]) rfl rfl
  case fill w e rest hAct => exact hLess _ (by rw [hAct]; simp [Act.steps]) rfl rfl
  -- the shadow thread has five steps to make now, and the sender more than that fewer
  case raise w e rest hSem hAct =>
    have hWaits := (hB.taken j w (by rw [hAct]; rfl)).1
    have hw : w ∈ s.registry := hA.alive w (by rw [hWaits]; nofun) (by rw [hWaits]; nofun)
    have hSum := sum_map_update (g := State.stepsOf { s with
      sem := update s.sem w (s.sem w + 1), act := update s.act j (.next e rest) }) hL.nodup hw
      (f := s.stepsOf) fun v hvw => by simp [State.stepsOf, hvw]
    have hOld : s.stepsOf w = 0 := by simp [State.stepsOf, hWaits, hSem]
    have hNew : State.stepsOf { s with
        sem := update s.sem w (s.sem w + 1), act := update s.act j (.next e rest) } w = 5 := by
      simp [State.stepsOf, hWaits]
    have hSteps := hUpdate (.next e rest)
    rw [hOld, hNew] at hSum
    rw [hAct] at hSteps
    have hNext : (Act.next e rest).steps + 5 < (Act.raises w e rest).steps := by
      cases rest <;> simp [Act.next, Act.steps]
      omega
    simp only [State.work]
    omega
  case raiseFails w e rest hSem hAct =>
    rw [(hB.taken j w (by rw [hAct]; rfl)).2.2] at hSem
    cases hSem
  case lock e _ hAct => exact absurd hAct (hLock e)
  case visit e w rest hAct =>
    refine hLess _ ?_ rfl rfl
    rw [hAct]
    simp [Act.steps]
    omega
  case unlock e hAct => exact hLess _ (by rw [hAct]; simp [Act.steps]) rfl rfl

/-- A shadow thread does less and less, until it is given the next event. Handling an event
lowers the measure by two, which pays for the reply to the client. -/
theorem Step.work_of_shadow (hB : Boxes s) (hL : Listed s) (hA : Addressed s)
    (h : Step s (.shadow w) s') :
    s'.work < s.work ∧ ∀ e, s.place w = .handles e → s'.work + 1 < s.work := by
  -- all but `unregister` leave the registry as it is
  have hLess : ∀ n, s.place w ≠ .absent → s.place w ≠ .ended → s'.registry = s.registry →
      (∀ v, v ≠ w → s'.stepsOf v = s.stepsOf v) → s'.stepsOf w + n < s.stepsOf w →
      s'.work + n < s.work := by
    intro n hAbsent hEnded hRegistry hSame hn
    have hSum := sum_map_update hL.nodup (hA.alive w hAbsent hEnded) hSame
    rw [State.work, State.work, h.act_of_shadow, hRegistry]
    omega
  cases h
  case ready hPlace =>
    have hClosed := (hB.closed w (by simp [hPlace])).2
    refine ⟨hLess 0 (by simp [hPlace]) (by simp [hPlace]) rfl (fun v hvw => ?_) ?_, ?_⟩
    · simp [State.stepsOf, hvw]
    · simp [State.stepsOf, hPlace, hClosed]
    · intro e he
      cases hPlace.symm.trans he
  case receive hPlace hSem =>
    refine ⟨hLess 0 (by simp [hPlace]) (by simp [hPlace]) rfl (fun v hvw => ?_) ?_, ?_⟩
    · simp [State.stepsOf, hvw]
    · simp [State.stepsOf, hPlace, hSem]
    · intro e he
      cases hPlace.symm.trans he
  case copy hPlace =>
    refine ⟨hLess 0 (by simp [hPlace]) (by simp [hPlace]) rfl (fun v hvw => ?_) ?_, ?_⟩
    · simp [State.stepsOf, hvw]
    · simp [State.stepsOf, hPlace]
    · intro e he
      cases hPlace.symm.trans he
  case handle e hPlace =>
    have hOne : State.work { s with place := update s.place w e.next } + 1 < s.work := by
      refine hLess 1 (by simp [hPlace]) (by simp [hPlace]) rfl (fun v hvw => ?_) ?_
      · simp [State.stepsOf, hvw]
      · cases hLast : e.last <;> simp [State.stepsOf, hPlace, Event.next, hLast]
    exact ⟨by omega, fun _ _ => hOne⟩
  -- the thread leaves the sum
  case unregister hFree hPlace =>
    have hw : w ∈ s.registry := hA.alive w (by simp [hPlace]) (by simp [hPlace])
    have hRest : (s.registry.erase w).map (State.stepsOf { s with
        registry := s.registry.erase w, place := update s.place w .ended }) =
        (s.registry.erase w).map s.stepsOf := by
      refine List.map_congr_left fun v hv => ?_
      have hvw := (hL.nodup.mem_erase_iff.mp hv).1
      simp [State.stepsOf, hvw]
    have hSum := List.sum_map_erase s.stepsOf hw
    have hOne : s.stepsOf w = 1 := by simp [State.stepsOf, hPlace]
    refine ⟨?_, fun e he => ?_⟩
    · simp only [State.work, hRest]
      omega
    · cases hPlace.symm.trans he

-- ---------------------------------------------------------------------------
-- Threads to come
-- ---------------------------------------------------------------------------

/-- There are threads that have not been created, since a run of finitely many steps creates
finitely many. -/
theorem absent_exists {ok : State → Label → Prop} (h : Runs.ReachableUnder system ok s) :
    ∃ w, s.place w = .absent := by
  suffices hFrom : ∃ n, ∀ w, n ≤ w → s.place w = .absent from
    hFrom.imp fun n hn => hn n (Nat.le_refl n)
  refine h.invariant (P := fun s => ∃ n, ∀ w, n ≤ w → s.place w = .absent)
    (fun s (hInit : Initial s) => ⟨0, fun w _ => hInit.place w⟩) ?_
  rintro s l s' ⟨n, hn⟩ - hStep
  have hOld : ∀ w, s.place w ≠ .absent → w < n := fun w hw =>
    Nat.lt_of_not_le fun hle => hw (hn w hle)
  cases hStep
  case register w tid _ _ _ =>
    refine ⟨max n (w + 1), fun v hv => ?_⟩
    have hvw : v ≠ w := by omega
    simpa [hvw] using hn v (by omega)
  case ready w hAt | receive w hAt _ | copy w hAt | handle w e hAt | unregister w hAt _ =>
    have hw := hOld w (by rw [hAt]; nofun)
    refine ⟨n, fun v hv => ?_⟩
    have hvw : v ≠ w := by omega
    simpa [hvw] using hn v hv
  all_goals exact ⟨n, hn⟩

end Pipe

end Concurrit.Model
