import Concurrit.Model.ConcurrentPipe

/-!
# Concurrit — broadcasts and threads that unregister

`Broadcast` keeps `map_mutex_` while it hands the event to one registered shadow thread
after the other. A shadow thread that has its last event waits for this mutex and for no
event any more, so that a broadcast that comes to it waits forever. Where no registered
thread has its last event, or is about to get it, broadcasts and unregistrations go on.
-/

namespace Concurrit.Model

open Function (update)
open Ipc.EventKind (ThreadEnd ThreadEndIntern)

namespace Pipe

variable {s s' : State} {l : Label} {j k v w : Nat} {e : Event} {rest : List Nat}

/-- The threads a broadcast has still to hand the event to. -/
def Act.unvisited : Act → Option (List Nat)
  | .visits _ rest => some rest
  | .signals w _ (some rest) => some (w :: rest)
  | .fills _ _ (some rest) | .raises _ _ (some rest) => some rest
  | _ => none

/-- The event a thread is handing to a shadow thread, outside of a broadcast. -/
def Act.single : Act → Option (Nat × Event)
  | .signals w e none | .fills w e none | .raises w e none => some (w, e)
  | _ => none

/-- The thread comes to no event any more. -/
def Place.finishing : Place → Bool
  | .handles e => e.last
  | .leaves | .ended | .absent => true
  | _ => false

/-- The last event of the shadow thread is handled, in its mailbox, or on its way. -/
def Finishing (s : State) (w : Nat) : Prop :=
  (s.place w).finishing = true ∨
  ((s.place w = .copies ∨ s.place w = .waits ∧ 0 < s.sem w) ∧ (s.event w).last = true) ∨
  ∃ j e, (s.act j).single = some (w, e) ∧ e.last = true

/-- A broadcast or an unregistration has begun. -/
def InProgress (s : State) : Prop :=
  (∃ j e, s.act j = .broadcasts e) ∨ (∃ j rest, (s.act j).unvisited = some rest) ∨
    ∃ w, s.place w = .leaves

/-- A step of what has begun. -/
def Label.internal : Label → Bool
  | .sender _ | .shadow _ => true
  | _ => false

/-- Some thread can go on. -/
def Enabled (s : State) : Prop :=
  ∃ l s', l.internal = true ∧ Step s l s'

/-- A broadcast begins only while no registered thread has its last event or is to get it. -/
def broadcastsToAll (s : State) (l : Label) : Prop :=
  ∀ j e, l = .sender j → s.act j = .broadcasts e → ∀ w ∈ s.registry, ¬ Finishing s w

theorem Act.next_single (e : Event) (rest : Option (List Nat)) : (Act.next e rest).single = none := by
  cases rest <;> rfl

/-- A sender that goes on hands over the same event as before, or none. -/
theorem single_of_update {a : Act} (hSingle : a.single = none ∨ a.single = (s.act j).single)
    (h : (update s.act j a k).single = some (w, e)) : (s.act k).single = some (w, e) := by
  by_cases hkj : k = j
  · subst hkj
    rw [Function.update_self] at h
    rcases hSingle with hNone | hSame
    · rw [hNone] at h
      cases h
    · rwa [← hSame]
  · rwa [Function.update_of_ne hkj] at h

/-- A step of a thread that is handing nothing over outside of a broadcast. -/
theorem Finishing.of_act {a : Act} {sem2 : Nat → Nat} {owner : Option Nat}
    (h : Finishing { s with sem2 := sem2, owner := owner, act := update s.act j a } w)
    (hSingle : a.single = none ∨ a.single = (s.act j).single) : Finishing s w := by
  rcases h with h | h | ⟨k, e, hk, hLast⟩
  · exact Or.inl h
  · exact Or.inr (Or.inl h)
  · exact Or.inr (Or.inr ⟨k, e, single_of_update hSingle hk, hLast⟩)

/-- A step of shadow thread `v` changes nothing for the others: only `v` itself may come to
have its last event, by receiving or copying it. -/
theorem Finishing.of_place {p : Place} {sem sem2 : Nat → Nat}
    (h : Finishing { s with sem := sem, sem2 := sem2, place := update s.place v p } w)
    (hSem : ∀ w, w ≠ v → sem w = s.sem w)
    (hPlace : p.finishing = true → Finishing s v)
    (hMail : p = .copies ∨ p = .waits ∧ 0 < sem v → (s.event v).last = true → Finishing s v) :
    Finishing s w := by
  by_cases hwv : w = v
  · subst hwv
    rcases h with h | ⟨h, hLast⟩ | h
    · exact hPlace (by simpa using h)
    · exact hMail (by simpa using h) hLast
    · exact Or.inr (Or.inr h)
  · rcases h with h | ⟨h, hLast⟩ | h
    · exact Or.inl (by simpa [hwv] using h)
    · exact Or.inr (Or.inl ⟨by simpa [hwv, hSem w hwv] using h, hLast⟩)
    · exact Or.inr (Or.inr h)

/-- A shadow thread has its last event coming only if a thread looks it up, or if a
broadcast hands the event over. All other steps move an event that is under way already. -/
theorem Step.finishing (hB : Boxes s) (h : Step s l s') (hFin : Finishing s' w) :
    Finishing s w ∨ (∃ j e rest, s.act j = .raises w e (some rest)) ∨ s.owner = none := by
  cases h
  case request => exact Or.inl (hFin.of_act (Or.inl rfl))
  case requestAll => exact Or.inl (hFin.of_act (Or.inl rfl))
  case register hFree _ => exact Or.inr (Or.inr hFree)
  case find hFree _ => exact Or.inr (Or.inr hFree)
  case findNone hFree _ => exact Or.inr (Or.inr hFree)
  case lock hFree => exact Or.inr (Or.inr hFree)
  case unregister hFree => exact Or.inr (Or.inr hFree)
  case visit => exact Or.inl (hFin.of_act (Or.inl rfl))
  case unlock => exact Or.inl (hFin.of_act (Or.inl rfl))
  case wait j v e rest hAct _ =>
    refine Or.inl (hFin.of_act (Or.inr ?_))
    rw [hAct]
    cases rest <;> rfl
  -- filling writes the event, which is the last one only if it was handed over as such
  case fill j v e rest hAct =>
    obtain ⟨hWaits, _, hSem⟩ := hB.taken j v (by rw [hAct]; rfl)
    rcases hFin with h | ⟨h, hLast⟩ | ⟨k, e', hk, hLast⟩
    · exact Or.inl (Or.inl h)
    · by_cases hwv : w = v
      · -- the mailbox is not full yet
        subst hwv
        rcases h with hCopies | ⟨_, hFull⟩
        · cases hWaits.symm.trans hCopies
        · rw [hSem] at hFull
          cases hFull
      · exact Or.inl (Or.inr (Or.inl ⟨h, by simpa [hwv] using hLast⟩))
    · refine Or.inl (Or.inr (Or.inr ⟨k, e', single_of_update (Or.inr ?_) hk, hLast⟩))
      rw [hAct]
      cases rest <;> rfl
  -- raising the semaphore makes the mailbox full
  case raise j v e rest hAct _ =>
    rcases hFin with h | ⟨h, hLast⟩ | ⟨k, e', hk, hLast⟩
    · exact Or.inl (Or.inl h)
    · by_cases hwv : w = v
      -- the event in the mailbox is the one that was handed over
      · subst hwv
        cases rest with
        | none =>
          refine Or.inl (Or.inr (Or.inr ⟨j, e, by rw [hAct]; rfl, ?_⟩))
          rwa [← hB.filled j w e none hAct]
        | some rest => exact Or.inr (Or.inl ⟨j, e, rest, hAct⟩)
      · exact Or.inl (Or.inr (Or.inl ⟨by simpa [hwv] using h, hLast⟩))
    · exact Or.inl (Or.inr (Or.inr ⟨k, e', single_of_update (Or.inl (Act.next_single ..)) hk, hLast⟩))
  case raiseFails => exact Or.inl (hFin.of_act (Or.inl rfl))
  -- at the loop the mailbox is empty
  case ready v hPlace =>
    have hClosed := (hB.closed v (by rw [hPlace]; nofun)).2
    refine Or.inl (hFin.of_place (fun _ _ => rfl) nofun ?_)
    simp [hClosed]
  case receive v hPlace hSem =>
    refine Or.inl (hFin.of_place (fun u hu => by simp [hu]) nofun fun _ hLast => ?_)
    exact Or.inr (Or.inl ⟨Or.inr ⟨hPlace, hSem⟩, hLast⟩)
  case copy v hPlace =>
    refine Or.inl (hFin.of_place (fun _ _ => rfl) (fun hLast => ?_) nofun)
    exact Or.inr (Or.inl ⟨Or.inl hPlace, hLast⟩)
  -- the thread comes to its end by handling its last event
  case handle v e hPlace =>
    refine Or.inl (hFin.of_place (fun _ _ => rfl) (fun hNext => ?_) fun hNext => ?_)
    · refine Or.inl ?_
      rw [hPlace]
      simp only [Event.next] at hNext
      split at hNext
      · assumption
      · cases hNext
    · simp only [Event.next] at hNext
      split at hNext <;> simp at hNext

-- ---------------------------------------------------------------------------
-- The registry
-- ---------------------------------------------------------------------------

/-- The threads of a broadcast from the one it is at. -/
def Act.round : Act → Option (List Nat)
  | .visits _ rest => some rest
  | .signals w _ (some rest) | .fills w _ (some rest) | .raises w _ (some rest) => some (w :: rest)
  | _ => none

/-- What a broadcast has not visited yet is part of its round. -/
theorem Act.round_of_unvisited {a : Act} (h : a.unvisited = some rest) :
    ∃ round, a.round = some round ∧ ∀ w ∈ rest, w ∈ round := by
  cases a
  case visits e rest' => exact ⟨rest, h, fun _ => id⟩
  case signals w e rest' =>
    cases rest' with
    | none => cases h
    | some rest' => exact ⟨rest, h, fun _ => id⟩
  case fills w e rest' =>
    cases rest' with
    | none => cases h
    | some rest' =>
      cases h
      exact ⟨w :: rest, rfl, fun _ => List.mem_cons_of_mem _⟩
  case raises w e rest' =>
    cases rest' with
    | none => cases h
    | some rest' =>
      cases h
      exact ⟨w :: rest, rfl, fun _ => List.mem_cons_of_mem _⟩
  all_goals cases h

/-- The mutex and the registry. -/
structure Listed (s : State) : Prop where
  holder : ∀ j, s.owner = some j ↔ ((s.act j).round).isSome = true
  round  : ∀ j round, (s.act j).round = some round → round.Nodup
  nodup  : s.registry.Nodup
  listed : ∀ w ∈ s.registry, s.place w ≠ .absent

/-- At the beginning nobody is registered and no broadcast is under way. -/
theorem listed_initial (h : Initial s) : Listed s := by
  refine ⟨fun j => ?_, fun j round hRound => ?_, ?_, fun w hw => ?_⟩
  · rw [h.owner, h.act j]
    simp [Act.round]
  · rw [h.act j] at hRound
    cases hRound
  · rw [h.registry]
    exact List.nodup_nil
  · rw [h.registry] at hw
    cases hw

/-- A step of a sender that leaves the mutex alone keeps the lists, if its round stays
without repetitions. -/
theorem Listed.of_act (hL : Listed s) {a : Act} {sem sem2 : Nat → Nat} {event : Nat → Event}
    (hSome : a.round.isSome = (s.act j).round.isSome)
    (hRound : ∀ round, a.round = some round → round.Nodup) :
    Listed { s with sem := sem, sem2 := sem2, event := event, act := update s.act j a } := by
  refine ⟨fun k => ?_, fun k round hk => ?_, hL.nodup, hL.listed⟩
  · by_cases hkj : k = j
    · subst hkj
      simpa [hSome] using hL.holder k
    · simpa [hkj] using hL.holder k
  · by_cases hkj : k = j
    · subst hkj
      exact hRound round (by simpa using hk)
    · exact hL.round k round (by simpa [hkj] using hk)

/-- A step of a shadow thread that leaves the registry alone. -/
theorem Listed.of_place (hL : Listed s) {p : Place} {sem sem2 : Nat → Nat} (hPlace : p ≠ .absent) :
    Listed { s with sem := sem, sem2 := sem2, place := update s.place v p } := by
  refine ⟨hL.holder, hL.round, hL.nodup, fun w hw => ?_⟩
  by_cases hwv : w = v
  · subst hwv
    simpa using hPlace
  · simpa [hwv] using hL.listed w hw

/-- **Registry and rounds stay in order**: only the holder of the mutex has a round, and
neither the round nor the registry lists a shadow thread twice. -/
theorem Listed.step (hL : Listed s) (hB : Boxes s) (h : Step s l s') : Listed s' := by
  cases h
  case request j e hIdle => exact hL.of_act (by rw [hIdle]; rfl) fun _ h => by cases h
  case requestAll j e hIdle => exact hL.of_act (by rw [hIdle]; rfl) fun _ h => by cases h
  case find j e w hAct _ _ => exact hL.of_act (by rw [hAct]; rfl) fun _ h => by cases h
  case findNone j e hAct _ _ => exact hL.of_act (by rw [hAct]; rfl) fun _ h => by cases h
  case wait j w e rest hAct _ =>
    have hRound := hL.round j
    rw [hAct] at hRound
    exact hL.of_act (by rw [hAct]; cases rest <;> rfl) (by cases rest <;> exact hRound)
  case fill j w e rest hAct =>
    have hRound := hL.round j
    rw [hAct] at hRound
    exact hL.of_act (by rw [hAct]; cases rest <;> rfl) (by cases rest <;> exact hRound)
  -- the thread visited leaves the round
  case raise j w e rest hAct _ =>
    have hRound := hL.round j
    rw [hAct] at hRound
    refine hL.of_act (by rw [hAct]; cases rest <;> rfl) fun round hNext => ?_
    cases rest with
    | none => cases hNext
    | some rest =>
      cases hNext
      exact (List.nodup_cons.mp (hRound _ rfl)).2
  -- the semaphore is free for whoever has taken the permit
  case raiseFails j w e rest hAct hSem =>
    rw [(hB.taken j w (by rw [hAct]; rfl)).2.2] at hSem
    cases hSem
  case visit j e w rest hAct =>
    have hRound := hL.round j
    rw [hAct] at hRound
    exact hL.of_act (by rw [hAct]; rfl) hRound
  -- the round begins: it is the registry as it is now
  case lock j e hAct hFree =>
    have hNobody : ∀ k, (s.act k).round.isSome = false := fun k => by
      rw [← Bool.not_eq_true, ← hL.holder k, hFree]
      simp
    refine ⟨fun k => ?_, fun k round hk => ?_, hL.nodup, hL.listed⟩
    · by_cases hkj : k = j
      · subst hkj
        simp [Act.round]
      · simp [hkj, hNobody k, Ne.symm hkj]
    · by_cases hkj : k = j
      · subst hkj
        simp only [Function.update_self, Act.round, Option.some.injEq] at hk
        exact hk ▸ hL.nodup
      · exact hL.round k round (by simpa [hkj] using hk)
  -- the round is over, and so is the hold of the mutex
  case unlock j e hAct =>
    have hMine : s.owner = some j := (hL.holder j).mpr (by rw [hAct]; rfl)
    refine ⟨fun k => ?_, fun k round hk => ?_, hL.nodup, hL.listed⟩
    · by_cases hkj : k = j
      · subst hkj
        simp [Act.round]
      · have hOther := hL.holder k
        rw [hMine] at hOther
        simpa [hkj, Ne.symm hkj] using hOther
    · by_cases hkj : k = j
      · subst hkj
        simp [Act.round] at hk
      · exact hL.round k round (by simpa [hkj] using hk)
  -- a new shadow thread was not registered before
  case register w tid hAbsent hFree hTid =>
    have hNew : w ∉ s.registry := fun hw => hL.listed w hw hAbsent
    refine ⟨hL.holder, hL.round, ?_, fun v hv => ?_⟩
    · exact (List.perm_orderedInsert _ w s.registry).nodup_iff.mpr (List.nodup_cons.mpr ⟨hNew, hL.nodup⟩)
    · by_cases hvw : v = w
      · subst hvw
        simp
      · have hOld : v ∈ s.registry := by simpa [hvw] using hv
        simpa [hvw] using hL.listed v hOld
  case ready w hPlace => exact hL.of_place (by simp)
  case receive w hPlace _ => exact hL.of_place (by simp)
  case copy w hPlace => exact hL.of_place (by simp)
  case handle w e hPlace =>
    refine hL.of_place ?_
    simp only [Event.next]
    split <;> simp
  -- removed once, it is not listed any more
  case unregister w hPlace hFree =>
    refine ⟨hL.holder, hL.round, hL.nodup.erase w, fun v hv => ?_⟩
    by_cases hvw : v = w
    · subst hvw
      simp
    · simpa [hvw] using hL.listed v (List.mem_of_mem_erase hv)

-- ---------------------------------------------------------------------------
-- Broadcasts in progress
-- ---------------------------------------------------------------------------

/-- The threads a broadcast has still to come to have their last event to come, too. -/
def Open (s : State) : Prop :=
  ∀ j rest, (s.act j).unvisited = some rest → ∀ w ∈ rest, ¬ Finishing s w

/-- A step of another thread, or one that leaves the thread's broadcast where it is. -/
theorem unvisited_of_update {a : Act} (hSame : ∀ rest, a.unvisited = some rest →
      ∃ rest', (s.act j).unvisited = some rest' ∧ ∀ w ∈ rest, w ∈ rest')
    (h : (update s.act j a k).unvisited = some rest) :
    ∃ rest', (s.act k).unvisited = some rest' ∧ ∀ w ∈ rest, w ∈ rest' := by
  by_cases hkj : k = j
  · subst hkj
    exact hSame rest (by simpa using h)
  · exact ⟨rest, by simpa [hkj] using h, fun _ => id⟩

/-- A broadcast is under way before a step, too, or the step begins it. -/
theorem Step.unvisited (h : Step s l s') (hAct : (s'.act k).unvisited = some rest) :
    (∃ rest', (s.act k).unvisited = some rest' ∧ ∀ w ∈ rest, w ∈ rest') ∨
    (∃ e, l = .sender k ∧ s.act k = .broadcasts e) ∧ rest = s.registry ∧
      ∀ w, Finishing s' w → Finishing s w := by
  cases h
  -- here the round begins
  case lock j e hj hFree =>
    by_cases hkj : k = j
    · subst hkj
      refine Or.inr ⟨⟨e, rfl, hj⟩, ?_, fun w hFin => hFin.of_act (Or.inl rfl)⟩
      simpa [Act.unvisited, eq_comm] using hAct
    · exact Or.inl ⟨rest, by simpa [hkj] using hAct, fun _ => id⟩
  case visit j e w rest' hj =>
    refine Or.inl (unvisited_of_update (fun r hr => ⟨w :: rest', by rw [hj]; rfl, ?_⟩) hAct)
    cases hr
    exact fun _ => id
  case wait j w e r hj _ =>
    refine Or.inl (unvisited_of_update (fun r' hr => ?_) hAct)
    cases r with
    | none => cases hr
    | some r =>
      cases hr
      exact ⟨w :: r', by rw [hj]; rfl, fun _ => List.mem_cons_of_mem _⟩
  case fill j w e r hj =>
    refine Or.inl (unvisited_of_update (fun r' hr => ⟨r', ?_, fun _ => id⟩) hAct)
    rw [hj]
    cases r <;> exact hr
  case raise j w e r hj _ =>
    refine Or.inl (unvisited_of_update (fun r' hr => ⟨r', ?_, fun _ => id⟩) hAct)
    rw [hj]
    cases r <;> exact hr
  case request => exact Or.inl (unvisited_of_update (by rintro _ ⟨⟩) hAct)
  case requestAll => exact Or.inl (unvisited_of_update (by rintro _ ⟨⟩) hAct)
  case find => exact Or.inl (unvisited_of_update (by rintro _ ⟨⟩) hAct)
  case findNone => exact Or.inl (unvisited_of_update (by rintro _ ⟨⟩) hAct)
  case raiseFails => exact Or.inl (unvisited_of_update (by rintro _ ⟨⟩) hAct)
  case unlock => exact Or.inl (unvisited_of_update (by rintro _ ⟨⟩) hAct)
  all_goals exact Or.inl ⟨rest, hAct, fun _ => id⟩

theorem Listed.owner_of_unvisited (hL : Listed s) (h : (s.act j).unvisited = some rest) :
    s.owner = some j := by
  obtain ⟨round, hRound, _⟩ := Act.round_of_unvisited h
  exact (hL.holder j).mpr (by rw [hRound]; rfl)

/-- **No shadow thread that is still to be visited finishes**, if broadcasts begin only
while none does. The registry is locked from then on, so that nobody else comes to have its
last event. -/
theorem Open.step (hO : Open s) (hB : Boxes s) (hL : Listed s) (hOk : broadcastsToAll s l)
    (h : Step s l s') : Open s' := by
  intro j rest hAct w hw hFin
  rcases h.unvisited hAct with ⟨rest', hBefore, hSub⟩ | ⟨⟨e, hLabel, hBegins⟩, rfl, hSame⟩
  · have hOwner := hL.owner_of_unvisited hBefore
    rcases h.finishing hB hFin with hOld | ⟨k, e, r, hRaises⟩ | hFree
    · exact hO j rest' hBefore w (hSub w hw) hOld
    · -- the event is handed over by the broadcast itself, which does not come again
      have hOne : s.owner = some k := (hL.holder k).mpr (by rw [hRaises]; rfl)
      obtain rfl : j = k := Option.some.inj (hOwner.symm.trans hOne)
      rw [hRaises] at hBefore
      cases hBefore
      have hNodup := hL.round j (w :: rest') (by rw [hRaises]; rfl)
      exact (List.nodup_cons.mp hNodup).1 (hSub w hw)
    · cases hFree.symm.trans hOwner
  · exact hOk j e hLabel hBegins w hw (hSame w hFin)

/-- A thread that hands an event to a shadow thread waits for nothing but this one, or for a
thread that is at its mailbox. -/
theorem step_of_signals {rest : Option (List Nat)} (hB : Boxes s)
    (hAct : s.act j = .signals w e rest) (hStays : s.place w = .loop ∨ s.place w = .waits ∨
      s.place w = .copies ∨ ∃ e', s.place w = .handles e') :
    ∃ l s', Step s l s' ∧
      (l = .sender j ∨ l = .shadow w ∨ ∃ k, l = .sender k ∧ (s.act k).hands = some w) := by
  rcases hStays with hPlace | hPlace | hPlace | ⟨e', hPlace⟩
  · exact ⟨.shadow w, _, .ready hPlace, Or.inr (Or.inl rfl)⟩
  -- the shadow thread waits: someone has the permit, or it is there to take
  · by_cases hTaken : ∃ k, (s.act k).hands = some w
    · obtain ⟨k, hk⟩ := hTaken
      have hSem := (hB.taken k w hk).2.2
      have hLabel : ∃ k', Label.sender k = .sender k' ∧ (s.act k').hands = some w := ⟨k, rfl, hk⟩
      cases hAct' : s.act k with
      | fills v e' rest' => exact ⟨.sender k, _, .fill hAct', Or.inr (Or.inr hLabel)⟩
      | raises v e' rest' =>
        obtain rfl : v = w := by simpa [hAct', Act.hands] using hk
        exact ⟨.sender k, _, .raise hAct' hSem, Or.inr (Or.inr hLabel)⟩
      | _ => simp [hAct', Act.hands] at hk
    -- nobody has it
    · have hOne := hB.waited w hPlace fun k hk => hTaken ⟨k, hk⟩
      by_cases hSem : 0 < s.sem2 w
      · exact ⟨.sender j, _, .wait hAct hSem, Or.inl rfl⟩
      · exact ⟨.shadow w, _, .receive hPlace (by omega), Or.inr (Or.inl rfl)⟩
  · exact ⟨.shadow w, _, .copy hPlace, Or.inr (Or.inl rfl)⟩
  · exact ⟨.shadow w, _, .handle hPlace, Or.inr (Or.inl rfl)⟩

/-- A shadow thread that does not finish is in its loop. -/
theorem stays_of_not_finishing (hNot : (s.place w).finishing = false) :
    s.place w = .loop ∨ s.place w = .waits ∨ s.place w = .copies ∨ ∃ e', s.place w = .handles e' := by
  cases hPlace : s.place w
  case loop => exact Or.inl rfl
  case waits => exact Or.inr (Or.inl rfl)
  case copies => exact Or.inr (Or.inr (Or.inl rfl))
  case handles e' => exact Or.inr (Or.inr (Or.inr ⟨e', rfl⟩))
  all_goals
    rw [hPlace] at hNot
    cases hNot

theorem enabled_of_signals {rest : Option (List Nat)} (hB : Boxes s)
    (hAct : s.act j = .signals w e rest) (hNot : ¬ Finishing s w) : Enabled s := by
  have hStays := stays_of_not_finishing (Bool.eq_false_iff.mpr fun h => hNot (Or.inl h))
  obtain ⟨l, s', hStep, hLabel⟩ := step_of_signals hB hAct hStays
  refine ⟨l, s', ?_, hStep⟩
  rcases hLabel with rfl | rfl | ⟨k, rfl, _⟩ <;> rfl

/-- The holder of the mutex, or the shadow thread it waits for, can go on. -/
theorem enabled_of_owner (hB : Boxes s) (hL : Listed s) (hO : Open s) (hOwner : s.owner = some j) :
    Enabled s := by
  have hRound := (hL.holder j).mp hOwner
  cases hAct : s.act j
  case visits e rest =>
    cases rest with
    | nil => exact ⟨.sender j, _, rfl, .unlock hAct⟩
    | cons w rest => exact ⟨.sender j, _, rfl, .visit hAct⟩
  case signals w e rest =>
    cases rest with
    | none =>
      rw [hAct] at hRound
      cases hRound
    | some rest =>
      -- the thread it visits is one of its round, and does not finish
      have hNot := hO j (w :: rest) (by rw [hAct]; rfl) w List.mem_cons_self
      exact enabled_of_signals hB hAct hNot
  case fills w e rest => exact ⟨.sender j, _, rfl, .fill hAct⟩
  case raises w e rest =>
    exact ⟨.sender j, _, rfl, .raise hAct (hB.taken j w (by rw [hAct]; rfl)).2.2⟩
  all_goals
    rw [hAct] at hRound
    cases hRound

theorem listed {ok : State → Label → Prop} (h : Runs.ReachableUnder system ok s) : Listed s :=
  h.invariant_of (fun _ => boxes) (fun _ => listed_initial)
    fun _ _ _ hB hL _ hStep => hL.step hB hStep

theorem opened (h : Runs.ReachableUnder system broadcastsToAll s) : Open s := by
  refine h.invariant_of (fun s hReach => And.intro (boxes hReach) (listed hReach)) (fun s hInit => ?_)
    fun _ _ _ hBL hO hOk hStep => hO.step hBL.1 hBL.2 hOk hStep
  intro j rest hAct
  rw [hInit.act j] at hAct
  cases hAct

/-- **Main result.** Where broadcasts begin only while no registered thread has its last
event or is to get it, a broadcast or an unregistration in progress leaves some thread able
to go on. No new request is needed for this: the step is one of a thread that is inside
already. -/
theorem broadcast_progress (h : Runs.ReachableUnder system broadcastsToAll s)
    (hProgress : InProgress s) : Enabled s := by
  have hL := listed h
  -- a held mutex: its holder goes on; a free one: whoever waits for it
  cases hOwner : s.owner with
  | some j => exact enabled_of_owner (boxes h) hL (opened h) hOwner
  | none =>
    rcases hProgress with ⟨j, e, hAct⟩ | ⟨j, rest, hAct⟩ | ⟨w, hPlace⟩
    · exact ⟨.sender j, _, rfl, .lock hAct hOwner⟩
    · cases hOwner.symm.trans (hL.owner_of_unvisited hAct)
    · exact ⟨.shadow w, _, rfl, .unregister hPlace hOwner⟩

def noThreads : State where
  tid _ := 0
  place _ := .absent
  sem _ := 0
  sem2 _ := 0
  event _ := ⟨0, 0⟩
  registry := []
  owner := none
  act _ := .idle

theorem initial_noThreads : Initial noThreads :=
  ⟨fun _ => rfl, fun _ => ⟨rfl, rfl⟩, rfl, rfl, fun _ => rfl⟩

/-- One shadow thread is registered, and a broadcast begins while it waits for its first
event. -/
theorem broadcast_progress_one : ∃ s : State, s.owner = some 1 ∧ s.registry = [0] ∧ Enabled s := by
  have h0 : Runs.ReachableUnder system broadcastsToAll noThreads := .init initial_noThreads
  have h1 := h0.step nofun (.register (w := 0) 2 rfl rfl nofun)
  have h2 := h1.step nofun (.ready (w := 0) rfl)
  have h3 := h2.step nofun (.requestAll (j := 1) ⟨ThreadEndIntern, 0⟩ rfl)
  refine ⟨_, rfl, rfl, broadcast_progress (h3.step (fun j e _ _ w hw => ?_) (.lock (j := 1) rfl rfl))
    (Or.inr (Or.inl ⟨1, [0], rfl⟩))⟩
  -- nothing is under way to it
  obtain rfl : w = 0 := List.mem_singleton.mp hw
  rintro (h | ⟨h | ⟨_, h⟩, _⟩ | ⟨k, e', hk, _⟩)
  · cases h
  · cases h
  · cases h
  · by_cases hk1 : k = 1
    · subst hk1
      cases hk
    · simp [hk1, noThreads, Act.single] at hk

/-- A broadcast that waits for a shadow thread that waits for the mutex: nobody else is
there to change anything. -/
theorem not_enabled {r : Option (List Nat)} (hOne : s.act j = .signals w e r) (hSem : s.sem2 w = 0)
    (hPlace : s.place w = .leaves) (hOwner : s.owner = some j)
    (hIdle : ∀ k, k ≠ j → s.act k = .idle) (hAbsent : ∀ v, v ≠ w → s.place v = .absent) :
    ¬ Enabled s := by
  rintro ⟨l, s', hInternal, hStep⟩
  have hSender : ∀ k a, s.act k = a → a = .idle ∨ k = j ∧ a = .signals w e r := by
    rintro k _ rfl
    by_cases hkj : k = j
    · exact Or.inr ⟨hkj, hkj ▸ hOne⟩
    · exact Or.inl (hIdle k hkj)
  have hShadow : ∀ v p, s.place v = p → p = .absent ∨ v = w ∧ p = .leaves := by
    rintro v _ rfl
    by_cases hvw : v = w
    · exact Or.inr ⟨hvw, hvw ▸ hPlace⟩
    · exact Or.inl (hAbsent v hvw)
  -- every internal step needs a sender or a shadow thread at another place
  cases hStep
  case request => cases hInternal
  case requestAll => cases hInternal
  case register => cases hInternal
  case unregister hFree => cases hOwner.symm.trans hFree
  case wait hAct hPos =>
    rcases hSender _ _ hAct with hIdle' | ⟨_, hSame⟩
    · cases hIdle'
    · cases hSame
      rw [hSem] at hPos
      cases hPos
  case find hAct _ _ => rcases hSender _ _ hAct with h | ⟨_, h⟩ <;> cases h
  case findNone hAct _ _ => rcases hSender _ _ hAct with h | ⟨_, h⟩ <;> cases h
  case fill hAct => rcases hSender _ _ hAct with h | ⟨_, h⟩ <;> cases h
  case raise hAct _ => rcases hSender _ _ hAct with h | ⟨_, h⟩ <;> cases h
  case raiseFails hAct _ => rcases hSender _ _ hAct with h | ⟨_, h⟩ <;> cases h
  case lock hAct _ => rcases hSender _ _ hAct with h | ⟨_, h⟩ <;> cases h
  case visit hAct => rcases hSender _ _ hAct with h | ⟨_, h⟩ <;> cases h
  case unlock hAct => rcases hSender _ _ hAct with h | ⟨_, h⟩ <;> cases h
  case ready hAt => rcases hShadow _ _ hAt with h | ⟨_, h⟩ <;> cases h
  case receive hAt _ => rcases hShadow _ _ hAt with h | ⟨_, h⟩ <;> cases h
  case copy hAt => rcases hShadow _ _ hAt with h | ⟨_, h⟩ <;> cases h
  case handle hAt => rcases hShadow _ _ hAt with h | ⟨_, h⟩ <;> cases h

/-- A shadow thread handles its `ThreadEnd` and goes to unregister itself, for which it
needs the mutex. A broadcast holds the mutex and waits for the same thread to take the next
event: both wait for ever. -/
theorem broadcast_stuck :
    ¬ ∀ s : State, Runs.Reachable system s → InProgress s → Enabled s := by
  intro hAll
  have h0 : Runs.Reachable system noThreads := .init initial_noThreads
  have h1 := h0.step trivial (.register (w := 0) 2 rfl rfl nofun)
  have h2 := h1.step trivial (.ready (w := 0) rfl)
  have h3 := h2.step trivial (.request (j := 0) ⟨ThreadEnd, 2⟩ rfl)
  have h4 := h3.step trivial (.find (j := 0) (w := 0) rfl rfl rfl)
  have h5 := h4.step trivial (.wait (j := 0) rfl Nat.zero_lt_one)
  have h6 := h5.step trivial (.fill (j := 0) rfl)
  have h7 := h6.step trivial (.raise (j := 0) rfl rfl)
  have h8 := h7.step trivial (.receive (w := 0) rfl Nat.zero_lt_one)
  have h9 := h8.step trivial (.copy (w := 0) rfl)
  have h10 := h9.step trivial (.requestAll (j := 1) ⟨ThreadEndIntern, 0⟩ rfl)
  have h11 := h10.step trivial (.lock (j := 1) rfl rfl)
  have h12 := h11.step trivial (.visit (j := 1) rfl)
  have h13 := h12.step trivial (.handle (w := 0) rfl)
  refine not_enabled (j := 1) (w := 0) rfl rfl rfl rfl (fun k hk => ?_) (fun v hv => ?_)
    (hAll _ h13 (Or.inr (Or.inl ⟨1, [0], rfl⟩)))
  · by_cases hk0 : k = 0
    · subst hk0
      rfl
    · simp [hk, hk0, noThreads]
  · simp [hv, noThreads]

end Pipe

end Concurrit.Model
