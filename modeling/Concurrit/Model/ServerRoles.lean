import Concurrit.Model.Server

/-!
# Concurrit — what the threads of the server do with the pipe

The receiver of the event pipe hands single events over, the one of the control pipe broadcasts
`ThreadEndIntern`, and nobody else does either. So a run of the server is a run of the pipe
(`projected`), with what holds in every run of it.
-/

namespace Concurrit.Model

open Function (update)
open Ipc.EventKind

namespace Server

open Pipe (Event Act)

variable {s s' : State} {l : Label} {p p' : Pipe.State} {e : Event} {j t w : Nat}

/-- An act of the receiver of the event pipe. -/
def receives : Act → Bool
  | .idle | .looksUp _ => true
  | .signals _ _ rest | .fills _ _ rest | .raises _ _ rest => rest.isNone
  | .broadcasts _ | .visits _ _ | .aborted => false

/-- An act of the receiver of the control pipe. -/
def broadcastsEnd : Act → Bool
  | .idle => true
  | .broadcasts e | .visits e _ => e.type = ThreadEndIntern
  | .signals _ e rest | .fills _ e rest | .raises _ e rest =>
    rest.isSome && e.type = ThreadEndIntern
  | .looksUp _ | .aborted => false

/-- A thread that hands over single events goes on to do so. -/
theorem receives_step (hB : Pipe.Boxes p) (h : Pipe.Step p (.sender j) p')
    (hOld : receives (p.act j) = true) : receives (p'.act j) = true := by
  cases h
  case lock hFree hAct | unlock hAct | visit hAct =>
    rw [hAct] at hOld
    cases hOld
  case wait rest hSem hAct =>
    rw [hAct] at hOld
    simpa [receives] using hOld
  case fill rest hAct =>
    rw [hAct] at hOld
    simpa [receives] using hOld
  case raise w e rest hSem hAct =>
    rw [hAct] at hOld
    cases rest with
    | none => simp [Act.next, receives]
    | some rest => cases hOld
  case raiseFails w e rest hSem hAct =>
    rw [(hB.taken j w (by rw [hAct]; rfl)).2.2] at hSem
    cases hSem
  all_goals simp [receives]

/-- A thread that broadcasts goes on to do so. -/
theorem broadcastsEnd_step (hB : Pipe.Boxes p) (h : Pipe.Step p (.sender j) p')
    (hOld : broadcastsEnd (p.act j) = true) : broadcastsEnd (p'.act j) = true := by
  cases h
  case find hAct | findNone hAct =>
    rw [hAct] at hOld
    cases hOld
  case raise w e rest hSem hAct =>
    rw [hAct] at hOld
    cases rest with
    | none => simp [Act.next, broadcastsEnd]
    | some rest => simpa [Act.next, broadcastsEnd] using hOld
  case raiseFails w e rest hSem hAct =>
    rw [(hB.taken j w (by rw [hAct]; rfl)).2.2] at hSem
    cases hSem
  case unlock => simp [broadcastsEnd]
  case lock hFree hAct =>
    rw [hAct] at hOld
    simpa [broadcastsEnd] using hOld
  case visit hAct =>
    rw [hAct] at hOld
    simpa [broadcastsEnd] using hOld
  case wait hSem hAct =>
    rw [hAct] at hOld
    simpa [broadcastsEnd] using hOld
  case fill hAct =>
    rw [hAct] at hOld
    simpa [broadcastsEnd] using hOld

-- ---------------------------------------------------------------------------
-- New shadow threads
-- ---------------------------------------------------------------------------

theorem HandleEvent.create (h : HandleEvent p t p') : CreateShadowThread p t p' := by
  cases h with
  | found hw hTid => exact .again hw hTid
  | creates _ hCreate => exact hCreate

theorem CreateShadowThread.step (h : CreateShadowThread p t p') (hMap : p.owner = none) :
    p' = p ∨ ∃ w, Pipe.Step p (.register w) p' := by
  cases h with
  | new hAbsent hTid => exact Or.inr ⟨_, .register t hAbsent hMap hTid⟩
  | again _ _ => exact Or.inl rfl

theorem CreateShadowThread.act (h : CreateShadowThread p t p') : p'.act = p.act := by
  cases h <;> rfl

-- ---------------------------------------------------------------------------
-- Roles
-- ---------------------------------------------------------------------------

/-- Who hands events over. -/
structure Roles (s : State) : Prop where
  receiver    : receives (s.pipe.act 0) = true
  reading     : ∀ e, s.received = some e → s.pipe.act 0 = .idle
  broadcaster : broadcastsEnd (s.pipe.act 1) = true
  broadcast   : s.control ≠ .broadcasts → s.pipe.act 1 = .idle
  others      : ∀ j, 2 ≤ j → s.pipe.act j = .idle

theorem roles_initial : Roles initial :=
  ⟨rfl, fun _ _ => rfl, rfl, fun _ => rfl, fun _ _ => rfl⟩

/-- A thread that hands events over is one of the receivers. -/
theorem Roles.sender (hR : Roles s) (h : Pipe.Step s.pipe (.sender j) p) : j = 0 ∨ j = 1 := by
  by_contra hOther
  exact h.busy (hR.others j (by omega))

/-- A step that hands nothing over and reads nothing. -/
theorem Roles.of_same (hR : Roles s) (hAct : s'.pipe.act = s.pipe.act)
    (hReceived : ∀ e, s'.received = some e → s.received = some e)
    (hControl : s'.control ≠ .broadcasts → s.control ≠ .broadcasts ∨ s.pipe.act 1 = .idle) :
    Roles s' := by
  refine ⟨hAct ▸ hR.receiver, fun e he => hAct ▸ hR.reading e (hReceived e he),
    hAct ▸ hR.broadcaster, fun h => ?_, fun j hj => hAct ▸ hR.others j hj⟩
  rw [hAct]
  exact (hControl h).elim hR.broadcast id

/-- A receiver hands events over. -/
theorem Roles.of_sender (hR : Roles s) (hB : Pipe.Boxes s.pipe)
    (h : Pipe.Step s.pipe (.sender j) p) : Roles { s with pipe := p } := by
  obtain ⟨a, hAct⟩ := h.act_of_sender
  have hBusy := h.busy
  rcases hR.sender h with rfl | rfl
  · refine ⟨receives_step hB h hR.receiver, fun e he => absurd (hR.reading e he) hBusy, ?_, ?_, ?_⟩
    · show broadcastsEnd (p.act 1) = true
      rw [hAct, Function.update_of_ne (by decide)]
      exact hR.broadcaster
    · show _ → p.act 1 = .idle
      rw [hAct, Function.update_of_ne (by decide)]
      exact hR.broadcast
    · intro k hk
      show p.act k = .idle
      rw [hAct, Function.update_of_ne (by omega)]
      exact hR.others k hk
  · refine ⟨?_, ?_, broadcastsEnd_step hB h hR.broadcaster, fun hc => absurd (hR.broadcast hc) hBusy, ?_⟩
    · show receives (p.act 0) = true
      rw [hAct, Function.update_of_ne (by decide)]
      exact hR.receiver
    · show ∀ e, _ → p.act 0 = .idle
      rw [hAct, Function.update_of_ne (by decide)]
      exact hR.reading
    · intro k hk
      show p.act k = .idle
      rw [hAct, Function.update_of_ne (by omega)]
      exact hR.others k hk

/-- A reply changes what the client gets, and nothing else. -/
theorem reply_frame (s : State) (t : Nat) (a : Pipe.Place) : s.reply t a =
    { s with toClient := (s.reply t a).toClient, continued := (s.reply t a).continued } := by
  cases a
  case handles e =>
    rw [State.reply]
    split <;> rfl
  all_goals rfl

/-- **Step lemma of the roles**: two threads send, the receiver single events and the
control thread broadcasts. -/
theorem Roles.step (hR : Roles s) (hB : Pipe.Boxes s.pipe) (h : Step s l s') : Roles s' := by
  cases h
  case handsOver j p hStep => exact hR.of_sender hB hStep
  case runs w p hStep =>
    rw [reply_frame]
    exact hR.of_same hStep.act_of_shadow (fun _ => id) Or.inl
  case reads e rest _ _ hIdle =>
    exact ⟨hR.receiver, fun _ _ => hIdle, hR.broadcaster, hR.broadcast, hR.others⟩
  case forwards e p hAt _ _ _ _ hHandle =>
    have hAct := hHandle.create.act
    refine ⟨by simp [receives], fun _ h => by simp at h, ?_, ?_, fun k hk => ?_⟩
    · simpa [hAct] using hR.broadcaster
    · simpa [hAct] using hR.broadcast
    · simpa [hAct, show k ≠ 0 by omega] using hR.others k hk
  case startsThread e p _ _ _ _ _ _ hCreate =>
    exact hR.of_same hCreate.act (fun _ h => by cases h) Or.inl
  case ignores => exact hR.of_same rfl (fun _ h => by cases h) Or.inl
  case ends hAt _ =>
    refine ⟨by simpa using hR.receiver, by simpa using hR.reading, by simp [broadcastsEnd],
      fun h => absurd rfl h, fun k hk => ?_⟩
    simpa [show k ≠ 1 by omega] using hR.others k hk
  case broadcast hAt hDone => exact hR.of_same rfl (fun _ => id) fun _ => Or.inr hDone
  case readsRequest hAt => exact hR.of_same rfl (fun _ => id) fun _ => Or.inl (by rw [hAt]; nofun)
  case startsAgain hAt _ => exact hR.of_same rfl (fun _ => id) fun _ => Or.inl (by rw [hAt]; nofun)
  case waitsStart hAt _ => exact hR.of_same rfl (fun _ => id) fun _ => Or.inl (by rw [hAt]; nofun)
  case starts hAt _ => exact hR.of_same rfl (fun _ => id) fun _ => Or.inl (by rw [hAt]; nofun)
  case endsAgain hAt _ _ => exact hR.of_same rfl (fun _ => id) fun _ => Or.inl (by rw [hAt]; nofun)
  case ended hAt _ _ => exact hR.of_same rfl (fun _ => id) fun _ => Or.inl (by rw [hAt]; nofun)
  all_goals exact hR.of_same rfl (fun _ => id) Or.inl

-- ---------------------------------------------------------------------------
-- Runs of the pipe
-- ---------------------------------------------------------------------------

/-- What a condition on the steps of the server says of the hand-overs in them. -/
def Covers (ok : State → Label → Prop) (ok' : Pipe.State → Pipe.Label → Prop) : Prop :=
  (∀ s j, ok s (.sender j) → ok' s.pipe (.sender j)) ∧
    (∀ p w, ok' p (.shadow w)) ∧ (∀ p w, ok' p (.register w)) ∧ ∀ p j, ok' p (.request j)

/-- **A step of the server is no, one or two steps of the pipe.** -/
theorem Step.projects {ok : State → Label → Prop} {ok' : Pipe.State → Pipe.Label → Prop}
    (hCovers : Covers ok ok') (hR : Roles s) (hReach : Runs.ReachableUnder Pipe.system ok' s.pipe)
    (hOk : ok s l) (h : Step s l s') : Runs.ReachableUnder Pipe.system ok' s'.pipe := by
  obtain ⟨hSender, hShadow, hRegister, hRequest⟩ := hCovers
  cases h
  case handsOver j p hStep => exact hReach.step (hSender s j hOk) hStep
  case runs w p hStep =>
    rw [reply_frame]
    exact hReach.step (hShadow _ w) hStep
  case startsThread e p _ _ hMap _ _ _ hCreate =>
    rcases hCreate.step hMap with rfl | ⟨w, hStep⟩
    · exact hReach
    · exact hReach.step (hRegister _ w) hStep
  case forwards e p hAt _ hMap _ _ hHandle =>
    have hCreate := hHandle.create
    have hIdle : p.act 0 = .idle := by
      rw [hCreate.act]
      exact hR.reading e hAt
    have hReach' : Runs.ReachableUnder Pipe.system ok' p := by
      rcases hCreate.step hMap with rfl | ⟨w, hStep⟩
      · exact hReach
      · exact hReach.step (hRegister _ w) hStep
    exact hReach'.step (hRequest p 0) (.request e hIdle)
  case ends hAt _ =>
    have hIdle : s.pipe.act 1 = .idle := hR.broadcast (by rw [hAt]; nofun)
    exact hReach.step (hRequest _ 1) (.requestAll ⟨ThreadEndIntern, 0⟩ hIdle)
  all_goals exact hReach

/-- The pipe inside the server runs by its own steps, so that what holds of it in all runs
holds here. -/
theorem projected {ok : State → Label → Prop} {ok' : Pipe.State → Pipe.Label → Prop}
    (hCovers : Covers ok ok') (h : Runs.ReachableUnder system ok s) :
    Roles s ∧ Runs.ReachableUnder Pipe.system ok' s.pipe := by
  refine h.invariant (P := fun s => Roles s ∧ Runs.ReachableUnder Pipe.system ok' s.pipe) ?_ ?_
  · rintro _ rfl
    exact ⟨roles_initial, .init Pipe.initial_noThreads⟩
  · rintro s l s' ⟨hR, hReach⟩ hOk ⟨_, hStep⟩
    exact ⟨hR.step (Pipe.boxes hReach) hStep, hStep.projects hCovers hR hReach hOk⟩

/-- What holds in every run. -/
structure Shape (s : State) : Prop where
  roles     : Roles s
  boxes     : Pipe.Boxes s.pipe
  listed    : Pipe.Listed s.pipe
  addressed : Pipe.Addressed s.pipe

theorem shape {ok : State → Label → Prop} (h : Runs.ReachableUnder system ok s) : Shape s := by
  have hCovers : Covers ok fun _ _ => True :=
    ⟨fun _ _ _ => trivial, fun _ _ => trivial, fun _ _ => trivial, fun _ _ => trivial⟩
  obtain ⟨hR, hReach⟩ := projected hCovers h
  exact ⟨hR, Pipe.boxes hReach, Pipe.listed hReach, Pipe.addressed hReach⟩

/-- Where tests end between the events, a broadcast comes only to threads that wait for an
event. -/
theorem opened (h : Runs.ReachableUnder system EndsBetween s) : Pipe.Open s.pipe := by
  refine Pipe.opened (projected ⟨fun s j hOk => ?_, fun _ _ => ?_, fun _ _ => ?_, fun _ _ => ?_⟩ h).2
  · intro k e hLabel hAct
    obtain rfl : j = k := by simpa using hLabel
    exact (hOk.1 e hAct).2
  all_goals
    intro _ _ hLabel
    cases hLabel

end Server

end Concurrit.Model
