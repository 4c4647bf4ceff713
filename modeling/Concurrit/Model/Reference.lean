import Concurrit.Model.Protocol

/-!
# Concurrit — who has the reference

A thread has the reference from the exchange that takes the value out to the store
that puts one back. `Locked` says that at most one thread has it, that the reference
then is the lock node, and who the recorded owner is; `Locked.step` that every step
keeps this, a forced lock apart that comes while another thread has the reference.
-/

namespace Concurrit.Model

open Function (update)

namespace Protocol

variable {P Trans : Type} {s s' : State P Trans} {sh sh' : Shared P Trans} {pc pc' : Pc P Trans}
  {t u : Nat} {l : Label}

/-- `EndWithException` for an exception thrown while the thread has the reference. -/
def Call.thrown : Call P Trans → Bool
  | .endWithException _ (some _) => true
  | _ => false

/-- The thread has taken the value out of the reference and not yet put one back. -/
def Pc.holds : Pc P Trans → Bool
  | .acquire c => c.thrown
  | .saw c r => r != .lock || c.thrown
  | .acquired _ r => r != .endNode
  | .evaluated .. => true
  | .unlock .. => true
  | .store .. => true
  | .forced => true
  | _ => false

/-- The thread is the recorded owner of the lock node. -/
def Pc.owns : Pc P Trans → Bool
  | .acquire c => c.thrown
  | .saw c _ => c.thrown
  | .acquired _ r => r != .endNode
  | .evaluated .. => true
  | .unlock .. => true
  | _ => false

/-- A thread that has the reference and exchanges it again sees the lock node. -/
def Pc.Sane : Pc P Trans → Prop
  | .saw c r => c.thrown = true → r = .lock
  | .semWait c | .semSignal c | .retry c => c.thrown = false
  | _ => True

/-- **Mutual exclusion** on the reference. -/
structure Locked (s : State P Trans) : Prop where
  ref   : ∀ t, (s.pc t).holds = true → s.shared.ref = .lock
  one   : ∀ t u, (s.pc t).holds = true → (s.pc u).holds = true → t = u
  owner : ∀ t, s.shared.owner = some t ↔ (s.pc t).owns = true
  sane  : ∀ t, (s.pc t).Sane

/-- At the beginning nobody has the lock. -/
theorem locked_start : Locked (State.start : State P Trans) := by
  have hPc : ∀ t, ((State.start : State P Trans).pc t).holds = false ∧
      ((State.start : State P Trans).pc t).owns = false := by
    intro t
    simp only [State.start]
    split <;> exact ⟨rfl, rfl⟩
  refine ⟨fun t h => ?_, fun t u h => ?_, fun t => ?_, fun t => ?_⟩
  · rw [(hPc t).1] at h
    cases h
  · rw [(hPc t).1] at h
    cases h
  · rw [(hPc t).2]
    simp [State.start]
  · simp only [State.start]
    split <;> trivial

/-- The recorded owner has the reference. -/
theorem Pc.holds_of_owns (h : pc.owns = true) (hSane : pc.Sane) : pc.holds = true := by
  cases pc
  case saw c r =>
    have hThrown : c.thrown = true := h
    simp [Pc.holds, hThrown]
  all_goals first | exact h | rfl

/-- What a step may do to the reference and its owner. -/
structure Orderly (t : Nat) (sh : Shared P Trans) (pc : Pc P Trans) (sh' : Shared P Trans)
    (pc' : Pc P Trans) : Prop where
  /-- who has the reference afterwards has left the lock node in it -/
  ref : pc'.holds = true → sh'.ref = .lock
  /-- the reference is taken from nobody -/
  take : pc'.holds = true → pc.holds = true ∨ sh.ref ≠ .lock
  /-- the lock node is removed only by the thread that has the reference -/
  leave : sh.ref = .lock → sh'.ref = .lock ∨ pc.holds = true
  owner : (sh'.owner = sh.owner ∧ pc'.owns = pc.owns) ∨
    (sh.owner = none ∧ sh'.owner = some t ∧ pc'.owns = true) ∨
    (sh.owner = some t ∧ sh'.owner = none ∧ pc'.owns = false)
  sane : pc'.Sane

/-- An orderly step keeps mutual exclusion. -/
theorem Locked.of_orderly (hL : Locked s) (h : Orderly t s.shared (s.pc t) sh' pc') :
    Locked (s.put t sh' pc') := by
  -- another thread that has the reference has it before and keeps it
  have hOther : ∀ u, u ≠ t → (s.pc u).holds = true → pc'.holds = false ∧ sh'.ref = .lock := by
    intro u hu hHolds
    have hLock := hL.ref u hHolds
    have hNot : (s.pc t).holds = false := by
      rw [← Bool.not_eq_true]
      exact fun ht => hu (hL.one u t hHolds ht)
    refine ⟨?_, ?_⟩
    · rw [← Bool.not_eq_true]
      intro ht
      rcases h.take ht with ht | hNe
      · rw [hNot] at ht
        cases ht
      · exact hNe hLock
    · rcases h.leave hLock with hRef | ht
      · exact hRef
      · rw [hNot] at ht
        cases ht
  refine ⟨fun u hu => ?_, fun u v hu hv => ?_, fun u => ?_, fun u => ?_⟩
  · by_cases hut : u = t
    · subst hut
      exact h.ref (by simpa using hu)
    · rw [State.put_of_ne _ _ _ hut] at hu
      exact (hOther u hut hu).2
  · by_cases hut : u = t
    · subst hut
      by_cases hvt : v = u
      · exact hvt.symm
      · rw [State.put_of_ne _ _ _ hvt] at hv
        simp [(hOther v hvt hv).1] at hu
    · rw [State.put_of_ne _ _ _ hut] at hu
      by_cases hvt : v = t
      · subst hvt
        simp [(hOther u hut hu).1] at hv
      · rw [State.put_of_ne _ _ _ hvt] at hv
        exact hL.one u v hu hv
  · have hOwn := hL.owner u
    by_cases hut : u = t
    · subst hut
      rw [State.put_self, State.put_shared]
      rcases h.owner with ⟨hSame, hOwns⟩ | ⟨_, hOwner, hOwns⟩ | ⟨_, hOwner, hOwns⟩
      · rw [hSame, hOwns]
        exact hOwn
      · simp [hOwner, hOwns]
      · simp [hOwner, hOwns]
    · rw [State.put_of_ne _ _ _ hut, State.put_shared]
      rcases h.owner with ⟨hSame, _⟩ | ⟨hNone, hOwner, _⟩ | ⟨hSome, hOwner, _⟩
      · rw [hSame]
        exact hOwn
      · rw [hNone] at hOwn
        rw [hOwner, ← hOwn]
        simp [Ne.symm hut]
      · rw [hSome] at hOwn
        rw [hOwner, ← hOwn]
        simp [Ne.symm hut]
  · by_cases hut : u = t
    · subst hut
      rw [State.put_self]
      exact h.sane
    · rw [State.put_of_ne _ _ _ hut]
      exact hL.sane u

theorem Call.thrown_of_ofScript {c : Call P Trans} (h : c.ofScript = true) : c.thrown = false := by
  cases c <;> first | rfl | cases h

theorem Call.mode_of_thrown {c : Call P Trans} (h : c.thrown = true) : c.mode = .EXIT_ON_LOCK := by
  cases c <;> first | rfl | cases h

theorem AcquireRefMode.ne_of_exits {m : AcquireRefMode} {r : Ref} (h : m.exits r = true) :
    r ≠ .lock ∧ r ≠ .endNode := by
  constructor <;> rintro rfl <;> cases m <;> simp [AcquireRefMode.exits] at h

theorem Next.pc_idle (k : Next Trans) :
    (k.pc : Pc P Trans).holds = false ∧ (k.pc : Pc P Trans).owns = false ∧
      (k.pc : Pc P Trans).Sane := by
  cases k <;> simp only [Next.pc]
  case ended => split <;> exact ⟨rfl, rfl, trivial⟩
  all_goals exact ⟨rfl, rfl, trivial⟩

theorem caught_idle (live : List Nat) (reason : BacktrackReason) :
    (caught live reason : Pc P Trans).holds = false ∧
      (caught live reason : Pc P Trans).owns = false ∧ (caught live reason : Pc P Trans).Sane := by
  unfold caught
  dsimp only
  split_ifs <;> exact ⟨rfl, rfl, trivial⟩

/-- A step that touches neither the reference nor the lock node. -/
theorem Orderly.idle (hRef : sh'.ref = sh.ref) (hOwner : sh'.owner = sh.owner)
    (hHolds : pc'.holds = pc.holds) (hOwns : pc'.owns = pc.owns)
    (hHas : pc.holds = true → sh.ref = .lock) (hSane : pc'.Sane) : Orderly t sh pc sh' pc' where
  ref h := hRef ▸ hHas (hHolds ▸ h)
  take h := Or.inl (hHolds ▸ h)
  leave h := Or.inl (hRef ▸ h)
  owner := Or.inl ⟨hOwner, hOwns⟩
  sane := hSane

/-- A step that puts a value back into the reference. -/
theorem Orderly.putBack (hOwner : sh'.owner = sh.owner) (hHas : pc.holds = true)
    (hHolds : pc'.holds = false) (hOwns : pc'.owns = pc.owns) (hSane : pc'.Sane) : Orderly t sh pc sh' pc' where
  ref h := by simp [hHolds] at h
  take h := by simp [hHolds] at h
  leave _ := Or.inr hHas
  owner := Or.inl ⟨hOwner, hOwns⟩
  sane := hSane

/-- No assertion fails where the reference is locked properly; `endTimeout` is no assertion
about the reference. -/
theorem Does.not_aborted (h : Does t sh pc l sh' pc') (hRef : pc.holds = true → sh.ref = .lock)
    (hOwner : sh.owner = some t ↔ pc.owns = true)
    (hMine : pc.holds = true → sh.owner = none ∨ sh.owner = some t) (hSane : pc.Sane)
    (hAborted : pc' = .aborted) : l = .timeout := by
  cases h
  case doubleLock c hOwn hMode => exact absurd (Call.mode_of_thrown (hOwner.mp hOwn)) hMode
  case onLockFails c r hExits hNot =>
    have hNe := (AcquireRefMode.ne_of_exits hExits).1
    rcases hMine (by simp [Pc.holds, hNe]) with hNone | hOwn
    · exact absurd hNone hNot
    · exact absurd (hSane (hOwner.mp hOwn)) hNe
  case unlockFails v k hNot => exact absurd ⟨hRef rfl, hOwner.mpr rfl⟩ hNot
  case forcedFails hMain hNot =>
    rcases hMine rfl with hNone | hOwn
    · exact absurd hNone hNot
    · cases hOwner.mp hOwn
  case endTimeout => rfl
  case signal k =>
    cases k
    case ended =>
      simp only [Next.pc] at hAborted
      split at hAborted <;> cases hAborted
    all_goals cases hAborted
  case caught =>
    unfold Protocol.caught at hAborted
    dsimp only at hAborted
    split_ifs at hAborted
  case broadcast => split at hAborted <;> cases hAborted
  all_goals cases hAborted

/-- Every step is orderly where the reference is locked properly, the forced lock apart. -/
theorem Does.orderly (h : Does t sh pc l sh' pc') (hRef : pc.holds = true → sh.ref = .lock)
    (hOwner : sh.owner = some t ↔ pc.owns = true)
    (hMine : pc.holds = true → sh.owner = none ∨ sh.owner = some t) (hSane : pc.Sane)
    (hForce : l = .force → sh.ref ≠ .lock) : Orderly t sh pc sh' pc' := by
  have hAborts := h.not_aborted hRef hOwner hMine hSane
  cases h
  case exchange c =>
    refine ⟨fun _ => rfl, ?_, fun _ => Or.inl rfl, Or.inl ⟨rfl, rfl⟩, fun hThrown => ?_⟩
    · simp only [Pc.holds, Bool.or_eq_true, bne_iff_ne]
      exact Or.symm
    · exact hRef hThrown
  case yieldLock c hNot =>
    have hThrown : c.thrown = false := by
      rw [← Bool.not_eq_true]
      exact fun h => hNot (hOwner.mpr h)
    exact .idle rfl rfl (by simp [Pc.holds, hThrown]) (by simp [Pc.owns, hThrown]) hRef hThrown
  case relock c hOwn hMode =>
    have hThrown : c.thrown = true := hOwner.mp hOwn
    exact .idle rfl rfl (by simp [Pc.holds, hThrown]) (by simp [Pc.owns, hThrown]) hRef trivial
  case doubleLock => cases hAborts rfl
  case seeEnd c =>
    have hThrown : c.thrown = false := by
      rw [← Bool.not_eq_true]
      exact fun h => by cases hSane h
    exact .putBack rfl rfl rfl (by simp [Pc.owns, hThrown]) trivial
  case onLock c r hExits hNone =>
    have hNe := AcquireRefMode.ne_of_exits hExits
    have hHolds : (Pc.saw c r).holds = true := by simp [Pc.holds, hNe.1]
    have hAcquired : (Pc.acquired c r).owns = true := by simp [Pc.owns, hNe.2]
    exact ⟨fun _ => hRef hHolds, fun _ => Or.inl hHolds, fun h => Or.inl h,
      Or.inr (Or.inl ⟨hNone, rfl, hAcquired⟩), trivial⟩
  case onLockFails => cases hAborts rfl
  case putBack c r hExits hLock hEnd =>
    have hThrown : c.thrown = false := by
      rw [← Bool.not_eq_true]
      exact fun h => hLock (hSane h)
    exact .putBack rfl (by simp [Pc.holds, hLock]) rfl (by simp [Pc.owns, hThrown]) hThrown
  case semWait c hSem => exact .idle rfl rfl rfl rfl hRef hSane
  case semSignal c => exact .idle rfl rfl rfl rfl hRef hSane
  case retry c =>
    have hThrown : c.thrown = false := hSane
    exact .idle rfl rfl (by simp [Pc.holds, hThrown]) (by simp [Pc.owns, hThrown]) hRef trivial
  case unlock v k hLock hOwn =>
    exact ⟨fun _ => hLock, fun _ => Or.inl rfl, fun h => Or.inl h, Or.inr (Or.inr ⟨hOwn, rfl, rfl⟩),
      trivial⟩
  case unlockFails => cases hAborts rfl
  case store v k => exact .putBack rfl rfl rfl rfl trivial
  case force hMain =>
    exact ⟨fun _ => rfl, fun _ => Or.inr (hForce rfl), fun _ => Or.inl rfl, Or.inl ⟨rfl, rfl⟩, trivial⟩
  case forced hMain hNone =>
    exact ⟨fun _ => hRef rfl, fun _ => Or.inl rfl, fun h => Or.inl h,
      Or.inr (Or.inl ⟨hNone, rfl, rfl⟩), trivial⟩
  case forcedFails => cases hAborts rfl
  case endedWithSuccess r reason hMain hEnd =>
    have hHolds : (Pc.acquired (Call.endWithSuccess reason : Call P Trans) r).holds = true := by
      simpa [Pc.holds] using hEnd
    exact .idle rfl rfl hHolds.symm (by simpa [Pc.owns] using hEnd) hRef trivial
  case addException r reason thrown hEnd =>
    have hHolds : (Pc.acquired (Call.endWithException reason thrown : Call P Trans) r).holds = true := by
      simpa [Pc.holds] using hEnd
    exact .idle rfl rfl hHolds.symm (by simpa [Pc.owns] using hEnd) hRef trivial
  case signal k =>
    obtain ⟨hHolds, hOwns, hSane'⟩ := Next.pc_idle (P := P) k
    exact .idle rfl rfl hHolds hOwns hRef hSane'
  case caught =>
    exact .idle rfl rfl (caught_idle _ _).1 (caught_idle _ _).2.1 hRef (caught_idle _ _).2.2
  case broadcast =>
    exact .idle rfl rfl (by split <;> rfl) (by split <;> rfl) hRef (by split <;> trivial)
  all_goals exact .idle rfl rfl rfl rfl hRef trivial

/-- The recorded owner, if any, is the thread that has the reference. -/
theorem Locked.owner_mine (hL : Locked s) (hHolds : (s.pc t).holds = true) :
    s.shared.owner = none ∨ s.shared.owner = some t := by
  cases hOwner : s.shared.owner with
  | none => exact Or.inl rfl
  | some u =>
    have hu := Pc.holds_of_owns ((hL.owner u).mp hOwner) (hL.sane u)
    exact Or.inr (congrArg some (hL.one u t hu hHolds))

theorem Locked.not_aborted (hL : Locked s) (h : Does t s.shared (s.pc t) l sh' pc')
    (hAborted : pc' = .aborted) : l = .timeout :=
  h.not_aborted (hL.ref t) (hL.owner t) hL.owner_mine (hL.sane t) hAborted

/-- **Step lemma** for mutual exclusion. -/
theorem Locked.step (hL : Locked s) (h : Step s (t, l) s')
    (hForce : l = .force → s.shared.ref ≠ .lock) : Locked s' := by
  cases h with
  | mk hDoes =>
    exact hL.of_orderly
      (hDoes.orderly (hL.ref t) (hL.owner t) hL.owner_mine (hL.sane t) hForce)

end Protocol

end Concurrit.Model
