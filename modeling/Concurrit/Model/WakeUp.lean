import Concurrit.Model.Constraints
import Concurrit.Model.Exclusion

/-!
# Concurrit — waiting for a node to be consumed

A thread whose transition is not let through decides to wait while it has the
reference: it locks the mutex, puts the node back and goes to sleep on the condition
variable later. All nodes share one mutex and one condition variable, so every
broadcast wakes every sleeper. What a broadcast cannot reach is a thread that has
decided to wait and does not sleep yet, and neither the thread that consumes the node
nor `EndWithException` takes the mutex for its broadcast.

`EndWithSuccess` does not broadcast at all. That loses no wake-up: at the end of the
script every node has been consumed (`Patient.success`), and in all other cases
`RunTestCase` goes on to `EndWithException`.
-/

namespace Concurrit.Model

open Function (update)

namespace Protocol

variable {P Trans : Type} {s s' : State P Trans} {sh sh' : Shared P Trans} {pc pc' : Pc P Trans}
  {t u n m : Nat} {l : Label} {o : Offer Trans}

-- ---------------------------------------------------------------------------
-- Sleepers
-- ---------------------------------------------------------------------------

def Next.waits : Next Trans → Option Nat
  | .wait _ n => some n
  | _ => none

/-- The node a thread has decided to wait for, before it is asleep. -/
def Pc.fallsAsleep : Pc P Trans → Option Nat
  | .unlock _ k | .store _ k | .signal k => k.waits
  | .condWait _ n => some n
  | _ => none

/-- The thread is asleep for a node and not woken up by a broadcast. -/
def Sleeps (s : State P Trans) (t n : Nat) : Prop :=
  ∃ o, s.pc t = .asleep o n s.shared.casts

/-- No thread sleeps for a node that is consumed; the broadcast comes with it. -/
def Awake (s : State P Trans) : Prop :=
  ∀ t, ∀ n ∈ s.shared.consumed, ¬ Sleeps s t n

/-- No thread sleeps for any node, once the broadcast for the end node is done. -/
def AwakeAtEnd (s : State P Trans) : Prop :=
  s.shared.herald = none → ∀ t n, ¬ Sleeps s t n

/-- No thread is about to fall asleep for a node when it is consumed, or for any node when the
thread that has stored the end node broadcasts; and no lock is forced from a thread. -/
structure signalsAll (s : State P Trans) (i : Nat × Label) : Prop where
  consume   : ∀ n, i.2 = .consume n → ∀ u, (s.pc u).fallsAsleep ≠ some n
  broadcast : s.pc i.1 = .broadcast → s.shared.herald = some i.1 →
    ∀ u n, (s.pc u).fallsAsleep ≠ some n
  force     : i.2 = .force → s.shared.ref ≠ .lock

/-- No thread sleeps or is about to. -/
def Silent (s : State P Trans) : Prop :=
  ∀ u n, (s.pc u).fallsAsleep ≠ some n ∧ ¬ Sleeps s u n

theorem Next.pc_fallsAsleep (k : Next Trans) : (k.pc : Pc P Trans).fallsAsleep = k.waits := by
  cases k
  case ended =>
    simp only [Next.pc]
    split <;> rfl
  all_goals rfl

theorem caught_fallsAsleep (live : List Nat) (reason : BacktrackReason) :
    (caught live reason : Pc P Trans).fallsAsleep = none := by
  unfold caught
  dsimp only
  split_ifs <;> rfl

/-- A thread decides to wait only with a node it has evaluated its transition on. -/
theorem Does.fallsAsleep (h : Does t sh pc l sh' pc') (hWaits : pc'.fallsAsleep = some n) :
    pc.fallsAsleep = some n ∨ ∃ o, pc = .evaluated o n false false := by
  cases h
  case signal k => exact Or.inl ((Next.pc_fallsAsleep k).symm.trans hWaits)
  case caught => cases (caught_fallsAsleep _ _).symm.trans hWaits
  case consume take => cases take <;> cases hWaits
  case broadcast => split at hWaits <;> cases hWaits
  case lockMutex o m hFree =>
    obtain rfl : m = n := Option.some.inj hWaits
    exact Or.inr ⟨o, rfl⟩
  all_goals first | exact Or.inl hWaits | cases hWaits

/-- A thread falls asleep for the node it has decided to wait for, after the broadcasts so
far. -/
theorem Does.asleep {c : Nat} (h : Does t sh pc l sh' pc') (hPc' : pc' = .asleep o n c) :
    pc.fallsAsleep = some n ∧ c = sh.casts := by
  cases h
  case condWait =>
    cases hPc'
    exact ⟨rfl, rfl⟩
  case signal k =>
    cases k
    case ended =>
      simp only [Next.pc] at hPc'
      split at hPc' <;> cases hPc'
    all_goals cases hPc'
  case caught =>
    unfold Protocol.caught at hPc'
    dsimp only at hPc'
    split_ifs at hPc'
  case broadcast => split at hPc' <;> cases hPc'
  all_goals cases hPc'

theorem Does.casts_le (h : Does t sh pc l sh' pc') : sh.casts ≤ sh'.casts := by
  cases h
  case consume => exact Nat.le_succ _
  case broadcast => exact Nat.le_succ _
  all_goals exact Nat.le_refl _

/-- A thread that sleeps after a step slept before it, or has been about to. -/
theorem Does.sleeps (h : Does t s.shared (s.pc t) l sh' pc')
    (hCasts : ∀ u o n c, s.pc u = .asleep o n c → c ≤ s.shared.casts)
    (hSleeps : Sleeps (s.put t sh' pc') u n) :
    (Sleeps s u n ∧ sh'.casts = s.shared.casts) ∨ u = t ∧ (s.pc t).fallsAsleep = some n := by
  obtain ⟨o, hPc⟩ := hSleeps
  by_cases hut : u = t
  · subst hut
    rw [State.put_self] at hPc
    exact Or.inr ⟨rfl, (h.asleep hPc).1⟩
  · rw [State.put_of_ne _ _ _ hut, State.put_shared] at hPc
    have hSame := Nat.le_antisymm (hCasts u o n _ hPc) h.casts_le
    exact Or.inl ⟨⟨o, hSame ▸ hPc⟩, hSame⟩

/-- A thread that is about to fall asleep after a step was before it, or decides to now. -/
theorem Does.waits (h : Does t s.shared (s.pc t) l sh' pc')
    (hWaits : ((s.put t sh' pc').pc u).fallsAsleep = some n) :
    (s.pc u).fallsAsleep = some n ∨ u = t ∧ ∃ o, s.pc t = .evaluated o n false false := by
  by_cases hut : u = t
  · subst hut
    rw [State.put_self] at hWaits
    exact (h.fallsAsleep hWaits).imp_right fun hPc => ⟨rfl, hPc⟩
  · rw [State.put_of_ne _ _ _ hut] at hWaits
    exact Or.inl hWaits

/-- A step that wakes everyone up leaves silence, unless a thread is about to sleep. -/
theorem Silent.of_broadcast (h : Does t s.shared (s.pc t) l sh' pc')
    (hCasts : ∀ u o n c, s.pc u = .asleep o n c → c ≤ s.shared.casts)
    (hNone : ∀ u n, (s.pc u).fallsAsleep ≠ some n) (hMore : sh'.casts ≠ s.shared.casts)
    (hNot : ∀ o n, s.pc t ≠ .evaluated o n false false) : Silent (s.put t sh' pc') := by
  refine fun u n => ⟨fun hWaits => ?_, fun hSleeps => ?_⟩
  · rcases h.waits hWaits with hOld | ⟨_, o, hPc⟩
    · exact hNone u n hOld
    · exact hNot o n hPc
  · rcases h.sleeps hCasts hSleeps with ⟨_, hSame⟩ | ⟨_, hWaits⟩
    · exact hMore hSame
    · exact hNone t n hWaits

/-- Silence is kept by a thread that does not decide to wait. -/
theorem Silent.step (hS : Silent s) (h : Does t s.shared (s.pc t) l sh' pc')
    (hCasts : ∀ u o n c, s.pc u = .asleep o n c → c ≤ s.shared.casts)
    (hNot : ∀ o n, s.pc t ≠ .evaluated o n false false) : Silent (s.put t sh' pc') := by
  refine fun u n => ⟨fun hWaits => ?_, fun hSleeps => ?_⟩
  · rcases h.waits hWaits with hOld | ⟨_, o, hPc⟩
    · exact (hS u n).1 hOld
    · exact hNot o n hPc
  · rcases h.sleeps hCasts hSleeps with ⟨hOld, _⟩ | ⟨_, hWaits⟩
    · exact (hS u n).2 hOld
    · exact (hS t n).1 hWaits

-- ---------------------------------------------------------------------------
-- The end node
-- ---------------------------------------------------------------------------

/-- The end node has been stored. -/
def Stored (s : State P Trans) : Prop :=
  s.shared.ref = .endNode ∨ ∃ u c, s.pc u = .saw c .endNode

theorem Stored.ended (h : Stored s) : Ended s :=
  h.imp id fun ⟨u, _, hPc⟩ => ⟨u, by rw [hPc]; rfl⟩

/-- The end node comes into the reference from a thread that stores it or has just seen it.
-/
theorem Does.ref_endNode (h : Does t sh pc l sh' pc') (hRef : sh'.ref = .endNode) :
    sh.ref = .endNode ∨ (∃ c, pc = .saw c .endNode) ∨ ∃ k, pc = .store .endNode k := by
  cases h
  case exchange => cases hRef
  case seeEnd c => exact Or.inr (Or.inl ⟨c, rfl⟩)
  case putBack hEnd => exact absurd hRef hEnd
  case store k =>
    obtain rfl := hRef
    exact Or.inr (Or.inr ⟨k, rfl⟩)
  case force => cases hRef
  all_goals exact Or.inl hRef

/-- Who sees the end node has found it in the reference. -/
theorem Does.saw_endNode {c : Call P Trans} (h : Does t sh pc l sh' pc')
    (hPc' : pc' = .saw c .endNode) : sh.ref = .endNode := by
  cases h
  case exchange =>
    injection hPc'
  case signal k =>
    cases k
    case ended =>
      simp only [Next.pc] at hPc'
      split at hPc' <;> cases hPc'
    all_goals cases hPc'
  case caught =>
    unfold Protocol.caught at hPc'
    dsimp only at hPc'
    split_ifs at hPc'
  case broadcast => split at hPc' <;> cases hPc'
  all_goals cases hPc'

/-- The end node has been stored before the step, or is stored by it. -/
theorem Does.stored (h : Does t s.shared (s.pc t) l sh' pc') (hStored : Stored (s.put t sh' pc')) :
    Stored s ∨ ∃ k, s.pc t = .store .endNode k := by
  rcases hStored with hRef | ⟨u, c, hPc⟩
  · rcases h.ref_endNode hRef with hOld | ⟨c, hPc⟩ | hStore
    · exact Or.inl (Or.inl hOld)
    · exact Or.inl (Or.inr ⟨t, c, hPc⟩)
    · exact Or.inr hStore
  · by_cases hut : u = t
    · subst hut
      rw [State.put_self] at hPc
      exact Or.inl (Or.inl (h.saw_endNode hPc))
    · rw [State.put_of_ne _ _ _ hut] at hPc
      exact Or.inl (Or.inr ⟨u, c, hPc⟩)

/-- The broadcast for the end node is done only by the thread that owes it. No broadcast is owed
where the script has come to its end. -/
theorem Does.herald (h : Does t sh pc l sh' pc') (hDone : sh'.herald = none) :
    (sh.herald = none ∧ ∀ k, pc ≠ .store .endNode k) ∨ (∃ k, pc = .store .endNode k ∧ k.heralds = false) ∨
      pc = .broadcast ∧ sh.herald = some t ∧ sh'.casts = sh.casts + 1 := by
  cases h
  case store v k =>
    by_cases hEnd : v = .endNode
    · subst hEnd
      refine Or.inr (Or.inl ⟨k, rfl, ?_⟩)
      rw [← Bool.not_eq_true]
      intro hHeralds
      simp [Shared.heraldAfter, hHeralds] at hDone
    · simp only [Shared.heraldAfter, if_neg hEnd] at hDone
      refine Or.inl ⟨hDone, fun k' hPc => ?_⟩
      injection hPc with hv
      exact hEnd hv
  case broadcast =>
    by_cases hMine : sh.herald = some t
    · exact Or.inr (Or.inr ⟨rfl, hMine, rfl⟩)
    · simp only [if_neg hMine] at hDone
      exact Or.inl ⟨hDone, nofun⟩
  all_goals exact Or.inl ⟨hDone, nofun⟩

-- ---------------------------------------------------------------------------
-- The end of the script
-- ---------------------------------------------------------------------------

def Call.succeeds : Call P Trans → Bool
  | .endWithSuccess reason => reason == .success
  | _ => false

/-- The script has come to its end, and `EndWithSuccess` is on its way to the end node. -/
def Pc.succeeds : Pc P Trans → Bool
  | .acquire c | .saw c _ | .semWait c | .semSignal c | .retry c | .acquired c _ => c.succeeds
  | .unlock _ k | .store _ k | .signal k => !k.heralds
  | _ => false

theorem Next.pc_succeeds (k : Next Trans) : (k.pc : Pc P Trans).succeeds = false := by
  cases k
  case ended =>
    simp only [Next.pc]
    split <;> rfl
  all_goals rfl

theorem caught_succeeds (live : List Nat) (reason : BacktrackReason) :
    (caught live reason : Pc P Trans).succeeds = false := by
  unfold caught
  dsimp only
  split_ifs <;> first | rfl | skip
  all_goals cases reason <;> first | rfl | contradiction

/-- Only the end of the test case leads there. -/
theorem Does.succeeds (h : Does t sh pc l sh' pc') (hAfter : pc'.succeeds = true) :
    pc.succeeds = true ∨ t = main ∧ pc = .running := by
  cases h
  case testCaseEnds hMain _ => exact Or.inr ⟨hMain, rfl⟩
  case signal k => simp [Next.pc_succeeds] at hAfter
  case caught => simp [caught_succeeds] at hAfter
  case consume take => cases take <;> cases hAfter
  case broadcast => split at hAfter <;> cases hAfter
  case endedWithSuccess r reason _ _ =>
    refine Or.inl ?_
    simpa [Pc.succeeds, Next.heralds, Call.succeeds] using hAfter
  all_goals first | exact Or.inl hAfter | cases hAfter

-- ---------------------------------------------------------------------------
-- The node the main thread waits for
-- ---------------------------------------------------------------------------

/-- The thread has taken the current node out and ends the execution instead of putting it back. -/
def Pc.throws : Pc P Trans → Bool
  | .acquire c | .saw c _ => c.thrown
  | .acquired c r => c.thrown && r != .endNode
  | _ => false

/-- Who is about to throw has the reference. -/
theorem Pc.holds_of_throws (h : pc.throws = true) : pc.holds = true := by
  cases pc
  case acquire c => exact h
  case saw c r =>
    have hThrown : c.thrown = true := h
    simp [Pc.holds, hThrown]
  case acquired c r => exact (Bool.and_eq_true_iff.mp h).2
  all_goals cases h

/-- The thread that throws puts the end node in. -/
theorem Does.throws (h : Does t sh pc l sh' pc') (hThrows : pc.throws = true)
    (hOwner : sh.owner = some t ↔ pc.owns = true) (hSane : pc.Sane)
    (hAborts : pc' = .aborted → l = .timeout) : pc'.throws = true ∨ pc'.carriesEnd = true := by
  cases h
  case exchange c => exact Or.inl hThrows
  case yieldLock c hNot => exact absurd (hOwner.mpr hThrows) hNot
  case relock c _ _ =>
    have hThrown : c.thrown = true := hThrows
    exact Or.inl (by simp [Pc.throws, hThrown])
  case doubleLock => cases hAborts rfl
  case seeEnd => cases hSane hThrows
  case onLock c r hExits _ =>
    exact absurd (hSane hThrows) (AcquireRefMode.ne_of_exits hExits).1
  case onLockFails => cases hAborts rfl
  case putBack hLock _ => exact absurd (hSane hThrows) hLock
  case refused c _ hScript _ _ _ =>
    exact absurd hThrows (by simp [Pc.throws, Call.thrown_of_ofScript hScript])
  case addException => exact Or.inr rfl
  case scriptEnded c _ hScript _ _ =>
    exact absurd hThrows (by simp [Pc.throws, Call.thrown_of_ofScript hScript])
  case addExceptionEnded => exact absurd hThrows (by simp [Pc.throws])
  all_goals exact Bool.noConfusion hThrows

/-- A current node stays current until it is consumed, or the execution ends. -/
theorem Does.node_leaves (h : Does t sh pc l sh' pc') (hNode : pc.node = some n ∨ sh.ref = .full n)
    (hRef : pc.holds = true → sh.ref = .lock) (hAborts : pc' = .aborted → l = .timeout) :
    (pc'.node = some n ∨ sh'.ref = .full n) ∨ n ∈ sh'.consumed ∨ pc'.carriesEnd = true ∨
      pc'.throws = true ∨ l = .force := by
  -- a thread that has the reference leaves no node in it
  have hMine : pc.holds = true → pc.node = some n := fun hHolds =>
    hNode.resolve_right fun hFull => by cases (hRef hHolds).symm.trans hFull
  cases h
  case exchange c =>
    rcases hNode with hNode | hFull
    · cases hNode
    · exact Or.inl (Or.inl (Pc.node_saw.mpr hFull))
  case seeEnd c => cases hMine rfl
  case onLock c r hExits _ =>
    exact Or.inl (hNode.imp_left fun h => Pc.node_acquired.mpr (Pc.node_saw.mp h))
  case onLockFails => cases hAborts rfl
  case putBack c r _ hLock _ =>
    exact Or.inl (Or.inr (Pc.node_saw.mp (hMine (by simp [Pc.holds, hLock]))))
  case evaluationThrows => exact Or.inr (Or.inr (Or.inr (Or.inl rfl)))
  case consume o m take =>
    obtain rfl : m = n := Option.some.inj (hMine rfl)
    exact Or.inr (Or.inl List.mem_cons_self)
  case unlock v k _ _ =>
    exact Or.inl (hNode.imp_left fun h => Pc.node_store.mpr (Pc.node_unlock.mp h))
  case unlockFails => cases hAborts rfl
  case store v k => exact Or.inl (Or.inr (Pc.node_store.mp (hMine rfl)))
  case force => exact Or.inr (Or.inr (Or.inr (Or.inr rfl)))
  case endedWithSuccess => exact Or.inr (Or.inr (Or.inl rfl))
  case addException => exact Or.inr (Or.inr (Or.inl rfl))
  all_goals first
    | exact Or.inl (hNode.imp id id)
    | exact Or.inl (Or.inr (hNode.resolve_left (fun h => by cases h)))

/-- The main thread waits for a node only after it has submitted it. -/
theorem Does.awaits_back (h : Does t sh pc l sh' pc') (hAwaits : pc'.awaits = some n) :
    pc.awaits = some n ∨ Submits t sh pc sh' pc' n := by
  cases h
  case submitted kind pred hMain =>
    obtain rfl : sh.nodes.length = n := Option.some.inj hAwaits
    exact Or.inr ⟨hMain, ⟨kind, pred, rfl⟩, rfl, ⟨kind, pred, rfl⟩, ⟨rfl, rfl⟩, rfl⟩
  case signal k =>
    cases k
    case await => exact Or.inl hAwaits
    case ended =>
      simp only [Next.pc] at hAwaits
      split at hAwaits <;> cases hAwaits
    all_goals cases hAwaits
  case caught =>
    unfold Protocol.caught at hAwaits
    dsimp only at hAwaits
    split_ifs at hAwaits <;> cases hAwaits
  case consume take => cases take <;> cases hAwaits
  case broadcast => split at hAwaits <;> cases hAwaits
  all_goals first | exact Or.inl hAwaits | cases hAwaits

-- ---------------------------------------------------------------------------
-- No wake-up is lost
-- ---------------------------------------------------------------------------

/-- What becomes of a node the main thread waits for. -/
def Resolved (s : State P Trans) (n : Nat) : Prop :=
  n ∈ s.shared.consumed ∨ Current s n ∨ Ended s ∨ ∃ t, (s.pc t).throws = true

/-- What keeps the threads awake. -/
structure Waking (s : State P Trans) : Prop where
  locked     : Locked s
  casts      : ∀ t o n c, s.pc t = .asleep o n c → c ≤ s.shared.casts
  unconsumed : ∀ n, Current s n → n ∉ s.shared.consumed
  awake      : ∀ t, ∀ n ∈ s.shared.consumed, (s.pc t).fallsAsleep ≠ some n ∧ ¬ Sleeps s t n
  resolved   : (s.pc main).inScript = true → ∀ n, (s.pc main).awaits = some n → Resolved s n
  /-- in the script, every thread waits for the node the main thread waits for -/
  awaited    : (s.pc main).inScript = true → ∀ t n,
    (s.pc t).fallsAsleep = some n ∨ Sleeps s t n → (s.pc main).awaits = some n
  mine       : ∀ t, (s.pc t).succeeds = true → t = main
  success    : (s.pc main).succeeds = true → Silent s ∧ ∀ n, ¬ Current s n
  silent     : Stored s → s.shared.herald = none → Silent s

/-- At the beginning nobody sleeps, and no node has been consumed. -/
theorem waking_start : Waking (State.start : State P Trans) := by
  have hPc : ∀ t, ((State.start : State P Trans).pc t) = .running ∨
      ((State.start : State P Trans).pc t) = .fresh := by
    intro t
    simp only [State.start]
    split
    · exact Or.inl rfl
    · exact Or.inr rfl
  have hSilent : Silent (State.start : State P Trans) := by
    refine fun u n => ⟨fun hWaits => ?_, fun hSleeps => ?_⟩
    · rcases hPc u with h | h <;> rw [h] at hWaits <;> cases hWaits
    · obtain ⟨o, hSleeps⟩ := hSleeps
      rcases hPc u with h | h <;> rw [h] at hSleeps <;> cases hSleeps
  refine ⟨locked_start, fun t o n c hAsleep => ?_, fun n hCurrent => ?_, fun _ _ hn => ?_,
    fun _ n hAwaits => ?_, fun _ t n hWaits => ?_, fun t hSucceeds => ?_,
    fun hSucceeds => ?_, fun _ _ => hSilent⟩
  · rcases hPc t with h | h <;> rw [h] at hAsleep <;> cases hAsleep
  · cases tracked_start.last n hCurrent
  · cases hn
  · cases hAwaits
  · exact absurd hWaits (not_or.mpr (hSilent t n))
  · rcases hPc t with h | h <;> rw [h] at hSucceeds <;> cases hSucceeds
  · cases hSucceeds

/-- A thread that decides to wait has the node in its hands. -/
theorem not_waits (hNone : ¬ Current s n) : ∀ o, s.pc t ≠ .evaluated o n false false :=
  fun o hPc => hNone (Or.inr ⟨t, by rw [hPc]; rfl⟩)

/-- **Nobody sleeps for a consumed node**, or is about to: consuming it broadcasts, and the
condition says that nobody is on the way to sleep then. -/
theorem Waking.awake_step (hW : Waking s) (h : Does t s.shared (s.pc t) l sh' pc')
    (hOk : signalsAll s (t, l)) (hn : n ∈ sh'.consumed) :
    ((s.put t sh' pc').pc u).fallsAsleep ≠ some n ∧ ¬ Sleeps (s.put t sh' pc') u n := by
  -- a node consumed by this step has been broadcast by it, and nobody is about to sleep for it
  have hBefore : (∀ u, (s.pc u).fallsAsleep ≠ some n) ∧
      (∀ u, Sleeps s u n → sh'.casts ≠ s.shared.casts) ∧ ∀ o, s.pc t ≠ .evaluated o n false false := by
    rcases h.consumed with hSame | ⟨o, m, take, hPc, hLabel, hMore, hCasts⟩
    · have hOld : n ∈ s.shared.consumed := hSame ▸ hn
      exact ⟨fun u => (hW.awake u n hOld).1, fun u hSleeps => absurd hSleeps (hW.awake u n hOld).2,
        not_waits fun hCurrent => hW.unconsumed n hCurrent hOld⟩
    · rw [hMore] at hn
      have hNot : ∀ o, s.pc t ≠ .evaluated o n false false := fun o hPc' => by
        cases hPc.symm.trans hPc'
      rcases List.mem_cons.mp hn with rfl | hOld
      · exact ⟨hOk.consume n hLabel, fun u _ => by simp [hCasts], hNot⟩
      · exact ⟨fun u => (hW.awake u n hOld).1, fun u hSleeps => absurd hSleeps (hW.awake u n hOld).2,
          hNot⟩
  refine ⟨fun hWaits => ?_, fun hSleeps => ?_⟩
  · rcases h.waits hWaits with hOld | ⟨_, o, hPc⟩
    · exact hBefore.1 u hOld
    · exact hBefore.2.2 o hPc
  · rcases h.sleeps hW.casts hSleeps with ⟨hOld, hSame⟩ | ⟨_, hWaits⟩
    · exact hBefore.2.1 u hOld hSame
    · exact hBefore.1 t hWaits

/-- A resolved node stays resolved, unless the lock is forced. -/
theorem Resolved.step (hR : Resolved s n) (hL : Locked s) (h : Does t s.shared (s.pc t) l sh' pc')
    (hForce : l ≠ .force) : Resolved (s.put t sh' pc') n := by
  rcases hR with hConsumed | hCurrent | hEnded | ⟨u, hThrows⟩
  · rcases h.consumed with hSame | ⟨_, m, _, _, _, hMore, _⟩
    · exact Or.inl (hSame ▸ hConsumed)
    · exact Or.inl (hMore ▸ List.mem_cons_of_mem _ hConsumed)
  · have hMine : (s.pc t).node = some n ∨ s.shared.ref = .full n →
        Resolved (s.put t sh' pc') n := fun hNode => by
      rcases h.node_leaves hNode (hL.ref t) (hL.not_aborted h) with
        (hNode' | hRef) | hConsumed | hEnd | hThrows | hLabel
      · exact Or.inr (Or.inl (Or.inr ⟨t, by rwa [State.put_self]⟩))
      · exact Or.inr (Or.inl (Or.inl hRef))
      · exact Or.inl hConsumed
      · exact Or.inr (Or.inr (Or.inl (Or.inr ⟨t, by rwa [State.put_self]⟩)))
      · exact Or.inr (Or.inr (Or.inr ⟨t, by rwa [State.put_self]⟩))
      · exact absurd hLabel hForce
    rcases hCurrent with hRef | ⟨u, hNode⟩
    · exact hMine (Or.inr hRef)
    · by_cases hut : u = t
      · exact hMine (Or.inl (hut ▸ hNode))
      · exact Or.inr (Or.inl (Or.inr ⟨u, by rwa [State.put_of_ne _ _ _ hut]⟩))
  · exact Or.inr (Or.inr (Or.inl (hEnded.step hL (.mk h) hForce)))
  · by_cases hut : u = t
    · subst hut
      rcases h.throws hThrows (hL.owner u) (hL.sane u) (hL.not_aborted h) with hThrows' | hEnd
      · exact Or.inr (Or.inr (Or.inr ⟨u, by rwa [State.put_self]⟩))
      · exact Or.inr (Or.inr (Or.inl (Or.inr ⟨u, by rwa [State.put_self]⟩)))
    · exact Or.inr (Or.inr (Or.inr ⟨u, by rwa [State.put_of_ne _ _ _ hut]⟩))

/-- A node is consumed once `AcquireRef` returns null to the main thread. -/
theorem Resolved.of_empty {c : Call P Trans} (hR : Resolved s n) (hL : Locked s)
    (hPc : s.pc main = .acquired c .empty) (hScript : c.ofScript = true) :
    n ∈ s.shared.consumed := by
  have hHolds : (s.pc main).holds = true := by rw [hPc]; rfl
  rcases hR with hConsumed | hCurrent | hEnded | ⟨u, hThrows⟩
  · exact hConsumed
  · have hNode := hL.node_of_current hCurrent hHolds
    rw [hPc] at hNode
    cases hNode
  · have hEnd := hL.carriesEnd_of_ended hEnded hHolds
    rw [hPc] at hEnd
    cases hEnd
  · obtain rfl := hL.one u main (Pc.holds_of_throws hThrows) hHolds
    simp [hPc, Pc.throws, Call.thrown_of_ofScript hScript] at hThrows

/-- The node that the main thread waits for is consumed or current, or the execution is
ended or about to be. -/
theorem Waking.resolved_step (hW : Waking s) (hT : Tracked s) (h : Does t s.shared (s.pc t) l sh' pc')
    (hScript : ((s.put t sh' pc').pc main).inScript = true)
    (hAwaits : ((s.put t sh' pc').pc main).awaits = some n) : Resolved (s.put t sh' pc') n := by
  have hBefore := h.inScript_put hT.ofMain hScript
  -- a lock is forced only outside the script
  have hForce : l ≠ .force := by
    rintro rfl
    obtain rfl := h.force_main rfl
    rw [State.put_self] at hScript
    cases (h.late (Or.inr rfl)).symm.trans (Pc.late_of_inScript hScript)
  by_cases hut : main = t
  · subst hut
    rw [State.put_self] at hAwaits
    rcases h.awaits_back hAwaits with hOld | hSubmits
    · exact (hW.resolved hBefore n hOld).step hW.locked h hForce
    · exact Or.inr (Or.inl (Or.inr ⟨main, by rw [State.put_self, hSubmits.place]; rfl⟩))
  · rw [State.put_of_ne _ _ _ hut] at hAwaits
    exact (hW.resolved hBefore n hAwaits).step hW.locked h hForce

/-- Who sleeps does so for the node that the main thread waits for. -/
theorem Waking.awaited_step (hW : Waking s) (hT : Tracked s) (h : Does t s.shared (s.pc t) l sh' pc')
    (hScript : ((s.put t sh' pc').pc main).inScript = true)
    (hWaits : ((s.put t sh' pc').pc u).fallsAsleep = some n ∨ Sleeps (s.put t sh' pc') u n) :
    ((s.put t sh' pc').pc main).awaits = some n := by
  have hBefore := h.inScript_put hT.ofMain hScript
  -- who waits after the step has waited before it or has just evaluated its transition
  have hOld : (∃ u, (s.pc u).fallsAsleep = some n ∨ Sleeps s u n) ∨
      ∃ o, s.pc t = .evaluated o n false false := by
    rcases hWaits with hWaits | hSleeps
    · exact (h.waits hWaits).imp (fun hOld => ⟨u, Or.inl hOld⟩) And.right
    · rcases h.sleeps hW.casts hSleeps with ⟨hOld, _⟩ | ⟨_, hWaits⟩
      · exact Or.inl ⟨u, Or.inr hOld⟩
      · exact Or.inl ⟨t, Or.inl hWaits⟩
  rcases hOld with ⟨v, hOld⟩ | ⟨o, hPc⟩
  · have hAwaits := hW.awaited hBefore v n hOld
    by_cases hut : main = t
    · subst hut
      rw [State.put_self] at hScript ⊢
      refine (h.awaits hAwaits hScript).resolve_right ?_
      rintro ⟨c, hPc⟩
      rw [hPc] at hBefore
      -- the node has been consumed by now, and nobody waits for it
      have hConsumed := (hW.resolved (by rw [hPc]; exact hBefore) n hAwaits).of_empty hW.locked hPc hBefore
      exact absurd hOld (not_or.mpr (hW.awake v n hConsumed))
    · rwa [State.put_of_ne _ _ _ hut]
  · have hNe : main ≠ t := by
      rintro rfl
      have hMain := hT.ofMain
      rw [hPc] at hMain
      cases hMain
    rw [State.put_of_ne _ _ _ hNe]
    exact hT.awaits hBefore n (Or.inr ⟨t, by rw [hPc]; rfl⟩)

/-- At the end of the script no node is current, and nobody waits for one. -/
theorem Waking.at_end (hW : Waking s) (hT : Tracked s) (hPc : s.pc main = .running) :
    Silent s ∧ ∀ n, ¬ Current s n := by
  have hScript : (s.pc main).inScript = true := by rw [hPc]; rfl
  have hNone : ∀ n, (s.pc main).awaits ≠ some n := fun n => by rw [hPc]; nofun
  exact ⟨fun u n => ⟨fun hWaits => hNone n (hW.awaited hScript u n (Or.inl hWaits)),
    fun hSleeps => hNone n (hW.awaited hScript u n (Or.inr hSleeps))⟩,
    fun n hCurrent => hNone n (hT.awaits hScript n hCurrent)⟩

/-- When the main thread ends the execution with success nobody sleeps and no node is
current. -/
theorem Waking.success_step (hW : Waking s) (hT : Tracked s) (h : Does t s.shared (s.pc t) l sh' pc')
    (hSucceeds : ((s.put t sh' pc').pc main).succeeds = true) :
    Silent (s.put t sh' pc') ∧ ∀ n, ¬ Current (s.put t sh' pc') n := by
  have hOld : (Silent s ∧ ∀ n, ¬ Current s n) ∧
      (t = main → ∀ kind pred, s.pc t ≠ .acquired (.submit kind pred) .empty) := by
    by_cases hut : main = t
    · subst hut
      rw [State.put_self] at hSucceeds
      rcases h.succeeds hSucceeds with hBefore | ⟨_, hPc⟩
      · refine ⟨hW.success hBefore, fun _ kind pred hPc => ?_⟩
        rw [hPc] at hBefore
        cases hBefore
      · exact ⟨hW.at_end hT hPc, fun _ kind pred hPc' => by cases hPc.symm.trans hPc'⟩
    · rw [State.put_of_ne _ _ _ hut] at hSucceeds
      exact ⟨hW.success hSucceeds, fun hMain => absurd hMain.symm hut⟩
  obtain ⟨⟨hSilent, hNone⟩, hSubmit⟩ := hOld
  refine ⟨hSilent.step h hW.casts fun o n => not_waits (hNone n) o, fun n hCurrent => ?_⟩
  rcases h.current hCurrent with hBefore | hSubmits
  · exact hNone n hBefore
  · obtain ⟨kind, pred, hPc⟩ := hSubmits.source
    exact hSubmit hSubmits.isMain kind pred hPc

/-- Only the main thread ends the execution with success. -/
theorem Waking.mine_step (hW : Waking s) (h : Does t s.shared (s.pc t) l sh' pc')
    (hSucceeds : ((s.put t sh' pc').pc u).succeeds = true) : u = main := by
  by_cases hut : u = t
  · subst hut
    rw [State.put_self] at hSucceeds
    exact (h.succeeds hSucceeds).elim (hW.mine u) And.left
  · rw [State.put_of_ne _ _ _ hut] at hSucceeds
    exact hW.mine u hSucceeds

/-- Once the broadcast for the end node is done, everyone is awake: nobody decides to wait any
more, and the broadcast has reached everyone who has decided before. -/
theorem Waking.silent_put (hW : Waking s) (h : Does t s.shared (s.pc t) l sh' pc')
    (hOk : signalsAll s (t, l)) (hNot : ∀ o n, s.pc t ≠ .evaluated o n false false)
    (hOld : (∀ k, s.pc t ≠ .store .endNode k) → s.shared.herald = none → Silent s)
    (hDone : sh'.herald = none) : Silent (s.put t sh' pc') := by
  rcases h.herald hDone with ⟨hBefore, hStore⟩ | ⟨k, hPc, hSuccess⟩ | ⟨hPc, hMine, hMore⟩
  · exact (hOld hStore hBefore).step h hW.casts hNot
  · have hSucceeds : (s.pc t).succeeds = true := by rw [hPc]; simp [Pc.succeeds, hSuccess]
    obtain rfl := hW.mine t hSucceeds
    exact (hW.success hSucceeds).1.step h hW.casts hNot
  · exact Silent.of_broadcast h hW.casts (hOk.broadcast hPc hMine) (by simp [hMore]) hNot

/-- **Once the end node is stored and its broadcast is done, nobody sleeps.** -/
theorem Waking.silent_step (hW : Waking s) (h : Does t s.shared (s.pc t) l sh' pc')
    (hOk : signalsAll s (t, l)) (hStored : Stored (s.put t sh' pc')) (hDone : sh'.herald = none) :
    Silent (s.put t sh' pc') := by
  rcases h.stored hStored with hOld | ⟨k, hPc⟩
  · exact hW.silent_put h hOk
      (fun o n => not_waits (hW.locked.not_current_of_ended hOld.ended) o)
      (fun _ => hW.silent hOld) hDone
  · exact hW.silent_put h hOk (fun o n hPc' => by cases hPc.symm.trans hPc')
      (fun hStore => absurd hPc (hStore k)) hDone

/-- **Step lemma** for wake-ups. -/
theorem Waking.step (hW : Waking s) (hT : Tracked s) (h : Does t s.shared (s.pc t) l sh' pc')
    (hOk : signalsAll s (t, l)) : Waking (s.put t sh' pc') := by
  have hLocked := hW.locked.step (.mk h) hOk.force
  refine ⟨hLocked, fun u o n c hPc => ?_, fun n => hT.unconsumed_step h hLocked (hW.unconsumed n),
    fun u n => hW.awake_step h hOk, fun hScript n => hW.resolved_step hT h hScript,
    fun hScript u n => hW.awaited_step hT h hScript, fun u => hW.mine_step h, hW.success_step hT h,
    hW.silent_step h hOk⟩
  by_cases hut : u = t
  · subst hut
    rw [State.put_self] at hPc
    rw [(h.asleep hPc).2]
    exact h.casts_le
  · rw [State.put_of_ne _ _ _ hut] at hPc
    exact Nat.le_trans (hW.casts u o n c hPc) h.casts_le

theorem waking (h : Runs.ReachableUnder (system P Trans) signalsAll s) : Waking s := by
  refine h.invariant_of (fun _ => tracked) (fun _ hInit => hInit ▸ waking_start) ?_
  rintro s ⟨t, l⟩ _ hT hW hOk ⟨hDoes⟩
  exact hW.step hT hDoes hOk

/-- The execution is over: no node will be current any more, and no thread waits for one once
the broadcast for the end node is done. -/
structure Over (s : State P Trans) : Prop where
  tracked : Tracked s
  waking  : Waking s
  silent  : s.shared.herald = none → Silent s
  unused  : ∀ n, ¬ Current s n
  ended   : Ended s ∨ (s.pc main).late = true

/-- What holds once the execution is over is kept by every step. -/
theorem Over.step (hO : Over s) (h : Does t s.shared (s.pc t) l sh' pc')
    (hOk : signalsAll s (t, l)) : Over (s.put t sh' pc') := by
  refine ⟨hO.tracked.step (.mk h), hO.waking.step hO.tracked h hOk,
    hO.waking.silent_put h hOk (fun o n => not_waits (hO.unused n) o) fun _ => hO.silent,
    fun n hCurrent => ?_, ?_⟩
  · rcases h.current hCurrent with hOld | hSubmits
    · exact hO.unused n hOld
    · obtain ⟨kind, pred, hPc⟩ := hSubmits.source
      obtain rfl := hSubmits.isMain
      rcases hO.ended with hEnded | hLate
      · have hEnd := hO.waking.locked.carriesEnd_of_ended hEnded (t := main) (by rw [hPc]; rfl)
        rw [hPc] at hEnd
        cases hEnd
      · rw [hPc] at hLate
        cases hLate
  · cases hLate : ((s.put t sh' pc').pc main).late with
    | true => exact Or.inr rfl
    | false =>
      obtain ⟨hBefore, hForce⟩ := h.late_put hLate
      have hEnded := hO.ended.resolve_right (by simp [hBefore])
      exact Or.inl (hEnded.step hO.waking.locked (.mk h) hForce)

theorem Over.run (hO : Over s)
    (h : Runs.ReachableUnder ((system P Trans).startingAt s) signalsAll s') : Over s' := by
  refine h.invariant (P := Over) ?_ ?_
  · rintro _ rfl
    exact hO
  · rintro s ⟨t, l⟩ _ hO hOk ⟨hDoes⟩
    exact hO.step hDoes hOk

/-- **Main result.** No wake-up is lost, in any interleaving, while no thread is on its way to
sleep at a broadcast that is for it: that of the thread that consumes its node, or that of the
thread that has stored the end node. The end needs no condition on `EndWithSuccess`, whose end
node at the end of the script is stored with nobody waiting. -/
theorem no_lost_wakeUp (h : Runs.ReachableUnder (system P Trans) signalsAll s) :
    Awake s ∧ (s.shared.ref = .endNode →
      ∀ s', Runs.ReachableUnder ((system P Trans).startingAt s) signalsAll s' → AwakeAtEnd s') := by
  have hW := waking h
  refine ⟨fun t n hn => (hW.awake t n hn).2, fun hRef s' h' hDone t n => ?_⟩
  have hEnded : Ended s := Or.inl hRef
  have hOver : Over s := ⟨tracked h, hW, hW.silent (Or.inl hRef),
    fun n => hW.locked.not_current_of_ended hEnded, Or.inl hEnded⟩
  exact ((hOver.run h').silent hDone t n).2

/-- One more step of a run from a state on. -/
theorem reach_put_from {s₀ : State P Trans} {ok : State P Trans → Nat × Label → Prop}
    (h : Runs.ReachableUnder ((system P Trans).startingAt s₀) ok s) (hPc : s.pc t = pc)
    (hDoes : Does t s.shared pc l sh' pc') (hOk : ok s (t, l)) :
    Runs.ReachableUnder ((system P Trans).startingAt s₀) ok (s.put t sh' pc') :=
  h.step hOk (.mk (hPc ▸ hDoes))

/-- Thread 1 sleeps, thread 2 has evaluated a transition that consumes the node. -/
def slept : Shared Bool Unit where
  ref := .lock
  owner := some 2
  sem := 2
  constraints := [true]
  nodes := [⟨.runThrough, false, [true]⟩]
  mutex := none
  casts := 0
  live := [2, 1]
  reasons := []
  offers := update (update (fun _ => 0) 1 1) 2 1
  consumed := []
  herald := none
  log := [⟨1, ⟨0, ()⟩, 0, fun _ => false, false, false⟩, ⟨2, ⟨0, ()⟩, 0, fun _ => true, true, true⟩]

/-- The run behind the examples: thread 1 sleeps, and thread 2 is about to consume the node.
-/
theorem reach_slept (ok : State Bool Unit → Nat × Label → Prop)
    (hOk : ∀ s t, s.pc t ≠ .broadcast → ok s (t, .step)) :
    ∃ pc, Runs.ReachableUnder (system Bool Unit) ok ⟨slept, pc⟩ ∧
      pc 1 = .asleep ⟨0, ()⟩ 0 0 ∧ pc 2 = .evaluated ⟨0, ()⟩ 0 true true ∧
      ∀ u, (pc u).fallsAsleep = none := by
  obtain ⟨pc, h, hMain, hOne, hFresh⟩ := reach_offered ok hOk
  have h1 := reach_put (t := 1) h hOne .exchange (hOk _ _ (by simp [hOne]))
  have h2 := reach_put (t := 1) h1 rfl (.onLock rfl rfl) (hOk _ _ fun h => by cases h)
  have h3 := reach_put (t := 1) h2 rfl (.evaluate (fun _ => false) false rfl) (hOk _ _ fun h => by cases h)
  have h4 := reach_put (t := 1) h3 rfl (.lockMutex rfl) (hOk _ _ fun h => by cases h)
  have h5 := reach_put (t := 1) h4 rfl (.unlock rfl rfl) (hOk _ _ fun h => by cases h)
  have h6 := reach_put (t := 1) h5 rfl .store (hOk _ _ fun h => by cases h)
  have h7 := reach_put (t := 1) h6 rfl .signal (hOk _ _ fun h => by cases h)
  have h8 := reach_put (t := 1) h7 rfl .condWait (hOk _ _ fun h => by cases h)
  -- another thread
  have hTwo := hFresh 2 (by decide) (by decide)
  have h9 := reach_put (t := 2) h8 hTwo (.create (by decide)) (hOk _ _ (by simp [State.put, hTwo]))
  have h10 := reach_put (t := 2) h9 rfl (.offer (by decide) ()) (hOk _ _ fun h => by cases h)
  have h11 := reach_put (t := 2) h10 rfl .exchange (hOk _ _ fun h => by cases h)
  have h12 := reach_put (t := 2) h11 rfl (.onLock rfl rfl) (hOk _ _ fun h => by cases h)
  have h13 := reach_put (t := 2) h12 rfl (.evaluate (fun _ => true) false rfl) (hOk _ _ fun h => by cases h)
  refine ⟨_, h13, rfl, rfl, fun u => ?_⟩
  by_cases hTwo : u = 2
  · subst hTwo
    rfl
  by_cases hOne : u = 1
  · subst hOne
    rfl
  simp only [State.put, Function.update_of_ne hTwo, Function.update_of_ne hOne]
  by_cases hm : u = main
  · rw [hm, hMain]
    rfl
  · rw [hFresh u hm hOne]
    rfl

/-- One thread sleeps, another one consumes the node and then ends the execution. -/
theorem no_lost_wakeUp_two : ∃ s s' : State Bool Unit,
    (s.pc 1 = .asleep ⟨0, ()⟩ 0 0 ∧ s.shared.consumed = [0] ∧ s.shared.ref = .endNode ∧ Awake s) ∧
      s'.shared.herald = none ∧ s'.shared.casts = 2 ∧ ∀ t n, ¬ Sleeps s' t n := by
  have hQuiet : ∀ (s : State Bool Unit) (t : Nat), s.pc t ≠ .broadcast → signalsAll s (t, .step) :=
    fun s t hNot => ⟨nofun, fun hPc => absurd hPc hNot, nofun⟩
  obtain ⟨pc, h, hOne, hTwo, hNone⟩ := reach_slept signalsAll hQuiet
  have h1 := reach_put (t := 2) h hTwo .consume
    ⟨fun n _ u => by simp [hNone], fun hPc => (by cases hTwo.symm.trans hPc), nofun⟩
  have h2 := reach_put (t := 2) h1 rfl (.unlock rfl rfl) (hQuiet _ _ nofun)
  have h3 := reach_put (t := 2) h2 rfl .store (hQuiet _ _ nofun)
  have h4 := reach_put (t := 2) h3 rfl .signal (hQuiet _ _ nofun)
  have h5 := reach_put (t := 2) h4 rfl (.endExecution (by decide) .exception) (hQuiet _ _ nofun)
  have h6 := reach_put (t := 2) h5 rfl .exchange (hQuiet _ _ nofun)
  have h7 := reach_put (t := 2) h6 rfl (.onLock rfl rfl) (hQuiet _ _ nofun)
  have h8 := reach_put (t := 2) h7 rfl (.addException nofun) (hQuiet _ _ nofun)
  have h9 := reach_put (t := 2) h8 rfl (.unlock rfl rfl) (hQuiet _ _ nofun)
  have h10 := reach_put (t := 2) h9 rfl .store (hQuiet _ _ nofun)
  have hLost := no_lost_wakeUp h10
  refine ⟨_, _, ⟨hOne, rfl, rfl, hLost.1⟩, rfl, rfl, hLost.2 rfl _ (reach_put_from (t := 2)
    (reach_put_from (t := 2) (.init rfl) rfl .signal (hQuiet _ _ nofun)) rfl .broadcast
    ⟨nofun, fun _ _ u n hWaits => ?_, nofun⟩) rfl⟩
  by_cases hu : u = 2
  · subst hu
    cases hWaits
  · simp [State.put, Function.update_of_ne hu, hNone] at hWaits

/-- One thread has decided to wait and has given up the mutex for it, another one consumes
the node and broadcasts, and then the first one goes to sleep: nobody wakes it any more. -/
theorem lost_wakeUp : ¬ ∀ s : State Bool Unit, Runs.Reachable (system Bool Unit) s →
    Awake s ∧ (s.shared.ref = .endNode →
      ∀ s', Runs.Reachable ((system Bool Unit).startingAt s) s' → AwakeAtEnd s') := by
  intro hAll
  obtain ⟨pc, h, hMain, hOne, hFresh⟩ := reach_offered (fun _ _ => True) fun _ _ _ => trivial
  have h1 := reach_put (t := 1) h hOne .exchange trivial
  have h2 := reach_put (t := 1) h1 rfl (.onLock rfl rfl) trivial
  have h3 := reach_put (t := 1) h2 rfl (.evaluate (fun _ => false) false rfl) trivial
  have h4 := reach_put (t := 1) h3 rfl (.lockMutex rfl) trivial
  have h5 := reach_put (t := 1) h4 rfl (.unlock rfl rfl) trivial
  have h6 := reach_put (t := 1) h5 rfl .store trivial
  have h7 := reach_put (t := 1) h6 rfl .signal trivial
  -- another thread
  have h8 := reach_put (t := 2) h7 (hFresh 2 nofun nofun) (.create (by decide)) trivial
  have h9 := reach_put (t := 2) h8 rfl (.offer (by decide) ()) trivial
  have h10 := reach_put (t := 2) h9 rfl .exchange trivial
  have h11 := reach_put (t := 2) h10 rfl (.onLock rfl rfl) trivial
  have h12 := reach_put (t := 2) h11 rfl (.evaluate (fun _ => true) false rfl) trivial
  have h13 := reach_put (t := 2) h12 rfl .consume trivial
  have h14 := reach_put (t := 1) h13 rfl .condWait trivial
  exact (hAll _ h14).1 1 0 List.mem_cons_self ⟨_, rfl⟩

end Protocol

end Concurrit.Model
