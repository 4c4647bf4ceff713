import Mathlib.Algebra.BigOperators.Group.Finset.Basic
import Mathlib.Algebra.Order.BigOperators.Group.Finset
import Mathlib.Logic.Function.Basic
import Mathlib.Logic.Relation
import Concurrit.Lib.Runs

/-!
# Concurrit — joining a coroutine

`Coroutine::WaitForEnd` against `Start`, `Run` and `SetEnded` of the same
coroutine, as a transition system whose steps are the semaphore operations and
the status updates of the source. The end of the coroutine is encoded in the
semaphore `sem_end_`: `Start` leaves one token in it, `SetEnded` adds the second
one, and a joiner takes both and gives both back.

`Start` and `SetEnded` run under the channel mutex, so their steps follow each
other in one order (`Phase`); joiners do not take the mutex and interleave with
them freely. `join_safe` is the condition under which joining is safe.
-/

namespace Concurrit.Model

open Function (update)

namespace Join

-- ---------------------------------------------------------------------------
-- States
-- ---------------------------------------------------------------------------

/-- The values of `status_` that occur here. -/
inductive CoStatus where
  | passive
  | enabled
  | waiting
  | ended
deriving DecidableEq, Repr

/-- Where `Start`, `Run` and `SetEnded` stand. -/
inductive Phase where
  /-- never started -/
  | passive
  /-- `Start` has created the thread or sent the restart message -/
  | starting
  /-- `SetStarted` has announced the start and waits for a transfer -/
  | started
  /-- `Start` has executed `sem_end_.Set(0)` -/
  | cleared
  /-- `Start` has signalled the first token, the transfer is on its way -/
  | ready
  /-- the function of the coroutine runs -/
  | running
  /-- `SetEnded` has set the status -/
  | ending
  /-- `SetEnded` has signalled the second token -/
  | ended
deriving DecidableEq, Repr

/-- `Start` is in its critical section. -/
def Phase.inStart : Phase → Bool
  | .starting | .started | .cleared => true
  | _ => false

/-- Where a thread stands in `WaitForEnd`: whether it waits with a timeout, and
(not known to the code) whether the coroutine had ended when it entered. -/
inductive Joiner where
  | outside
  /-- before `sem_end_.Wait()` for the first token -/
  | first (timed endedBefore : Bool)
  /-- before the wait for the second token -/
  | second (timed endedBefore : Bool)
  /-- before the two signals that give both tokens back -/
  | giveBoth (endedBefore : Bool)
  | giveOne (endedBefore : Bool)
  /-- before the assertion that the coroutine has ended -/
  | check (endedBefore : Bool)
  /-- has timed out and puts the first token back -/
  | putBack (endedBefore : Bool)
  /-- the assertion has failed -/
  | aborted
  | returned (ended endedBefore : Bool)
deriving DecidableEq, Repr

namespace Joiner

/-- The tokens the thread has taken and not given back. -/
def held : Joiner → Nat
  | .second .. => 1
  | .giveBoth _ => 2
  | .giveOne _ => 1
  | .putBack _ => 1
  | _ => 0

/-- The thread is inside `WaitForEnd`. -/
def inside : Joiner → Bool
  | .outside => false
  | .returned .. => false
  | _ => true

/-- The thread waits for its second token, without a timeout. -/
def persists : Joiner → Bool
  | .second timed _ => !timed
  | _ => false

/-- The thread waits with a timeout, since after the end of the coroutine. -/
def late : Joiner → Bool
  | .first timed e | .second timed e => timed && e
  | _ => false

theorem held_of_persists {j : Joiner} (h : j.persists = true) : j.held = 1 := by
  cases j <;> first | rfl | cases h

end Joiner

structure State where
  status : CoStatus
  phase : Phase
  /-- the value of `sem_end_` -/
  tokens : Nat
  joiner : Nat → Joiner

def State.setJoiner (s : State) (t : Nat) (j : Joiner) : State :=
  { s with joiner := update s.joiner t j }

-- ---------------------------------------------------------------------------
-- Steps
-- ---------------------------------------------------------------------------

inductive Action where
  | enter (t : Nat) (timed : Bool)
  | firstToken (t : Nat)
  | secondToken (t : Nat)
  | timeOut (t : Nat)
  | signal (t : Nat)
  | checkEnded (t : Nat)
  | start
  | setStarted
  | semSet
  | semSignal
  | transfer
  | setEnded
  | endSignal
deriving DecidableEq, Repr

/-- A step of a joiner. -/
def Action.ofJoiner : Action → Bool
  | .enter .. | .firstToken _ | .secondToken _ | .timeOut _ | .signal _ | .checkEnded _ => true
  | _ => false

/-- `sem_wait` succeeds where a token is there, `sem_timedwait` times out only
where none is. -/
def next (s : State) : Action → Option State
  | .enter t timed =>
    -- callers ask for a status above `PASSIVE`
    if (s.joiner t).inside = false ∧ s.status ≠ .passive then
      some (s.setJoiner t (.first timed (s.phase == .ended)))
    else none
  | .firstToken t =>
    match s.joiner t with
    | .first timed e =>
      if 0 < s.tokens then some { s.setJoiner t (.second timed e) with tokens := s.tokens - 1 }
      else none
    | _ => none
  | .secondToken t =>
    match s.joiner t with
    | .second _ e =>
      if 0 < s.tokens then some { s.setJoiner t (.giveBoth e) with tokens := s.tokens - 1 }
      else none
    | _ => none
  | .timeOut t =>
    match s.joiner t with
    | .second true e => if s.tokens = 0 then some (s.setJoiner t (.putBack e)) else none
    | _ => none
  | .signal t =>
    match s.joiner t with
    | .giveBoth e => some { s.setJoiner t (.giveOne e) with tokens := s.tokens + 1 }
    | .giveOne e => some { s.setJoiner t (.check e) with tokens := s.tokens + 1 }
    | .putBack e => some { s.setJoiner t (.returned false e) with tokens := s.tokens + 1 }
    | _ => none
  | .checkEnded t =>
    match s.joiner t with
    | .check e => some (s.setJoiner t (if s.status = .ended then .returned true e else .aborted))
    | _ => none
  | .start =>
    match s.phase with
    | .passive | .ready | .ended => some { s with phase := .starting }
    | _ => none
  | .setStarted =>
    if s.phase = .starting then some { s with phase := .started, status := .waiting } else none
  | .semSet => if s.phase = .started then some { s with phase := .cleared, tokens := 0 } else none
  | .semSignal =>
    if s.phase = .cleared then some { s with phase := .ready, tokens := s.tokens + 1 } else none
  | .transfer =>
    if s.phase = .ready then some { s with phase := .running, status := .enabled } else none
  | .setEnded =>
    if s.phase = .running then some { s with phase := .ending, status := .ended } else none
  | .endSignal =>
    if s.phase = .ending then some { s with phase := .ended, tokens := s.tokens + 1 } else none

def initial : State := ⟨.passive, .passive, 0, fun _ => .outside⟩

/-- One coroutine and any number of joiners. -/
def system : Runs.System State Action := Runs.partialMachine initial next

-- ---------------------------------------------------------------------------
-- What joining should guarantee
-- ---------------------------------------------------------------------------

/-- Steps of joiners alone. -/
def JoinersRun : State → State → Prop :=
  Relation.ReflTransGen fun s s' => ∃ a : Action, a.ofJoiner = true ∧ next s a = some s'

/-- The joiners can go on so that `t` leaves `WaitForEnd`. -/
def CanComplete (s : State) (t : Nat) : Prop :=
  ∃ s', JoinersRun s s' ∧ (s'.joiner t).inside = false

structure JoinSafe (s : State) : Prop where
  notStuck : s.phase = .ended → ∀ t, (s.joiner t).inside = true → CanComplete s t
  restored : s.phase = .ended → (∀ t, (s.joiner t).inside = false) → s.tokens = 2
  timeouts : ∀ t e, s.joiner t = .returned false e → e = false

/-- The condition on the steps. A joiner takes its first token only while no `Start` is under way;
two joiners that have no timeout do not wait for their second token at once, as neither would get
it; and one that has come with a timeout after the end holds tokens alone, as it would time out.
`Start` begins only while the joiners inside wait for their first token, and none of them could
report a timeout after an end it has seen. -/
def Unshared (s : State) : Action → Prop
  | .firstToken t => s.phase.inStart = false ∧
      (∀ u, (s.joiner u).late = true → (s.joiner u).held = 0) ∧
      ((s.joiner t).late = true → ∀ u, (s.joiner u).held = 0) ∧
      ((∃ e, s.joiner t = .first false e) → ∀ u, (s.joiner u).persists = false)
  | .start => ∀ u, (s.joiner u).inside = true →
      (∃ timed e, s.joiner u = .first timed e) ∧ (s.joiner u).late = false
  | _ => True

variable {s s' : State} {t : Nat} {j : Joiner} {a : Action} {hs : Finset Nat}

/-- Taking the first token does no harm while no other joiner persists or is late. -/
theorem Unshared.of_quiet (hStart : s.phase.inStart = false)
    (hQuiet : ∀ u, (s.joiner u).persists = false ∧ (s.joiner u).late = false) :
    Unshared s (.firstToken t) := by
  refine ⟨hStart, fun u hLate => ?_, fun hLate => ?_, fun _ u => (hQuiet u).1⟩
  · rw [(hQuiet u).2] at hLate
    cases hLate
  · rw [(hQuiet t).2] at hLate
    cases hLate

theorem Unshared.of_unheld (hStart : s.phase.inStart = false) (hZero : ∀ u, (s.joiner u).held = 0) :
    Unshared s (.firstToken t) := by
  refine ⟨hStart, fun u _ => hZero u, fun _ => hZero, fun _ u => ?_⟩
  by_contra hPersists
  have hOne := Joiner.held_of_persists ((Bool.not_eq_false _).mp hPersists)
  rw [hZero u] at hOne
  cases hOne

-- ---------------------------------------------------------------------------
-- Tokens
-- ---------------------------------------------------------------------------

open scoped BigOperators

/-- The tokens that some joiners hold. -/
def State.heldBy (s : State) (hs : Finset Nat) : Nat := ∑ u ∈ hs, (s.joiner u).held

/-- The joiners outside of the set hold nothing. -/
def State.HeldIn (s : State) (hs : Finset Nat) : Prop := ∀ u, u ∉ hs → (s.joiner u).held = 0

theorem State.HeldIn.insert (h : s.HeldIn hs) (t : Nat) : s.HeldIn (insert t hs) :=
  fun u hu => h u fun hMem => hu (Finset.mem_insert_of_mem hMem)

theorem State.heldBy_insert (h : s.HeldIn hs) (t : Nat) : s.heldBy (insert t hs) = s.heldBy hs := by
  by_cases ht : t ∈ hs
  · rw [Finset.insert_eq_of_mem ht]
  · rw [State.heldBy, Finset.sum_insert ht, h t ht, Nat.zero_add, State.heldBy]

/-- One joiner apart. -/
theorem State.heldBy_erase (ht : t ∈ hs) :
    s.heldBy hs = (s.joiner t).held + s.heldBy (hs.erase t) :=
  (Finset.add_sum_erase hs (fun u => (s.joiner u).held) ht).symm

/-- The other joiners hold what they held. -/
theorem State.heldBy_move (h : ∀ u, u ≠ t → s'.joiner u = s.joiner u) :
    s'.heldBy (hs.erase t) = s.heldBy (hs.erase t) :=
  Finset.sum_congr rfl fun u hu => by rw [h u (Finset.ne_of_mem_erase hu)]

theorem State.held_le (h : s.HeldIn hs) (t : Nat) : (s.joiner t).held ≤ s.heldBy hs := by
  by_cases ht : t ∈ hs
  · rw [heldBy_erase ht]
    exact Nat.le_add_right ..
  · rw [h t ht]
    exact Nat.zero_le _

/-- If nobody else holds a token. -/
theorem State.heldBy_alone (h : s.HeldIn hs) (hAlone : ∀ u, u ≠ t → (s.joiner u).held = 0) :
    s.heldBy hs = (s.joiner t).held := by
  rw [← heldBy_insert h t, heldBy_erase (Finset.mem_insert_self t hs), State.heldBy,
    Finset.sum_eq_zero fun u hu => hAlone u (Finset.ne_of_mem_erase hu), Nat.add_zero]

-- ---------------------------------------------------------------------------
-- Invariant
-- ---------------------------------------------------------------------------

/-- The tokens there are in a phase, in the semaphore or with joiners. -/
def Phase.total : Phase → Option Nat
  | .starting | .started => none
  | .passive | .cleared => some 0
  | .ready | .running | .ending => some 1
  | .ended => some 2

/-- What is known of a joiner in a phase. -/
def Settled (phase : Phase) : Joiner → Prop
  | .outside => True
  | .first timed e => (timed && e) = true → phase = .ended
  | .second timed e => phase.inStart = false ∧ ((timed && e) = true → phase = .ended)
  | .giveBoth _ => phase = .ended
  | .giveOne _ => phase = .ended
  | .check _ => phase = .ended
  | .putBack e => phase.inStart = false ∧ e = false
  | .aborted => False
  | .returned ended e => ended = false → e = false

/-- **Invariant**: no token is lost, at most one joiner persists, and who waits with a timeout since
after the end holds tokens alone. -/
structure JoinInv (s : State) : Prop where
  status    : s.phase = .ending ∨ s.phase = .ended → s.status = .ended
  conserved : ∀ k, s.phase.total = some k → ∃ hs, s.HeldIn hs ∧ s.tokens + s.heldBy hs = k
  lone      : ∀ u v, (s.joiner u).persists = true → (s.joiner v).persists = true → u = v
  late      : ∀ u v, u ≠ v → (s.joiner u).late = true →
                (s.joiner u).held = 0 ∨ (s.joiner v).held = 0
  settled   : ∀ u, Settled s.phase (s.joiner u)

theorem JoinInv.conserved_alone (hI : JoinInv s) {k : Nat} (hk : s.phase.total = some k)
    (hAlone : ∀ u, u ≠ t → (s.joiner u).held = 0) : s.tokens + (s.joiner t).held = k := by
  obtain ⟨hs, hIn, hSum⟩ := hI.conserved k hk
  rwa [State.heldBy_alone hIn hAlone] at hSum

theorem JoinInv.held_le (hI : JoinInv s) {k : Nat} (hk : s.phase.total = some k) (t : Nat) :
    s.tokens + (s.joiner t).held ≤ k := by
  obtain ⟨hs, hIn, hSum⟩ := hI.conserved k hk
  have hLe := State.held_le hIn t
  omega

/-- A joiner that moves tokens between itself and the semaphore keeps the invariant: the
tokens of all together stay the same, and the joiner must not come to hold one where another
one persists or is late. -/
theorem JoinInv.move (hI : JoinInv s) (tokens : Nat)
    (hSum : tokens + j.held = s.tokens + (s.joiner t).held)
    (hLone : j.persists = true → ∀ u, u ≠ t → (s.joiner u).persists = false)
    (hLate : j.held ≠ 0 → ∀ u, u ≠ t → j.late = true ∨ (s.joiner u).late = true →
      (s.joiner u).held = 0)
    (hSettled : Settled s.phase j) : JoinInv { s.setJoiner t j with tokens := tokens } := by
  have hAt : ∀ u, ({ s.setJoiner t j with tokens := tokens } : State).joiner u =
      if u = t then j else s.joiner u := fun u => Function.update_apply ..
  have hOther : ∀ u, u ≠ t →
      ({ s.setJoiner t j with tokens := tokens } : State).joiner u = s.joiner u :=
    fun u hu => (hAt u).trans (if_neg hu)
  refine ⟨hI.status, ?_, ?_, ?_, ?_⟩
  -- the tokens together: the sum without this joiner is the same
  · intro k hk
    obtain ⟨hs, hIn, hOld⟩ := hI.conserved k hk
    refine ⟨insert t hs, fun u hu => ?_, ?_⟩
    · have hut : u ≠ t := fun h => hu (h ▸ Finset.mem_insert_self ..)
      rw [hOther u hut]
      exact hIn.insert t u hu
    · rw [← State.heldBy_insert hIn t] at hOld
      rw [State.heldBy_erase (Finset.mem_insert_self t hs)] at hOld ⊢
      rw [State.heldBy_move hOther, hAt, if_pos rfl]
      show tokens + _ = k
      omega
  -- only one joiner persists
  · intro u v hu hv
    rw [hAt] at hu hv
    by_cases hut : u = t
    · by_cases hvt : v = t
      · rw [hut, hvt]
      · rw [if_pos hut] at hu
        rw [if_neg hvt, hLone hu v hvt] at hv
        cases hv
    · rw [if_neg hut] at hu
      by_cases hvt : v = t
      · rw [if_pos hvt] at hv
        rw [hLone hv u hut] at hu
        cases hu
      · rw [if_neg hvt] at hv
        exact hI.lone u v hu hv
  -- a late joiner holds its tokens alone
  · intro u v huv hu
    rw [hAt] at hu
    rw [hAt u, hAt v]
    by_cases hut : u = t
    · have hvt : v ≠ t := fun h => huv (hut.trans h.symm)
      rw [if_pos hut] at hu
      rw [if_pos hut, if_neg hvt]
      by_cases hj : j.held = 0
      · exact Or.inl hj
      · exact Or.inr (hLate hj v hvt (.inl hu))
    · rw [if_neg hut] at hu
      rw [if_neg hut]
      by_cases hvt : v = t
      · rw [if_pos hvt]
        by_cases hj : j.held = 0
        · exact Or.inr hj
        · exact Or.inl (hLate hj u hut (.inr hu))
      · rw [if_neg hvt]
        exact hI.late u v huv hu
  -- each joiner agrees with the phase
  · intro u
    rw [hAt u]
    split
    · exact hSettled
    · exact hI.settled u

/-- A joiner that is past its waits, or has held tokens before and is not in time. -/
theorem JoinInv.moveOn (hI : JoinInv s) (tokens : Nat)
    (hSum : tokens + j.held = s.tokens + (s.joiner t).held) (hPersists : j.persists = false)
    (hHeld : j.held ≠ 0 → (s.joiner t).held ≠ 0 ∧ j.late = false) (hSettled : Settled s.phase j) :
    JoinInv { s.setJoiner t j with tokens := tokens } := by
  refine hI.move tokens hSum (fun h => ?_) (fun hj u hut hLate => ?_) hSettled
  · rw [hPersists] at h
    cases h
  · obtain ⟨hOld, hNot⟩ := hHeld hj
    rcases hLate with hMine | hOther
    · rw [hNot] at hMine
      cases hMine
    · exact (hI.late u t hut hOther).resolve_right hOld

/-- A step of `Start` or `SetEnded` keeps what is known of the joiners. -/
theorem JoinInv.advance (hI : JoinInv s) {status : CoStatus} {phase : Phase} {tokens : Nat}
    (hStatus : phase = .ending ∨ phase = .ended → status = .ended)
    (hTokens : ∀ k, phase.total = some k → ∃ hs, s.HeldIn hs ∧ tokens + s.heldBy hs = k)
    (hSettled : ∀ u, Settled s.phase (s.joiner u) → Settled phase (s.joiner u)) :
    JoinInv ⟨status, phase, tokens, s.joiner⟩ :=
  ⟨hStatus, hTokens, hI.lone, hI.late, fun u => hSettled u (hI.settled u)⟩

/-- While `Start` runs no joiner holds a token, since nothing has been given yet. -/
theorem JoinInv.unheld_of_inStart (hI : JoinInv s) (hStart : s.phase.inStart = true) (u : Nat) :
    (s.joiner u).held = 0 := by
  have hSettled := hI.settled u
  have hNotEnded : s.phase ≠ .ended := by
    intro hEnded
    rw [hEnded] at hStart
    cases hStart
  rcases hj : s.joiner u with _ | _ | _ | _ | _ | _ | _ | _ | _
  all_goals rw [hj] at hSettled
  case second =>
    rw [hSettled.1] at hStart
    cases hStart
  case putBack =>
    rw [hSettled.1] at hStart
    cases hStart
  case giveBoth => exact absurd hSettled hNotEnded
  case giveOne => exact absurd hSettled hNotEnded
  all_goals rfl

/-- What is known of a joiner survives a step to a phase that is not one of `Start`
when the coroutine had not ended before. -/
theorem settled_of_not_ended {phase phase' : Phase} (hNot : phase ≠ .ended)
    (hStart : phase'.inStart = false) (hSettled : Settled phase j) : Settled phase' j := by
  cases j with
  | outside => trivial
  | first timed e => exact fun he => absurd (hSettled he) hNot
  | second timed e => exact ⟨hStart, fun he => absurd (hSettled.2 he) hNot⟩
  | giveBoth e => exact absurd hSettled hNot
  | giveOne e => exact absurd hSettled hNot
  | check e => exact absurd hSettled hNot
  | putBack e => exact ⟨hStart, hSettled.2⟩
  | aborted => exact hSettled
  | returned ended e => exact hSettled

/-- The same for a step within `Start`: no joiner is settled in a way that the end of the
coroutine is needed for. -/
theorem settled_in_start {phase phase' : Phase} (hStart : phase.inStart = true)
    (hSettled : Settled phase j) : Settled phase' j := by
  have hNot : phase ≠ .ended := by
    rintro rfl
    cases hStart
  cases j with
  | outside => trivial
  | first timed e => exact fun he => absurd (hSettled he) hNot
  | second timed e =>
    rw [hSettled.1] at hStart
    cases hStart
  | giveBoth e => exact absurd hSettled hNot
  | giveOne e => exact absurd hSettled hNot
  | check e => exact absurd hSettled hNot
  | putBack e =>
    rw [hSettled.1] at hStart
    cases hStart
  | aborted => exact hSettled
  | returned ended e => exact hSettled

/-- Until the end of the coroutine there is one token at most, since the second one is given
at the end. -/
theorem Phase.total_le_one {phase : Phase} (hStart : phase.inStart = false) (hNot : phase ≠ .ended) :
    ∃ k, phase.total = some k ∧ k ≤ 1 := by
  cases phase with
  | passive => exact ⟨0, rfl, Nat.zero_le _⟩
  | ready => exact ⟨1, rfl, Nat.le_refl _⟩
  | running => exact ⟨1, rfl, Nat.le_refl _⟩
  | ending => exact ⟨1, rfl, Nat.le_refl _⟩
  | ended => exact absurd rfl hNot
  | starting => cases hStart
  | started => cases hStart
  | cleared => cases hStart

/-- A joiner that waits for its second token while the coroutine has not ended
finds none. -/
theorem JoinInv.ended_of_token (hI : JoinInv s) {timed e : Bool} (ht : s.joiner t = .second timed e)
    (hPos : 0 < s.tokens) : s.phase = .ended := by
  by_contra hNot
  have hSettled := hI.settled t
  rw [ht] at hSettled
  obtain ⟨k, hk, hLe⟩ := Phase.total_le_one hSettled.1 hNot
  have hSum := hI.held_le hk t
  rw [ht] at hSum
  simp only [Joiner.held] at hSum
  omega

/-- A joiner that times out has begun its wait before the end. After the end both tokens are
there or with joiners, and the condition lets no late joiner share them. -/
theorem JoinInv.early_of_timeOut (hI : JoinInv s) {e : Bool} (ht : s.joiner t = .second true e)
    (hZero : s.tokens = 0) : e = false := by
  by_contra hE
  have hE : e = true := by simpa using hE
  subst hE
  have hSettled := hI.settled t
  rw [ht] at hSettled
  have hEnded : s.phase = .ended := hSettled.2 rfl
  -- it holds its token alone, so the second one is in the semaphore
  have hSum := hI.conserved_alone (t := t) (k := 2) (by rw [hEnded]; rfl) fun u hu =>
    (hI.late t u (Ne.symm hu) (by rw [ht]; rfl)).resolve_left (by rw [ht]; exact Nat.one_ne_zero)
  rw [ht] at hSum
  simp only [Joiner.held] at hSum
  omega

/-- **Joiners keep the invariant.** The condition is used where a joiner takes its first
token; all other operations only finish what it has begun. -/
theorem joinInv_joiner (hI : JoinInv s) (hOk : Unshared s a) (ha : a.ofJoiner = true)
    (hNext : next s a = some s') : JoinInv s' := by
  cases a with
  | enter t timed =>
    simp only [next] at hNext
    split at hNext
    · rename_i hGuard
      obtain rfl := Option.some.inj hNext
      refine hI.moveOn s.tokens ?_ rfl (fun h => absurd rfl h) ?_
      · rcases hj : s.joiner t with _ | _ | _ | _ | _ | _ | _ | _ | _
        all_goals simp [hj, Joiner.inside] at hGuard
        all_goals rfl
      · intro he
        exact beq_iff_eq.mp (Bool.and_eq_true _ _ ▸ he).2
    · cases hNext
  -- the first token: here two joiners could share the tokens
  | firstToken t =>
    simp only [next] at hNext
    split at hNext
    · rename_i timed e hj
      split at hNext
      · rename_i hPos
        obtain rfl := Option.some.inj hNext
        have hSettled := hI.settled t
        rw [hj] at hSettled
        -- the condition, in the three cases in which sharing does harm
        obtain ⟨hStart, hOthers, hMine, hLone⟩ := hOk
        refine hI.move _ ?_ (fun hPersists u _ => ?_) (fun _ u _ hLate => ?_) ⟨hStart, hSettled⟩
        · rw [hj]
          simp only [Joiner.held]
          omega
        · cases timed with
          | false => exact hLone ⟨e, hj⟩ u
          | true => cases hPersists
        · rcases hLate with hLate | hLate
          · exact hMine (by rw [hj]; exact hLate) u
          · exact hOthers u hLate
      · cases hNext
    · cases hNext
  -- the second token: the coroutine has ended, as it gives this one at its end
  | secondToken t =>
    simp only [next] at hNext
    split at hNext
    · rename_i timed e hj
      split at hNext
      · rename_i hPos
        obtain rfl := Option.some.inj hNext
        refine hI.moveOn _ ?_ rfl (fun _ => ⟨?_, rfl⟩) (hI.ended_of_token hj hPos)
        · rw [hj]
          simp only [Joiner.held]
          omega
        · rw [hj]
          exact Nat.one_ne_zero
      · cases hNext
    · cases hNext
  -- the timeout of the second wait: there was no token, so the coroutine has not ended
  | timeOut t =>
    simp only [next] at hNext
    split at hNext
    · rename_i e hj
      split at hNext
      · rename_i hZero
        obtain rfl := Option.some.inj hNext
        have hSettled := hI.settled t
        rw [hj] at hSettled
        exact hI.moveOn s.tokens (by rw [hj]; rfl) rfl (fun _ => ⟨by rw [hj]; exact Nat.one_ne_zero, rfl⟩)
          ⟨hSettled.1, hI.early_of_timeOut hj hZero⟩
      · cases hNext
    · cases hNext
  -- tokens are given back
  | signal t =>
    simp only [next] at hNext
    split at hNext
    · rename_i e hj
      obtain rfl := Option.some.inj hNext
      have hSettled := hI.settled t
      rw [hj] at hSettled
      exact hI.moveOn _ (by rw [hj]; rfl) rfl (fun _ => ⟨by rw [hj]; exact Nat.succ_ne_zero 1, rfl⟩)
        hSettled
    · rename_i e hj
      obtain rfl := Option.some.inj hNext
      have hSettled := hI.settled t
      rw [hj] at hSettled
      exact hI.moveOn _ (by rw [hj]; rfl) rfl (fun h => absurd rfl h) hSettled
    · rename_i e hj
      obtain rfl := Option.some.inj hNext
      have hSettled := hI.settled t
      rw [hj] at hSettled
      exact hI.moveOn _ (by rw [hj]; rfl) rfl (fun h => absurd rfl h) fun _ => hSettled.2
    · cases hNext
  -- the assertion behind the two waits
  | checkEnded t =>
    simp only [next] at hNext
    split at hNext
    · rename_i e hj
      obtain rfl := Option.some.inj hNext
      have hSettled := hI.settled t
      rw [hj] at hSettled
      rw [if_pos (hI.status (Or.inr hSettled))]
      exact hI.moveOn s.tokens (by rw [hj]; rfl) rfl (fun h => absurd rfl h) fun h => by cases h
    · cases hNext
  | start => cases ha
  | setStarted => cases ha
  | semSet => cases ha
  | semSignal => cases ha
  | transfer => cases ha
  | setEnded => cases ha
  | endSignal => cases ha

/-- **`Start`, `Run` and `SetEnded` keep the invariant.** `Start` empties the semaphore and
gives the first token, `SetEnded` the second one; in between the sum stays what it is. The
condition is used at `Start`, which would take the tokens away from joiners that are still
inside. -/
theorem joinInv_coroutine (hI : JoinInv s) (hOk : Unshared s a) (ha : a.ofJoiner = false)
    (hNext : next s a = some s') : JoinInv s' := by
  have hSum := hI.conserved
  cases a with
  -- joiners that are still inside wait for their first token, and have come early
  | start =>
    have hWaiting : ∀ u, Settled s.phase (s.joiner u) → Settled .starting (s.joiner u) := by
      intro u hSettled
      by_cases hIn : (s.joiner u).inside = true
      · obtain ⟨⟨timed, e, hj⟩, hLate⟩ := hOk u hIn
        rw [hj] at hLate ⊢
        intro he
        cases hLate.symm.trans he
      · rcases hj : s.joiner u with _ | _ | _ | _ | _ | _ | _ | _ | _
        all_goals rw [hj] at hSettled hIn
        case outside => trivial
        case returned => exact hSettled
        all_goals exact absurd rfl hIn
    have hEq : s' = { s with phase := .starting } := by
      simp only [next] at hNext
      split at hNext
      all_goals first
        | exact (Option.some.inj hNext).symm
        | cases hNext
    rw [hEq]
    exact hI.advance (by simp) nofun hWaiting
  | setStarted =>
    simp only [next] at hNext
    split at hNext
    · rename_i hPhase
      obtain rfl := Option.some.inj hNext
      exact hI.advance (by simp) nofun fun u => settled_in_start (by rw [hPhase]; rfl)
    · cases hNext
  -- the semaphore is emptied: nobody holds a token now
  | semSet =>
    simp only [next] at hNext
    split at hNext
    · rename_i hPhase
      obtain rfl := Option.some.inj hNext
      have hStart : s.phase.inStart = true := by
        rw [hPhase]
        rfl
      refine hI.advance (by simp) ?_ fun u => settled_in_start hStart
      rintro k ⟨⟩
      exact ⟨∅, fun u _ => hI.unheld_of_inStart hStart u, rfl⟩
    · cases hNext
  -- the first token
  | semSignal =>
    simp only [next] at hNext
    split at hNext
    · rename_i hPhase
      obtain rfl := Option.some.inj hNext
      refine hI.advance (by simp) ?_ fun u => settled_in_start (by rw [hPhase]; rfl)
      rintro k ⟨⟩
      obtain ⟨hs, hIn, hZero⟩ := hSum 0 (by rw [hPhase]; rfl)
      exact ⟨hs, hIn, by omega⟩
    · cases hNext
  | transfer =>
    simp only [next] at hNext
    split at hNext
    · rename_i hPhase
      obtain rfl := Option.some.inj hNext
      refine hI.advance (by simp) ?_ fun u => settled_of_not_ended (by rw [hPhase]; decide) rfl
      rintro k ⟨⟩
      exact hSum 1 (by rw [hPhase]; rfl)
    · cases hNext
  | setEnded =>
    simp only [next] at hNext
    split at hNext
    · rename_i hPhase
      obtain rfl := Option.some.inj hNext
      refine hI.advance (by simp) ?_ fun u => settled_of_not_ended (by rw [hPhase]; decide) rfl
      rintro k ⟨⟩
      exact hSum 1 (by rw [hPhase]; rfl)
    · cases hNext
  -- the second token, with the status set before
  | endSignal =>
    simp only [next] at hNext
    split at hNext
    · rename_i hPhase
      obtain rfl := Option.some.inj hNext
      refine hI.advance (fun _ => hI.status (Or.inl hPhase)) ?_ fun u =>
        settled_of_not_ended (by rw [hPhase]; decide) rfl
      rintro k ⟨⟩
      obtain ⟨hs, hIn, hOne⟩ := hSum 1 (by rw [hPhase]; rfl)
      exact ⟨hs, hIn, by omega⟩
    · cases hNext
  | enter => cases ha
  | firstToken => cases ha
  | secondToken => cases ha
  | timeOut => cases ha
  | signal => cases ha
  | checkEnded => cases ha

/-- Nobody has joined yet, and there are no tokens. -/
theorem joinInv_initial : JoinInv initial where
  status h := by rcases h with h | h <;> cases h
  conserved k hk := by
    cases hk
    exact ⟨∅, fun _ _ => rfl, rfl⟩
  lone _ _ hu := by cases hu
  late _ _ _ hu := by cases hu
  settled _ := trivial

/-- **The invariant holds in every run whose steps meet the condition.** -/
theorem joinInv_reachable (h : Runs.ReachableUnder system Unshared s) : JoinInv s := by
  refine h.invariant ?_ ?_
  · rintro _ rfl
    exact joinInv_initial
  · intro s a s' hI hOk hNext
    cases ha : a.ofJoiner with
    | true => exact joinInv_joiner hI hOk ha hNext
    | false => exact joinInv_coroutine hI hOk ha hNext

-- ---------------------------------------------------------------------------
-- Running a joiner to its end
-- ---------------------------------------------------------------------------

/-- The state in which joiner `t` has left with its tokens given back. -/
def State.release (s : State) (t : Nat) (j : Joiner) : State :=
  { s.setJoiner t j with tokens := s.tokens + (s.joiner t).held }

theorem JoinersRun.head {s₁ : State} (ha : a.ofJoiner = true) (hNext : next s a = some s₁)
    (hRun : JoinersRun s₁ s') : JoinersRun s s' :=
  Relation.ReflTransGen.head ⟨a, ha, hNext⟩ hRun

@[simp] theorem setJoiner_joiner (s : State) (t : Nat) (j : Joiner) :
    (s.setJoiner t j).joiner t = j := Function.update_self ..

theorem run_check {e : Bool} (hj : s.joiner t = .check e) (hEnded : s.status = .ended) :
    JoinersRun s (s.setJoiner t (.returned true e)) := by
  refine .single ⟨.checkEnded t, rfl, ?_⟩
  simp [next, hj, hEnded]

/-- A joiner gives its one token back and returns. -/
theorem run_giveOne {e : Bool} (hj : s.joiner t = .giveOne e) (hEnded : s.status = .ended) :
    JoinersRun s { s.setJoiner t (.returned true e) with tokens := s.tokens + 1 } := by
  have hNext : next s (.signal t) =
      some { s.setJoiner t (.check e) with tokens := s.tokens + 1 } := by simp [next, hj]
  refine JoinersRun.head rfl hNext ?_
  have hRun := run_check (s := { s.setJoiner t (.check e) with tokens := s.tokens + 1 }) (t := t)
    (e := e) (Function.update_self ..) hEnded
  simpa [State.setJoiner, Function.update_idem] using hRun

/-- A joiner gives both tokens back and returns. -/
theorem run_giveBoth {e : Bool} (hj : s.joiner t = .giveBoth e) (hEnded : s.status = .ended) :
    JoinersRun s { s.setJoiner t (.returned true e) with tokens := s.tokens + 2 } := by
  have hNext : next s (.signal t) =
      some { s.setJoiner t (.giveOne e) with tokens := s.tokens + 1 } := by simp [next, hj]
  refine JoinersRun.head rfl hNext ?_
  have hRun := run_giveOne (s := { s.setJoiner t (.giveOne e) with tokens := s.tokens + 1 }) (t := t)
    (e := e) (Function.update_self ..) hEnded
  simpa [State.setJoiner, Function.update_idem] using hRun

/-- A joiner that waits for its second token takes it, gives both back and returns. -/
theorem run_second {timed e : Bool} (hj : s.joiner t = .second timed e)
    (hEnded : s.status = .ended) (hPos : 0 < s.tokens) :
    JoinersRun s { s.setJoiner t (.returned true e) with tokens := s.tokens + 1 } := by
  have hNext : next s (.secondToken t) =
      some { s.setJoiner t (.giveBoth e) with tokens := s.tokens - 1 } := by
    simp [next, hj, hPos]
  refine JoinersRun.head rfl hNext ?_
  have hRun := run_giveBoth (s := { s.setJoiner t (.giveBoth e) with tokens := s.tokens - 1 }) (t := t)
    (e := e) (Function.update_self ..) hEnded
  have hTokens : s.tokens - 1 + 2 = s.tokens + 1 := by omega
  simpa [State.setJoiner, Function.update_idem, hTokens] using hRun

/-- A joiner finds both tokens, takes them and gives them back. -/
theorem run_first {timed e : Bool} (hj : s.joiner t = .first timed e)
    (hEnded : s.status = .ended) (hTwo : s.tokens = 2) :
    JoinersRun s (s.setJoiner t (.returned true e)) := by
  have hNext : next s (.firstToken t) =
      some { s.setJoiner t (.second timed e) with tokens := s.tokens - 1 } := by
    simp [next, hj, hTwo]
  refine JoinersRun.head rfl hNext ?_
  have hSecond : ({ s.setJoiner t (.second timed e) with tokens := s.tokens - 1 } : State).joiner t =
      .second timed e := Function.update_self ..
  have hRun := run_second hSecond hEnded (by simp [hTwo])
  have hTokens : s.tokens - 1 + 1 = s.tokens := by omega
  simpa [State.setJoiner, Function.update_idem, hTokens] using hRun

theorem run_timeOut {e : Bool} (hj : s.joiner t = .second true e) (hZero : s.tokens = 0) :
    JoinersRun s { s.setJoiner t (.returned false e) with tokens := s.tokens + 1 } := by
  have hNext : next s (.timeOut t) = some (s.setJoiner t (.putBack e)) := by simp [next, hj, hZero]
  refine JoinersRun.head rfl hNext (.single ⟨.signal t, rfl, ?_⟩)
  simp [next, State.setJoiner, Function.update_idem]

/-- The joiner can leave on its own, with its tokens given back. -/
def Leaves (s : State) (t : Nat) : Prop :=
  ∃ j : Joiner, j.inside = false ∧ Settled s.phase j ∧ JoinersRun s (s.release t j)

/-- **A joiner that holds tokens gives them back** once the coroutine has ended, unless it
waits for the second one, without a timeout, while there is none. -/
theorem JoinInv.leaves (hI : JoinInv s) (hEnded : s.phase = .ended)
    (hHeld : (s.joiner t).held ≠ 0) (hFree : (s.joiner t).persists = false ∨ 0 < s.tokens) :
    Leaves s t := by
  have hStatus := hI.status (Or.inr hEnded)
  unfold Leaves State.release
  cases hj : s.joiner t with
  | outside => exact absurd (by rw [hj]; rfl) hHeld
  | first => exact absurd (by rw [hj]; rfl) hHeld
  -- it waits for the second token: there is one, or its time is over
  | second timed e =>
    by_cases hPos : 0 < s.tokens
    · exact ⟨.returned true e, rfl, fun h => (by cases h), run_second hj hStatus hPos⟩
    · have hZero := Nat.eq_zero_of_not_pos hPos
      cases timed with
      | false =>
        rw [hj] at hFree
        rcases hFree with hNot | hPos'
        · cases hNot
        · exact absurd hPos' hPos
      | true =>
        exact ⟨.returned false e, rfl, fun _ => hI.early_of_timeOut hj hZero, run_timeOut hj hZero⟩
  | giveBoth e => exact ⟨.returned true e, rfl, fun h => (by cases h), run_giveBoth hj hStatus⟩
  | giveOne e => exact ⟨.returned true e, rfl, fun h => (by cases h), run_giveOne hj hStatus⟩
  | check => exact absurd (by rw [hj]; rfl) hHeld
  | putBack e =>
    have hSettled := hI.settled t
    rw [hj] at hSettled
    refine ⟨.returned false e, rfl, fun _ => hSettled.2, .single ⟨.signal t, rfl, ?_⟩⟩
    simp [next, hj, Joiner.held]
  | aborted => exact absurd (by rw [hj]; rfl) hHeld
  | returned => exact absurd (by rw [hj]; rfl) hHeld

/-- **One of the joiners that hold tokens can leave** once the coroutine has ended: if one
waits for its second token and there is none, another joiner has it, and that one does not
wait as well. -/
theorem JoinInv.one_leaves (hI : JoinInv s) (hEnded : s.phase = .ended)
    (hHeld : (s.joiner t).held ≠ 0) : ∃ u, (s.joiner u).held ≠ 0 ∧ Leaves s u := by
  by_cases hFree : (s.joiner t).persists = false ∨ 0 < s.tokens
  · exact ⟨t, hHeld, hI.leaves hEnded hHeld hFree⟩
  · obtain ⟨hPersists, hNone⟩ := not_or.mp hFree
    have hPersists : (s.joiner t).persists = true := by simpa using hPersists
    obtain ⟨u, hut, hu⟩ : ∃ u, u ≠ t ∧ (s.joiner u).held ≠ 0 := by
      by_contra hNot
      have hAlone := hI.conserved_alone (t := t) (k := 2) (by rw [hEnded]; rfl) fun u hut => by
        by_contra hu
        exact hNot ⟨u, hut, hu⟩
      rw [Joiner.held_of_persists hPersists] at hAlone
      omega
    have hNotLone : (s.joiner u).persists = false := by
      cases hOther : (s.joiner u).persists with
      | false => rfl
      | true => exact absurd (hI.lone u t hOther hPersists) hut
    exact ⟨u, hu, hI.leaves hEnded hu (.inl hNotLone)⟩

/-- A joiner that has left keeps the invariant. -/
theorem JoinInv.release (hI : JoinInv s) (hOut : j.inside = false) (hSettled : Settled s.phase j) :
    JoinInv (s.release t j) := by
  have hNothing : j.held = 0 ∧ j.persists = false := by
    cases j <;> first | exact ⟨rfl, rfl⟩ | cases hOut
  refine hI.moveOn _ ?_ hNothing.2 (fun h => absurd hNothing.1 h) hSettled
  rw [hNothing.1, Nat.add_zero]

/-- **All tokens come back** once the coroutine has ended: the joiners that hold some leave
one after the other. The induction is on the number of joiners that may hold any. -/
theorem JoinInv.drains (hI : JoinInv s) (hEnded : s.phase = .ended) (hIn : s.HeldIn hs) :
    ∃ s', JoinersRun s s' ∧ JoinInv s' ∧ s'.phase = .ended ∧ ∀ u, (s'.joiner u).held = 0 := by
  induction hn : hs.card generalizing s hs with
  | zero =>
    refine ⟨s, .refl, hI, hEnded, fun u => hIn u ?_⟩
    rw [Finset.card_eq_zero.mp hn]
    exact Finset.notMem_empty u
  | succ n ih =>
    by_cases hZero : ∀ u, (s.joiner u).held = 0
    · exact ⟨s, .refl, hI, hEnded, hZero⟩
    · obtain ⟨t, ht⟩ := not_forall.mp hZero
      obtain ⟨u, hu, j, hOut, hSettled, hRun⟩ := hI.one_leaves hEnded ht
      have hMem : u ∈ hs := by
        -- the joiner that leaves is among those counted
        by_contra hNot
        exact hu (hIn u hNot)
      -- it leaves with no token
      have hHeld : j.held = 0 := by
        cases j <;> first | rfl | cases hOut
      have hIn' : (s.release u j).HeldIn (hs.erase u) := by
        intro v hv
        by_cases hvu : v = u
        · rw [hvu]
          exact (congrArg Joiner.held (Function.update_self ..)).trans hHeld
        · rw [show (s.release u j).joiner v = s.joiner v from Function.update_of_ne hvu ..]
          exact hIn v fun h => hv (Finset.mem_erase.mpr ⟨hvu, h⟩)
      obtain ⟨s', hRun', hDrained⟩ :=
        ih (hI.release hOut hSettled) hEnded hIn' (by rw [Finset.card_erase_of_mem hMem, hn]; rfl)
      exact ⟨s', hRun.trans hRun', hDrained⟩

/-- **Every joiner can complete** once the coroutine has ended: first all others give their
tokens back, then the two tokens are there for it. -/
theorem JoinInv.canComplete (hI : JoinInv s) (hEnded : s.phase = .ended) (t : Nat) :
    CanComplete s t := by
  obtain ⟨hs, hIn, -⟩ := hI.conserved 2 (by rw [hEnded]; rfl)
  obtain ⟨s', hRun, hI', hEnded', hZero⟩ := hI.drains hEnded hIn
  have hStatus := hI'.status (Or.inr hEnded')
  have hHeld := hZero t
  cases hj : s'.joiner t with
  | outside => exact ⟨s', hRun, by rw [hj]; rfl⟩
  | returned => exact ⟨s', hRun, by rw [hj]; rfl⟩
  | check e => exact ⟨_, hRun.trans (run_check hj hStatus), by simp [Joiner.inside]⟩
  | aborted =>
    have hSettled := hI'.settled t
    rw [hj] at hSettled
    exact absurd hSettled id
  | first timed e =>
    have hTwo := hI'.conserved_alone (t := t) (k := 2) (by rw [hEnded']; rfl) fun u _ => hZero u
    rw [hHeld] at hTwo
    exact ⟨_, hRun.trans (run_first hj hStatus hTwo), by simp [Joiner.inside]⟩
  | second => exact absurd hHeld (by rw [hj]; exact Nat.one_ne_zero)
  | giveBoth => exact absurd hHeld (by rw [hj]; exact Nat.succ_ne_zero 1)
  | giveOne => exact absurd hHeld (by rw [hj]; exact Nat.one_ne_zero)
  | putBack => exact absurd hHeld (by rw [hj]; exact Nat.one_ne_zero)

/-- **Joining is safe** in every run whose steps meet the condition: once the coroutine has
ended every joiner can complete, the semaphore is back at two tokens when none is inside,
and a timeout is reported only to a joiner that came before the end. -/
theorem join_safe (h : Runs.ReachableUnder system Unshared s) : JoinSafe s := by
  have hI := joinInv_reachable h
  refine ⟨fun hEnded t _ => hI.canComplete hEnded t, fun hEnded hOutside => ?_, fun t e hj => ?_⟩
  -- with nobody inside nobody holds a token, so both are in the semaphore
  · have hZero : ∀ u, (s.joiner u).held = 0 := by
      intro u
      have hOut := hOutside u
      cases hj : s.joiner u with
      | outside => rfl
      | returned => rfl
      | first => simp [hj, Joiner.inside] at hOut
      | second => simp [hj, Joiner.inside] at hOut
      | giveBoth => simp [hj, Joiner.inside] at hOut
      | giveOne => simp [hj, Joiner.inside] at hOut
      | check => simp [hj, Joiner.inside] at hOut
      | putBack => simp [hj, Joiner.inside] at hOut
      | aborted => simp [hj, Joiner.inside] at hOut
    have hTwo := hI.conserved_alone (t := 0) (k := 2) (by rw [hEnded]; rfl) fun v _ => hZero v
    rwa [hZero 0] at hTwo
  · have hSettled := hI.settled t
    rw [hj] at hSettled
    exact hSettled rfl

/-- The state after a coroutine has started, run and ended. -/
def endedState : State := ⟨.ended, .ended, 2, fun _ => .outside⟩

/-- The run behind the example: the coroutine has ended and two joiners are inside. -/
theorem endedState_reachable : Runs.ReachableUnder system Unshared endedState := by
  have hStart : Unshared initial .start := fun u hIn => by cases hIn
  have h₁ : Runs.ReachableUnder system Unshared { initial with phase := .starting } :=
    .step (.init rfl) hStart rfl
  have h₂ : Runs.ReachableUnder system Unshared ⟨.waiting, .started, 0, fun _ => .outside⟩ :=
    h₁.step (i := .setStarted) trivial rfl
  have h₃ : Runs.ReachableUnder system Unshared ⟨.waiting, .cleared, 0, fun _ => .outside⟩ :=
    h₂.step (i := .semSet) trivial rfl
  have h₄ : Runs.ReachableUnder system Unshared ⟨.waiting, .ready, 1, fun _ => .outside⟩ :=
    h₃.step (i := .semSignal) trivial rfl
  have h₅ : Runs.ReachableUnder system Unshared ⟨.enabled, .running, 1, fun _ => .outside⟩ :=
    h₄.step (i := .transfer) trivial rfl
  have h₆ : Runs.ReachableUnder system Unshared ⟨.ended, .ending, 1, fun _ => .outside⟩ :=
    h₅.step (i := .setEnded) trivial rfl
  exact h₆.step (i := .endSignal) trivial rfl

/-- Joiner 1 has given one of its tokens back, and joiner 2 takes it. -/
theorem join_safe_two_joiners : ∃ s : State, s.tokens = 0 ∧ s.joiner 1 = .giveOne true ∧
    s.joiner 2 = .second false true ∧ CanComplete s 2 := by
  have h₁ := endedState_reachable.step (i := Action.enter 1 false) trivial rfl
  have h₂ := h₁.step (i := Action.firstToken 1) (.of_quiet rfl fun u => by
    by_cases h₁ : u = 1 <;> simp [State.setJoiner, endedState, h₁, Joiner.persists, Joiner.late]) rfl
  have h₃ := h₂.step (i := Action.secondToken 1) trivial rfl
  have h₄ := h₃.step (i := Action.signal 1) trivial rfl
  have h₅ := h₄.step (i := Action.enter 2 false) trivial rfl
  have h₆ := h₅.step (i := Action.firstToken 2) (.of_quiet rfl fun u => by
    by_cases h₁ : u = 1 <;> by_cases h₂ : u = 2 <;>
      simp [State.setJoiner, endedState, h₁, h₂, Joiner.persists, Joiner.late]) rfl
  exact ⟨_, rfl, rfl, rfl, (join_safe h₆).notStuck rfl 2 rfl⟩

/-- Every joiner inside waits without a timeout, and there is no token left. -/
structure Stuck (s : State) : Prop where
  tokens  : s.tokens = 0
  waiting : ∀ u, (s.joiner u).inside = true →
    (∃ timed e, s.joiner u = .first timed e) ∨ ∃ e, s.joiner u = .second false e
  holder  : ∃ e, s.joiner 1 = .second false e

/-- **Joiners cannot leave such a state**: nobody inside can take a token, and nobody holds
one that it would give back. -/
theorem Stuck.next (hStuck : Stuck s) (ha : a.ofJoiner = true) (hNext : next s a = some s') :
    Stuck s' := by
  have hZero := hStuck.tokens
  obtain ⟨e₁, hHolder⟩ := hStuck.holder
  cases a with
  -- another joiner may come, and waits as well
  | enter t timed =>
    simp only [Join.next] at hNext
    split at hNext
    · rename_i hGuard
      obtain rfl := Option.some.inj hNext
      have ht : t ≠ 1 := by
        rintro rfl
        rw [hHolder] at hGuard
        cases hGuard.1
      refine ⟨hZero, fun u hu => ?_, ⟨e₁, ?_⟩⟩
      · by_cases hut : u = t
        · subst hut
          exact Or.inl ⟨_, _, Function.update_self ..⟩
        · rw [show (s.setJoiner t _).joiner u = s.joiner u from Function.update_of_ne hut ..] at hu ⊢
          exact hStuck.waiting u hu
      · rw [← hHolder]
        exact Function.update_of_ne (Ne.symm ht) ..
    · cases hNext
  | firstToken t =>
    simp only [Join.next, hZero, Nat.lt_irrefl, if_false] at hNext
    split at hNext <;> cases hNext
  | secondToken t =>
    simp only [Join.next, hZero, Nat.lt_irrefl, if_false] at hNext
    split at hNext <;> cases hNext
  | timeOut t =>
    simp only [Join.next] at hNext
    split at hNext
    · rename_i e hj
      rcases hStuck.waiting t (by rw [hj]; rfl) with ⟨_, _, h⟩ | ⟨_, h⟩
      all_goals
        rw [hj] at h
        cases h
    · cases hNext
  | signal t =>
    simp only [Join.next] at hNext
    split at hNext
    case h_4 => cases hNext
    all_goals
      rename_i e hj
      rcases hStuck.waiting t (by rw [hj]; rfl) with ⟨_, _, h⟩ | ⟨_, h⟩
      all_goals
        rw [hj] at h
        cases h
  | checkEnded t =>
    simp only [Join.next] at hNext
    split at hNext
    · rename_i e hj
      rcases hStuck.waiting t (by rw [hj]; rfl) with ⟨_, _, h⟩ | ⟨_, h⟩
      all_goals
        rw [hj] at h
        cases h
    · cases hNext
  | start => cases ha
  | setStarted => cases ha
  | semSet => cases ha
  | semSignal => cases ha
  | transfer => cases ha
  | setEnded => cases ha
  | endSignal => cases ha

/-- Joiner 1 can take its second token only if another joiner gives one back, and all of
them wait. -/
theorem Stuck.not_canComplete (hStuck : Stuck s) : ¬ CanComplete s 1 := by
  rintro ⟨s', hRun, hOut⟩
  have hStuck' : Stuck s' := by
    clear hOut
    induction hRun with
    | refl => exact hStuck
    | tail _ hStep ih =>
      obtain ⟨a, ha, hNext⟩ := hStep
      exact ih.next ha hNext
  obtain ⟨e, hj⟩ := hStuck'.holder
  rw [hj] at hOut
  cases hOut

/-- The state in which two joiners of an ended coroutine hold one token each. -/
def twoJoiners : State :=
  { (endedState.setJoiner 1 (.second false true)).setJoiner 2 (.second false true) with tokens := 0 }

/-- Two joiners take one token each and wait for the second one, which nobody has to give:
both wait for ever, although the coroutine has ended long ago. -/
theorem join_stuck_two_joiners : ¬ ∀ s, Runs.Reachable system s → JoinSafe s := by
  intro hAll
  have hReach : Runs.Reachable system twoJoiners := by
    refine Runs.reachable_foldlM endedState_reachable.reachable
      [.enter 1 false, .firstToken 1, .enter 2 false, .firstToken 2] ?_
    simp [next, twoJoiners, endedState, State.setJoiner, Joiner.inside]
  have hStuck : Stuck twoJoiners := by
    refine ⟨rfl, fun u hu => ?_, ⟨true, rfl⟩⟩
    by_cases h₂ : u = 2
    · exact Or.inr ⟨true, by rw [h₂]; rfl⟩
    · by_cases h₁ : u = 1
      · exact Or.inr ⟨true, by rw [h₁]; rfl⟩
      · have hOut : twoJoiners.joiner u = .outside := by
          simp [twoJoiners, State.setJoiner, endedState, Function.update_of_ne h₁,
            Function.update_of_ne h₂]
        rw [hOut] at hu
        cases hu
  exact hStuck.not_canComplete ((hAll _ hReach).notStuck rfl 1 rfl)

end Join

end Concurrit.Model
