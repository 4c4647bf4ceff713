import Mathlib.Logic.Function.Basic
import Concurrit.Lib.Runs

/-!
# Concurrit — the re-entrant mutex

`Mutex::Lock` and `Unlock`, `ConditionVar::Wait` and `WaitTimed` step by step: `owner_` and
`count_` are plain fields beside a pthread mutex that is not re-entrant, and
`FullUnlockAux` and `FullLockAux` clear and rebuild them around a wait. Every access to a
shared variable is a step of its own; a failed assertion ends the process.

`__pthread_errno__` is one variable for all threads. A thread stores the result of a pthread
call in it and reads it again for every check, so a store of another thread in between
changes what the check sees. The semaphores and mutexes of the other modules (`Join`, `Mailbox`,
`Handshake`) store their results in the same variable. There an operation is one step that
succeeds, since what they are about is the order of the operations; the checks after each of them
are those of this module, and they can fail there in the same way.

* `inv_reachable` — the fields agree with the real lock at every step of every run.
* `mutex_sound` — the calls also return, as long as no store spoils a pending check.
-/

namespace Concurrit.Model

open Function (update)

namespace Mutex

-- ---------------------------------------------------------------------------
-- States
-- ---------------------------------------------------------------------------

def PTH_SUCCESS : Int := 0
def EINTR : Int := 4
def ETIMEDOUT : Int := 110

/-- Where a thread stands in `Lock`. -/
inductive LockPlace where
  /-- before `owner_ == self` -/
  | tests
  /-- before `count_++` -/
  | recurs
  /-- before `pthread_mutex_lock` -/
  | locks
  /-- before the result is stored -/
  | stores
  | checks
  /-- before `owner_ = self` -/
  | owns
  /-- before `count_ = 1` -/
  | counts
deriving DecidableEq, Repr

/-- Where a thread stands in `Unlock`. -/
inductive UnlockPlace where
  | tests
  /-- before `owner_ = PTH_INVALID_THREAD` -/
  | disowns
  /-- before `pthread_mutex_unlock` -/
  | unlocks
  | stores
  | checks
deriving DecidableEq, Repr

/-- Where a thread stands in `FullUnlockAux`; `times` is what it has saved. -/
inductive FullUnlockPlace where
  | saves
  | disowns (times : Nat)
  | clears (times : Nat)
deriving DecidableEq, Repr

/-- Where a thread stands in the checks of `WaitTimed`. -/
inductive TimedPlace where
  /-- before `__pthread_errno__ == PTH_SUCCESS` -/
  | success
  /-- before `__pthread_errno__ > 0` -/
  | positive
  /-- before `errno = __pthread_errno__` -/
  | setsErrno
  /-- before `__pthread_errno__ = -1` -/
  | setsMinusOne
  /-- before `__pthread_errno__ == -1 && errno == ETIMEDOUT` -/
  | timeout
  /-- before `safe_assert(__pthread_errno__ == -1 && errno == EINTR)` -/
  | interrupted
deriving DecidableEq, Repr

/-- Where a thread stands in `FullLockAux`. -/
inductive FullLockPlace where
  | tests
  | owns
  | counts
deriving DecidableEq, Repr

/-- Where a thread stands in `Wait` or `WaitTimed`. -/
inductive WaitPlace where
  /-- before `safe_assert(mutex->IsLocked())` -/
  | tests
  | unlocks (p : FullUnlockPlace)
  /-- before `pthread_cond_wait` or `pthread_cond_timedwait` -/
  | sleeps (times : Nat)
  | asleep (times : Nat)
  /-- woken up, or timed out, and in need of the pthread mutex -/
  | wakes (times : Nat) (timedOut : Bool)
  | stores (times : Nat) (timedOut : Bool)
  /-- before the check of `Wait` -/
  | checks (times : Nat)
  | timed (times : Nat) (p : TimedPlace)
  /-- at the head of the loop of `WaitTimed` again -/
  | again (times : Nat)
  | relocks (times : Nat) (p : FullLockPlace)
deriving DecidableEq, Repr

inductive Place where
  /-- in no call -/
  | outside
  | lock (p : LockPlace)
  | unlock (p : UnlockPlace)
  | wait (timed : Bool) (p : WaitPlace)
deriving DecidableEq, Repr

/-- What an assertion checks. -/
inductive Check where
  | owner
  | count
  | isLocked
  /-- the result of a pthread call -/
  | result
deriving DecidableEq, Repr

/-- `holder` is the thread that holds the pthread mutex, `depth` the number of `Lock`s of a
thread not undone yet, `failed` the assertion that has ended the process. -/
structure State where
  holder : Option Nat
  owner : Option Nat
  count : Nat
  /-- `__pthread_errno__` -/
  result : Int
  errno : Nat → Int
  place : Nat → Place
  depth : Nat → Nat
  failed : Option Check

namespace State

variable (x : State) (t : Nat)

def goto (p : Place) : State := { x with place := update x.place t p }

def fail (c : Check) : State := { x with failed := some c }

/-- The step goes on when the asserted condition holds. -/
def assert (p : Prop) [Decidable p] (c : Check) (next : State) : State :=
  if p then next else x.fail c

end State

-- ---------------------------------------------------------------------------
-- Steps
-- ---------------------------------------------------------------------------

/-- `Mutex::Lock`. -/
def Lock (x : State) (t : Nat) : LockPlace → Option State
  | .tests => some (x.goto t (.lock (if x.owner = some t then .recurs else .locks)))
  | .recurs =>
    some (x.assert (1 ≤ x.count) .count
      { x with
        count := x.count + 1
        depth := update x.depth t (x.depth t + 1)
        place := update x.place t .outside })
  | .locks =>
    if x.holder = none then
      some { x with holder := some t, place := update x.place t (.lock .stores) }
    else none
  | .stores => some { x with result := PTH_SUCCESS, place := update x.place t (.lock .checks) }
  | .checks => some (x.assert (x.result = PTH_SUCCESS) .result (x.goto t (.lock .owns)))
  | .owns =>
    some (x.assert (x.owner = none) .owner
      { x with owner := some t, place := update x.place t (.lock .counts) })
  | .counts =>
    some (x.assert (x.count = 0) .count
      { x with
        count := 1
        depth := update x.depth t (x.depth t + 1)
        place := update x.place t .outside })

/-- `Mutex::Unlock`. -/
def Unlock (x : State) (t : Nat) : UnlockPlace → Option State
  | .tests =>
    some (x.assert (x.owner = some t) .owner (x.assert (1 ≤ x.count) .count
      { x with
        count := x.count - 1
        depth := update x.depth t (x.depth t - 1)
        place := update x.place t (if x.count - 1 = 0 then .unlock .disowns else .outside) }))
  | .disowns => some { x with owner := none, place := update x.place t (.unlock .unlocks) }
  | .unlocks => some { x with holder := none, place := update x.place t (.unlock .stores) }
  | .stores => some { x with result := PTH_SUCCESS, place := update x.place t (.unlock .checks) }
  | .checks => some (x.assert (x.result = PTH_SUCCESS) .result (x.goto t .outside))

/-- `Mutex::FullUnlockAux`, in a wait. -/
def FullUnlockAux (x : State) (t : Nat) (timed : Bool) : FullUnlockPlace → Option State
  | .saves =>
    some (x.assert (x.owner = some t) .owner (x.assert (1 ≤ x.count) .count
      (x.goto t (.wait timed (.unlocks (.disowns x.count))))))
  | .disowns times =>
    some { x with owner := none, place := update x.place t (.wait timed (.unlocks (.clears times))) }
  | .clears times => some { x with count := 0, place := update x.place t (.wait timed (.sleeps times)) }

/-- `Mutex::FullLockAux`, at the end of a wait. -/
def FullLockAux (x : State) (t : Nat) (timed : Bool) (times : Nat) : FullLockPlace → Option State
  | .tests =>
    some (x.assert (x.owner = none) .owner (x.assert (x.count = 0) .count
      (x.goto t (.wait timed (.relocks times .owns)))))
  | .owns =>
    some { x with owner := some t, place := update x.place t (.wait timed (.relocks times .counts)) }
  | .counts =>
    some (x.assert (x.owner = some t) .owner (x.assert (1 ≤ times) .count
      { x with count := times, place := update x.place t .outside }))

/-- The checks of `WaitTimed` after `pthread_cond_timedwait`. -/
def timedChecks (x : State) (t : Nat) (timed : Bool) (times : Nat) : TimedPlace → State
  | .success =>
    x.goto t (.wait timed
      (if x.result = PTH_SUCCESS then .relocks times .tests else .timed times .positive))
  | .positive =>
    x.goto t (.wait timed (.timed times (if 0 < x.result then .setsErrno else .timeout)))
  | .setsErrno =>
    { x with
      errno := update x.errno t x.result
      place := update x.place t (.wait timed (.timed times .setsMinusOne)) }
  | .setsMinusOne =>
    { x with result := -1, place := update x.place t (.wait timed (.timed times .timeout)) }
  | .timeout =>
    x.goto t (.wait timed (if x.result = -1 ∧ x.errno t = ETIMEDOUT then .relocks times .tests
      else .timed times .interrupted))
  | .interrupted =>
    x.assert (x.result = -1 ∧ x.errno t = EINTR) .result (x.goto t (.wait timed (.again times)))

/-- `ConditionVar::Wait` and `WaitTimed`, the latter with a timeout above zero; with another
one it calls `Wait`. -/
def Wait (x : State) (t : Nat) (timed : Bool) : WaitPlace → Option State
  | .tests =>
    some (x.assert (x.owner ≠ none) .isLocked (x.goto t (.wait timed (.unlocks .saves))))
  | .unlocks p => FullUnlockAux x t timed p
  | .sleeps times =>
    some { x with holder := none, place := update x.place t (.wait timed (.asleep times)) }
  | .asleep _ => none
  | .wakes times timedOut =>
    if x.holder = none then
      some { x with
        holder := some t
        place := update x.place t (.wait timed (.stores times timedOut)) }
    else none
  | .stores times timedOut =>
    some { x with
      result := if timedOut then ETIMEDOUT else PTH_SUCCESS
      place := update x.place t
        (.wait timed (if timed then .timed times .success else .checks times)) }
  | .checks times =>
    some (x.assert (x.result = PTH_SUCCESS) .result (x.goto t (.wait timed (.relocks times .tests))))
  | .timed times p => some (timedChecks x t timed times p)
  | .again _ =>
    some (x.assert (x.owner ≠ none) .isLocked (x.goto t (.wait timed (.unlocks .saves))))
  | .relocks times p => FullLockAux x t timed times p

/-- The calls of a thread, properly nested. -/
inductive Call where
  | Lock
  | Unlock
  | Wait (timed : Bool)
deriving DecidableEq, Repr

inductive Label where
  | call (t : Nat) (c : Call)
  | run (t : Nat)
  /-- a signal, a spurious wake-up, or the end of the time -/
  | wake (t : Nat) (timedOut : Bool)
  /-- other code stores a result in `__pthread_errno__` -/
  | store (result : Int)
  /-- other code of a thread sets its `errno` -/
  | setErrno (t : Nat) (errno : Int)

def call (x : State) (t : Nat) : Call → Option State
  | .Lock => some (x.goto t (.lock .tests))
  | .Unlock => if 0 < x.depth t then some (x.goto t (.unlock .tests)) else none
  | .Wait timed => if 0 < x.depth t then some (x.goto t (.wait timed .tests)) else none

def run (x : State) (t : Nat) : Option State :=
  match x.place t with
  | .outside => none
  | .lock p => Lock x t p
  | .unlock p => Unlock x t p
  | .wait timed p => Wait x t timed p

/-- `pthread_cond_timedwait` returns 0 or `ETIMEDOUT`, `pthread_cond_wait` 0. -/
def wake (x : State) (t : Nat) (timedOut : Bool) : Option State :=
  match x.place t with
  | .wait timed (.asleep times) =>
    if timedOut && !timed then none else some (x.goto t (.wait timed (.wakes times timedOut)))
  | _ => none

def next (x : State) (l : Label) : Option State :=
  if x.failed ≠ none then none
  else match l with
    | .call t c => if x.place t = .outside then call x t c else none
    | .run t => run x t
    | .wake t timedOut => wake x t timedOut
    | .store result => some { x with result := result }
    | .setErrno t errno =>
      if x.place t = .outside then some { x with errno := update x.errno t errno } else none

/-- A new mutex, and threads in no call. -/
structure Initial (x : State) : Prop where
  holder : x.holder = none
  owner  : x.owner = none
  count  : x.count = 0
  place  : ∀ t, x.place t = .outside
  depth  : ∀ t, x.depth t = 0
  failed : x.failed = none

def system : Runs.System State Label where
  init := Initial
  step x l x' := next x l = some x'

-- ---------------------------------------------------------------------------
-- The fields and the real lock
-- ---------------------------------------------------------------------------

/-- What `owner_` and `count_` are while a thread of depth `d` stands at a place; `none` where
it does not hold the pthread mutex. -/
def fields (t d : Nat) : Place → Option (Option Nat × Nat)
  | .outside => if 0 < d then some (some t, d) else none
  | .lock .tests => if 0 < d then some (some t, d) else none
  | .lock .recurs => some (some t, d)
  | .lock .locks => none
  | .lock .stores | .lock .checks | .lock .owns => some (none, 0)
  | .lock .counts => some (some t, 0)
  | .unlock .tests => some (some t, d)
  | .unlock .disowns => some (some t, 0)
  | .unlock .unlocks => some (none, 0)
  | .unlock .stores | .unlock .checks => none
  | .wait _ .tests | .wait _ (.unlocks .saves) | .wait _ (.unlocks (.disowns _)) =>
    some (some t, d)
  | .wait _ (.unlocks (.clears _)) => some (none, d)
  | .wait _ (.sleeps _) => some (none, 0)
  | .wait _ (.asleep _) | .wait _ (.wakes _ _) => none
  | .wait _ (.stores _ _) | .wait _ (.checks _) | .wait _ (.timed _ _) | .wait _ (.again _) =>
    some (none, 0)
  | .wait _ (.relocks _ .tests) | .wait _ (.relocks _ .owns) => some (none, 0)
  | .wait _ (.relocks _ .counts) => some (some t, 0)

/-- What a place says about the depth of a thread. -/
def DepthOk (d : Nat) : Place → Prop
  | .outside | .lock .tests => True
  | .lock .recurs | .unlock .tests => 0 < d
  | .lock _ | .unlock _ => d = 0
  | .wait _ .tests | .wait _ (.unlocks .saves) => 0 < d
  | .wait _ (.unlocks (.disowns times)) | .wait _ (.unlocks (.clears times)) => times = d ∧ 0 < d
  | .wait _ (.sleeps times) | .wait _ (.asleep times) | .wait _ (.wakes times _) => times = d ∧ 0 < d
  | .wait _ (.stores times _) | .wait _ (.checks times) | .wait _ (.timed times _) =>
    times = d ∧ 0 < d
  | .wait _ (.again times) | .wait _ (.relocks times _) => times = d ∧ 0 < d

structure Inv (x : State) : Prop where
  holder : ∀ t, x.holder = some t ↔ fields t (x.depth t) (x.place t) ≠ none
  agree  : ∀ t o c, fields t (x.depth t) (x.place t) = some (o, c) → x.owner = o ∧ x.count = c
  free   : x.holder = none → x.owner = none ∧ x.count = 0
  depth  : ∀ t, DepthOk (x.depth t) (x.place t)
  checks : x.failed ≠ some .owner ∧ x.failed ≠ some .count

variable {x x' : State} {t d : Nat} {p : Place} {o : Option Nat} {c : Nat}

/-- A thread that holds the pthread mutex. -/
theorem Inv.of_fields (hInv : Inv x) (h : fields t (x.depth t) (x.place t) = some (o, c)) :
    x.holder = some t ∧ x.owner = o ∧ x.count = c :=
  ⟨(hInv.holder t).mpr (by simp [h]), hInv.agree t o c h⟩

/-- A thread at a place inside the pthread mutex. -/
theorem Inv.fields_at (hInv : Inv x) (hAt : x.place t = p)
    (h : fields t (x.depth t) p = some (o, c)) :
    x.holder = some t ∧ x.owner = o ∧ x.count = c :=
  hInv.of_fields (hAt ▸ h)

theorem Inv.of_none (hInv : Inv x) (h : fields t (x.depth t) (x.place t) = none) :
    x.holder ≠ some t := by
  rw [Ne, hInv.holder t, not_not]
  exact h

/-- `owner_` is a thread that holds the pthread mutex: the fields of all others are away. -/
theorem Inv.holder_of_owner (hInv : Inv x) (hOwner : x.owner = some t) : x.holder = some t := by
  cases hHolder : x.holder with
  | none =>
    rw [(hInv.free hHolder).1] at hOwner
    cases hOwner
  | some u =>
    have hFields := (hInv.holder u).mp hHolder
    obtain ⟨⟨o, c⟩, hSome⟩ := Option.ne_none_iff_exists'.mp hFields
    have hSame : o = some t := (hInv.agree u o c hSome).1.symm.trans hOwner
    subst hSame
    -- the fields of a place name its own thread
    have hSelf : t = u := by
      revert hSome
      generalize x.place u = p
      unfold fields
      split <;> first | (split <;> simp +contextual) | simp +contextual
    rw [hSelf]

/-- The other threads, when one has moved. -/
theorem fields_of_ne (hPlace : x'.place = update x.place t p)
    (hDepth : x'.depth = update x.depth t d) {u : Nat} (hu : u ≠ t) :
    fields u (x'.depth u) (x'.place u) = fields u (x.depth u) (x.place u) := by
  rw [hPlace, hDepth, Function.update_of_ne hu, Function.update_of_ne hu]

/-- The thread that has moved. -/
theorem fields_self (hPlace : x'.place = update x.place t p)
    (hDepth : x'.depth = update x.depth t d) :
    fields t (x'.depth t) (x'.place t) = fields t d p := by
  rw [hPlace, hDepth, Function.update_self, Function.update_self]

/-- The depth of each thread fits its place, after one thread has moved. -/
theorem Inv.depth_of_move (hInv : Inv x) (hPlace : x'.place = update x.place t p)
    (hDepth : x'.depth = update x.depth t d) (hOk : DepthOk d p) (u : Nat) :
    DepthOk (x'.depth u) (x'.place u) := by
  by_cases hu : u = t
  · rw [hu, hPlace, hDepth, Function.update_self, Function.update_self]
    exact hOk
  · rw [hPlace, hDepth, Function.update_of_ne hu, Function.update_of_ne hu]
    exact hInv.depth u

/-- **A thread that holds the pthread mutex** moves, and may change the fields. No other
thread is at a place that says what the fields are, so they only have to agree with the new
place of this one. -/
theorem Inv.inside (hInv : Inv x) (hHeld : x.holder = some t)
    (hPlace : x'.place = update x.place t p) (hDepth : x'.depth = update x.depth t d)
    (hFields : fields t d p = some (x'.owner, x'.count)) (hOk : DepthOk d p)
    (hHolder : x'.holder = x.holder) (hFailed : x'.failed = x.failed) : Inv x' := by
  have hOthers : ∀ u, u ≠ t → fields u (x'.depth u) (x'.place u) = none := by
    intro u hu
    rw [fields_of_ne hPlace hDepth hu]
    by_contra hSome
    have hHolds := (hInv.holder u).mpr hSome
    exact hu (Option.some.inj (hHolds.symm.trans hHeld))
  -- holder, agreement of the fields, what holds while the mutex is free
  refine ⟨fun u => ?_, fun u o c hu => ?_, fun hFree => ?_,
    hInv.depth_of_move hPlace hDepth hOk, hFailed ▸ hInv.checks⟩
  · rw [hHolder, hHeld]
    by_cases hu : u = t
    · rw [hu, fields_self hPlace hDepth, hFields]
      simp
    · rw [hOthers u hu]
      simpa using fun h => hu h.symm
  · by_cases hEq : u = t
    · rw [hEq, fields_self hPlace hDepth, hFields] at hu
      exact Prod.mk.inj (Option.some.inj hu)
    · rw [hOthers u hEq] at hu
      cases hu
  · rw [hHolder, hHeld] at hFree
    cases hFree

/-- A thread that holds the pthread mutex goes on, and leaves the fields alone. -/
theorem Inv.goes {q : Place} (hInv : Inv x) (hAt : x.place t = q)
    (hPlace : x'.place = update x.place t p) (hOld : fields t (x.depth t) q = some (o, c))
    (hNew : fields t (x.depth t) p = some (o, c)) (hOk : DepthOk (x.depth t) p)
    (hDepth : x'.depth = x.depth) (hHolder : x'.holder = x.holder) (hOwner : x'.owner = x.owner)
    (hCount : x'.count = x.count) (hFailed : x'.failed = x.failed) : Inv x' := by
  obtain ⟨hHeld, hO, hC⟩ := hInv.fields_at hAt hOld
  refine hInv.inside hHeld hPlace ?_ ?_ hOk hHolder hFailed
  · rw [hDepth, Function.update_eq_self]
  · rw [hNew, hOwner, hCount, hO, hC]

/-- **A thread that does not hold the pthread mutex** moves, and leaves the fields alone. -/
theorem Inv.away (hInv : Inv x) (hOld : fields t (x.depth t) (x.place t) = none)
    (hPlace : x'.place = update x.place t p) (hDepth : x'.depth = update x.depth t d)
    (hNew : fields t d p = none) (hOk : DepthOk d p) (hHolder : x'.holder = x.holder)
    (hOwner : x'.owner = x.owner) (hCount : x'.count = x.count) (hFailed : x'.failed = x.failed) :
    Inv x' := by
  have hSame : ∀ u, fields u (x'.depth u) (x'.place u) = fields u (x.depth u) (x.place u) := by
    intro u
    by_cases hu : u = t
    · rw [hu, fields_self hPlace hDepth, hNew, hOld]
    · exact fields_of_ne hPlace hDepth hu
  refine ⟨fun u => ?_, fun u o c hu => ?_, fun hFree => ?_,
    hInv.depth_of_move hPlace hDepth hOk, hFailed ▸ hInv.checks⟩
  · rw [hHolder, hSame]
    exact hInv.holder u
  · rw [hOwner, hCount]
    exact hInv.agree u o c (hSame u ▸ hu)
  · rw [hOwner, hCount]
    exact hInv.free (hHolder ▸ hFree)

/-- **A thread gets the pthread mutex.** While it was free the fields were clear, which is
what the first place inside says of them. -/
theorem Inv.acquire (hInv : Inv x) (hFree : x.holder = none)
    (hPlace : x'.place = update x.place t p) (hDepth : x'.depth = update x.depth t d)
    (hNew : fields t d p = some (none, 0)) (hOk : DepthOk d p) (hHolder : x'.holder = some t)
    (hOwner : x'.owner = x.owner) (hCount : x'.count = x.count) (hFailed : x'.failed = x.failed) :
    Inv x' := by
  obtain ⟨hNone, hZero⟩ := hInv.free hFree
  have hOthers : ∀ u, u ≠ t → fields u (x'.depth u) (x'.place u) = none := by
    intro u hu
    rw [fields_of_ne hPlace hDepth hu]
    by_contra hSome
    have hHolds := (hInv.holder u).mpr hSome
    rw [hFree] at hHolds
    cases hHolds
  refine ⟨fun u => ?_, fun u o c hu => ?_, fun h => ?_,
    hInv.depth_of_move hPlace hDepth hOk, hFailed ▸ hInv.checks⟩
  · rw [hHolder]
    by_cases hu : u = t
    · rw [hu, fields_self hPlace hDepth, hNew]
      simp
    · rw [hOthers u hu]
      simpa using fun h => hu h.symm
  · rw [hOwner, hCount, hNone, hZero]
    by_cases hEq : u = t
    · rw [hEq, fields_self hPlace hDepth, hNew] at hu
      exact Prod.mk.inj (Option.some.inj hu)
    · rw [hOthers u hEq] at hu
      cases hu
  · rw [hHolder] at h
    cases h

/-- **A thread gives the pthread mutex back**, with the fields cleared: at this place the
thread has reset `owner_` and `count_` already. -/
theorem Inv.release (hInv : Inv x) (hOld : fields t (x.depth t) (x.place t) = some (none, 0))
    (hPlace : x'.place = update x.place t p) (hDepth : x'.depth = update x.depth t d)
    (hNew : fields t d p = none) (hOk : DepthOk d p) (hHolder : x'.holder = none)
    (hOwner : x'.owner = x.owner) (hCount : x'.count = x.count) (hFailed : x'.failed = x.failed) :
    Inv x' := by
  obtain ⟨hHeld, hNone, hZero⟩ := hInv.of_fields hOld
  have hAll : ∀ u, fields u (x'.depth u) (x'.place u) = none := by
    intro u
    by_cases hu : u = t
    · rw [hu, fields_self hPlace hDepth, hNew]
    · rw [fields_of_ne hPlace hDepth hu]
      by_contra hSome
      have hHolds := (hInv.holder u).mpr hSome
      exact hu (Option.some.inj (hHolds.symm.trans hHeld))
  refine ⟨fun u => ?_, fun u o c hu => ?_, fun _ => ?_,
    hInv.depth_of_move hPlace hDepth hOk, hFailed ▸ hInv.checks⟩
  · rw [hHolder, hAll u]
    simp
  · rw [hAll u] at hu
    cases hu
  · rw [hOwner, hCount]
    exact ⟨hNone, hZero⟩

/-- A failed check of another kind leaves the fields as they are. -/
theorem Inv.fail (hInv : Inv x) {check : Check} (hOwner : check ≠ .owner) (hCount : check ≠ .count) :
    Inv (x.fail check) :=
  ⟨hInv.holder, hInv.agree, hInv.free, hInv.depth, by simpa [State.fail] using ⟨hOwner, hCount⟩⟩

/-- An assertion on anything but owner and count keeps the invariant, whether it holds or
fails. -/
theorem Inv.assert (hInv : Inv x) {q : Prop} [Decidable q] {check : Check}
    (hOwner : check ≠ .owner) (hCount : check ≠ .count) (hNext : q → Inv x') :
    Inv (x.assert q check x') := by
  unfold State.assert
  split
  · rename_i hq
    exact hNext hq
  · exact hInv.fail hOwner hCount

theorem same_depth (x : State) (t : Nat) : x.depth = update x.depth t (x.depth t) :=
  (Function.update_eq_self t x.depth).symm

theorem State.assert_pos {q : Prop} [Decidable q] (hq : q) (check : Check) :
    x.assert q check x' = x' := if_pos hq

-- ---------------------------------------------------------------------------
-- One step
-- ---------------------------------------------------------------------------

/-- **`Mutex::Lock`.** One case for each place in its body. `owner_ == pthread_self()` is
read without the lock, which is safe: it can only hold for the thread that has stored it. -/
theorem Inv.lock {lp : LockPlace} (hInv : Inv x) (hAt : x.place t = .lock lp)
    (hStep : Lock x t lp = some x') : Inv x' := by
  have hDepth := hInv.depth t
  rw [hAt] at hDepth
  cases lp with
  | tests =>
    cases hStep
    -- with depth 0 the thread does not hold the mutex, and `owner_` cannot be itself
    rcases Nat.eq_zero_or_pos (x.depth t) with hZero | hPos
    · have hNone : fields t (x.depth t) (x.place t) = none := by simp [hAt, fields, hZero]
      have hOwner : x.owner ≠ some t := fun h => hInv.of_none hNone (hInv.holder_of_owner h)
      rw [if_neg hOwner]
      exact hInv.away hNone rfl (same_depth x t) rfl hZero rfl rfl rfl rfl
    · have hSome : fields t (x.depth t) (x.place t) = some (some t, x.depth t) := by
        simp [hAt, fields, hPos]
      obtain ⟨hHeld, hOwner, hCount⟩ := hInv.of_fields hSome
      rw [if_pos hOwner]
      refine hInv.inside hHeld rfl (same_depth x t) ?_ hPos rfl rfl
      show some (some t, x.depth t) = some (x.owner, x.count)
      rw [hOwner, hCount]
  -- the nested call: the count goes up, the pthread mutex is not touched
  | recurs =>
    obtain ⟨hHeld, hOwner, hCount⟩ := hInv.fields_at hAt rfl
    have hPos : 0 < x.depth t := hDepth
    cases hStep
    rw [State.assert_pos (by omega)]
    refine hInv.inside hHeld rfl rfl ?_ trivial rfl rfl
    show fields t (x.depth t + 1) .outside = some (x.owner, x.count + 1)
    rw [hOwner, hCount, fields, if_pos (Nat.succ_pos _)]
  | locks =>
    simp only [Lock] at hStep
    split at hStep
    · rename_i hFree
      cases hStep
      exact hInv.acquire hFree rfl (same_depth x t) rfl hDepth rfl rfl rfl rfl
    · cases hStep
  | stores =>
    cases hStep
    exact hInv.goes hAt rfl rfl rfl hDepth rfl rfl rfl rfl rfl
  | checks =>
    cases hStep
    refine hInv.assert (by simp) (by simp) fun _ => ?_
    exact hInv.goes hAt rfl rfl rfl hDepth rfl rfl rfl rfl rfl
  -- `owner_` is set before `count_`, so the two agree only after `counts`
  | owns =>
    obtain ⟨hHeld, hOwner, hCount⟩ := hInv.fields_at hAt rfl
    cases hStep
    rw [State.assert_pos hOwner]
    refine hInv.inside hHeld rfl (same_depth x t) ?_ hDepth rfl rfl
    show some (some t, 0) = some (some t, x.count)
    rw [hCount]
  | counts =>
    obtain ⟨hHeld, hOwner, hCount⟩ := hInv.fields_at hAt rfl
    have hZero : x.depth t = 0 := hDepth
    cases hStep
    rw [State.assert_pos hCount]
    refine hInv.inside hHeld rfl rfl ?_ trivial rfl rfl
    show fields t (x.depth t + 1) .outside = some (x.owner, 1)
    rw [hOwner, hZero]
    rfl

/-- **`Mutex::Unlock`.** The count goes down first; with the last one the fields are cleared
before the pthread mutex is given back, and `__pthread_errno__` is checked after that, when
another thread may be inside. -/
theorem Inv.unlock {up : UnlockPlace} (hInv : Inv x) (hAt : x.place t = .unlock up)
    (hStep : Unlock x t up = some x') : Inv x' := by
  have hDepth := hInv.depth t
  rw [hAt] at hDepth
  cases up with
  | tests =>
    obtain ⟨hHeld, hOwner, hCount⟩ := hInv.fields_at hAt rfl
    have hPos : 0 < x.depth t := hDepth
    cases hStep
    rw [State.assert_pos hOwner, State.assert_pos (by omega)]
    -- the last call clears the fields, a nested one returns
    by_cases hLast : x.count - 1 = 0
    · have hZero : x.depth t - 1 = 0 := by omega
      rw [if_pos hLast]
      refine hInv.inside hHeld rfl rfl ?_ hZero rfl rfl
      show some (some t, 0) = some (x.owner, x.count - 1)
      rw [hOwner, hLast]
    · have hMore : 0 < x.depth t - 1 := by omega
      rw [if_neg hLast]
      refine hInv.inside hHeld rfl rfl ?_ trivial rfl rfl
      show fields t (x.depth t - 1) .outside = some (x.owner, x.count - 1)
      rw [fields, if_pos hMore, hOwner, hCount]
  | disowns =>
    obtain ⟨hHeld, hOwner, hCount⟩ := hInv.fields_at hAt rfl
    cases hStep
    refine hInv.inside hHeld rfl (same_depth x t) ?_ hDepth rfl rfl
    show some (none, 0) = some (none, x.count)
    rw [hCount]
  | unlocks =>
    cases hStep
    exact hInv.release (by rw [hAt]; rfl) rfl (same_depth x t) rfl hDepth rfl rfl rfl rfl
  | stores =>
    cases hStep
    exact hInv.away (by rw [hAt]; rfl) rfl (same_depth x t) rfl hDepth rfl rfl rfl rfl
  -- the check comes when the mutex is no longer held
  | checks =>
    have hZero : x.depth t = 0 := hDepth
    cases hStep
    refine hInv.assert (by simp) (by simp) fun _ => ?_
    refine hInv.away (by rw [hAt]; rfl) rfl (same_depth x t) ?_ trivial rfl rfl rfl rfl
    simp [fields, hZero]

/-- **`Mutex::FullUnlockAux`.** -/
theorem Inv.fullUnlockAux {fp : FullUnlockPlace} {timed : Bool} (hInv : Inv x)
    (hAt : x.place t = .wait timed (.unlocks fp)) (hStep : FullUnlockAux x t timed fp = some x') :
    Inv x' := by
  have hDepth := hInv.depth t
  rw [hAt] at hDepth
  cases fp with
  | saves =>
    obtain ⟨hHeld, hOwner, hCount⟩ := hInv.fields_at hAt rfl
    have hPos : 0 < x.depth t := hDepth
    cases hStep
    rw [State.assert_pos hOwner, State.assert_pos (by omega)]
    exact hInv.goes hAt rfl rfl rfl ⟨hCount, hPos⟩ rfl rfl rfl rfl rfl
  | disowns times =>
    obtain ⟨hHeld, hOwner, hCount⟩ := hInv.fields_at hAt rfl
    cases hStep
    refine hInv.inside hHeld rfl (same_depth x t) ?_ hDepth rfl rfl
    show some (none, x.depth t) = some (none, x.count)
    rw [hCount]
  | clears times =>
    obtain ⟨hHeld, hOwner, hCount⟩ := hInv.fields_at hAt rfl
    cases hStep
    refine hInv.inside hHeld rfl (same_depth x t) ?_ hDepth rfl rfl
    show some (none, 0) = some (x.owner, 0)
    rw [hOwner]

/-- **`Mutex::FullLockAux`** rebuilds what `FullUnlockAux` has saved: the depth of the
thread has stayed what it was when the wait began, and the saved count is this depth. -/
theorem Inv.fullLockAux {fp : FullLockPlace} {timed : Bool} {times : Nat} (hInv : Inv x)
    (hAt : x.place t = .wait timed (.relocks times fp))
    (hStep : FullLockAux x t timed times fp = some x') : Inv x' := by
  have hDepth : times = x.depth t ∧ 0 < x.depth t := by
    have hDepth := hInv.depth t
    rwa [hAt] at hDepth
  cases fp with
  | tests =>
    obtain ⟨-, hOwner, hCount⟩ := hInv.fields_at hAt rfl
    cases hStep
    rw [State.assert_pos hOwner, State.assert_pos hCount]
    exact hInv.goes hAt rfl rfl rfl hDepth rfl rfl rfl rfl rfl
  | owns =>
    obtain ⟨hHeld, hOwner, hCount⟩ := hInv.fields_at hAt rfl
    cases hStep
    refine hInv.inside hHeld rfl (same_depth x t) ?_ hDepth rfl rfl
    show some (some t, 0) = some (some t, x.count)
    rw [hCount]
  | counts =>
    obtain ⟨hHeld, hOwner, hCount⟩ := hInv.fields_at hAt rfl
    cases hStep
    rw [State.assert_pos hOwner, State.assert_pos (by omega)]
    refine hInv.inside hHeld rfl (same_depth x t) ?_ trivial rfl rfl
    show fields t (x.depth t) .outside = some (x.owner, times)
    rw [fields, if_pos hDepth.2, hOwner, hDepth.1]

/-- A step in the checks of `WaitTimed`: the fields are cleared, and stay so. -/
theorem Inv.timedChecks {tp : TimedPlace} {timed : Bool} {times : Nat} (hInv : Inv x)
    (hAt : x.place t = .wait timed (.timed times tp)) : Inv (timedChecks x t timed times tp) := by
  have hDepth : times = x.depth t ∧ 0 < x.depth t := by
    have hDepth := hInv.depth t
    rwa [hAt] at hDepth
  cases tp with
  | success =>
    simp only [Mutex.timedChecks]
    split
    · exact hInv.goes hAt rfl rfl rfl hDepth rfl rfl rfl rfl rfl
    · exact hInv.goes hAt rfl rfl rfl hDepth rfl rfl rfl rfl rfl
  | positive => exact hInv.goes hAt rfl rfl rfl hDepth rfl rfl rfl rfl rfl
  | setsErrno => exact hInv.goes hAt rfl rfl rfl hDepth rfl rfl rfl rfl rfl
  | setsMinusOne => exact hInv.goes hAt rfl rfl rfl hDepth rfl rfl rfl rfl rfl
  | timeout =>
    simp only [Mutex.timedChecks]
    split
    · exact hInv.goes hAt rfl rfl rfl hDepth rfl rfl rfl rfl rfl
    · exact hInv.goes hAt rfl rfl rfl hDepth rfl rfl rfl rfl rfl
  | interrupted =>
    refine hInv.assert (by simp) (by simp) fun _ => ?_
    exact hInv.goes hAt rfl rfl rfl hDepth rfl rfl rfl rfl rfl

/-- **`ConditionVar::Wait` and `WaitTimed`.** The sleeping thread is away as one outside is;
when it has the pthread mutex again the fields are clear until `FullLockAux`. -/
theorem Inv.wait {wp : WaitPlace} {timed : Bool} (hInv : Inv x) (hAt : x.place t = .wait timed wp)
    (hStep : Wait x t timed wp = some x') : Inv x' := by
  have hDepth := hInv.depth t
  rw [hAt] at hDepth
  cases wp with
  | tests =>
    obtain ⟨hHeld, hOwner, hCount⟩ := hInv.fields_at hAt rfl
    cases hStep
    rw [State.assert_pos (by simp [hOwner])]
    exact hInv.goes hAt rfl rfl rfl hDepth rfl rfl rfl rfl rfl
  | unlocks fp => exact hInv.fullUnlockAux hAt hStep
  -- `pthread_cond_wait` gives the mutex back and falls asleep in one step
  | sleeps times =>
    cases hStep
    exact hInv.release (by rw [hAt]; rfl) rfl (same_depth x t) rfl hDepth rfl rfl rfl rfl
  | asleep times => cases hStep
  | wakes times timedOut =>
    simp only [Wait] at hStep
    split at hStep
    · rename_i hFree
      cases hStep
      exact hInv.acquire hFree rfl (same_depth x t) rfl hDepth rfl rfl rfl rfl
    · cases hStep
  | stores times timedOut =>
    cases hStep
    cases timed with
    | false => exact hInv.goes hAt rfl rfl rfl hDepth rfl rfl rfl rfl rfl
    | true => exact hInv.goes hAt rfl rfl rfl hDepth rfl rfl rfl rfl rfl
  | checks times =>
    cases hStep
    refine hInv.assert (by simp) (by simp) fun _ => ?_
    exact hInv.goes hAt rfl rfl rfl hDepth rfl rfl rfl rfl rfl
  | timed times tp =>
    cases hStep
    exact hInv.timedChecks hAt
  | again times =>
    -- `owner_` is not rebuilt before the loop goes on
    obtain ⟨hHeld, hOwner, hCount⟩ := hInv.fields_at hAt rfl
    cases hStep
    exact hInv.assert (by simp) (by simp) fun hLocked => absurd hOwner hLocked
  | relocks times fp => exact hInv.fullLockAux hAt hStep

/-- Entering a call: with depth 0 only `Lock` is possible, else the thread holds the mutex
at every place it can enter. -/
theorem Inv.call {call : Call} (hInv : Inv x) (hAt : x.place t = .outside)
    (hStep : Mutex.call x t call = some x') : Inv x' := by
  rcases Nat.eq_zero_or_pos (x.depth t) with hZero | hPos
  · have hNone : fields t (x.depth t) (x.place t) = none := by simp [hAt, fields, hZero]
    cases call with
    | Lock =>
      cases hStep
      exact hInv.away hNone rfl (same_depth x t) (by simp [fields, hZero]) trivial rfl rfl rfl rfl
    | Unlock => simp [Mutex.call, hZero] at hStep
    | Wait timed => simp [Mutex.call, hZero] at hStep
  · have hSome : fields t (x.depth t) (x.place t) = some (some t, x.depth t) := by
      simp [hAt, fields, hPos]
    obtain ⟨hHeld, hOwner, hCount⟩ := hInv.of_fields hSome
    have hSame : some (some t, x.depth t) = some (x.owner, x.count) := by rw [hOwner, hCount]
    cases call with
    | Lock =>
      cases hStep
      refine hInv.inside hHeld rfl (same_depth x t) ?_ trivial rfl rfl
      rw [fields, if_pos hPos]
      exact hSame
    | Unlock =>
      simp only [Mutex.call, if_pos hPos, Option.some.injEq] at hStep
      subst hStep
      exact hInv.inside hHeld rfl (same_depth x t) hSame hPos rfl rfl
    | Wait timed =>
      simp only [Mutex.call, if_pos hPos, Option.some.injEq] at hStep
      subst hStep
      exact hInv.inside hHeld rfl (same_depth x t) hSame hPos rfl rfl

/-- What `wake` does. -/
theorem wake_cases {timedOut : Bool} (hStep : wake x t timedOut = some x') :
    ∃ timed times, x.place t = .wait timed (.asleep times) ∧ (timedOut = true → timed = true) ∧
      x' = x.goto t (.wait timed (.wakes times timedOut)) := by
  unfold wake at hStep
  split at hStep
  · rename_i timed times hAt
    split at hStep
    · cases hStep
    · rename_i hNot
      cases hStep
      refine ⟨timed, times, hAt, fun hOut => ?_, rfl⟩
      simpa [hOut] using hNot
  · cases hStep

/-- **One step keeps the fields in agreement with the lock**, whatever is in
`__pthread_errno__` and in `errno`, which other threads overwrite at any time. -/
theorem Inv.next {l : Label} (hInv : Inv x) (hStep : next x l = some x') : Inv x' := by
  unfold Mutex.next at hStep
  split at hStep
  · cases hStep
  · cases l with
    | call t c =>
      simp only at hStep
      split at hStep
      · rename_i hAt
        exact hInv.call hAt hStep
      · cases hStep
    | run t =>
      simp only [Mutex.run] at hStep
      split at hStep
      · cases hStep
      · rename_i lp hAt
        exact hInv.lock hAt hStep
      · rename_i up hAt
        exact hInv.unlock hAt hStep
      · rename_i timed wp hAt
        exact hInv.wait hAt hStep
    -- a sleeper that is woken still has to get the pthread mutex
    | wake t timedOut =>
      obtain ⟨timed, times, hAt, -, rfl⟩ := wake_cases hStep
      have hDepth := hInv.depth t
      rw [hAt] at hDepth
      exact hInv.away (by rw [hAt]; rfl) rfl (same_depth x t) rfl hDepth rfl rfl rfl rfl
    -- stores in the shared variable do not touch the fields
    | store result =>
      cases hStep
      exact ⟨hInv.holder, hInv.agree, hInv.free, hInv.depth, hInv.checks⟩
    | setErrno t errno =>
      simp only at hStep
      split at hStep
      · cases hStep
        exact ⟨hInv.holder, hInv.agree, hInv.free, hInv.depth, hInv.checks⟩
      · cases hStep

/-- At the beginning the mutex is free and everybody is outside. -/
theorem inv_initial (h : Initial x) : Inv x := by
  have hNone : ∀ t, fields t (x.depth t) (x.place t) = none := by
    intro t
    simp [h.place t, h.depth t, fields]
  refine ⟨fun t => ?_, fun t o c ht => ?_, fun _ => ⟨h.owner, h.count⟩, fun t => ?_, ?_⟩
  · simp [hNone t, h.holder]
  · rw [hNone t] at ht
    cases ht
  · rw [h.place t]
    trivial
  · simp [h.failed]

/-- **The fields agree with the real lock** in every run, and no ownership assertion fails. -/
theorem inv_reachable (h : Runs.Reachable system x) : Inv x :=
  h.invariant (fun _ => inv_initial) fun _ _ _ hInv _ hStep => hInv.next hStep

-- ---------------------------------------------------------------------------
-- The checks on `__pthread_errno__`
-- ---------------------------------------------------------------------------

/-- With `__pthread_errno__` and the `errno` of the thread as given, the checks of `WaitTimed`
that are left end in a return. -/
def TimedPlace.Passes (errno v : Int) : TimedPlace → Prop
  | .success => v = PTH_SUCCESS ∨ v = ETIMEDOUT ∨ (v = -1 ∧ errno = ETIMEDOUT)
  | .positive => v = ETIMEDOUT ∨ (v = -1 ∧ errno = ETIMEDOUT)
  | .setsErrno => v = ETIMEDOUT
  | .setsMinusOne => errno = ETIMEDOUT
  | .timeout => v = -1 ∧ errno = ETIMEDOUT
  | .interrupted => False

def WaitPlace.Passes (timed : Bool) (errno v : Int) : WaitPlace → Prop
  | .wakes _ timedOut | .stores _ timedOut => timedOut = true → timed = true
  | .checks _ => v = PTH_SUCCESS
  | .timed _ p => p.Passes errno v
  | .again _ => False
  | .tests | .unlocks _ | .sleeps _ | .asleep _ | .relocks _ _ => True

/-- The checks a thread has still to make on its own result pass with this value in
`__pthread_errno__`. -/
def Place.Passes (errno v : Int) : Place → Prop
  | .lock .checks | .unlock .checks => v = PTH_SUCCESS
  | .wait timed p => p.Passes timed errno v
  | .outside | .lock _ | .unlock _ => True

/-- What the next step of a thread stores in `__pthread_errno__`. -/
def Place.stored : Place → Option Int
  | .lock .stores | .unlock .stores => some PTH_SUCCESS
  | .wait _ (.stores _ timedOut) => some (if timedOut then ETIMEDOUT else PTH_SUCCESS)
  | .wait _ (.timed _ .setsMinusOne) => some (-1)
  | _ => none

/-- The step stores nothing in `__pthread_errno__` that spoils a check another thread has
still to make. -/
def Undisturbed (x : State) : Label → Prop
  | .run t => ∀ v, (x.place t).stored = some v → ∀ u, u ≠ t → (x.place u).Passes (x.errno u) v
  | .store v => ∀ u, (x.place u).Passes (x.errno u) v
  | _ => True

/-- An upper bound of the steps of its own that a thread needs to return. -/
def Place.left : Place → Nat
  | .outside => 0
  | .lock .tests => 6
  | .lock .recurs => 1
  | .lock .locks => 5
  | .lock .stores => 4
  | .lock .checks => 3
  | .lock .owns => 2
  | .lock .counts => 1
  | .unlock .tests => 5
  | .unlock .disowns => 4
  | .unlock .unlocks => 3
  | .unlock .stores => 2
  | .unlock .checks => 1
  | .wait _ .tests => 20
  | .wait _ (.unlocks .saves) => 19
  | .wait _ (.unlocks (.disowns _)) => 18
  | .wait _ (.unlocks (.clears _)) => 17
  | .wait _ (.sleeps _) => 16
  | .wait _ (.asleep _) => 15
  | .wait _ (.wakes _ _) => 14
  | .wait _ (.stores _ _) => 13
  | .wait _ (.checks _) => 4
  | .wait _ (.timed _ .success) => 9
  | .wait _ (.timed _ .positive) => 8
  | .wait _ (.timed _ .setsErrno) => 7
  | .wait _ (.timed _ .setsMinusOne) => 6
  | .wait _ (.timed _ .timeout) => 5
  | .wait _ (.timed _ .interrupted) | .wait _ (.again _) => 4
  | .wait _ (.relocks _ .tests) => 3
  | .wait _ (.relocks _ .owns) => 2
  | .wait _ (.relocks _ .counts) => 1

/-- No check has failed, and with the result as it is none will. -/
structure Good (x : State) : Prop where
  failed : x.failed = none
  passes : ∀ t, (x.place t).Passes (x.errno t) x.result

/-- What a step of a thread does in a good state: the thread comes nearer to its return. -/
structure Advances (x x' : State) (t : Nat) : Prop where
  failed : x'.failed = none
  others : ∀ u, u ≠ t → x'.place u = x.place u ∧ x'.errno u = x.errno u
  result : x'.result = (x.place t).stored.getD x.result
  passes : (x'.place t).Passes (x'.errno t) x'.result
  left   : (x'.place t).left < (x.place t).left

/-- A step that moves a thread from `q` to `p`. -/
theorem Advances.move {q : Place} (hAt : x.place t = q) (hFailed : x'.failed = none)
    (hPlace : x'.place = update x.place t p) (hErrno : ∀ u, u ≠ t → x'.errno u = x.errno u)
    (hResult : x'.result = q.stored.getD x.result) (hPasses : p.Passes (x'.errno t) x'.result)
    (hLeft : p.left < q.left) : Advances x x' t := by
  refine ⟨hFailed, fun u hu => ?_, hAt ▸ hResult, ?_, ?_⟩
  · rw [hPlace, Function.update_of_ne hu]
    exact ⟨rfl, hErrno u hu⟩
  · rw [hPlace, Function.update_self]
    exact hPasses
  · rw [hPlace, hAt, Function.update_self]
    exact hLeft

/-- **A step inside `Lock` goes on.** The place after it passes its check, and what is left
of the call has become less. The invariant gives the assertions on the fields, goodness the
one on `__pthread_errno__`. -/
theorem Lock_advances {lp : LockPlace} (hInv : Inv x) (hGood : Good x)
    (hAt : x.place t = .lock lp) (hStep : Lock x t lp = some x') : Advances x x' t := by
  have hPasses := hGood.passes t
  have hDepth := hInv.depth t
  rw [hAt] at hPasses hDepth
  cases lp with
  | tests =>
    cases hStep
    by_cases hOwner : x.owner = some t
    · rw [if_pos hOwner]
      exact .move hAt hGood.failed rfl (fun _ _ => rfl) rfl trivial (by decide)
    · rw [if_neg hOwner]
      exact .move hAt hGood.failed rfl (fun _ _ => rfl) rfl trivial (by decide)
  | recurs =>
    obtain ⟨-, -, hCount⟩ := hInv.fields_at hAt rfl
    have hPos : 0 < x.depth t := hDepth
    cases hStep
    rw [State.assert_pos (by omega)]
    exact .move hAt hGood.failed rfl (fun _ _ => rfl) rfl trivial (by decide)
  | locks =>
    simp only [Lock] at hStep
    split at hStep
    · cases hStep
      exact .move hAt hGood.failed rfl (fun _ _ => rfl) rfl trivial (by decide)
    · cases hStep
  | stores =>
    cases hStep
    exact .move hAt hGood.failed rfl (fun _ _ => rfl) rfl rfl (by decide)
  -- no other thread has stored in between, so the result is still that of this thread's
  -- call
  | checks =>
    have hSuccess : x.result = PTH_SUCCESS := hPasses
    cases hStep
    rw [State.assert_pos hSuccess]
    exact .move hAt hGood.failed rfl (fun _ _ => rfl) rfl trivial (by decide)
  | owns =>
    obtain ⟨-, hOwner, -⟩ := hInv.fields_at hAt rfl
    cases hStep
    rw [State.assert_pos hOwner]
    exact .move hAt hGood.failed rfl (fun _ _ => rfl) rfl trivial (by decide)
  | counts =>
    obtain ⟨-, -, hCount⟩ := hInv.fields_at hAt rfl
    cases hStep
    rw [State.assert_pos hCount]
    exact .move hAt hGood.failed rfl (fun _ _ => rfl) rfl trivial (by decide)

/-- **A step inside `Unlock` goes on**; the same measure. -/
theorem Unlock_advances {up : UnlockPlace} (hInv : Inv x) (hGood : Good x)
    (hAt : x.place t = .unlock up) (hStep : Unlock x t up = some x') : Advances x x' t := by
  have hPasses := hGood.passes t
  have hDepth := hInv.depth t
  rw [hAt] at hPasses hDepth
  cases up with
  | tests =>
    obtain ⟨-, hOwner, hCount⟩ := hInv.fields_at hAt rfl
    have hPos : 0 < x.depth t := hDepth
    cases hStep
    rw [State.assert_pos hOwner, State.assert_pos (by omega)]
    by_cases hLast : x.count - 1 = 0
    · rw [if_pos hLast]
      exact .move hAt hGood.failed rfl (fun _ _ => rfl) rfl trivial (by decide)
    · rw [if_neg hLast]
      exact .move hAt hGood.failed rfl (fun _ _ => rfl) rfl trivial (by decide)
  | disowns =>
    cases hStep
    exact .move hAt hGood.failed rfl (fun _ _ => rfl) rfl trivial (by decide)
  | unlocks =>
    cases hStep
    exact .move hAt hGood.failed rfl (fun _ _ => rfl) rfl trivial (by decide)
  | stores =>
    cases hStep
    exact .move hAt hGood.failed rfl (fun _ _ => rfl) rfl rfl (by decide)
  | checks =>
    have hSuccess : x.result = PTH_SUCCESS := hPasses
    cases hStep
    rw [State.assert_pos hSuccess]
    exact .move hAt hGood.failed rfl (fun _ _ => rfl) rfl trivial (by decide)

/-- Each step of `FullUnlockAux` brings the thread nearer to its return. -/
theorem FullUnlockAux_advances {fp : FullUnlockPlace} {timed : Bool} (hInv : Inv x)
    (hGood : Good x) (hAt : x.place t = .wait timed (.unlocks fp))
    (hStep : FullUnlockAux x t timed fp = some x') : Advances x x' t := by
  cases fp with
  | saves =>
    obtain ⟨-, hOwner, hCount⟩ := hInv.fields_at hAt rfl
    have hPos : 0 < x.depth t := by
      have hDepth := hInv.depth t
      rwa [hAt] at hDepth
    cases hStep
    rw [State.assert_pos hOwner, State.assert_pos (by omega)]
    exact .move hAt hGood.failed rfl (fun _ _ => rfl) rfl trivial (by simp [Place.left])
  | disowns times =>
    cases hStep
    exact .move hAt hGood.failed rfl (fun _ _ => rfl) rfl trivial (by simp [Place.left])
  | clears times =>
    cases hStep
    exact .move hAt hGood.failed rfl (fun _ _ => rfl) rfl trivial (by simp [Place.left])

/-- Each step of `FullLockAux` brings the thread nearer to its return. -/
theorem FullLockAux_advances {fp : FullLockPlace} {timed : Bool} {times : Nat} (hInv : Inv x)
    (hGood : Good x) (hAt : x.place t = .wait timed (.relocks times fp))
    (hStep : FullLockAux x t timed times fp = some x') : Advances x x' t := by
  have hDepth : times = x.depth t ∧ 0 < x.depth t := by
    have hDepth := hInv.depth t
    rwa [hAt] at hDepth
  cases fp with
  | tests =>
    obtain ⟨-, hOwner, hCount⟩ := hInv.fields_at hAt rfl
    cases hStep
    rw [State.assert_pos hOwner, State.assert_pos hCount]
    exact .move hAt hGood.failed rfl (fun _ _ => rfl) rfl trivial (by simp [Place.left])
  | owns =>
    cases hStep
    exact .move hAt hGood.failed rfl (fun _ _ => rfl) rfl trivial (by simp [Place.left])
  | counts =>
    obtain ⟨-, hOwner, -⟩ := hInv.fields_at hAt rfl
    cases hStep
    rw [State.assert_pos hOwner, State.assert_pos (by omega)]
    exact .move hAt hGood.failed rfl (fun _ _ => rfl) rfl trivial (by simp [Place.left])

/-- The checks of `WaitTimed` end in `FullLockAux`. The stored result is success or
`ETIMEDOUT`, or it is -1 while the `errno` of the thread is `ETIMEDOUT`, and each of these
leads past the last test, the one for an interruption. -/
theorem timedChecks_advances {tp : TimedPlace} {timed : Bool} {times : Nat} (hGood : Good x)
    (hAt : x.place t = .wait timed (.timed times tp)) :
    Advances x (timedChecks x t timed times tp) t := by
  have hPasses := hGood.passes t
  rw [hAt] at hPasses
  cases tp with
  | success =>
    have hResult : x.result = PTH_SUCCESS ∨ x.result = ETIMEDOUT ∨
      (x.result = -1 ∧ x.errno t = ETIMEDOUT) := hPasses
    simp only [timedChecks]
    by_cases hSuccess : x.result = PTH_SUCCESS
    · rw [if_pos hSuccess]
      exact .move hAt hGood.failed rfl (fun _ _ => rfl) rfl trivial (by simp [Place.left])
    · rw [if_neg hSuccess]
      exact .move hAt hGood.failed rfl (fun _ _ => rfl) rfl (hResult.resolve_left hSuccess)
        (by simp [Place.left])
  -- the error number itself, or -1
  | positive =>
    have hResult : x.result = ETIMEDOUT ∨ (x.result = -1 ∧ x.errno t = ETIMEDOUT) := hPasses
    simp only [timedChecks]
    rcases hResult with hOut | hMinus
    · rw [if_pos (by rw [hOut]; decide)]
      exact .move hAt hGood.failed rfl (fun _ _ => rfl) rfl hOut (by simp [Place.left])
    · rw [if_neg (by rw [hMinus.1]; decide)]
      exact .move hAt hGood.failed rfl (fun _ _ => rfl) rfl hMinus (by simp [Place.left])
  | setsErrno =>
    have hOut : x.result = ETIMEDOUT := hPasses
    refine .move hAt hGood.failed rfl (fun u hu => Function.update_of_ne hu _ _) rfl ?_
      (by simp [Place.left])
    show update x.errno t x.result t = ETIMEDOUT
    rw [Function.update_self]
    exact hOut
  -- the macro sets the result to -1 and keeps the number in `errno`
  | setsMinusOne =>
    have hErrno : x.errno t = ETIMEDOUT := hPasses
    exact .move hAt hGood.failed rfl (fun _ _ => rfl) rfl ⟨rfl, hErrno⟩ (by simp [Place.left])
  | timeout =>
    have hMinus : x.result = -1 ∧ x.errno t = ETIMEDOUT := hPasses
    simp only [timedChecks]
    rw [if_pos hMinus]
    exact .move hAt hGood.failed rfl (fun _ _ => rfl) rfl trivial (by simp [Place.left])
  | interrupted => exact hPasses.elim

/-- **A step inside `Wait` or `WaitTimed` goes on.** The only places without a step are the
sleep and the wait for the mutex. -/
theorem Wait_advances {wp : WaitPlace} {timed : Bool} (hInv : Inv x) (hGood : Good x)
    (hAt : x.place t = .wait timed wp) (hStep : Wait x t timed wp = some x') :
    Advances x x' t := by
  have hPasses := hGood.passes t
  rw [hAt] at hPasses
  cases wp with
  | tests =>
    obtain ⟨-, hOwner, -⟩ := hInv.fields_at hAt rfl
    cases hStep
    rw [State.assert_pos (by simp [hOwner])]
    exact .move hAt hGood.failed rfl (fun _ _ => rfl) rfl trivial (by simp [Place.left])
  | unlocks fp => exact FullUnlockAux_advances hInv hGood hAt hStep
  | sleeps times =>
    cases hStep
    exact .move hAt hGood.failed rfl (fun _ _ => rfl) rfl trivial (by simp [Place.left])
  | asleep times => cases hStep
  | wakes times timedOut =>
    have hTimed : timedOut = true → timed = true := hPasses
    simp only [Wait] at hStep
    split at hStep
    · cases hStep
      exact .move hAt hGood.failed rfl (fun _ _ => rfl) rfl hTimed (by simp [Place.left])
    · cases hStep
  -- what the call returns: success, or a time-out of `WaitTimed`
  | stores times timedOut =>
    have hTimed : timedOut = true → timed = true := hPasses
    cases hStep
    cases timed with
    | false =>
      cases timedOut with
      | false => exact .move hAt hGood.failed rfl (fun _ _ => rfl) rfl rfl (by simp [Place.left])
      | true => cases hTimed rfl
    | true =>
      cases timedOut with
      | false =>
        exact .move hAt hGood.failed rfl (fun _ _ => rfl) rfl (.inl rfl) (by simp [Place.left])
      | true =>
        exact .move hAt hGood.failed rfl (fun _ _ => rfl) rfl (.inr (.inl rfl))
          (by simp [Place.left])
  | checks times =>
    have hSuccess : x.result = PTH_SUCCESS := hPasses
    cases hStep
    rw [State.assert_pos hSuccess]
    exact .move hAt hGood.failed rfl (fun _ _ => rfl) rfl trivial (by simp [Place.left])
  | timed times tp =>
    cases hStep
    exact timedChecks_advances hGood hAt
  | again times => exact hPasses.elim
  | relocks times fp => exact FullLockAux_advances hInv hGood hAt hStep

/-- **One step of a thread in a call.** -/
theorem run_advances (hInv : Inv x) (hGood : Good x) (hStep : run x t = some x') :
    Advances x x' t := by
  unfold run at hStep
  split at hStep
  · cases hStep
  · rename_i lp hAt
    exact Lock_advances hInv hGood hAt hStep
  · rename_i up hAt
    exact Unlock_advances hInv hGood hAt hStep
  · rename_i timed wp hAt
    exact Wait_advances hInv hGood hAt hStep

/-- What `call` does: the thread is at a first place, and none of these has a check to pass.
-/
theorem call_cases {call : Call} (hStep : Mutex.call x t call = some x') :
    ∃ p, (∀ errno v, p.Passes errno v) ∧ x' = x.goto t p := by
  cases call with
  | Lock =>
    cases hStep
    exact ⟨.lock .tests, fun _ _ => trivial, rfl⟩
  | Unlock =>
    simp only [Mutex.call] at hStep
    split at hStep
    · cases hStep
      exact ⟨.unlock .tests, fun _ _ => trivial, rfl⟩
    · cases hStep
  | Wait timed =>
    simp only [Mutex.call] at hStep
    split at hStep
    · cases hStep
      exact ⟨.wait timed .tests, fun _ _ => trivial, rfl⟩
    · cases hStep

/-- **A step that spoils no check** keeps a good state good. A store of another thread is
harmless unless some thread stands between its own store and its check, which is the
condition. -/
theorem Good.next {l : Label} (hInv : Inv x) (hGood : Good x) (hOk : Undisturbed x l)
    (hStep : next x l = some x') : Good x' := by
  unfold Mutex.next at hStep
  rw [if_neg (by simp [hGood.failed])] at hStep
  cases l with
  | call t c =>
    simp only at hStep
    split at hStep
    -- the new place has no check to pass
    · obtain ⟨p, hNew, rfl⟩ := call_cases hStep
      refine ⟨hGood.failed, fun u => ?_⟩
      by_cases hu : u = t
      · subst hu
        show (update x.place u p u).Passes _ _
        rw [Function.update_self]
        exact hNew _ _
      · show (update x.place t p u).Passes _ _
        rw [Function.update_of_ne hu]
        exact hGood.passes u
    · cases hStep
  | run t =>
    have hAdvances := run_advances hInv hGood hStep
    refine ⟨hAdvances.failed, fun u => ?_⟩
    by_cases hu : u = t
    · rw [hu]
      exact hAdvances.passes
    -- the other threads see what has been stored, if anything
    · rw [(hAdvances.others u hu).1, (hAdvances.others u hu).2, hAdvances.result]
      cases hStored : (x.place t).stored with
      | none => exact hGood.passes u
      | some v => exact hOk v hStored u hu
  | wake t timedOut =>
    obtain ⟨timed, times, hAt, hTimed, rfl⟩ := wake_cases hStep
    refine ⟨hGood.failed, fun u => ?_⟩
    by_cases hu : u = t
    · subst hu
      show (update x.place u _ u).Passes _ _
      rw [Function.update_self]
      exact hTimed
    · show (update x.place t _ u).Passes _ _
      rw [Function.update_of_ne hu]
      exact hGood.passes u
  -- the condition says that no check is spoilt
  | store v =>
    cases hStep
    exact ⟨hGood.failed, hOk⟩
  | setErrno t errno =>
    simp only at hStep
    split at hStep
    · rename_i hAt
      cases hStep
      refine ⟨hGood.failed, fun u => ?_⟩
      by_cases hu : u = t
      · subst hu
        show (x.place u).Passes _ _
        rw [hAt]
        trivial
      · show (x.place u).Passes (update x.errno t errno u) _
        rw [Function.update_of_ne hu]
        exact hGood.passes u
    · cases hStep

-- ---------------------------------------------------------------------------
-- Every run
-- ---------------------------------------------------------------------------

/-- In a call and away from the pthread mutex, inside a wait. -/
def Place.isAway : Place → Bool
  | .wait _ (.asleep _) | .wait _ (.wakes _ _) => true
  | _ => false

def Place.isAsleep : Place → Bool
  | .wait _ (.asleep _) => true
  | _ => false

/-- In need of the pthread mutex. -/
def Place.wantsLock : Place → Bool
  | .lock .locks | .wait _ (.wakes _ _) => true
  | _ => false

/-- The thread has a `Lock` not undone yet, and is not in a wait that has released it. -/
def Inside (x : State) (t : Nat) : Prop := 0 < x.depth t ∧ (x.place t).isAway = false

/-- What the mutex is for. -/
structure Sound (x : State) : Prop where
  exclusive : ∀ t u, Inside x t → Inside x u → t = u
  /-- Outside of the calls `count_` is the depth of the owner; a wait has brought both back. -/
  owner : ∀ t, 0 < x.depth t → x.place t = .outside → x.owner = some t ∧ x.count = x.depth t
  held : ∀ t, x.owner = some t → x.holder = some t
  /-- A wait releases the mutex, whatever the depth. -/
  released : ∀ t, (x.place t).isAway → x.holder ≠ some t ∧ x.owner ≠ some t
  /-- No step changes the depth of a thread in a wait. -/
  kept : ∀ t timed wp l x', x.place t = .wait timed wp → next x l = some x' → x'.depth t = x.depth t
  /-- A call waits for a wake-up, or for the thread that has the pthread mutex, or comes nearer
  to its return. -/
  returns : ∀ t, x.place t ≠ .outside → (x.place t).isAsleep ∨
    ((x.place t).wantsLock ∧ ∃ u, u ≠ t ∧ x.holder = some u) ∨
    ∃ x', next x (.run t) = some x' ∧ Advances x x' t
  /-- No assertion about the fields fails. -/
  asserts : x.failed ≠ some .owner ∧ x.failed ≠ some .count

theorem State.assert_ind {P : State → Prop} {q : Prop} [Decidable q] {check : Check}
    (hFail : P (x.fail check)) (hNext : P x') : P (x.assert q check x') := by
  unfold State.assert
  split
  · exact hNext
  · exact hFail

/-- `Lock` changes the depth of its own thread only. -/
theorem Lock_depth {lp : LockPlace} (hStep : Lock x t lp = some x') {u : Nat} (hu : u ≠ t) :
    x'.depth u = x.depth u := by
  cases lp with
  | tests | stores => cases hStep; rfl
  | recurs | counts =>
    cases hStep
    exact State.assert_ind (P := fun y => y.depth u = x.depth u) rfl (Function.update_of_ne hu _ _)
  | locks =>
    simp only [Lock] at hStep
    split at hStep
    · cases hStep
      rfl
    · cases hStep
  | checks | owns =>
    cases hStep
    exact State.assert_ind (P := fun y => y.depth u = x.depth u) rfl rfl

/-- `Unlock` changes the depth of its own thread only. -/
theorem Unlock_depth {up : UnlockPlace} (hStep : Unlock x t up = some x') {u : Nat} (hu : u ≠ t) :
    x'.depth u = x.depth u := by
  cases up with
  | tests =>
    cases hStep
    exact State.assert_ind (P := fun y => y.depth u = x.depth u) rfl
      (State.assert_ind (P := fun y => y.depth u = x.depth u) rfl (Function.update_of_ne hu _ _))
  | disowns | unlocks | stores => cases hStep; rfl
  | checks =>
    cases hStep
    exact State.assert_ind (P := fun y => y.depth u = x.depth u) rfl rfl

/-- Giving the mutex up for a wait changes no depth. -/
theorem FullUnlockAux_depth {fp : FullUnlockPlace} {timed : Bool}
    (hStep : FullUnlockAux x t timed fp = some x') : x'.depth = x.depth := by
  cases fp with
  | saves =>
    cases hStep
    exact State.assert_ind (P := fun y => y.depth = x.depth) rfl
      (State.assert_ind (P := fun y => y.depth = x.depth) rfl rfl)
  | disowns times | clears times => cases hStep; rfl

/-- Taking it back after a wait changes no depth. -/
theorem FullLockAux_depth {fp : FullLockPlace} {timed : Bool} {times : Nat}
    (hStep : FullLockAux x t timed times fp = some x') : x'.depth = x.depth := by
  cases fp with
  | tests | counts =>
    cases hStep
    exact State.assert_ind (P := fun y => y.depth = x.depth) rfl
      (State.assert_ind (P := fun y => y.depth = x.depth) rfl rfl)
  | owns => cases hStep; rfl

theorem timedChecks_depth {tp : TimedPlace} {timed : Bool} {times : Nat} :
    (timedChecks x t timed times tp).depth = x.depth := by
  cases tp with
  | interrupted => exact State.assert_ind (P := fun y => y.depth = x.depth) rfl rfl
  | success | positive | setsErrno | setsMinusOne | timeout => rfl

/-- A wait leaves the depth of every thread alone. -/
theorem Wait_depth {wp : WaitPlace} {timed : Bool} (hStep : Wait x t timed wp = some x') :
    x'.depth = x.depth := by
  cases wp with
  | tests | checks times | again times =>
    cases hStep
    exact State.assert_ind (P := fun y => y.depth = x.depth) rfl rfl
  | unlocks fp => exact FullUnlockAux_depth hStep
  | sleeps times | stores times timedOut => cases hStep; rfl
  | asleep times => cases hStep
  | wakes times timedOut =>
    simp only [Wait] at hStep
    split at hStep
    · cases hStep
      rfl
    · cases hStep
  | timed times tp =>
    cases hStep
    exact timedChecks_depth
  | relocks times fp => exact FullLockAux_depth hStep

/-- A thread never changes the depth of another one. -/
theorem run_depth (hStep : run x t = some x') {u : Nat} (hu : u ≠ t) :
    x'.depth u = x.depth u := by
  unfold run at hStep
  split at hStep
  · cases hStep
  · exact Lock_depth hStep hu
  · exact Unlock_depth hStep hu
  · rw [Wait_depth hStep]

/-- The depth of a thread that waits does not change before it returns, whatever the others
do. -/
theorem next_depth {l : Label} {timed : Bool} {wp : WaitPlace} (hAt : x.place t = .wait timed wp)
    (hStep : next x l = some x') : x'.depth t = x.depth t := by
  unfold next at hStep
  split at hStep
  · cases hStep
  · cases l with
    | call u c =>
      simp only at hStep
      split at hStep
      · obtain ⟨p, -, rfl⟩ := call_cases hStep
        rfl
      · cases hStep
    | run u =>
      by_cases hu : t = u
      · subst hu
        simp only [run, hAt] at hStep
        rw [Wait_depth hStep]
      · exact run_depth hStep hu
    | wake u timedOut =>
      obtain ⟨_, _, -, -, rfl⟩ := wake_cases hStep
      rfl
    | store v =>
      cases hStep
      rfl
    | setErrno u errno =>
      simp only at hStep
      split at hStep
      · cases hStep
        rfl
      · cases hStep

theorem fields_of_isAway (h : p.isAway) : fields t d p = none := by
  cases p with
  | outside => simp [Place.isAway] at h
  | lock lp => simp [Place.isAway] at h
  | unlock up => simp [Place.isAway] at h
  | wait timed wp => cases wp <;> first | rfl | simp [Place.isAway] at h

theorem fields_of_wantsLock (h : p.wantsLock) : fields t d p = none := by
  cases p with
  | outside => simp [Place.wantsLock] at h
  | lock lp => cases lp <;> first | rfl | simp [Place.wantsLock] at h
  | unlock up => simp [Place.wantsLock] at h
  | wait timed wp => cases wp <;> first | rfl | simp [Place.wantsLock] at h

/-- A thread inside the mutex has the pthread mutex. -/
theorem Inv.holder_of_inside (hInv : Inv x) (h : Inside x t) : x.holder = some t := by
  obtain ⟨hPos, hAway⟩ := h
  have hDepth := hInv.depth t
  rw [hInv.holder t]
  generalize x.place t = p at hDepth hAway ⊢
  cases p with
  | outside => simp [fields, hPos]
  | lock lp =>
    cases lp with
    | tests => simp [fields, hPos]
    | recurs => simp [fields]
    | _ => exact absurd hDepth (Nat.pos_iff_ne_zero.mp hPos)
  | unlock up =>
    cases up with
    | tests => simp [fields]
    | _ => exact absurd hDepth (Nat.pos_iff_ne_zero.mp hPos)
  | wait timed wp =>
    cases wp with
    | asleep times => simp [Place.isAway] at hAway
    | wakes times timedOut => simp [Place.isAway] at hAway
    | unlocks fp => cases fp <;> exact Option.some_ne_none _
    | relocks times fp => cases fp <;> exact Option.some_ne_none _
    | _ => exact Option.some_ne_none _

/-- A thread in a call that cannot go on is asleep, or it wants the pthread mutex and
another thread holds it. All other places have a step. -/
theorem run_none (hAt : x.place t ≠ .outside) (hNone : run x t = none) :
    (x.place t).isAsleep ∨ ((x.place t).wantsLock ∧ x.holder ≠ none) := by
  unfold run at hNone
  split at hNone
  · rename_i hOutside
    exact absurd hOutside hAt
  · rename_i lp hLock
    rw [hLock]
    cases lp with
    | locks =>
      refine .inr ⟨rfl, fun hFree => ?_⟩
      simp [Lock, hFree] at hNone
    | _ => simp [Lock] at hNone
  · rename_i up hUnlock
    cases up <;> simp [Unlock] at hNone
  · rename_i timed wp hWait
    rw [hWait]
    cases wp with
    | asleep times => exact .inl rfl
    | wakes times timedOut =>
      refine .inr ⟨rfl, fun hFree => ?_⟩
      simp [Wait, hFree] at hNone
    | unlocks fp => cases fp <;> simp [Wait, FullUnlockAux] at hNone
    | relocks times fp => cases fp <;> simp [Wait, FullLockAux] at hNone
    | _ => simp [Wait] at hNone

/-- **Goodness and the invariant give the property**: exclusion and the agreement of the
fields from the invariant, the progress of each call from goodness. -/
theorem sound_of_good (hInv : Inv x) (hGood : Good x) : Sound x where
  exclusive t u ht hu :=
    Option.some.inj ((hInv.holder_of_inside ht).symm.trans (hInv.holder_of_inside hu))
  owner t hPos hAt := by
    have hSome : fields t (x.depth t) (x.place t) = some (some t, x.depth t) := by
      simp [hAt, fields, hPos]
    exact (hInv.of_fields hSome).2
  held t := hInv.holder_of_owner
  released t hAway := by
    have hNot := hInv.of_none (fields_of_isAway (t := t) (d := x.depth t) hAway)
    exact ⟨hNot, fun hOwner => hNot (hInv.holder_of_owner hOwner)⟩
  kept t timed wp l x' := next_depth
  returns t hAt := by
    have hNext : next x (.run t) = run x t := by
      unfold next
      rw [if_neg (by simp [hGood.failed])]
    -- either the next step of the call is there, or the thread sleeps or waits for a holder
    cases hRun : run x t with
    | some x' => exact .inr (.inr ⟨x', hNext.trans hRun, run_advances hInv hGood hRun⟩)
    | none =>
      rcases run_none hAt hRun with hAsleep | ⟨hWants, hHeld⟩
      · exact .inl hAsleep
      · obtain ⟨u, hu⟩ := Option.ne_none_iff_exists'.mp hHeld
        refine .inr (.inl ⟨hWants, u, fun hSame => ?_, hu⟩)
        exact hInv.of_none (fields_of_wantsLock hWants) (hSame ▸ hu)
  asserts := hInv.checks

theorem good_initial (h : Initial x) : Good x := by
  refine ⟨h.failed, fun t => ?_⟩
  rw [h.place t]
  trivial

theorem good_reachable (h : Runs.ReachableUnder system Undisturbed x) : Good x := by
  refine h.invariant_of (Q := Inv) (fun _ hReach => inv_reachable hReach.reachable)
    (fun _ => good_initial) fun _ _ _ hInv hGood hOk hStep => ?_
  exact hGood.next hInv hOk hStep

/-- **The re-entrant mutex** in every run whose stores in `__pthread_errno__` spoil no
pending check: it is exclusive, its owner and count are those of the thread that holds it,
and every call returns. -/
theorem mutex_sound (h : Runs.ReachableUnder system Undisturbed x) : Sound x :=
  sound_of_good (inv_reachable h.reachable) (good_reachable h)

/-- A new mutex. -/
def start : State :=
  ⟨none, none, 0, 0, fun _ => 0, fun _ => .outside, fun _ => 0, none⟩

theorem start_initial : Initial start := ⟨rfl, rfl, rfl, fun _ => rfl, fun _ => rfl, rfl⟩

def Label.thread : Label → Option Nat
  | .call t _ | .run t | .wake t _ | .setErrno t _ => some t
  | .store _ => none

/-- A step of a thread moves no other one. -/
theorem next_place {l : Label} (hInv : Inv x) (hGood : Good x) (hThread : l.thread = some t)
    (hStep : next x l = some x') {u : Nat} (hu : u ≠ t) : x'.place u = x.place u := by
  unfold next at hStep
  rw [if_neg (by simp [hGood.failed])] at hStep
  cases l with
  | call s c =>
    cases hThread
    simp only at hStep
    split at hStep
    · obtain ⟨p, -, rfl⟩ := call_cases hStep
      exact Function.update_of_ne hu _ _
    · cases hStep
  | run s =>
    cases hThread
    exact ((run_advances hInv hGood hStep).others u hu).1
  | wake s timedOut =>
    cases hThread
    obtain ⟨timed, times, -, -, rfl⟩ := wake_cases hStep
    exact Function.update_of_ne hu _ _
  | store v => cases hThread
  | setErrno s errno =>
    simp only at hStep
    split at hStep
    · cases hStep
      rfl
    · cases hStep

/-- A thread that runs alone is not disturbed. -/
theorem reachable_alone (h : Runs.ReachableUnder system Undisturbed x)
    (hAlone : ∀ u, u ≠ t → x.place u = .outside) (labels : List Label)
    (hThread : ∀ l ∈ labels, l.thread = some t) (hRun : labels.foldlM next x = some x') :
    Runs.ReachableUnder system Undisturbed x' := by
  induction labels generalizing x with
  | nil =>
    cases hRun
    exact h
  | cons l rest ih =>
    rw [List.foldlM_cons] at hRun
    obtain ⟨y, hStep, hRest⟩ := Option.bind_eq_some_iff.mp hRun
    have hOf := hThread l (by simp)
    have hOk : Undisturbed x l := by
      cases l with
      | run s =>
        cases hOf
        intro v _ u hu
        rw [hAlone u hu]
        trivial
      | store v => cases hOf
      | _ => trivial
    have hPlace : ∀ u, u ≠ t → y.place u = x.place u := by
      intro u hu
      exact next_place (inv_reachable h.reachable) (good_reachable h) hOf hStep hu
    refine ih (h.step hOk hStep) (fun u hu => (hPlace u hu).trans (hAlone u hu)) ?_ hRest
    exact fun l hl => hThread l (by simp [hl])

/-- Two `Lock`s, and a wait whose time ends. -/
def twoLocksAndWait : List Label :=
  [.call 0 .Lock, .run 0, .run 0, .run 0, .run 0, .run 0, .run 0,
    .call 0 .Lock, .run 0, .run 0,
    .call 0 (.Wait true), .run 0, .run 0, .run 0, .run 0, .run 0, .wake 0 true,
    .run 0, .run 0, .run 0, .run 0, .run 0, .run 0, .run 0, .run 0, .run 0, .run 0]

/-- A thread locks the mutex twice and waits until its time ends: it is outside again, still
the owner, and the count is 2. -/
theorem mutex_sound_two_locks :
    ∃ x, Sound x ∧ x.place 0 = .outside ∧ x.owner = some 0 ∧ x.count = 2 := by
  obtain ⟨x, hRun, hPlace, hOwner, hCount⟩ : ∃ x, twoLocksAndWait.foldlM next start = some x ∧
      x.place 0 = .outside ∧ x.owner = some 0 ∧ x.count = 2 := ⟨_, rfl, rfl, rfl, rfl⟩
  have hReach : Runs.ReachableUnder system Undisturbed x :=
    reachable_alone (t := 0) (.init start_initial) (fun _ _ => rfl) _ (by decide) hRun
  exact ⟨x, mutex_sound hReach, hPlace, hOwner, hCount⟩

/-- The time of thread 1 ends after thread 2 has unlocked the mutex, and before thread 2 has
stored the result of that. -/
def lateStore : List Label :=
  [.call 1 .Lock, .run 1, .run 1, .run 1, .run 1, .run 1, .run 1,
    .call 1 (.Wait true), .run 1, .run 1, .run 1, .run 1, .run 1,
    .call 2 .Lock, .run 2, .run 2, .run 2, .run 2, .run 2, .run 2,
    .call 2 .Unlock, .run 2, .run 2, .run 2,
    .wake 1 true, .run 1, .run 1, .run 1,
    .run 2,
    .run 1, .run 1, .run 1]

/-- `WaitTimed` finds the result of thread 2 in the global variable: its assertion fails,
and it does not return, although its own wait has timed out as it should. -/
theorem timeout_lost : ¬ ∀ x, Runs.Reachable system x → Sound x := by
  obtain ⟨x, hRun, hPlace, hFailed⟩ : ∃ x, lateStore.foldlM next start = some x ∧
      x.place 1 = .wait true (.timed 1 .interrupted) ∧ x.failed = some .result :=
    ⟨_, rfl, rfl, rfl⟩
  intro hAll
  have hReach : Runs.Reachable system x :=
    Runs.ReachableUnder.foldlM (fun _ _ _ h => h) (.init start_initial) _ hRun
  have hReturns := (hAll x hReach).returns 1
  rw [hPlace] at hReturns
  rcases hReturns (by decide) with hAsleep | hWants | ⟨x', hStep, -⟩
  · cases hAsleep
  · cases hWants.1
  · unfold next at hStep
    rw [if_pos (by simp [hFailed])] at hStep
    cases hStep

end Mutex

end Concurrit.Model
