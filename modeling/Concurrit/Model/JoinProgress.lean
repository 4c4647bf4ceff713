import Mathlib.Data.Fintype.Card
import Mathlib.Data.Set.Finite.Basic
import Mathlib.Order.WellFounded
import Concurrit.Model.Interposition

/-!
# Concurrit — no deadlock in the interposed calls

What the wrappers do is a run of the plain program (`kept_next`), so a program
that is correct on plain pthreads is correct inside them. A plain program whose
join relation is acyclic never gets stuck (`plain_progress`).

The wrapper of `pthread_join` waits for the end of a thread with the interposition
lock in its hands. If that thread has an interposed call left, it waits for the
lock for ever (`interposed_stuck`). `interposed_progress` is the other side: as
long as joins enter only for threads that have no call left, some step is always
enabled.
-/

namespace Concurrit.Model.Interpos

open Function (update)

variable {program : Program} {s s' : State} {t u : Nat} {p : Place} {c : Join.State}

-- ---------------------------------------------------------------------------
-- The plain program
-- ---------------------------------------------------------------------------

/-- What the wrappers have done, as a state of the plain program. -/
def State.plain (s : State) : Plain := ⟨s.pc, s.created, fun t => s.place t == .finished⟩

theorem plain_ended : s.plain.ended t = true ↔ s.place t = .finished := beq_iff_eq

theorem plain_not_ended (h : s.place t ≠ .finished) : s.plain.ended t = false := by
  cases hEnded : s.plain.ended t with
  | false => rfl
  | true => exact absurd (plain_ended.mp hEnded) h

/-- A thread that moves without finishing looks the same to the plain program. -/
theorem plain_update (hOld : s.place t ≠ .finished) (hNew : p ≠ .finished) :
    (fun w => update s.place t p w == .finished) = s.plain.ended := by
  funext w
  by_cases hw : w = t
  · subst hw
    rw [Function.update_self, plain_not_ended hOld]
    exact beq_eq_false_iff_ne.mpr hNew
  · rw [Function.update_of_ne hw]
    rfl

/-- A step that is none of the plain program. -/
theorem plain_of_move (hOld : s.place t ≠ .finished) (hNew : p ≠ .finished)
    (hPlace : s'.place = update s.place t p) (hPc : s'.pc = s.pc)
    (hCreated : s'.created = s.created) : s'.plain = s.plain := by
  unfold State.plain
  rw [hPlace, hPc, hCreated, plain_update hOld hNew]
  rfl

/-- A thread with no call left that is not at its end returns next. -/
theorem Quiet.returns (h : Quiet program s t) (hp : s.place t = p)
    (hNot : p ≠ .ends ∧ p ≠ .signalsEnd ∧ p ≠ .finished) : program t (s.pc t) = none := by
  rcases h with h | h | h | h
  · exact h
  · exact absurd (hp.symm.trans h) hNot.1
  · exact absurd (hp.symm.trans h) hNot.2.1
  · exact absurd (hp.symm.trans h) hNot.2.2

/-- A step of the wrappers keeps the invariant and is at most one step of the plain
program. -/
structure Follows (program : Program) (s : State) (t : Nat) (s' : State) : Prop where
  kept  : Kept program s'
  plain : s'.plain = s.plain ∨ Plain.next program s.plain t = some s'.plain

-- ---------------------------------------------------------------------------
-- One step of the wrappers
-- ---------------------------------------------------------------------------

/-- The thread is started, and the coroutine takes this step with it. -/
theorem Kept.starting (hK : Kept program s) (hp : s.place t = .starting)
    (hNext : Join.next (s.co t) .setStarted = some c) :
    Follows program s t ((s.setCo t c).move t .started) := by
  have hInv := (hK.coroutine t).next (a := .setStarted) trivial hNext
  have hPhase : (s.co t).phase = .starting := by
    have h := hK.agrees t
    rwa [hp] at h
  simp only [Join.next, hPhase, if_true, Option.some.injEq] at hNext
  subst hNext
  refine ⟨hK.own (by rw [hp]; rfl) rfl (by simp [hp]) (by simp) hInv rfl
    (Or.inl ⟨hPhase, rfl⟩) (Or.inl rfl) (fun h => ?_) trivial, Or.inl ?_⟩
  · exact Or.inl (h.returns hp (by decide))
  · exact plain_of_move (t := t) (p := .started) (by simp [hp]) (by simp) rfl rfl rfl

/-- The first transfer lets the thread run. -/
theorem Kept.started (hK : Kept program s) (hp : s.place t = .started)
    (hNext : Join.next (s.co t) .transfer = some c) :
    Follows program s t ((s.setCo t c).move t .running) := by
  have hInv := (hK.coroutine t).next (a := .transfer) trivial hNext
  simp only [Join.next] at hNext
  split at hNext
  case isFalse => cases hNext
  rename_i hPhase
  obtain rfl := Option.some.inj hNext
  refine ⟨hK.own (by rw [hp]; rfl) rfl (by simp [hp]) (by simp) hInv rfl
    (Or.inr (Or.inr ⟨by rw [hPhase]; rfl, rfl⟩)) rfl (fun h => ?_) trivial, Or.inl ?_⟩
  · exact Or.inl (h.returns hp (by decide))
  · exact plain_of_move (t := t) (p := .running) (by simp [hp]) (by simp) rfl rfl rfl

/-- A thread in its own code that moves without its coroutine. -/
theorem Kept.moves (hK : Kept program s) (hp : s.place t = .running) (hIn : p.inside = false)
    (hDormant : p ≠ .dormant) (hFinished : p ≠ .finished) (hAgrees : Agrees p .running)
    (hQuiet : Quiet program s t → Quiet program (s.move t p) t)
    (hKnows : Knows program (s.move t p) t p) : Follows program s t (s.move t p) := by
  have hSame : s.setCo t (s.co t) = s := by
    unfold State.setCo
    rw [Function.update_eq_self]
  have hKept := hK.own (t := t) (p := p) (c := s.co t) (by rw [hp]; rfl) hIn (by rw [hp]; exact nofun)
    hDormant (hK.coroutine t) rfl (Or.inr (Or.inl rfl)) (by rwa [hK.running hp rfl])
  rw [hSame] at hKept
  exact ⟨hKept hQuiet hKnows, Or.inl (plain_of_move (by rw [hp]; exact nofun) hFinished rfl rfl rfl)⟩

/-- The thread ends: the end of the coroutine is set before it is signalled. -/
theorem Kept.ends (hK : Kept program s) (hp : s.place t = .ends)
    (hNext : Join.next (s.co t) .setEnded = some c) :
    Follows program s t ((s.setCo t c).move t .signalsEnd) := by
  have hInv := (hK.coroutine t).next (a := .setEnded) trivial hNext
  have hPhase := hK.running hp rfl
  have hKnows := hK.knows t
  rw [hp] at hKnows
  simp only [Join.next, hPhase, if_true, Option.some.injEq] at hNext
  subst hNext
  refine ⟨hK.own (by rw [hp]; rfl) rfl (by simp [hp]) (by simp) hInv rfl
    (Or.inr (Or.inr ⟨by rw [hPhase]; rfl, rfl⟩)) rfl (fun _ => ?_) hKnows, Or.inl ?_⟩
  · exact Or.inr (Or.inr (Or.inl (move_place ..)))
  · exact plain_of_move (t := t) (p := .signalsEnd) (by simp [hp]) (by simp) rfl rfl rfl

/-- `SetEnded` gives the second token: the thread of the plain program ends. In the model of
the wrappers the body was over before; the plain program ends where the coroutine can be
joined. -/
theorem Kept.signalsEnd (hK : Kept program s) (hp : s.place t = .signalsEnd)
    (hNext : Join.next (s.co t) .endSignal = some c) :
    Follows program s t ((s.setCo t c).move t .finished) := by
  have hInv := (hK.coroutine t).next (a := .endSignal) trivial hNext
  have hPhase : (s.co t).phase = .ending := by
    have h := hK.agrees t
    rwa [hp] at h
  have hKnows := hK.knows t
  rw [hp] at hKnows
  simp only [Join.next, hPhase, if_true, Option.some.injEq] at hNext
  subst hNext
  refine ⟨hK.own (by rw [hp]; rfl) rfl (by simp [hp]) (by simp) hInv rfl
    (Or.inr (Or.inr ⟨by rw [hPhase]; rfl, rfl⟩)) rfl (fun _ => ?_) trivial, Or.inr ?_⟩
  · exact Or.inr (Or.inr (Or.inr (move_place ..)))
  -- the plain program is at the end of the body, by a return or by `pthread_exit`
  · have hMem : t ∈ s.plain.created := hK.ne_dormant hp (by simp)
    have hAlive := plain_not_ended (s := s) (t := t) (by simp [hp])
    have hEnded : (fun w => update s.place t .finished w == .finished) =
        update s.plain.ended t true := by
      funext w
      by_cases hw : w = t
      · subst hw
        rw [Function.update_self, Function.update_self]
        rfl
      · rw [Function.update_of_ne hw, Function.update_of_ne hw]
        rfl
    unfold Plain.next
    rw [if_pos ⟨hMem, hAlive⟩]
    rcases hKnows with hCall | hCall
    all_goals
      have hCall' : program t (s.plain.pc t) = _ := hCall
      rw [hCall']
      refine congrArg some ?_
      show _ = State.plain _
      unfold State.plain
      rw [show ((s.setCo t _).move t .finished).place = update s.place t .finished from rfl, hEnded]
      rfl

/-- The effect of `co->Start` on the new thread. -/
theorem start_effect {c' : Join.State} (hNext : Join.next c .start = some c') :
    c' = { c with phase := .starting } := by
  simp only [Join.next] at hNext
  split at hNext
  all_goals first
    | exact (Option.some.inj hNext).symm
    | cases hNext

/-- `co->Start` has created the thread: the plain program creates it. The thread that calls
`Start` holds the creation lock and the interposition lock, so no other one starts or joins
the same coroutine. -/
theorem Kept.starts (hK : Kept program s) (hp : s.place t = .starts u)
    (hNext : Join.next (s.co u) .start = some c) :
    Follows program s t { (((s.setCo u c).move u .starting).move t (.waitsStarted u)).advance t with
      created := u :: s.created } := by
  have hOwns := hK.owns hp rfl
  have hKnows := hK.knows t
  rw [hp] at hKnows
  obtain ⟨hCall, hNew⟩ := hKnows
  have hMem : t ∈ s.created := hK.ne_dormant hp nofun
  have hut : u ≠ t := fun h => hNew (h ▸ hMem)
  have hDormant : s.place u = .dormant := by
    by_contra hNot
    exact hNew ((hK.created u).mpr hNot)
  -- nobody joins a coroutine that is not in the group yet
  have hUnshared : Join.Unshared (s.co u) .start := fun w hw => by
    cases (hOwns.joiner u w hw).2
  have hInv := (hK.coroutine u).next hUnshared hNext
  obtain rfl := start_effect hNext
  have hPlace : ∀ w, w ≠ t → w ≠ u →
      (update (update s.place u .starting) t (.waitsStarted u)) w = s.place w := by
    intro w hw hwu
    rw [Function.update_of_ne hw, Function.update_of_ne hwu]
  have hCoAt : ∀ w, (update s.co u { s.co u with phase := .starting }) w =
      if w = u then { s.co u with phase := .starting } else s.co w := fun w =>
    Function.update_apply ..
  refine ⟨?_, Or.inr ?_⟩
  -- the invariant, for the new thread, for the others, and for the one that holds the lock
  · refine Kept.of_holder (t := t) (fun w => ?_) (fun w hw => ?_) ?_ ?_ (List.mem_cons_of_mem _ hMem) ?_
      ?_ (fun w hw => ?_) (fun v hv => ?_) (fun v w hw => ?_)
    · show Proper (update s.co u _ w)
      rw [hCoAt]
      split
      · exact hInv
      · exact hK.coroutine w
    -- the new thread is outside the wrappers and has just become known to the group
    · by_cases hwu : w = u
      · subst hwu
        have hAt : (update (update s.place w .starting) t (.waitsStarted w)) w = .starting := by
          rw [Function.update_of_ne hw, Function.update_self]
        refine ⟨?_, ?_, ?_, ?_⟩
        · show Place.inside (update (update s.place w .starting) t (.waitsStarted w) w) = false
          rw [hAt]
          rfl
        · show Agrees (update (update s.place w .starting) t (.waitsStarted w) w)
            (update s.co w _ w).phase
          rw [hAt, hCoAt, if_pos rfl]
          rfl
        · show Knows program _ w (update (update s.place w .starting) t (.waitsStarted w) w)
          rw [hAt]
          trivial
        · show w ∈ w :: s.created ↔ update (update s.place w .starting) t (.waitsStarted w) w ≠ .dormant
          rw [hAt]
          exact ⟨fun _ => nofun, fun _ => List.mem_cons_self ..⟩
      · refine (hK.others (by rw [hp]; rfl) hw).mono (hPlace w hw hwu) ?_
          (Function.update_of_ne hw ..) ?_
        · show Agrees (s.place w) (update s.co u _ w).phase
          rw [hCoAt, if_neg hwu]
          exact hK.agrees w
        · show w ∈ u :: s.created ↔ w ∈ s.created
          rw [List.mem_cons, or_iff_right hwu]
    all_goals rw [show ({ (((s.setCo u { s.co u with phase := .starting }).move u .starting).move t
      (.waitsStarted u)).advance t with created := u :: s.created } : State).place t =
        .waitsStarted u from Function.update_self ..]
    · show Agrees (.waitsStarted u) (update s.co u _ t).phase
      rw [hCoAt, if_neg (Ne.symm hut), hK.running hp rfl]
      rfl
    · show (update s.co u _ u).phase = _ ∨ _
      rw [hCoAt, if_pos rfl]
      exact Or.inl rfl
    · exact nofun
    · exact (hK.lock t).mp (by rw [hp]; rfl)
    · obtain ⟨rfl, -⟩ := hOwns.mutex w hw
      exact ⟨rfl, trivial⟩
    · have hv' : (update s.co u { s.co u with phase := .starting } v).phase.inStart = true := hv
      rw [hCoAt] at hv'
      split at hv'
      · rename_i hvu
        exact hvu.symm
      · exact (hOwns.starter v hv').elim
    · have hw' : ((update s.co u { s.co u with phase := .starting } v).joiner w).inside = true := hw
      rw [hCoAt] at hw'
      split at hw'
      · cases (hOwns.joiner u w hw').2
      · cases (hOwns.joiner v w hw').2
  -- the step of the plain program
  · have hAlive := plain_not_ended (s := s) (t := t) (by rw [hp]; exact nofun)
    have hEnded : (fun w => update (update s.place u .starting) t (.waitsStarted u) w == .finished) =
        s.plain.ended := by
      funext w
      by_cases hw : w = t
      · subst hw
        rw [Function.update_self, hAlive]
        rfl
      · by_cases hwu : w = u
        · subst hwu
          rw [Function.update_of_ne hw, Function.update_self,
            plain_not_ended (s := s) (t := w) (by rw [hDormant]; exact nofun)]
          rfl
        · rw [hPlace w hw hwu]
          rfl
    have hCall' : program t (s.plain.pc t) = some (.create u) := hCall
    have hMem' : t ∈ s.plain.created := hMem
    unfold Plain.next
    rw [if_pos ⟨hMem', hAlive⟩, hCall']
    refine congrArg some ?_
    show _ = Plain.mk _ _ (fun w => update (update s.place u .starting) t (.waitsStarted u) w == .finished)
    rw [hEnded]
    rfl

/-- A step within a wrapper is none of the plain program. -/
theorem follows_inside (hp : s.place t = p) (hNot : p ≠ .finished) {q : Place} (hq : q ≠ .finished)
    (hKept : Kept program s') (hPlace : s'.place = update s.place t q) (hPc : s'.pc = s.pc)
    (hCreated : s'.created = s.created) : Follows program s t s' :=
  ⟨hKept, Or.inl (plain_of_move (by rw [hp]; exact hNot) hq hPlace hPc hCreated)⟩

/-- `WaitForEnd` goes on or returns: the plain program joins. -/
theorem Kept.waits (hK : Kept program s) (hp : s.place t = .waitsEnd u) {a : Join.Action}
    (hAct : waitAction t ((s.co u).joiner t) = some a) (hNext : Join.next (s.co u) a = some c) :
    Follows program s t (joined s t u c) := by
  have hKnows := hK.knows t
  rw [hp] at hKnows
  obtain ⟨hKept, hStays | ⟨hFinished, hReturns⟩⟩ := hK.waitsEnd hp hAct hNext
  · refine ⟨hKept, Or.inl ?_⟩
    rw [hStays]
    rfl
  · refine ⟨hKept, Or.inr ?_⟩
    rw [hReturns]
    have hAlive := plain_not_ended (s := s) (t := t) (by rw [hp]; exact nofun)
    have hMem : t ∈ s.plain.created := hK.ne_dormant hp nofun
    have hCall : program t (s.plain.pc t) = some (.join u) := hKnows.1
    unfold Plain.next
    rw [if_pos ⟨hMem, hAlive⟩, hCall]
    simp only [plain_ended.mpr hFinished, if_true]
    refine congrArg some ?_
    show _ = Plain.mk _ _ (fun w => update s.place t .leaves w == .finished)
    rw [plain_update (p := .leaves) (by rw [hp]; exact nofun) nofun]
    rfl

/-- **One step of the wrappers.** It is a step of the plain program, or the plain program
stands still. The entry of a wrapper uses that the plain program is correct, and the
condition on joins. -/
theorem kept_next (hK : Kept program s) (hOk : JoinsLast program s t)
    (hCorrect : t ∈ s.created → s.place t = .enters → ∀ u,
      (program t (s.pc t) = some (.create u) → u ∉ s.created) ∧
        (program t (s.pc t) = some (.join u) → u ∈ s.created))
    (hNext : next program s t = some s') : Follows program s t s' := by
  -- one case for each place of a thread
  cases hp : s.place t
  all_goals simp only [next, hp] at hNext
  case dormant => cases hNext
  case starting =>
    obtain ⟨c, hc, rfl⟩ := Option.map_eq_some_iff.mp hNext
    exact hK.starting hp hc
  case started =>
    obtain ⟨c, hc, rfl⟩ := Option.map_eq_some_iff.mp hNext
    exact hK.started hp hc
  -- a call in the body: the thread goes to the wrapper, or ends without one
  case running =>
    split at hNext
    all_goals
      rename_i hCall
      obtain rfl := Option.some.inj hNext
    · exact hK.moves hp rfl nofun nofun rfl (fun h => Or.inl (h.returns hp (by decide)))
        (show program t (s.pc t) ≠ none by rw [hCall]; exact nofun)
    · exact hK.moves hp rfl nofun nofun rfl (fun _ => Or.inr (Or.inl (move_place ..))) (Or.inl hCall)
  -- the entry of a wrapper needs the interposition lock
  case enters =>
    split at hNext
    case h_2 => cases hNext
    rename_i call hLock hCall
    obtain rfl := Option.some.inj hNext
    obtain ⟨hCreate, hJoin⟩ := forall_and.mp (hCorrect (hK.ne_dormant hp nofun) hp)
    refine follows_inside (q := wrapper call) hp nofun (by cases call <;> exact nofun)
      (hK.enters hp hLock ?_) rfl rfl rfl
    cases call with
    | create u => exact ⟨hCall, hCreate u hCall⟩
    -- the condition: the thread to be joined needs the lock no more
    | join u =>
      have hQuiet := hOk hp u hCall
      have hut : u ≠ t := by
        rintro rfl
        rw [hQuiet.returns hp (by decide)] at hCall
        cases hCall
      refine ⟨hCall, hJoin u hCall, ?_⟩
      show program u (s.pc u) = none ∨ update s.place t _ u = _ ∨ update s.place t _ u = _ ∨
        update s.place t _ u = _
      rw [Function.update_of_ne hut]
      exact hQuiet
    | exit => exact hCall
  -- `CreatePThread` under the creation lock
  case creates u =>
    split at hNext
    case isFalse => cases hNext
    obtain rfl := Option.some.inj hNext
    have hKnows := hK.knows t
    rw [hp] at hKnows
    refine follows_inside hp nofun (q := .starts u) nofun (hK.inWrapper hp rfl rfl rfl rfl rfl rfl ?_
      (fun w hw => ⟨(Option.some.inj hw).symm, trivial⟩) nofun nofun rfl nofun hKnows) rfl rfl rfl
    exact (hK.lock t).mp (by rw [hp]; rfl)
  case starts u =>
    obtain ⟨c, hc, rfl⟩ := Option.map_eq_some_iff.mp hNext
    exact hK.starts hp hc
  case waitsStarted u =>
    split at hNext
    case isFalse => cases hNext
    rename_i hPhase
    obtain rfl := Option.some.inj hNext
    refine follows_inside hp nofun (q := .setsToken u) nofun (hK.inWrapper hp rfl rfl rfl rfl rfl rfl ?_
      (fun w hw => ⟨((hK.owns hp rfl).mutex w hw).1, trivial⟩) (fun v hv => hv) nofun rfl nofun
      hPhase) rfl rfl rfl
    exact (hK.lock t).mp (by rw [hp]; rfl)
  case setsToken u =>
    obtain ⟨c, hc, rfl⟩ := Option.map_eq_some_iff.mp hNext
    exact follows_inside hp nofun (q := .signalsToken u) nofun (hK.setsToken hp hc) rfl rfl rfl
  case signalsToken u =>
    obtain ⟨c, hc, rfl⟩ := Option.map_eq_some_iff.mp hNext
    exact follows_inside hp nofun (q := .unlocksCreate) nofun (hK.signalsToken hp hc) rfl rfl rfl
  case unlocksCreate =>
    obtain rfl := Option.some.inj hNext
    refine follows_inside hp nofun (q := .leaves) nofun (hK.inWrapper hp rfl rfl rfl rfl rfl rfl ?_
      nofun nofun nofun rfl nofun trivial) rfl rfl rfl
    exact (hK.lock t).mp (by rw [hp]; rfl)
  -- `JoinPThread`, with the lock held until the thread has ended
  case joins u =>
    have hKnows := hK.knows t
    rw [hp] at hKnows
    rw [if_pos hKnows.2.1] at hNext
    obtain ⟨c, hc, rfl⟩ := Option.map_eq_some_iff.mp hNext
    exact follows_inside hp nofun (q := .waitsEnd u) nofun (hK.joins hp hc) rfl rfl rfl
  case waitsEnd u =>
    obtain ⟨a, hAct, hMap⟩ := Option.bind_eq_some_iff.mp hNext
    obtain ⟨c, hc, rfl⟩ := Option.map_eq_some_iff.mp hMap
    exact hK.waits hp hAct hc
  case exits =>
    obtain rfl := Option.some.inj hNext
    have hKnows := hK.knows t
    rw [hp] at hKnows
    exact follows_inside hp nofun (q := .ends) nofun (hK.inWrapper hp rfl rfl rfl rfl rfl rfl rfl
      (fun w hw => ((hK.owns hp rfl).mutex w hw).2.elim) nofun nofun rfl nofun (Or.inr hKnows))
      rfl rfl rfl
  case leaves =>
    obtain rfl := Option.some.inj hNext
    exact follows_inside hp nofun (q := .running) nofun (hK.inWrapper hp rfl rfl rfl rfl rfl rfl rfl
      (fun w hw => ((hK.owns hp rfl).mutex w hw).2.elim) nofun nofun rfl nofun trivial) rfl rfl rfl
  case ends =>
    obtain ⟨c, hc, rfl⟩ := Option.map_eq_some_iff.mp hNext
    exact hK.ends hp hc
  case signalsEnd =>
    obtain ⟨c, hc, rfl⟩ := Option.map_eq_some_iff.mp hNext
    exact hK.signalsEnd hp hc
  case finished => cases hNext
  case aborted => cases hNext

-- ---------------------------------------------------------------------------
-- Runs of the wrappers
-- ---------------------------------------------------------------------------

/-- With nobody inside, status and tokens are those of the phase. -/
theorem proper_of_outside {status : Join.CoStatus} {phase : Join.Phase} {tokens : Nat}
    (hStatus : phase = .ending ∨ phase = .ended → status = .ended)
    (hTokens : phase.total = some tokens)
    (hStarted : phase = .passive ∨ phase = .starting ∨ status ≠ .passive) :
    Proper ⟨status, phase, tokens, fun _ => .outside⟩ := by
  refine ⟨⟨hStatus, fun k hk => ?_, fun _ _ h => (by cases h), fun _ _ _ h => (by cases h),
    fun _ => trivial⟩, hStarted⟩
  rw [hTokens] at hk
  exact ⟨∅, fun _ _ => rfl, Option.some.inj hk⟩

/-- In an initial state the driver runs, no other thread has been created, and all
coroutines are unused or left over from an earlier execution. -/
theorem kept_initial (h : Initial s) : Kept program s := by
  have hPlace : ∀ w, w ≠ 0 → s.place w = .dormant := fun w hw => by
    rw [h.place, Function.update_of_ne hw]
  have hDriver : s.place 0 = .running := by rw [h.place, Function.update_self]
  have hOutside : ∀ u w, ((s.co u).joiner w).inside = false := by
    intro u w
    by_cases hu : u = 0
    · subst hu
      rw [h.driver]
      rfl
    · rcases h.others u hu with hc | hc <;> rw [hc] <;> rfl
  have hIdle : ∀ u, (s.co u).phase.inStart = false := by
    intro u
    by_cases hu : u = 0
    · subst hu
      rw [h.driver]
      rfl
    · rcases h.others u hu with hc | hc <;> rw [hc] <;> rfl
  refine Kept.of_holder (t := 0) (fun u => ?_) (fun w hw => ?_) ?_ ?_ ?_ ?_ ?_ ?_ (fun u hu => ?_)
    (fun u w hw => ?_)
  · by_cases hu : u = 0
    · subst hu
      rw [h.driver]
      exact proper_of_outside (by decide) rfl (by decide)
    · rcases h.others u hu with hc | hc
      · rw [hc]
        exact proper_of_outside (by decide) rfl (by decide)
      · rw [hc]
        exact proper_of_outside (by decide) rfl (by decide)
  · have hAgrees : Agrees .dormant (s.co w).phase := by
      rcases h.others w hw with hc | hc
      · rw [hc]
        exact Or.inl rfl
      · rw [hc]
        exact Or.inr rfl
    refine ⟨by rw [hPlace w hw]; rfl, by rwa [hPlace w hw], by rw [hPlace w hw]; trivial, ?_⟩
    rw [hPlace w hw, h.created, List.mem_singleton]
    exact ⟨fun hw' => absurd hw' hw, fun hNot => absurd rfl hNot⟩
  · rw [hDriver, h.driver]
    rfl
  · rw [hDriver]
    trivial
  · rw [h.created]
    exact List.mem_singleton_self ..
  · rw [hDriver]
    exact nofun
  · rw [hDriver, h.lock]
    rfl
  · rw [h.createMutex]
    exact nofun
  · rw [hIdle] at hu
    cases hu
  · rw [hOutside] at hw
    cases hw

/-- Without the wrappers the program begins in the same state. -/
theorem plain_initial (h : Initial s) : s.plain = Plain.initial := by
  have hEnded : (fun w => s.place w == .finished) = fun _ => false := by
    funext w
    rw [h.place]
    by_cases hw : w = 0
    · subst hw
      rfl
    · rw [Function.update_of_ne hw]
      rfl
  unfold State.plain
  rw [h.pc, h.created, hEnded]
  rfl

/-- **Every run** whose joins meet the condition keeps the invariant and is a run of
the plain program. -/
theorem kept_reachable (hCorrect : Correct program)
    (h : Runs.ReachableUnder (system program) (JoinsLast program) s) :
    Kept program s ∧ Runs.Reachable (plain program) s.plain := by
  induction h with
  | init hInit => exact ⟨kept_initial hInit, .init (plain_initial hInit)⟩
  | @step s s' t _ hOk hStep ih =>
    obtain ⟨hK, hPlain⟩ := ih
    obtain ⟨hKept, hSame | hOne⟩ := kept_next hK hOk (fun hMem hp u =>
      hCorrect s.plain hPlain t hMem (plain_not_ended (by rw [hp]; exact nofun)) u) hStep
    · exact ⟨hKept, hSame ▸ hPlain⟩
    · exact ⟨hKept, hPlain.step trivial hOne⟩

-- ---------------------------------------------------------------------------
-- Some thread can go on
-- ---------------------------------------------------------------------------

/-- In an acyclic relation on a list some element with a property is related to no
other one with it. -/
theorem exists_last {α : Type} {r : α → α → Prop} (hAcyclic : ∀ a, ¬ Relation.TransGen r a a)
    {l : List α} {P : α → Prop} (hSome : ∃ a ∈ l, P a) :
    ∃ a ∈ l, P a ∧ ∀ b ∈ l, P b → ¬ r a b := by
  let below : {a // a ∈ l} → {a // a ∈ l} → Prop := fun x y => Relation.TransGen r y.1 x.1
  have hTrans : IsTrans _ below := ⟨fun x y z hxy hyz => hyz.trans hxy⟩
  have hIrrefl : Std.Irrefl below := ⟨fun x => hAcyclic x.1⟩
  have hFinite : Finite {a // a ∈ l} := l.finite_toSet
  have hWf : WellFounded below := Finite.wellFounded_of_trans_of_irrefl below
  obtain ⟨a, ha, hP⟩ := hSome
  obtain ⟨b, hPb, hMin⟩ := hWf.has_min {x | P x.1} ⟨⟨a, ha⟩, hP⟩
  exact ⟨b.1, b.2, hPb, fun c hc hPc hr => hMin ⟨c, hc⟩ hPc (.single hr)⟩

/-- **A correct program with an acyclic join relation does not get stuck** on plain
pthreads: the last thread in the order of joins that has not ended waits for none. -/
theorem plain_progress (hAcyclic : Acyclic program) (hCorrect : Correct program) {p : Plain}
    (h : Runs.Reachable (plain program) p) (hSome : ∃ t ∈ p.created, p.ended t = false) :
    ∃ t p', Plain.next program p t = some p' := by
  obtain ⟨t, hMem, hAlive, hLast⟩ := exists_last hAcyclic hSome
  refine ⟨t, ?_⟩
  unfold Plain.next
  rw [if_pos ⟨hMem, hAlive⟩]
  cases hCall : program t (p.pc t) with
  | none => exact ⟨_, rfl⟩
  | some call =>
    cases call with
    | create u => exact ⟨_, rfl⟩
    | exit => exact ⟨_, rfl⟩
    | join u =>
      have hCreated := (hCorrect p h t hMem hAlive u).2 hCall
      have hEnded : p.ended u = true := by
        cases hu : p.ended u with
        | true => rfl
        | false => exact absurd ⟨_, hCall⟩ (hLast u hCreated hu)
      simp only [hEnded, if_true]
      exact ⟨_, rfl⟩

/-- A thread that is outside the wrappers and wants none can go on: it is starting, in its
body, or ending, and none of this needs a lock. -/
theorem Kept.goes_on (hK : Kept program s) (hMem : t ∈ s.created)
    (hOut : (s.place t).inside = false) (hEnters : s.place t ≠ .enters)
    (hFinished : s.place t ≠ .finished)
    (hStart : (s.co t).phase = .starting ∨ (s.co t).phase.inStart = false) :
    ∃ s', next program s t = some s' := by
  have hAgrees := hK.agrees t
  have hCreated := (hK.created t).mp hMem
  unfold next
  cases hp : s.place t
  all_goals
    rw [hp] at hOut hEnters hFinished hAgrees hCreated
    first
      | exact Bool.noConfusion hOut
      | skip
  case dormant => exact absurd rfl hCreated
  case starting =>
    have hPhase : (s.co t).phase = .starting := hAgrees
    simp only [Join.next, hPhase, if_true, Option.map_some]
    exact ⟨_, rfl⟩
  case started =>
    have hPhase : (s.co t).phase = .ready := by
      rcases hAgrees with h | h | h
      · rcases hStart with h' | h' <;> simp [h, Join.Phase.inStart] at h'
      · rcases hStart with h' | h' <;> simp [h, Join.Phase.inStart] at h'
      · exact h
    simp only [Join.next, hPhase, if_true, Option.map_some]
    exact ⟨_, rfl⟩
  case running =>
    simp only
    split <;> exact ⟨_, rfl⟩
  case enters => exact absurd rfl hEnters
  case ends =>
    have hPhase : (s.co t).phase = .running := hAgrees
    simp only [Join.next, hPhase, if_true, Option.map_some]
    exact ⟨_, rfl⟩
  case signalsEnd =>
    have hPhase : (s.co t).phase = .ending := hAgrees
    simp only [Join.next, hPhase, if_true, Option.map_some]
    exact ⟨_, rfl⟩
  case finished => exact absurd rfl hFinished
  case aborted => exact hAgrees.elim

/-- Some step that meets the condition is enabled. -/
def State.CanStep (program : Program) (s : State) : Prop :=
  ∃ t s', JoinsLast program s t ∧ next program s t = some s'

theorem canStep_of_not_enters (hp : s.place t ≠ .enters) (h : ∃ s', next program s t = some s') :
    s.CanStep program := by
  obtain ⟨s', hNext⟩ := h
  exact ⟨t, s', fun h => absurd h hp, hNext⟩

/-- With the interposition lock taken no other thread is inside a wrapper. -/
theorem Kept.not_inside (hK : Kept program s) (hLock : s.lock = some t) (hut : u ≠ t) :
    (s.place u).inside = false := by
  cases hIn : (s.place u).inside with
  | false => rfl
  | true =>
    have hLock' := (hK.lock u).mp hIn
    rw [hLock] at hLock'
    exact absurd (Option.some.inj hLock').symm hut

/-- `Start` of `u` goes on: the new thread announces itself, which it does outside the
wrappers. -/
theorem Kept.waitsStarted_steps (hK : Kept program s) (hp : s.place t = .waitsStarted u) :
    s.CanStep program := by
  have hKnows := hK.knows t
  rw [hp] at hKnows
  rcases hKnows with hPhase | hPhase
  · have hu : s.place u = .starting := by
      have hAgrees := hK.agrees u
      rw [hPhase] at hAgrees
      revert hAgrees
      cases s.place u <;> simp [Agrees]
    have hMem : u ∈ s.created := hK.ne_dormant hu (by simp)
    exact canStep_of_not_enters (t := u) (by simp [hu])
      (hK.goes_on hMem (by rw [hu]; rfl) (by simp [hu]) (by simp [hu])
        (Or.inl hPhase))
  · refine canStep_of_not_enters (t := t) (by simp [hp]) ?_
    simp only [next, hp, hPhase, if_true]
    exact ⟨_, rfl⟩

/-- A thread enters `WaitForEnd`. -/
theorem Kept.joins_steps (hK : Kept program s) (hp : s.place t = .joins u) :
    s.CanStep program := by
  have hOwns := hK.owns hp rfl
  have hKnows := hK.knows t
  rw [hp] at hKnows
  obtain ⟨-, hMem, -⟩ := hKnows
  have hStatus : (s.co u).status ≠ .passive := by
    rcases (hK.coroutine u).status with h | h | h
    · have hAgrees := hK.agrees u
      have hNot := (hK.created u).mp hMem
      rw [h] at hAgrees
      revert hAgrees hNot
      cases s.place u <;> simp [Agrees]
    · have hStart := hK.not_inStart hp
      rw [h] at hStart
      cases hStart
    · exact h
  have hOut : ((s.co u).joiner t).inside = false := by
    cases hIn : ((s.co u).joiner t).inside with
    | false => rfl
    | true => cases (hOwns.joiner u t hIn).2
  refine canStep_of_not_enters (t := t) (by simp [hp]) ?_
  simp only [next, hp, if_pos hMem, Join.next, if_pos (And.intro hOut hStatus), Option.map_some]
  exact ⟨_, rfl⟩

/-- The tokens of a coroutine that only the owner of the lock joins are in its semaphore or
in the hands of the owner. -/
theorem Kept.tokens (hK : Kept program s) (hp : s.place t = .waitsEnd u) {k : Nat}
    (hTotal : (s.co u).phase.total = some k) :
    (s.co u).tokens + ((s.co u).joiner t).held = k := by
  refine (hK.coroutine u).inv.conserved_alone hTotal fun w hw => ?_
  have hOut : ((s.co u).joiner w).inside = false := by
    cases hIn : ((s.co u).joiner w).inside with
    | false => rfl
    | true => exact absurd ((hK.owns hp rfl).joiner u w hIn).1 hw
  cases hj : (s.co u).joiner w
  all_goals
    rw [hj] at hOut
    first
      | rfl
      | exact Bool.noConfusion hOut

/-- **A joiner whose thread has no call left is not stuck**: it goes on, or the thread does.
There is a token for the first wait as soon as the coroutine has started, and the second one
comes with its end, for which it needs no lock. -/
theorem Kept.waitsEnd_steps (hK : Kept program s) (hp : s.place t = .waitsEnd u) :
    s.CanStep program := by
  have hOwns := hK.owns hp rfl
  have hKnows := hK.knows t
  rw [hp] at hKnows
  obtain ⟨-, hMem, hQuiet, hWaits⟩ := hKnows
  -- `u` is not in the middle of its own start
  have hStart : (s.co u).phase.inStart = false := by
    cases hStart : (s.co u).phase.inStart with
    | false => rfl
    | true => exact (hOwns.starter u hStart).elim
  -- a step of `WaitForEnd` is a step of the wrapper
  have hGo : ∀ {a : Join.Action}, waitAction t ((s.co u).joiner t) = some a →
      (∃ c, Join.next (s.co u) a = some c) → s.CanStep program := by
    rintro a hAct ⟨c, hNext⟩
    refine canStep_of_not_enters (t := t) (by rw [hp]; exact nofun) ?_
    simp only [next, hp, hAct, Option.bind_some, hNext, Option.map_some]
    exact ⟨_, rfl⟩
  have hNotPassive : (s.co u).phase ≠ .passive := by
    intro hPhase
    have hAgrees := hK.agrees u
    have hNot := (hK.created u).mp hMem
    rw [hPhase] at hAgrees
    revert hAgrees hNot
    cases s.place u <;> simp [Agrees]
  -- the coroutine has given one token, or both
  have hTotal : ∃ k, (s.co u).phase.total = some k ∧ 1 ≤ k := by
    revert hNotPassive hStart
    cases (s.co u).phase <;> simp [Join.Phase.inStart, Join.Phase.total]
  obtain ⟨k, hk, hPos⟩ := hTotal
  have hSum := hK.tokens hp hk
  -- where the joiner stands in `WaitForEnd`
  cases hj : (s.co u).joiner t
  all_goals rw [hj] at hWaits hSum
  case first timed before =>
    simp only [Join.Joiner.held] at hSum
    refine hGo (a := .firstToken t) (by rw [hj]; rfl) ?_
    simp only [Join.next, hj]
    rw [if_pos (by omega)]
    exact ⟨_, rfl⟩
  case second timed before =>
    by_cases hEnded : (s.co u).phase = .ended
    · have hTwo : k = 2 := by
        rw [hEnded] at hk
        exact (Option.some.inj hk).symm
      simp only [Join.Joiner.held] at hSum
      refine hGo (a := .secondToken t) (by rw [hj]; rfl) ?_
      simp only [Join.next, hj]
      rw [if_pos (by omega)]
      exact ⟨_, rfl⟩
    · -- the thread itself can still move
      have hLock : s.lock = some t := (hK.lock t).mp (by rw [hp]; rfl)
      have hut : u ≠ t := by
        rintro rfl
        rw [hK.running hp rfl] at hStart
        rcases hQuiet with h | h | h | h
        · have hCall := hK.knows u
          rw [hp] at hCall
          rw [hCall.1] at h
          cases h
        all_goals
          rw [hp] at h
          cases h
      have hEnters : s.place u ≠ .enters := by
        intro hu
        have hCall := hK.knows u
        rw [hu] at hCall
        exact hCall (hQuiet.returns hu (by decide))
      have hFinished : s.place u ≠ .finished := by
        intro hu
        have hAgrees := hK.agrees u
        rw [hu] at hAgrees
        exact hEnded hAgrees
      exact canStep_of_not_enters hEnters
        (hK.goes_on hMem (hK.not_inside hLock hut) hEnters hFinished (Or.inr hStart))
  -- giving back what it has taken is always possible
  case giveBoth before =>
    refine hGo (a := .signal t) (by rw [hj]; rfl) ?_
    simp only [Join.next, hj]
    exact ⟨_, rfl⟩
  case giveOne before =>
    refine hGo (a := .signal t) (by rw [hj]; rfl) ?_
    simp only [Join.next, hj]
    exact ⟨_, rfl⟩
  case check before =>
    refine hGo (a := .checkEnded t) (by rw [hj]; rfl) ?_
    simp only [Join.next, hj]
    exact ⟨_, rfl⟩
  all_goals exact hWaits.elim

/-- **The owner of the lock is not stuck**, wherever it stands in a wrapper. The waits
inside are for the start of a coroutine and for its end. -/
theorem Kept.owner_steps (hK : Kept program s) (hLock : s.lock = some t) : s.CanStep program := by
  have hIn : (s.place t).inside = true := (hK.lock t).mpr hLock
  have hKnows := hK.knows t
  cases hp : s.place t
  all_goals
    rw [hp] at hIn hKnows
    first
      | exact Bool.noConfusion hIn
      | skip
  case waitsStarted u => exact hK.waitsStarted_steps hp
  case joins u => exact hK.joins_steps hp
  case waitsEnd u => exact hK.waitsEnd_steps hp
  all_goals
    refine canStep_of_not_enters (t := t) (by rw [hp]; exact nofun) ?_
    simp only [next, hp]
  -- only the owner of the interposition lock takes the creation lock
  case creates u =>
    have hFree : s.createMutex = none := by
      cases hMutex : s.createMutex with
      | none => rfl
      | some w => exact ((hK.owns hp rfl).mutex w hMutex).2.elim
    rw [if_pos hFree]
    exact ⟨_, rfl⟩
  -- a thread that has not been created has an unused coroutine
  case starts u =>
    have hAgrees := hK.agrees u
    have hDormant : s.place u = .dormant := by
      by_contra hNot
      exact hKnows.2 ((hK.created u).mpr hNot)
    rw [hDormant] at hAgrees
    rcases hAgrees with hPhase | hPhase
    all_goals
      simp only [Join.next, hPhase, Option.map_some]
      exact ⟨_, rfl⟩
  case setsToken u =>
    have hPhase : (s.co u).phase = .started := hKnows
    simp only [Join.next, hPhase, if_true, Option.map_some]
    exact ⟨_, rfl⟩
  case signalsToken u =>
    have hPhase : (s.co u).phase = .cleared := hKnows
    simp only [Join.next, hPhase, if_true, Option.map_some]
    exact ⟨_, rfl⟩
  all_goals exact ⟨_, rfl⟩

/-- **The interposed calls introduce no deadlock** in any run in which the wrapper of
`pthread_join` gets the lock only for a thread that has no interposed call left: while some
thread of a correct program with an acyclic join relation has not finished, a step is
enabled, and one that meets the condition. If somebody holds the lock, that thread or the
one it waits for can go on. If nobody does, a thread that joins no unfinished one can, and
its entry into a wrapper meets the condition. -/
theorem interposed_progress (hAcyclic : Acyclic program) (hCorrect : Correct program)
    (h : Runs.ReachableUnder (system program) (JoinsLast program) s)
    (hSome : ∃ t, s.Unfinished t) : s.CanStep program := by
  obtain ⟨hK, hPlain⟩ := kept_reachable hCorrect h
  cases hLock : s.lock with
  | some t => exact hK.owner_steps hLock
  | none =>
    -- a thread that joins no unfinished one
    obtain ⟨t, hMem, hFinished, hLast⟩ := exists_last hAcyclic hSome
    have hOut : (s.place t).inside = false := by
      cases hIn : (s.place t).inside with
      | false => rfl
      | true =>
        rw [(hK.lock t).mp hIn] at hLock
        cases hLock
    -- it may take the lock: all it joins has finished
    by_cases hEnters : s.place t = .enters
    · have hCall := hK.knows t
      rw [hEnters] at hCall
      obtain ⟨call, hCall⟩ := Option.ne_none_iff_exists'.mp hCall
      refine ⟨t, _, fun _ u hu => ?_, by simp only [next, hEnters, hLock, hCall]; rfl⟩
      have hCreated := (hCorrect s.plain hPlain t hMem (plain_not_ended hFinished) u).2 hu
      refine Or.inr (Or.inr (Or.inr ?_))
      by_contra hNot
      exact hLast u hCreated hNot ⟨_, hu⟩
    -- outside the wrappers it goes on by itself
    · refine canStep_of_not_enters hEnters (hK.goes_on hMem hOut hEnters hFinished (Or.inr ?_))
      cases hStart : (s.co t).phase.inStart with
      | false => rfl
      | true =>
        obtain ⟨w, hw⟩ := hK.starter t hStart
        rw [(hK.lock w).mp (Place.inside_of_startsThread hw)] at hLock
        cases hLock

-- ---------------------------------------------------------------------------
-- A join that comes too early
-- ---------------------------------------------------------------------------

/-- The driver creates a thread and joins it, the thread calls `pthread_exit`. -/
def earlyJoin : Program
  | 0, 0 => some (.create 1)
  | 0, 1 => some (.join 1)
  | 1, 0 => some .exit
  | _, _ => none

theorem earlyJoin_joins (h : Joins earlyJoin t u) : t = 0 ∧ u = 1 := by
  obtain ⟨k, hk⟩ := h
  unfold earlyJoin at hk
  split at hk
  all_goals cases hk
  exact ⟨rfl, rfl⟩

theorem earlyJoin_acyclic : Acyclic earlyJoin := by
  intro t h
  obtain ⟨u, hFirst, -⟩ := Relation.TransGen.head'_iff.mp h
  obtain ⟨v, -, hFinal⟩ := Relation.TransGen.tail'_iff.mp h
  have hZero := (earlyJoin_joins hFirst).1
  have hOne := (earlyJoin_joins hFinal).2
  omega

theorem earlyJoin_create {k : Nat} (h : earlyJoin t k = some (.create u)) :
    t = 0 ∧ k = 0 ∧ u = 1 := by
  unfold earlyJoin at h
  split at h
  all_goals cases h
  exact ⟨rfl, rfl, rfl⟩

theorem earlyJoin_join {k : Nat} (h : earlyJoin t k = some (.join u)) :
    t = 0 ∧ k = 1 ∧ u = 1 := by
  unfold earlyJoin at h
  split at h
  all_goals cases h
  exact ⟨rfl, rfl, rfl⟩

/-- The threads the program has created, by the calls of the driver: one call, and the
second thread from then on. -/
theorem earlyJoin_created {p : Plain} (h : Runs.Reachable (plain earlyJoin) p) :
    p.pc 0 = 0 ∧ p.created = [0] ∨ 1 ≤ p.pc 0 ∧ p.created = [1, 0] := by
  refine h.invariant (P := fun p => p.pc 0 = 0 ∧ p.created = [0] ∨ 1 ≤ p.pc 0 ∧ p.created = [1, 0])
    ?_ ?_
  · rintro _ rfl
    exact Or.inl ⟨rfl, rfl⟩
  · intro p t p' hP _ hNext
    have hNext : Plain.next earlyJoin p t = some p' := hNext
    unfold Plain.next at hNext
    split at hNext
    case isFalse => cases hNext
    split at hNext
    · rename_i u hCall
      obtain ⟨rfl, hZero, rfl⟩ := earlyJoin_create hCall
      obtain rfl := Option.some.inj hNext
      rcases hP with ⟨-, hCreated⟩ | ⟨hPos, -⟩
      · refine Or.inr ⟨?_, by simp only [hCreated]⟩
        simp only [Function.update_self]
        omega
      · omega
    · rename_i u hCall
      split at hNext
      case isFalse => cases hNext
      obtain ⟨rfl, hOne, -⟩ := earlyJoin_join hCall
      obtain rfl := Option.some.inj hNext
      rcases hP with ⟨hZero, -⟩ | ⟨-, hCreated⟩
      · omega
      · refine Or.inr ⟨?_, hCreated⟩
        simp only [Function.update_self]
        omega
    all_goals
      obtain rfl := Option.some.inj hNext
      exact hP

/-- The program of the example gives every join its own thread. -/
theorem earlyJoin_correct : Correct earlyJoin := by
  intro p h t hMem _ u
  have hCreated := earlyJoin_created h
  refine ⟨fun hCall hu => ?_, fun hCall => ?_⟩
  · obtain ⟨rfl, hZero, rfl⟩ := earlyJoin_create hCall
    rcases hCreated with ⟨-, hList⟩ | ⟨hPos, -⟩
    · rw [hList] at hu
      simp at hu
    · omega
  · obtain ⟨rfl, hOne, rfl⟩ := earlyJoin_join hCall
    rcases hCreated with ⟨hZero, -⟩ | ⟨-, hList⟩
    · omega
    · rw [hList]
      simp

/-- The start of the first execution. -/
def firstState : State where
  pc _ := 0
  place := update (fun _ => .dormant) 0 .running
  lock := none
  createMutex := none
  created := [0]
  co := update (fun _ => Join.initial) 0 ⟨.enabled, .running, 1, fun _ => .outside⟩

/-- The state that the example starts from. -/
theorem firstState_initial : Initial firstState where
  pc := rfl
  place := rfl
  lock := rfl
  createMutex := rfl
  created := rfl
  driver := rfl
  others u hu := by
    refine Or.inl ?_
    show update (fun _ => Join.initial) 0 _ u = _
    rw [Function.update_of_ne hu]

/-- No wrapper of `pthread_join` gets the lock in the step. -/
theorem joinsLast_of {call : Option Call} (hCall : program t (s.pc t) = call)
    (hNot : s.place t ≠ .enters ∨ ∀ u, call ≠ some (.join u)) : JoinsLast program s t := by
  intro hEnters u hJoin
  rcases hNot with hNot | hNot
  · exact absurd hEnters hNot
  · exact absurd (hCall.symm.trans hJoin) (hNot u)

/-- The same program, but the driver joins late: the thread has left its `pthread_exit` when the
wrapper of `pthread_join` gets the lock. The driver waits for the end of the thread then. -/
theorem interposed_progress_late : ∃ s : State, s.created = [1, 0] ∧ s.place 0 = .waitsEnd 1 ∧
    s.place 1 = .signalsEnd ∧ s.CanStep earlyJoin := by
  have h0 : Runs.ReachableUnder (system earlyJoin) (JoinsLast earlyJoin) firstState :=
    .init firstState_initial
  -- the driver creates the thread
  have h1 := h0.step (i := 0) (joinsLast_of rfl (.inl nofun)) (show next _ _ _ = some _ from rfl)
  have h2 := h1.step (i := 0) (joinsLast_of rfl (.inr nofun)) (show next _ _ _ = some _ from rfl)
  have h3 := h2.step (i := 0) (joinsLast_of rfl (.inl nofun)) (show next _ _ _ = some _ from rfl)
  have h4 := h3.step (i := 0) (joinsLast_of rfl (.inl nofun)) (show next _ _ _ = some _ from rfl)
  have h5 := h4.step (i := 1) (joinsLast_of rfl (.inl nofun)) (show next _ _ _ = some _ from rfl)
  have h6 := h5.step (i := 0) (joinsLast_of rfl (.inl nofun)) (show next _ _ _ = some _ from rfl)
  have h7 := h6.step (i := 0) (joinsLast_of rfl (.inl nofun)) (show next _ _ _ = some _ from rfl)
  have h8 := h7.step (i := 0) (joinsLast_of rfl (.inl nofun)) (show next _ _ _ = some _ from rfl)
  have h9 := h8.step (i := 0) (joinsLast_of rfl (.inl nofun)) (show next _ _ _ = some _ from rfl)
  have h10 := h9.step (i := 0) (joinsLast_of rfl (.inl nofun)) (show next _ _ _ = some _ from rfl)
  -- the thread calls `pthread_exit`
  have h11 := h10.step (i := 1) (joinsLast_of rfl (.inl nofun)) (show next _ _ _ = some _ from rfl)
  have h12 := h11.step (i := 1) (joinsLast_of rfl (.inl nofun)) (show next _ _ _ = some _ from rfl)
  have h13 := h12.step (i := 1) (joinsLast_of rfl (.inr nofun)) (show next _ _ _ = some _ from rfl)
  have h14 := h13.step (i := 1) (joinsLast_of rfl (.inl nofun)) (show next _ _ _ = some _ from rfl)
  -- the driver joins it
  have h15 := h14.step (i := 0) (joinsLast_of rfl (.inl nofun)) (show next _ _ _ = some _ from rfl)
  have h16 := h15.step (i := 0)
    (fun _ u hJoin => Or.inr (Or.inl (by rw [(earlyJoin_join hJoin).2.2]; rfl)))
    (show next _ _ _ = some _ from rfl)
  have h17 := h16.step (i := 0) (joinsLast_of rfl (.inl nofun)) (show next _ _ _ = some _ from rfl)
  have h18 := h17.step (i := 1) (joinsLast_of rfl (.inl nofun)) (show next _ _ _ = some _ from rfl)
  exact ⟨_, rfl, rfl, rfl, interposed_progress earlyJoin_acyclic earlyJoin_correct h18
    ⟨1, by decide, by decide⟩⟩

/-- The moves of the driver and of the thread up to the join. -/
def earlyJoinRun : List Nat := [0, 0, 0, 0, 1, 0, 0, 0, 0, 0, 1, 0, 0, 1, 0, 0]

/-- **The wrappers deadlock.** The program creates a thread and joins it; the driver
gets the interposition lock for `pthread_join` before the thread calls
`pthread_exit`, which needs the lock. -/
theorem interposed_stuck :
    Acyclic earlyJoin ∧ Correct earlyJoin ∧ ∃ s, Runs.Reachable (system earlyJoin) s ∧
      (∃ t, s.Unfinished t) ∧ ∀ t, next earlyJoin s t = none := by
  refine ⟨earlyJoin_acyclic, earlyJoin_correct, ?_⟩
  have hRun : ∃ s, earlyJoinRun.foldlM (next earlyJoin) firstState = some s ∧
      s.created = [1, 0] ∧ s.place 0 = .waitsEnd 1 ∧ s.place 1 = .enters ∧
      (∀ w, s.place (w + 2) = .dormant) ∧ s.lock = some 0 ∧
      (s.co 1).joiner 0 = .second false false ∧ (s.co 1).tokens = 0 :=
    ⟨_, rfl, rfl, rfl, rfl, fun _ => rfl, rfl, rfl, rfl⟩
  obtain ⟨s, hRun, hCreated, hDriver, hThread, hOthers, hLock, hJoiner, hTokens⟩ := hRun
  refine ⟨s, Runs.ReachableUnder.foldlM (fun _ _ _ h => h) (.init firstState_initial) _ hRun,
    ⟨0, by rw [hCreated]; simp, by rw [hDriver]; exact nofun⟩, ?_⟩
  rintro (_ | _ | w)
  · simp [next, hDriver, hJoiner, waitAction, Join.next, hTokens]
  · simp [next, hThread, hLock]
  · simp [next, hOthers]

end Concurrit.Model.Interpos
