import Concurrit.Model.Current

/-!
# Concurrit — mutual exclusion on the reference

`EndWithSuccess` takes the reference by force when it is told that all threads have
ended. Where a thread has the reference at that moment, or the end node is in it, the
lock does not exclude; everywhere else it does, and the end node stays.
-/

namespace Concurrit.Model

open Function (update)

namespace Protocol

variable {P Trans : Type} {s s' : State P Trans} {sh sh' : Shared P Trans} {pc pc' : Pc P Trans}
  {t u n m : Nat} {l : Label}

/-- At most one thread has the reference, and `ReleaseRef` finds the lock node in it, with its
caller as the owner. -/
structure Exclusive (s : State P Trans) : Prop where
  one     : ∀ t u, (s.pc t).holds = true → (s.pc u).holds = true → t = u
  release : ∀ t v k, s.pc t = .unlock v k → s.shared.ref = .lock ∧ s.shared.owner = some t

/-- The end node is in the reference or on its way there, and no thread acquires anything else. -/
structure EndObserved (s : State P Trans) : Prop where
  ended    : Ended s
  acquired : ∀ t c r, s.pc t = .acquired c r → r = .endNode

/-- The lock is forced only where it is free and the execution has not ended. -/
def forcesFree (s : State P Trans) (i : Nat × Label) : Prop :=
  i.2 = .force → s.shared.ref ≠ .lock ∧ s.shared.ref ≠ .endNode

theorem Locked.exclusive (hL : Locked s) : Exclusive s where
  one := hL.one
  release t v k hPc := ⟨hL.ref t (by rw [hPc]; rfl), (hL.owner t).mpr (by rw [hPc]; rfl)⟩

theorem Locked.endObserved (hL : Locked s) (hEnded : Ended s) : EndObserved s where
  ended := hEnded
  acquired t c r hPc := by
    by_contra hEnd
    have hCarries := hL.carriesEnd_of_ended hEnded (t := t) (by rw [hPc]; simpa [Pc.holds] using hEnd)
    rw [hPc] at hCarries
    cases hCarries

/-- Where the execution has ended, the lock is not free to be forced. -/
theorem Locked.not_force (hL : Locked s) (hEnded : Ended s) (hOk : forcesFree s (t, l)) :
    l ≠ .force := by
  intro hForce
  obtain ⟨hLock, hEnd⟩ := hOk hForce
  rcases hEnded with hRef | ⟨u, hCarries⟩
  · exact hEnd hRef
  · exact hLock (hL.ref u (Pc.holds_of_carriesEnd hCarries))

theorem locked (h : Runs.ReachableUnder (system P Trans) forcesFree s) : Locked s := by
  refine h.invariant (fun _ hInit => hInit ▸ locked_start) ?_
  rintro s ⟨t, l⟩ s' hL hOk hStep
  exact hL.step hStep fun hForce => (hOk hForce).1

/-- Once the end node is in the reference it stays there, in every run that forces no lock.
-/
theorem Ended.run (hL : Locked s) (hEnded : Ended s)
    (h : Runs.ReachableUnder ((system P Trans).startingAt s) forcesFree s') :
    Locked s' ∧ Ended s' := by
  refine h.invariant (P := fun s' => Locked s' ∧ Ended s') ?_ ?_
  · rintro _ rfl
    exact ⟨hL, hEnded⟩
  · rintro s ⟨t, l⟩ s' ⟨hL, hEnded⟩ hOk hStep
    exact ⟨hL.step hStep fun hForce => (hOk hForce).1,
      hEnded.step hL hStep (hL.not_force hEnded hOk)⟩

/-- **Main result.** While no lock is forced from a thread or from the end node, the
reference is exclusive, and once the end node is in it every thread finds it there. The
second part is about all runs that begin in such a state. -/
theorem reference_exclusive (h : Runs.ReachableUnder (system P Trans) forcesFree s) :
    Exclusive s ∧ (s.shared.ref = .endNode →
      ∀ s', Runs.ReachableUnder ((system P Trans).startingAt s) forcesFree s' → EndObserved s') := by
  have hL := locked h
  refine ⟨hL.exclusive, fun hRef s' h' => ?_⟩
  obtain ⟨hL', hEnded⟩ := Ended.run hL (Or.inl hRef) h'
  exact hL'.endObserved hEnded

/-- A test thread has called `concurritEndTest`. -/
def endedTest : Shared Unit Unit where
  ref := .endNode
  owner := none
  sem := 1
  constraints := []
  nodes := []
  mutex := none
  casts := 1
  live := [1]
  reasons := [.threadsAllEnded]
  offers _ := 0
  consumed := []
  herald := none
  log := []

/-- The run behind the examples: a test thread has called `concurritEndTest`. -/
theorem reach_endedTest (ok : State Unit Unit → Nat × Label → Prop) (hOk : ∀ s t, ok s (t, .step)) :
    ∃ pc, Runs.ReachableUnder (system Unit Unit) ok ⟨endedTest, pc⟩ ∧
      pc main = .running ∧ pc 1 = .running := by
  have h0 : Runs.ReachableUnder (system Unit Unit) ok .start := .init rfl
  have h1 := h0.step (hOk _ 1) (.mk (.create (by decide)))
  have h2 := h1.step (hOk _ 1) (.mk (.endExecution (by decide) .threadsAllEnded))
  have h3 := h2.step (hOk _ 1) (.mk .exchange)
  have h4 := h3.step (hOk _ 1) (.mk (.onLock rfl rfl))
  have h5 := h4.step (hOk _ 1) (.mk (.addException nofun))
  have h6 := h5.step (hOk _ 1) (.mk (.unlock rfl rfl))
  have h7 := h6.step (hOk _ 1) (.mk .store)
  have h8 := h7.step (hOk _ 1) (.mk .signal)
  have h9 := h8.step (hOk _ 1) (.mk .broadcast)
  exact ⟨_, h9, rfl, rfl⟩

/-- The test has been ended by a test thread: the end node is in the reference, and nobody
has it. -/
theorem reference_exclusive_ended : ∃ s : State Unit Unit, s.shared.ref = .endNode ∧ Exclusive s ∧
    EndObserved s := by
  obtain ⟨pc, h, _, _⟩ := reach_endedTest forcesFree fun _ _ hLabel => nomatch hLabel
  have hMain := reference_exclusive h
  exact ⟨_, rfl, hMain.1, hMain.2 rfl _ (.init rfl)⟩

/-- The main thread forces the lock after `concurritEndTest`, while the test thread is about
to put the end node back: two threads have the reference then. -/
theorem reference_not_exclusive : ¬ ∀ s : State Unit Unit, Runs.Reachable (system Unit Unit) s →
    Exclusive s ∧ (s.shared.ref = .endNode →
      ∀ s', Runs.Reachable ((system Unit Unit).startingAt s) s' → EndObserved s') := by
  intro hAll
  obtain ⟨pc, h, hMain, hOne⟩ := reach_endedTest (fun _ _ => True) fun _ _ => trivial
  have h1 := reach_put (t := main) h hMain (.choose rfl) trivial
  have h2 := reach_put (t := main) h1 rfl .exchange trivial
  have h3 := reach_put (t := main) h2 rfl .seeEnd trivial
  have h4 := reach_put (t := main) h3 rfl
    (.scriptEnded rfl rfl .threadsAllEnded (Or.inr (List.mem_singleton_self _))) trivial
  have h5 := reach_put (t := main) h4 rfl (.caught rfl rfl) trivial
  have h6 := reach_put (t := 1) h5 hOne (.offer (by decide) ()) trivial
  have h7 := reach_put (t := 1) h6 rfl .exchange trivial
  have h8 := reach_put (t := main) h7 rfl (.force rfl) trivial
  cases (hAll _ h8).1.one main 1 rfl rfl

end Protocol

end Concurrit.Model
