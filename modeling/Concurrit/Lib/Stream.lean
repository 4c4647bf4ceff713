import Concurrit.Lib.Transfer

/-!
# Reading from a stream that ends

A `Reading` is a `Transfer.Reader` at the end of a finite stream. A call delivers some of
the symbols that are left, or fails; when none are left it delivers nothing and the
reader calls again. `halts_iff` is the termination rule: the reader halts on every delivery
exactly when the stream holds all it asks for (`Reader.Fits`).
-/

namespace Transfer

variable {α β γ : Type}

/-- The stream holds what the reader asks for. -/
def Reader.Fits : Reader β α → List β → Prop
  | .read n k, bs => n ≤ bs.length ∧ (k (bs.take n)).Fits (bs.drop n)
  | _, _ => True

@[simp] theorem Reader.fits_pure (a : α) (bs : List β) : (pure a : Reader β α).Fits bs := trivial

@[simp] theorem Reader.fits_assert (p : Bool) (bs : List β) : (Reader.assert p).Fits bs := by
  cases p <;> trivial

/-- **Sequence rule.** -/
theorem Reader.fits_bind (r : Reader β α) (f : α → Reader β γ) (bs : List β) :
    (r >>= f).Fits bs ↔
      r.Fits bs ∧ ∀ a rest, r.run bs = some (a, rest) → (f a).Fits rest := by
  show (r.bind f).Fits bs ↔ _
  induction r generalizing bs with
  | ret a =>
    constructor
    · intro h
      refine ⟨trivial, fun b rest hRun => ?_⟩
      obtain ⟨rfl, rfl⟩ := Prod.mk.inj (Option.some.inj hRun)
      exact h
    · exact fun h => h.2 a bs rfl
  | abort => exact iff_of_true trivial ⟨trivial, fun _ _ hRun => by cases hRun⟩
  | read n k ih =>
    simp only [bind, Fits, run, ih]
    by_cases hLen : n ≤ bs.length <;> simp [hLen]

/-- What one call to the system does. -/
inductive Delivery where
  | error
  /-- up to `n + 1` symbols, as many as there are -/
  | some (n : Nat)

structure Reading (β α : Type) where
  stream : List β
  /-- what the current read has got so far -/
  got : List β
  reader : Reader β α

namespace Reading

def halted (s : Reading β α) : Prop :=
  match s.reader with
  | .read _ _ => False
  | _ => True

/-- One call, or the return from a read that is complete. -/
def next (s : Reading β α) (d : Delivery) : Reading β α :=
  match s.reader with
  | .read n k =>
    if s.got.length < n then
      match d with
      | .error => { s with reader := .abort }
      | .some m =>
        let sz := min (m + 1) (min (n - s.got.length) s.stream.length)
        { s with stream := s.stream.drop sz, got := s.got ++ s.stream.take sz }
    else { s with got := [], reader := k s.got }
  | _ => s

/-- The stream holds what the reader still asks for. -/
def Fits (s : Reading β α) : Prop := s.reader.Fits (s.got ++ s.stream)

/-- The current read has no more than it asked for. -/
def Bounded (s : Reading β α) : Prop :=
  match s.reader with
  | .read n _ => s.got.length ≤ n
  | _ => True

/-- The symbols and the reads that are left. -/
def work (s : Reading β α) : Nat := s.stream.length + s.reader.calls (s.got ++ s.stream)

variable {s : Reading β α} {d : Delivery}

theorem fits_of_halted (h : s.halted) : s.Fits := by
  obtain ⟨stream, got, reader⟩ := s
  cases reader with
  | ret a => trivial
  | abort => trivial
  | read n k => exact h.elim

/-- A call moves symbols only; what lies ahead of the reader stays. -/
theorem next_some {n : Nat} {k : List β → Reader β α} (hReader : s.reader = .read n k)
    (hMore : s.got.length < n) (m : Nat) :
    (s.next (.some m)).reader = .read n k ∧
      (s.next (.some m)).got ++ (s.next (.some m)).stream = s.got ++ s.stream ∧
      (s.next (.some m)).got.length ≤ n ∧
      (s.stream ≠ [] → (s.next (.some m)).stream.length < s.stream.length) := by
  simp only [next, hReader, if_pos hMore]
  refine ⟨trivial, ?_, ?_, fun hNe => ?_⟩
  · rw [List.append_assoc, List.take_append_drop]
  · rw [List.length_append, List.length_take]
    omega
  · have hPos : 0 < s.stream.length := List.length_pos_of_ne_nil hNe
    rw [List.length_drop]
    omega

/-- A read that is complete returns. -/
theorem next_return {n : Nat} {k : List β → Reader β α} (hReader : s.reader = .read n k)
    (hAll : ¬ s.got.length < n) : s.next d = { s with got := [], reader := k s.got } := by
  simp only [next, hReader, if_neg hAll]

/-- A read that has no more than it asked for stays so. -/
theorem Bounded.next (h : s.Bounded) : (s.next d).Bounded := by
  cases hReader : s.reader with
  | ret a =>
    simp only [Reading.next, hReader]
    exact h
  | abort =>
    simp only [Reading.next, hReader]
    exact h
  | read n k =>
    by_cases hMore : s.got.length < n
    · cases d with
      | error =>
        simp only [Reading.next, hReader, if_pos hMore]
        trivial
      | some m =>
        obtain ⟨hSame, -, hLe, -⟩ := next_some hReader hMore m
        simp only [Bounded, hSame]
        exact hLe
    · rw [next_return hReader hMore]
      simp only [Bounded]
      split <;> simp

/-- **Calls that do not fail** neither help nor hurt. -/
theorem fits_next (h : s.Bounded) (hd : d ≠ .error) : (s.next d).Fits ↔ s.Fits := by
  cases hReader : s.reader with
  | ret a => simp only [Reading.next, hReader]
  | abort => simp only [Reading.next, hReader]
  | read n k =>
    by_cases hMore : s.got.length < n
    · cases d with
      | error => exact absurd rfl hd
      | some m =>
        obtain ⟨hSame, hAhead, -, -⟩ := next_some hReader hMore m
        rw [Fits, Fits, hSame, hAhead, hReader]
    · have hAll : s.got.length = n := by
        simp only [Bounded, hReader] at h
        omega
      rw [next_return hReader hMore]
      simp only [Fits, hReader, Reader.Fits, ← hAll]
      simp

/-- **A call makes progress** while the stream holds what is asked for. -/
theorem work_next (h : s.Bounded) (hFits : s.Fits) (hRuns : ¬ s.halted) :
    (s.next d).Fits ∧ ((s.next d).halted ∨ (s.next d).work < s.work) := by
  cases hReader : s.reader with
  | ret a => exact absurd (by simp [halted, hReader]) hRuns
  | abort => exact absurd (by simp [halted, hReader]) hRuns
  | read n k =>
    by_cases hMore : s.got.length < n
    · cases d with
      | error =>
        have hHalted : (s.next .error).halted := by simp [Reading.next, hReader, hMore, halted]
        exact ⟨fits_of_halted hHalted, Or.inl hHalted⟩
      | some m =>
        refine ⟨(fits_next h (by simp)).mpr hFits, Or.inr ?_⟩
        obtain ⟨hSame, hAhead, -, hShrinks⟩ := next_some hReader hMore m
        have hNe : s.stream ≠ [] := by
          intro hNil
          have hLen : n ≤ (s.got ++ s.stream).length := by
            have hFits := hFits
            simp only [Fits, hReader, Reader.Fits] at hFits
            exact hFits.1
          rw [hNil, List.append_nil] at hLen
          omega
        have hLt := hShrinks hNe
        rw [work, work, hSame, hAhead, hReader]
        omega
    · have hAll : s.got.length = n := by
        simp only [Bounded, hReader] at h
        omega
      have hFits' : (s.next d).Fits := by
        rw [next_return hReader hMore]
        simp only [Fits, hReader, Reader.Fits, ← hAll] at hFits ⊢
        simpa using hFits.2
      refine ⟨hFits', Or.inr ?_⟩
      rw [next_return hReader hMore]
      simp only [work, hReader, Reader.calls, ← hAll]
      simp

end Reading

/-- The reader comes to an end on the stream when the calls do what `ds` says. -/
def Halts (r : Reader β α) (stream : List β) (ds : Nat → Delivery) : Prop :=
  ∃ n, (Runs.trace ⟨stream, [], r⟩ Reading.next ds n).halted

variable {r : Reader β α} {stream : List β} {ds : Nat → Delivery}

theorem bounded_trace (n : Nat) : (Runs.trace ⟨stream, [], r⟩ Reading.next ds n).Bounded := by
  refine Runs.trace_invariant ?_ (fun k h => h.next) n
  simp only [Reading.Bounded]
  split <;> simp

/-- A reader whose stream is long enough comes to an end, whatever the calls do. -/
theorem halts_of_fits (hFits : r.Fits stream) : Halts r stream ds := by
  by_contra hNever
  have hRuns : ∀ n, ¬ (Runs.trace ⟨stream, [], r⟩ Reading.next ds n).halted :=
    fun n h => hNever ⟨n, h⟩
  -- the work goes down with every step, by induction on the steps
  have hWork : ∀ n, (Runs.trace ⟨stream, [], r⟩ Reading.next ds n).Fits ∧
      (Runs.trace ⟨stream, [], r⟩ Reading.next ds n).work + n ≤
        Reading.work ⟨stream, [], r⟩ := by
    intro n
    induction n with
    | zero => exact ⟨hFits, Nat.le_refl _⟩
    | succ n ih =>
      obtain ⟨hFits', hNext⟩ := Reading.work_next (bounded_trace n) ih.1 (hRuns n) (d := ds n)
      refine ⟨hFits', ?_⟩
      have hLess := hNext.resolve_left (hRuns (n + 1))
      have hBound := ih.2
      show (Reading.next _ (ds n)).work + (n + 1) ≤ _
      omega
  have hEnd := (hWork (Reading.work ⟨stream, [], r⟩ + 1)).2
  omega

/-- **At the end of the stream the reader calls forever.** -/
theorem not_halts (hFits : ¬ r.Fits stream) (hCalls : ∀ n, ds n ≠ .error) :
    ¬ Halts r stream ds := by
  have hNever : ∀ n, ¬ (Runs.trace ⟨stream, [], r⟩ Reading.next ds n).Fits := by
    intro n
    induction n with
    | zero => exact hFits
    | succ n ih =>
      rw [Runs.trace, Reading.fits_next (bounded_trace n) (hCalls n)]
      exact ih
  exact fun ⟨n, hHalted⟩ => hNever n (Reading.fits_of_halted hHalted)

/-- **Termination rule.** -/
theorem halts_iff : (∀ ds, Halts r stream ds) ↔ r.Fits stream := by
  constructor
  · intro hAll
    by_contra hFits
    exact not_halts hFits (fun _ => by simp) (hAll fun _ => .some 0)
  · exact fun hFits ds => halts_of_fits hFits

end Transfer
