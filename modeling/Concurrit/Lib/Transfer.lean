import Mathlib.Data.List.Basic
import Concurrit.Lib.Runs

/-!
# Programs that read from a stream, and partial transfers

A `Reader` is a program whose only effect is to ask for a number of symbols and
to go on with what it gets. `Reader.run` is its meaning on a whole stream.

A `Link` is a reader at one end of a stream and a list of buffers to be written
at the other. The stream moves in pieces of any size: a transfer may take less
than what was asked for, and each end asks again for the rest. `outcome_const`
says that the cuts do not matter: the result of every run is `Reader.run` on the
concatenation of the buffers, and `progress` and `shrinks` that every run gets there.
-/

namespace Transfer

variable {α β γ : Type}

inductive Reader (β α : Type) where
  | ret (a : α)
  /-- a failed assertion -/
  | abort
  | read (n : Nat) (k : List β → Reader β α)

namespace Reader

def bind : Reader β α → (α → Reader β γ) → Reader β γ
  | ret a, f => f a
  | abort, _ => abort
  | read n k, f => read n fun bs => (k bs).bind f

instance : Monad (Reader β) where
  pure := ret
  bind := bind

def assert (p : Bool) : Reader β Unit := if p then ret () else abort

/-- The result of the program on a stream, with what it leaves of the stream. -/
def run : Reader β α → List β → Option (α × List β)
  | ret a, bs => some (a, bs)
  | abort, _ => none
  | read n k, bs => if n ≤ bs.length then (k (bs.take n)).run (bs.drop n) else none

/-- The reads the program asks for on a stream. -/
def calls : Reader β α → List β → Nat
  | ret _, _ => 0
  | abort, _ => 0
  | read n k, bs => (k (bs.take n)).calls (bs.drop n) + 1

/-- Running a reader and then another one is running the composed reader. -/
@[simp] theorem run_bind (r : Reader β α) (f : α → Reader β γ) (bs : List β) :
    (r >>= f).run bs = (r.run bs).bind fun p => (f p.1).run p.2 := by
  show (r.bind f).run bs = _
  induction r generalizing bs with
  | ret a => rfl
  | abort => rfl
  | read n k ih =>
    simp only [bind, run]
    split
    · exact ih _ _
    · rfl

/-- A read at the head of a stream that holds enough. -/
theorem run_read_append {n : Nat} {front : List β} (hLen : front.length = n)
    (k : List β → Reader β α) (rest : List β) :
    (read n k).run (front ++ rest) = (k front).run rest := by
  subst hLen
  simp [run]

end Reader

-- ---------------------------------------------------------------------------
-- The link
-- ---------------------------------------------------------------------------

/-- A writer and a reader on one stream. -/
structure Link (β α : Type) where
  /-- what is left of the buffer being written, and the buffers after it -/
  toWrite : List (List β)
  stream : List β
  /-- what the current read has got so far -/
  got : List β
  reader : Reader β α

inductive Label where
  | write (sz : Nat)
  | writeReturn
  | read (sz : Nat)
  | readReturn

/-- The step moves symbols or returns from a call. -/
def Label.productive : Label → Prop
  | .write sz => 0 < sz
  | .read sz => 0 < sz
  | _ => True

/-- One transfer, or the return of a call whose transfers are complete. -/
inductive Step : Link β α → Label → Link β α → Prop where
  | write {buff rest stream got r} (sz : Nat) (hMore : 0 < buff.length) (hSz : sz ≤ buff.length) :
      Step ⟨buff :: rest, stream, got, r⟩ (.write sz)
        ⟨buff.drop sz :: rest, stream ++ buff.take sz, got, r⟩
  | writeReturn {rest stream got r} :
      Step ⟨[] :: rest, stream, got, r⟩ .writeReturn ⟨rest, stream, got, r⟩
  | read {ws stream got n k} (sz : Nat) (hMore : got.length < n) (hSz : sz ≤ n - got.length)
      (hAvail : sz ≤ stream.length) :
      Step ⟨ws, stream, got, .read n k⟩ (.read sz)
        ⟨ws, stream.drop sz, got ++ stream.take sz, .read n k⟩
  | readReturn {ws stream got n k} (hAll : got.length = n) :
      Step ⟨ws, stream, got, .read n k⟩ .readReturn ⟨ws, stream, [], k got⟩

/-- The system that writes the buffers and runs the reader. -/
def link (buffers : List (List β)) (r : Reader β α) : Runs.System (Link β α) Label where
  init s := s = ⟨buffers, [], [], r⟩
  step := Step

namespace Link

/-- The symbols the reader has not used yet, wherever they are. -/
def ahead (s : Link β α) : List β := s.got ++ (s.stream ++ s.toWrite.flatten)

/-- The current read has no more than it asked for. -/
def Bounded (s : Link β α) : Prop :=
  match s.reader with
  | .read n _ => s.got.length ≤ n
  | _ => s.got = []

/-- The result the reader comes to. -/
def outcome (s : Link β α) : Option (α × List β) := s.reader.run s.ahead

/-- What is left to do. -/
def work (s : Link β α) : Nat :=
  2 * s.toWrite.flatten.length + s.toWrite.length + s.stream.length + s.reader.calls s.ahead

end Link

variable {s s' : Link β α} {l : Label}

/-- A step keeps the bound on the current read. -/
theorem Step.bounded (h : Step s l s') (hBound : s.Bounded) : s'.Bounded := by
  cases h with
  | write sz hMore hSz => exact hBound
  | writeReturn => exact hBound
  | read sz hMore hSz hAvail =>
    simp only [Link.Bounded, List.length_append, List.length_take] at hBound ⊢
    omega
  | readReturn hAll =>
    simp only [Link.Bounded]
    split <;> simp

/-- Moving symbols does not change what lies ahead of the reader. -/
theorem Step.ahead_of_move (h : Step s l s') (hMove : l ≠ .readReturn) :
    s'.ahead = s.ahead ∧ s'.reader = s.reader := by
  cases h with
  | write sz hMore hSz =>
    refine ⟨?_, rfl⟩
    simp only [Link.ahead, List.flatten_cons, List.append_assoc]
    rw [← List.append_assoc (List.take _ _), List.take_append_drop]
  | writeReturn => exact ⟨by simp [Link.ahead], rfl⟩
  | read sz hMore hSz hAvail =>
    refine ⟨?_, rfl⟩
    simp only [Link.ahead, List.append_assoc]
    rw [← List.append_assoc (List.take _ _), List.take_append_drop]
  | readReturn hAll => exact absurd rfl hMove

/-- One step of the link leaves the outcome as it is. -/
theorem Step.outcome (h : Step s l s') : s'.outcome = s.outcome := by
  by_cases hMove : l = .readReturn
  · subst hMove
    cases h with
    | readReturn hAll =>
      show Reader.run _ ([] ++ _) = Reader.run (.read _ _) _
      rw [List.nil_append]
      exact (Reader.run_read_append hAll _ _).symm
  · obtain ⟨hAhead, hReader⟩ := h.ahead_of_move hMove
    rw [Link.outcome, Link.outcome, hAhead, hReader]

/-- A productive step leaves less to do. -/
theorem Step.shrinks (h : Step s l s') (hProd : l.productive) : s'.work < s.work := by
  by_cases hMove : l = .readReturn
  · subst hMove
    cases h with
    | readReturn hAll =>
      subst hAll
      simp [Link.work, Link.ahead, Reader.calls]
  · obtain ⟨hAhead, hReader⟩ := h.ahead_of_move hMove
    rw [Link.work, Link.work, hAhead, hReader]
    cases h with
    | write sz hMore hSz =>
      simp only [Label.productive] at hProd
      simp only [List.flatten_cons, List.length_append, List.length_drop, List.length_take,
        List.length_cons]
      omega
    | writeReturn => simp
    | read sz hMore hSz hAvail =>
      simp only [Label.productive] at hProd
      simp only [List.length_drop]
      omega
    | readReturn hAll => exact absurd rfl hMove

/-- There is no infinite run of productive steps. -/
theorem productive_wellFounded :
    WellFounded fun s' s : Link β α => ∃ l : Label, l.productive ∧ Step s l s' :=
  Subrelation.wf (fun ⟨_, hProd, hStep⟩ => Step.shrinks hStep hProd)
    (InvImage.wf Link.work Nat.lt_wfRel.wf)

-- ---------------------------------------------------------------------------
-- Runs of the link
-- ---------------------------------------------------------------------------

variable {buffers : List (List β)} {r : Reader β α} {a : α} {rest : List β}

theorem bounded_reachable (h : Runs.Reachable (link buffers r) s) : s.Bounded := by
  refine h.invariant ?_ ?_
  · rintro s rfl
    simp only [Link.Bounded]
    split <;> simp
  · intro s l s' hBound _ hStep
    exact Step.bounded hStep hBound

/-- **The cuts do not matter**: in every state the outcome is the one of the reader on the
concatenation of the buffers. -/
theorem outcome_const (h : Runs.Reachable (link buffers r) s) :
    s.outcome = r.run buffers.flatten := by
  refine h.invariant (P := fun s => s.outcome = r.run buffers.flatten) ?_ ?_
  · rintro s rfl
    rfl
  · intro s l s' hOut _ hStep
    exact (Step.outcome hStep).trans hOut

/-- A reader that has finished has its result, and what it leaves is not yet read. -/
theorem result (h : Runs.Reachable (link buffers r) s) (hRet : s.reader = .ret a) :
    r.run buffers.flatten = some (a, s.stream ++ s.toWrite.flatten) := by
  rw [← outcome_const h]
  have hGot : s.got = [] := by simpa [Link.Bounded, hRet] using bounded_reachable h
  simp [Link.outcome, hRet, Reader.run, Link.ahead, hGot]

/-- While the buffers or the reads are not done, a productive step is enabled. -/
theorem progress (h : Runs.Reachable (link buffers r) s)
    (hRun : r.run buffers.flatten = some (a, rest)) :
    (s.toWrite = [] ∧ ∃ b, s.reader = .ret b) ∨ ∃ l s', Step s l s' ∧ l.productive := by
  have hBound := bounded_reachable h
  have hOut := (outcome_const h).trans hRun
  obtain ⟨ws, stream, got, rd⟩ := s
  cases ws with
  | cons buff ws =>
    refine .inr ?_
    by_cases hEmpty : buff = []
    · subst hEmpty
      exact ⟨_, _, .writeReturn, trivial⟩
    · have hPos : 0 < buff.length := List.length_pos_of_ne_nil hEmpty
      exact ⟨_, _, .write buff.length hPos (Nat.le_refl _), hPos⟩
  | nil =>
    cases rd with
    | ret b => exact .inl ⟨rfl, b, rfl⟩
    | abort => simp [Link.outcome, Reader.run] at hOut
    | read n k =>
      refine .inr ?_
      rcases Nat.eq_or_lt_of_le (show got.length ≤ n from hBound) with hAll | hMore
      · exact ⟨_, _, .readReturn hAll, trivial⟩
      · -- the reader is given enough, so the stream holds a symbol
        have hEnough : n ≤ (got ++ stream).length := by
          by_contra hLess
          simp only [Link.outcome, Reader.run, Link.ahead, List.flatten_nil, List.append_nil,
            if_neg hLess] at hOut
          cases hOut
        rw [List.length_append] at hEnough
        exact ⟨_, _, .read 1 hMore (by omega) (by omega), Nat.one_pos⟩

/-- Every state reached goes on to one in which everything is written and read. -/
theorem finishes (h : Runs.Reachable (link buffers r) s)
    (hRun : r.run buffers.flatten = some (a, rest)) :
    ∃ s', Runs.Reachable (link buffers r) s' ∧ s'.toWrite = [] ∧ ∃ b, s'.reader = .ret b := by
  induction hWork : s.work using Nat.strongRecOn generalizing s with
  | ind w ih =>
    rcases progress h hRun with hDone | ⟨l, s', hStep, hProd⟩
    · exact ⟨s, h, hDone⟩
    · exact ih s'.work (hWork ▸ hStep.shrinks hProd) (h.step trivial hStep) rfl

end Transfer
