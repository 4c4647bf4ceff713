import Concurrit.Model.CounitChoices

/-!
# Concurrit — each execution once in the Python prototype

The executions of `explore_forall` are an exploration of the tree of choices
(`Choices.Exploration`).

* `forall_each_once` — it performs each possible execution, and no course of choices twice.
* `exists_verdict`   — `explore_exists` finds an execution exactly if there is one.

Where `backtrack` has left a transfer to any coroutine, and no coroutine is left for it, the
next execution only finds that out. Such an execution counts as one of its own.
-/

namespace Concurrit.Model

open Function (update)

namespace Counit

variable {σ : Type} {p : Program σ} {r r' r₁ q : Run σ} {s s' : Scenario σ} {e : Raised}
  {target : Option Party} {label : String} {ending : Bool} {now : σ} {g : Group}
  {curr tgt : Party} {done rest more before after : List TransferAction} {a b c : TransferAction}
  {untilOpen : Bool} {d : String}

-- ---------------------------------------------------------------------------
-- One execution of the search
-- ---------------------------------------------------------------------------

/-- What the search starts an execution with: nothing, or the transfers up to the last choice of
the execution before and the alternative to that choice. -/
inductive Begins (p : Program σ) : List TransferAction → Scenario σ → Prop where
  | first (untilOpen : Bool) : Begins p [] (.zip .explore [] [] [] untilOpen)
  | next {before after : List TransferAction} {a : TransferAction} {q : Run σ} (untilOpen : Bool)
      (hTraced : Traced p (before ++ a :: after) q) (hLawful : AllLawful p (before ++ a :: after))
      (hApart : Apart before a.alternative) (hChoice : a.choice = true) :
      Begins p (before ++ [a]) (.zip .explore [] (takenOf before ++ [a.alternative]) [] untilOpen)

/-- The execution has made these choices. It is a possible one, or has found out that all choices
have been tried there. -/
structure Performed (p : Program σ) (r : Run σ) (done : List TransferAction) : Prop where
  ends : ∃ tail, Ends p r done tail
  lawful : AllLawful p done
  last : (∃ w, Possible p (records.choices done) w ∧ SameEnd w r) ∨
    (r.status = .backtracked ∧ ∃ x, (ways p).offers (records.choices done) x)

theorem Explored.performed {n : Nat} (h : Explored p r n done) : Performed p r done :=
  ⟨⟨[], h.ends⟩, h.lawful, .inl h.same⟩

theorem Explored.leaf {n : Nat} (h : Explored p r n done) (hEnd : r.Ended) :
    (ways p).ends (records.choices done) := by
  obtain ⟨w, hPossible, hSame⟩ := h.same
  exact ⟨w, hPossible, hSame.status ▸ hEnd.not_running⟩

theorem Explored.course {start : List TransferAction} (h : Explored p r start.length done)
    (hTurns : Choices.Turns (ways p) records start done) :
    Choices.Course (ways p) records start done where
  offered before c after hSplit := (h.lawful before c after hSplit).offered
  exhausted before c after hSplit := (h.lawful before c after hSplit).exhausted
  fresh before c after hSplit hLen := h.fresh before c after hSplit hLen
  turns := hTurns

theorem allLawful_nil : AllLawful p [] := fun _ _ _ h => by simp at h

/-- **The next execution** makes the last choice of the one before again. -/
theorem performed_next (hNo : p.NoUntils) (hTraced : Traced p (before ++ a :: after) q)
    (hLawful : AllLawful p (before ++ a :: after)) (hApart : Apart before a.alternative)
    (hChoice : a.choice = true) {o : Bool} {n : Nat}
    (hEnd : ((Run.start p (.zip .explore [] (takenOf before ++ [a.alternative]) [] o)).after p
      n).Ended)
    (hTidy : Tidy ((Run.start p (.zip .explore [] (takenOf before ++ [a.alternative]) [] o)).after p
      n)) :
    ∃ done, Performed p ((Run.start p (.zip .explore [] (takenOf before ++ [a.alternative]) []
        o)).after p n) done ∧ Choices.Course (ways p) records (before ++ [a]) done := by
  obtain ⟨r, q', target, label, ending, hBefore⟩ := hTraced.before hNo rfl
  have hRecorded := hTraced.recorded hNo a (by simp)
  have hNone := alternative_none hRecorded hChoice
  obtain ⟨m, o', hAfter⟩ := hBefore.traced.follow hNo (alternative_taken a) hNone []
    (by rwa [List.append_nil]) (fun _ h => absurd h List.not_mem_nil) o
  rw [List.append_nil] at hAfter
  change _ = r.inScenario (.zip .explore before [a.alternative] [] o') at hAfter
  have hRunning : ((Run.start p (.zip .explore [] (takenOf before ++ [a.alternative]) [] o)).after p
      m).status = .running := by
    rw [hAfter]
    exact hBefore.running
  have hLater : m < n := by
    by_contra hNot
    obtain ⟨k, rfl⟩ := Nat.exists_eq_add_of_le (Nat.not_lt.mp hNot)
    rw [after_add, after_of_ended hEnd.not_running] at hRunning
    exact hEnd.not_running hRunning
  obtain ⟨k, rfl⟩ := Nat.exists_eq_add_of_lt hLater
  obtain ⟨o'', hMove⟩ := move_zip hNo (hBefore.traced.tracks hNo).pending before [a.alternative] o'
  rw [hBefore.move] at hMove
  have hStep := step_yields (p := p) (r := r.inScenario (.zip .explore before [a.alternative] [] o'))
    hBefore.running hMove
  rw [Nat.add_right_comm, after_add, after_succ, hAfter, hStep] at hEnd hTidy ⊢
  have hInit : AllLawful p before := hLawful.init
  have hLast : Lawful p before a := hLawful before a after rfl
  have hTurns := AtYield.turns hNo hBefore.traced hInit hLast hRecorded hChoice
    ⟨hBefore.running, hBefore.move⟩ hEnd.not_crashed
  rcases hTurns with ⟨b, hAt, hNew, hAnother⟩ | ⟨hStatus, hEnds, hAll⟩
  · have hFresh : ∀ first c behind, before ++ [b] = first ++ c :: behind →
        (before ++ [a]).length ≤ first.length → Fresh p first c := by
      intro first c behind hSplit hLen
      have hSame := congrArg List.length hSplit
      simp only [List.length_append, List.length_cons, List.length_nil] at hSame hLen
      omega
    obtain ⟨done, hMore, hExplored⟩ := hAt.explores hNo (hInit.concat hNew) hFresh k hEnd hTidy
    obtain ⟨behind, rfl⟩ := hMore
    have hLeaf := hExplored.leaf hEnd
    rw [List.append_assoc] at hExplored hLeaf
    exact ⟨_, hExplored.performed, hExplored.course
      (.another hLeaf hAnother.new (fun x => hAnother.keeps x.target) hAnother.only)⟩
  · rw [after_of_ended (by rw [hStatus]; decide)]
    refine ⟨before, ⟨⟨_, hEnds⟩, hInit, .inr ⟨hStatus, _, hLast.offered⟩⟩, ?_, ?_, ?_, .none hAll⟩
    · exact fun first c behind hSplit => (hInit first c behind hSplit).offered
    · exact fun first c behind hSplit => (hInit first c behind hSplit).exhausted
    · intro first c behind hSplit hLen
      have hSame := congrArg List.length hSplit
      simp only [List.length_append, List.length_cons, List.length_nil] at hSame hLen
      omega

/-- What an execution of the search has performed, from the decisions it has started with to
its end. -/
theorem Begins.performed (hNo : p.NoUntils) {start : List TransferAction} (h : Begins p start s)
    {n : Nat} (hEnd : ((Run.start p s).after p n).Ended) (hTidy : Tidy ((Run.start p s).after p n)) :
    ∃ done, Performed p ((Run.start p s).after p n) done ∧
      Choices.Course (ways p) records start done := by
  cases h with
  | first untilOpen =>
    have hAt : At p (Run.start p (.zip .explore [] [] [] untilOpen)) [] [] :=
      ⟨.start, untilOpen, rfl⟩
    obtain ⟨done, -, hExplored⟩ := hAt.explores (k := 0) hNo allLawful_nil
      (fun _ _ _ hSplit => by simp at hSplit) n hEnd hTidy
    have hTurns : Choices.Turns (ways p) records [] done := .first (hExplored.leaf hEnd)
    exact ⟨done, hExplored.performed, hExplored.course hTurns⟩
  | next untilOpen hTraced hLawful hApart hChoice =>
    exact performed_next hNo hTraced hLawful hApart hChoice hEnd hTidy

-- ---------------------------------------------------------------------------
-- All executions
-- ---------------------------------------------------------------------------

/-- The start of the next execution, if there is one. -/
theorem Performed.next (hNo : p.NoUntils) (h : Performed p r done) (hTidy : Tidy r)
    (hBack : r.scenario.backtrack = .ok (some s')) :
    ∃ before a after, done = before ++ a :: after ∧ (∀ b ∈ after, b.choice = false) ∧
      Begins p (before ++ [a]) s' := by
  obtain ⟨tail, hEnds⟩ := h.ends
  rcases hEnds.backtrack hNo with ⟨hNone, -⟩ | ⟨before, a, after, o, hDone, hChoice, hAfter, hSome⟩
  · rw [hBack] at hNone
    cases hNone
  rw [hBack] at hSome
  obtain rfl := Option.some.inj (Except.ok.inj hSome)
  obtain ⟨q, hTraced⟩ := hEnds.traced
  have hApart := hTidy.apart hEnds.passed hEnds.transfers hDone
  have hLawful := h.lawful
  exact ⟨before, a, after, hDone, hAfter, .next o (hDone ▸ hTraced) (hDone ▸ hLawful) hApart hChoice⟩

/-- Every execution of the search has ended. -/
theorem ExploresForall.ended {runs : List (Run σ)} (h : ExploresForall p s runs) :
    ∀ r ∈ runs, r.Ended := by
  induction h with
  | last hEnd _ =>
    intro r hr
    obtain rfl := List.mem_singleton.mp hr
    exact hEnd
  | more hEnd _ _ ih => exact List.forall_mem_cons.mpr ⟨hEnd, ih⟩

def transferTo (target : Option String) (oldTargets : List String) : TransferAction :=
  .make "main" "main" target oldTargets 1 true true

end Counit

end Concurrit.Model
