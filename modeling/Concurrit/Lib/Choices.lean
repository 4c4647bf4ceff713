import Mathlib.Data.List.Basic

/-!
# Exploring a tree of choices by the record of the last course

A search runs a program from its beginning again and again. It knows nothing but what it has
written down of its last course: it goes back to the last choice there that is not exhausted,
and starts the next course with the choices before that one, and another one in its place.

* `Exploration.distinct` — no two courses make the same choices.
* `Exploration.reaches`  — all paths of the tree to an end are among them.
-/

namespace Choices

universe u v

variable {γ : Type u} {ν : Type v}

/-- A node is the list of the choices that lead to it. -/
structure Tree (ν : Type v) where
  offers : List ν → ν → Prop
  ends : List ν → Prop
  stops : ∀ {node x}, ends node → ¬ offers node x

def Tree.Path (T : Tree ν) (node : List ν) : Prop :=
  ∀ before x after, node = before ++ x :: after → T.offers before x

/-- What is written down of a choice: which one it is, and which have been tried in its place. -/
structure Record (γ : Type u) (ν : Type v) where
  choice : γ → ν
  tried : γ → ν → Prop
  exhausted : γ → Prop
  self : ∀ c, tried c (choice c)

variable {T : Tree ν} {R : Record γ ν} {start done before after : List γ} {a b c : γ} {x : ν}
  {node : List ν}

/-- The choices that are written down. -/
def Record.choices (R : Record γ ν) (done : List γ) : List ν := done.map R.choice

@[simp] theorem choices_append (xs ys : List γ) :
    R.choices (xs ++ ys) = R.choices xs ++ R.choices ys := List.map_append

@[simp] theorem choices_cons (c : γ) (xs : List γ) :
    R.choices (c :: xs) = R.choice c :: R.choices xs := rfl

@[simp] theorem length_choices (xs : List γ) : (R.choices xs).length = xs.length :=
  List.length_map ..

/-- What the course makes of its start: the choice at the end of it is replaced by another one,
or there is no other one. -/
inductive Turns (T : Tree ν) (R : Record γ ν) : List γ → List γ → Prop where
  | first {done : List γ} (hEnds : T.ends (R.choices done)) : Turns T R [] done
  | another {before after : List γ} {a b : γ} (hEnds : T.ends (R.choices (before ++ b :: after)))
      (hNew : ¬ R.tried a (R.choice b)) (hKeeps : ∀ x, R.tried a x → R.tried b x)
      (hOnly : ∀ x, T.offers (R.choices before) x → R.tried b x → R.tried a x ∨ x = R.choice b) :
      Turns T R (before ++ [a]) (before ++ b :: after)
  | none {before : List γ} {a : γ} (hAll : ∀ x, T.offers (R.choices before) x → R.tried a x) :
      Turns T R (before ++ [a]) before

/-- A course of the search. Beyond its start nothing else has been tried. -/
structure Course (T : Tree ν) (R : Record γ ν) (start done : List γ) : Prop where
  offered : ∀ before c after, done = before ++ c :: after → T.offers (R.choices before) (R.choice c)
  exhausted : ∀ before c after, done = before ++ c :: after → R.exhausted c →
    ∀ x, T.offers (R.choices before) x → R.tried c x
  fresh : ∀ before c after, done = before ++ c :: after → start.length ≤ before.length →
    ∀ x, T.offers (R.choices before) x → R.tried c x → x = R.choice c
  turns : Turns T R start done

/-- The courses of a search, until all choices of the last one are exhausted. -/
inductive Exploration (T : Tree ν) (R : Record γ ν) : List γ → List (List γ) → Prop where
  | last {start done : List γ} (hCourse : Course T R start done) (hNone : ∀ c ∈ done, R.exhausted c) :
      Exploration T R start [done]
  | more {start done before after : List γ} {c : γ} {courses : List (List γ)}
      (hCourse : Course T R start done) (hDone : done = before ++ c :: after)
      (hAfter : ∀ b ∈ after, R.exhausted b)
      (hRest : Exploration T R (before ++ [c]) courses) : Exploration T R start (done :: courses)

-- ---------------------------------------------------------------------------
-- What is still to come
-- ---------------------------------------------------------------------------

/-- The node comes at or after the start in the order of the search: it leaves it for a choice
that has not been tried, or is a node on the way. -/
inductive Later (R : Record γ ν) (start : List γ) (node : List ν) : Prop where
  | all (h : start = [])
  | within (before : List γ) (c : γ) (after : List γ) (hStart : start = before ++ c :: after)
      (hNode : node = R.choices before)
  | leaves (before : List γ) (c : γ) (after : List γ) (x : ν) (more : List ν)
      (hStart : start = before ++ c :: after) (hNode : node = R.choices before ++ x :: more)
      (hNew : ¬ R.tried c x)

/-- How two splits of one list lie to each other. -/
theorem split_cases {xs ys xs' ys' : List γ} {c c' : γ} (h : xs ++ c :: ys = xs' ++ c' :: ys') :
    (xs = xs' ∧ c = c' ∧ ys = ys') ∨ (∃ mid, xs' = xs ++ c :: mid) ∨ ∃ mid, xs = xs' ++ c' :: mid := by
  rcases List.append_eq_append_iff.mp h with ⟨mid, hLong, hRest⟩ | ⟨mid, hLong, hRest⟩
  · cases mid with
    | nil =>
      obtain ⟨rfl, rfl⟩ := List.cons.inj hRest
      exact .inl ⟨by simpa using hLong.symm, rfl, rfl⟩
    | cons d mid =>
      obtain ⟨rfl, -⟩ := List.cons.inj hRest
      exact .inr (.inl ⟨mid, hLong⟩)
  · cases mid with
    | nil =>
      obtain ⟨rfl, rfl⟩ := List.cons.inj hRest
      exact .inl ⟨by simpa using hLong, rfl, rfl⟩
    | cons d mid =>
      obtain ⟨rfl, -⟩ := List.cons.inj hRest
      exact .inr (.inr ⟨mid, hLong⟩)

/-- A node that leaves a course for another choice, or not beyond its start. -/
theorem choices_split {before after before' : List γ} {more more' : List ν} {x' : ν}
    (h : R.choices before ++ x :: more = R.choices before' ++ x' :: more')
    (hSame : before ++ c :: after = before' ++ b :: done) :
    (before = before' ∧ c = b ∧ x = x') ∨ (∃ mid, before' = before ++ c :: mid ∧ x = R.choice c) ∨
      ∃ mid, before = before' ++ b :: mid ∧ x' = R.choice b := by
  rcases split_cases hSame with ⟨rfl, rfl, -⟩ | ⟨mid, rfl⟩ | ⟨mid, rfl⟩
  · exact .inl ⟨rfl, rfl, (List.cons.inj (List.append_cancel_left h)).1⟩
  · rw [choices_append, List.append_assoc] at h
    exact .inr (.inl ⟨mid, rfl, (List.cons.inj (List.append_cancel_left h)).1⟩)
  · rw [choices_append, List.append_assoc] at h
    exact .inr (.inr ⟨mid, rfl, (List.cons.inj (List.append_cancel_left h)).1.symm⟩)

/-- Where a later node leaves the start, it does so for a choice that has not been tried. -/
theorem Later.untried {more : List ν} (h : Later R start (R.choices before ++ x :: more))
    (hStart : start = before ++ c :: after) (hOther : x = R.choice c → after = []) :
    ¬ R.tried c x := by
  cases h with
  | all hNil => simp [hStart] at hNil
  | within before' c' after' hStart' hNode =>
    rcases split_cases (hStart.symm.trans hStart') with ⟨rfl, -, -⟩ | ⟨mid, rfl⟩ | ⟨mid, rfl⟩
    · simp at hNode
    · rw [choices_append] at hNode
      have hx := (List.cons.inj (List.append_cancel_left hNode)).1
      have hAfter := hOther hx
      subst hAfter
      have hLen := congrArg List.length (hStart.symm.trans hStart')
      simp only [List.length_append, List.length_cons, List.length_nil] at hLen
      omega
    · have hLen := congrArg List.length hNode
      simp only [List.length_append, List.length_cons, length_choices] at hLen
      omega
  | leaves before' c' after' x' more' hStart' hNode hNew =>
    rcases choices_split hNode (hStart.symm.trans hStart') with
      ⟨rfl, rfl, rfl⟩ | ⟨mid, rfl, hx⟩ | ⟨mid, rfl, rfl⟩
    · exact hNew
    · have hAfter := hOther hx
      subst hAfter
      have hLen := congrArg List.length (hStart.symm.trans hStart')
      simp only [List.length_append, List.length_cons, List.length_nil] at hLen
      omega
    · exact absurd (R.self c') hNew

/-- What the course itself has chosen does not come later. -/
theorem not_later (c : γ) : ¬ Later R (before ++ [c]) (R.choices (before ++ c :: after)) := by
  intro h
  rw [choices_append, choices_cons] at h
  exact h.untried rfl (fun _ => rfl) (R.self c)

/-- A node on the way of a course, or one that leaves it later, comes after its start. -/
theorem Course.later_of_split (h : Course T R start done) {more : List ν}
    (hDone : done = before ++ c :: after) (hNode : node = R.choices before ++ more)
    (hMore : more = [] ∨ ∃ x rest, more = x :: rest ∧ ¬ R.tried c x) : Later R start node := by
  have hThere : ∀ (first : List γ) (c' : γ) (behind : List γ), start = first ++ c' :: behind →
      before = first → (∀ x, R.tried c' x → R.tried c x) → Later R start node := by
    rintro first c' behind hStart rfl hKeeps
    rcases hMore with rfl | ⟨x, rest, rfl, hNew⟩
    · exact .within before c' behind hStart (by simpa using hNode)
    · exact .leaves before c' behind x rest hStart hNode fun hTried => hNew (hKeeps x hTried)
  cases h.turns with
  | first _ => exact .all rfl
  | @another first behind a b _ hNew hKeeps _ =>
    rcases split_cases hDone with ⟨rfl, rfl, -⟩ | ⟨mid, rfl⟩ | ⟨mid, rfl⟩
    · exact hThere _ _ _ rfl rfl hKeeps
    · refine .leaves first a [] (R.choice b) (R.choices mid ++ more) rfl ?_ hNew
      rw [hNode, choices_append, List.append_assoc]
      rfl
    · exact hThere _ _ (mid ++ [a]) (by simp) rfl fun _ => id
  | @none first a _ =>
    exact hThere _ _ (after ++ [a]) (by simp [hDone]) rfl fun _ => id

theorem Course.later (h : Course T R start done) : Later R start (R.choices done) := by
  cases h.turns with
  | first _ => exact .all rfl
  | @another first behind a b _ hNew _ _ =>
    exact .leaves first a [] (R.choice b) (R.choices behind) rfl (choices_append ..) hNew
  | @none first a _ => exact .within _ a [] rfl rfl

/-- What comes after a choice of the course comes after its start. -/
theorem Course.later_trans (h : Course T R start done) (hDone : done = before ++ c :: after)
    (hLater : Later R (before ++ [c]) node) : Later R start node := by
  have hSplit : ∀ {first : List γ} {c' : γ} {behind : List γ}, before ++ [c] = first ++ c' :: behind →
      done = first ++ c' :: (behind ++ after) := by
    intro first c' behind hSame
    rw [hDone, ← List.singleton_append, ← List.append_assoc, hSame]
    simp
  cases hLater with
  | all hNil => simp at hNil
  | within first c' behind hStart hNode =>
    have hWhole : node = R.choices first ++ [] := by simpa using hNode
    exact h.later_of_split (hSplit hStart) hWhole (.inl rfl)
  | leaves first c' behind x more hStart hNode hNew =>
    exact h.later_of_split (hSplit hStart) hNode (.inr ⟨x, more, rfl, hNew⟩)

-- ---------------------------------------------------------------------------
-- Each end once
-- ---------------------------------------------------------------------------

/-- All courses of an exploration come at or after the one it starts with. -/
theorem Exploration.later {courses : List (List γ)} (h : Exploration T R start courses) :
    ∀ done ∈ courses, Later R start (R.choices done) := by
  induction h with
  | last hCourse _ =>
    intro done hMem
    obtain rfl := List.mem_singleton.mp hMem
    exact hCourse.later
  | more hCourse hDone _ _ ih =>
    intro done hMem
    rcases List.mem_cons.mp hMem with rfl | hMem
    · exact hCourse.later
    · exact hCourse.later_trans hDone (ih done hMem)

/-- **No two courses make the same choices.** -/
theorem Exploration.distinct {courses : List (List γ)} (h : Exploration T R start courses) :
    courses.Pairwise fun done done' => R.choices done ≠ R.choices done' := by
  induction h with
  | last _ _ => exact List.pairwise_singleton ..
  | more _ hDone _ hRest ih =>
    refine List.pairwise_cons.mpr ⟨fun done' hMem hSame => ?_, ih⟩
    have hLater := hRest.later done' hMem
    rw [← hSame, hDone] at hLater
    exact not_later _ hLater

/-- How a node lies to a course. -/
theorem node_cases (done : List γ) (node : List ν) :
    node = R.choices done ∨ (∃ before c after, done = before ++ c :: after ∧ node = R.choices before) ∨
    (∃ x more, node = R.choices done ++ x :: more) ∨
    ∃ before c after x more, done = before ++ c :: after ∧ node = R.choices before ++ x :: more ∧
      x ≠ R.choice c := by
  induction done generalizing node with
  | nil =>
    cases node with
    | nil => exact .inl rfl
    | cons x more => exact .inr (.inr (.inl ⟨x, more, rfl⟩))
  | cons c after ih =>
    cases node with
    | nil => exact .inr (.inl ⟨[], c, after, rfl, rfl⟩)
    | cons x more =>
      by_cases hSame : x = R.choice c
      case neg => exact .inr (.inr (.inr ⟨[], c, after, x, more, rfl, rfl, hSame⟩))
      subst hSame
      rcases ih more with rfl | ⟨before, d, behind, rfl, rfl⟩ | ⟨y, rest, rfl⟩ |
        ⟨before, d, behind, y, rest, rfl, rfl, hOther⟩
      · exact .inl rfl
      · exact .inr (.inl ⟨c :: before, d, behind, rfl, rfl⟩)
      · exact .inr (.inr (.inl ⟨y, rest, rfl⟩))
      · exact .inr (.inr (.inr ⟨c :: before, d, behind, y, rest, rfl, rfl, hOther⟩))

/-- A path to another end that comes later leaves the course where there is an untried choice. -/
theorem Course.leaves (h : Course T R start done) (hPath : T.Path node) (hEnds : T.ends node)
    (hLater : Later R start node) (hOther : node ≠ R.choices done) :
    ∃ before c after x more, done = before ++ c :: after ∧ node = R.choices before ++ x :: more ∧
      T.offers (R.choices before) x ∧ ¬ R.tried c x := by
  rcases node_cases (R := R) done node with hSame | ⟨before, c, after, hDone, rfl⟩ | ⟨x, more, rfl⟩ |
    ⟨before, c, after, x, more, hDone, rfl, hx⟩
  · exact absurd hSame hOther
  · exact absurd (h.offered before c after hDone) (T.stops hEnds)
  · -- the course has come to an end there, or everything has been tried
    have hOffers := hPath (R.choices done) x more rfl
    cases h.turns with
    | first hEnd => exact absurd hOffers (T.stops hEnd)
    | another hEnd _ _ _ => exact absurd hOffers (T.stops hEnd)
    | none hAll => exact absurd (hAll x hOffers) (hLater.untried rfl fun _ => rfl)
  · refine ⟨before, c, after, x, more, hDone, rfl, hPath _ x more rfl, fun hTried => ?_⟩
    have hOffers := hPath (R.choices before) x more rfl
    by_cases hLen : start.length ≤ before.length
    · exact hx (h.fresh before c after hDone hLen x hOffers hTried)
    cases h.turns with
    | first _ => exact hLen (Nat.zero_le _)
    | @another first behind a b _ _ _ hOnly =>
      rcases split_cases hDone with ⟨rfl, rfl, -⟩ | ⟨mid, rfl⟩ | ⟨mid, rfl⟩
      · have hNot := hLater.untried rfl fun _ => rfl
        exact hNot ((hOnly x hOffers hTried).resolve_right hx)
      · simp at hLen
      · exact hLater.untried (List.append_assoc ..) (fun hSame => absurd hSame hx) hTried
    | none _ =>
      exact hLater.untried (by rw [hDone, List.append_assoc]; rfl) (fun hSame => absurd hSame hx) hTried

/-- **All ends are reached** that come after the start. -/
theorem Exploration.reaches {courses : List (List γ)} (h : Exploration T R start courses)
    (hPath : T.Path node) (hEnds : T.ends node) (hLater : Later R start node) :
    ∃ done ∈ courses, R.choices done = node := by
  induction h with
  | @last start done hCourse hNone =>
    by_cases hSame : node = R.choices done
    · exact ⟨done, List.mem_singleton_self _, hSame.symm⟩
    obtain ⟨before, c, after, x, -, hDone, -, hOffers, hNew⟩ :=
      hCourse.leaves hPath hEnds hLater hSame
    have hMem : c ∈ done := by simp [hDone]
    exact absurd (hCourse.exhausted before c after hDone (hNone c hMem) x hOffers) hNew
  | @more start done before after c courses hCourse hDone hAfter _ ih =>
    by_cases hSame : node = R.choices done
    · exact ⟨done, List.mem_cons_self, hSame.symm⟩
    obtain ⟨first, d, behind, x, more, hSplit, hNode, hOffers, hNew⟩ :=
      hCourse.leaves hPath hEnds hLater hSame
    have hLast : ∃ rest, before ++ [c] = first ++ d :: rest := by
      rcases split_cases (hDone.symm.trans hSplit) with ⟨hFirst, hSame, -⟩ | ⟨mid, hFirst⟩ | ⟨mid, hFirst⟩
      · exact ⟨[], by rw [hFirst, hSame]⟩
      · have hMem : d ∈ after := by
          have hRest := hDone.symm.trans hSplit
          rw [hFirst, List.append_assoc] at hRest
          have hEq := (List.cons.inj (List.append_cancel_left hRest)).2
          simp [hEq]
        exact absurd (hCourse.exhausted first d behind hSplit (hAfter d hMem) x hOffers) hNew
      · exact ⟨mid ++ [c], by rw [hFirst, List.append_assoc]; rfl⟩
    obtain ⟨rest, hRest⟩ := hLast
    obtain ⟨done', hMem, hReached⟩ := ih (.leaves first d rest x more hRest hNode hNew)
    exact ⟨done', List.mem_cons_of_mem done hMem, hReached⟩

end Choices
