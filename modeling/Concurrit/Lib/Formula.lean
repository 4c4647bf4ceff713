import Mathlib.Data.List.Basic

/-!
# Formulas whose evaluation has effects

A `Formula` is built from atoms with negation and with conjunctions and disjunctions
of any length. `Formula.eval` is its evaluation from left to right, which stops at the
first part that decides the result; an atom may change the state it is evaluated in.

An atom that has no effect when it is false can still leave one behind in a formula
that is false, when it is true and something after it is not. `visits` are the atoms that
an evaluation comes to, `eval_visited` finds the one that has left an effect. `Keeps` says
where such atoms may stand: `eval_keeps` is the rule that nothing is left behind then.
-/

namespace Formulas

inductive Op where
  | and
  | or
deriving DecidableEq, Repr

/-- The result when no part decides. -/
def Op.unit : Op → Bool
  | .and => true
  | .or => false

inductive Formula (L : Type) where
  | atom (l : L)
  | neg (p : Formula L)
  | nary (op : Op) (ps : List (Formula L))

namespace Formula

variable {L σ : Type}

mutual

/-- The value of a formula and the state afterwards. -/
def eval (ev : L → σ → Bool × σ) : Formula L → σ → Bool × σ
  | atom l, s => ev l s
  | neg p, s => (!(p.eval ev s).1, (p.eval ev s).2)
  | nary op ps, s => evalAll ev op ps s

/-- The parts in order, up to the first one that decides. -/
def evalAll (ev : L → σ → Bool × σ) (op : Op) : List (Formula L) → σ → Bool × σ
  | [], s => (op.unit, s)
  | p :: ps, s => if (p.eval ev s).1 = op.unit then evalAll ev op ps (p.eval ev s).2 else p.eval ev s

end

mutual

/-- The atoms that the evaluation comes to, each with the state it is evaluated in. -/
def visits (ev : L → σ → Bool × σ) : Formula L → σ → List (L × σ)
  | atom l, s => [(l, s)]
  | neg p, s => p.visits ev s
  | nary op ps, s => visitsAll ev op ps s

def visitsAll (ev : L → σ → Bool × σ) (op : Op) : List (Formula L) → σ → List (L × σ)
  | [], _ => []
  | p :: ps, s =>
    p.visits ev s ++ if (p.eval ev s).1 = op.unit then visitsAll ev op ps (p.eval ev s).2 else []

end

mutual

/-- With the value `b` the formula leaves no effect: an atom with effects is `quiet`, or
stands where its success does not lead to `b`. -/
def Keeps (quiet : L → Prop) : Bool → Formula L → Prop
  | b, atom l => b = false ∨ quiet l
  | b, neg p => Keeps quiet (!b) p
  | b, nary op ps => KeepsAll quiet op b ps

def KeepsAll (quiet : L → Prop) (op : Op) (b : Bool) : List (Formula L) → Prop
  | [] => True
  | p :: ps =>
    -- the value is that of `p` when `p` decides or is the last part
    (b ≠ op.unit ∨ ps = [] → Keeps quiet b p) ∧
      (ps ≠ [] → Keeps quiet op.unit p ∧ KeepsAll quiet op b ps)

end

section

variable {ev : L → σ → Bool × σ}

mutual

/-- **Relation rule**: what every atom does to the state, the formula does. -/
theorem eval_rel {R : σ → σ → Prop} (hRefl : ∀ s, R s s) (hTrans : ∀ a b c, R a b → R b c → R a c)
    (hAtom : ∀ l s, R s (ev l s).2) : ∀ (p : Formula L) (s : σ), R s (p.eval ev s).2
  | atom l, s => hAtom l s
  | neg p, s => eval_rel hRefl hTrans hAtom p s
  | nary op ps, s => evalAll_rel hRefl hTrans hAtom op ps s

/-- The same for a list of formulas: what every atom respects, evaluating the list respects.
-/
theorem evalAll_rel {R : σ → σ → Prop} (hRefl : ∀ s, R s s)
    (hTrans : ∀ a b c, R a b → R b c → R a c) (hAtom : ∀ l s, R s (ev l s).2) (op : Op) :
    ∀ (ps : List (Formula L)) (s : σ), R s (evalAll ev op ps s).2
  | [], s => hRefl s
  | p :: ps, s => by
    have hHead := eval_rel hRefl hTrans hAtom p s
    unfold evalAll
    split
    · exact hTrans _ _ _ hHead (evalAll_rel hRefl hTrans hAtom op ps _)
    · exact hHead

end

mutual

/-- **Relation rule for the visits**: what every atom does to the state has been done up to a
visit, and is done from there to the end. -/
theorem visits_rel {R : σ → σ → Prop} (hRefl : ∀ s, R s s)
    (hTrans : ∀ a b c, R a b → R b c → R a c) (hAtom : ∀ l s, R s (ev l s).2) :
    ∀ (p : Formula L) (s : σ), ∀ v ∈ p.visits ev s, R s v.2 ∧ R (ev v.1 v.2).2 (p.eval ev s).2
  | atom l, s, v, hv => by
    obtain rfl : v = (l, s) := List.mem_singleton.mp hv
    exact ⟨hRefl s, hRefl _⟩
  | neg p, s, v, hv => visits_rel hRefl hTrans hAtom p s v hv
  | nary op ps, s, v, hv => visitsAll_rel hRefl hTrans hAtom op ps s v hv

/-- The states that a list passes through are related to those before and after. -/
theorem visitsAll_rel {R : σ → σ → Prop} (hRefl : ∀ s, R s s)
    (hTrans : ∀ a b c, R a b → R b c → R a c) (hAtom : ∀ l s, R s (ev l s).2) (op : Op) :
    ∀ (ps : List (Formula L)) (s : σ), ∀ v ∈ visitsAll ev op ps s,
      R s v.2 ∧ R (ev v.1 v.2).2 (evalAll ev op ps s).2
  | [], s, v, hv => absurd hv List.not_mem_nil
  | p :: ps, s, v, hv => by
    have hRest := evalAll_rel hRefl hTrans hAtom op ps (p.eval ev s).2
    unfold visitsAll at hv
    unfold evalAll
    rcases List.mem_append.mp hv with hv | hv
    · obtain ⟨hBefore, hAfter⟩ := visits_rel hRefl hTrans hAtom p s v hv
      refine ⟨hBefore, ?_⟩
      split
      · exact hTrans _ _ _ hAfter hRest
      · exact hAfter
    · split at hv
      case isTrue hUnit =>
        obtain ⟨hBefore, hAfter⟩ := visitsAll_rel hRefl hTrans hAtom op ps _ v hv
        rw [if_pos hUnit]
        exact ⟨hTrans _ _ _ (eval_rel hRefl hTrans hAtom p s) hBefore, hAfter⟩
      case isFalse => cases hv

end

mutual

/-- **Rule for a change**: the last visit that has changed a part `f` of the state has left what
is there at the end. -/
theorem eval_visited {α : Type} (f : σ → α) : ∀ (p : Formula L) (s : σ),
    f (p.eval ev s).2 ≠ f s →
      ∃ v ∈ p.visits ev s, f v.2 ≠ f (p.eval ev s).2 ∧ f (ev v.1 v.2).2 = f (p.eval ev s).2
  | atom l, s, hChange => ⟨(l, s), List.mem_singleton_self _, Ne.symm hChange, rfl⟩
  | neg p, s, hChange => eval_visited f p s hChange
  | nary op ps, s, hChange => evalAll_visited f op ps s hChange

/-- If the list changes `f`, some visited atom changes it last. -/
theorem evalAll_visited {α : Type} (f : σ → α) (op : Op) : ∀ (ps : List (Formula L)) (s : σ),
    f (evalAll ev op ps s).2 ≠ f s →
      ∃ v ∈ visitsAll ev op ps s,
        f v.2 ≠ f (evalAll ev op ps s).2 ∧ f (ev v.1 v.2).2 = f (evalAll ev op ps s).2
  | [], s, hChange => absurd rfl hChange
  | p :: ps, s, hChange => by
    unfold evalAll at hChange ⊢
    unfold visitsAll
    by_cases hUnit : (p.eval ev s).1 = op.unit
    · rw [if_pos hUnit] at hChange
      rw [if_pos hUnit, if_pos hUnit]
      by_cases hLater : f (evalAll ev op ps (p.eval ev s).2).2 = f (p.eval ev s).2
      · rw [hLater] at hChange ⊢
        obtain ⟨v, hv, hLast⟩ := eval_visited f p s hChange
        exact ⟨v, List.mem_append_left _ hv, hLast⟩
      · obtain ⟨v, hv, hLast⟩ := evalAll_visited f op ps _ hLater
        exact ⟨v, List.mem_append_right _ hv, hLast⟩
    · rw [if_neg hUnit] at hChange
      rw [if_neg hUnit, if_neg hUnit]
      obtain ⟨v, hv, hLast⟩ := eval_visited f p s hChange
      exact ⟨v, List.mem_append_left _ hv, hLast⟩

end

mutual

/-- **Rule for the effects**: a formula that keeps the state with the value it has does
not change it. -/
theorem eval_keeps {quiet : L → Prop} (hFalse : ∀ l s, (ev l s).1 = false → (ev l s).2 = s)
    (hQuiet : ∀ l s, quiet l → (ev l s).2 = s) : ∀ (b : Bool) (p : Formula L) (s : σ),
    Keeps quiet b p → (p.eval ev s).1 = b → (p.eval ev s).2 = s
  | b, atom l, s, hKeeps, hValue => by
    rcases hKeeps with rfl | hl
    · exact hFalse l s hValue
    · exact hQuiet l s hl
  | b, neg p, s, hKeeps, hValue => by
    have hValue' : (p.eval ev s).1 = !b := by
      rw [← show (!(p.eval ev s).1) = b from hValue, Bool.not_not]
    exact eval_keeps hFalse hQuiet (!b) p s hKeeps hValue'
  | b, nary op ps, s, hKeeps, hValue => evalAll_keeps hFalse hQuiet op b ps s hKeeps hValue

/-- The same for a list: it keeps the state if its value forbids the change in each formula.
-/
theorem evalAll_keeps {quiet : L → Prop} (hFalse : ∀ l s, (ev l s).1 = false → (ev l s).2 = s)
    (hQuiet : ∀ l s, quiet l → (ev l s).2 = s) (op : Op) (b : Bool) :
    ∀ (ps : List (Formula L)) (s : σ), KeepsAll quiet op b ps → (evalAll ev op ps s).1 = b →
      (evalAll ev op ps s).2 = s
  | [], s, _, _ => rfl
  | p :: ps, s, hKeeps, hValue => by
    obtain ⟨hHead, hRest⟩ := hKeeps
    unfold evalAll at hValue ⊢
    by_cases hUnit : (p.eval ev s).1 = op.unit
    · rw [if_pos hUnit] at hValue ⊢
      cases ps with
      | nil =>
        have hb : op.unit = b := hValue
        exact eval_keeps hFalse hQuiet b p s (hHead (Or.inr rfl)) (hUnit.trans hb)
      | cons q qs =>
        obtain ⟨hKeepsUnit, hKeepsRest⟩ := hRest (List.cons_ne_nil q qs)
        have hSame := eval_keeps hFalse hQuiet op.unit p s hKeepsUnit hUnit
        rw [hSame] at hValue ⊢
        exact evalAll_keeps hFalse hQuiet op b (q :: qs) s hKeepsRest hValue
    · rw [if_neg hUnit] at hValue ⊢
      have hb : b ≠ op.unit := hValue ▸ hUnit
      exact eval_keeps hFalse hQuiet b p s (hHead (Or.inl hb)) hValue

end

end

end Formula

end Formulas
