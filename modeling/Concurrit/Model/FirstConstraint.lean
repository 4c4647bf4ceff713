import Concurrit.Model.Protocol

/-!
# Concurrit — the constraint on the first transition

`CONSTRAIN_FST(p)` installs a constraint that is `p` until it has been true once, and
true from then on. `EvalTransition` evaluates the installed constraints in order and
stops at the first one that is false. The constraint is spent when `p` is true in an
evaluation, before it is known whether the transition is let through.

`first_constrained` is the law of the constraint in every run in which an offer that
would spend one is let through.
-/

namespace Concurrit.Model

namespace First

open Protocol (evalNode)

variable {P : Type}

-- ---------------------------------------------------------------------------
-- Constraints
-- ---------------------------------------------------------------------------

inductive Constraint (P : Type) where
  /-- `TransitionConstraintAll` -/
  | all (pred : P)
  /-- `TransitionConstraintFirst`, with no predicate when it is `True()` -/
  | first (pred : Option P)
deriving DecidableEq, Repr

/-- `EvalState` of a constraint, with the constraint afterwards. -/
def Constraint.EvalState (holds : P → Bool) : Constraint P → Bool × Constraint P
  | all p => (holds p, all p)
  | first none => (true, first none)
  | first (some p) => if holds p then (true, first none) else (false, first (some p))

/-- A constraint on `trans_constraints_`. -/
structure Installed (P : Type) where
  constraint : Constraint P
  /-- the predicate it was installed with -/
  pred : P
  /-- a transition has been let through since; not known to the code -/
  taken : Bool
deriving DecidableEq, Repr

/-- `EvalState` of the conjunction of the constraints. -/
def evalConstraints (holds : P → Bool) : List (Installed P) → Bool × List (Installed P)
  | [] => (true, [])
  | c :: cs =>
    let r := c.constraint.EvalState holds
    if r.1 then ((evalConstraints holds cs).1, { c with constraint := r.2 } :: (evalConstraints holds cs).2)
    else (false, { c with constraint := r.2 } :: cs)

/-- A transition a thread offers to the current node, with the truth of the predicates. -/
structure Offer (P : Type) where
  holds : P → Bool
  /-- the installed assertions hold -/
  assertions : Bool
  /-- the node is a `RunThroughNode`, or a `RunUntilNode` -/
  runThrough : Bool
  /-- the predicate of the node -/
  pred : P

def Offer.kind (o : Offer P) : Protocol.NodeKind := if o.runThrough then .runThrough else .runUntil

/-- `EvalTransition`: whether the node is consumed and whether the transition is taken,
and the constraints afterwards. -/
def EvalTransition (o : Offer P) (cs : List (Installed P)) : (Bool × Bool) × List (Installed P) :=
  -- a violated assertion throws
  if o.assertions = false then ((false, false), cs)
  else
    let r := evalConstraints o.holds cs
    if r.1 then (evalNode o.holds [] false o.kind o.pred, r.2) else ((false, false), r.2)

-- ---------------------------------------------------------------------------
-- The system
-- ---------------------------------------------------------------------------

inductive Action (P : Type) where
  /-- `CONSTRAIN_ALL` -/
  | constrainAll (pred : P)
  /-- `CONSTRAIN_FST` -/
  | constrainFirst (pred : P)
  /-- the end of the block, the destructor of the `ConstraintInstaller` -/
  | uninstall
  | offer (o : Offer P)

/-- The installed constraints, the oldest first. -/
abbrev State (P : Type) := List (Installed P)

def next (s : State P) : Action P → Option (State P)
  | .constrainAll p => some (s ++ [⟨.all p, p, false⟩])
  | .constrainFirst p => some (s ++ [⟨.first (some p), p, false⟩])
  | .uninstall => if s = [] then none else some s.dropLast
  | .offer o =>
    let r := EvalTransition o s
    some (if r.1.2 then r.2.map fun c => { c with taken := true } else r.2)

/-- Any number of nested blocks with constraints, and any offers. -/
def system (P : Type) : Runs.System (State P) (Action P) :=
  Runs.partialMachine [] next

-- ---------------------------------------------------------------------------
-- The law
-- ---------------------------------------------------------------------------

/-- What a constraint should demand of the next transition. -/
def Installed.demands (c : Installed P) : List P :=
  match c.constraint with
  | .all p => [p]
  | .first _ => if c.taken then [] else [c.pred]

/-- The law of the constraints on the first transition. -/
structure FirstLaw (s : State P) : Prop where
  /-- the constraint is in force until a transition has been let through -/
  inForce : ∀ c ∈ s, ∀ q, c.constraint = .first q → q = if c.taken then none else some c.pred
  /-- an offer is let through when it satisfies all that is demanded, and only then -/
  result : ∀ o, (EvalTransition o s).1 =
    if o.assertions then evalNode o.holds (s.flatMap Installed.demands) false o.kind o.pred
    else (false, false)

/-- The constraint is true of the transition. -/
def Installed.admits (c : Installed P) (holds : P → Bool) : Bool := (c.constraint.EvalState holds).1

/-- The condition on the steps: an offer that makes the predicate of a first constraint
in force true, with the constraints before it true, is let through: so are those after
it, and the predicate of a `RUN_UNTIL` is not. -/
def Decisive (s : State P) : Action P → Prop
  | .offer o =>
    o.assertions = true → ∀ pre c post p, s = pre ++ c :: post → c.constraint = .first (some p) →
      (∀ d ∈ pre, d.admits o.holds = true) → o.holds p = true →
        (∀ d ∈ post, d.admits o.holds = true) ∧ (o.runThrough = true ∨ o.holds o.pred = false)
  | _ => True

-- ---------------------------------------------------------------------------
-- Evaluations
-- ---------------------------------------------------------------------------

variable {s s' : State P} {o : Offer P} {holds : P → Bool}

/-- The constraints hold together when each one does. -/
theorem evalConstraints_value (holds : P → Bool) (s : State P) :
    (evalConstraints holds s).1 = s.all (·.admits holds) := by
  induction s with
  | nil => rfl
  | cons c cs ih =>
    simp only [evalConstraints, List.all_cons, Installed.admits]
    split
    · rename_i hTrue
      rw [hTrue, Bool.true_and]
      exact ih
    · rename_i hFalse
      rw [Bool.not_eq_true] at hFalse
      rw [hFalse, Bool.false_and]

/-- When all of them hold, all of them have been evaluated. -/
theorem evalConstraints_of_all (h : s.all (·.admits holds) = true) :
    (evalConstraints holds s).2 = s.map fun c => { c with constraint := (c.constraint.EvalState holds).2 } := by
  induction s with
  | nil => rfl
  | cons c cs ih =>
    rw [List.all_cons, Bool.and_eq_true] at h
    have hTrue : (c.constraint.EvalState holds).1 = true := h.1
    simp only [evalConstraints, hTrue, if_true, List.map_cons]
    rw [ih h.2]

/-- A constraint is changed only when it is a first constraint in force whose predicate
is true. -/
theorem evalState_same {c : Constraint P} (h : ∀ p, c = .first (some p) → holds p = false) :
    (c.EvalState holds).2 = c := by
  cases c with
  | all p => rfl
  | first q =>
    cases q with
    | none => rfl
    | some p =>
      have hFalse := h p rfl
      simp [Constraint.EvalState, hFalse]

/-- An evaluation that reaches no such constraint changes nothing. -/
theorem evalConstraints_same
    (h : ∀ pre c post p, s = pre ++ c :: post → c.constraint = .first (some p) →
      (∀ d ∈ pre, d.admits holds = true) → holds p = false) : (evalConstraints holds s).2 = s := by
  induction s with
  | nil => rfl
  | cons c cs ih =>
    have hHead : (c.constraint.EvalState holds).2 = c.constraint :=
      evalState_same fun p hp => h [] c cs p rfl hp (by simp)
    simp only [evalConstraints]
    split
    · rename_i hTrue
      rw [hHead, ih]
      intro pre d post p hEq hd hPre
      refine h (c :: pre) d post p (by rw [hEq]; rfl) hd fun e he => ?_
      rcases List.mem_cons.mp he with rfl | he
      · exact hTrue
      · exact hPre e he
    · rw [hHead]

/-- What a constraint in order demands is what it evaluates. -/
theorem admits_iff_demands {c : Installed P}
    (h : ∀ q, c.constraint = .first q → q = if c.taken then none else some c.pred) :
    c.admits holds = c.demands.all holds := by
  unfold Installed.admits Installed.demands
  cases hc : c.constraint with
  | all p => simp [Constraint.EvalState]
  | first q =>
    obtain rfl := h q hc
    cases c.taken with
    | true => rfl
    | false =>
      simp only [Bool.false_eq_true, if_false, Constraint.EvalState, List.all_cons, List.all_nil,
        Bool.and_true]
      split
      · rename_i hTrue
        exact hTrue.symm
      · rename_i hFalse
        exact (Bool.not_eq_true _ ▸ hFalse).symm

/-- Demands are evaluated together before the node is. -/
theorem evalNode_demands (o : Offer P) (demands : List P) :
    evalNode o.holds demands false o.kind o.pred =
      if demands.all o.holds then evalNode o.holds [] false o.kind o.pred else (false, false) := by
  unfold Offer.kind
  cases o.runThrough <;> simp [evalNode]

/-- The law follows from the constraints being in force as they should. -/
theorem firstLaw_of_inForce
    (h : ∀ c ∈ s, ∀ q, c.constraint = .first q → q = if c.taken then none else some c.pred) :
    FirstLaw s := by
  refine ⟨h, fun o => ?_⟩
  have hAll : s.all (·.admits o.holds) = (s.flatMap Installed.demands).all o.holds := by
    rw [List.all_flatMap, Bool.eq_iff_iff, List.all_eq_true, List.all_eq_true]
    constructor
    · intro hAdmit c hc
      rw [← admits_iff_demands (h c hc)]
      exact hAdmit c hc
    · intro hDemand c hc
      rw [admits_iff_demands (h c hc)]
      exact hDemand c hc
  rw [evalNode_demands, ← hAll, ← evalConstraints_value]
  unfold EvalTransition
  cases o.assertions with
  | false => rfl
  | true =>
    simp only [Bool.true_eq_false, if_false, if_true]
    split <;> rfl

-- ---------------------------------------------------------------------------
-- Offers
-- ---------------------------------------------------------------------------

/-- An offer that all constraints admit is let through by a `RUN_THROUGH`, and by a
`RUN_UNTIL` whose predicate is false. -/
theorem evalTransition_of_all (hAssert : o.assertions = true) (hAll : s.all (·.admits o.holds) = true)
    (hNode : o.runThrough = true ∨ o.holds o.pred = false) : (EvalTransition o s).1.2 = true := by
  have hTrue : (evalConstraints o.holds s).1 = true := by rw [evalConstraints_value, hAll]
  simp only [EvalTransition, hAssert, hTrue, if_true, Bool.true_eq_false, if_false]
  unfold Offer.kind
  rcases hNode with hThrough | hPred
  · simp [evalNode, hThrough]
  · cases o.runThrough <;> simp [evalNode, hPred]

/-- What is let through satisfies all constraints, and has been evaluated by each. -/
theorem evalTransition_taken (hTake : (EvalTransition o s).1.2 = true) :
    s.all (·.admits o.holds) = true ∧ (EvalTransition o s).2 =
      s.map fun c => { c with constraint := (c.constraint.EvalState o.holds).2 } := by
  unfold EvalTransition at hTake ⊢
  cases hAssert : o.assertions with
  | false => simp [hAssert] at hTake
  | true =>
    simp only [hAssert, Bool.true_eq_false, if_false] at hTake ⊢
    cases hTrue : (evalConstraints o.holds s).1 with
    | false => simp [hTrue] at hTake
    | true =>
      have hAll := hTrue
      rw [evalConstraints_value] at hAll
      exact ⟨hAll, evalConstraints_of_all hAll⟩

/-- Under the condition, what is not let through changes no constraint. -/
theorem evalTransition_rejected (hOk : Decisive s (.offer o)) (hTake : (EvalTransition o s).1.2 = false) :
    (EvalTransition o s).2 = s := by
  cases hAssert : o.assertions with
  | false => simp [EvalTransition, hAssert]
  | true =>
    have hSame : (evalConstraints o.holds s).2 = s := by
      refine evalConstraints_same fun pre c post p hEq hFirst hPre => ?_
      by_contra hHolds
      rw [Bool.not_eq_false] at hHolds
      obtain ⟨hPost, hNode⟩ := hOk hAssert pre c post p hEq hFirst hPre hHolds
      have hAdmit : c.admits o.holds = true := by
        simp [Installed.admits, hFirst, Constraint.EvalState, hHolds]
      have hAll : s.all (·.admits o.holds) = true := by
        rw [List.all_eq_true]
        intro d hd
        rw [hEq, List.mem_append, List.mem_cons] at hd
        rcases hd with hd | rfl | hd
        · exact hPre d hd
        · exact hAdmit
        · exact hPost d hd
      rw [evalTransition_of_all hAssert hAll hNode] at hTake
      cases hTake
    simp only [EvalTransition, hAssert, Bool.true_eq_false, if_false]
    split <;> exact hSame

/-- Each step keeps the constraints in force as they should be. -/
theorem inForce_step {a : Action P} (hOk : Decisive s a) (hStep : next s a = some s')
    (h : ∀ c ∈ s, ∀ q, c.constraint = .first q → q = if c.taken then none else some c.pred) :
    ∀ c ∈ s', ∀ q, c.constraint = .first q → q = if c.taken then none else some c.pred := by
  cases a with
  | constrainAll p =>
    obtain rfl := Option.some.inj hStep
    intro c hc q hq
    rcases List.mem_append.mp hc with hc | hc
    · exact h c hc q hq
    · obtain rfl := List.mem_singleton.mp hc
      cases hq
  | constrainFirst p =>
    obtain rfl := Option.some.inj hStep
    intro c hc q hq
    rcases List.mem_append.mp hc with hc | hc
    · exact h c hc q hq
    · obtain rfl := List.mem_singleton.mp hc
      cases hq
      rfl
  | uninstall =>
    simp only [next] at hStep
    split at hStep
    · cases hStep
    · obtain rfl := Option.some.inj hStep
      exact fun c hc => h c ((List.dropLast_sublist s).subset hc)
  | offer o =>
    obtain rfl := Option.some.inj hStep
    cases hTake : (EvalTransition o s).1.2 with
    | false =>
      rw [if_neg (by simp), evalTransition_rejected hOk hTake]
      exact h
    | true =>
      obtain ⟨hAll, hSpent⟩ := evalTransition_taken hTake
      rw [if_pos rfl, hSpent]
      intro c' hc' q hq
      simp only [List.map_map, List.mem_map, Function.comp_apply] at hc'
      obtain ⟨c, hc, rfl⟩ := hc'
      have hAdmit : (c.constraint.EvalState o.holds).1 = true := List.all_eq_true.mp hAll c hc
      -- a first constraint that was true has become `True()`
      revert hq hAdmit
      cases c.constraint with
      | all p =>
        intro hq
        cases hq
      | first r =>
        cases r with
        | none =>
          intro hq _
          cases hq
          rfl
        | some p =>
          simp only [Constraint.EvalState]
          split
          · intro hq _
            cases hq
            rfl
          · intro _ hFalse
            cases hFalse

/--
**The law of the first transition.** For all predicates and every run of installations,
ends of blocks and offers in which each offer that makes the predicate of a first
constraint in force true, the constraints before it being true, is let through: a first
constraint is in force until a transition has been let through while it is installed,
and demands nothing of the later ones.
-/
theorem first_constrained (h : Runs.ReachableUnder (system P) Decisive s) : FirstLaw s := by
  refine firstLaw_of_inForce ?_
  refine h.invariant (P := fun s => ∀ c ∈ s, ∀ q, c.constraint = .first q →
    q = if c.taken then none else some c.pred) ?_ ?_
  · rintro s rfl c hc
    cases hc
  · intro s a s' hForce hOk hStep
    exact inForce_step hOk hStep hForce

-- ---------------------------------------------------------------------------
-- A spent constraint
-- ---------------------------------------------------------------------------

/-- A `RUN_THROUGH` offered by a thread for which the predicate 0 is `p` and 1 is `q`. -/
def offerOf (p q : Bool) : Offer Nat where
  holds n := if n = 0 then p else if n = 1 then q else false
  assertions := true
  runThrough := true
  pred := 2

/-- `CONSTRAIN_FST(p)` and `CONSTRAIN_ALL(q)`, as `_RUN_THROUGH3(p, q, r)` installs them. -/
def runThrough3 : List (Action Nat) := [.constrainFirst 0, .constrainAll 1]

/-- **The first transition let through does not satisfy the constraint**: an offer that
satisfies `p` and not `q` is rejected, and the next one satisfies `q` and not `p`. -/
theorem first_constraint_spent :
    ¬ ∀ s : State Nat, Runs.Reachable (system Nat) s → FirstLaw s := by
  intro hAll
  have hReach : Runs.Reachable (system Nat) _ :=
    Runs.ReachableUnder.foldlM (fun _ _ _ h => h) (.init rfl)
      (runThrough3 ++ [.offer (offerOf true false)]) rfl
  have hTaken := (hAll _ hReach).result (offerOf false true)
  have hLet : (false, true) = (false, false) := hTaken
  cases hLet

/-- An offer that satisfies both is let through, and a later one need not satisfy `p`. -/
theorem first_constrained_later :
    FirstLaw [⟨.first none, 0, true⟩, ⟨.all 1, (1 : Nat), true⟩] := by
  refine first_constrained (Runs.ReachableUnder.step (i := .offer (offerOf true true))
    (.step (i := .constrainAll 1) (.step (i := .constrainFirst 0) (.init rfl) trivial rfl)
      trivial rfl) ?_ rfl)
  intro _ pre c post p hEq _ _ _
  refine ⟨fun d hd => ?_, Or.inl rfl⟩
  have hd : d ∈ pre ++ c :: post := List.mem_append_right pre (List.mem_cons_of_mem c hd)
  rw [← hEq] at hd
  simp only [List.nil_append, List.singleton_append, List.mem_cons, List.not_mem_nil, or_false] at hd
  rcases hd with rfl | rfl <;> rfl

end First

end Concurrit.Model
