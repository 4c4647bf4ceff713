import Mathlib.Data.List.Nodup
import Concurrit.Lib.Runs
import Concurrit.Model.Operations

/-!
# Concurrit — FORALL over all threads

A `ForallThreadNode` maps thread variables to child indices. Without a scope
(`CHOOSE_THREAD_BACKTRACK` without arguments) `CheckAndSelectThread` makes a new variable
for the thread in every call, and the map is keyed by the address of the variable: the
index of an earlier call is not found again.

`identifies_iff` says in which runs the node identifies the threads: exactly those in
which no thread that satisfies the node's predicate evaluates the node a second time.
-/

namespace Concurrit.Model

namespace Unrestricted

variable {n i j : Nat} {m m' : Manager} {nd : Node} {o : Offer} {idx ret : Option Nat}
  {map : List ThreadVar} {lvar : Option Thread}

/-- The scope of `CHOOSE_THREAD_BACKTRACK` without arguments. -/
def noScope : ThreadVarPtrSet := ⟨[], List.nodup_nil⟩

-- ---------------------------------------------------------------------------
-- The system
-- ---------------------------------------------------------------------------

/-- A call of `CheckAndSelectThread`. -/
structure Call where
  offer : Offer
  indexInStack : Option Nat
  /-- the child at the recorded index was covered -/
  covered : Bool
  ret : Option Nat
deriving DecidableEq

structure State where
  mgr : Manager
  /-- the calls on the node in all executions so far; not known to the code -/
  calls : List Call

inductive Action where
  /-- the main thread submits the node again: `Init` -/
  | submit
  /-- a thread evaluates the node -/
  | check (o : Offer) (indexInStack : Option Nat)
  /-- everything else the search does -/
  | search

/-- A freshly constructed node, anywhere in the tree. -/
def Initial (n : NodeId) (s : State) : Prop :=
  s.calls = [] ∧ ∃ nd, s.mgr.heap n = some nd ∧ nd.kind = .forallThread noScope [] none ∧
    nd.children = []

/-- What happens to the node `n`. A recorded index is one that an earlier call returned. -/
inductive Step (n : NodeId) (s : State) : Action → State → Prop where
  | submit (nd : Node) (scope : ThreadVarPtrSet) (map : List ThreadVar) (lvar : Option Thread)
      (hNode : s.mgr.heap n = some nd) (hKind : nd.kind = .forallThread scope map lvar) :
      Step n s .submit
        { s with mgr := s.mgr.setNode n { nd with kind := .forallThread noScope map none } }
  | check (o : Offer) (idx : Option Nat) (nd : Node) (m : Manager) (ret : Option Nat)
      (hNode : s.mgr.heap n = some nd) (hRecorded : ∀ j ∈ idx, ∃ c ∈ s.calls, c.ret = some j)
      (hCheck : s.mgr.checkAndSelectForall n o idx = some (m, ret)) :
      Step n s (.check o idx)
        ⟨m, s.calls ++ [⟨o, idx, idx.any (s.mgr.treeChildCovered nd), ret⟩]⟩
  | search (m : Manager) (nd nd' : Node) (hNode : s.mgr.heap n = some nd)
      (hNode' : m.heap n = some nd') (hKind : nd'.kind = nd.kind)
      (hLen : nd'.children.length = nd.children.length) :
      Step n s .search { s with mgr := m }

/-- Any number of executions and replays that reach the node. -/
def system (n : NodeId) : Runs.System State Action where
  init := Initial n
  step := Step n

/-- The thread a child index stands for, `var(child_index)->thread()`. -/
def owner (nd : Node) (i : Nat) : Option Thread :=
  match nd.kind with
  | .forallThread scope map _ => map[i]?.bind (ThreadVar.thread scope)
  | _ => none

/-- The node identifies the threads. -/
structure Identifies (n : NodeId) (s : State) : Prop where
  /-- a thread owns at most one child index -/
  once : ∀ nd, s.mgr.heap n = some nd → ∀ i j t, owner nd i = some t → owner nd j = some t → i = j
  /-- an index stands for the thread it was returned to -/
  stands : ∀ nd, s.mgr.heap n = some nd → ∀ c ∈ s.calls, ∀ i, c.ret = some i →
    owner nd i = some c.offer.thread
  /-- replaying a recorded index selects the thread it stands for -/
  replay : ∀ nd, s.mgr.heap n = some nd → ∀ c ∈ s.calls, ∀ i, c.indexInStack = some i →
    owner nd i = some c.offer.thread → c.offer.canSelect = true → c.covered = false →
      c.ret = some i

/-- The threads that have evaluated the node and satisfied its predicate, in order. -/
def evaluators (calls : List Call) : List Thread :=
  (calls.filter (·.offer.canSelect)).map (·.offer.thread)

-- ---------------------------------------------------------------------------
-- Calls
-- ---------------------------------------------------------------------------

theorem evaluators_append (calls : List Call) (c : Call) :
    evaluators (calls ++ [c]) =
      evaluators calls ++ if c.offer.canSelect then [c.offer.thread] else [] := by
  unfold evaluators
  cases hCan : c.offer.canSelect <;> simp [hCan]

/-- **Every call that gets past the predicate extends the node**: it files the thread under
the next index, which it returns when no other one is recorded. -/
theorem check_cases (hn : m.heap n = some nd) (hKind : nd.kind = .forallThread noScope map lvar)
    (hLen : nd.children.length = map.length)
    (hCheck : m.checkAndSelectForall n o idx = some (m', ret)) :
    (o.canSelect = false ∧ m' = m ∧ ret = none) ∨
    (o.canSelect = true ∧ ∃ nd' lvar', m'.heap n = some nd' ∧
      nd'.kind = .forallThread noScope (map ++ [.created o.thread]) lvar' ∧
      nd'.children.length = map.length + 1 ∧
      (∀ i, ret = some i → i = map.length ∧ ∀ j ∈ idx, j = map.length)) := by
  have hVar : noScope.varFor o.thread = some (.created o.thread) := rfl
  simp only [Manager.checkAndSelectForall, hn, hKind, hVar, Option.bind_eq_bind, Option.bind_some,
    Option.bind_eq_some_iff, Option.guard_eq_some'] at hCheck
  obtain ⟨_, _, hCheck⟩ := hCheck
  cases hCan : o.canSelect with
  | false =>
    simp only [hCan, Bool.false_eq_true, not_false_eq_true, if_true, Option.pure_def,
      Option.some.injEq, Prod.mk.injEq] at hCheck
    exact Or.inl ⟨rfl, hCheck.1.symm, hCheck.2.symm⟩
  | true =>
    refine Or.inr ⟨rfl, ?_⟩
    -- the variable has just been made, so it is not in the map
    simp only [hCan, not_true_eq_false, if_false, Manager.addOrGetChildIndex, hKind,
      Manager.childIndexOf, Option.bind_eq_bind, Option.pure_def, Option.bind_eq_some_iff,
      Option.guard_eq_some', Option.some.injEq] at hCheck
    obtain ⟨⟨nd', k⟩, ⟨_, _, hGrown⟩, _, _, _, _, hCheck⟩ := hCheck
    obtain ⟨rfl, rfl⟩ := Prod.mk.injEq .. ▸ hGrown
    split at hCheck
    · cases hCheck
      refine ⟨_, lvar, Function.update_self .., rfl, ?_, by simp⟩
      simp [hLen]
    · rename_i hSame
      split at hCheck
      · cases hCheck
        refine ⟨_, lvar, Function.update_self .., rfl, ?_, by simp⟩
        simp [hLen]
      · cases hCheck
        refine ⟨_, some o.thread, Function.update_self .., rfl, ?_, ?_⟩
        · simp [Node.setLvar, hLen]
        · rintro i hi
          obtain rfl := Option.some.inj hi
          refine ⟨hLen, fun j hj => ?_⟩
          by_contra hNe
          exact hSame ⟨j, hj, fun h => hNe (h.trans hLen)⟩

-- ---------------------------------------------------------------------------
-- The map is a record of the calls
-- ---------------------------------------------------------------------------

/-- The node's map lists the evaluators, and no call replays a recorded index. -/
structure Ledger (n : NodeId) (s : State) : Prop where
  node : ∃ nd lvar, s.mgr.heap n = some nd ∧
    nd.kind = .forallThread noScope ((evaluators s.calls).map .created) lvar ∧
    nd.children.length = (evaluators s.calls).length
  returned : ∀ c ∈ s.calls, ∀ i, c.ret = some i → (evaluators s.calls)[i]? = some c.offer.thread
  /-- a call with a recorded index is filed behind it -/
  replayed : ∀ c ∈ s.calls, c.offer.canSelect = true → ∀ i, c.indexInStack = some i →
    ∃ k, i < k ∧ (evaluators s.calls)[k]? = some c.offer.thread

/-- Nobody has evaluated the node yet. -/
theorem ledger_initial {s : State} (hInit : Initial n s) : Ledger n s := by
  obtain ⟨hCalls, nd, hn, hKind, hChildren⟩ := hInit
  refine ⟨⟨nd, none, hn, ?_, ?_⟩, ?_, ?_⟩
  · rw [hCalls, hKind]
    rfl
  · rw [hCalls, hChildren]
    rfl
  · rw [hCalls]
    exact fun c hc => absurd hc List.not_mem_nil
  · rw [hCalls]
    exact fun c hc => absurd hc List.not_mem_nil

/-- A call that the predicate refuses leaves no trace in the node. -/
theorem Ledger.refused {s : State} (hL : Ledger n s) {c : Call} (hCan : c.offer.canSelect = false)
    (hRet : c.ret = none) : Ledger n { s with calls := s.calls ++ [c] } := by
  have hSame : evaluators (s.calls ++ [c]) = evaluators s.calls := by
    rw [evaluators_append, hCan]
    simp
  refine ⟨?_, ?_, ?_⟩
  · show ∃ nd lvar, _
    rw [hSame]
    exact hL.node
  · intro d hd i hi
    rw [hSame]
    rcases List.mem_append.mp hd with hd | hd
    · exact hL.returned d hd i hi
    · obtain rfl := List.mem_singleton.mp hd
      rw [hRet] at hi
      cases hi
  · intro d hd hTrue i hi
    rw [hSame]
    rcases List.mem_append.mp hd with hd | hd
    · exact hL.replayed d hd hTrue i hi
    · obtain rfl := List.mem_singleton.mp hd
      rw [hCan] at hTrue
      cases hTrue

/-- A call that gets past the predicate adds its thread at the end of the map. -/
theorem Ledger.filed {s : State} (hL : Ledger n s) {c : Call} (hCan : c.offer.canSelect = true)
    {nd' : Node} (hn : m.heap n = some nd')
    (hKind : nd'.kind = .forallThread noScope
      ((evaluators s.calls).map .created ++ [.created c.offer.thread]) lvar)
    (hLen : nd'.children.length = (evaluators s.calls).length + 1)
    (hRet : ∀ i, c.ret = some i → i = (evaluators s.calls).length)
    (hRecorded : ∀ j, c.indexInStack = some j → ∃ d ∈ s.calls, d.ret = some j) :
    Ledger n ⟨m, s.calls ++ [c]⟩ := by
  have hMore : evaluators (s.calls ++ [c]) = evaluators s.calls ++ [c.offer.thread] := by
    rw [evaluators_append, hCan, if_pos rfl]
  have hOld : ∀ {k : Nat} {t : Thread}, (evaluators s.calls)[k]? = some t →
      (evaluators (s.calls ++ [c]))[k]? = some t := by
    intro k t hk
    rw [hMore, List.getElem?_append_left (List.getElem?_eq_some_iff.mp hk).1]
    exact hk
  have hNew : (evaluators (s.calls ++ [c]))[(evaluators s.calls).length]? =
      some c.offer.thread := by
    rw [hMore, List.getElem?_concat_length]
  refine ⟨⟨nd', lvar, hn, ?_, ?_⟩, ?_, ?_⟩
  · rw [hKind, hMore, List.map_append, List.map_singleton]
  · rw [hLen, hMore, List.length_append, List.length_singleton]
  · intro d hd i hi
    rcases List.mem_append.mp hd with hd | hd
    · exact hOld (hL.returned d hd i hi)
    · obtain rfl := List.mem_singleton.mp hd
      rw [hRet i hi]
      exact hNew
  · intro d hd hTrue i hi
    rcases List.mem_append.mp hd with hd | hd
    · obtain ⟨k, hLt, hk⟩ := hL.replayed d hd hTrue i hi
      exact ⟨k, hLt, hOld hk⟩
    · obtain rfl := List.mem_singleton.mp hd
      obtain ⟨e, he, hRet⟩ := hRecorded i hi
      exact ⟨_, (List.getElem?_eq_some_iff.mp (hL.returned e he i hRet)).1, hNew⟩

/-- **Step lemma of the ledger**: the node's map lists the evaluators, and each evaluation
of a selectable thread appends one. -/
theorem Ledger.step {s s' : State} {a : Action} (hL : Ledger n s) (hStep : Step n s a s') :
    Ledger n s' := by
  obtain ⟨nd₀, lvar₀, hn₀, hKind₀, hLen₀⟩ := hL.node
  cases hStep with
  | submit nd scope map lvar hNode hKind =>
    obtain rfl : nd₀ = nd := Option.some.inj (hn₀.symm.trans hNode)
    obtain ⟨-, rfl, -⟩ := NodeKind.forallThread.inj (hKind.symm.trans hKind₀)
    exact ⟨⟨_, none, Function.update_self .., rfl, hLen₀⟩, hL.returned, hL.replayed⟩
  | check o idx nd m ret hNode hRecorded hCheck =>
    have hLen : nd₀.children.length = ((evaluators s.calls).map ThreadVar.created).length := by
      rw [hLen₀, List.length_map]
    rcases check_cases hn₀ hKind₀ hLen hCheck with
      ⟨hCan, rfl, rfl⟩ | ⟨hCan, nd', lvar', hn', hKind', hLen', hRet⟩
    · exact hL.refused hCan rfl
    · rw [List.length_map] at hLen' hRet
      exact hL.filed hCan hn' hKind' hLen' (fun i hi => (hRet i hi).1) hRecorded
  | search m nd nd' hNode hNode' hKind hLen =>
    obtain rfl : nd₀ = nd := Option.some.inj (hn₀.symm.trans hNode)
    exact ⟨⟨nd', lvar₀, hNode', hKind.trans hKind₀, hLen.trans hLen₀⟩, hL.returned, hL.replayed⟩

theorem ledger_reachable {s : State} (h : Runs.Reachable (system n) s) : Ledger n s :=
  h.invariant (fun _ => ledger_initial) fun _ _ _ hL _ hStep => hL.step hStep

theorem Ledger.owner_eq {s : State} (hL : Ledger n s) (hn : s.mgr.heap n = some nd) (i : Nat) :
    owner nd i = (evaluators s.calls)[i]? := by
  obtain ⟨nd₀, lvar, hn₀, hKind, -⟩ := hL.node
  obtain rfl : nd₀ = nd := Option.some.inj (hn₀.symm.trans hn)
  simp only [owner, hKind, List.getElem?_map]
  cases (evaluators s.calls)[i]? <;> rfl

/-- **FORALL over all threads.** In every run, with any number of executions and replays,
the node identifies the threads if and only if no thread that satisfies its predicate has
evaluated it twice. Each evaluation makes a new variable, so the same thread counts as
another one. -/
theorem identifies_iff {s : State} (h : Runs.Reachable (system n) s) :
    Identifies n s ↔ (evaluators s.calls).Nodup := by
  have hL := ledger_reachable h
  obtain ⟨nd₀, -, hn₀, -, -⟩ := hL.node
  constructor
  · intro hId
    rw [List.nodup_iff_injective_get]
    intro a b hab
    have ha : owner nd₀ a = some ((evaluators s.calls).get a) := by
      rw [hL.owner_eq hn₀, List.getElem?_eq_getElem a.isLt, List.get_eq_getElem]
    have hb : owner nd₀ b = some ((evaluators s.calls).get a) := by
      rw [hab, hL.owner_eq hn₀, List.getElem?_eq_getElem b.isLt, List.get_eq_getElem]
    exact Fin.ext (hId.once nd₀ hn₀ _ _ _ ha hb)
  · intro hNodup
    have hOnce : ∀ {i j : Nat} {t : Thread}, (evaluators s.calls)[i]? = some t →
        (evaluators s.calls)[j]? = some t → i = j := by
      intro i j t hi hj
      have hLt := (List.getElem?_eq_some_iff.mp hi).1
      exact (List.getElem?_inj hLt hNodup).mp (hi.trans hj.symm)
    refine ⟨?_, ?_, ?_⟩
    · intro nd hn i j t hi hj
      rw [hL.owner_eq hn] at hi hj
      exact hOnce hi hj
    · intro nd hn c hc i hi
      rw [hL.owner_eq hn]
      exact hL.returned c hc i hi
    · intro nd hn c hc i hi hOwner hCan _
      -- a thread that replays its index has evaluated the node before
      rw [hL.owner_eq hn] at hOwner
      obtain ⟨k, hLt, hk⟩ := hL.replayed c hc hCan i hi
      exact absurd (hOnce hOwner hk) (Nat.ne_of_lt hLt)

/-- A program with a thread, and a FORALL node without a scope that has just been made. -/
def fresh : State :=
  ⟨((Manager.initial (fun _ => false) 1).alloc (Node.new (.forallThread noScope [] none))).1, []⟩

/-- **The same thread gets a second child**: thread 7 is selected with index 0, and
evaluates the node again in the next execution, which replays the index. -/
theorem forall_identity_lost :
    ¬ ∀ n s, Runs.Reachable (system n) s → Identifies n s := by
  intro hAll
  have hFresh : Runs.Reachable (system 2) fresh := .init ⟨rfl, _, rfl, rfl, rfl⟩
  have hFirst := hFresh.step trivial (.check ⟨7, true⟩ none _ _ _ rfl nofun rfl)
  have hAgain := hFirst.step trivial (.submit _ _ _ _ rfl rfl)
  have hReach := hAgain.step trivial (.check ⟨7, true⟩ (some 0) _ _ _ rfl
    (fun j hj => ⟨_, List.mem_singleton_self _, hj⟩) rfl)
  have hSame : 0 = 1 := (hAll 2 _ hReach).once _ rfl 0 1 7 rfl rfl
  cases hSame

/-- The predicate is false for thread 9, thread 7 is selected, and in the next execution thread 8,
which gets an index of its own. -/
theorem identifies_each_once : ∃ s, Identifies 2 s ∧
    s.calls.map (fun c => (c.offer.thread, c.ret)) = [(9, none), (7, some 0), (8, some 1)] := by
  have hFresh : Runs.Reachable (system 2) fresh := .init ⟨rfl, _, rfl, rfl, rfl⟩
  have hRefused := hFresh.step trivial (.check ⟨9, false⟩ none _ _ _ rfl nofun rfl)
  have hFirst := hRefused.step trivial (.check ⟨7, true⟩ none _ _ _ rfl nofun rfl)
  have hAgain := hFirst.step trivial (.submit _ _ _ _ rfl rfl)
  have hReach := hAgain.step trivial (.check ⟨8, true⟩ none _ _ _ rfl nofun rfl)
  exact ⟨_, (identifies_iff hReach).mpr (by decide), rfl⟩

end Unrestricted

end Concurrit.Model
