import Concurrit.Model.NodeSteps
import Concurrit.Model.Covering

/-!
# Concurrit — retries of EXISTS

An execution that ends with an EXISTS node as the location consumed last does not
backtrack: `UpdateCoveredVars` remembers the thread variable the node has selected, and
the next execution comes back to the node. The variables are remembered by address: those
of the scope, or one made for the `Coroutine` object when the node has no scope.

`retries_bounded` bounds the retries by the threads of the scope, in every run in which a
thread id that has been tried is found under the variable it was tried under.
-/

namespace Concurrit.Model

open Interrupted (Action interrupt)

namespace Retries

variable {cfg : Cfg} {tid : Thread → Nat} {n k i : Nat} {m m' m₁ m₂ : Manager} {nd nd' : Node}
  {scope : ThreadVarPtrSet} {tried : List ThreadVar} {t : Thread} {var : ThreadVar} {op : Op}
  {env : Env} {r : OpResult} {a : Answer} {l last : ChildLoc} {reason : BacktrackReason}
  {lvar : Option Thread}

-- ---------------------------------------------------------------------------
-- The system
-- ---------------------------------------------------------------------------

/-- A thread an EXISTS node has selected, and the scope it was selected from. -/
structure Selection where
  scope : ThreadVarPtrSet
  thread : Thread
deriving DecidableEq

/-- What the node has selected, when it is the location consumed last. -/
def endsWith (m : Manager) (n : NodeId) : Option Selection := do
  let last ← m.getLastNodeInStack
  guard (last.parent = n)
  let nd ← m.heap n
  match nd.kind with
  | .existsThread scope _ (some t) => return ⟨scope, t⟩
  | _ => none

/-- The selection with which the main thread ends an execution. -/
def failure (m : Manager) (n : NodeId) : Action → Option Selection
  | .finish op env => do
    let (m, _) ← interrupt m op env
    endsWith m n
  | _ => none

structure State where
  mgr : Manager
  /-- the failures of the node in all executions so far; not known to the code -/
  failures : List Selection

def next (cfg : Cfg) (n : NodeId) (s : State) (a : Action) : Option State := do
  let m ← Interrupted.next cfg s.mgr a
  return ⟨m, s.failures ++ (failure s.mgr n a).toList⟩

/-- Any number of executions of any script, observed at the node `n`. -/
def system (cfg : Cfg) (nondet : StaticId → Bool) (numMembers : Nat) (n : NodeId) :
    Runs.System State Action :=
  Runs.partialMachine ⟨{ Manager.initial nondet numMembers with stackIndex := 1 }, []⟩ (next cfg n)

/-- The thread is one of the scope, which without variables stands for all threads. -/
def InScope (scope : ThreadVarPtrSet) (t : Thread) : Prop :=
  scope.empty = true ∨ t ∈ scope.threads

/-- The condition on the steps: a thread that evaluates the node with its predicate true,
and has the id of a thread the node has failed with, is found under the same variable. -/
def Stable (tid : Thread → Nat) (n : NodeId) (s : State) : Action → Prop
  | .operation (.existsThread scope) env =>
    ∀ idx, s.mgr.getNextNodeInStack = some (some n, idx) → ∀ o ∈ env.offers, o.canSelect = true →
      ∀ f ∈ s.failures, tid f.thread = tid o.thread →
        scope.varFor o.thread = f.scope.varFor f.thread
  | _ => True

/-- All threads of the scope that satisfy the predicate have been tried. -/
def AllTried (tid : Thread → Nat) (s : State) (scope : ThreadVarPtrSet) (env : Env) : Prop :=
  ∀ o ∈ env.offers, o.canSelect = true → InScope scope o.thread →
    ∃ f ∈ s.failures, tid f.thread = tid o.thread

/-- The node is an `ExistsThreadNode`. -/
def IsExists (m : Manager) (n : NodeId) : Prop :=
  ∃ nd scope tried lvar, m.heap n = some nd ∧ nd.kind = .existsThread scope tried lvar

/-- The retries of the node are bounded. -/
structure Bounded (cfg : Cfg) (tid : Thread → Nat) (n : NodeId) (s : State) : Prop where
  /-- no thread id fails twice -/
  once : (s.failures.map fun f => tid f.thread).Nodup
  /-- there are at most as many failures as threads in the scope -/
  bounded : ∀ ids : List Nat, (∀ f ∈ s.failures, ∀ t, InScope f.scope t → tid t ∈ ids) →
    s.failures.length ≤ ids.length
  /-- when all have been tried, the node selects none -/
  exhausted : ∀ scope env idx, s.mgr.getNextNodeInStack = some (some n, idx) →
    Stable tid n s (.operation (.existsThread scope) env) → AllTried tid s scope env →
      ∀ m a, s.mgr.dslOp (.existsThread scope) env ≠ some (m, .returns a)
  /-- and the end of the execution covers or deletes it, unless that retries the EXISTS
  node above -/
  givenUp : ∀ scope env idx s', s.mgr.getNextNodeInStack = some (some n, idx) → IsExists s.mgr n →
    (∀ last, s.mgr.getLastNodeInStack = some last → s.mgr.retriesExists last = false) →
      next cfg n s (.finish (.existsThread scope) env) = some s' →
        ∀ nd, s'.mgr.heap n = some nd → nd.covered = true

-- ---------------------------------------------------------------------------
-- Selections
-- ---------------------------------------------------------------------------

/-- A thread that has a variable is one of the scope. -/
theorem inScope_of_varFor (hVar : scope.varFor t = some var) : InScope scope t := by
  unfold ThreadVarPtrSet.varFor at hVar
  split at hVar
  · rename_i hEmpty
    exact Or.inl hEmpty
  · obtain ⟨v, hFind, _⟩ := Option.map_eq_some_iff.mp hVar
    obtain ⟨p, hp, _⟩ := Option.map_eq_some_iff.mp hFind
    refine Or.inr (List.mem_map.mpr ⟨p, List.mem_of_find?_eq_some hp, ?_⟩)
    simpa using List.find?_some hp

/-- **A candidate has a variable that has not been tried**: the test of
`CheckAndSelectThread` for an EXISTS node. -/
theorem candidate_cases (hCand : Manager.existsCandidate scope tried t = true) :
    ∃ var, scope.varFor t = some var ∧ var ∉ tried := by
  unfold Manager.existsCandidate at hCand
  unfold ThreadVarPtrSet.varFor
  split at hCand
  · rename_i hEmpty
    refine ⟨.created t, by rw [if_pos hEmpty], fun hMem => ?_⟩
    have hAny : (tried.any fun v => v.thread scope == some t) = true :=
      List.any_eq_true.mpr ⟨_, hMem, by simp [ThreadVar.thread]⟩
    rw [hAny] at hCand
    cases hCand
  · rename_i hScope
    split at hCand
    · cases hCand
    · rename_i v hFind
      exact ⟨.bound v, by rw [if_neg hScope, hFind, Option.map_some], by simpa using hCand⟩

/-- An operation that consumes an EXISTS node selects one of the threads that have offered
themselves with the predicate true. -/
theorem takes_exists (h : Takes m m₁ env n nd op i a)
    (hKind : nd.kind = .existsThread scope tried lvar) :
    op = .existsThread scope ∧ ExistsOrigin m n tried ∧ ∃ t, lvar = some t ∧
      ⟨t, true⟩ ∈ env.offers ∧ Manager.existsCandidate scope tried t = true := by
  cases h with
  | choice s i hChoice => simp [hKind, NodeKind.isChoice] at hChoice
  | conditional v hCond => simp [hKind] at hCond
  | runThrough hRun => simp [hKind] at hRun
  | runUntil hRun => simp [hKind] at hRun
  | forallThread scope map₀ map i t var _ _ hForall => simp [hKind] at hForall
  | existsThread scope tried t hOffer hOrigin hExists hCand =>
    rw [hKind] at hExists
    cases hExists
    exact ⟨rfl, hOrigin, t, rfl, hOffer, hCand⟩

/-- An EXISTS node that is in the tree stays one, with the threads it has tried: an
operation that works on it gives it a new scope at most. -/
theorem worksOn_exists (t : Tidy m) (hS : Submitted m n nd m₁) (hn : m.heap n = some nd')
    (hKind : nd'.kind = .existsThread scope tried lvar) (hW : WorksOn m m₁ op env n nd r) :
    ∃ scope' lvar', nd.kind = .existsThread scope' tried lvar' := by
  -- operations that find a node of their own class leave it as it is
  have hSame : ∀ {fresh : NodeKind}, Found m n nd fresh →
      ∃ scope' lvar', nd.kind = .existsThread scope' tried lvar' := fun hFound => by
    rw [hS.found t hn hFound, hKind]
    exact ⟨_, _, rfl⟩
  -- the node is no FORALL node
  have hForall : ∀ {map : List ThreadVar}, ¬ ForallOrigin m n map := by
    rintro map (⟨kd, _, _, hk, hKd⟩ | ⟨hNone, _⟩)
    · rw [hn] at hk
      obtain rfl := Option.some.inj hk
      rw [hKind] at hKd
      cases hKd
    · rw [hn] at hNone
      cases hNone
  have hExists : ∀ {tried' : List ThreadVar}, ExistsOrigin m n tried' → tried' = tried := by
    rintro tried' (⟨kd, _, _, hk, hKd⟩ | ⟨hNone, _⟩)
    · rw [hn] at hk
      obtain rfl := Option.some.inj hk
      rw [hKind] at hKd
      cases hKd
      rfl
    · rw [hn] at hNone
      cases hNone
  cases r with
  | returns a =>
    obtain ⟨i, hTakes⟩ := hW
    cases hTakes with
    | choice s i _ hFound => exact hSame hFound
    | conditional v _ hFound => exact hSame hFound
    | runThrough _ hFound => exact hSame hFound
    | runUntil _ hFound => exact hSame hFound
    | forallThread scope map₀ map i t var _ hOrigin => exact absurd hOrigin hForall
    | existsThread scope tried t _ hOrigin hKind' =>
      obtain rfl := hExists hOrigin
      exact ⟨_, _, hKind'⟩
  | throws why =>
    have hG : GivesUp m env n nd op why := hW
    cases hG with
    | replayFails v _ _ hOld =>
      have hFound : Found m n nd .root := Or.inl hOld
      exact hSame hFound
    | runThrough _ _ hFound => exact hSame hFound
    | runUntil _ _ hFound => exact hSame hFound
    | forallThread scope map₀ map hOrigin => exact absurd hOrigin hForall
    | existsThread scope tried hOrigin hKind' =>
      obtain rfl := hExists hOrigin
      exact ⟨_, _, hKind'⟩

-- ---------------------------------------------------------------------------
-- The invariant
-- ---------------------------------------------------------------------------

/-- The node has tried the variables it has failed with, as long as it is not covered,
and has not selected any of these thread ids again. -/
structure Ledger (tid : Thread → Nat) (n : NodeId) (m : Manager) (fs : List Selection) : Prop where
  once : (fs.map fun f => tid f.thread).Nodup
  inScope : ∀ f ∈ fs, InScope f.scope f.thread
  /-- the pointer is not used again -/
  old : fs ≠ [] → n < m.next
  tried : ∀ nd, m.heap n = some nd → nd.covered = false → ∀ f ∈ fs, ∃ scope tried lvar var,
    nd.kind = .existsThread scope tried lvar ∧ f.scope.varFor f.thread = some var ∧ var ∈ tried
  selected : ∀ l ∈ m.consumed, l.parent = n → ∀ nd scope tried t, m.heap n = some nd →
    nd.kind = .existsThread scope tried (some t) →
      (∃ var, scope.varFor t = some var) ∧ ∀ f ∈ fs, tid f.thread ≠ tid t

variable {fs : List Selection}

/-- Between two executions the root alone is consumed, which selects no thread; so what the
ledger says of the selection holds of nothing. -/
theorem Ledger.of_keeps (h : Ledger tid n m fs) (hKeep : KeepsAt m m' n) (hNext : m'.next = m.next)
    (hRoot : m'.consumed = [⟨ROOTNODE, 0⟩]) (wf : WellFormed m.heap m.next) :
    Ledger tid n m' fs := by
  refine ⟨h.once, h.inScope, fun hSome => hNext ▸ h.old hSome, ?_, ?_⟩
  · intro nd' hn' hCov' f hf
    obtain ⟨nd, hn, hKind, hCov⟩ := hKeep nd' hn'
    have hOpen : nd.covered = false := by
      by_contra hNot
      rw [hCov (by simpa using hNot)] at hCov'
      cases hCov'
    rw [hKind]
    exact h.tried nd hn hOpen f hf
  · intro l hl hln nd' scope tried t hn' hKind'
    rw [hRoot, List.mem_singleton] at hl
    subst hl
    obtain rfl : ROOTNODE = n := hln
    obtain ⟨nd, hn, hKind, _⟩ := hKeep nd' hn'
    obtain ⟨rd, hrd, hRootKind⟩ := wf.root
    obtain rfl := Option.some.inj (hn.symm.trans hrd)
    rw [hKind, hRootKind] at hKind'
    cases hKind'

/-- A node that has failed is still in the tree when it is submitted. -/
theorem Ledger.origin (h : Ledger tid n m fs) (hS : Submitted m n nd m₁) (hSome : fs ≠ []) :
    ∃ nd₀ idx, m.heap n = some nd₀ ∧ nd₀.covered = false ∧
      m.getNextNodeInStack = some (some n, idx) := by
  cases hS with
  | old idx nd₀ hNext hn hCov => exact ⟨nd₀, idx, hn, hCov, hNext⟩
  | new idx _ hNew => exact absurd (h.old hSome) (Nat.not_lt.mpr (Nat.le_of_eq hNew.symm))

/-- **The node selects a thread whose id has not failed.** If it had, the condition would
find it under the variable that has been tried, and `existsCandidate` would have refused it.
-/
theorem Ledger.select (h : Ledger tid n m fs) (hS : Submitted m n nd m₁)
    (hTakes : Takes m m₁ env n nd op i a) (hKind : nd.kind = .existsThread scope tried lvar)
    (hOk : Stable tid n ⟨m, fs⟩ (.operation op env)) :
    ∃ th, lvar = some th ∧ ⟨th, true⟩ ∈ env.offers ∧ (∃ var, scope.varFor th = some var) ∧
      ∀ f ∈ fs, tid f.thread ≠ tid th := by
  obtain ⟨rfl, hTried, th, rfl, hOffer, hCand⟩ := takes_exists hTakes hKind
  obtain ⟨var, hVar, hNew⟩ := candidate_cases hCand
  refine ⟨th, rfl, hOffer, ⟨var, hVar⟩, fun f hf hSame => hNew ?_⟩
  obtain ⟨nd₀, idx, hn₀, hOpen, hNext⟩ := h.origin hS (List.ne_nil_of_mem hf)
  obtain ⟨scope₀, tried₀, lvar₀, var', hKind₀, hVar', hMem⟩ := h.tried nd₀ hn₀ hOpen f hf
  have hTried₀ : tried = tried₀ := by
    rcases hTried with ⟨kd, _, _, hk, hKd⟩ | ⟨hNone, _⟩
    · obtain rfl := Option.some.inj (hk.symm.trans hn₀)
      rw [hKind₀] at hKd
      cases hKd
      rfl
    · rw [hn₀] at hNone
      cases hNone
  -- the thread would be filed under the variable tried before
  have hStable := hOk idx hNext ⟨th, true⟩ hOffer rfl f hf hSame
  rw [hVar, hVar'] at hStable
  obtain rfl := Option.some.inj hStable
  rwa [hTried₀]

/-- **An operation keeps the ledger.** The failures are the same; the node may have been
submitted again, and may have selected a thread. -/
theorem Ledger.opStep (h : Ledger tid n m fs) (t : Tidy m) (hStep : OpStep m op env m' r)
    (hOk : ∀ a, r = .returns a → Stable tid n ⟨m, fs⟩ (.operation op env)) : Ledger tid n m' fs := by
  refine ⟨h.once, h.inScope, fun hSome => Nat.lt_of_lt_of_le (h.old hSome) hStep.next_le, ?_, ?_⟩
  · intro nd' hn' hCov' f hf
    -- what has been tried: the node is untouched, or the operation works on it
    rcases hStep.node_cases hn' with ⟨nd, hn, hKind, hCov⟩ | ⟨m₁, nd, hS, hKind, hW⟩
    · have hOpen : nd.covered = false := by
        by_contra hNot
        rw [hCov (by simpa using hNot)] at hCov'
        cases hCov'
      rw [hKind]
      exact h.tried nd hn hOpen f hf
    · obtain ⟨nd₀, _, hn₀, hOpen, _⟩ := h.origin hS (List.ne_nil_of_mem hf)
      obtain ⟨scope₀, tried, lvar₀, var, hKind₀, hVar, hMem⟩ := h.tried nd₀ hn₀ hOpen f hf
      obtain ⟨scope, lvar, hExists⟩ := worksOn_exists t hS hn₀ hKind₀ hW
      exact ⟨scope, tried, lvar, var, hKind.trans hExists, hVar, hMem⟩
  · intro l hl hln nd' scope tried th hn' hKind'
    -- what is selected: before this operation, or by it
    rcases hStep.mem_consumed t hl with hOld | ⟨nd, m₁, i, a, nd'', rfl, hS, hTakes, hn'', hKind⟩
    · rcases hStep.node_cases hn' with ⟨nd, hn, hKind, -⟩ | ⟨m₁, nd, hS, -, -⟩
      · rw [hKind] at hKind'
        exact h.selected l hOld hln nd scope tried th hn hKind'
      · exact absurd hln (hS.ne_consumed t hOld)
    · subst hln
      obtain rfl := Option.some.inj (hn'.symm.trans hn'')
      rw [hKind'] at hKind
      obtain ⟨th', hEq, -, hVar, hFresh⟩ := h.select hS hTakes hKind.symm (hOk a rfl)
      obtain rfl := Option.some.inj hEq
      exact ⟨hVar, hFresh⟩

theorem Ledger.thwarted (h : Ledger tid n m fs) (t : Tidy m) (hT : Interrupted.Thwarted m op env m₁) :
    Ledger tid n m₁ fs := by
  obtain ⟨why, hStep⟩ := hT
  exact h.opStep t hStep nofun

/-- Inserting a variable adds this one only. -/
theorem mem_insertVar {v : ThreadVar} : v ∈ Manager.insertVar tried var ↔ v ∈ tried ∨ v = var := by
  unfold Manager.insertVar
  split
  · rename_i hMem
    constructor
    · exact Or.inl
    · rintro (h | rfl)
      · exact h
      · exact hMem
  · simp

/-- An execution ends with the node when its selection is the location consumed last. -/
theorem endsWith_eq_some {f : Selection} : endsWith m n = some f ↔
    ∃ last nd tried, m.getLastNodeInStack = some last ∧ last.parent = n ∧ m.heap n = some nd ∧
      nd.kind = .existsThread f.scope tried (some f.thread) := by
  unfold endsWith
  simp only [Option.bind_eq_bind, Option.bind_eq_some_iff, Option.guard_eq_some']
  constructor
  · rintro ⟨last, hLast, _, hln, nd, hn, hKind⟩
    split at hKind
    · rename_i scope tried t hk
      obtain rfl := Option.some.inj hKind
      exact ⟨last, nd, tried, hLast, hln, hn, hk⟩
    · cases hKind
  · rintro ⟨last, nd, tried, hLast, hln, hn, hKind⟩
    refine ⟨last, hLast, (), hln, nd, hn, ?_⟩
    rw [hKind]
    rfl

/-- The node selected last is one more failure: it is not among the old ones, by what the
ledger says of the selection. -/
theorem Ledger.failed {f : Selection} (h : Ledger tid n m fs) (hEnds : endsWith m n = some f) :
    ((fs ++ [f]).map fun f => tid f.thread).Nodup ∧
      (∃ var, f.scope.varFor f.thread = some var) ∧ ∀ g ∈ fs ++ [f], InScope g.scope g.thread := by
  obtain ⟨last, nd, tried, hLast, hln, hn, hKind⟩ := endsWith_eq_some.mp hEnds
  obtain ⟨⟨var, hVar⟩, hFresh⟩ := h.selected last (Manager.last_mem_consumed hLast) hln nd _ _ _ hn hKind
  refine ⟨?_, ⟨var, hVar⟩, fun g hg => ?_⟩
  · rw [List.map_append, List.map_singleton, List.nodup_append]
    refine ⟨h.once, List.nodup_singleton _, fun x hx y hy => ?_⟩
    obtain ⟨g, hg, rfl⟩ := List.mem_map.mp hx
    obtain rfl := List.mem_singleton.mp hy
    exact hFresh g hg
  · rcases List.mem_append.mp hg with hg | hg
    · exact h.inScope g hg
    · obtain rfl := List.mem_singleton.mp hg
      exact inScope_of_varFor hVar

/-- **The end of an execution keeps the ledger**: the variable of the thread that failed is
remembered, unless the node is covered. `EndWithSuccess` retries the EXISTS node consumed
last, by putting its variable among those tried, and otherwise closes the path. -/
theorem Ledger.finish (h : Ledger tid n m fs) (t : Tidy m)
    (hEnd : m.endWithSuccess cfg reason = some m₁) (hHeap : m'.heap = m₁.heap)
    (hNext : m'.next = m₁.next) (hRoot : m'.consumed = [⟨ROOTNODE, 0⟩]) :
    Ledger tid n m' (fs ++ (endsWith m n).toList) := by
  have hPtr : m'.next = m.next := hNext.trans (endWithSuccess_next t hEnd)
  obtain ⟨last, nd, hLast, hn, hCase⟩ := endWithSuccess_cases t hEnd
  have t₁ := t.marked cfg reason hn
  have hMark := keeps_marked cfg reason hn
  have hMarked : (marked cfg m reason last nd).heap last.parent = some (coveredLast reason nd) :=
    Function.update_self ..
  have hOpen : (coveredLast reason nd).covered = false → nd.covered = false := by
    intro hCov
    obtain ⟨nd₀, hn₀, -, hMono⟩ := hMark _ _ hMarked
    obtain rfl := Option.some.inj (hn₀.symm.trans hn)
    by_contra hNot
    rw [hMono (by simpa using hNot)] at hCov
    cases hCov
  have hClosed : Closed cfg (marked cfg m reason last nd) m₁ → Keeps m m' := fun hC =>
    (hMark.trans (hC.keeps t₁)).trans (.of_heap hHeap)
  -- the execution has not ended with this node
  cases hEnds : endsWith m n with
  | none =>
    rw [Option.toList_none, List.append_nil]
    refine h.of_keeps ?_ hPtr hRoot t.wf
    rcases hCase with hRetry | ⟨_, hC⟩
    · -- another node is retried
      obtain ⟨scope, tried, th, var, hKind, _, rfl⟩ := hRetry.tried
      rw [coveredLast_kind] at hKind
      have hne : n ≠ last.parent := by
        rintro rfl
        have hSome : endsWith m last.parent = some ⟨scope, th⟩ :=
          endsWith_eq_some.mpr ⟨last, nd, tried, hLast, rfl, hn, hKind⟩
        rw [hEnds] at hSome
        cases hSome
      intro nd' hk
      refine hMark n nd' ?_
      rw [← hk, hHeap]
      exact (Function.update_of_ne hne ..).symm
    · exact hClosed hC n
  -- it has, and its selection has failed
  | some f =>
    obtain ⟨hOnce, ⟨var, hVar⟩, hIn⟩ := h.failed hEnds
    obtain ⟨last', nd', tried, hLast', hln, hn', hKind⟩ := endsWith_eq_some.mp hEnds
    obtain rfl := Option.some.inj (hLast.symm.trans hLast')
    subst hln
    obtain rfl := Option.some.inj (hn.symm.trans hn')
    refine ⟨hOnce, hIn, fun _ => hPtr ▸ t.wf.lt_next hn, ?_, ?_⟩
    · intro kd hk hCov g hg
      rcases hCase with hRetry | ⟨hWhy, hC⟩
      · obtain ⟨scope, tried', th, var', hKind', hVar', rfl⟩ := hRetry.tried
        rw [coveredLast_kind, hKind] at hKind'
        cases hKind'
        obtain rfl := Option.some.inj (hVar.symm.trans hVar')
        rw [hHeap, show ((marked cfg m reason last nd).setNode last.parent _).heap last.parent = _ from
          Function.update_self ..] at hk
        obtain rfl := Option.some.inj hk
        refine ⟨f.scope, Manager.insertVar tried var, some f.thread, ?_⟩
        -- an old failure, or the new one
        rcases List.mem_append.mp hg with hg | hg
        · obtain ⟨_, _, _, var₀, hKind₀, hVar₀, hMem⟩ := h.tried nd hn (hOpen hRetry.open_) g hg
          rw [hKind] at hKind₀
          cases hKind₀
          exact ⟨var₀, rfl, hVar₀, mem_insertVar.mpr (Or.inl hMem)⟩
        · obtain rfl := List.mem_singleton.mp hg
          exact ⟨var, rfl, hVar, mem_insertVar.mpr (Or.inr rfl)⟩
      · -- all threads have ended, and the node is covered
        exfalso
        have hCovered : (coveredLast reason nd).covered = true := by
          rcases hWhy with hCovered | hNot
          · exact hCovered
          · exact absurd hKind (hNot _ _ _)
        obtain ⟨kd₀, hk₀, -, hMono⟩ := ((hC.keeps t₁).trans (.of_heap hHeap)) _ kd hk
        obtain rfl := Option.some.inj (hMarked.symm.trans hk₀)
        rw [hMono hCovered] at hCov
        cases hCov
    · intro l hl hln
      rw [hRoot, List.mem_singleton] at hl
      subst hl
      -- the root is no EXISTS node
      exfalso
      obtain ⟨rd, hrd, hRootKind⟩ := t.wf.root
      rw [show ROOTNODE = last.parent from hln, hn] at hrd
      obtain rfl := Option.some.inj hrd
      rw [hKind] at hRootKind
      cases hRootKind

/-- The invariant of the runs. -/
structure Tracked (tid : Thread → Nat) (n : NodeId) (s : State) : Prop where
  tidy : Tidy s.mgr
  ledger : Ledger tid n s.mgr s.failures

/-- **Each step keeps the ledger**: an operation that returns, an execution that the main
thread ends, and one that a thread has ended. -/
theorem Tracked.step {s s' : State} {a : Action} (h : Tracked tid n s) (hOk : Stable tid n s a)
    (hStep : next cfg n s a = some s') : Tracked tid n s' := by
  simp only [next, Option.bind_eq_bind, Option.bind_eq_some_iff, Option.pure_def,
    Option.some.injEq] at hStep
  obtain ⟨m', hNext, rfl⟩ := hStep
  refine ⟨Interrupted.Tidy.next h.tidy hNext, ?_⟩
  obtain ⟨m, fs⟩ := s
  have t : Tidy m := h.tidy
  have hL : Ledger tid n m fs := h.ledger
  cases Interrupted.stepKeeps t hNext with
  | operation op env hStep =>
    show Ledger tid n m' (fs ++ [])
    rw [List.append_nil]
    refine hL.opStep t hStep fun _ _ => ?_
    -- only `EXISTS` lets threads evaluate the node, which is what the condition is about
    cases op with
    | existsThread scope => exact hOk
    | _ => trivial
  | @finish m₁ m₂ _ reason op env hInt hT hEnd hHeap hPtr hRoot =>
    have hFailure : failure m n (.finish op env) = endsWith m₁ n := by
      simp only [failure, hInt, Option.bind_eq_bind, Option.bind_some]
    show Ledger tid n m' (fs ++ (failure m n (.finish op env)).toList)
    rw [hFailure]
    exact (hL.thwarted t hT).finish (hT.tidy t) hEnd hHeap hPtr hRoot
  | ended op env late hT hKeep hPtr hRoot =>
    show Ledger tid n m' (fs ++ [])
    rw [List.append_nil]
    exact (hL.thwarted t hT).of_keeps (hKeep n) hPtr hRoot (hT.tidy t).wf

/-- **The ledger of the failed threads is right** in every run in which threads keep their
objects. -/
theorem tracked_reachable {nondet : StaticId → Bool} {numMembers : Nat} {s : State}
    (h : Runs.ReachableUnder (system cfg nondet numMembers n) (Stable tid n) s) : Tracked tid n s := by
  refine h.invariant (P := Tracked tid n) ?_ fun s a s' hT hOk hStep => hT.step hOk hStep
  rintro s rfl
  refine ⟨tidy_initial nondet numMembers, List.nodup_nil, fun _ hf => absurd hf List.not_mem_nil,
    fun hNil => absurd rfl hNil, fun _ _ _ _ hf => absurd hf List.not_mem_nil, ?_⟩
  intro l hl hln nd scope tried t hn hKind
  obtain rfl : l = ⟨ROOTNODE, 0⟩ := List.mem_singleton.mp hl
  obtain ⟨rd, hrd, hRootKind⟩ := (wellFormed_initial nondet numMembers).root
  obtain rfl : ROOTNODE = n := hln
  obtain rfl := Option.some.inj (hrd.symm.trans hn)
  rw [hRootKind] at hKind
  cases hKind

-- ---------------------------------------------------------------------------
-- Exhaustion
-- ---------------------------------------------------------------------------

/-- **The end of an execution at a pending EXISTS node** covers the node, or frees it. The
end node goes into its only slot, so that propagation finds it covered, or the node is
itself in the slot the end node goes into. -/
theorem Closed.pending (hC : Closed cfg m m') (t : Tidy m) {idx : Option Nat}
    (hNext : m.getNextNodeInStack = some (some n, idx)) (hn : m.heap n = some nd)
    (hKind : nd.kind = .existsThread scope tried lvar) (hn' : m'.heap n = some nd') :
    nd'.covered = true := by
  obtain ⟨m₂, loc, hE, hB⟩ := hC.closed
  have c := hE.complete t
  rcases t.next_cases hNext with ⟨l, hl, hEq, _⟩ | ⟨hEnd, _, last, pd, hLast, hp, ho⟩
  · -- the node is the lowest one of the path
    obtain rfl := Option.some.inj hEq
    have hLen : (m.nodeStack.take (m.stackIndex + 1)).length = m.stackIndex + 1 := by
      rw [List.length_take]
      have := (List.getElem?_eq_some_iff.mp hl).1
      omega
    have hAt : (m.nodeStack.take (m.stackIndex + 1))[m.stackIndex]? = some l := by
      rw [List.getElem?_take_of_lt (Nat.lt_succ_self _), hl]
    obtain ⟨mid, hi, hProp, hNe, hRest, hHeap⟩ := hB.heap_cases
    have hKeep : Keeps mid m' := by
      rcases hHeap with hSame | ⟨_, _, _, l, _, hCut⟩
      · exact .of_heap hSame
      · exact hCut.keeps (hProp.recolored.complete c).wf
    obtain ⟨md, hmd, hKindMid, hMono⟩ := hKeep _ nd' hn'
    -- the loop does not stop at a node with one child
    have hBelow : hi ≤ m.stackIndex := by
      by_contra hGt
      have hHi : hi = m.stackIndex + 1 := Nat.le_antisymm (hLen ▸ hProp.le) (Nat.lt_of_not_le hGt)
      obtain ⟨l', ld, hl', hld, -, hOpen⟩ := hProp.stops_at c (by omega)
      rw [hHi, Nat.add_sub_cancel, hAt] at hl'
      obtain rfl := Option.some.inj hl'
      obtain rfl := Option.some.inj (hmd.symm.trans hld)
      obtain ⟨nd₂, hn₂, hKind₂, -⟩ := hProp.recolored.keeps _ md hmd
      obtain ⟨nd₀, hn₀, hKind₀, -⟩ := hE.cut.keeps t.wf _ nd₂ hn₂
      obtain rfl := Option.some.inj (hn.symm.trans hn₀)
      have hExists : md.kind = .existsThread scope tried lvar := (hKind₂.trans hKind₀).trans hKind
      rw [hExists] at hOpen
      rcases hOpen with hChoice | ⟨_, _, _, hForall⟩
      · cases hChoice
      · cases hForall
    refine hMono ?_
    have hStackAt : m₂.nodeStack[m.stackIndex]? = some l := by
      rw [c.getElem? (by omega), hAt]
    have hCovered := hProp.covered hBelow (by omega) hStackAt
    rwa [isCovered_of_node hmd] at hCovered
  · -- the node hangs in the slot the end node is put in
    exfalso
    have hLoc : loc = last := by
      have hLoc := hE.last
      rw [List.take_of_length_le (by omega), hLast] at hLoc
      exact (Option.some.inj hLoc).symm
    subst hLoc
    have hEndNode : n ≠ ENDNODE := by
      rintro rfl
      obtain ⟨q, hEnd⟩ := t.wf.endNode
      obtain rfl := Option.some.inj (hn.symm.trans hEnd)
      cases hKind
    have hFreed := hE.cut.below n ⟨n, ⟨pd, hp, ho⟩, hEndNode, .refl⟩
    obtain ⟨nd₂, hn₂, -⟩ := hB.keeps c _ nd' hn'
    rw [hFreed] at hn₂
    cases hn₂

/-- When all threads have been tried, the node selects none: a thread that offered itself
would be one whose id has failed. -/
theorem Tracked.exhausted {s : State} (h : Tracked tid n s) {idx : Option Nat}
    (hNext : s.mgr.getNextNodeInStack = some (some n, idx))
    (hOk : Stable tid n s (.operation (.existsThread scope) env)) (hAll : AllTried tid s scope env)
    (m : Manager) (a : Answer) : s.mgr.dslOp (.existsThread scope) env ≠ some (m, .returns a) := by
  intro hOp
  have t := h.tidy
  cases dslOp_cases t hOp with
  | consumed n' nd m₂ i m' a hS hTakes hC =>
    obtain rfl : n' = n := by
      cases hS with
      | old idx' _ hNext' =>
        rw [hNext'] at hNext
        cases hNext
        rfl
      | new idx' hNext' =>
        rw [hNext'] at hNext
        cases hNext
    cases hTakes with
    | existsThread scope tried th hOffer hOrigin hKind hCand =>
      obtain ⟨th', hLvar, hOffer', ⟨var, hVar⟩, hFresh⟩ :=
        h.ledger.select hS (.existsThread scope tried th hOffer hOrigin hKind hCand) hKind hOk
      obtain ⟨f, hf, hTid⟩ := hAll _ hOffer' rfl (inScope_of_varFor hVar)
      exact hFresh f hf hTid

/-- The location consumed last is not the node an operation works on, since that one is
pending. -/
theorem thwarted_last (t : Tidy m) (hT : Interrupted.Thwarted m op env m₁)
    (hLast : m.getLastNodeInStack = some last) :
    m₁.getLastNodeInStack = some last ∧ m₁.heap last.parent = m.heap last.parent := by
  have hMem := Manager.last_mem_consumed hLast
  obtain ⟨why, hStep⟩ := hT
  cases hStep with
  | pending n nd m' why hS hGives =>
    obtain ⟨hStack, hIndex⟩ := hS.stack
    refine ⟨?_, hS.frame (hS.ne_consumed t hMem)⟩
    rw [Manager.getLastNodeInStack_eq_some] at hLast ⊢
    rwa [hStack, hIndex]
  | covered n nd idx hNext hn hKind hRule =>
    obtain ⟨k, hk, hl⟩ := Manager.mem_consumed.mp hMem
    exact ⟨hLast, Function.update_of_ne (t.next_ne_consumed hNext hk hl) ..⟩
  | idle => exact ⟨hLast, rfl⟩

/-- Flags do not matter for what is looked up next. -/
theorem recolored_next (hR : Recolored m m') : m'.getNextNodeInStack = m.getNextNodeInStack := by
  have hGet : ∀ l, m'.get l = m.get l := fun l => by
    unfold Manager.get
    rcases hn : m.heap l.parent with _ | nd
    · rw [hR.none _ hn]
    · obtain ⟨c, hc, _⟩ := hR.node _ nd hn
      rw [hc]
      rfl
  have hStack : m'.nodeStack = m.nodeStack := by rw [hR.rest]
  have hIndex : m'.stackIndex = m.stackIndex := by rw [hR.rest]
  unfold Manager.getNextNodeInStack
  rw [hStack, hIndex]
  simp only [hGet]

theorem thwarted_next (t : Tidy m) (hT : Interrupted.Thwarted m op env m₁) :
    m₁.getNextNodeInStack = m.getNextNodeInStack := by
  obtain ⟨why, hStep⟩ := hT
  cases hStep with
  | pending n nd m' why hS hGives => exact hS.next t
  | covered n nd idx hNext hn hKind hRule => exact recolored_next (.cover hn)
  | idle => rfl

/-- An EXISTS node stays one when an operation does not return. -/
theorem IsExists.thwarted (hE : IsExists m n) (t : Tidy m) (hT : Interrupted.Thwarted m op env m₁) :
    IsExists m₁ n := by
  obtain ⟨why, hStep⟩ := hT
  obtain ⟨nd, scope, tried, lvar, hn, hKind⟩ := hE
  obtain ⟨nd', hn'⟩ : ∃ nd', m₁.heap n = some nd' := by
    by_contra hNone
    have hNone : m₁.heap n = none := by
      rcases hn' : m₁.heap n with _ | nd'
      · rfl
      · exact absurd ⟨nd', hn'⟩ hNone
    rw [hStep.heap_none hNone] at hn
    cases hn
  rcases hStep.node_cases hn' with ⟨nd₀, hn₀, hSame, -⟩ | ⟨m₂, nd₀, hS, hSame, hW⟩
  · obtain rfl := Option.some.inj (hn.symm.trans hn₀)
    exact ⟨nd', scope, tried, lvar, hn', hSame.trans hKind⟩
  · obtain ⟨scope', lvar', hKind'⟩ := worksOn_exists t hS hn hKind hW
    exact ⟨nd', scope', tried, lvar', hn', hSame.trans hKind'⟩

/-- The node is still the EXISTS node after the marks of the end. -/
theorem IsExists.marked (hE : IsExists m n) (hn : m.heap last.parent = some nd) :
    IsExists (marked cfg m reason last nd) n := by
  obtain ⟨kd, scope, tried, lvar, hk, hKind⟩ := hE
  by_cases hkl : n = last.parent
  · subst hkl
    obtain rfl := Option.some.inj (hk.symm.trans hn)
    exact ⟨_, scope, tried, lvar, Function.update_self .., (coveredLast_kind _ _).trans hKind⟩
  · exact ⟨kd, scope, tried, lvar, (Function.update_of_ne hkl ..).trans hk, hKind⟩

/-- **The node is given up** by the end of an execution in which it selects no thread. The
location above it is not retried, by the hypothesis, so the path is closed at the node. -/
theorem Tracked.givenUp {s s' : State} (h : Tracked tid n s) {idx : Option Nat}
    (hNext : s.mgr.getNextNodeInStack = some (some n, idx)) (hExists : IsExists s.mgr n)
    (hOpen : ∀ last, s.mgr.getLastNodeInStack = some last → s.mgr.retriesExists last = false)
    (hStep : next cfg n s (.finish (.existsThread scope) env) = some s') {nd : Node}
    (hn : s'.mgr.heap n = some nd) : nd.covered = true := by
  obtain ⟨mgr, fs⟩ := s
  simp only [next, Option.bind_eq_bind, Option.bind_eq_some_iff, Option.pure_def,
    Option.some.injEq] at hStep
  obtain ⟨m', hStep, rfl⟩ := hStep
  have t : Tidy mgr := h.tidy
  cases Interrupted.stepKeeps t hStep with
  | @finish m₁ m₂ _ reason op env hInt hT hEnd hHeap hPtr hRoot =>
    have t₁ := hT.tidy t
    obtain ⟨last, ld, hLast, hl, hCase⟩ := endWithSuccess_cases t₁ hEnd
    obtain ⟨last₀, ld₀, hLast₀, _⟩ := t.last_exists
    obtain ⟨hLast', hSame⟩ := thwarted_last t hT hLast₀
    obtain rfl := Option.some.inj (hLast.symm.trans hLast')
    rcases hCase with hRetry | ⟨_, hC⟩
    · -- the node above is not retried
      exfalso
      obtain ⟨scope, tried, th, var, hKind, _⟩ := hRetry.tried
      rw [coveredLast_kind] at hKind
      have hNot : mgr.retriesExists last = false := hOpen last hLast₀
      have hUncov : ld.covered = false := by
        have hUncov := hRetry.open_
        unfold coveredLast at hUncov
        split at hUncov
        · cases hUncov
        · exact hUncov
      have hYes : mgr.retriesExists last = true :=
        (retriesExists_iff (hSame.symm.trans hl)).mpr ⟨hUncov, scope, tried, _, hKind⟩
      rw [hNot] at hYes
      cases hYes
    · have hExists₁ : IsExists m₁ n := IsExists.thwarted hExists t hT
      obtain ⟨kd, scope, tried, lvar, hk, hKind⟩ : IsExists (marked cfg m₁ reason last ld) n :=
        hExists₁.marked hl
      have hAt : (marked cfg m₁ reason last ld).getNextNodeInStack = some (some n, idx) := by
        rw [recolored_next (recolored_marked cfg reason hl)]
        exact (thwarted_next t hT).trans hNext
      exact Closed.pending hC (t₁.marked cfg reason hl) hAt hk hKind (hHeap ▸ hn)

/-- There are no more failures than threads in the scope. -/
theorem Ledger.bounded (h : Ledger tid n m fs) {ids : List Nat}
    (hIds : ∀ f ∈ fs, ∀ t, InScope f.scope t → tid t ∈ ids) : fs.length ≤ ids.length := by
  have hSub : (fs.map fun f => tid f.thread) ⊆ ids := by
    intro x hx
    obtain ⟨f, hf, rfl⟩ := List.mem_map.mp hx
    exact hIds f hf _ (h.inScope f hf)
  have hLe := (List.subperm_of_subset h.once hSub).length_le
  rwa [List.length_map] at hLe

/-- **Retries of EXISTS.** In every run, with any number of executions, in which a thread
that evaluates the node and has the id of a thread it has failed with is found under the
same variable: no thread id fails twice, there are at most as many failures as threads in
the scope, and when all have been tried the node selects none and is given up. -/
theorem retries_bounded {nondet : StaticId → Bool} {numMembers : Nat} {s : State}
    (h : Runs.ReachableUnder (system cfg nondet numMembers n) (Stable tid n) s) :
    Bounded cfg tid n s := by
  have hT := tracked_reachable h
  exact ⟨hT.ledger.once, fun _ => hT.ledger.bounded,
    fun _ _ _ hNext hOk hAll m a => hT.exhausted hNext hOk hAll m a,
    fun _ _ _ _ hNext hExists hOpen hStep _ hn => hT.givenUp hNext hExists hOpen hStep hn⟩

-- ---------------------------------------------------------------------------
-- Threads that are created again
-- ---------------------------------------------------------------------------

/-- The scope of `EXISTS(t)`. -/
def noScope : ThreadVarPtrSet := ⟨[], List.nodup_nil⟩

/-- An execution in which `EXISTS(t)` selects a thread and the next transition times out. -/
def failsWith (t : Thread) : List Action :=
  [.operation (.existsThread noScope) ⟨false, [⟨t, true⟩], true, false, false⟩,
    .finish .runThrough Interrupted.quiet]

/-- **A thread that is created again fails again**: the `Coroutine` objects 7 and 8 are
thread 1 of two executions. The set of tried threads knows objects, so thread 1 is not in it
in the second one. -/
theorem retries_recreated :
    ¬ ∀ cfg tid nondet numMembers n s,
      Runs.Reachable (system cfg nondet numMembers n) s → Bounded cfg tid n s := by
  intro hAll
  obtain ⟨s, hRun, hFailures⟩ : ∃ s, (failsWith 7 ++ failsWith 8).foldlM
      (next Interrupted.stackMode 2) ⟨Interrupted.fresh, []⟩ = some s ∧
        s.failures = [⟨noScope, 7⟩, ⟨noScope, 8⟩] := ⟨_, rfl, rfl⟩
  have hReach : Runs.Reachable (system Interrupted.stackMode (fun _ => false) 1 2) s :=
    Runs.reachable_foldlM (.init rfl) _ hRun
  have hOnce := (hAll _ (fun _ => 1) _ _ _ _ hReach).once
  rw [hFailures] at hOnce
  exact absurd hOnce (by decide)

/-- After thread 7 has failed, thread 8 is selected: there is one failure, and the bound is
the number of threads. -/
theorem retries_bounded_kept : ∃ s, Bounded Interrupted.stackMode id 2 s ∧
    s.failures = [⟨noScope, 7⟩] := by
  have hStart : Runs.ReachableUnder (system Interrupted.stackMode (fun _ => false) 1 2) (Stable id 2)
      ⟨Interrupted.fresh, []⟩ := .init rfl
  have hSelects := hStart.step (i := (failsWith 7)[0])
    (fun _ _ _ _ _ _ hf => absurd hf List.not_mem_nil) rfl
  have hFails := hSelects.step (i := (failsWith 7)[1]) trivial rfl
  have hOther := hFails.step (i := (failsWith 8)[0]) (fun _ _ o ho _ f hf hSame => by
    obtain rfl := List.mem_singleton.mp ho
    obtain rfl := List.mem_singleton.mp hf
    cases hSame) rfl
  exact ⟨_, retries_bounded hOther, rfl⟩

end Retries

end Concurrit.Model
