import Concurrit.Model.NodeSteps
import Concurrit.Model.Covering

/-!
# Concurrit — progress of FORALL

`ForallThreadNode::ComputeCoverage` counts children against the entries of the scope,
while `CheckAndSelectThread` looks a thread up among these entries: the two agree when the
entries are bound to pairwise different threads. `forall_progress` follows a FORALL node
through all executions: it is covered exactly when the subtree of each thread of its scope
is, and until then it selects one of these threads for a child that is not covered.
-/

namespace Concurrit.Model

open Function (update)
open Interrupted (Action interrupt noticeEnd)

namespace Scoped

variable {cfg : Cfg} {reason : BacktrackReason} {m m' m₁ m₂ x mid : Manager} {n e i j k : Nat}
  {nd nd' : Node} {scope scope₀ : ThreadVarPtrSet} {map map₀ : List ThreadVar} {lvar : Option Thread}
  {t : Thread} {l l' last loc : ChildLoc} {base stack : List ChildLoc} {op : Op} {env : Env}
  {r : OpResult} {a : Answer}

-- ---------------------------------------------------------------------------
-- The property
-- ---------------------------------------------------------------------------

/-- `n` is a FORALL node over a non-empty scope of bound thread variables. -/
structure ForallAt (m : Manager) (n : NodeId) (nd : Node) (scope : ThreadVarPtrSet)
    (map : List ThreadVar) : Prop where
  node : m.heap n = some nd
  kind : ∃ lvar, nd.kind = .forallThread scope map lvar
  nonempty : scope.vars ≠ []

/-- The child a FORALL node has for the thread. -/
def childFor (scope : ThreadVarPtrSet) (map : List ThreadVar) (t : Thread) : Option Nat :=
  (scope.varFor t).bind (Manager.childIndexOf map)

/-- The subtree of the thread is covered. -/
def SubtreeCovered (m : Manager) (nd : Node) (scope : ThreadVarPtrSet) (map : List ThreadVar)
    (t : Thread) : Prop := ∃ i, childFor scope map t = some i ∧ m.treeChildCovered nd i = true

/-- `CheckAndSelectThread` accepts the thread, whose predicate is true, for a child that
is not covered. -/
def Accepts (m : Manager) (n : NodeId) (t : Thread) (indexInStack : Option Nat) : Prop :=
  ∃ m' nd i, m.checkAndSelectForall n ⟨t, true⟩ indexInStack = some (m', some i) ∧
    m'.heap n = some nd ∧ m'.treeChildCovered nd i = false

/-- The node when it is submitted again: `Init` has cleared the selection. -/
def cleared (m : Manager) (n : NodeId) (nd : Node) (scope : ThreadVarPtrSet)
    (map : List ThreadVar) : Manager :=
  m.setNode n { nd with kind := .forallThread scope map none }

/-- The index is none, or the one recorded for the node. -/
def Recorded (m : Manager) (n : NodeId) (indexInStack : Option Nat) : Prop :=
  indexInStack = none ∨ ∃ l ∈ m.nodeStack, l.parent = n ∧ indexInStack = some l.childIndex

/-- The scope has the variables the pending FORALL node had before. -/
def SameVariables (m : Manager) (scope : ThreadVarPtrSet) : Prop :=
  ∀ n idx nd scope₀ map lvar, m.getNextNodeInStack = some (some n, idx) → m.heap n = some nd →
    nd.kind = .forallThread scope₀ map lvar →
      ∀ v, v ∈ scope.vars.map Prod.fst ↔ v ∈ scope₀.vars.map Prod.fst

/-- FORALL over variables bound to pairwise different threads, the same variables in each
execution. -/
def Proper (m : Manager) : Op → Prop
  | .forallThread scope => scope.threads.Nodup ∧ SameVariables m scope
  | _ => True

/-- FORALL nodes make progress. -/
structure Progresses (m : Manager) : Prop where
  /-- covered if and only if the subtree of every thread in the scope is -/
  covered : ∀ n nd scope map, ForallAt m n nd scope map →
    (nd.covered = true ↔ ∀ t ∈ scope.threads, SubtreeCovered m nd scope map t)
  /-- until then a thread of the scope is accepted -/
  accepts : ∀ n nd scope map, ForallAt m n nd scope map → nd.covered = false →
    ∀ idx, Recorded m n idx → ∃ t ∈ scope.threads, Accepts (cleared m n nd scope map) n t idx
  /-- also when it evaluates the node that the main thread submits next -/
  selects : ∀ scope m₁ n, scope.vars ≠ [] → Proper m (.forallThread scope) →
    m.submitForallThread scope = some (m₁, n) →
      ∃ t ∈ scope.threads, ∃ m₂ i, m₁.evalSelectThread n ⟨t, true⟩ = some (m₂, some i)

/-- The condition on the steps: FORALL is proper, and `THREADS_ALLENDED` does not come in the
middle of a replay of a thread selection nor behind a FORALL node with threads left to try. -/
def Steady (m : Manager) : Action → Prop
  | .operation op _ => Proper m op
  | .finish op env => Proper m op ∧
    ∀ m₁, interrupt m op env = some (m₁, .threadsAllEnded) → ∀ last nd,
      m.getLastNodeInStack = some last → m.heap last.parent = some nd →
        nd.kind.isSelectThread = true → m.stackIndex = m.nodeStack.length ∧
          ∀ scope map, ForallAt m last.parent nd scope map → ∀ t ∈ scope.threads,
            childFor scope map t = some last.childIndex ∨ SubtreeCovered m nd scope map t
  | .ended op _ _ _ => Proper m op

-- ---------------------------------------------------------------------------
-- Scopes
-- ---------------------------------------------------------------------------

theorem ForallAt.distinct (h : ForallAt m n nd scope map) (hNodup : scope.threads.Nodup) :
    scope.Distinct := ⟨h.nonempty, hNodup⟩

/-- The child of a thread is the one filed under its variable. -/
theorem childFor_eq_some (hD : scope.Distinct) :
    childFor scope map t = some i ↔ ∃ v, (v, t) ∈ scope.vars ∧ map.idxOf? (.bound v) = some i := by
  unfold childFor
  rw [Option.bind_eq_some_iff]
  constructor
  · rintro ⟨_, hVar, hIdx⟩
    obtain ⟨v, rfl, hv⟩ := (ThreadVarPtrSet.varFor_iff hD).mp hVar
    exact ⟨v, hv, hIdx⟩
  · rintro ⟨v, hv, hIdx⟩
    exact ⟨.bound v, (ThreadVarPtrSet.varFor_iff hD).mpr ⟨v, rfl, hv⟩, hIdx⟩

/-- In a list without repetitions each entry is found at its own index. -/
theorem idxOf?_of_nodup (hNodup : map.Nodup) {var : ThreadVar} (hi : map[i]? = some var) :
    map.idxOf? var = some i := by
  obtain ⟨hLt, rfl⟩ := List.getElem?_eq_some_iff.mp hi
  rw [List.idxOf?_eq_some_iff]
  refine ⟨hLt, rfl, fun k hk hEq => ?_⟩
  exact absurd ((List.Nodup.getElem_inj_iff hNodup).mp hEq) (Nat.ne_of_lt hk)

/-- A node has filed as many threads as its scope has, when it has filed all. -/
theorem Filed.length_eq (hF : Filed scope map)
    (hAll : ∀ v t, (v, t) ∈ scope.vars → ThreadVar.bound v ∈ map) : map.length = scope.size := by
  have hSub : map ⊆ scope.vars.map (fun p => ThreadVar.bound p.1) := by
    intro var hVar
    obtain ⟨v, t, rfl, hMem⟩ := hF.bound var hVar
    exact List.mem_map.mpr ⟨(v, t), hMem, rfl⟩
  have hNodup : (scope.vars.map fun p => ThreadVar.bound p.1).Nodup := by
    have h : ((scope.vars.map Prod.fst).map ThreadVar.bound).Nodup :=
      scope.nodup.map fun _ _ hEq => ThreadVar.bound.inj hEq
    rwa [List.map_map] at h
  have hLe := (List.subperm_of_subset hF.nodup hSub).length_le
  have hGe := (List.subperm_of_subset hNodup (by
    intro var hVar
    obtain ⟨⟨v, t⟩, hMem, rfl⟩ := List.mem_map.mp hVar
    exact hAll v t hMem)).length_le
  rw [List.length_map] at hLe hGe
  exact Nat.le_antisymm hLe hGe

/-- **Threads and children agree** in a node over a proper scope: each thread has a child
for which `P` holds if and only if there are as many children as scope entries, and `P`
holds for all of them. This is where the two ways in which the source counts, by threads in
`CheckAndSelectThread` and by children in `ComputeCoverage`, come together. -/
theorem forall_threads_iff (hD : scope.Distinct) (hF : Filed scope map) (P : Nat → Prop) :
    (∀ t ∈ scope.threads, ∃ i, childFor scope map t = some i ∧ P i) ↔
      map.length = scope.size ∧ ∀ j < map.length, P j := by
  constructor
  · intro hAll
    refine ⟨Filed.length_eq hF fun v t hv => ?_, fun j hj => ?_⟩
    · obtain ⟨i, hi, _⟩ := hAll t (ThreadVarPtrSet.mem_threads.mpr ⟨v, hv⟩)
      obtain ⟨v', hv', hIdx⟩ := (childFor_eq_some hD).mp hi
      obtain rfl : v' = v := Option.some.inj
        (((ThreadVarPtrSet.findByThread_iff hD).mpr hv').symm.trans
          ((ThreadVarPtrSet.findByThread_iff hD).mpr hv))
      obtain ⟨hLt, hAt, _⟩ := List.idxOf?_eq_some_iff.mp hIdx
      exact hAt ▸ List.getElem_mem hLt
    · obtain ⟨v, t, hVar, hv⟩ := hF.bound map[j] (List.getElem_mem hj)
      obtain ⟨i, hi, hP⟩ := hAll t (ThreadVarPtrSet.mem_threads.mpr ⟨v, hv⟩)
      have hOwn : childFor scope map t = some j := (childFor_eq_some hD).mpr
        ⟨v, hv, idxOf?_of_nodup hF.nodup (by rw [List.getElem?_eq_getElem hj, hVar])⟩
      rw [hOwn] at hi
      rwa [Option.some.inj hi]
  · rintro ⟨hLen, hAll⟩ t ht
    obtain ⟨v, hv⟩ := ThreadVarPtrSet.mem_threads.mp ht
    obtain ⟨i, hLt, hAt⟩ := List.getElem_of_mem (hF.mem_of_complete hLen hv)
    refine ⟨i, (childFor_eq_some hD).mpr ⟨v, hv, idxOf?_of_nodup hF.nodup ?_⟩, hAll i hLt⟩
    rw [List.getElem?_eq_getElem hLt, hAt]

-- ---------------------------------------------------------------------------
-- The invariant
-- ---------------------------------------------------------------------------

/-- What `ComputeCoverage` of a FORALL node over a non-empty scope asks for. -/
def AllCovered (m : Manager) (nd : Node) (scope : ThreadVarPtrSet) : Prop :=
  nd.children.length = scope.size ∧ ∀ j < nd.children.length, m.treeChildCovered nd j = true

/-- FORALL nodes are flagged as their rule says, and on the path they are followed by an
uncovered child or none. -/
structure Fair (m : Manager) (stack : List ChildLoc) : Prop where
  filed : ∀ n nd scope map, ForallAt m n nd scope map → scope.Distinct ∧ Filed scope map
  rule : ∀ n nd scope map, ForallAt m n nd scope map → (nd.covered = true ↔ AllCovered m nd scope)
  path : ∀ l ∈ stack, ∀ nd scope map, ForallAt m l.parent nd scope map →
    m.treeChildCovered nd l.childIndex = false

theorem coverageRule_iff_allCovered (h : ForallAt m n nd scope map) :
    m.coverageRule nd = true ↔ AllCovered m nd scope := by
  obtain ⟨lvar, hKind⟩ := h.kind
  have hSize : scope.size ≠ 0 := fun hZero => h.nonempty (List.length_eq_zero_iff.mp hZero)
  unfold Manager.coverageRule AllCovered
  simp only [hKind, hSize, if_false, Bool.and_eq_true, beq_iff_eq, childrenCovered_iff]

/-- Seen from the node `n`, a FORALL node of `m'`, nothing has changed. -/
def AlikeAt (m m' : Manager) (n : NodeId) : Prop :=
  ∀ nd' scope map, ForallAt m' n nd' scope map → ∃ nd, ForallAt m n nd scope map ∧
    nd'.covered = nd.covered ∧ nd'.children.length = nd.children.length ∧
      ∀ j, m'.treeChildCovered nd' j = m.treeChildCovered nd j

theorem AllCovered.congr (hLen : nd'.children.length = nd.children.length)
    (hTree : ∀ j, m'.treeChildCovered nd' j = m.treeChildCovered nd j) :
    AllCovered m' nd' scope ↔ AllCovered m nd scope := by
  unfold AllCovered
  simp only [hLen, hTree]

/-- A manager that looks the same from every node is fair too, along any part of the path. -/
theorem Fair.alike (hF : Fair m stack) (hAlike : ∀ n, AlikeAt m m' n) {stack' : List ChildLoc}
    (hSub : ∀ l ∈ stack', l ∈ stack) : Fair m' stack' := by
  refine ⟨fun n nd' scope map h' => ?_, fun n nd' scope map h' => ?_, fun l hl nd' scope map h' => ?_⟩
  · obtain ⟨nd, h, _⟩ := hAlike n nd' scope map h'
    exact hF.filed n nd scope map h
  · obtain ⟨nd, h, hCov, hLen, hTree⟩ := hAlike n nd' scope map h'
    rw [hCov, AllCovered.congr hLen hTree]
    exact hF.rule n nd scope map h
  · obtain ⟨nd, h, _, _, hTree⟩ := hAlike l.parent nd' scope map h'
    rw [hTree]
    exact hF.path l (hSub l hl) nd scope map h

theorem alikeAt_of_heap (hHeap : m'.heap = m.heap) (n : NodeId) : AlikeAt m m' n := by
  intro nd' scope map h
  refine ⟨nd', ⟨hHeap ▸ h.node, h.kind, h.nonempty⟩, rfl, rfl, fun j => ?_⟩
  unfold Manager.treeChildCovered Manager.isCovered
  rw [hHeap]

/-- Children are covered as far as they were, when the slot and the flag are the same. -/
theorem treeChildCovered_congr
    (hKids : ∀ c, nd'.children[j]? = some (some c) ↔ nd.children[j]? = some (some c))
    (hFlag : ∀ c, nd.children[j]? = some (some c) → m'.isCovered c = m.isCovered c) :
    m'.treeChildCovered nd' j = m.treeChildCovered nd j := by
  rw [Bool.eq_iff_iff, treeChildCovered_iff, treeChildCovered_iff]
  constructor
  · rintro ⟨c, hc, hCov⟩
    exact ⟨c, (hKids c).mp hc, hFlag c ((hKids c).mp hc) ▸ hCov⟩
  · rintro ⟨c, hc, hCov⟩
    exact ⟨c, (hKids c).mpr hc, (hFlag c hc).trans hCov⟩

/-- There is no child where the vector has none. -/
theorem not_treeChildCovered (hNone : ∀ c, nd.children[j]? ≠ some (some c)) :
    m.treeChildCovered nd j = false := by
  rw [Bool.eq_false_iff, ne_eq, treeChildCovered_iff]
  rintro ⟨c, hc, _⟩
  exact hNone c hc

-- ---------------------------------------------------------------------------
-- Operations
-- ---------------------------------------------------------------------------

/-- A FORALL node that an operation works on is over the scope of the operation, and has
filed threads of this scope, whether the operation returns a thread or gives up on the node.
-/
theorem worksOn_forall (hW : WorksOn m m₁ op env n nd r)
    (hKind : nd.kind = .forallThread scope map lvar) :
    op = .forallThread scope ∧ ∃ map₀, ForallOrigin m n map₀ ∧ MapGrown scope map₀ map := by
  cases r with
  | returns a =>
    -- an operation that returns has taken the child `i`; only `DSLForallThread` takes one
    -- of a FORALL node
    obtain ⟨i, hTakes⟩ := hW
    cases hTakes with
    | choice s i hChoice => simp [hKind, NodeKind.isChoice] at hChoice
    | conditional v hCond => simp [hKind] at hCond
    | runThrough hRun => simp [hKind] at hRun
    | runUntil hRun => simp [hKind] at hRun
    | forallThread scope map₀ map i t var _ hOrigin hForall hGrown =>
      rw [hKind] at hForall
      cases hForall
      exact ⟨rfl, map₀, hOrigin, hGrown⟩
    | existsThread scope tried t _ _ hExists => simp [hKind] at hExists
  | throws why =>
    have hG : GivesUp m env n nd op why := hW
    cases hG with
    | replayFails v hCond => simp [hKind, NodeKind.isConditional] at hCond
    | runThrough _ hRun => simp [hKind] at hRun
    | runUntil _ hRun => simp [hKind] at hRun
    | forallThread scope map₀ map hOrigin hForall hGrown =>
      rw [hKind] at hForall
      cases hForall
      exact ⟨rfl, map₀, hOrigin, hGrown⟩
    | existsThread scope tried _ hExists => simp [hKind] at hExists

/-- The node that is submitted: what it was before, as far as it is a FORALL node. -/
structure Resumes (m : Manager) (n : NodeId) (nd : Node) (scope : ThreadVarPtrSet)
    (map : List ThreadVar) : Prop where
  distinct : scope.Distinct
  filed : Filed scope map
  old : ∀ nd₀, m.heap n = some nd₀ → ∃ scope₀ map₀, ForallAt m n nd₀ scope₀ map₀ ∧
    scope.size = scope₀.size

theorem size_eq (hSame : ∀ v, v ∈ scope.vars.map Prod.fst ↔ v ∈ scope₀.vars.map Prod.fst) :
    scope.size = scope₀.size := by
  have hPerm := (List.perm_ext_iff_of_nodup scope.nodup scope₀.nodup).mpr hSame
  have hLen := hPerm.length_eq
  rwa [List.length_map, List.length_map] at hLen

/-- **FORALL over a proper scope goes on with the threads it has filed.** The scope may have
been bound anew since the last execution, but the condition has the same variables in it, so
what the node has filed for the old scope is filed for the new one as well. -/
theorem resumes (hF : Fair m stack) (t : Tidy m) (hS : Submitted m n nd m₁) (hOk : Proper m (.forallThread scope))
    (hOrigin : ForallOrigin m n map₀) (hGrown : MapGrown scope map₀ map) (hNe : scope.vars ≠ []) :
    Resumes m n nd scope map := by
  obtain ⟨hNodup, hSame⟩ := hOk
  have hD : scope.Distinct := ⟨hNe, hNodup⟩
  rcases hOrigin with ⟨nd₀, scope₀, lvar₀, hn₀, hKind₀⟩ | ⟨hNone, rfl⟩
  -- the node is in the stack: its old scope has the variables of the new one
  · obtain ⟨idx, hNext⟩ := hS.next_of_old t hn₀
    have hVars := hSame n idx nd₀ scope₀ map₀ lvar₀ hNext hn₀ hKind₀
    have hSize := size_eq hVars
    have hOld : ForallAt m n nd₀ scope₀ map₀ := ⟨hn₀, ⟨lvar₀, hKind₀⟩, fun hNil => hNe (by
      rw [ThreadVarPtrSet.size, ThreadVarPtrSet.size, hNil] at hSize
      exact List.length_eq_zero_iff.mp hSize)⟩
    have hFiled₀ := (hF.filed n nd₀ scope₀ map₀ hOld).2
    have hFiled : Filed scope map₀ := by
      refine ⟨hFiled₀.nodup, fun var hVar => ?_⟩
      obtain ⟨v, t, rfl, hv⟩ := hFiled₀.bound var hVar
      obtain ⟨⟨_, t'⟩, hMem, rfl⟩ := List.mem_map.mp
        ((hVars v).mpr (List.mem_map.mpr ⟨(v, t), hv, rfl⟩))
      exact ⟨_, t', rfl, hMem⟩
    refine ⟨hD, hGrown.filed hD hFiled, fun nd₁ hn₁ => ?_⟩
    obtain rfl := Option.some.inj (hn₀.symm.trans hn₁)
    exact ⟨scope₀, map₀, hOld, hSize⟩
  -- the node is new and has filed nothing
  · refine ⟨hD, hGrown.filed hD (filed_nil scope), fun nd₁ hn₁ => ?_⟩
    rw [hNone] at hn₁
    cases hn₁

/-- The slots that a submitted node had before count as they did. -/
theorem slots_of_submitted (hS : Submitted m n nd m₁) (t : Tidy m) {nd₀ : Node}
    (hn₀ : m.heap n = some nd₀) : nd₀.children.length ≤ nd.children.length ∧ nd₀.covered = false ∧
      ∀ j, m₁.treeChildCovered nd j = m.treeChildCovered nd₀ j := by
  cases hS with
  | old idx nd₁ _ hn₁ hOpen _ hGrow =>
    obtain rfl := Option.some.inj (hn₁.symm.trans hn₀)
    refine ⟨hGrow.length_le, hOpen, fun j => treeChildCovered_congr (hGrow.sameLinks.children j) ?_⟩
    exact fun c _ => isCovered_setNode_grow hn₁ hGrow.covered c
  | new _ _ hNew =>
    rw [t.wf.fresh n (Nat.le_of_eq hNew.symm)] at hn₀
    cases hn₀

/-- **A FORALL node that is submitted has something left to try.** A new node has children
without a subtree. An old one is not covered, since `GetNextNodeInStack` has returned it,
and by the coverage rule a node all of whose children are covered would be. -/
theorem not_allCovered (hF : Fair m stack) (t : Tidy m) (hS : Submitted m n nd m₁)
    (hR : Resumes m n nd scope map) : ¬ AllCovered m₁ nd scope := by
  intro hAll
  rcases hOld : m.heap n with _ | nd₀
  · -- a new node has no child
    have hKids : NoChildren nd := by
      cases hS with
      | old _ _ _ hn =>
        rw [hn] at hOld
        cases hOld
      | new _ _ _ _ _ hKids => exact hKids
    have hPos : 0 < nd.children.length := by
      rw [hAll.1]
      exact List.length_pos_of_ne_nil hR.distinct.nonempty
    have hNot := not_treeChildCovered (m := m₁) fun c => hKids 0 c
    rw [hAll.2 0 hPos] at hNot
    cases hNot
  -- an old node: a child that has been added is not covered, and without one the rule of
  -- the old node applies
  · obtain ⟨scope₀, map₀, h₀, hSize⟩ := hR.old nd₀ hOld
    obtain ⟨hLe, hOpen, hTree⟩ := slots_of_submitted hS t hOld
    have hLen : nd.children.length = nd₀.children.length := by
      by_contra hNe
      have hLt : nd₀.children.length < nd.children.length := by omega
      have hNot : m.treeChildCovered nd₀ nd₀.children.length = false :=
        not_treeChildCovered fun c hc => by simp at hc
      rw [← hTree, hAll.2 _ hLt] at hNot
      cases hNot
    have hCov := (hF.rule n nd₀ scope₀ map₀ h₀).mpr
      ((AllCovered.congr hLen hTree).mp ⟨hAll.1.trans hSize, hAll.2⟩)
    rw [hOpen] at hCov
    cases hCov

/-- **Submitting a node keeps FORALL nodes fair.** Only the submitted node changes; for it
the three parts of fairness follow from what it has filed and from its having something left
to try. -/
theorem Fair.submitted (hF : Fair m m.nodeStack) (t : Tidy m) (hS : Submitted m n nd m₁)
    (hResumes : ∀ scope map, ForallAt m₁ n nd scope map → Resumes m n nd scope map) :
    Fair m₁ m₁.nodeStack := by
  have hOther : ∀ k, k ≠ n → AlikeAt m m₁ k := by
    intro k hk kd' scope map h
    have hNode := h.node
    rw [hS.frame hk] at hNode
    exact ⟨kd', ⟨hNode, h.kind, h.nonempty⟩, rfl, rfl,
      fun j => treeChildCovered_congr (fun _ => Iff.rfl) fun c _ => hS.isCovered_eq t c⟩
  refine ⟨fun k kd scope map h => ?_, fun k kd scope map h => ?_, fun l hl kd scope map h => ?_⟩
  · by_cases hkn : k = n
    · subst hkn
      obtain rfl := Option.some.inj (h.node.symm.trans hS.node)
      exact ⟨(hResumes scope map h).distinct, (hResumes scope map h).filed⟩
    · obtain ⟨_, h₀, _⟩ := hOther k hkn kd scope map h
      exact hF.filed k _ scope map h₀
  · by_cases hkn : k = n
    · subst hkn
      obtain rfl := Option.some.inj (h.node.symm.trans hS.node)
      rw [hS.covered]
      exact ⟨nofun, fun hAll => absurd hAll (not_allCovered hF t hS (hResumes scope map h))⟩
    · obtain ⟨kd₀, h₀, hCov, hLen, hTree⟩ := hOther k hkn kd scope map h
      rw [hCov, AllCovered.congr hLen hTree]
      exact hF.rule k kd₀ scope map h₀
  · rw [hS.stack.1] at hl
    by_cases hln : l.parent = n
    · subst hln
      obtain rfl := Option.some.inj (h.node.symm.trans hS.node)
      obtain ⟨_, ld, hld, _⟩ := t.linked.valid l hl
      obtain ⟨scope₀, map₀, h₀, _⟩ := (hResumes scope map h).old ld hld
      rw [(slots_of_submitted hS t hld).2.2]
      exact hF.path l hl ld scope₀ map₀ h₀
    · obtain ⟨kd₀, h₀, _, _, hTree⟩ := hOther l.parent hln kd scope map h
      rw [hTree]
      exact hF.path l hl kd₀ scope map h₀

/-- Consuming a node fills at most an empty slot with it, while it is not covered. -/
theorem Consumed.alikeAt (hC : Consumed m n i m') (hOpen : m.isCovered n = false) (k : Nat) :
    AlikeAt m m' k := by
  intro kd' scope map h
  obtain ⟨kd, hkd, hKind, hCov⟩ := hC.heap_eq_some h.node
  obtain ⟨kd₁, hkd₁, _, _, hLen, hSlots⟩ := hC.keeps hkd
  obtain rfl := Option.some.inj (h.node.symm.trans hkd₁)
  refine ⟨kd, ⟨hkd, hKind ▸ h.kind, h.nonempty⟩, hCov, hLen, fun j => ?_⟩
  rcases hSlots j with hSame | ⟨hEmpty, hFilled⟩
  · exact treeChildCovered_congr (fun c => by rw [hSame]) fun c _ => hC.isCovered c
  · have hNot : m.treeChildCovered kd j = false := not_treeChildCovered fun c hc => by
      rw [hEmpty] at hc
      cases hc
    rw [hNot, Bool.eq_false_iff, ne_eq, treeChildCovered_iff]
    rintro ⟨c, hc, hCov⟩
    rw [hFilled] at hc
    obtain rfl := Option.some.inj (Option.some.inj hc)
    rw [hC.isCovered, hOpen] at hCov
    cases hCov

/-- A FORALL node is submitted under the condition of the operation. -/
theorem resumes_of_worksOn (hF : Fair m stack) (t : Tidy m) (hOk : Proper m op)
    (hS : Submitted m n nd m₁) (hW : WorksOn m m' op env n nd r) (scope : ThreadVarPtrSet)
    (map : List ThreadVar) (h : ForallAt m₁ n nd scope map) : Resumes m n nd scope map := by
  obtain ⟨lvar, hKind⟩ := h.kind
  obtain ⟨rfl, map₀, hOrigin, hGrown⟩ := worksOn_forall hW hKind
  exact resumes hF t hS hOk hOrigin hGrown h.nonempty

/-- **An operation that returns keeps FORALL nodes fair**: the child it consumes is not
covered, which is what the part of fairness about the path asks of the location that is new
on the stack. -/
theorem Fair.operation (hF : Fair m m.nodeStack) (t : Tidy m) (hOk : Proper m op)
    (hStep : OpStep m op env m' (.returns a)) : Fair m' m'.nodeStack := by
  cases hStep with
  | consumed n nd m₁ i m' a hS hTakes hC =>
    have hW : WorksOn m m₁ op env n nd (.returns a) := ⟨i, hTakes⟩
    have hF₁ := hF.submitted t hS (resumes_of_worksOn hF t hOk hS hW)
    have hAlike := Consumed.alikeAt hC hS.isCovered_self
    -- either the location was on the stack already, or it is pushed
    rcases hC.stack_cases with ⟨hSame, _⟩ | hPush
    · exact hF₁.alike hAlike fun l hl => hSame ▸ hl
    · have hOld : Fair m' m₁.nodeStack := hF₁.alike hAlike fun l hl => hl
      refine ⟨hOld.filed, hOld.rule, fun l hl ld scope map h => ?_⟩
      rw [hPush, List.mem_append, List.mem_singleton] at hl
      rcases hl with hl | rfl
      · exact hOld.path l hl ld scope map h
      -- the only new location: its child is the one that `CheckAndSelectThread` has chosen
      · obtain ⟨kd, hk, _, _, hTree⟩ := hAlike _ ld scope map h
        obtain rfl := Option.some.inj (hS.node.symm.trans hk.node)
        obtain ⟨lvar, hKind⟩ := hk.kind
        rw [hTree]
        cases hTakes with
        | forallThread _ _ _ _ _ _ _ _ _ _ _ hOpen => exact hOpen
        | choice s i hChoice => simp [hKind, NodeKind.isChoice] at hChoice
        | conditional v hCond => simp [hKind] at hCond
        | runThrough hRun => simp [hKind] at hRun
        | runUntil hRun => simp [hKind] at hRun
        | existsThread scope tried t _ _ hExists => simp [hKind] at hExists

-- ---------------------------------------------------------------------------
-- Inserting the end node
-- ---------------------------------------------------------------------------

/-- `x` is `m`, in which the flag of the node `e` may have been set. -/
structure Flagged (m x : Manager) (e : NodeId) : Prop where
  tidy : Tidy x
  stack : x.nodeStack = m.nodeStack
  node : ∀ n nd', x.heap n = some nd' →
    ∃ nd, m.heap n = some nd ∧ nd'.kind = nd.kind ∧ nd'.children = nd.children
  mono : ∀ n, m.isCovered n = true → x.isCovered n = true
  frame : ∀ n, n ≠ e → x.isCovered n = m.isCovered n

/-- What closing a path asks of FORALL nodes: off the path they are flagged as their rule
says, and on the path at most the lowest node may have been flagged. -/
structure Closable (m : Manager) (base : List ChildLoc) : Prop where
  complete : Complete m base
  filed : ∀ n nd scope map, ForallAt m n nd scope map → scope.Distinct ∧ Filed scope map
  ruled : ∀ n nd scope map, ForallAt m n nd scope map → nd.covered = true → AllCovered m nd scope
  off : ∀ n nd scope map, ForallAt m n nd scope map → (∀ l ∈ base, l.parent ≠ n) →
    AllCovered m nd scope → nd.covered = true
  path : ∀ j l l' nd scope map, base[j]? = some l → base[j + 1]? = some l' →
    ForallAt m l.parent nd scope map → m.isCovered l'.parent = true → j + 2 = base.length

/-- A node in the tree of `m` is a FORALL node there, too. -/
theorem Flagged.forallAt (hX : Flagged m x e) (h : ForallAt x n nd' scope map) :
    ∃ nd, ForallAt m n nd scope map ∧ nd'.children = nd.children := by
  obtain ⟨nd, hn, hKind, hKids⟩ := hX.node n nd' h.node
  exact ⟨nd, ⟨hn, hKind ▸ h.kind, h.nonempty⟩, hKids⟩

theorem Flagged.allCovered (hX : Flagged m x e) (hKids : nd'.children = nd.children)
    (hAll : AllCovered m nd scope) : AllCovered x nd' scope := by
  refine ⟨hKids ▸ hAll.1, fun j hj => ?_⟩
  obtain ⟨d, hd, hCov⟩ := treeChildCovered_iff.mp (hAll.2 j (hKids ▸ hj))
  exact treeChildCovered_iff.mpr ⟨d, hKids ▸ hd, hX.mono d hCov⟩

/-- A shortcut is seen from the node whose slot it overwrites only. -/
theorem Shortcut.alikeAt {next p : Nat} (hCut : Shortcut m.heap m'.heap p i)
    (wf : WellFormed m.heap next) (hnp : n ≠ p) : AlikeAt m m' n := by
  intro nd' scope map h
  obtain ⟨nd, hn, hKind, hCov⟩ := hCut.heap_eq_some wf h.node
  refine ⟨nd, ⟨hn, hKind ▸ h.kind, h.nonempty⟩, hCov, ?_, fun j => ?_⟩
  · rw [(hCut.wellFormed wf).shape h.node, wf.shape hn, hKind]
  · exact hCut.treeChildCovered_of_ne wf hn h.node fun hEq => hnp hEq.1

/-- The node above a node of a linked path is on the path, too. -/
theorem mem_of_slot (hL : Linked m.heap base) (wf : WellFormed m.heap m.next) (hl : l ∈ base)
    (hSlot : Slot m.heap n j l.parent) : ∃ l' ∈ base, l'.parent = n := by
  obtain ⟨k, hk, rfl⟩ := List.getElem_of_mem hl
  have hAt := List.getElem?_eq_getElem hk
  rcases k with _ | k
  · -- nothing leads to the root
    rw [← List.head?_eq_getElem?, hL.head] at hAt
    rw [← Option.some.inj hAt] at hSlot
    exact absurd rfl (wf.slot_ne_root hSlot)
  · have hPrev := List.getElem?_eq_getElem (Nat.lt_of_succ_lt hk)
    obtain ⟨hEq, _⟩ := wf.slot_unique hSlot (hL.slot hPrev hAt) (hL.validAt hAt).1
    exact ⟨_, List.getElem_mem _, hEq.symm⟩

/-- The node `e` that has been flagged is the lowest one of the path, or one below it; a
FORALL node that is the lowest one has been flagged with all its other children covered. -/
structure FlaggedLast (m x : Manager) (e : NodeId) (loc : ChildLoc) : Prop where
  flagged : Flagged m x e
  place : e = loc.parent ∨ Below x.heap loc.parent loc.childIndex e
  others : m.isCovered loc.parent = false → ∀ nd scope map, ForallAt x loc.parent nd scope map →
    nd.covered = true → nd.children.length = scope.size ∧
      ∀ j < nd.children.length, j ≠ loc.childIndex → x.treeChildCovered nd j = true

/-- **Inserting the end node**, after the lowest node may have been flagged.
`EndWithSuccess` and the end of a path by an exception both flag at most one node `e`, at
the end of the path or below it, before the end node cuts off what is there. A FORALL node
away from `e` and from the slot of the end node is as it was. -/
theorem Fair.closable (hF : Fair m m.nodeStack) (hLast : FlaggedLast m x e loc)
    (hE : Ended x m₂ loc) : Closable m₂ (x.nodeStack.take (x.stackIndex + 1)) := by
  obtain ⟨hX, hWhere, hOthers⟩ := hLast
  have t := hX.tidy
  have c := hE.complete t
  have hL : Linked x.heap (x.nodeStack.take (x.stackIndex + 1)) := t.linked.take (Nat.succ_pos _)
  have hOld : ∀ l ∈ x.nodeStack.take (x.stackIndex + 1), l ∈ m.nodeStack := fun l hl =>
    hX.stack ▸ List.mem_of_mem_take hl
  have hLoc : loc ∈ x.nodeStack.take (x.stackIndex + 1) := List.mem_of_getLast? hE.last
  have hNotBelow : ∀ {n nd}, m₂.heap n = some nd → ¬ Below x.heap loc.parent loc.childIndex n :=
    fun hn hBelow => by
      rw [hE.cut.below _ hBelow] at hn
      cases hn
  -- FORALL nodes of the new tree
  have hNode : ∀ {n nd' scope map}, ForallAt m₂ n nd' scope map →
      ∃ nd, ForallAt m n nd scope map := fun h => by
    obtain ⟨xd, hxd, hKind, _⟩ := hE.cut.heap_eq_some t.wf h.node
    obtain ⟨nd, hNd, _⟩ := hX.forallAt (⟨hxd, hKind ▸ h.kind, h.nonempty⟩ : ForallAt x _ xd _ _)
    exact ⟨nd, hNd⟩
  have hNe : ∀ {n nd}, m₂.heap n = some nd → n ≠ loc.parent → n ≠ e := fun hn hne hEq => by
    rcases hWhere with hAt | hBelow
    · exact hne (hEq.trans hAt)
    · exact hNotBelow hn (hEq ▸ hBelow)
  refine ⟨c, fun n nd scope map h => ?_, fun n nd' scope map h hCov => ?_,
    fun n nd' scope map h hOff hAll => ?_, fun j l l' nd' scope map hl hl' h hCov => ?_⟩
  -- what the nodes have filed
  · obtain ⟨nd₀, h₀⟩ := hNode h
    exact hF.filed n nd₀ scope map h₀
  -- a covered FORALL node has all children covered
  · by_cases hnl : n = loc.parent
    · subst hnl
      obtain ⟨xd, hxd, hKind, hCov'⟩ := hE.cut.heap_eq_some t.wf h.node
      have hx : ForallAt x loc.parent xd scope map := ⟨hxd, hKind ▸ h.kind, h.nonempty⟩
      have hLen' : nd'.children.length = xd.children.length := by
        rw [c.wf.shape h.node, t.wf.shape hxd, hKind]
      obtain ⟨hLen, hAll⟩ : xd.children.length = scope.size ∧
          ∀ j < xd.children.length, j ≠ loc.childIndex → x.treeChildCovered xd j = true := by
        -- it was covered before, or has just been flagged
        by_cases hBefore : m.isCovered loc.parent = true
        · obtain ⟨nd, hm, hKids⟩ := hX.forallAt hx
          rw [isCovered_of_node hm.node, hF.rule _ nd scope map hm] at hBefore
          obtain ⟨hSize, hAll⟩ := hX.allCovered hKids hBefore
          exact ⟨hSize, fun j hj _ => hAll j hj⟩
        · exact hOthers (by simpa using hBefore) xd scope map hx (hCov' ▸ hCov)
      refine ⟨hLen'.trans hLen, fun j hj => ?_⟩
      by_cases hj' : j = loc.childIndex
      · subst hj'
        exact hE.cut.treeChildCovered_at t.wf h.node
      · rw [hE.cut.treeChildCovered_of_ne t.wf hxd h.node fun hEq => hj' hEq.2]
        exact hAll j (hLen' ▸ hj) hj'
    · obtain ⟨xd, hx, hCov', hLen, hTree⟩ := Shortcut.alikeAt hE.cut t.wf hnl nd' scope map h
      rw [AllCovered.congr hLen hTree]
      obtain ⟨nd, hm, hKids⟩ := hX.forallAt hx
      have hFlag := hX.frame n (hNe h.node hnl)
      rw [isCovered_of_node hx.node, isCovered_of_node hm.node] at hFlag
      exact hX.allCovered hKids ((hF.rule n nd scope map hm).mp (by rw [← hFlag, ← hCov', hCov]))
  -- off the path the rule holds the other way, too
  · have hnl : n ≠ loc.parent := fun hEq => hOff loc hLoc hEq.symm
    obtain ⟨xd, hx, hCov', hLen, hTree⟩ := Shortcut.alikeAt hE.cut t.wf hnl nd' scope map h
    obtain ⟨nd, hm, hKids⟩ := hX.forallAt hx
    have hFlag := hX.frame n (hNe h.node hnl)
    rw [isCovered_of_node hx.node, isCovered_of_node hm.node] at hFlag
    rw [hCov', hFlag, hF.rule n nd scope map hm]
    rw [AllCovered.congr hLen hTree] at hAll
    refine (AllCovered.congr (by rw [hKids]) fun j => ?_).mp hAll
    -- no child of the node has been flagged
    refine treeChildCovered_congr (fun d => by rw [hKids]) fun d hd => hX.frame d fun hde => ?_
    have hSlot : Slot x.heap n j d := ⟨xd, hx.node, hKids ▸ hd⟩
    rcases hWhere with hAt | hBelow
    · obtain ⟨l', hl', hln⟩ := mem_of_slot hL t.wf hLoc (hAt ▸ hde ▸ hSlot)
      exact hOff l' hl' hln
    · exact child_not_below t.wf (hNotBelow h.node) (fun hEq => hnl hEq.1) hSlot (hde ▸ hBelow)
  -- a covered node on the path is the last one: above it the recorded child would be
  -- covered
  · have hLt := (List.getElem?_eq_some_iff.mp hl').1
    have hLastAt := hE.last
    rw [List.getLast?_eq_getElem?] at hLastAt
    by_contra hNotLast
    -- the child on the path has been flagged, or was covered before
    have hBefore := hL.parent_lt t.wf
      (show j + 1 < (x.nodeStack.take (x.stackIndex + 1)).length - 1 by omega) hl' hLastAt
    have hNot : ¬ Below x.heap loc.parent loc.childIndex l'.parent := fun hBelow =>
      absurd (t.wf.below_gt hBelow) (Nat.not_lt.mpr (Nat.le_of_lt hBefore))
    have hne : l'.parent ≠ e := by
      rintro rfl
      rcases hWhere with hAt | hBelow
      · exact absurd hAt (Nat.ne_of_lt hBefore)
      · exact hNot hBelow
    have hSame := (hE.cut.isCovered t.wf hNot).trans (hX.frame _ hne)
    obtain ⟨nd, hm⟩ := hNode h
    have hPath := hF.path l (hOld l (List.mem_of_getElem? hl)) nd scope map hm
    obtain ⟨xd, hxd, hd⟩ := hL.slot hl hl'
    obtain ⟨nd₁, hn₁, _, hKids⟩ := hX.node _ xd hxd
    obtain rfl := Option.some.inj (hn₁.symm.trans hm.node)
    have hYes : m.treeChildCovered nd₁ l.childIndex = true :=
      treeChildCovered_iff.mpr ⟨_, hKids ▸ hd, by rw [← hSame, hCov]⟩
    rw [hPath] at hYes
    cases hYes

-- ---------------------------------------------------------------------------
-- Backtracking
-- ---------------------------------------------------------------------------

section Backtrack

variable {hi : Nat}

theorem ForallAt.of_recolored (hR : Recolored m m') (h : ForallAt m' n nd' scope map) :
    ∃ nd, ForallAt m n nd scope map ∧ nd'.children = nd.children ∧
      (nd.covered = true → nd'.covered = true) := by
  obtain ⟨nd, hn, hKind, hKids, _, hCov⟩ := hR.heap_eq_some h.node
  exact ⟨nd, ⟨hn, hKind ▸ h.kind, h.nonempty⟩, hKids, hCov⟩

/-- Propagation covers FORALL nodes by their rule. -/
theorem Closable.ruled_mid (hC : Closable m base) (hP : Propagated m.nodeStack m base.length mid hi)
    (h : ForallAt mid n nd scope map) (hCov : nd.covered = true) : AllCovered mid nd scope := by
  have hRuled : Ruled m fun k => ∃ kd scope map, ForallAt m k kd scope map := by
    rintro k kd ⟨kd', scope, map, hk⟩ hkd hCov
    obtain rfl := Option.some.inj (hkd.symm.trans hk.node)
    exact (coverageRule_iff_allCovered hk).mpr (hC.ruled k kd scope map hk hCov)
  obtain ⟨nd₀, h₀, _⟩ := h.of_recolored hP.recolored
  exact (coverageRule_iff_allCovered h).mp
    (hP.ruled hC.complete.wf hRuled n nd ⟨nd₀, scope, map, h₀⟩ h.node hCov)

/-- Above the place where the loop stops, the child of a FORALL node on the path is not
covered. -/
theorem Closable.open_above (hC : Closable m base)
    (hP : Propagated m.nodeStack m base.length mid hi) (hj : j + 1 < hi) (hl : base[j]? = some l)
    (h : ForallAt mid l.parent nd scope map) : mid.treeChildCovered nd l.childIndex = false := by
  have c := hC.complete
  have hLe := hP.le
  have hl' : base[j + 1]? = some base[j + 1] := List.getElem?_eq_getElem (by omega)
  obtain ⟨nd₀, h₀, hKids, _⟩ := h.of_recolored hP.recolored
  obtain ⟨nd₁, hn₁, hd⟩ := c.linked.slot hl hl'
  obtain rfl := Option.some.inj (hn₁.symm.trans h₀.node)
  rw [Bool.eq_false_iff, ne_eq, treeChildCovered_iff]
  rintro ⟨d, hd', hCov⟩
  rw [hKids, hd] at hd'
  obtain rfl := Option.some.inj (Option.some.inj hd')
  -- a node above that place has not been touched
  have hSame : mid.isCovered base[j + 1].parent = m.isCovered base[j + 1].parent := by
    unfold Manager.isCovered
    rw [hP.frame fun i l hi hiLen hl => ?_]
    rw [c.getElem? hiLen] at hl
    exact Nat.ne_of_gt (c.linked.parent_lt c.wf (Nat.lt_of_lt_of_le hj hi) hl' hl)
  rw [hSame] at hCov
  have hLen := hC.path j l _ _ scope map hl hl' h₀ hCov
  -- only the lowest node may be covered, and there the loop goes on
  obtain ⟨l₂, nd₂, hl₂, hn₂, hOpen, _⟩ := hP.uncovered (by omega)
  rw [c.getElem? (by omega), show hi - 1 = j + 1 from by omega, hl'] at hl₂
  obtain rfl := Option.some.inj hl₂
  rw [← hSame, isCovered_of_node hn₂, hOpen] at hCov
  cases hCov

/-- **Propagation leaves FORALL nodes fair**, along the path above the place where it stops.
The loop of `DoBacktrack` recomputes the coverage from the end of the path upwards and stops
at the first node that is not covered, so the nodes above have an uncovered child on the
path, and those below are flagged as the rule says. -/
theorem Closable.fair_mid (hC : Closable m base) (hP : Propagated m.nodeStack m base.length mid hi) :
    Fair mid (base.take (hi - 1)) := by
  have c := hC.complete
  have hLe := hP.le
  refine ⟨fun n nd scope map h => ?_, fun n nd scope map h => ⟨hC.ruled_mid hP h, fun hAll => ?_⟩,
    fun l hl nd scope map h => ?_⟩
  · obtain ⟨nd₀, h₀, _⟩ := h.of_recolored hP.recolored
    exact hC.filed n nd₀ scope map h₀
  · obtain ⟨nd₀, h₀, hKids, _⟩ := h.of_recolored hP.recolored
    by_cases hOn : ∃ l ∈ base, l.parent = n
    · obtain ⟨l, hl, rfl⟩ := hOn
      obtain ⟨j, hj, rfl⟩ := List.getElem_of_mem hl
      have hAt := List.getElem?_eq_getElem hj
      rcases Nat.lt_or_ge j hi with hLt | hGe
      · exfalso
        rcases Nat.lt_or_eq_of_le (Nat.le_sub_one_of_lt hLt) with hAbove | rfl
        · -- its child on the path is not covered
          have hOpen := hC.open_above hP (by omega) hAt h
          obtain ⟨_, ld, hld, hlt⟩ := c.linked.validAt hAt
          obtain rfl := Option.some.inj (hld.symm.trans h₀.node)
          rw [hAll.2 _ (hKids ▸ hlt)] at hOpen
          cases hOpen
        · -- here the loop has stopped
          obtain ⟨l', nd', hl', hn', _, hRule⟩ := hP.uncovered (by omega)
          rw [c.getElem? hj, hAt] at hl'
          obtain rfl := Option.some.inj hl'
          obtain rfl := Option.some.inj (hn'.symm.trans h.node)
          rw [(coverageRule_iff_allCovered h).mpr hAll] at hRule
          cases hRule
      · have hCov := hP.covered hGe hj (by rw [c.getElem? hj, hAt])
        rwa [isCovered_of_node h.node] at hCov
    · -- off the path nothing has changed
      have hOff : ∀ l ∈ base, l.parent ≠ n := fun l hl hln => hOn ⟨l, hl, hln⟩
      have hFrame : ∀ k, (∀ l ∈ base, l.parent ≠ k) → mid.heap k = m.heap k := fun k hk =>
        hP.frame fun j l _ hj hl => hk l (List.mem_of_getElem? (c.getElem? hj ▸ hl))
      have hSame := hFrame n hOff
      rw [h.node, h₀.node] at hSame
      obtain rfl := Option.some.inj hSame
      refine hC.off n nd scope map h₀ hOff ((AllCovered.congr rfl fun j => ?_).mp hAll)
      refine treeChildCovered_congr (fun _ => Iff.rfl) fun d hd => ?_
      unfold Manager.isCovered
      rw [hFrame d fun l hl hld => ?_]
      have hSlot : Slot m.heap n j l.parent := ⟨nd, h₀.node, by rw [hld, hd]⟩
      obtain ⟨l', hl', hln⟩ := mem_of_slot c.linked c.wf hl hSlot
      exact hOff l' hl' hln
  · obtain ⟨j, hj, rfl⟩ := List.getElem_of_mem hl
    rw [List.length_take] at hj
    rw [List.getElem_take] at h ⊢
    exact hC.open_above hP (by omega) (List.getElem?_eq_getElem (by omega)) h

/-- **Backtracking leaves FORALL nodes fair.** What `DoBacktrack` does after propagation,
deleting a covered subtree, puts the covered end node into the place of a covered node and
is not seen by the nodes above. -/
theorem Closable.fair (hC : Closable m base) (hB : Backtracked cfg m base m') :
    Fair m' m'.nodeStack := by
  have c := hC.complete
  obtain ⟨mid, hi, hP, _, hRest, hHeap⟩ := hB.heap_cases
  have hLe := hP.le
  have c' := hP.recolored.complete c
  have hMid := hC.fair_mid hP
  have hSub : ∀ l ∈ m'.nodeStack, l ∈ base.take (hi - 1) := fun l hl => by
    rw [hRest] at hl
    have hl : l ∈ m.nodeStack.take (hi - 1) := hl
    rwa [c.stack, List.take_append_of_le_length (by omega)] at hl
  refine hMid.alike (fun n => ?_) hSub
  rcases hHeap with hSame | ⟨hPos, _, _, l, hl, hCut⟩
  · exact alikeAt_of_heap hSame n
  · -- the slot that is shortcut held a covered node
    obtain ⟨top, hTop, hCov⟩ := hP.at_hi c
    have hSlot : Slot mid.heap l.parent l.childIndex top.parent := by
      refine c'.slot hl ?_
      rw [hP.recolored.rest, Nat.sub_add_cancel hPos]
      exact hTop
    intro nd' scope map h
    obtain ⟨nd, hn, hKind, hCov'⟩ := hCut.heap_eq_some c'.wf h.node
    refine ⟨nd, ⟨hn, hKind ▸ h.kind, h.nonempty⟩, hCov', ?_, fun j => ?_⟩
    · rw [(hCut.wellFormed c'.wf).shape h.node, c'.wf.shape hn, hKind]
    · exact hCut.treeChildCovered c'.wf hSlot hCov hn h.node

end Backtrack

-- ---------------------------------------------------------------------------
-- Ends of executions
-- ---------------------------------------------------------------------------

/-- **Closing a path leaves FORALL nodes fair.** -/
theorem Fair.closed (hF : Fair m m.nodeStack)
    (hLast : ∀ loc, (x.nodeStack.take (x.stackIndex + 1)).getLast? = some loc →
      ∃ e, FlaggedLast m x e loc) (hC : Closed cfg x m') : Fair m' m'.nodeStack := by
  obtain ⟨m₂, loc, hE, hB⟩ := hC.closed
  obtain ⟨e, hLast⟩ := hLast loc hE.last
  exact (hF.closable hLast hE).fair hB

/-- Nothing has been flagged. -/
theorem flaggedLast_of_heap (t : Tidy x) (hHeap : x.heap = m.heap) (hStack : x.nodeStack = m.nodeStack)
    (loc : ChildLoc) : FlaggedLast m x loc.parent loc := by
  have hFlags : ∀ n, x.isCovered n = m.isCovered n := fun n => by
    unfold Manager.isCovered
    rw [hHeap]
  refine ⟨⟨t, hStack, fun n nd' hn => ⟨nd', hHeap ▸ hn, rfl, rfl⟩, fun n hn => (hFlags n).trans hn,
    fun n _ => hFlags n⟩, Or.inl rfl, fun hOpen nd scope map h hCov => ?_⟩
  rw [← hFlags, isCovered_of_node h.node, hCov] at hOpen
  cases hOpen

/-- The node an operation works on hangs below the location consumed last. -/
theorem slot_of_next (t : Tidy m) {idx : Option Nat} (hNext : m.getNextNodeInStack = some (some n, idx)) :
    ∃ last, m.getLastNodeInStack = some last ∧ Slot m.heap last.parent last.childIndex n := by
  rcases t.next_cases hNext with ⟨l, hl, hEq, _⟩ | ⟨hEnd, _, last, pd, hLast, hp, ho⟩
  · obtain rfl := Option.some.inj hEq
    exact t.last_recorded hl
  · exact ⟨last, t.last_at_end hEnd hLast, pd, hp, ho⟩

/-- A choice that has been found covered is the lowest node of the path, or right below it.
`DSLChoice` throws there, so that nothing is consumed between the check and the end node. -/
theorem flaggedLast_of_next (t : Tidy m) {idx : Option Nat}
    (hNext : m.getNextNodeInStack = some (some n, idx)) (hn : m.heap n = some nd)
    (hKind : nd.kind.isChoice = true ∨ nd.kind.isConditional = true) (t' : Tidy x)
    (hHeap : x.heap = (m.setNode n { nd with covered := true }).heap)
    (hStack : x.nodeStack = m.nodeStack) (hIndex : x.stackIndex = m.stackIndex)
    (hLoc : (x.nodeStack.take (x.stackIndex + 1)).getLast? = some loc) :
    FlaggedLast m x n loc := by
  have hR := Recolored.cover hn
  have hFlags : ∀ k, x.isCovered k = (m.setNode n { nd with covered := true }).isCovered k := fun k => by
    unfold Manager.isCovered
    rw [hHeap]
  have hX : Flagged m x n := by
    refine ⟨t', hStack, fun k kd' hk => ?_, fun k hk => ?_, fun k hkn => ?_⟩
    · rw [hHeap] at hk
      obtain ⟨kd, hkd, hSame, hKids, _⟩ := hR.heap_eq_some hk
      exact ⟨kd, hkd, hSame, hKids⟩
    · rw [hFlags]
      exact hR.isCovered hk
    · rw [hFlags, isCovered_setNode_of_ne hkn]
  have hEnd : n ≠ ENDNODE := ne_end_of_kind t.wf hn fun hk => by
    rcases hKind with h | h <;> simp [hk, NodeKind.isChoice, NodeKind.isConditional] at h
  have hPlace : n = loc.parent ∨ Below x.heap loc.parent loc.childIndex n := by
    rw [hStack, hIndex] at hLoc
    -- the choice is recorded in the stack, or it is the child of the last location
    rcases t.next_cases hNext with ⟨l, hl, hEq, _⟩ | ⟨hAtEnd, _, last, pd, hLast, hp, ho⟩
    · have hLt := (List.getElem?_eq_some_iff.mp hl).1
      rw [List.getLast?_eq_getElem?, List.length_take, Nat.min_eq_left hLt, Nat.succ_sub_one,
        List.getElem?_take_of_lt (Nat.lt_succ_self _), hl] at hLoc
      obtain rfl := Option.some.inj hLoc
      exact Or.inl (Option.some.inj hEq)
    · rw [List.take_of_length_le (by omega), hLast] at hLoc
      obtain rfl := Option.some.inj hLoc
      have hSlot : Slot x.heap last.parent last.childIndex n := by
        rw [hHeap, hR.slot_iff]
        exact ⟨pd, hp, ho⟩
      exact Or.inr ⟨n, hSlot, hEnd, .refl⟩
  refine ⟨hX, hPlace, fun hOpen kd scope map h hCov => ?_⟩
  -- the lowest node is no FORALL node, or has not been flagged
  exfalso
  by_cases hEq : loc.parent = n
  · obtain ⟨kd₀, h₀, _⟩ := hX.forallAt h
    obtain ⟨lvar, hForall⟩ := h₀.kind
    obtain rfl := Option.some.inj ((hEq ▸ h₀.node).symm.trans hn)
    simp [hForall, NodeKind.isChoice, NodeKind.isConditional] at hKind
  · rw [← hX.frame _ hEq, isCovered_of_node h.node, hCov] at hOpen
    cases hOpen

/-- A thread selection flagged at the end of the path. With all threads ended no further
thread arrives at it, and the condition has its other threads covered. -/
theorem flaggedLast_of_marked (t : Tidy m) (hLast : m.getLastNodeInStack = some last)
    (hEnd : m.stackIndex = m.nodeStack.length) (hn : m.heap last.parent = some nd)
    (hOthers : ∀ scope map, ForallAt m last.parent nd scope map → nd.children.length = scope.size ∧
      ∀ j < nd.children.length, j ≠ last.childIndex → m.treeChildCovered nd j = true)
    (hLoc : ((marked cfg m reason last nd).nodeStack.take
      ((marked cfg m reason last nd).stackIndex + 1)).getLast? = some loc) :
    FlaggedLast m (marked cfg m reason last nd) last.parent loc := by
  have hLoc : (m.nodeStack.take (m.stackIndex + 1)).getLast? = some loc := hLoc
  obtain rfl : loc = last := by
    obtain ⟨_, hAt⟩ := Manager.getLastNodeInStack_eq_some.mp hLast
    rw [List.take_of_length_le (by omega), List.getLast?_eq_getElem?, ← hEnd, hAt] at hLoc
    exact (Option.some.inj hLoc).symm
  have hR := recolored_marked cfg reason hn
  have hX : Flagged m (marked cfg m reason loc nd) loc.parent := by
    refine ⟨t.marked cfg reason hn, rfl, fun k kd' hk => ?_, fun k hk => hR.isCovered hk,
      fun k hk => ?_⟩
    · obtain ⟨kd, hkd, hSame, hKids, _⟩ := hR.heap_eq_some hk
      exact ⟨kd, hkd, hSame, hKids⟩
    · unfold Manager.isCovered
      rw [show (marked cfg m reason loc nd).heap k = m.heap k from Function.update_of_ne hk ..]
  refine ⟨hX, Or.inl rfl, fun _ kd scope map h _ => ?_⟩
  obtain ⟨kd₀, h₀, hKids⟩ := hX.forallAt h
  obtain rfl := Option.some.inj (h₀.node.symm.trans hn)
  obtain ⟨hLen, hAll⟩ := hOthers scope map h₀
  refine ⟨hKids ▸ hLen, fun j hj hne => ?_⟩
  obtain ⟨d, hd, hCov⟩ := treeChildCovered_iff.mp (hAll j (hKids ▸ hj) hne)
  exact treeChildCovered_iff.mpr ⟨d, hKids ▸ hd, hX.mono d hCov⟩

/-- What an operation that does not return leaves behind. -/
theorem interrupt_cases (t : Tidy m) (hOp : interrupt m op env = some (m₁, reason)) :
    ∃ why, OpStep m op env m₁ (.throws why) ∧
      (reason = why ∨ (why = .timeout ∧ reason = .threadsAllEnded)) := by
  unfold Interrupted.interrupt at hOp
  split at hOp
  · rename_i m₂ why hDsl
    obtain ⟨rfl, rfl⟩ := Prod.mk.inj (Option.some.inj hOp)
    refine ⟨why, dslOp_cases t hDsl, ?_⟩
    split
    · rename_i hLate
      exact Or.inr ⟨hLate.1, rfl⟩
    · exact Or.inl rfl
  · cases hOp

/-- The operation has left FORALL nodes fair. -/
structure Undisturbed (m m₁ : Manager) : Prop where
  fair : Fair m₁ m₁.nodeStack
  stack : m₁.nodeStack = m.nodeStack
  index : m₁.stackIndex = m.stackIndex
  flags : ∀ k, m₁.isCovered k = m.isCovered k

/-- The operation has found a choice covered. -/
structure FoundCovered (m m₁ : Manager) (reason : BacktrackReason) (n : NodeId) (nd : Node) : Prop where
  reason : reason = .treeNodeCovered
  next : ∃ idx, m.getNextNodeInStack = some (some n, idx)
  node : m.heap n = some nd
  kind : nd.kind.isChoice = true ∨ nd.kind.isConditional = true
  state : m₁ = m.setNode n { nd with covered := true }

theorem FoundCovered.nodeStack_eq (hC : FoundCovered m m₁ reason n nd) : m₁.nodeStack = m.nodeStack := by
  rw [hC.state]
  rfl

theorem FoundCovered.stackIndex_eq (hC : FoundCovered m m₁ reason n nd) : m₁.stackIndex = m.stackIndex := by
  rw [hC.state]
  rfl

/-- An operation that does not return leaves FORALL nodes fair: it has changed nothing that
counts, or it has found a choice covered and flagged it. -/
theorem Fair.interrupt (hF : Fair m m.nodeStack) (t : Tidy m) (hOk : Proper m op)
    (hOp : interrupt m op env = some (m₁, reason)) :
    Undisturbed m m₁ ∨ ∃ n nd, FoundCovered m m₁ reason n nd := by
  obtain ⟨why, hStep, hWhy⟩ := interrupt_cases t hOp
  cases hStep with
  | pending n nd _ _ hS hGives =>
    obtain ⟨hStack, hIndex⟩ := hS.stack
    have hW : WorksOn m m₁ op env n nd (.throws why) := hGives
    exact Or.inl ⟨hF.submitted t hS (resumes_of_worksOn hF t hOk hS hW), hStack, hIndex,
      hS.isCovered_eq t⟩
  | covered n nd idx hNext hn hKind hRule =>
    refine Or.inr ⟨n, nd, ?_, ⟨idx, hNext⟩, hn, hKind, rfl⟩
    rcases hWhy with rfl | ⟨hNot, _⟩
    · rfl
    · cases hNot
  | idle _ hIdle => exact Or.inl ⟨hF, rfl, rfl, fun _ => rfl⟩

/-- Below an EXISTS node no FORALL node sees that a choice has been found covered: the
choice is in the slot of the EXISTS node, and no node has two parents. -/
theorem FoundCovered.alikeAt (hC : FoundCovered m m₁ reason n nd) (t : Tidy m)
    (hLast : m.getLastNodeInStack = some last) {ld : Node} (hl : m.heap last.parent = some ld)
    (hExists : ∀ scope map lvar, ld.kind ≠ .forallThread scope map lvar) (k : Nat) :
    AlikeAt m m₁ k := by
  intro kd' scope map h
  obtain ⟨idx, hNext⟩ := hC.next
  have hn := hC.node
  obtain rfl := hC.state
  have hkn : k ≠ n := by
    rintro rfl
    obtain ⟨lvar, hForall⟩ := h.kind
    obtain rfl := Option.some.inj (h.node.symm.trans (Function.update_self ..))
    have hKind := hC.kind
    simp [show nd.kind = _ from hForall, NodeKind.isChoice, NodeKind.isConditional] at hKind
  have hk : m.heap k = some kd' := by
    have hNode := h.node
    rwa [show (m.setNode n { nd with covered := true }).heap k = m.heap k from
      Function.update_of_ne hkn ..] at hNode
  refine ⟨kd', ⟨hk, h.kind, h.nonempty⟩, rfl, rfl, fun j =>
    treeChildCovered_congr (fun _ => Iff.rfl) fun d hd => isCovered_setNode_of_ne fun hdn => ?_⟩
  -- the node above the choice is the EXISTS node
  obtain ⟨last', hLast', hSlot⟩ := slot_of_next t hNext
  obtain rfl := Option.some.inj (hLast'.symm.trans hLast)
  have hEnd : n ≠ ENDNODE := ne_end_of_kind t.wf hn fun hEq => by
    have hKind := hC.kind
    simp [hEq, NodeKind.isChoice, NodeKind.isConditional] at hKind
  obtain ⟨rfl, _⟩ := t.wf.slot_unique ⟨kd', hk, hd⟩ (hdn ▸ hSlot) (hdn ▸ hEnd)
  obtain rfl := Option.some.inj (hk.symm.trans hl)
  obtain ⟨lvar, hForall⟩ := h.kind
  exact hExists _ _ _ hForall

/-- Marking without a flag leaves the tree as it is. -/
theorem marked_heap (hn : m.heap last.parent = some nd) (hSame : coveredLast reason nd = nd) :
    (marked cfg m reason last nd).heap = m.heap := by
  show update m.heap last.parent (some (coveredLast reason nd)) = m.heap
  rw [hSame, ← hn, Function.update_eq_self]

/-- **A retry leaves FORALL nodes fair.** -/
theorem Fair.retried (hF : Fair m m.nodeStack) (hRetry : Retried x m' last nd)
    (hHeap : x.heap = m.heap) (hStack : x.nodeStack = m.nodeStack) : Fair m' m'.nodeStack := by
  obtain ⟨scope, tried, th, var, hKind, _, rfl⟩ := hRetry.tried
  refine hF.alike (fun k kd' scope' map h => ?_) fun l hl => hStack ▸ hl
  have hkl : k ≠ last.parent := by
    rintro rfl
    obtain ⟨lvar, hForall⟩ := h.kind
    obtain rfl := Option.some.inj (h.node.symm.trans (Function.update_self ..))
    cases hForall
  have hk : x.heap k = some kd' := (Function.update_of_ne hkl ..).symm.trans h.node
  refine ⟨kd', ⟨hHeap ▸ hk, h.kind, h.nonempty⟩, rfl, rfl, fun j =>
    treeChildCovered_congr (fun _ => Iff.rfl) fun d _ => ?_⟩
  have hFlag : Manager.isCovered (x.setNode last.parent
      { nd with kind := .existsThread scope (Manager.insertVar tried var) (some th) }) d =
      x.isCovered d := isCovered_setNode_grow hRetry.node (by rfl) d
  rw [hFlag]
  unfold Manager.isCovered
  rw [hHeap]

/-- With all threads ended, the other children of a FORALL node consumed last are
covered. -/
theorem others_covered (hF : Fair m stack) (t : Tidy m) (hn : m.heap last.parent = some nd)
    (hOthers : ∀ scope map, ForallAt m last.parent nd scope map → ∀ t ∈ scope.threads,
      childFor scope map t = some last.childIndex ∨ SubtreeCovered m nd scope map t)
    (scope : ThreadVarPtrSet) (map : List ThreadVar) (h : ForallAt m last.parent nd scope map) :
    nd.children.length = scope.size ∧
      ∀ j < nd.children.length, j ≠ last.childIndex → m.treeChildCovered nd j = true := by
  obtain ⟨hD, hFiled⟩ := hF.filed _ nd scope map h
  obtain ⟨lvar, hKind⟩ := h.kind
  have hShape : nd.children.length = map.length := by
    rw [t.wf.shape hn, hKind]
    rfl
  have hAll := (forall_threads_iff hD hFiled fun i =>
    i = last.childIndex ∨ m.treeChildCovered nd i = true).mp fun t ht => by
      rcases hOthers scope map h t ht with hOwn | ⟨i, hi, hCov⟩
      · exact ⟨_, hOwn, Or.inl rfl⟩
      · exact ⟨i, hi, Or.inr hCov⟩
  refine ⟨hShape.trans hAll.1, fun j hj hne => ?_⟩
  exact (hAll.2 j (hShape ▸ hj)).resolve_left hne

/-- **The main thread ends an execution.** The three ways of `EndWithSuccess`: an EXISTS
node is retried, a thread selection is flagged because all threads have ended, or the end
node is inserted as it is. An operation that has found a choice covered comes before. -/
theorem Fair.finish (hF : Fair m m.nodeStack) (t : Tidy m) (hOk : Steady m (.finish op env))
    (hOp : Interrupted.interrupt m op env = some (m₁, reason))
    (hEnd : m₁.endWithSuccess cfg reason = some m₂) : Fair m₂ m₂.nodeStack := by
  have t₁ : Tidy m₁ := by
    obtain ⟨_, hStep, _⟩ := interrupt_cases t hOp
    exact hStep.tidy t
  obtain ⟨last, nd, hLast, hn, hCase⟩ := endWithSuccess_cases t₁ hEnd
  have t₂ := t₁.marked cfg reason hn
  -- a retried node has not been flagged
  have hSame : ∀ ⦃x⦄, Retried x m₂ last (coveredLast reason nd) → coveredLast reason nd = nd := by
    intro x hRetry
    have hOpen := hRetry.open_
    unfold coveredLast at hOpen ⊢
    split at hOpen
    · cases hOpen
    · rename_i hNot
      rw [if_neg hNot]
  rcases hF.interrupt t hOk.1 hOp with hU | ⟨n, cd, hC⟩
  · rcases hCase with hRetry | ⟨_, hClosed⟩
    · exact hU.fair.retried hRetry (marked_heap hn (hSame hRetry)) rfl
    · refine hU.fair.closed (fun loc hLoc => ?_) hClosed
      by_cases hFlag : coveredLast reason nd = nd
      · exact ⟨_, flaggedLast_of_heap t₂ (marked_heap hn hFlag) rfl loc⟩
      · -- all threads have ended after a thread selection
        obtain ⟨rfl, hSelect⟩ : reason = .threadsAllEnded ∧ nd.kind.isSelectThread = true := by
          by_contra hNot
          exact hFlag (by unfold coveredLast; rw [if_neg hNot])
        have hLast₀ : m.getLastNodeInStack = some last := by
          rw [Manager.getLastNodeInStack_eq_some, ← hU.stack, ← hU.index]
          exact Manager.getLastNodeInStack_eq_some.mp hLast
        have hn₀ : m.heap last.parent = some nd := by
          rw [← Interrupted.interrupt_last t hOp hLast₀, hn]
        obtain ⟨hAtEnd, hOthers⟩ := hOk.2 m₁ hOp last nd hLast₀ hn₀ hSelect
        refine ⟨_, flaggedLast_of_marked t₁ hLast (by rw [hU.index, hU.stack, hAtEnd]) hn
          (fun scope map h => ?_) hLoc⟩
        obtain ⟨hLen, hAll⟩ :=
          others_covered hF t hn₀ hOthers scope map ⟨hn₀, h.kind, h.nonempty⟩
        refine ⟨hLen, fun j hj hne => ?_⟩
        rw [treeChildCovered_congr (fun _ => Iff.rfl) fun d _ => hU.flags d]
        exact hAll j hj hne
  -- the script has come to a choice that is covered
  · have hFlag : coveredLast reason nd = nd :=
      coveredLast_of_ne (by rw [hC.reason]; decide) nd
    have hHeap : (marked cfg m₁ reason last nd).heap = (m.setNode n { cd with covered := true }).heap :=
      (marked_heap hn hFlag).trans (congrArg Manager.heap hC.state)
    rcases hCase with hRetry | ⟨_, hClosed⟩
    · have hF₁ : Fair m₁ m₁.nodeStack := by
        obtain ⟨scope, tried, th, var, hKind, _⟩ := hRetry.tried
        have hLast₀ : m.getLastNodeInStack = some last := by
          rw [Manager.getLastNodeInStack_eq_some, ← hC.nodeStack_eq, ← hC.stackIndex_eq]
          exact Manager.getLastNodeInStack_eq_some.mp hLast
        refine hF.alike (hC.alikeAt t hLast₀ ((Interrupted.interrupt_last t hOp hLast₀).symm.trans hn)
          fun scope map lvar hForall => ?_) fun l hl => hC.nodeStack_eq ▸ hl
        rw [hFlag, hForall] at hKind
        cases hKind
      exact hF₁.retried hRetry (marked_heap hn hFlag) rfl
    · obtain ⟨idx, hNext⟩ := hC.next
      refine hF.closed (fun loc hLoc => ⟨n, ?_⟩) hClosed
      exact flaggedLast_of_next t hNext hC.node hC.kind t₂ hHeap hC.nodeStack_eq hC.stackIndex_eq hLoc

/-- **A thread ends an execution** with `concurritEndTest`, and the main thread backtracks. -/
theorem Fair.ended (hF : Fair m m.nodeStack) (t : Tidy m) {why : Option BacktrackReason}
    {m₃ : Manager} (hProper : Proper m op)
    (hOp : Interrupted.interrupt m op env = some (m₁, reason)) (hAdd : m₁.addEndToPath = some m₂)
    (hNotice : noticeEnd cfg m₂ why = some m₃) : Closed cfg m₁ m₃ ∧ Tidy m₁ ∧ Fair m₃ m₃.nodeStack := by
  have t₁ := Interrupted.Tidy.interrupt t hOp
  have hClosed := Interrupted.closed_of_notice t₁ hAdd hNotice
  refine ⟨hClosed, t₁, ?_⟩
  rcases hF.interrupt t hProper hOp with hU | ⟨n, cd, hC⟩
  · exact hU.fair.closed (fun loc _ => ⟨_, flaggedLast_of_heap t₁ rfl rfl loc⟩) hClosed
  · obtain ⟨idx, hNext⟩ := hC.next
    refine hF.closed (fun loc hLoc => ⟨n, ?_⟩) hClosed
    exact flaggedLast_of_next t hNext hC.node hC.kind t₁ (congrArg Manager.heap hC.state)
      hC.nodeStack_eq hC.stackIndex_eq hLoc

/-- A new execution starts with the same tree, and with a part of the path. -/
theorem Fair.restart (hF : Fair m m.nodeStack) (wf : WellFormed m.heap m.next)
    (hL : Linked m.heap m.nodeStack) (hEq : m.restart cfg = some m') :
    Tidy m' ∧ Fair m' m'.nodeStack := by
  have t' := tidy_restart wf hL hEq
  rw [restart_eq cfg hL] at hEq
  obtain rfl := Option.some.inj hEq
  refine ⟨t', hF.alike (fun n => alikeAt_of_heap (by rfl) n) fun l hl => ?_⟩
  by_cases hKeep : cfg.keepExecutionTree = true
  · simp only [hKeep, if_true, List.mem_singleton] at hl
    rw [hl]
    exact List.mem_of_mem_head? hL.head
  · simpa only [hKeep, Bool.false_eq_true, if_false] using hl

/-- **Each step that meets the condition keeps FORALL nodes fair**, whether an operation
returns, the main thread ends the execution or a thread has. -/
theorem fair_next {act : Action} (t : Tidy m) (hF : Fair m m.nodeStack) (hOk : Steady m act)
    (hStep : Interrupted.next cfg m act = some m') : Tidy m' ∧ Fair m' m'.nodeStack := by
  cases Interrupted.next_cases hStep with
  | operation op env hDsl =>
    have hOp := dslOp_cases t hDsl
    exact ⟨hOp.tidy t, hF.operation t hOk hOp⟩
  | finish op env hOp hEnd hRoot hRestart =>
    obtain ⟨wf, hL⟩ := endWithSuccess_linked (Interrupted.Tidy.interrupt t hOp) hEnd hRoot
    exact (hF.finish t hOk hOp hEnd).restart wf hL hRestart
  | ended op env late hOp hAdd hNotice hRoot hRestart =>
    obtain ⟨hClosed, t₁, hF₃⟩ := hF.ended t hOk hOp hAdd hNotice
    obtain ⟨m₂', loc, hE, hB⟩ := hClosed.closed
    obtain ⟨wf, hL, _⟩ := hB.linked (hE.complete t₁) hRoot
    exact hF₃.restart wf hL hRestart

/-- By induction over the run, all states it reaches are tidy and their FORALL nodes fair.
-/
theorem fair_reachable {nondet : StaticId → Bool} {numMembers : Nat}
    (h : Runs.ReachableUnder (Interrupted.system cfg nondet numMembers) Steady m) :
    Tidy m ∧ Fair m m.nodeStack := by
  refine h.invariant (P := fun m => Tidy m ∧ Fair m m.nodeStack) ?_
    fun s a s' hs hOk hStep => fair_next hs.1 hs.2 hOk hStep
  rintro _ rfl
  have t : Tidy { Manager.initial nondet numMembers with stackIndex := 1 } :=
    tidy_initial nondet numMembers
  have hNone : ∀ n nd scope map,
      ¬ ForallAt { Manager.initial nondet numMembers with stackIndex := 1 } n nd scope map := by
    intro n nd scope map h
    obtain ⟨lvar, hKind⟩ := h.kind
    have hn := h.node
    simp only [Manager.initial] at hn
    split at hn
    · obtain rfl := Option.some.inj hn
      cases hKind
    · split at hn
      · obtain rfl := Option.some.inj hn
        cases hKind
      · cases hn
  exact ⟨t, fun _ _ _ _ h => absurd h (hNone _ _ _ _), fun _ _ _ _ h => absurd h (hNone _ _ _ _),
    fun _ _ _ _ _ h => absurd h (hNone _ _ _ _)⟩

-- ---------------------------------------------------------------------------
-- Progress
-- ---------------------------------------------------------------------------

/-- A thread with a child that is not covered is accepted, unless another child is
recorded. -/
theorem accepts_filed (hn : m.heap n = some nd) (hKind : nd.kind = .forallThread scope map none)
    (hShape : nd.children.length = map.length) {idx : Option Nat}
    (hChild : childFor scope map t = some i) (hOpen : m.treeChildCovered nd i = false)
    (hIdx : ∀ j ∈ idx, j = i) : Accepts m n t idx := by
  obtain ⟨var, hVar, hFound⟩ := Option.bind_eq_some_iff.mp hChild
  have hLt : i < nd.children.length := by
    cases var with
    | bound v =>
      obtain ⟨hLt, _⟩ := List.idxOf?_eq_some_iff.mp hFound
      rwa [hShape]
    | created => cases hFound
  have hSame : m.setNode n nd = m := setNode_same hn
  have hNot : ¬ ∃ j ∈ idx, j ≠ i := fun ⟨j, hj, hne⟩ => hne (hIdx j hj)
  have hAll : ∀ j ∈ idx, j < nd.children.length := fun j hj => hIdx j hj ▸ hLt
  refine ⟨m.setNode n (nd.setLvar t), nd.setLvar t, i, ?_, Function.update_self .., ?_⟩
  · simp only [Manager.checkAndSelectForall, hn, hKind, hVar, Option.bind_eq_bind, Option.bind_some,
      guard, if_true, Manager.addOrGetChildIndex, hFound, hSame, hLt, hNot, hOpen, Option.pure_def,
      not_true_eq_false, if_false, Bool.false_eq_true]
    rw [if_pos hAll]
    rfl
  · rw [← hOpen]
    refine treeChildCovered_congr (fun c => by simp [Node.setLvar, hKind]) fun c _ => ?_
    exact isCovered_setNode_grow hn (by simp [Node.setLvar, hKind]) c

/-- A thread without a child is accepted when no child is recorded. -/
theorem accepts_new (hn : m.heap n = some nd) (hKind : nd.kind = .forallThread scope map none)
    (hShape : nd.children.length = map.length) {var : ThreadVar} (hVar : scope.varFor t = some var)
    (hNew : Manager.childIndexOf map var = none) : Accepts m n t none := by
  let grown : Node := ⟨.forallThread scope (map ++ [var]) none, nd.parent, nd.children ++ [none],
    nd.covered⟩
  have hLt : nd.children.length < (nd.children ++ [none]).length := by simp
  have hOpen : (m.setNode n grown).treeChildCovered grown nd.children.length = false :=
    not_treeChildCovered fun c hc => by simp [grown] at hc
  refine ⟨(m.setNode n grown).setNode n (grown.setLvar t), grown.setLvar t, nd.children.length, ?_,
    Function.update_self .., not_treeChildCovered fun c hc => by simp [grown, Node.setLvar] at hc⟩
  simp only [Manager.checkAndSelectForall, hn, hKind, hVar, Option.bind_eq_bind, Option.bind_some,
    guard, if_true, Manager.addOrGetChildIndex, hNew, hShape.symm, Option.pure_def]
  have hOpen' := hOpen
  simp only [grown] at hOpen'
  simp [hOpen', grown]

/-- **A FORALL node that is not covered accepts a thread of its scope.** At a recorded index
it is the thread filed there. Otherwise not all threads have their subtrees covered, by the
coverage rule, and the thread that is left either has a child or gets a new one. -/
theorem exists_accepted (hF : Fair m m.nodeStack) (tidy : Tidy m) (h : ForallAt m n nd scope map)
    (hKind : nd.kind = .forallThread scope map none) (hOpen : nd.covered = false) {idx : Option Nat}
    (hIdx : Recorded m n idx) : ∃ t ∈ scope.threads, Accepts m n t idx := by
  obtain ⟨hD, hFiled⟩ := hF.filed n nd scope map h
  have hShape : nd.children.length = map.length := by
    rw [tidy.wf.shape h.node, hKind]
    rfl
  rcases hIdx with rfl | ⟨l, hl, rfl, rfl⟩
  · -- some thread has no covered child
    have hNot : ¬ ∀ t ∈ scope.threads, SubtreeCovered m nd scope map t := fun hAll => by
      obtain ⟨hLen, hCov⟩ := (forall_threads_iff hD hFiled _).mp hAll
      have hRule := (hF.rule n nd scope map h).mpr ⟨hShape.trans hLen, fun j hj => hCov j (hShape ▸ hj)⟩
      rw [hOpen] at hRule
      cases hRule
    obtain ⟨t, hNot⟩ := not_forall.mp hNot
    obtain ⟨ht, hNot⟩ := Classical.not_imp.mp hNot
    refine ⟨t, ht, ?_⟩
    rcases hChild : childFor scope map t with _ | i
    · obtain ⟨v, hv⟩ := ThreadVarPtrSet.mem_threads.mp ht
      have hVar := (ThreadVarPtrSet.varFor_iff hD).mpr ⟨v, rfl, hv⟩
      unfold childFor at hChild
      rw [hVar] at hChild
      exact accepts_new h.node hKind hShape hVar hChild
    · refine accepts_filed h.node hKind hShape hChild ?_ fun j hj => by cases hj
      rw [Bool.eq_false_iff]
      exact fun hCov => hNot ⟨i, hChild, hCov⟩
  · -- the thread of the recorded child
    obtain ⟨_, ld, hld, hLt⟩ := tidy.linked.valid l hl
    obtain rfl := Option.some.inj (hld.symm.trans h.node)
    rw [hShape] at hLt
    have hAt := List.getElem?_eq_getElem hLt
    obtain ⟨v, t, hVar, hv⟩ := hFiled.bound _ (List.getElem_mem hLt)
    rw [hVar] at hAt
    refine ⟨t, ThreadVarPtrSet.mem_threads.mpr ⟨v, hv⟩, accepts_filed h.node hKind hShape
      ((childFor_eq_some hD).mpr ⟨v, hv, idxOf?_of_nodup hFiled.nodup hAt⟩)
      (hF.path l hl ld scope map h) fun j hj => ?_⟩
    exact (Option.some.inj hj).symm

/-- Clearing the selection of a FORALL node changes nothing else. -/
theorem Fair.cleared (hF : Fair m m.nodeStack) (t : Tidy m) (h : ForallAt m n nd scope map) :
    Tidy (cleared m n nd scope map) ∧
      Fair (cleared m n nd scope map) (cleared m n nd scope map).nodeStack := by
  obtain ⟨lvar, hKind⟩ := h.kind
  have hGrow : Regrown nd { nd with kind := .forallThread scope map none } := by
    refine ⟨rfl, rfl, ⟨0, by simp⟩, ?_, fun hRoot => by rw [hKind] at hRoot; cases hRoot⟩
    have hShape := t.wf.shape h.node
    rwa [hKind] at hShape
  have hEnd := ne_end_of_kind t.wf h.node fun hEq => by rw [hKind] at hEq; cases hEq
  refine ⟨⟨t.wf.updateData h.node hEnd hGrow.sameLinks fun _ _ _ => hGrow.parent,
    t.linked.updateData h.node hGrow, t.pos, t.le⟩, hF.alike (fun k => ?_) fun l hl => hl⟩
  have hFlags : ∀ d, (Scoped.cleared m n nd scope map).isCovered d = m.isCovered d := fun d =>
    isCovered_setNode_grow h.node (by rfl) d
  intro kd' scope' map' hk
  by_cases hkn : k = n
  · subst hkn
    obtain rfl := Option.some.inj (hk.node.symm.trans (Function.update_self ..))
    obtain ⟨lvar', hSame⟩ := hk.kind
    cases hSame
    exact ⟨nd, h, rfl, rfl, fun j => treeChildCovered_congr (fun _ => Iff.rfl) fun d _ => hFlags d⟩
  · have hNode := hk.node
    rw [show (Scoped.cleared m n nd scope map).heap k = m.heap k from Function.update_of_ne hkn ..]
      at hNode
    exact ⟨kd', ⟨hNode, hk.kind, hk.nonempty⟩, rfl, rfl,
      fun j => treeChildCovered_congr (fun _ => Iff.rfl) fun d _ => hFlags d⟩

/-- The threads that evaluate a pending FORALL node call `CheckAndSelectThread`. -/
theorem evalSelect_of_accepts (hn : m.heap n = some nd) (hKind : nd.kind = .forallThread scope map none)
    (hOpen : nd.covered = false) {parent : Option NodeId} {idx : Option Nat}
    (hNext : m.getNextNodeInStack = some (parent, idx))
    (hPending : (idx = none ∧ parent = none) ∨ parent = some n) (hAccepts : Accepts m n t idx) :
    ∃ m₂ i, m.evalSelectThread n ⟨t, true⟩ = some (m₂, some i) := by
  obtain ⟨m₂, _, i, hCheck, _⟩ := hAccepts
  refine ⟨m₂, i, ?_⟩
  simp only [Manager.evalSelectThread, hn, hNext, hKind, hOpen, hPending, hCheck, guard,
    Option.bind_eq_bind, Option.bind_some, Bool.false_eq_true, not_false_eq_true, if_true]
  rfl

/-- **Fair FORALL nodes make progress**: the three parts of `Progresses` from the invariant.
The third, that a thread is selected after the node has been submitted, is the second for
the state in which the main thread waits. -/
theorem Fair.progresses (hF : Fair m m.nodeStack) (t : Tidy m) : Progresses m := by
  refine ⟨fun n nd scope map h => ?_, fun n nd scope map h hOpen idx hIdx => ?_,
    fun scope m₁ n hNe hOk hSubmit => ?_⟩
  -- covered if and only if the subtree of each thread is
  · obtain ⟨hD, hFiled⟩ := hF.filed n nd scope map h
    obtain ⟨lvar, hKind⟩ := h.kind
    have hShape : nd.children.length = map.length := by
      rw [t.wf.shape h.node, hKind]
      rfl
    unfold SubtreeCovered
    rw [hF.rule n nd scope map h, forall_threads_iff hD hFiled]
    unfold AllCovered
    rw [hShape]
  -- until then a thread is accepted
  · obtain ⟨t', hF'⟩ := hF.cleared t h
    exact exists_accepted hF' t' ⟨Function.update_self .., ⟨none, rfl⟩, h.nonempty⟩ rfl hOpen hIdx
  -- after `DSLForallThread` has submitted the node, with the location it is at
  · obtain ⟨nd, map, hS, hOrigin, hKind⟩ := submitForall_cases t hSubmit
    have hF₁ : Fair m₁ m₁.nodeStack := hF.submitted t hS fun scope' map' h' => by
      obtain ⟨lvar, hSame⟩ := h'.kind
      rw [hKind] at hSame
      cases hSame
      exact resumes hF t hS hOk hOrigin (.refl map) hNe
    have h₁ : ForallAt m₁ n nd scope map := ⟨hS.node, ⟨none, hKind⟩, hNe⟩
    have hNextSame := hS.next t
    have hPending : ∃ parent idx, m₁.getNextNodeInStack = some (parent, idx) ∧
        ((idx = none ∧ parent = none) ∨ parent = some n) ∧ Recorded m₁ n idx := by
      rw [hNextSame]
      cases hS with
      | old idx _ hNext =>
        refine ⟨_, idx, hNext, Or.inr rfl, ?_⟩
        rcases t.next_cases hNext with ⟨l, hl, hln, rfl⟩ | ⟨_, rfl, _⟩
        · exact Or.inr ⟨l, List.mem_of_getElem? hl, (Option.some.inj hln).symm, rfl⟩
        · exact Or.inl rfl
      | new idx hNext =>
        rcases t.next_cases hNext with ⟨l, _, hNone, _⟩ | ⟨_, rfl, _⟩
        · cases hNone
        · exact ⟨none, none, hNext, Or.inl ⟨rfl, rfl⟩, Or.inl rfl⟩
    obtain ⟨parent, idx, hNext, hPending, hIdx⟩ := hPending
    obtain ⟨th, hth, hAccepts⟩ := exists_accepted hF₁ (hS.tidy t) h₁ hKind hS.covered hIdx
    exact ⟨th, hth, evalSelect_of_accepts hS.node hKind hS.covered hNext hPending hAccepts⟩

/--
**Progress of FORALL.** In every sequence of executions, whatever their scripts and however
they are ended, that meet the condition: a FORALL node over a non-empty scope is covered if
and only if the subtree of every thread of the scope is, and until then it accepts a thread
of the scope for a child that is not covered, at the recorded index if there is one.
-/
theorem forall_progress {nondet : StaticId → Bool} {numMembers : Nat}
    (h : Runs.ReachableUnder (Interrupted.system cfg nondet numMembers) Steady m) : Progresses m :=
  (fair_reachable h).2.progresses (fair_reachable h).1

/-- Thread 7 is selected, and the script ends. -/
def selectsSeven (scope : ThreadVarPtrSet) : List Action :=
  [.operation (.forallThread scope) ⟨false, [⟨7, true⟩], true, false, false⟩,
    .finish .finish Interrupted.quiet]

/-- Two variables bound to thread 7. -/
def bothSeven : ThreadVarPtrSet := ⟨[(1, 7), (2, 7)], by decide⟩

/-- **Two variables bound to one thread**: the thread is always found under the first one,
so when its only child is covered the node has one child for two scope entries. -/
theorem forall_stuck : ¬ ∀ cfg nondet numMembers m,
    Runs.Reachable (Interrupted.system cfg nondet numMembers) m → Progresses m := by
  intro hAll
  obtain ⟨m, hRun, hNode, hChild⟩ : ∃ m, (selectsSeven bothSeven).foldlM
      (Interrupted.next Interrupted.stackMode) Interrupted.fresh = some m ∧
        m.heap 2 = some ⟨.forallThread bothSeven [.bound 1] (some 7), some 0, [some ENDNODE], false⟩ ∧
          m.isCovered ENDNODE = true := ⟨_, rfl, rfl, rfl⟩
  have hReach : Runs.Reachable (Interrupted.system Interrupted.stackMode (fun _ => false) 1) m :=
    Runs.reachable_foldlM (.init rfl) _ hRun
  have hIff := (hAll _ _ _ _ hReach).covered 2 _ _ _ ⟨hNode, ⟨_, rfl⟩, by decide⟩
  have hCov := hIff.mpr fun t ht => by
    obtain rfl : t = 7 := by simpa [bothSeven, ThreadVarPtrSet.threads] using ht
    exact ⟨0, rfl, hChild⟩
  cases hCov

/-- Variables bound to the threads 7 and 8. -/
def sevenEight : ThreadVarPtrSet := ⟨[(1, 7), (2, 8)], by decide⟩

/-- After thread 7 the node is not covered, and thread 8 is left to select. -/
theorem forall_progress_second : ∃ m, Progresses m ∧ m.isCovered 2 = false ∧
    m.nodeStack = [⟨ROOTNODE, 0⟩] := by
  have hStart : Runs.ReachableUnder (Interrupted.system Interrupted.stackMode (fun _ => false) 1)
      Steady Interrupted.fresh := .init rfl
  have hSelects := hStart.step (i := (selectsSeven sevenEight)[0])
    ⟨by decide, fun _ _ _ _ _ _ hNext => by cases hNext⟩
    (show Interrupted.next _ _ _ = some _ from rfl)
  have hEnds := hSelects.step (i := (selectsSeven sevenEight)[1])
    ⟨trivial, fun _ hOp => by cases hOp⟩ (show Interrupted.next _ _ _ = some _ from rfl)
  exact ⟨_, forall_progress hEnds, rfl, rfl⟩

end Scoped

end Concurrit.Model
