import Concurrit.Model.RestartStack

/-!
# Concurrit — what a step of the search leaves of a node

Between two executions the search only marks, cuts and restarts: the nodes that are
still there afterwards are of the same kind, with the same data, and those that were
covered still are (`Keeps`). Only an EXISTS node that is retried gets a new tried
thread (`EndsExecution`).
-/

namespace Concurrit.Model

open Function (update)

variable {cfg : Cfg} {reason : BacktrackReason} {m m' m₀ m₁ m₂ : Manager} {n k p i : Nat} {nd : Node}
  {l last loc : ChildLoc} {base : List ChildLoc} {op : Op} {env : Env}

-- ---------------------------------------------------------------------------
-- Nodes that are kept
-- ---------------------------------------------------------------------------

/-- The node `n` of `m'` is one of `m`, with its own data; if it was covered it still is. -/
def KeepsAt (m m' : Manager) (n : NodeId) : Prop :=
  ∀ nd', m'.heap n = some nd' →
    ∃ nd, m.heap n = some nd ∧ nd'.kind = nd.kind ∧ (nd.covered = true → nd'.covered = true)

def Keeps (m m' : Manager) : Prop := ∀ n, KeepsAt m m' n

theorem Keeps.of_heap (hHeap : m'.heap = m.heap) : Keeps m m' :=
  fun _ nd' hn => ⟨nd', by rw [← hHeap, hn], rfl, id⟩

theorem Keeps.trans (h : Keeps m m₁) (h' : Keeps m₁ m') : Keeps m m' := by
  intro n nd' hn
  obtain ⟨nd₁, hn₁, hKind₁, hCov₁⟩ := h' n nd' hn
  obtain ⟨nd, hn₀, hKind, hCov⟩ := h n nd₁ hn₁
  exact ⟨nd, hn₀, hKind₁.trans hKind, fun hc => hCov₁ (hCov hc)⟩

theorem Recolored.keeps (hR : Recolored m m') : Keeps m m' := by
  intro n nd' hn
  obtain ⟨nd, hn₀, hKind, _, _, hCov⟩ := hR.heap_eq_some hn
  exact ⟨nd, hn₀, hKind, hCov⟩

/-- A shortcut changes no kind and no flag of a node that stays. -/
theorem Shortcut.heap_eq_some {h h' : Heap} {next : Nat} (hCut : Shortcut h h' p i)
    (wf : WellFormed h next) {nd' : Node} (hn : h' n = some nd') :
    ∃ nd, h n = some nd ∧ nd'.kind = nd.kind ∧ nd'.covered = nd.covered := by
  have hNot : ¬ Below h p i n := fun hb => by
    rw [hCut.below n hb] at hn
    cases hn
  obtain ⟨_, pd, hp, _⟩ := hCut.valid
  obtain ⟨q, hE⟩ := wf.endNode
  obtain ⟨nd, hn₀⟩ : ∃ nd, h n = some nd := by
    by_cases hnEnd : n = ENDNODE
    · exact ⟨_, hnEnd ▸ hE⟩
    · by_cases hnp : n = p
      · exact ⟨pd, hnp ▸ hp⟩
      · exact ⟨nd', by rw [← hCut.frame wf hNot hnp hnEnd, hn]⟩
  obtain ⟨nd'', hn', hKind, hCov, _⟩ := hCut.node_of_not_below wf hNot hn₀
  rw [hn] at hn'
  obtain rfl := Option.some.inj hn'
  exact ⟨nd, hn₀, hKind, hCov⟩

theorem Shortcut.keeps {next : Nat} (hCut : Shortcut m.heap m'.heap p i) (wf : WellFormed m.heap next) :
    Keeps m m' := by
  intro n nd' hn
  obtain ⟨nd, hn₀, hKind, hCov⟩ := hCut.heap_eq_some wf hn
  exact ⟨nd, hn₀, hKind, fun hc => hCov.trans hc⟩

theorem Backtracked.keeps (hB : Backtracked cfg m base m') (c : Complete m base) : Keeps m m' := by
  obtain ⟨mid, hi, hProp, _, _, hHeap⟩ := hB.heap_cases
  have c' := hProp.recolored.complete c
  refine hProp.recolored.keeps.trans ?_
  rcases hHeap with hSame | ⟨_, _, _, l, _, hCut⟩
  · exact .of_heap hSame
  · exact hCut.keeps c'.wf

theorem Closed.keeps (hC : Closed cfg m m') (t : Tidy m) : Keeps m m' := by
  obtain ⟨m₂, loc, hE, hB⟩ := hC.closed
  exact (hE.cut.keeps t.wf).trans (hB.keeps (hE.complete t))

theorem Backtracked.next (hB : Backtracked cfg m base m') : m'.next = m.next := by
  cases hB
  rfl

theorem Closed.next (hC : Closed cfg m m') : m'.next = m.next := by
  obtain ⟨m₂, loc, hE, hB⟩ := hC.closed
  rw [hB.next, hE.rest]

theorem endWithSuccess_next (t : Tidy m) (hEq : m.endWithSuccess cfg reason = some m') :
    m'.next = m.next := by
  obtain ⟨last, nd, _, hn, hRetry | ⟨_, hClosed⟩⟩ := endWithSuccess_cases t hEq
  · obtain ⟨_, _, _, _, _, _, rfl⟩ := hRetry.tried
    rfl
  · exact hClosed.next

theorem keeps_marked (cfg : Cfg) (reason : BacktrackReason) (hn : m.heap last.parent = some nd) :
    Keeps m (marked cfg m reason last nd) := by
  intro k kd hk
  exact (recolored_marked cfg reason hn).keeps k kd hk

-- ---------------------------------------------------------------------------
-- Nodes an operation works on
-- ---------------------------------------------------------------------------

/-- The locations consumed in this execution. -/
def Manager.consumed (m : Manager) : List ChildLoc := m.nodeStack.take m.stackIndex

/-- The locations consumed so far are those before the index. -/
theorem Manager.mem_consumed : l ∈ m.consumed ↔ ∃ k < m.stackIndex, m.nodeStack[k]? = some l := by
  unfold consumed
  constructor
  · intro hl
    obtain ⟨k, hk, rfl⟩ := List.getElem_of_mem hl
    rw [List.length_take] at hk
    refine ⟨k, by omega, ?_⟩
    rw [List.getElem_take, List.getElem?_eq_getElem]
  · rintro ⟨k, hk, hl⟩
    refine List.mem_iff_getElem?.mpr ⟨k, ?_⟩
    rw [List.getElem?_take_of_lt hk, hl]

theorem Manager.last_mem_consumed (hLast : m.getLastNodeInStack = some last) : last ∈ m.consumed := by
  obtain ⟨hPos, hAt⟩ := getLastNodeInStack_eq_some.mp hLast
  exact mem_consumed.mpr ⟨m.stackIndex - 1, by omega, hAt⟩

/-- The node an operation works on has not been consumed in this execution. -/
theorem Submitted.ne_consumed (hS : Submitted m n nd m₁) (t : Tidy m) (hl : l ∈ m.consumed) :
    l.parent ≠ n := by
  obtain ⟨k, hk, hl⟩ := Manager.mem_consumed.mp hl
  cases hS with
  | old idx _ hNext => exact t.next_ne_consumed hNext hk hl
  | new idx _ hNew =>
    rintro rfl
    obtain ⟨_, ld, hld, _⟩ := t.linked.validAt hl
    rw [t.wf.fresh _ (Nat.le_of_eq hNew.symm)] at hld
    cases hld

/-- A node that has been found in the tree is submitted as it is. -/
theorem Submitted.found (hS : Submitted m n nd m₁) (t : Tidy m) {nd₀ : Node}
    (hn : m.heap n = some nd₀) {fresh : NodeKind} (hFound : Found m n nd fresh) : nd = nd₀ := by
  rcases hFound with hOld | rfl
  · exact Option.some.inj (hOld.symm.trans hn)
  · -- a node of the tree has a parent, and a new one has none
    exfalso
    cases hS with
    | old idx nd₁ hNext hn₁ hCov hEnd hGrow =>
      obtain ⟨p, j, hSlot⟩ : ∃ p j, Slot m.heap p j n := by
        rcases t.next_cases hNext with ⟨l, hl, hEq, _⟩ | ⟨_, _, last, pd, _, hp, ho⟩
        · obtain ⟨prev, _, hLink⟩ := t.last_recorded hl
          obtain rfl := Option.some.inj hEq
          exact ⟨_, _, hLink⟩
        · exact ⟨_, _, pd, hp, ho⟩
      obtain ⟨_, cd, hc, hParent⟩ := t.wf.child hSlot hEnd
      obtain rfl := Option.some.inj (hn₁.symm.trans hc)
      have hNone : none = nd₁.parent := hGrow.parent
      rw [hParent] at hNone
      cases hNone
    | new idx _ hNew =>
      rw [t.wf.fresh n (Nat.le_of_eq hNew.symm)] at hn
      cases hn

/-- What an operation does with the node it works on. -/
def WorksOn (m m₁ : Manager) (op : Op) (env : Env) (n : Nat) (nd : Node) : OpResult → Prop
  | .returns a => ∃ i, Takes m m₁ env n nd op i a
  | .throws why => GivesUp m env n nd op why

/-- **An operation of the search, seen from one node.** -/
theorem OpStep.node_cases {r : OpResult} (hStep : OpStep m op env m' r) {nd' : Node}
    (hn' : m'.heap n = some nd') :
    (∃ nd, m.heap n = some nd ∧ nd'.kind = nd.kind ∧ (nd.covered = true → nd'.covered = true)) ∨
      ∃ m₁ nd, Submitted m n nd m₁ ∧ nd'.kind = nd.kind ∧ WorksOn m m₁ op env n nd r := by
  cases hStep with
  | consumed k nd m₁ i m' a hS hTakes hC =>
    obtain ⟨nd₁, hn₁, hKind, hCov⟩ := hC.heap_eq_some hn'
    by_cases hnk : n = k
    · subst hnk
      obtain rfl := Option.some.inj (hS.node.symm.trans hn₁)
      exact Or.inr ⟨m₁, nd, hS, hKind, i, hTakes⟩
    · rw [hS.frame hnk] at hn₁
      exact Or.inl ⟨nd₁, hn₁, hKind, fun hc => hCov.trans hc⟩
  | pending k nd m' why hS hGives =>
    by_cases hnk : n = k
    · subst hnk
      obtain rfl := Option.some.inj (hS.node.symm.trans hn')
      exact Or.inr ⟨m', nd, hS, rfl, hGives⟩
    · rw [hS.frame hnk] at hn'
      exact Or.inl ⟨nd', hn', rfl, id⟩
  | covered k nd idx hNext hn hKind hRule => exact Or.inl ((Recolored.cover hn).keeps n nd' hn')
  | idle why hWhy => exact Or.inl ⟨nd', hn', rfl, id⟩

/-- An operation removes no node, and does not use a pointer again. -/
theorem OpStep.heap_none {r : OpResult} (hStep : OpStep m op env m' r) (hn : m'.heap n = none) :
    m.heap n = none := by
  by_contra hNe
  obtain ⟨nd₀, hn₀⟩ := Option.ne_none_iff_exists'.mp hNe
  cases hStep with
  | consumed k nd m₁ i m' a hS hTakes hC =>
    obtain ⟨nd₁, hn₁⟩ : ∃ nd₁, m₁.heap n = some nd₁ := by
      by_cases hnk : n = k
      · exact ⟨nd, hnk ▸ hS.node⟩
      · exact ⟨nd₀, by rw [hS.frame hnk, hn₀]⟩
    obtain ⟨_, hn', _⟩ := hC.keeps hn₁
    rw [hn] at hn'
    cases hn'
  | pending k nd m' why hS hGives =>
    by_cases hnk : n = k
    · rw [hnk, hS.node] at hn
      cases hn
    · rw [hS.frame hnk, hn₀] at hn
      cases hn
  | covered k nd idx hNext hk hKind hRule =>
    obtain ⟨_, hn', _⟩ := (Recolored.cover hk).node n nd₀ hn₀
    rw [hn] at hn'
    cases hn'
  | idle why hWhy =>
    rw [hn₀] at hn
    cases hn

theorem Submitted.next_le (hS : Submitted m n nd m₁) : m.next ≤ m₁.next := by
  cases hS with
  | old => exact Nat.le_refl _
  | new => exact Nat.le_succ _

/-- An operation only allocates: the next address does not go down. -/
theorem OpStep.next_le {r : OpResult} (hStep : OpStep m op env m' r) : m.next ≤ m'.next := by
  cases hStep with
  | consumed k nd m₁ i m' a hS hTakes hC =>
    have hSame : m'.next = m₁.next := by cases hC <;> rfl
    rw [hSame]
    exact hS.next_le
  | pending k nd m' why hS hGives => exact hS.next_le
  | covered => exact Nat.le_refl _
  | idle => exact Nat.le_refl _

/-- **What an operation consumes**: nothing, or the node it works on. -/
theorem OpStep.mem_consumed {r : OpResult} (hStep : OpStep m op env m' r) (t : Tidy m)
    (hl : l ∈ m'.consumed) :
    l ∈ m.consumed ∨ ∃ nd m₁ i a nd', r = .returns a ∧ Submitted m l.parent nd m₁ ∧
      Takes m m₁ env l.parent nd op i a ∧ m'.heap l.parent = some nd' ∧ nd'.kind = nd.kind := by
  cases hStep with
  | consumed k nd m₁ i m' a hS hTakes hC =>
    obtain ⟨hStack, hIndex⟩ := hS.stack
    obtain ⟨j, hj, hAt⟩ := Manager.mem_consumed.mp hl
    rw [hC.stackIndex, hIndex] at hj
    rcases Nat.lt_or_eq_of_le (Nat.le_of_lt_succ hj) with hLt | rfl
    · refine Or.inl (Manager.mem_consumed.mpr ⟨j, hLt, ?_⟩)
      rcases hC.stack_cases with ⟨hSame, _⟩ | hPush
      · rwa [hSame, hStack] at hAt
      · rwa [hPush, hStack, List.getElem?_append_left (Nat.lt_of_lt_of_le hLt t.le)] at hAt
    · have hLast := (Manager.getLastNodeInStack_eq_some.mp hC.getLast).2
      rw [hC.stackIndex, hIndex, Nat.add_sub_cancel, hAt] at hLast
      obtain rfl := Option.some.inj hLast
      obtain ⟨nd', hn', hKind, _⟩ := hC.keeps hS.node
      exact Or.inr ⟨nd, m₁, i, a, nd', rfl, hS, hTakes, hn', hKind⟩
  | pending k nd m' why hS hGives =>
    obtain ⟨hStack, hIndex⟩ := hS.stack
    refine Or.inl ?_
    unfold Manager.consumed at hl ⊢
    rwa [hStack, hIndex] at hl
  | covered => exact Or.inl hl
  | idle => exact Or.inl hl

namespace Interrupted

-- ---------------------------------------------------------------------------
-- Steps of the search
-- ---------------------------------------------------------------------------

/-- The state in which an operation that does not return leaves the manager. -/
def Thwarted (m : Manager) (op : Op) (env : Env) (m₁ : Manager) : Prop :=
  ∃ why, OpStep m op env m₁ (.throws why)

theorem Thwarted.tidy (h : Thwarted m op env m₁) (t : Tidy m) : Tidy m₁ := by
  obtain ⟨_, hStep⟩ := h
  exact hStep.tidy t

/-- What `interrupt` leaves is left by an operation that does not return. -/
theorem thwarted_of_interrupt (t : Tidy m) (hOp : interrupt m op env = some (m₁, reason)) :
    Thwarted m op env m₁ := by
  unfold interrupt at hOp
  split at hOp
  · rename_i m₂ why hDsl
    cases hOp
    exact ⟨why, dslOp_cases t hDsl⟩
  · cases hOp

/-- A new execution starts with the tree that the last one has left, and the root alone
consumed. -/
theorem restart_keeps (hRestart : m.restart cfg = some m') :
    m'.heap = m.heap ∧ m'.next = m.next ∧ m'.consumed = [⟨ROOTNODE, 0⟩] := by
  simp only [Manager.restart, Option.bind_eq_bind, Option.bind_eq_some_iff,
    Option.guard_eq_some', Option.pure_def, Option.some.injEq] at hRestart
  obtain ⟨m₁, hAdd, _, _, _, _, rfl⟩ := hRestart
  generalize hKept : (if cfg.keepExecutionTree then { m with nodeStack := [⟨ROOTNODE, 0⟩] } else m) = m₀
    at hAdd
  have hSame : m₀.heap = m.heap ∧ m₀.next = m.next := by
    rw [← hKept]
    split <;> exact ⟨rfl, rfl⟩
  simp only [Manager.addToNodeStack, Option.bind_eq_bind, Option.bind_eq_some_iff,
    Option.guard_eq_some', Option.pure_def] at hAdd
  obtain ⟨_, _, hAdd⟩ := hAdd
  split at hAdd
  · rename_i hEmpty
    obtain rfl := Option.some.inj hAdd
    have hNil := List.eq_nil_of_length_eq_zero hEmpty.symm
    exact ⟨hSame.1, hSame.2, by simp [Manager.consumed, hNil]⟩
  · simp only [Option.bind_eq_some_iff, Option.guard_eq_some', Option.some.injEq] at hAdd
    obtain ⟨_, hHead, rfl⟩ := hAdd
    refine ⟨hSame.1, hSame.2, ?_⟩
    show List.take 1 _ = _
    rw [List.take_one, List.head?_eq_getElem?, hHead]
    rfl

/-- **What a step of the search does to the tree.** -/
inductive StepKeeps (cfg : Cfg) (m : Manager) : Action → Manager → Prop where
  | operation {m' : Manager} {a : Answer} (op : Op) (env : Env) (hStep : OpStep m op env m' (.returns a)) :
      StepKeeps cfg m (.operation op env) m'
  | finish {m₁ m₂ m' : Manager} {reason : BacktrackReason} (op : Op) (env : Env)
      (hOp : interrupt m op env = some (m₁, reason)) (hT : Thwarted m op env m₁)
      (hEnd : m₁.endWithSuccess cfg reason = some m₂) (hHeap : m'.heap = m₂.heap)
      (hPtr : m'.next = m₂.next) (hRoot : m'.consumed = [⟨ROOTNODE, 0⟩]) :
      StepKeeps cfg m (.finish op env) m'
  | ended {m₁ m' : Manager} (op : Op) (env : Env) (late : Bool) (hT : Thwarted m op env m₁)
      (hKeep : Keeps m₁ m') (hPtr : m'.next = m₁.next) (hRoot : m'.consumed = [⟨ROOTNODE, 0⟩]) :
      StepKeeps cfg m (.ended op env .endTest late) m'

/-- What every step of the sequences of executions keeps of the nodes. -/
theorem stepKeeps {a : Action} (t : Tidy m) (hStep : next cfg m a = some m') : StepKeeps cfg m a m' := by
  cases next_cases hStep with
  | operation op env hDsl => exact .operation op env (dslOp_cases t hDsl)
  | finish op env hOp hEnd _ hRestart =>
    obtain ⟨hHeap, hPtr, hRoot⟩ := restart_keeps hRestart
    exact .finish op env hOp (thwarted_of_interrupt t hOp) hEnd hHeap hPtr hRoot
  | ended op env late hOp hAdd hNotice _ hRestart =>
    obtain ⟨hHeap, hPtr, hRoot⟩ := restart_keeps hRestart
    have hT := thwarted_of_interrupt t hOp
    have hC := closed_of_notice (hT.tidy t) hAdd hNotice
    exact .ended op env late hT ((hC.keeps (hT.tidy t)).trans (.of_heap hHeap)) (hPtr.trans hC.next) hRoot

end Interrupted

end Concurrit.Model
