import Concurrit.Model.Operations

/-!
# Concurrit — the end of an execution

What `EndWithSuccess` can do to a tidy state: mark, and then either remember the
thread an EXISTS node has tried (`Retried`) or end the path and backtrack
(`Closed`). After `Restart` the state is tidy again, unless the root is covered.
-/

namespace Concurrit.Model

open Function (update)

variable {cfg : Cfg} {reason : BacktrackReason} {m m' m₁ : Manager} {n i : Nat} {nd nd₁ : Node}
  {l last : ChildLoc}

-- ---------------------------------------------------------------------------
-- Marking
-- ---------------------------------------------------------------------------

/-- The node of the last location after `EndWithSuccess` has looked at it: a
selection after which all threads have ended counts as covered. -/
def coveredLast (reason : BacktrackReason) (nd : Node) : Node :=
  if reason = .threadsAllEnded ∧ nd.kind.isSelectThread = true then { nd with covered := true }
  else nd

/-- The state in which `EndWithSuccess` decides how to end the execution. -/
def marked (cfg : Cfg) (m : Manager) (reason : BacktrackReason) (last : ChildLoc) (nd : Node) :
    Manager :=
  { m with
    heap := update m.heap last.parent (some (coveredLast reason nd))
    infos := Manager.markedInfos cfg reason m.infos nd.kind last.childIndex }

@[simp] theorem coveredLast_kind (reason : BacktrackReason) (nd : Node) :
    (coveredLast reason nd).kind = nd.kind := by
  unfold coveredLast
  split <;> rfl

theorem coveredLast_of_ne (hReason : reason ≠ .threadsAllEnded) (nd : Node) :
    coveredLast reason nd = nd := by
  unfold coveredLast
  rw [if_neg fun h => hReason h.1]

/-- The two marking steps together. -/
theorem mark_eq (cfg : Cfg) (reason : BacktrackReason) (hn : m.heap last.parent = some nd) :
    (do
      let m ← m.coverLastSelection reason last
      Manager.markEndingBranch cfg m reason last) = some (marked cfg m reason last nd) := by
  by_cases hCov : reason = .threadsAllEnded ∧ nd.kind.isSelectThread = true
  · simp [Manager.coverLastSelection, hn, hCov, Manager.setCovered, Manager.markEndingBranch,
      Manager.setNode, marked, coveredLast]
  · have hSame : update m.heap last.parent (some nd) = m.heap := by
      rw [← hn, Function.update_eq_self]
    simp [Manager.coverLastSelection, hn, hCov, Manager.markEndingBranch, marked, coveredLast,
      hSame]

/-- Marking only recolours the tree. -/
theorem recolored_marked (cfg : Cfg) (reason : BacktrackReason) (hn : m.heap last.parent = some nd) :
    Recolored { m with infos := Manager.markedInfos cfg reason m.infos nd.kind last.childIndex }
      (marked cfg m reason last nd) where
  rest := rfl
  none k hk := by
    have hkn : k ≠ last.parent := by
      rintro rfl
      have hk' : m.heap last.parent = none := hk
      rw [hn] at hk'
      cases hk'
    exact (Function.update_of_ne hkn ..).trans hk
  node k kd hk := by
    by_cases hkn : k = last.parent
    · subst hkn
      have hk' : m.heap last.parent = some kd := hk
      rw [hn] at hk'
      obtain rfl := Option.some.inj hk'
      refine ⟨(coveredLast reason nd).covered, ?_, ?_⟩
      · show update m.heap last.parent _ last.parent = _
        rw [Function.update_self]
        unfold coveredLast
        split <;> rfl
      · unfold coveredLast
        split
        · exact fun _ => rfl
        · exact id
    · exact ⟨kd.covered, (Function.update_of_ne hkn ..).trans hk, id⟩

theorem Tidy.marked (t : Tidy m) (cfg : Cfg) (reason : BacktrackReason)
    (hn : m.heap last.parent = some nd) :
    Tidy (marked cfg m reason last nd) where
  wf := (recolored_marked cfg reason hn).wellFormed t.wf
  linked := (recolored_marked cfg reason hn).linked t.linked
  pos := t.pos
  le := t.le

-- ---------------------------------------------------------------------------
-- EndWithSuccess
-- ---------------------------------------------------------------------------

/-- The execution ends with the last location on an EXISTS node that is not given
up: the selected thread is remembered, nothing is backtracked. -/
structure Retried (m₁ m' : Manager) (last : ChildLoc) (nd : Node) : Prop where
  node   : m₁.heap last.parent = some nd
  open_  : nd.covered = false
  tried  : ∃ scope tried t var, nd.kind = .existsThread scope tried (some t) ∧
    scope.varFor t = some var ∧ m' = m₁.setNode last.parent
      { nd with kind := .existsThread scope (Manager.insertVar tried var) (some t) }

/-- The execution ends with the end node on its path, and backtracks. -/
structure Closed (cfg : Cfg) (m₁ m' : Manager) : Prop where
  closed : ∃ m₂ loc, Ended m₁ m₂ loc ∧
    Backtracked cfg m₂ (m₁.nodeStack.take (m₁.stackIndex + 1)) m'

/-- A stack in order has a last location, at a node that is not the end node. -/
theorem Tidy.last_exists (t : Tidy m) : ∃ last nd, m.getLastNodeInStack = some last ∧
    last ∈ m.nodeStack ∧ last.parent ≠ ENDNODE ∧ m.heap last.parent = some nd ∧
    last.childIndex < nd.children.length := by
  have hPos := t.pos
  have hLe := t.le
  have hAt : m.nodeStack[m.stackIndex - 1]? = some m.nodeStack[m.stackIndex - 1] :=
    List.getElem?_eq_getElem (by omega)
  obtain ⟨hEnd, nd, hn, hi⟩ := t.linked.validAt hAt
  exact ⟨_, nd, Manager.getLastNodeInStack_eq_some.mpr ⟨hPos, hAt⟩, List.getElem_mem _, hEnd, hn, hi⟩

theorem retriesExists_iff (hn : m.heap last.parent = some nd) :
    m.retriesExists last = true ↔
      nd.covered = false ∧ ∃ scope tried lvar, nd.kind = .existsThread scope tried lvar := by
  unfold Manager.retriesExists
  rw [hn]
  obtain ⟨kind, _, _, cov⟩ := nd
  cases kind <;> simp

/-- **`EndWithSuccess`** marks, and then retries an EXISTS node or closes the path. -/
theorem endWithSuccess_cases (t : Tidy m) (hEq : m.endWithSuccess cfg reason = some m') :
    ∃ last nd, m.getLastNodeInStack = some last ∧ m.heap last.parent = some nd ∧
      (Retried (marked cfg m reason last nd) m' last (coveredLast reason nd) ∨
        (((coveredLast reason nd).covered = true ∨
            ∀ scope tried lvar, nd.kind ≠ .existsThread scope tried lvar) ∧
          Closed cfg (marked cfg m reason last nd) m')) := by
  obtain ⟨last, nd, hLast, _, hEnd, hn, _⟩ := t.last_exists
  have t₁ := t.marked cfg reason hn
  have hn₁ : (marked cfg m reason last nd).heap last.parent = some (coveredLast reason nd) :=
    Function.update_self ..
  have hMark := mark_eq cfg reason hn
  refine ⟨last, nd, hLast, hn, ?_⟩
  unfold Manager.endWithSuccess at hEq
  rw [hLast, Option.bind_eq_bind, Option.bind_some, ← Option.bind_eq_bind, ← bind_assoc, hMark,
    Option.bind_eq_bind, Option.bind_some] at hEq
  by_cases hRetry : (marked cfg m reason last nd).retriesExists last = true
  · rw [if_pos hRetry] at hEq
    obtain ⟨hU, scope, tried, lvar, hKind⟩ := (retriesExists_iff hn₁).mp hRetry
    simp only [Manager.updateCoveredVars, hn₁, Option.bind_eq_bind, Option.bind_some, hKind] at hEq
    rcases lvar with _ | th
    · simp at hEq
    · simp only [Option.bind_eq_some_iff, Option.pure_def, Option.some.injEq] at hEq
      obtain ⟨var, hVar, rfl⟩ := hEq
      exact Or.inl ⟨hn₁, hU, scope, tried, th, var, hKind, hVar, rfl⟩
  · rw [if_neg hRetry] at hEq
    simp only [ne_eq, hEnd, not_false_eq_true, if_true, Option.bind_eq_bind,
      Option.bind_eq_some_iff, Manager.addToPath, Option.pure_def, Option.some.injEq] at hEq
    obtain ⟨m₂, hAdd, _, _, _, _, _, _, ⟨m₃, b⟩, hBack, rfl⟩ := hEq
    obtain ⟨m₂', loc, hAdd', hE⟩ := addEndToPath_spec t₁
    rw [hAdd] at hAdd'
    obtain rfl := Option.some.inj hAdd'
    refine Or.inr ⟨?_, ⟨m₂, loc, hE, (doBacktrack_cases (hE.complete t₁) hBack).1⟩⟩
    rw [retriesExists_iff hn₁] at hRetry
    by_cases hCov : (coveredLast reason nd).covered = true
    · exact Or.inl hCov
    · refine Or.inr fun scope tried lvar hKind => hRetry ⟨by simpa using hCov, scope, tried, lvar, ?_⟩
      rw [coveredLast_kind, hKind]

-- ---------------------------------------------------------------------------
-- The next execution
-- ---------------------------------------------------------------------------

/-- **Restart** keeps a stack that starts at the root, or resets it when the tree is kept. -/
theorem restart_of_head (cfg : Cfg) (hHead : m.nodeStack.head? = some ⟨ROOTNODE, 0⟩) :
    m.restart cfg = some { m with
      nodeStack := if cfg.keepExecutionTree then [⟨ROOTNODE, 0⟩] else m.nodeStack
      stackIndex := 1 } := by
  have hAt : m.nodeStack[0]? = some ⟨ROOTNODE, 0⟩ := by rw [← List.head?_eq_getElem?, hHead]
  have hRoot : ROOTNODE ≠ ENDNODE := by decide
  by_cases hKeep : cfg.keepExecutionTree = true
  · simp [Manager.restart, hKeep, Manager.addToNodeStack, hRoot, guard]
  · have hLen : ¬ 0 = m.nodeStack.length := Nat.ne_of_lt (List.getElem?_eq_some_iff.mp hAt).1
    simp [Manager.restart, hKeep, Manager.addToNodeStack, hAt, hRoot, guard, hLen]

theorem restart_eq (cfg : Cfg) (hL : Linked m.heap m.nodeStack) :
    m.restart cfg = some { m with
      nodeStack := if cfg.keepExecutionTree then [⟨ROOTNODE, 0⟩] else m.nodeStack
      stackIndex := 1 } := restart_of_head cfg hL.head

/-- The root alone is a path. -/
theorem linked_root {h : Heap} {next : Nat} (wf : WellFormed h next) :
    Linked h [⟨ROOTNODE, 0⟩] where
  head := rfl
  valid l hl := by
    rw [List.mem_singleton.mp hl]
    obtain ⟨rd, hrd, hKind⟩ := wf.root
    refine ⟨by decide, rd, hrd, ?_⟩
    rw [wf.shape hrd, hKind]
    exact Nat.one_pos
  chain := List.isChain_singleton _

/-- **A restarted manager is tidy.** -/
theorem tidy_restart (wf : WellFormed m.heap m.next) (hL : Linked m.heap m.nodeStack)
    (hEq : m.restart cfg = some m') : Tidy m' := by
  rw [restart_eq cfg hL] at hEq
  obtain rfl := Option.some.inj hEq
  by_cases hKeep : cfg.keepExecutionTree = true
  · simp only [hKeep, if_true]
    exact ⟨wf, linked_root wf, Nat.le_refl _, Nat.le_refl _⟩
  · simp only [hKeep, Bool.false_eq_true, if_false]
    exact ⟨wf, hL, Nat.le_refl _, hL.length_pos⟩

/-- The heap between propagation and truncation. -/
theorem Backtracked.heap_cases {base : List ChildLoc} (hB : Backtracked cfg m base m') :
    ∃ mid hi, Propagated m.nodeStack m base.length mid hi ∧ hi ≠ 1 ∧
      m' = { m with
        heap := m'.heap, nodeStack := m.nodeStack.take (hi - 1), stackIndex := hi - 1 } ∧
      (m'.heap = mid.heap ∨ (1 ≤ hi ∧ hi ≤ base.length - 1 ∧ cfg.deleteCoveredSubtrees = true ∧
        ∃ l, base[hi - 1]? = some l ∧ Shortcut mid.heap m'.heap l.parent l.childIndex)) := by
  obtain ⟨mid, hi, h', hProp, hNe, hKeep, hCut⟩ := hB
  refine ⟨mid, hi, hProp, hNe, rfl, ?_⟩
  by_cases hDel : cfg.deleteCoveredSubtrees = true ∧ 1 ≤ hi ∧ hi ≤ base.length - 1
  · exact Or.inr ⟨hDel.2.1, hDel.2.2, hDel.1, hCut hDel.1 hDel.2.1 hDel.2.2⟩
  · exact Or.inl (hKeep hDel)

/-- A shortcut keeps the flags of the nodes that stay. -/
theorem Shortcut.isCovered {next p k : Nat} {m₁ m₂ : Manager}
    (hCut : Shortcut m₁.heap m₂.heap p i) (wf : WellFormed m₁.heap next)
    (hk : ¬ Below m₁.heap p i k) : m₂.isCovered k = m₁.isCovered k := by
  by_cases hkEnd : k = ENDNODE
  · subst hkEnd
    obtain ⟨_, hE⟩ := wf.endNode
    simp [Manager.isCovered, hE, hCut.at_end wf]
  · unfold Manager.isCovered
    rcases hm : m₁.heap k with _ | kd
    · have hkp : k ≠ p := by
        rintro rfl
        obtain ⟨_, pd, hp, _⟩ := hCut.valid
        have hp' : m₁.heap k = some pd := hp
        rw [hm] at hp'
        cases hp'
      rw [hCut.frame wf hk hkp hkEnd, hm]
    · obtain ⟨kd', hk', _, hCov, _⟩ := hCut.node_of_not_below wf hk hm
      rw [hk']
      exact hCov

/-- **After a backtrack that leaves the root uncovered** the stack is a linked path
again, a proper initial part of the old one. -/
theorem Backtracked.linked {base : List ChildLoc} (c : Complete m base)
    (hB : Backtracked cfg m base m') (hRoot : m'.isCovered ROOTNODE = false) :
    WellFormed m'.heap m'.next ∧ Linked m'.heap m'.nodeStack ∧
      ∃ hi, 2 ≤ hi ∧ hi ≤ base.length ∧ m'.nodeStack = base.take (hi - 1) := by
  obtain ⟨mid, hi, hProp, hNe, hRest, hHeap⟩ := hB.heap_cases
  have c' := hProp.recolored.complete c
  have hLe := hProp.le
  have hNext : m'.next = mid.next := by rw [hRest, hProp.recolored.rest]
  have hStack : m'.nodeStack = m.nodeStack.take (hi - 1) := by rw [hRest]
  have hNotBelowRoot : ∀ {p i : Nat}, ¬ Below mid.heap p i ROOTNODE := fun hb =>
    absurd (c'.wf.below_gt hb) (Nat.not_lt_zero _)
  -- the root is not covered, so the loop has stopped below it
  have hPos : hi ≠ 0 := by
    rintro rfl
    obtain ⟨l, hl, hCov⟩ := hProp.at_hi c
    rw [c.getElem? c.length_pos, ← List.head?_eq_getElem?, c.linked.head] at hl
    obtain rfl := Option.some.inj hl
    rcases hHeap with hSame | ⟨hOne, _⟩
    · unfold Manager.isCovered at hRoot hCov
      rw [hSame] at hRoot
      rw [hCov] at hRoot
      cases hRoot
    · omega
  have hTake : m'.nodeStack = base.take (hi - 1) := by
    rw [hStack, c.stack, List.take_append_of_le_length (by omega)]
  refine ⟨?_, ?_, hi, by omega, hLe, hTake⟩
  · rw [hNext]
    rcases hHeap with hSame | ⟨_, _, _, l, _, hCut⟩
    · rw [hSame]
      exact c'.wf
    · exact hCut.wellFormed c'.wf
  · rw [hTake]
    rcases hHeap with hSame | ⟨_, _, _, l, hl, hCut⟩
    · rw [hSame]
      exact c'.linked.take (by omega)
    · -- the cut is made in the last slot of the longer path
      have hLong : (base.take hi).getLast? = some l := by
        rw [List.getLast?_eq_getElem?, List.length_take, Nat.min_eq_left hLe,
          List.getElem?_take_of_lt (by omega), hl]
      have hL := hCut.linked c'.wf (c'.linked.take (k := hi) (by omega)) hLong
      have hL' := hL.take (k := hi - 1) (by omega)
      rwa [List.take_take, Nat.min_eq_left (by omega)] at hL'

/-- **`EndWithSuccess` leaves a linked stack behind**, unless the root is covered. -/
theorem endWithSuccess_linked (t : Tidy m) (hEq : m.endWithSuccess cfg reason = some m')
    (hRoot : m'.isCovered ROOTNODE = false) :
    WellFormed m'.heap m'.next ∧ Linked m'.heap m'.nodeStack := by
  obtain ⟨last, nd, _, hn, hRetry | ⟨_, m₂, loc, hE, hB⟩⟩ := endWithSuccess_cases t hEq
  · have t₁ := t.marked cfg reason hn
    obtain ⟨scope, tried, th, var, hKind, _, rfl⟩ := hRetry.tried
    have hGrow : Regrown (coveredLast reason nd) { coveredLast reason nd with
        kind := .existsThread scope (Manager.insertVar tried var) (some th) } := by
      refine ⟨rfl, rfl, ⟨0, by simp⟩, ?_, fun h => by rw [hKind] at h; cases h⟩
      have hShape := t₁.wf.shape hRetry.node
      rw [hKind] at hShape
      exact hShape
    have hEnd := ne_end_of_kind t₁.wf hRetry.node fun h => by rw [hKind] at h; cases h
    exact ⟨t₁.wf.updateData hRetry.node hEnd hGrow.sameLinks fun _ _ _ => hGrow.parent,
      t₁.linked.updateData hRetry.node hGrow⟩
  · have t₁ := t.marked cfg reason hn
    obtain ⟨wf, hL, _⟩ := hB.linked (hE.complete t₁) hRoot
    exact ⟨wf, hL⟩

end Concurrit.Model
