import Concurrit.Model.Coherence
import Concurrit.Model.Search

/-!
# Concurrit — closing an execution of a plain script

The end of an execution in terms of positions: the end node is put at the end
of the path (`Pruned`), coverage is propagated upwards, and the largest covered
subtree may be replaced by the end node (`Finish`). The next execution starts on
an initial part of the path.
-/

namespace Concurrit.Model

open Function (update)
open Walk

variable {h h' : Heap} {next n p i k c : Nat} {a b : Answer} {m m' m₁ m₂ mid : Manager}
  {nd nd' pd : Node} {l last loc : ChildLoc} {stack base : List ChildLoc} {path q π : List Answer}
  {script : Script} {op : Op} {env : Env} {history ρ : List Answer} {cfg : Cfg}
  {reason : BacktrackReason}

-- ---------------------------------------------------------------------------
-- Pruning
-- ---------------------------------------------------------------------------

/-- The end node hangs at one position, nothing hangs below it, and the rest of the
tree is what it was. -/
def Pruned (h h' : Heap) (π : List Answer) : Prop :=
  ∀ q, nodeAt h' q = if q = π then some ENDNODE else if π <+: q then none else nodeAt h q

theorem Pruned.at_end (hP : Pruned h h' π) : nodeAt h' π = some ENDNODE := by
  rw [hP, if_pos rfl]

theorem Pruned.below (hP : Pruned h h' π) (hq : π <+: q) (hne : q ≠ π) : nodeAt h' q = none := by
  rw [hP, if_neg hne, if_pos hq]

theorem Pruned.other (hP : Pruned h h' π) (hq : ¬ π <+: q) : nodeAt h' q = nodeAt h q := by
  have hne : q ≠ π := by
    rintro rfl
    exact hq (List.prefix_refl _)
  rw [hP, if_neg hne, if_neg hq]

/-- A node other than the end node has stayed where it was. -/
theorem Pruned.of_ne_end (hP : Pruned h h' π) (hn : nodeAt h' q = some n) (hEnd : n ≠ ENDNODE) :
    ¬ π <+: q ∧ nodeAt h q = some n := by
  have hNot : ¬ π <+: q := by
    intro hq
    by_cases hne : q = π
    · rw [hne, hP.at_end] at hn
      exact hEnd (Option.some.inj hn).symm
    · rw [hP.below hq hne] at hn
      cases hn
  exact ⟨hNot, by rw [← hP.other hNot, hn]⟩

/-- The slot of a location of the stack, seen from its path. -/
theorem Labelled.slot_at (hL : Labelled h stack path) (hLinked : Linked h stack)
    (hk : stack[k]? = some l) : ∃ a nd, h l.parent = some nd ∧
      slotOf nd.kind a = some l.childIndex ∧ nodeAt h (path.take k) = some l.parent ∧
      path.take (k + 1) = path.take k ++ [a] := by
  obtain ⟨a, ha, nd, hnd, hi⟩ := hL.exists_answer hk
  refine ⟨a, nd, hnd, hi, hL.nodeAt_take hLinked hk, ?_⟩
  rw [List.take_add_one, ha]
  rfl

/-- **A shortcut on the stack prunes the tree** at the position of the slot. -/
theorem Shortcut.pruned (hCut : Shortcut h h' l.parent l.childIndex) (wf : WellFormed h next)
    (hL : Labelled h stack path) (hLinked : Linked h stack) (hk : stack[k]? = some l) :
    Pruned h h' (path.take (k + 1)) := by
  obtain ⟨a, nd, hnd, hi, hPath, hTake⟩ := hL.slot_at hLinked hk
  rw [hTake]
  exact hCut.nodeAt wf hnd hi hPath

/-- A shortcut on the stack keeps the tree coherent. -/
theorem Coherent.shortcut_at (hC : Coherent script h) (hCut : Shortcut h h' l.parent l.childIndex)
    (wf : WellFormed h next) (hL : Labelled h stack path) (hLinked : Linked h stack)
    (hk : stack[k]? = some l) : Coherent script h' := by
  obtain ⟨a, nd, hnd, hi, hPath, _⟩ := hL.slot_at hLinked hk
  exact hC.shortcut hCut wf hnd hi hPath

-- ---------------------------------------------------------------------------
-- The end of an execution
-- ---------------------------------------------------------------------------

/-- The states the end of an execution passes through: marked, closed by the end
node (`m₂`), propagated (`mid`), cut and truncated (`m'`). -/
structure Finish (cfg : Cfg) (m : Manager) (reason : BacktrackReason) (path : List Answer)
    (m' : Manager) (last : ChildLoc) (nd : Node) (m₂ mid : Manager) (hi : Nat) : Prop where
  lastLoc  : m.getLastNodeInStack = some last
  lastNode : m.heap last.parent = some nd
  ended    : ∃ loc, Ended (marked cfg m reason last nd) m₂ loc
  pruned   : Pruned (marked cfg m reason last nd).heap m₂.heap (path.take (m.stackIndex + 1))
  complete : Complete m₂ (m.nodeStack.take (m.stackIndex + 1))
  labelled : Labelled m₂.heap (m.nodeStack.take (m.stackIndex + 1)) (path.take (m.stackIndex + 1))
  prop     : Propagated m₂.nodeStack m₂ (m.nodeStack.take (m.stackIndex + 1)).length mid hi
  notOne   : hi ≠ 1
  rest     : m' = { m₂ with
    heap := m'.heap
    nodeStack := m₂.nodeStack.take (hi - 1)
    stackIndex := hi - 1 }
  cut      : m'.heap = mid.heap ∨
    (1 ≤ hi ∧ hi ≤ (m.nodeStack.take (m.stackIndex + 1)).length - 1 ∧
      cfg.deleteCoveredSubtrees = true ∧ ∃ l, (m.nodeStack.take (m.stackIndex + 1))[hi - 1]? = some l ∧
        Shortcut mid.heap m'.heap l.parent l.childIndex ∧
        Pruned mid.heap m'.heap ((path.take (m.stackIndex + 1)).take hi))

/-- A location with a label is not one of an EXISTS node. -/
theorem Labels.not_exists (hL : Labels h l a) (hn : h l.parent = some nd) {scope : ThreadVarPtrSet}
    {tried : List ThreadVar} {lvar : Option Thread} : nd.kind ≠ .existsThread scope tried lvar := by
  obtain ⟨nd', hnd', hi⟩ := hL
  rw [hn] at hnd'
  obtain rfl := Option.some.inj hnd'
  intro hKind
  rw [hKind] at hi
  cases a <;> cases hi

/-- **`EndWithSuccess` in a plain script** closes the path and backtracks. -/
theorem finish_of_endWithSuccess (t : Tidy m) (hL : Labelled m.heap m.nodeStack path)
    (hEnd : m.endWithSuccess cfg reason = some m') :
    ∃ last nd m₂ mid hi, Finish cfg m reason path m' last nd m₂ mid hi := by
  obtain ⟨last, nd, hLast, hn, hCase⟩ := endWithSuccess_cases t hEnd
  have hLast' := Manager.getLastNodeInStack_eq_some.mp hLast
  have hNot : ∀ scope tried lvar, nd.kind ≠ .existsThread scope tried lvar := by
    intro scope tried lvar
    obtain ⟨a, _, hLabel⟩ := hL.exists_answer hLast'.2
    exact hLabel.not_exists hn
  rcases hCase with hRetry | ⟨_, m₂, loc, hE, hB⟩
  · obtain ⟨scope, tried, th, var, hKind, _⟩ := hRetry.tried
    rw [coveredLast_kind] at hKind
    exact absurd hKind (hNot _ _ _)
  · have tM := t.marked cfg reason hn
    have hR := recolored_marked cfg reason hn
    have hLM : Labelled (marked cfg m reason last nd).heap m.nodeStack path := hR.labelled hL
    have hC := hE.complete tM
    obtain ⟨mid, hi, hProp, hNe, hRest, hHeap⟩ := hB.heap_cases
    have hLocAt : (m.nodeStack.take (m.stackIndex + 1))[
        (m.nodeStack.take (m.stackIndex + 1)).length - 1]? = some loc := by
      rw [← List.getLast?_eq_getElem?]
      exact hE.last
    have hBasePos : 0 < (m.nodeStack.take (m.stackIndex + 1)).length := hC.linked.length_pos
    have hBaseLen : (m.nodeStack.take (m.stackIndex + 1)).length - 1 + 1 =
        (m.nodeStack.take (m.stackIndex + 1)).length := Nat.sub_add_cancel hBasePos
    have hLBase : Labelled (marked cfg m reason last nd).heap
        (m.nodeStack.take (m.stackIndex + 1)) (path.take (m.stackIndex + 1)) := hLM.take _
    have hLinkedBase : Linked (marked cfg m reason last nd).heap
        (m.nodeStack.take (m.stackIndex + 1)) := tM.linked.take (Nat.succ_pos _)
    have hPruned := hE.cut.pruned tM.wf hLBase hLinkedBase hLocAt
    have hAll : (path.take (m.stackIndex + 1)).take
        ((m.nodeStack.take (m.stackIndex + 1)).length - 1 + 1) = path.take (m.stackIndex + 1) := by
      rw [hBaseLen]
      exact List.take_of_length_le (by rw [hLBase.length])
    rw [hAll] at hPruned
    have hL₂ : Labelled m₂.heap (m.nodeStack.take (m.stackIndex + 1))
        (path.take (m.stackIndex + 1)) := by
      refine hE.cut.labelled tM.wf hLBase fun l hl hBelow => ?_
      have hLe := hLinkedBase.le_last tM.wf hE.last hl
      exact absurd (tM.wf.below_gt hBelow) (Nat.not_lt.mpr hLe)
    refine ⟨last, nd, m₂, mid, hi, hLast, hn, ⟨loc, hE⟩, hPruned, hC, hL₂, hProp, hNe, hRest, ?_⟩
    rcases hHeap with hSame | ⟨hOne, hLe, hDel, l, hl, hCut⟩
    · exact Or.inl hSame
    · refine Or.inr ⟨hOne, hLe, hDel, l, hl, hCut, ?_⟩
      have hCMid := hProp.recolored.complete hC
      have hPr := hCut.pruned hCMid.wf (hProp.recolored.labelled hL₂) hCMid.linked hl
      rwa [Nat.sub_add_cancel hOne] at hPr

end Concurrit.Model
