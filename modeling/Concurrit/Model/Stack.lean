import Mathlib.Data.List.Chain
import Mathlib.Data.Option.Basic
import Concurrit.Model.Heap
import Concurrit.Model.Manager

/-!
# Concurrit — the node stack

The node stack is a linked path from the root (`Linked`): each location's slot
holds the node of the next location. This module says what the elementary
operations on stack and slots do to such a path; the operations of the DSL and
the end of an execution are put together from them.
-/

namespace Concurrit.Model

open Function (update)

-- ---------------------------------------------------------------------------
-- Linked paths
-- ---------------------------------------------------------------------------

/-- The slot of a location holds the node of the next one. -/
def LinksTo (h : Heap) (l l' : ChildLoc) : Prop := Slot h l.parent l.childIndex l'.parent

/-- The location names an existing child slot of a node other than the end node. -/
def ValidLoc (h : Heap) (l : ChildLoc) : Prop :=
  l.parent ≠ ENDNODE ∧ ∃ nd, h l.parent = some nd ∧ l.childIndex < nd.children.length

/-- A root-anchored linked path. -/
structure Linked (h : Heap) (stack : List ChildLoc) : Prop where
  head  : stack.head? = some ⟨ROOTNODE, 0⟩
  valid : ∀ l ∈ stack, ValidLoc h l
  chain : stack.IsChain (LinksTo h)

/-- No node of these locations is covered. -/
def Uncovered (h : Heap) (stack : List ChildLoc) : Prop :=
  ∀ l ∈ stack, ∀ nd, h l.parent = some nd → nd.covered = false

variable {h h' : Heap} {next : Nat} {stack : List ChildLoc} {l l' : ChildLoc} {n i k : Nat}

theorem Linked.length_pos (hL : Linked h stack) : 0 < stack.length := by
  rcases stack with _ | ⟨_, _⟩
  · simpa using hL.head
  · simp

theorem Linked.ne_nil (hL : Linked h stack) : stack ≠ [] :=
  List.ne_nil_of_length_pos hL.length_pos

/-- The next location's node sits in the slot. -/
theorem Linked.slot (hL : Linked h stack) (hk : stack[k]? = some l) (hk' : stack[k + 1]? = some l') :
    Slot h l.parent l.childIndex l'.parent := by
  obtain ⟨hlt, rfl⟩ := List.getElem?_eq_some_iff.mp hk
  obtain ⟨hlt', rfl⟩ := List.getElem?_eq_some_iff.mp hk'
  exact List.isChain_iff_getElem.mp hL.chain k hlt'

theorem Linked.validAt (hL : Linked h stack) (hk : stack[k]? = some l) : ValidLoc h l :=
  hL.valid l (List.mem_of_getElem? hk)

/-- A non-empty initial part of a linked path. -/
theorem Linked.take (hL : Linked h stack) (hk : 0 < k) : Linked h (stack.take k) where
  head := by rw [List.head?_take, if_neg (by omega), hL.head]
  valid l hl := hL.valid l (List.mem_of_mem_take hl)
  chain := hL.chain.take k

/-- A path is extended by a location of the node its last slot holds. -/
theorem Linked.push (hL : Linked h stack) (hLast : ∀ l ∈ stack.getLast?, LinksTo h l l')
    (hValid : ValidLoc h l') : Linked h (stack ++ [l']) where
  head := by
    rw [List.head?_append, hL.head]
    rfl
  valid l hl := by
    rcases List.mem_append.mp hl with hl | hl
    · exact hL.valid l hl
    · rw [List.mem_singleton.mp hl]
      exact hValid
  chain := by
    rw [List.isChain_append]
    refine ⟨hL.chain, List.isChain_singleton l', ?_⟩
    intro x hx y hy
    obtain rfl : l' = y := by simpa using hy
    exact hLast x hx

/-- A path survives edits that keep its nodes and the slots between them. -/
theorem Linked.mono (hL : Linked h stack)
    (hValid : ∀ l ∈ stack, ValidLoc h l → ValidLoc h' l)
    (hSlot : ∀ k l l', stack[k]? = some l → stack[k + 1]? = some l' → LinksTo h l l' →
      LinksTo h' l l') :
    Linked h' stack where
  head := hL.head
  valid l hl := hValid l hl (hL.valid l hl)
  chain := by
    rw [List.isChain_iff_getElem]
    intro k hk
    exact hSlot k _ _ (List.getElem?_eq_getElem (Nat.lt_of_succ_lt hk))
      (List.getElem?_eq_getElem hk) (List.isChain_iff_getElem.mp hL.chain k hk)

/-- The first location's node was allocated before the second one's. -/
def Earlier (l l' : ChildLoc) : Prop := l.parent < l'.parent

instance : Trans Earlier Earlier Earlier := ⟨fun h h' => Nat.lt_trans h h'⟩

/-- Along a linked path nodes are allocated later and later. -/
theorem Linked.pairwise_lt (hL : Linked h stack) (wf : WellFormed h next) :
    stack.Pairwise Earlier := by
  rw [← List.isChain_iff_pairwise, List.isChain_iff_getElem]
  intro k hk
  have hSlot := List.isChain_iff_getElem.mp hL.chain k hk
  have hValid := hL.valid stack[k + 1] (List.getElem_mem hk)
  exact (wf.child hSlot hValid.1).1

/-- No node of a linked path is later than the node of its last location. -/
theorem Linked.le_last (hL : Linked h stack) (wf : WellFormed h next)
    (hLast : stack.getLast? = some l) (hl' : l' ∈ stack) : l'.parent ≤ l.parent := by
  obtain ⟨init, rfl⟩ : ∃ init, stack = init ++ [l] := by
    have := List.dropLast_append_getLast? l hLast
    exact ⟨stack.dropLast, this.symm⟩
  have hPair := hL.pairwise_lt wf
  rw [List.pairwise_append] at hPair
  rcases List.mem_append.mp hl' with hl' | hl'
  · exact Nat.le_of_lt (hPair.2.2 l' hl' l (by simp))
  · rw [List.mem_singleton.mp hl']

-- ---------------------------------------------------------------------------
-- Elementary operations
-- ---------------------------------------------------------------------------

variable {m m' : Manager} {last : ChildLoc} {nd pd ed : Node} {o : Option NodeId}

namespace Manager

theorem getLastNodeInStack_eq_some :
    m.getLastNodeInStack = some l ↔ 1 ≤ m.stackIndex ∧ m.nodeStack[m.stackIndex - 1]? = some l := by
  simp [getLastNodeInStack, Option.bind_eq_some_iff, Option.guard_eq_some']

theorem getNextNodeInStack_recorded (hNext : m.nodeStack[m.stackIndex]? = some l) :
    m.getNextNodeInStack = some (some l.parent, some l.childIndex) := by
  have hLt : m.stackIndex ≤ m.nodeStack.length :=
    Nat.le_of_lt (List.getElem?_eq_some_iff.mp hNext).1
  simp [getNextNodeInStack, hNext, hLt, guard]

theorem get_eq (hn : m.heap l.parent = some nd) : m.get l = nd.children[l.childIndex]? := by
  simp [get, hn]

theorem getNextNodeInStack_end (hEnd : m.stackIndex = m.nodeStack.length)
    (hLast : m.nodeStack.getLast? = some last) (hp : m.heap last.parent = some pd)
    (ho : pd.children[last.childIndex]? = some o) :
    m.getNextNodeInStack = some (o, none) := by
  simp [getNextNodeInStack, hEnd, hLast, get_eq hp, ho, guard]

theorem addToNodeStack_end (hEnd : m.stackIndex = m.nodeStack.length) :
    m.addToNodeStack l =
      some { m with nodeStack := m.nodeStack ++ [l], stackIndex := m.stackIndex + 1 } := by
  simp [addToNodeStack, hEnd, guard]

/-- Following the recorded stack is to find the same location there. -/
theorem addToNodeStack_recorded (hNext : m.nodeStack[m.stackIndex]? = some l')
    (hl : l.parent ≠ ENDNODE) :
    m.addToNodeStack l = if l' = l then some { m with stackIndex := m.stackIndex + 1 } else none := by
  have hLt := (List.getElem?_eq_some_iff.mp hNext).1
  have hNe : ¬ m.stackIndex = m.nodeStack.length := by omega
  by_cases hEq : l' = l
  · simp [addToNodeStack, hNext, hl, hNe, hEq, guard]
  · simp [addToNodeStack, hNext, hl, hNe, hEq, guard]

/-- Writing a node into a slot also sets the node's parent pointer. -/
theorem set_some (hp : m.heap l.parent = some pd) (hi : l.childIndex < pd.children.length)
    (hn : m.heap n = some nd) (hne : n ≠ l.parent) :
    m.set l (some n) = some { m with
      heap := update (update m.heap l.parent
          (some { pd with children := pd.children.set l.childIndex (some n) }))
        n (some { nd with parent := some l.parent }) } := by
  simp [set, setChild, setParent, setNode, hp, hi, hn, hne, guard]

theorem set_none (hp : m.heap l.parent = some pd) (hi : l.childIndex < pd.children.length) :
    m.set l none = some { m with
      heap := update m.heap l.parent
        (some { pd with children := pd.children.set l.childIndex none }) } := by
  simp [set, setChild, setNode, hp, hi, guard]

/-- Writing a slot's node again changes nothing. -/
theorem set_same (hp : m.heap l.parent = some pd)
    (hc : pd.children[l.childIndex]? = some (some n)) (hn : m.heap n = some nd)
    (hpar : nd.parent = some l.parent) (hne : n ≠ l.parent) : m.set l (some n) = some m := by
  have hi := (List.getElem?_eq_some_iff.mp hc).1
  rw [set_some hp hi hn hne]
  have hpd : { pd with children := pd.children.set l.childIndex (some n) } = pd := by
    have hEq := (List.getElem?_eq_some_iff.mp hc).2
    have hSet : pd.children.set l.childIndex (some n) = pd.children := by
      conv_lhs => rw [← hEq]
      exact List.set_getElem_self hi
    rw [hSet]
  have hnd : { nd with parent := some l.parent } = nd := by rw [← hpar]
  rw [hpd, hnd, ← hp, Function.update_eq_self, ← hn, Function.update_eq_self]

theorem check_none (hp : m.heap l.parent = some pd) (ho : pd.children[l.childIndex]? = some o) :
    m.check l none = some (o == none) := by
  simp [check, get_eq hp, ho]

theorem check_some (hp : m.heap l.parent = some pd) (ho : pd.children[l.childIndex]? = some o)
    (hn : m.heap n = some nd) :
    m.check l (some n) = some (o == some n && nd.parent == some l.parent) := by
  simp [check, get_eq hp, ho, hn]

end Manager

end Concurrit.Model
