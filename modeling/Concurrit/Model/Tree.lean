import Mathlib.Data.List.Basic
import Mathlib.Logic.Function.Basic

/-!
# Concurrit — the execution tree

The nodes of the execution tree of `dsl.h`/`dsl.cpp`, kept in a heap so that
parent pointers, child slots and deletion are the ones of the source: a
`NodeId` is a pointer, the heap maps a pointer to the node it points to, and
a deleted node is a pointer the heap no longer knows.

* `Node` carries the fields of `ExecutionTree` the search reads (parent,
  children, covered) and, in its `NodeKind`, the fields of its subclass;
* `Manager` is the state of `ExecutionTreeManager` that outlives one critical
  section (tree, node stack, stack index) together with the `StaticChoiceInfo`
  objects the choice nodes share;
* the coverage rules (`child_covered`, `ComputeCoverage`) are per node kind,
  as the virtual functions of the source are.

Operations that contain a `safe_assert` or `safe_check` live in `Option`:
`none` is a failed check, after which the process is gone.
-/

namespace Concurrit.Model

-- ---------------------------------------------------------------------------
-- Identifiers
-- ---------------------------------------------------------------------------

/-- A pointer to an `ExecutionTree` node. -/
abbrev NodeId := Nat

/-- A `Coroutine*`. -/
abbrev Thread := Nat

/-- The `ThreadVar*` behind a `ThreadVarPtr` of the script. -/
abbrev TVar := Nat

/-- A static `StaticChoiceInfo` object: one per choice in the source of the script. -/
abbrev StaticId := Nat

def ROOTNODE : Nat := 0

def ENDNODE : Nat := 1

/-- A thread variable kept by a node: one of the script's variables, or one
that `create_thread_var` made for a thread and that no other pointer equals. -/
inductive ThreadVar where
  | bound (v : TVar)
  | created (thread : Thread)
deriving DecidableEq, Repr

/-- `ThreadVarPtrSet`: the variables of a scope with the threads they are bound
to. A set of pointers, so no variable occurs twice. -/
structure ThreadVarPtrSet where
  vars : List (TVar × Thread)
  nodup : (vars.map Prod.fst).Nodup
deriving DecidableEq

namespace ThreadVarPtrSet

def size (s : ThreadVarPtrSet) : Nat := s.vars.length

def empty (s : ThreadVarPtrSet) : Bool := s.vars.isEmpty

/-- `FindByThread`: the first variable of the set bound to the thread. -/
def findByThread (s : ThreadVarPtrSet) (t : Thread) : Option TVar :=
  (s.vars.find? fun p => p.2 == t).map Prod.fst

/-- The thread a variable of the set is bound to. -/
def threadOf (s : ThreadVarPtrSet) (v : TVar) : Option Thread :=
  (s.vars.find? fun p => p.1 == v).map Prod.snd

end ThreadVarPtrSet

/-- `ThreadVar::thread()`, read under the scope the node was submitted with. -/
def ThreadVar.thread (scope : ThreadVarPtrSet) : ThreadVar → Option Thread
  | .bound v => scope.threadOf v
  | .created t => some t

/-- The variable a thread selection files a thread under: the scope's own one, or
a variable made for the thread where the scope is `NULL` or empty. -/
def ThreadVarPtrSet.varFor (scope : ThreadVarPtrSet) (t : Thread) : Option ThreadVar :=
  if scope.empty then some (.created t) else (scope.findByThread t).map .bound

-- ---------------------------------------------------------------------------
-- Nodes
-- ---------------------------------------------------------------------------

/-- The subclasses of `ExecutionTree`, with the fields they add. -/
inductive NodeKind where
  | root
  | endNode
  | choice (staticInfo : StaticId)
  | conditional (value : Bool)
  | forallThread (scope : ThreadVarPtrSet) (idxToThreadMap : List ThreadVar)
      (lvar : Option Thread)
  | existsThread (scope : ThreadVarPtrSet) (coveredVars : List ThreadVar)
      (lvar : Option Thread)
  | runThrough
  | runUntil
deriving DecidableEq

namespace NodeKind

/-- `INSTANCEOF(n, SelectThreadNode*)`. -/
def isSelectThread : NodeKind → Bool
  | .forallThread .. => true
  | .existsThread .. => true
  | _ => false

/-- `INSTANCEOF(n, ChoiceNode*)`. -/
def isChoice : NodeKind → Bool
  | .choice _ => true
  | _ => false

/-- `INSTANCEOF(n, ConditionalNode*)`. -/
def isConditional : NodeKind → Bool
  | .conditional _ => true
  | _ => false

/-- The number of children the constructor of the node makes. -/
def initChildren : NodeKind → Nat
  | .choice _ => 2
  | .forallThread .. => 0
  | _ => 1

end NodeKind

structure Node where
  kind : NodeKind
  parent : Option NodeId
  children : List (Option NodeId)
  covered : Bool
deriving DecidableEq

/-- A freshly constructed node: no parent yet, all children `NULL`. -/
def Node.new (kind : NodeKind) : Node where
  kind := kind
  parent := none
  children := List.replicate kind.initChildren none
  covered := false

/-- `ExecutionTree::child`: `NULL` outside the vector. -/
def Node.child (nd : Node) (i : Nat) : Option NodeId := nd.children[i]?.join

/-- A location of the tree: a node and the index of one of its children. The
empty location of the source (`NULL` or index `-1`) is kept apart by type. -/
structure ChildLoc where
  /-- pointer to the node -/
  parent : Nat
  childIndex : Nat
deriving DecidableEq, Repr

/-- The two marks and the kind of choice that all instances of one choice share. -/
structure StaticChoiceInfo where
  nondet : Bool
  covered : Bool → Bool

/-- `set_covered(i, true)`. -/
def StaticChoiceInfo.setCovered (s : StaticChoiceInfo) (i : Bool) : StaticChoiceInfo :=
  { s with covered := fun j => if j = i then true else s.covered j }

abbrev Heap := Nat → Option Node

structure Manager where
  heap : Heap
  /-- the next pointer `new` returns -/
  next : Nat
  infos : StaticId → StaticChoiceInfo
  nodeStack : List ChildLoc
  stackIndex : Nat
  /-- `scenario->group()->GetNumMembers()` -/
  numMembers : Nat

namespace Manager

def setNode (m : Manager) (n : NodeId) (nd : Node) : Manager :=
  { m with heap := Function.update m.heap n (some nd) }

def eraseNode (m : Manager) (n : NodeId) : Manager :=
  { m with heap := Function.update m.heap n none }

/-- `new`: the node and its pointer. -/
def alloc (m : Manager) (nd : Node) : Manager × NodeId :=
  ({ m.setNode m.next nd with next := m.next + 1 }, m.next)

-- ---------------------------------------------------------------------------
-- Coverage
-- ---------------------------------------------------------------------------

/-- `covered()` behind a pointer. -/
def isCovered (m : Manager) (n : NodeId) : Bool :=
  match m.heap n with
  | some nd => nd.covered
  | none => false

/-- `ExecutionTree::child_covered`. -/
def treeChildCovered (m : Manager) (nd : Node) (i : Nat) : Bool :=
  match nd.child i with
  | some c => m.isCovered c
  | none => false

/-- `child_covered`: a choice node also asks its static info. -/
def childCovered (m : Manager) (nd : Node) (i : Nat) : Bool :=
  match nd.kind with
  | .choice s => m.treeChildCovered nd i || (m.infos s).covered (i == 1)
  | _ => m.treeChildCovered nd i

/-- The rule of `ExecutionTree::ComputeCoverage`: every child is there and covered. -/
def childrenCovered (m : Manager) (nd : Node) : Bool :=
  nd.children.all fun c =>
    match c with
    | some c => m.isCovered c
    | none => false

/-- What the `ComputeCoverage` of the node's class computes for an uncovered node. -/
def coverageRule (m : Manager) (nd : Node) : Bool :=
  match nd.kind with
  | .choice _ => m.childCovered nd 0 && m.childCovered nd 1
  | .forallThread scope _ _ =>
    let sz := if scope.size = 0 then m.numMembers else scope.size
    nd.children.length == sz && m.childrenCovered nd
  | _ => m.childrenCovered nd

/-- The two assertions at the end of `ChoiceNode::ComputeCoverage`: the flag says
what the rule says. -/
def coverageAssert (m : Manager) (nd : Node) (cov : Bool) : Bool :=
  match nd.kind with
  | .choice _ => cov == m.coverageRule nd
  | _ => true

/-- `ComputeCoverage()`. -/
def computeCoverage (m : Manager) (n : NodeId) : Option (Manager × Bool) := do
  let nd ← m.heap n
  let cov := nd.covered || m.coverageRule nd
  guard (m.coverageAssert nd cov)
  return (m.setNode n { nd with covered := cov }, cov)

-- ---------------------------------------------------------------------------
-- Child locations and deletion
-- ---------------------------------------------------------------------------

/-- `set_child`, which asserts that the index is in range. -/
def setChild (m : Manager) (loc : ChildLoc) (c : Option NodeId) : Option Manager := do
  let nd ← m.heap loc.parent
  guard (loc.childIndex < nd.children.length)
  return m.setNode loc.parent { nd with children := nd.children.set loc.childIndex c }

/-- `node->set_parent(parent)`. -/
def setParent (m : Manager) (n p : NodeId) : Option Manager := do
  let nd ← m.heap n
  return m.setNode n { nd with parent := some p }

/-- `ChildLoc::get`. -/
def get (m : Manager) (loc : ChildLoc) : Option (Option NodeId) := do
  let nd ← m.heap loc.parent
  nd.children[loc.childIndex]?

/-- `ChildLoc::set`: writes the slot and, unless it is `NULL`, the node's parent. -/
def set (m : Manager) (loc : ChildLoc) (c : Option NodeId) : Option Manager := do
  let m ← m.setChild loc c
  match c with
  | some n => m.setParent n loc.parent
  | none => return m

/-- `ChildLoc::check`: the slot holds the node, and the node knows its parent. -/
def check (m : Manager) (loc : ChildLoc) (c : Option NodeId) : Option Bool := do
  let c' ← m.get loc
  match c with
  | none => return c' == none
  | some n =>
    let nd ← m.heap n
    return c' == some n && nd.parent == some loc.parent

/-- `delete`: the destructor deletes the children other than the end node, then
the node goes. `fuel` bounds the depth of the recursion. -/
def delete : Nat → Manager → NodeId → Manager
  | 0, m, _ => m
  | fuel + 1, m, n =>
    match m.heap n with
    | none => m
    | some nd =>
      let m := nd.children.foldl (fun m c =>
        match c with
        | some c => if c = ENDNODE then m else delete fuel m c
        | none => m) m
      m.eraseNode n

/-- `delete n` with enough fuel: children are allocated after their parents. -/
def deleteTree (m : Manager) (n : NodeId) : Manager := m.delete (m.next - n) n

end Manager

end Concurrit.Model
