import Concurrit.Model.Tree

/-!
# Concurrit — the execution-tree manager

The tree-editing half of `ExecutionTreeManager` in stack mode: the node stack
and its index, `AddToPath`, `DoBacktrack`, `EndWithSuccess` and `Restart`. Each
definition is one critical section (or a part of one): it runs while its caller
holds the lock on `atomic_ref_`, which is modelled in `Model/Protocol.lean`.

The empty location `{node, -1}` that `GetNextNodeInStack` returns at the end of
the stack is the pair of an optional node and an optional index.
-/

namespace Concurrit.Model

-- ---------------------------------------------------------------------------
-- Configuration and reasons
-- ---------------------------------------------------------------------------

/-- The flags of `Config` the search depends on. -/
structure Cfg where
  deleteCoveredSubtrees : Bool
  keepExecutionTree : Bool
  markEndingBranchesCovered : Bool
deriving DecidableEq, Repr

inductive BacktrackReason where
  | searchEnds
  | success
  | specUnsatisfied
  | threadsAllEnded
  | treeNodeCovered
  | assumeFails
  | timeout
  | exception
  | pthExit
  | replayFails
  | unknown
deriving DecidableEq, Repr

namespace Manager

-- ---------------------------------------------------------------------------
-- Node stack
-- ---------------------------------------------------------------------------

/-- `AddToNodeStack`: pushes at the end of the stack; before it, the location
must be the recorded one. -/
def addToNodeStack (m : Manager) (current : ChildLoc) : Option Manager := do
  let sz := m.nodeStack.length
  guard (current.parent ≠ ENDNODE ∨ m.stackIndex = sz)
  if m.stackIndex = sz then
    return { m with nodeStack := m.nodeStack ++ [current], stackIndex := m.stackIndex + 1 }
  else
    guard (m.nodeStack[m.stackIndex]? = some current)
    return { m with stackIndex := m.stackIndex + 1 }

/-- `GetNextNodeInStack`: the recorded location, or what the last location
leads to with index `-1`. -/
def getNextNodeInStack (m : Manager) : Option (Option NodeId × Option Nat) := do
  guard (m.stackIndex ≤ m.nodeStack.length)
  match m.nodeStack[m.stackIndex]? with
  | some loc => return (some loc.parent, some loc.childIndex)
  | none =>
    let back ← m.nodeStack.getLast?
    return (← m.get back, none)

/-- `GetLastNodeInStack`: the location consumed last. -/
def getLastNodeInStack (m : Manager) : Option ChildLoc := do
  guard (1 ≤ m.stackIndex)
  m.nodeStack[m.stackIndex - 1]?

/-- `TruncateNodeStack`. -/
def truncateNodeStack (m : Manager) (index : Nat) : Option Manager := do
  guard (index ≤ m.nodeStack.length)
  return { m with nodeStack := m.nodeStack.take index, stackIndex := index }

-- ---------------------------------------------------------------------------
-- Extending the path
-- ---------------------------------------------------------------------------

/-- `delete last_node`, unless it is the end node already. -/
def deleteOldRoot (m : Manager) (lastNode : Option NodeId) : Manager :=
  match lastNode with
  | some n => if n = ENDNODE then m else m.deleteTree n
  | none => m

/-- The branch of `AddToPath` for the end node: in the middle of a replay the
recorded location of the pending node is kept, whatever hung there is deleted. -/
def addEndToPath (m : Manager) : Option Manager := do
  let loc ← m.getLastNodeInStack
  match ← m.get loc with
  | none =>
    guard (m.stackIndex = m.nodeStack.length)
    let m ← m.set loc (some ENDNODE)
    m.addToNodeStack ⟨ENDNODE, 0⟩
  | some lastNode =>
    let sz := m.nodeStack.length
    guard (m.stackIndex ≤ sz)
    let (m, loc, lastNode) ←
      if m.stackIndex < sz then do
        let m ← m.truncateNodeStack (m.stackIndex + 1)
        let back ← m.nodeStack.getLast?
        guard (some lastNode = some back.parent)
        let loc ← m.getLastNodeInStack
        pure (m, loc, ← m.get loc)
      else pure (m, loc, some lastNode)
    let m ← (m.deleteOldRoot lastNode).set loc (some ENDNODE)
    m.addToNodeStack ⟨ENDNODE, 0⟩

/-- The branch of `AddToPath` for the other nodes: the slot was `NULL` or holds
the node already. -/
def addNodeToPath (m : Manager) (n : NodeId) (i : Nat) : Option Manager := do
  let loc ← m.getLastNodeInStack
  guard ((← m.check loc none) || (← m.check loc (some n)))
  let m ← m.set loc (some n)
  m.addToNodeStack ⟨n, i⟩

/-- `AddToPath`. -/
def addToPath (m : Manager) (n : NodeId) (i : Nat) : Option Manager :=
  if n = ENDNODE then m.addEndToPath else m.addNodeToPath n i

-- ---------------------------------------------------------------------------
-- Backtracking
-- ---------------------------------------------------------------------------

/-- `CheckCompletePath`. -/
def checkCompletePath (m : Manager) (path : List ChildLoc) : Bool :=
  2 ≤ path.length &&
  path[0]?.map ChildLoc.parent == some ROOTNODE &&
  match path[path.length - 1]?, path[path.length - 2]? with
  | some back, some prev =>
    back.parent == ENDNODE && m.get back == some (some ENDNODE) &&
    m.get prev == some (some ENDNODE) && prev.parent != ENDNODE
  | _, _ => false

/-- The loop of `DoBacktrack` that propagates coverage: `highest` is
`highest_covered_index`, the next element looked at is the one above it. -/
def propagate (stack : List ChildLoc) (m : Manager) : Nat → Option (Manager × Nat)
  | 0 => some (m, 0)
  | highest + 1 => do
    let element ← stack[highest]?
    let below ← stack[highest + 1]?
    guard (← m.check element (some below.parent))
    let (m, cov) ← m.computeCoverage element.parent
    if cov then propagate stack m highest else return (m, highest + 1)

/-- The last part of `DoBacktrack`'s cut: the covered subtree is shortcut to the
end node, unlinked from it at its lower end, and deleted. -/
def cutSubtree (m : Manager) (h : Nat) : Option Manager := do
  let sz := m.nodeStack.length
  let parentLoc ← m.nodeStack[h - 1]?
  let top ← m.nodeStack[h]?
  let subtreeRoot ← m.get parentLoc
  guard (subtreeRoot = some top.parent)
  let m ← m.set parentLoc (some ENDNODE)
  let lower ← m.nodeStack[sz - 2]?
  guard (lower.parent ≠ ENDNODE)
  guard ((← m.get lower) = some ENDNODE)
  let m ← m.set lower none
  return m.deleteTree top.parent

/-- The cut is made below the root only, and above the end node. -/
def deleteCovered (cfg : Cfg) (m : Manager) (highest : Nat) : Option Manager :=
  if cfg.deleteCoveredSubtrees ∧ 1 ≤ highest ∧ highest ≤ m.nodeStack.length - 2 then
    m.cutSubtree highest
  else some m

/-- `DoBacktrack`: the new state, and whether the root is still uncovered. -/
def doBacktrack (cfg : Cfg) (m : Manager) (reason : BacktrackReason) :
    Option (Manager × Bool) := do
  guard (reason ≠ .searchEnds ∧ reason ≠ .exception ∧ reason ≠ .unknown)
  guard (m.checkCompletePath m.nodeStack)
  let sz := m.nodeStack.length
  let (m, highest) ← propagate m.nodeStack m (sz - 1)
  let high ← m.nodeStack[highest]?
  guard (m.isCovered high.parent)
  guard (highest = 0 ∨ (m.nodeStack[highest - 1]?.map fun l => m.isCovered l.parent) = some false)
  guard (1 < highest ∨ m.isCovered ROOTNODE)
  let m ← m.deleteCovered cfg highest
  let m ← m.truncateNodeStack (highest - 1)
  return (m, !m.isCovered ROOTNODE)

-- ---------------------------------------------------------------------------
-- End of an execution
-- ---------------------------------------------------------------------------

/-- `set_covered(true)`. -/
def setCovered (m : Manager) (n : NodeId) : Option Manager := do
  let nd ← m.heap n
  return m.setNode n { nd with covered := true }

/-- `THREADS_ALLENDED` after a thread selection: there is no way to cover it. -/
def coverLastSelection (m : Manager) (reason : BacktrackReason) (last : ChildLoc) :
    Option Manager := do
  let nd ← m.heap last.parent
  if reason = .threadsAllEnded ∧ nd.kind.isSelectThread then m.setCovered last.parent else return m

/-- `MarkEndingBranchesCovered`: the branch taken last leads to the end of the
script, so it counts as covered in every instance of the choice. -/
def markedInfos (cfg : Cfg) (reason : BacktrackReason) (infos : StaticId → StaticChoiceInfo)
    (kind : NodeKind) (childIndex : Nat) : StaticId → StaticChoiceInfo :=
  match kind with
  | .choice s =>
    if reason = .success ∧ cfg.markEndingBranchesCovered then
      Function.update infos s ((infos s).setCovered (childIndex == 1))
    else infos
  | _ => infos

def markEndingBranch (cfg : Cfg) (m : Manager) (reason : BacktrackReason) (last : ChildLoc) :
    Option Manager := do
  let nd ← m.heap last.parent
  return { m with infos := markedInfos cfg reason m.infos nd.kind last.childIndex }

/-- `insert` into a set of thread variables. -/
def insertVar (vars : List ThreadVar) (var : ThreadVar) : List ThreadVar :=
  if var ∈ vars then vars else vars ++ [var]

/-- `UpdateCoveredVars` of an EXISTS node: the selected thread has been tried. -/
def updateCoveredVars (m : Manager) (n : NodeId) : Option Manager := do
  let nd ← m.heap n
  match nd.kind with
  | .existsThread scope coveredVars (some t) =>
    let var ← scope.varFor t
    return m.setNode n { nd with kind := .existsThread scope (insertVar coveredVars var) (some t) }
  | _ => none

/-- The location consumed last is an EXISTS node that is not given up yet. -/
def retriesExists (m : Manager) (last : ChildLoc) : Bool :=
  match m.heap last.parent with
  | some ⟨.existsThread .., _, _, covered⟩ => !covered
  | _ => false

/-- The part of `EndWithSuccess` after the lock on the reference is taken and
before the end node is released. -/
def endWithSuccess (cfg : Cfg) (m : Manager) (reason : BacktrackReason) : Option Manager := do
  let last ← m.getLastNodeInStack
  let m ← m.coverLastSelection reason last
  let m ← m.markEndingBranch cfg reason last
  if m.retriesExists last then
    -- no backtrack: the node is covered only when it cannot be consumed
    m.updateCoveredVars last.parent
  else
    let m ← if last.parent ≠ ENDNODE then m.addToPath ENDNODE 0 else some m
    let last ← m.getLastNodeInStack
    guard ((← m.get last) = some ENDNODE)
    let (m, _) ← m.doBacktrack cfg reason
    return m

/-- `Restart`: a new execution starts below the root. -/
def restart (cfg : Cfg) (m : Manager) : Option Manager := do
  let m := if cfg.keepExecutionTree then { m with nodeStack := [⟨ROOTNODE, 0⟩] } else m
  let m ← { m with stackIndex := 0 }.addToNodeStack ⟨ROOTNODE, 0⟩
  guard (m.stackIndex = 1)
  guard (¬ cfg.keepExecutionTree ∨ m.nodeStack.length = 1)
  return m

/-- The constructor, before its `Restart`: the root, the end node that points to
itself, and the pre-inserted root location. -/
def initial (nondet : StaticId → Bool) (numMembers : Nat) : Manager where
  heap := fun n =>
    if n = ROOTNODE then some (Node.new .root)
    else if n = ENDNODE then some ⟨.endNode, none, [some ENDNODE], true⟩
    else none
  next := 2
  infos := fun s => ⟨nondet s, fun _ => false⟩
  nodeStack := [⟨ROOTNODE, 0⟩]
  stackIndex := 0
  numMembers := numMembers

end Manager

end Concurrit.Model
