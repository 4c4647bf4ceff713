import Concurrit.Model.Manager

/-!
# Concurrit — DSL operations

The operations a test script performs on the execution tree (`DSLChoice`,
`DSLConditional`, `DSLRunThrough`/`DSLRunUntil`, `DSLForallThread`,
`DSLExistsThread`) and the test threads' side of a thread selection
(`EvalSelectThread`, `CheckAndSelectThread`).

An operation is cut into its critical sections: the main thread *submits* a
node, test threads *evaluate* it one after the other, and the one that accepts
it *consumes* it. `dslOp` puts the sections of one operation in sequence.
-/

namespace Concurrit.Model

/-- A thread that evaluates a thread selection, with the value of the
selection's predicate (`CanSelectThread`) for it. -/
structure Offer where
  thread : Thread
  canSelect : Bool
deriving DecidableEq, Repr

/-- What an operation of the script returns to the script. -/
inductive Answer where
  | branch (b : Bool)
  | unit
  | thread (t : Thread)
deriving DecidableEq, Repr

/-- How an operation of the script ends. -/
inductive OpResult where
  | returns (a : Answer)
  | throws (reason : BacktrackReason)
deriving DecidableEq, Repr

/-- The next operation of the script. `finish` is the end of the script,
`assumeFails` an assumption that does not hold. -/
inductive Op where
  | finish
  | choice (staticInfo : StaticId)
  | conditional (value : Bool)
  | runThrough
  | runUntil
  | forallThread (scope : ThreadVarPtrSet)
  | existsThread (scope : ThreadVarPtrSet)
  | assumeFails
deriving DecidableEq

/-- What the surroundings contribute to one operation: the random bit of a
nondeterministic choice, the threads that evaluate a selection, whether a
transition is consumed in time, and whether all threads have ended before the
operation or by the time a timeout is handled. -/
structure Env where
  bit : Bool
  offers : List Offer
  consumed : Bool
  allEnded : Bool
  allEndedAfter : Bool

/-- `lvar_->set_thread`. -/
def Node.setLvar (nd : Node) (t : Thread) : Node :=
  match nd.kind with
  | .forallThread scope idxToThreadMap _ =>
    { nd with kind := .forallThread scope idxToThreadMap (some t) }
  | .existsThread scope coveredVars _ =>
    { nd with kind := .existsThread scope coveredVars (some t) }
  | _ => nd

namespace Manager

-- ---------------------------------------------------------------------------
-- Choices and conditionals
-- ---------------------------------------------------------------------------

/-- The branch `DSLChoice` takes where the stack records none. -/
def pickBranch (m : Manager) (choice : Node) (bit : Bool) : Option Nat := do
  let cov0 := m.childCovered choice 0
  let cov1 := m.childCovered choice 1
  guard (¬ cov0 ∨ ¬ cov1)
  match choice.kind with
  | .choice s =>
    if ¬ cov0 ∧ ¬ cov1 then
      if (m.infos s).nondet then return (if bit then 1 else 0) else return 1
    else return (if ¬ cov0 then 0 else 1)
  | _ => none

/-- The node `DSLChoice` and `DSLConditional` work on: the next one of the stack,
which must be of the operation's class and whose coverage is recomputed, or a
new one. The flag says whether it is covered. -/
def fetchNode (m : Manager) (sameClass : NodeKind → Bool) (fresh : NodeKind) :
    Option (Manager × NodeId × Bool) := do
  let (node, _) ← m.getNextNodeInStack
  match node with
  | some n =>
    let nd ← m.heap n
    guard (sameClass nd.kind)
    let (m, cov) ← m.computeCoverage n
    return (m, n, cov)
  | none =>
    let (m, n) := m.alloc (Node.new fresh)
    return (m, n, false)

/-- `DSLChoice`. -/
def dslChoice (m : Manager) (staticInfo : StaticId) (bit : Bool) :
    Option (Manager × OpResult) := do
  let (m, choice, covered) ← m.fetchNode NodeKind.isChoice (.choice staticInfo)
  if covered then return (m, .throws .treeNodeCovered)
  else
    let nd ← m.heap choice
    let (parent, ret) ← m.getNextNodeInStack
    guard ((ret = none ∧ parent = none) ∨ parent = some choice)
    let ret ← (ret <|> m.pickBranch nd bit)
    guard (ret ≤ 1)
    guard (¬ m.childCovered nd ret)
    let m ← m.addToPath choice ret
    return (m, .returns (.branch (ret == 1)))

/-- `DSLConditional`. -/
def dslConditional (m : Manager) (value : Bool) : Option (Manager × OpResult) := do
  let (m, choice, covered) ← m.fetchNode NodeKind.isConditional (.conditional value)
  if covered then return (m, .throws .treeNodeCovered)
  else
    let nd ← m.heap choice
    let (parent, index) ← m.getNextNodeInStack
    guard (index = none ∨ index = some 0)
    guard ((index = none ∧ parent = none) ∨ parent = some choice)
    if nd.kind ≠ .conditional value then return (m, .throws .replayFails)
    else
      guard (¬ m.childCovered nd 0)
      let m ← m.addToPath choice 0
      return (m, .returns .unit)

-- ---------------------------------------------------------------------------
-- Transitions
-- ---------------------------------------------------------------------------

/-- The main thread submits a transition node (`DSLRunThrough`, `DSLRunUntil`);
`kind` is the class of the node. -/
def submitTransition (m : Manager) (kind : NodeKind) : Option (Manager × NodeId) := do
  let (node, _) ← m.getNextNodeInStack
  match node with
  | some n =>
    let nd ← m.heap n
    guard (nd.kind = kind ∧ ¬ nd.covered)
    return (m, n)
  | none => return m.alloc (Node.new kind)

/-- `DSLRunThrough`, `DSLRunUntil`. -/
def dslTransition (m : Manager) (kind : NodeKind) (env : Env) : Option (Manager × OpResult) := do
  if env.allEnded then return (m, .throws .threadsAllEnded)
  else
    let (m, n) ← m.submitTransition kind
    if env.consumed then
      let m ← m.addToPath n 0
      return (m, .returns .unit)
    else return (m, .throws .timeout)

-- ---------------------------------------------------------------------------
-- Thread selections
-- ---------------------------------------------------------------------------

/-- `Init(scope)` on a node of the same class, or a new node. -/
def submitSelect (m : Manager) (reinit : NodeKind → Option NodeKind) (fresh : NodeKind) :
    Option (Manager × NodeId) := do
  let (node, _) ← m.getNextNodeInStack
  match node with
  | some n =>
    let nd ← m.heap n
    let kind ← reinit nd.kind
    guard (¬ nd.covered)
    return (m.setNode n { nd with kind := kind }, n)
  | none => return m.alloc (Node.new fresh)

/-- The main thread submits a FORALL node. -/
def submitForallThread (m : Manager) (scope : ThreadVarPtrSet) : Option (Manager × NodeId) :=
  m.submitSelect
    (fun kind => match kind with
      | .forallThread _ idxToThreadMap _ => some (.forallThread scope idxToThreadMap none)
      | _ => none)
    (.forallThread scope [] none)

/-- The main thread submits an EXISTS node. -/
def submitExistsThread (m : Manager) (scope : ThreadVarPtrSet) : Option (Manager × NodeId) :=
  m.submitSelect
    (fun kind => match kind with
      | .existsThread _ coveredVars _ => some (.existsThread scope coveredVars none)
      | _ => none)
    (.existsThread scope [] none)

/-- The index `add_or_get_child_index` finds for a variable: `tvarToIdxMap` is
keyed by the variable's address, so a variable just created is never found. -/
def childIndexOf (idxToThreadMap : List ThreadVar) : ThreadVar → Option Nat
  | .bound v => idxToThreadMap.idxOf? (.bound v)
  | .created _ => none

/-- `add_or_get_child_index`: the node, possibly with a new empty child, and the
index of the variable. -/
def addOrGetChildIndex (nd : Node) (var : ThreadVar) : Option (Node × Nat) :=
  match nd.kind with
  | .forallThread scope idxToThreadMap lvar =>
    match childIndexOf idxToThreadMap var with
    | some i => some (nd, i)
    | none => do
      guard (idxToThreadMap.length = nd.children.length)
      return ({ nd with
        kind := .forallThread scope (idxToThreadMap ++ [var]) lvar
        children := nd.children ++ [none] }, nd.children.length)
  | _ => none

/-- `ForallThreadNode::CheckAndSelectThread`. A variable seen first gets the next
child index, also when the thread is then refused. -/
def checkAndSelectForall (m : Manager) (n : NodeId) (o : Offer) (indexInStack : Option Nat) :
    Option (Manager × Option Nat) := do
  let nd ← m.heap n
  match nd.kind with
  | .forallThread scope _ lvar =>
    guard (lvar = none)
    match scope.varFor o.thread with
    | none => return (m, none)
    | some var =>
      if ¬ o.canSelect then return (m, none)
      let (nd, i) ← addOrGetChildIndex nd var
      let m := m.setNode n nd
      guard (i < nd.children.length)
      guard (∀ j ∈ indexInStack, j < nd.children.length)
      if ∃ j ∈ indexInStack, j ≠ i then return (m, none)
      if m.treeChildCovered nd i then return (m, none)
      return (m.setNode n (nd.setLvar o.thread), some i)
  | _ => none

/-- An EXISTS node has not tried the thread yet, and its scope has it. -/
def existsCandidate (scope : ThreadVarPtrSet) (coveredVars : List ThreadVar) (t : Thread) : Bool :=
  if scope.empty then ! coveredVars.any fun v => v.thread scope == some t
  else match scope.findByThread t with
    | none => false
    | some v => decide (ThreadVar.bound v ∉ coveredVars)

/-- `ExistsThreadNode::CheckAndSelectThread`: refuses threads tried already. -/
def checkAndSelectExists (m : Manager) (n : NodeId) (o : Offer) (indexInStack : Option Nat) :
    Option (Manager × Option Nat) := do
  let nd ← m.heap n
  match nd.kind with
  | .existsThread scope coveredVars lvar =>
    guard (indexInStack = none ∨ indexInStack = some 0)
    if ¬ existsCandidate scope coveredVars o.thread then return (m, none)
    if o.canSelect then
      return (m.setNode n (nd.setLvar o.thread), some 0)
    guard (lvar = none)
    return (m, none)
  | _ => none

/-- `EvalSelectThread`: a test thread that holds the pending selection decides
whether it consumes it, and with which child index. -/
def evalSelectThread (m : Manager) (n : NodeId) (o : Offer) : Option (Manager × Option Nat) := do
  let nd ← m.heap n
  guard (¬ nd.covered)
  let (parent, index) ← m.getNextNodeInStack
  guard ((index = none ∧ parent = none) ∨ parent = some n)
  match nd.kind with
  | .forallThread .. => m.checkAndSelectForall n o index
  | .existsThread .. => m.checkAndSelectExists n o index
  | _ => none

/-- Threads evaluate the pending selection until one consumes it. -/
def offerSelect (m : Manager) (n : NodeId) : List Offer → Option (Manager × Option Thread)
  | [] => some (m, none)
  | o :: rest => do
    let (m, index) ← m.evalSelectThread n o
    match index with
    | some i =>
      let m ← m.addToPath n i
      return (m, some o.thread)
    | none => m.offerSelect n rest

/-- The `SAFE_ASSERT` block after the consumption of a selection. -/
def checkConsumed (m : Manager) (n : NodeId) (t : Thread) : Option Unit := do
  let last ← m.getLastNodeInStack
  guard (last.parent = n)
  let nd ← m.heap n
  match nd.kind with
  | .forallThread scope idxToThreadMap lvar =>
    guard (lvar = some t)
    let var ← idxToThreadMap[last.childIndex]?
    guard (var.thread scope = some t)
  | .existsThread _ _ lvar => guard (last.childIndex = 0 ∧ lvar = some t)
  | _ => none

/-- Common part of `DSLForallThread` and `DSLExistsThread` after the node has
been submitted. -/
def awaitSelect (m : Manager) (n : NodeId) (env : Env) : Option (Manager × OpResult) := do
  let (m, selected) ← m.offerSelect n env.offers
  match selected with
  | none => return (m, .throws .timeout)
  | some t =>
    m.checkConsumed n t
    return (m, .returns (.thread t))

/-- `DSLForallThread`. -/
def dslForallThread (m : Manager) (scope : ThreadVarPtrSet) (env : Env) :
    Option (Manager × OpResult) := do
  if env.allEnded then return (m, .throws .threadsAllEnded)
  else
    let (m, select) ← m.submitForallThread scope
    m.awaitSelect select env

/-- `DSLExistsThread`. -/
def dslExistsThread (m : Manager) (scope : ThreadVarPtrSet) (env : Env) :
    Option (Manager × OpResult) := do
  if env.allEnded then return (m, .throws .threadsAllEnded)
  else
    let (m, select) ← m.submitExistsThread scope
    m.awaitSelect select env

-- ---------------------------------------------------------------------------
-- One operation of the script
-- ---------------------------------------------------------------------------

/-- One step of the test case: the next operation, or how the test case ends. -/
def dslOp (m : Manager) (op : Op) (env : Env) : Option (Manager × OpResult) :=
  match op with
  | .finish => some (m, .throws .success)
  | .choice s => m.dslChoice s env.bit
  | .conditional v => m.dslConditional v
  | .runThrough => m.dslTransition .runThrough env
  | .runUntil => m.dslTransition .runUntil env
  | .forallThread scope => m.dslForallThread scope env
  | .existsThread scope => m.dslExistsThread scope env
  | .assumeFails => some (m, .throws .assumeFails)

end Manager

end Concurrit.Model
