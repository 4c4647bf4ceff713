import Concurrit.Model.Backtrack
import Concurrit.Model.Dsl

/-!
# Concurrit — what the operations of the DSL can do

One inversion lemma per operation. An operation that returns has *submitted* its
node (`Submitted`: an existing node with its data refreshed, or a new one) and
has *consumed* one of its children (`Consumed`). An operation that throws has
at most submitted its node, or found that it is covered.
-/

namespace Concurrit.Model

open Function (update)

variable {m m' m₁ : Manager} {n i : Nat} {nd nd' : Node} {l last : ChildLoc} {o : Option NodeId}

-- ---------------------------------------------------------------------------
-- Submitting a node
-- ---------------------------------------------------------------------------

/-- What submitting and evaluating a node may change of it. -/
structure Regrown (nd nd' : Node) : Prop where
  parent   : nd'.parent = nd.parent
  covered  : nd'.covered = nd.covered
  children : ∃ k, nd'.children = nd.children ++ List.replicate k none
  shape    : nd'.children.length = nd'.kind.numChildren
  root     : nd.kind = .root → nd'.kind = .root

/-- `n` has been submitted, its data is now `nd'`. -/
inductive Submitted (m : Manager) (n : Nat) (nd' : Node) : Manager → Prop where
  | old (idx : Option Nat) (nd : Node) (hNext : m.getNextNodeInStack = some (some n, idx))
      (hn : m.heap n = some nd) (hCov : nd.covered = false) (hEnd : n ≠ ENDNODE)
      (hGrow : Regrown nd nd') : Submitted m n nd' (m.setNode n nd')
  | new (idx : Option Nat) (hNext : m.getNextNodeInStack = some (none, idx)) (hn : n = m.next)
      (hPar : nd'.parent = none) (hCov : nd'.covered = false) (hKids : NoChildren nd')
      (hShape : nd'.children.length = nd'.kind.numChildren) :
      Submitted m n nd' { m.setNode n nd' with next := m.next + 1 }

theorem getElem?_append_none {cs : List (Option NodeId)} {k : Nat} (i c : Nat) :
    (cs ++ List.replicate k none)[i]? = some (some c) ↔ cs[i]? = some (some c) := by
  rcases Nat.lt_or_ge i cs.length with hLt | hGe
  · rw [List.getElem?_append_left hLt]
  · rw [List.getElem?_append_right hGe, List.getElem?_eq_none hGe, List.getElem?_replicate]
    split <;> simp

theorem Regrown.sameLinks (hG : Regrown nd nd') : SameLinks nd nd' where
  children i c := by
    obtain ⟨k, hk⟩ := hG.children
    rw [hk]
    exact getElem?_append_none i c
  shape := hG.shape
  root := hG.root

theorem Regrown.length_le (hG : Regrown nd nd') : nd.children.length ≤ nd'.children.length := by
  obtain ⟨k, hk⟩ := hG.children
  rw [hk, List.length_append]
  exact Nat.le_add_right _ _

/-- Submitting a node as it is. -/
theorem Regrown.refl (hShape : nd.children.length = nd.kind.numChildren) : Regrown nd nd :=
  ⟨rfl, rfl, ⟨0, by simp⟩, hShape, id⟩

/-- A node that grows twice has grown. -/
theorem Regrown.trans {nd'' : Node} (hG : Regrown nd nd') (hG' : Regrown nd' nd'') :
    Regrown nd nd'' where
  parent := hG'.parent.trans hG.parent
  covered := hG'.covered.trans hG.covered
  children := by
    obtain ⟨k, hk⟩ := hG.children
    obtain ⟨k', hk'⟩ := hG'.children
    exact ⟨k + k', by rw [hk', hk, List.append_assoc, List.replicate_append_replicate]⟩
  shape := hG'.shape
  root h := hG'.root (hG.root h)

/-- Changing a node's own data keeps a linked path: the locations ask for the node and for
the slot, and a node that has grown has kept its slots. -/
theorem Linked.updateData {h : Heap} {stack : List ChildLoc} (hL : Linked h stack)
    (hn : h n = some nd) (hGrow : Regrown nd nd') : Linked (update h n (some nd')) stack := by
  refine hL.mono ?_ ?_
  · rintro l _ ⟨hlEnd, ld, hld, hlt⟩
    refine ⟨hlEnd, ?_⟩
    by_cases hln : l.parent = n
    · rw [hln, hn] at hld
      obtain rfl := Option.some.inj hld
      rw [hln, Function.update_self]
      exact ⟨nd', rfl, Nat.lt_of_lt_of_le hlt hGrow.length_le⟩
    · rw [Function.update_of_ne hln]
      exact ⟨ld, hld, hlt⟩
  · intro k l l' _ _ hLink
    exact (slot_update_iff hn hGrow.sameLinks.children _ _ _).mpr hLink

/-- A new node keeps a linked path. -/
theorem Linked.alloc {h : Heap} {next : Nat} {stack : List ChildLoc} (hL : Linked h stack)
    (wf : WellFormed h next) : Linked (update h next (some nd)) stack := by
  have hKeep : ∀ l ∈ stack, l.parent ≠ next := by
    intro l hl
    obtain ⟨_, ld, hld, _⟩ := hL.valid l hl
    exact Nat.ne_of_lt (wf.lt_next hld)
  refine hL.mono ?_ ?_
  · rintro l hl ⟨hlEnd, ld, hld, hlt⟩
    exact ⟨hlEnd, ld, by rw [Function.update_of_ne (hKeep l hl), hld], hlt⟩
  · rintro k l l' hk _ ⟨ld, hld, hc⟩
    exact ⟨ld, by rw [Function.update_of_ne (hKeep l (List.mem_of_getElem? hk)), hld], hc⟩

/-- A new node hangs nowhere. -/
theorem WellFormed.new_loose {h : Heap} {next : Nat} (wf : WellFormed h next) (hKids : NoChildren nd)
    (p j : Nat) : ¬ Slot (update h next (some nd)) p j next := by
  rintro ⟨pd, hp, hc⟩
  by_cases hpn : p = next
  · subst hpn
    rw [Function.update_self] at hp
    obtain rfl := Option.some.inj hp
    exact hKids j _ hc
  · rw [Function.update_of_ne hpn] at hp
    exact absurd (wf.slot_lt_next ⟨pd, hp, hc⟩) (Nat.lt_irrefl _)

/-- Where `GetNextNodeInStack` finds a node: at the recorded location, or, past the end of
the stack, in the slot of the last one. -/
theorem Tidy.next_cases (t : Tidy m) {node : Option NodeId} {idx : Option Nat}
    (hNext : m.getNextNodeInStack = some (node, idx)) :
    (∃ l, m.nodeStack[m.stackIndex]? = some l ∧ node = some l.parent ∧ idx = some l.childIndex) ∨
    (m.stackIndex = m.nodeStack.length ∧ idx = none ∧ ∃ last pd, m.nodeStack.getLast? = some last ∧
      m.heap last.parent = some pd ∧ pd.children[last.childIndex]? = some node) := by
  rcases Nat.lt_or_eq_of_le t.le with hLt | hEnd
  · have hl := List.getElem?_eq_getElem hLt
    rw [Manager.getNextNodeInStack_recorded hl] at hNext
    obtain ⟨rfl, rfl⟩ := Prod.mk.inj (Option.some.inj hNext)
    exact Or.inl ⟨_, hl, rfl, rfl⟩
  · obtain ⟨last, pd, o, hLast, hp, ho⟩ := t.exists_last
    rw [Manager.getNextNodeInStack_end hEnd hLast hp ho] at hNext
    obtain ⟨rfl, rfl⟩ := Prod.mk.inj (Option.some.inj hNext)
    exact Or.inr ⟨hEnd, rfl, last, pd, hLast, hp, ho⟩

namespace Submitted

theorem node (hS : Submitted m n nd' m₁) : m₁.heap n = some nd' := by
  cases hS with
  | old => exact Function.update_self ..
  | new => exact Function.update_self ..

theorem covered (hS : Submitted m n nd' m₁) : nd'.covered = false := by
  cases hS with
  | old _ _ _ _ hCov _ hGrow => exact hGrow.covered.trans hCov
  | new _ _ _ _ hCov => exact hCov

theorem ne_end (hS : Submitted m n nd' m₁) (wf : WellFormed m.heap m.next) : n ≠ ENDNODE := by
  cases hS with
  | old _ _ _ _ _ hEnd => exact hEnd
  | new _ _ hn =>
    rw [hn]
    exact Nat.ne_of_gt wf.next_gt

theorem stack (hS : Submitted m n nd' m₁) :
    m₁.nodeStack = m.nodeStack ∧ m₁.stackIndex = m.stackIndex := by
  cases hS with
  | old => exact ⟨rfl, rfl⟩
  | new => exact ⟨rfl, rfl⟩

theorem infos (hS : Submitted m n nd' m₁) : m₁.infos = m.infos := by
  cases hS with
  | old => rfl
  | new => rfl

/-- The other nodes are what they were. -/
theorem frame (hS : Submitted m n nd' m₁) {k : Nat} (hk : k ≠ n) : m₁.heap k = m.heap k := by
  cases hS with
  | old => exact Function.update_of_ne hk ..
  | new => exact Function.update_of_ne hk ..

/-- **Submitting keeps the state tidy.** -/
theorem tidy (hS : Submitted m n nd' m₁) (t : Tidy m) : Tidy m₁ := by
  cases hS with
  | old _ nd _ hn _ hEnd hGrow =>
    exact ⟨t.wf.updateData hn hEnd hGrow.sameLinks fun _ _ _ => hGrow.parent,
      t.linked.updateData hn hGrow, t.pos, t.le⟩
  | new _ _ hn _ _ hKids hShape =>
    subst hn
    exact ⟨t.wf.alloc hKids hShape, t.linked.alloc t.wf, t.pos, t.le⟩

/-- **A submitted node is pending**: it is the one the next location is about. -/
theorem pending (hS : Submitted m n nd' m₁) (t : Tidy m) : Pending m₁ n := by
  cases hS with
  | old idx nd hNext hn _ _ hGrow =>
    rcases t.next_cases hNext with ⟨l, hl, hln, _⟩ | ⟨hEnd, _, last, pd, hLast, hp, ho⟩
    · exact .recorded l hl (Option.some.inj hln).symm
    · refine .linked last hEnd hLast ?_
      exact (slot_update_iff hn hGrow.sameLinks.children _ _ _).mpr ⟨pd, hp, ho⟩
  | new idx hNext hn _ _ hKids =>
    subst hn
    rcases t.next_cases hNext with ⟨_, _, hNone, _⟩ | ⟨hEnd, _, last, pd, hLast, hp, ho⟩
    · cases hNone
    · have hLt := t.wf.lt_next hp
      refine .loose last pd hEnd hLast ?_ ho hLt (fun p j => t.wf.new_loose hKids p j)
      exact (Function.update_of_ne (Nat.ne_of_lt hLt) ..).trans hp

end Submitted

/-- Submitting an existing node unchanged does nothing. -/
theorem submitted_same {idx : Option Nat} (t : Tidy m)
    (hNext : m.getNextNodeInStack = some (some n, idx)) (hn : m.heap n = some nd)
    (hCov : nd.covered = false) (hEnd : n ≠ ENDNODE) : Submitted m n nd m := by
  have hS : Submitted m n nd (m.setNode n nd) :=
    .old idx nd hNext hn hCov hEnd (.refl (t.wf.shape hn))
  rwa [setNode_same hn] at hS

/-- Submitting a new node. -/
theorem submitted_new {idx : Option Nat} {kind : NodeKind}
    (hNext : m.getNextNodeInStack = some (none, idx))
    (hShape : (Node.new kind).children.length = kind.numChildren) :
    Submitted m m.next (Node.new kind) (m.alloc (Node.new kind)).1 :=
  .new idx hNext rfl rfl rfl (noChildren_new kind) hShape

-- ---------------------------------------------------------------------------
-- Choices and conditionals
-- ---------------------------------------------------------------------------

/-- The end node is of no class an operation submits. -/
theorem ne_end_of_kind (wf : WellFormed m.heap m.next) (hn : m.heap n = some nd)
    (hKind : nd.kind ≠ .endNode) : n ≠ ENDNODE := by
  rintro rfl
  obtain ⟨_, hE⟩ := wf.endNode
  rw [hE] at hn
  obtain rfl := Option.some.inj hn
  exact hKind rfl

/-- **Fetching a node**: it is found covered, or it is submitted as it is. `ComputeCoverage`
may only turn the flag on; where it leaves it off the node is the one that was there. -/
theorem fetchNode_cases {sameClass : NodeKind → Bool} {fresh : NodeKind} {cov : Bool} (t : Tidy m)
    (hFresh : sameClass fresh = true)
    (hShape : (Node.new fresh).children.length = fresh.numChildren)
    (hEndClass : sameClass .endNode = false)
    (hEq : m.fetchNode sameClass fresh = some (m₁, n, cov)) :
    (cov = true ∧ ∃ nd idx, m.getNextNodeInStack = some (some n, idx) ∧ m.heap n = some nd ∧
      sameClass nd.kind = true ∧ (nd.covered = true ∨ m.coverageRule nd = true) ∧
      m₁ = m.setNode n { nd with covered := true }) ∨
    (cov = false ∧ ∃ nd, Submitted m n nd m₁ ∧ sameClass nd.kind = true ∧
      (m.heap n = some nd ∨ nd = Node.new fresh)) := by
  simp only [Manager.fetchNode, Option.bind_eq_bind, Option.bind_eq_some_iff] at hEq
  obtain ⟨⟨node, idx⟩, hNext, hEq⟩ := hEq
  rcases node with _ | k
  -- nothing recorded: `DSLChoice` makes a new node
  · simp only [Option.pure_def, Option.some.injEq] at hEq
    obtain ⟨rfl, rfl, rfl⟩ := hEq
    exact Or.inr ⟨rfl, _, submitted_new hNext hShape, hFresh, Or.inr rfl⟩
  · simp only [Option.bind_eq_some_iff, Option.guard_eq_some', Option.pure_def,
      Option.some.injEq, Prod.mk.injEq] at hEq
    obtain ⟨nd, hn, _, hClass, ⟨m₂, b⟩, hCov, rfl, rfl, rfl⟩ := hEq
    obtain ⟨hB, rfl⟩ := computeCoverage_eq_some hn hCov
    cases b with
    -- the flag is set, on the node alone
    | true =>
      exact Or.inl ⟨rfl, nd, idx, hNext, hn, hClass, by simpa using hB.symm, rfl⟩
    -- the flag was off and stays off, so that nothing has changed
    | false =>
      have hBoth : nd.covered = false ∧ m.coverageRule nd = false := by simpa using hB.symm
      have hSame : m.setNode k { nd with covered := false } = m := by
        rw [← hBoth.1]
        exact setNode_same hn
      have hEnd : k ≠ ENDNODE := ne_end_of_kind t.wf hn fun hk => by simp [hk, hEndClass] at hClass
      rw [hSame]
      exact Or.inr ⟨rfl, nd, submitted_same t hNext hn hBoth.1 hEnd, hClass, Or.inl hn⟩

/-- **`DSLChoice`**: the node is found covered, or one of its uncovered branches is
consumed. The branch is the recorded one, the random one or the one `pickBranch` finds; here
only that it is 0 or 1 and not covered matters. -/
theorem dslChoice_cases {s : StaticId} {bit : Bool} {r : OpResult} (t : Tidy m)
    (hEq : m.dslChoice s bit = some (m', r)) :
    (r = .throws .treeNodeCovered ∧ ∃ n nd idx, m.getNextNodeInStack = some (some n, idx) ∧
      m.heap n = some nd ∧ nd.kind.isChoice = true ∧
      (nd.covered = true ∨ m.coverageRule nd = true) ∧
      m' = m.setNode n { nd with covered := true }) ∨
    (∃ n nd m₁ i, r = .returns (.branch (i == 1)) ∧ Submitted m n nd m₁ ∧
      nd.kind.isChoice = true ∧ (m.heap n = some nd ∨ nd = Node.new (.choice s)) ∧ i ≤ 1 ∧
      m₁.childCovered nd i = false ∧ Consumed m₁ n i m') := by
  simp only [Manager.dslChoice, Option.bind_eq_bind, Option.bind_eq_some_iff] at hEq
  obtain ⟨⟨m₁, n, cov⟩, hFetch, hEq⟩ := hEq
  rcases fetchNode_cases t rfl rfl rfl hFetch with
    ⟨rfl, nd, idx, hNext, hn, hClass, hRule, rfl⟩ | ⟨rfl, nd, hS, hClass, hFrom⟩
  · rw [if_pos rfl] at hEq
    simp only [Option.pure_def, Option.some.injEq] at hEq
    obtain ⟨rfl, rfl⟩ := hEq
    exact Or.inl ⟨rfl, n, nd, idx, hNext, hn, hClass, hRule, rfl⟩
  · simp only [Bool.false_eq_true, if_false, Option.bind_eq_some_iff, Option.guard_eq_some',
      Option.pure_def, Option.some.injEq, Prod.mk.injEq, hS.node] at hEq
    obtain ⟨nd', hnd', ⟨parent, idx⟩, _, _, _, i, _, _, hi, _, hUncov, m₂, hAdd, rfl, rfl⟩ := hEq
    obtain rfl := hnd'
    have hEnd := hS.ne_end t.wf
    rw [Manager.addToPath, if_neg hEnd,
      addNodeToPath_iff (hS.tidy t) (hS.pending t) hS.node hEnd] at hAdd
    exact Or.inr ⟨n, nd, m₁, i, rfl, hS, hClass, hFrom, hi, by simpa using hUncov, hAdd⟩

/-- **`DSLConditional`**: the node is found covered, it was recorded with another value, or
its child is consumed. The second case is the exception for a script that is not
deterministic. -/
theorem dslConditional_cases {v : Bool} {r : OpResult} (t : Tidy m)
    (hEq : m.dslConditional v = some (m', r)) :
    (r = .throws .treeNodeCovered ∧ ∃ n nd idx, m.getNextNodeInStack = some (some n, idx) ∧
      m.heap n = some nd ∧ nd.kind.isConditional = true ∧
      (nd.covered = true ∨ m.coverageRule nd = true) ∧
      m' = m.setNode n { nd with covered := true }) ∨
    (r = .throws .replayFails ∧ ∃ n nd, Submitted m n nd m' ∧ nd.kind.isConditional = true ∧
      nd.kind ≠ .conditional v ∧ m.heap n = some nd) ∨
    (∃ n nd m₁, r = .returns .unit ∧ Submitted m n nd m₁ ∧ nd.kind = .conditional v ∧
      (m.heap n = some nd ∨ nd = Node.new (.conditional v)) ∧
      m₁.childCovered nd 0 = false ∧ Consumed m₁ n 0 m') := by
  simp only [Manager.dslConditional, Option.bind_eq_bind, Option.bind_eq_some_iff] at hEq
  obtain ⟨⟨m₁, n, cov⟩, hFetch, hEq⟩ := hEq
  rcases fetchNode_cases t rfl rfl rfl hFetch with
    ⟨rfl, nd, idx, hNext, hn, hClass, hRule, rfl⟩ | ⟨rfl, nd, hS, hClass, hFrom⟩
  · rw [if_pos rfl] at hEq
    simp only [Option.pure_def, Option.some.injEq] at hEq
    obtain ⟨rfl, rfl⟩ := hEq
    exact Or.inl ⟨rfl, n, nd, idx, hNext, hn, hClass, hRule, rfl⟩
  · simp only [Bool.false_eq_true, if_false, Option.bind_eq_some_iff, Option.guard_eq_some',
      Option.pure_def, hS.node, Option.some.injEq] at hEq
    obtain ⟨nd', rfl, ⟨parent, idx⟩, _, _, _, _, _, hEq⟩ := hEq
    -- the recorded value is compared with the new one
    by_cases hKind : nd.kind = .conditional v
    · simp only [hKind, ne_eq, not_true_eq_false, if_false, Option.bind_eq_some_iff,
        Option.guard_eq_some', Option.some.injEq, Prod.mk.injEq] at hEq
      obtain ⟨_, hUncov, m₂, hAdd, rfl, rfl⟩ := hEq
      have hEnd := hS.ne_end t.wf
      rw [Manager.addToPath, if_neg hEnd,
        addNodeToPath_iff (hS.tidy t) (hS.pending t) hS.node hEnd] at hAdd
      exact Or.inr (Or.inr ⟨n, nd, m₁, rfl, hS, hKind, hFrom, by simpa using hUncov, hAdd⟩)
    · simp only [ne_eq, hKind, not_false_eq_true, if_true, Option.some.injEq, Prod.mk.injEq] at hEq
      obtain ⟨rfl, rfl⟩ := hEq
      have hOld : m.heap n = some nd := by
        rcases hFrom with hOld | rfl
        · exact hOld
        · exact absurd rfl hKind
      exact Or.inr (Or.inl ⟨rfl, n, nd, hS, hClass, hKind, hOld⟩)

-- ---------------------------------------------------------------------------
-- Transitions
-- ---------------------------------------------------------------------------

/-- A transition node is submitted: the recorded one, of the same class, or a new one. -/
theorem submitTransition_cases {kind : NodeKind} (t : Tidy m)
    (hKind : kind ≠ .endNode) (hShape : (Node.new kind).children.length = kind.numChildren)
    (hEq : m.submitTransition kind = some (m₁, n)) :
    ∃ nd, Submitted m n nd m₁ ∧ nd.kind = kind ∧ (m.heap n = some nd ∨ nd = Node.new kind) := by
  simp only [Manager.submitTransition, Option.bind_eq_bind, Option.bind_eq_some_iff] at hEq
  obtain ⟨⟨node, idx⟩, hNext, hEq⟩ := hEq
  rcases node with _ | k
  · simp only [Option.pure_def, Option.some.injEq] at hEq
    obtain ⟨rfl, rfl⟩ := hEq
    exact ⟨_, submitted_new hNext hShape, rfl, Or.inr rfl⟩
  · simp only [Option.bind_eq_some_iff, Option.guard_eq_some', Option.pure_def,
      Option.some.injEq, Prod.mk.injEq] at hEq
    obtain ⟨nd, hn, _, ⟨hk, hCov⟩, rfl, rfl⟩ := hEq
    have hEnd := ne_end_of_kind t.wf hn (by rw [hk]; exact hKind)
    exact ⟨nd, submitted_same t hNext hn (by simpa using hCov) hEnd, hk, Or.inl hn⟩

/-- **`DSLRunThrough` and `DSLRunUntil`**: not submitted when all threads have ended, else
submitted, and consumed unless it times out. A transition that times out stays pending. -/
theorem dslTransition_cases {kind : NodeKind} {env : Env} {r : OpResult} (t : Tidy m)
    (hKind : kind ≠ .endNode) (hShape : (Node.new kind).children.length = kind.numChildren)
    (hEq : m.dslTransition kind env = some (m', r)) :
    (r = .throws .threadsAllEnded ∧ env.allEnded = true ∧ m' = m) ∨
    (∃ n nd, r = .throws .timeout ∧ env.consumed = false ∧ Submitted m n nd m' ∧ nd.kind = kind ∧
      (m.heap n = some nd ∨ nd = Node.new kind)) ∨
    (∃ n nd m₁, r = .returns .unit ∧ Submitted m n nd m₁ ∧ nd.kind = kind ∧
      (m.heap n = some nd ∨ nd = Node.new kind) ∧ Consumed m₁ n 0 m') := by
  unfold Manager.dslTransition at hEq
  by_cases hAll : env.allEnded = true
  · rw [if_pos hAll] at hEq
    simp only [Option.pure_def, Option.some.injEq] at hEq
    obtain ⟨rfl, rfl⟩ := hEq
    exact Or.inl ⟨rfl, hAll, rfl⟩
  · rw [if_neg hAll] at hEq
    simp only [Option.bind_eq_bind, Option.bind_eq_some_iff] at hEq
    obtain ⟨⟨m₁, n⟩, hSubmit, hEq⟩ := hEq
    obtain ⟨nd, hS, hk, hFrom⟩ := submitTransition_cases t hKind hShape hSubmit
    by_cases hC : env.consumed = true
    · simp only [hC, if_true, Option.bind_eq_some_iff, Option.pure_def, Option.some.injEq,
        Prod.mk.injEq] at hEq
      obtain ⟨m₂, hAdd, rfl, rfl⟩ := hEq
      have hEnd := hS.ne_end t.wf
      rw [Manager.addToPath, if_neg hEnd,
        addNodeToPath_iff (hS.tidy t) (hS.pending t) hS.node hEnd] at hAdd
      exact Or.inr (Or.inr ⟨n, nd, m₁, rfl, hS, hk, hFrom, hAdd⟩)
    · simp only [hC, Bool.false_eq_true, if_false, Option.pure_def, Option.some.injEq,
        Prod.mk.injEq] at hEq
      obtain ⟨rfl, rfl⟩ := hEq
      exact Or.inr (Or.inl ⟨n, nd, rfl, by simpa using hC, hS, hk, hFrom⟩)

-- ---------------------------------------------------------------------------
-- Thread selections
-- ---------------------------------------------------------------------------

/-- Evaluating a FORALL node files the threads that look at it. -/
inductive MapGrown (scope : ThreadVarPtrSet) : List ThreadVar → List ThreadVar → Prop where
  | refl (map : List ThreadVar) : MapGrown scope map map
  | snoc (map map' : List ThreadVar) (t : Thread) (var : ThreadVar) (h : MapGrown scope map map')
      (hVar : scope.varFor t = some var) (hNew : Manager.childIndexOf map' var = none) :
      MapGrown scope map (map' ++ [var])

/-- A submitted node may be changed further. -/
theorem Submitted.regrow {nd'' : Node} (hS : Submitted m n nd' m₁) (hGrow : Regrown nd' nd'') :
    Submitted m n nd'' (m₁.setNode n nd'') := by
  cases hS with
  | old idx nd hNext hn hCov hEnd hGrow₀ =>
    have hS' := Submitted.old idx nd hNext hn hCov hEnd (hGrow₀.trans hGrow)
    rw [show (m.setNode n nd').setNode n nd'' = m.setNode n nd'' by
      simp [Manager.setNode, Function.update_idem]]
    exact hS'
  | new idx hNext hn hPar hCov hKids hShape =>
    have hKids' : NoChildren nd'' := by
      intro i c hc
      exact hKids i c ((hGrow.sameLinks.children i c).mp hc)
    have hS' := Submitted.new idx hNext hn (hGrow.parent.trans hPar) (hGrow.covered.trans hCov)
      hKids' hGrow.shape
    rw [show ({ m.setNode n nd' with next := m.next + 1 } : Manager).setNode n nd'' =
      { m.setNode n nd'' with next := m.next + 1 } by
      simp [Manager.setNode, Function.update_idem]]
    exact hS'

/-- **`add_or_get_child_index`**: the variable's index, in a node that has grown by at most
one empty child. For a variable of the scope it is the first index under which it is filed;
one that was made for the call is never found again. -/
theorem addOrGetChildIndex_cases {scope : ThreadVarPtrSet} {map : List ThreadVar}
    {lvar : Option Thread} {t : Thread} {var : ThreadVar}
    (hKind : nd.kind = .forallThread scope map lvar)
    (hShape : nd.children.length = nd.kind.numChildren) (hVar : scope.varFor t = some var)
    (hEq : Manager.addOrGetChildIndex nd var = some (nd', i)) :
    ∃ map', nd'.kind = .forallThread scope map' lvar ∧ Regrown nd nd' ∧ MapGrown scope map map' ∧
      map'[i]? = some var ∧ (∀ v, var = .bound v → map'.idxOf? var = some i) := by
  simp only [Manager.addOrGetChildIndex, hKind] at hEq
  -- not found: the new index is the number of children so far
  rcases hIdx : Manager.childIndexOf map var with _ | j
  · simp only [hIdx, Option.bind_eq_bind, Option.bind_eq_some_iff, Option.guard_eq_some',
      Option.pure_def, Option.some.injEq] at hEq
    obtain ⟨_, hLen, rfl, rfl⟩ := hEq
    refine ⟨map ++ [var], rfl, ⟨rfl, rfl, ⟨1, rfl⟩, ?_, fun h => by simp [hKind] at h⟩,
      .snoc map map t var (.refl map) hVar hIdx, ?_, ?_⟩
    · simp [NodeKind.numChildren, hLen]
    · rw [← hLen, List.getElem?_concat_length]
    · rintro v rfl
      have hNot : ThreadVar.bound v ∉ map := by
        rw [Manager.childIndexOf, List.idxOf?_eq_none_iff] at hIdx
        exact hIdx
      rw [List.idxOf?_eq_some_iff]
      refine ⟨by simp [← hLen], by simp [← hLen], ?_⟩
      intro j hj hEq
      rw [List.getElem_append_left (by omega)] at hEq
      exact hNot (hEq ▸ List.getElem_mem _)
  -- found under an index it has got before
  · simp only [hIdx, Option.some.injEq, Prod.mk.injEq] at hEq
    obtain ⟨rfl, rfl⟩ := hEq
    refine ⟨map, hKind, .refl hShape, .refl map, ?_, ?_⟩
    · cases var with
      | bound v =>
        rw [Manager.childIndexOf] at hIdx
        obtain ⟨hLt, hAt, _⟩ := List.idxOf?_eq_some_iff.mp hIdx
        rw [List.getElem?_eq_getElem hLt, hAt]
      | created _ => cases hIdx
    · rintro v rfl
      exact hIdx

/-- What a thread selection has done to its node before a thread is accepted. -/
structure ForallGrown (scope : ThreadVarPtrSet) (map : List ThreadVar) (lvar : Option Thread)
    (nd nd' : Node) (map' : List ThreadVar) : Prop where
  kind : nd'.kind = .forallThread scope map' lvar
  grow : Regrown nd nd'
  map  : MapGrown scope map map'

/-- The child index `i` stands for thread `t`. -/
structure Files (scope : ThreadVarPtrSet) (map : List ThreadVar) (t : Thread) (i : Nat)
    (var : ThreadVar) : Prop where
  filed : scope.varFor t = some var
  index : map[i]? = some var
  first : ∀ v, var = .bound v → map.idxOf? var = some i

theorem MapGrown.trans {scope : ThreadVarPtrSet} {map map' map'' : List ThreadVar}
    (h : MapGrown scope map map') (h' : MapGrown scope map' map'') : MapGrown scope map map'' := by
  induction h' with
  | refl => exact h
  | snoc map'' t var _ hVar hNew ih => exact .snoc map map'' t var ih hVar hNew

theorem setNode_setNode (m : Manager) (n : Nat) (nd nd' : Node) :
    (m.setNode n nd).setNode n nd' = m.setNode n nd' := by
  simp [Manager.setNode, Function.update_idem]

/-- Coverage of children does not depend on the data of a node. -/
theorem treeChildCovered_setNode {nd₁ nd₂ kd : Node} (hCov : nd₁.covered = nd₂.covered) (j : Nat) :
    (m.setNode n nd₁).treeChildCovered kd j = (m.setNode n nd₂).treeChildCovered kd j := by
  unfold Manager.treeChildCovered Manager.isCovered
  rcases kd.child j with _ | c
  · rfl
  · by_cases hc : c = n
    · subst hc
      simp [Manager.setNode, hCov]
    · simp [Manager.setNode, Function.update_of_ne hc]

/-- **`CheckAndSelectThread` of a FORALL node**: the thread is refused, or it is accepted
for the child that stands for it, which is not covered and is the recorded one when a
location is recorded. The node may have grown in both cases, because the index is looked up
before the refusal. -/
theorem evalForall_cases {scope : ThreadVarPtrSet} {map : List ThreadVar} {of : Offer}
    {idx : Option Nat} (hn : m.heap n = some nd) (hKind : nd.kind = .forallThread scope map none)
    (hShape : nd.children.length = nd.kind.numChildren)
    (hEq : m.evalSelectThread n of = some (m', idx)) :
    (idx = none ∧ ∃ nd' map', ForallGrown scope map none nd nd' map' ∧ m' = m.setNode n nd') ∨
    (∃ nd' map' i var, idx = some i ∧ of.canSelect = true ∧
      ForallGrown scope map (some of.thread) nd nd' map' ∧ m' = m.setNode n nd' ∧
      Files scope map' of.thread i var ∧ m'.treeChildCovered nd' i = false) := by
  simp only [Manager.evalSelectThread, hn, Option.bind_eq_bind, Option.bind_some,
    Option.bind_eq_some_iff, Option.guard_eq_some', hKind, Manager.checkAndSelectForall] at hEq
  obtain ⟨_, _, ⟨parent, recorded⟩, _, _, _, _, _, hEq⟩ := hEq
  -- the scope does not have the thread
  rcases hVar : scope.varFor of.thread with _ | var
  · simp only [hVar, Option.pure_def, Option.some.injEq] at hEq
    obtain ⟨rfl, rfl⟩ := hEq
    exact Or.inl ⟨rfl, nd, map, ⟨hKind, .refl hShape, .refl map⟩, (setNode_same hn).symm⟩
  · simp only [hVar] at hEq
    by_cases hCan : of.canSelect = true
    · simp only [hCan, not_true_eq_false, if_false, Option.bind_eq_some_iff,
        Option.guard_eq_some'] at hEq
      obtain ⟨⟨nd', i⟩, hIdx, _, hLt, _, _, hEq⟩ := hEq
      obtain ⟨map', hKind', hGrow, hMap, hAt, hFirst⟩ :=
        addOrGetChildIndex_cases hKind hShape hVar hIdx
      -- another index is recorded
      split at hEq
      · simp only [Option.pure_def, Option.some.injEq] at hEq
        obtain ⟨rfl, rfl⟩ := hEq
        exact Or.inl ⟨rfl, nd', map', ⟨hKind', hGrow, hMap⟩, rfl⟩
      -- the child is covered
      · split at hEq
        · simp only [Option.pure_def, Option.some.injEq] at hEq
          obtain ⟨rfl, rfl⟩ := hEq
          exact Or.inl ⟨rfl, nd', map', ⟨hKind', hGrow, hMap⟩, rfl⟩
        · rename_i hUncov
          simp only [Option.pure_def, Option.some.injEq] at hEq
          obtain ⟨rfl, rfl⟩ := hEq
          have hLvar : nd'.setLvar of.thread =
              { nd' with kind := .forallThread scope map' (some of.thread) } := by
            simp [Node.setLvar, hKind']
          have hShape' : (nd'.setLvar of.thread).children.length =
              (nd'.setLvar of.thread).kind.numChildren := by
            rw [hLvar]
            have := hGrow.shape
            rw [hKind'] at this
            exact this
          refine Or.inr ⟨nd'.setLvar of.thread, map', i, var, rfl, hCan, ⟨?_, ?_, hMap⟩, ?_,
            ⟨hVar, hAt, hFirst⟩, ?_⟩
          · rw [hLvar]
          · refine hGrow.trans ⟨?_, ?_, ⟨0, ?_⟩, hShape', ?_⟩
            · rw [hLvar]
            · rw [hLvar]
            · rw [hLvar]
              simp
            · intro hRoot
              simp [hKind'] at hRoot
          · exact setNode_setNode m n nd' _
          · rw [setNode_setNode]
            have hSame : (m.setNode n (nd'.setLvar of.thread)).treeChildCovered nd' i = false := by
              have hCovered : (nd'.setLvar of.thread).covered = nd'.covered := by rw [hLvar]
              rw [treeChildCovered_setNode hCovered]
              simpa using hUncov
            have hChild : (nd'.setLvar of.thread).children = nd'.children := by rw [hLvar]
            unfold Manager.treeChildCovered Node.child at hSame ⊢
            rwa [hChild]
    · simp only [hCan, Bool.false_eq_true, not_false_eq_true, if_true, Option.pure_def,
        Option.some.injEq, Prod.mk.injEq] at hEq
      obtain ⟨rfl, rfl⟩ := hEq
      exact Or.inl ⟨rfl, nd, map, ⟨hKind, .refl hShape, .refl map⟩, (setNode_same hn).symm⟩

/-- **Threads evaluate a FORALL node until one consumes it.** By induction on the offers:
each refusal leaves a node that has grown, and what has grown twice has grown. -/
theorem offerForall_cases {scope : ThreadVarPtrSet} {map : List ThreadVar} {offers : List Offer}
    {selected : Option Thread} (hn : m.heap n = some nd)
    (hKind : nd.kind = .forallThread scope map none)
    (hShape : nd.children.length = nd.kind.numChildren)
    (hEq : m.offerSelect n offers = some (m', selected)) :
    (selected = none ∧ ∃ nd' map', ForallGrown scope map none nd nd' map' ∧ m' = m.setNode n nd') ∨
    (∃ t nd' map' i var, selected = some t ∧ ⟨t, true⟩ ∈ offers ∧
      ForallGrown scope map (some t) nd nd' map' ∧ Files scope map' t i var ∧
      (m.setNode n nd').treeChildCovered nd' i = false ∧
      (m.setNode n nd').addToPath n i = some m') := by
  induction offers generalizing m nd map with
  | nil =>
    simp only [Manager.offerSelect, Option.some.injEq, Prod.mk.injEq] at hEq
    obtain ⟨rfl, rfl⟩ := hEq
    exact Or.inl ⟨rfl, nd, map, ⟨hKind, .refl hShape, .refl map⟩, (setNode_same hn).symm⟩
  | cons of rest ih =>
    simp only [Manager.offerSelect, Option.bind_eq_bind, Option.bind_eq_some_iff] at hEq
    obtain ⟨⟨m₁, idx⟩, hEval, hEq⟩ := hEq
    rcases evalForall_cases hn hKind hShape hEval with
      ⟨rfl, nd₁, map₁, hG₁, rfl⟩ | ⟨nd₁, map₁, i, var, rfl, hCan, hG₁, rfl, hFiles, hUncov⟩
    · -- refused, the next thread evaluates the grown node
      have hn₁ : (m.setNode n nd₁).heap n = some nd₁ := Function.update_self ..
      rcases ih hn₁ hG₁.kind hG₁.grow.shape hEq with
        ⟨rfl, nd₂, map₂, hG₂, rfl⟩ | ⟨t, nd₂, map₂, i, var, rfl, hMem, hG₂, hFiles, hUncov, hAdd⟩
      · exact Or.inl ⟨rfl, nd₂, map₂, ⟨hG₂.kind, hG₁.grow.trans hG₂.grow, hG₁.map.trans hG₂.map⟩,
          setNode_setNode m n nd₁ nd₂⟩
      · rw [setNode_setNode] at hUncov hAdd
        exact Or.inr ⟨t, nd₂, map₂, i, var, rfl, List.mem_cons_of_mem _ hMem,
          ⟨hG₂.kind, hG₁.grow.trans hG₂.grow, hG₁.map.trans hG₂.map⟩, hFiles, hUncov, hAdd⟩
    · simp only [Option.bind_eq_some_iff, Option.pure_def, Option.some.injEq] at hEq
      obtain ⟨m₂, hAdd, rfl, rfl⟩ := hEq
      have hOf : of = ⟨of.thread, true⟩ := by rw [← hCan]
      exact Or.inr ⟨of.thread, nd₁, map₁, i, var, rfl, hOf ▸ List.mem_cons_self, hG₁, hFiles,
        hUncov, hAdd⟩

/-- The threads a FORALL node had filed before the operation. -/
def ForallOrigin (m : Manager) (n : Nat) (map : List ThreadVar) : Prop :=
  (∃ nd scope lvar, m.heap n = some nd ∧ nd.kind = .forallThread scope map lvar) ∨
  (m.heap n = none ∧ map = [])

/-- `DSLForallThread` submits the recorded node with what it has filed, or a new one with
nothing. -/
theorem submitForall_cases {scope : ThreadVarPtrSet} (t : Tidy m)
    (hEq : m.submitForallThread scope = some (m₁, n)) :
    ∃ nd map, Submitted m n nd m₁ ∧ ForallOrigin m n map ∧
      nd.kind = .forallThread scope map none := by
  simp only [Manager.submitForallThread, Manager.submitSelect, Option.bind_eq_bind,
    Option.bind_eq_some_iff] at hEq
  obtain ⟨⟨node, idx⟩, hNext, hEq⟩ := hEq
  rcases node with _ | k
  · simp only [Option.pure_def, Option.some.injEq] at hEq
    obtain ⟨rfl, rfl⟩ := hEq
    exact ⟨_, [], submitted_new hNext rfl, Or.inr ⟨t.wf.fresh _ (Nat.le_refl _), rfl⟩, rfl⟩
  · simp only [Option.bind_eq_some_iff, Option.guard_eq_some', Option.pure_def,
      Option.some.injEq, Prod.mk.injEq] at hEq
    obtain ⟨nd, hn, kind, hKind, _, hCov, rfl, rfl⟩ := hEq
    split at hKind
    · rename_i scope' map lvar hk
      obtain rfl := Option.some.inj hKind
      have hEnd := ne_end_of_kind t.wf hn (by rw [hk]; exact fun h => by cases h)
      have hShape : nd.children.length = map.length := by
        have := t.wf.shape hn
        rwa [hk] at this
      refine ⟨_, map, .old idx nd hNext hn (by simpa using hCov) hEnd ?_,
        Or.inl ⟨nd, scope', lvar, hn, hk⟩, rfl⟩
      exact ⟨rfl, rfl, ⟨0, by simp⟩, hShape, fun h => by rw [hk] at h; cases h⟩
    · cases hKind

/-- **`DSLForallThread`**: not submitted when all threads have ended; else a thread of the
scope is selected, or the node times out with more threads filed. The selected thread is one
that has offered itself with the predicate true. -/
theorem dslForallThread_cases {scope : ThreadVarPtrSet} {env : Env} {r : OpResult} (t : Tidy m)
    (hEq : m.dslForallThread scope env = some (m', r)) :
    (r = .throws .threadsAllEnded ∧ env.allEnded = true ∧ m' = m) ∨
    (∃ n nd map₀ map, r = .throws .timeout ∧ Submitted m n nd m' ∧ ForallOrigin m n map₀ ∧
      nd.kind = .forallThread scope map none ∧ MapGrown scope map₀ map) ∨
    (∃ th n nd m₁ map₀ map i var, r = .returns (.thread th) ∧ ⟨th, true⟩ ∈ env.offers ∧
      Submitted m n nd m₁ ∧ ForallOrigin m n map₀ ∧
      nd.kind = .forallThread scope map (some th) ∧ MapGrown scope map₀ map ∧
      Files scope map th i var ∧ m₁.treeChildCovered nd i = false ∧ Consumed m₁ n i m') := by
  unfold Manager.dslForallThread at hEq
  by_cases hAll : env.allEnded = true
  · rw [if_pos hAll] at hEq
    simp only [Option.pure_def, Option.some.injEq] at hEq
    obtain ⟨rfl, rfl⟩ := hEq
    exact Or.inl ⟨rfl, hAll, rfl⟩
  · rw [if_neg hAll] at hEq
    simp only [Option.bind_eq_bind, Option.bind_eq_some_iff, Manager.awaitSelect] at hEq
    obtain ⟨⟨m₁, n⟩, hSubmit, ⟨m₂, selected⟩, hOffer, hEq⟩ := hEq
    obtain ⟨nd, map₀, hS, hOrigin, hKind⟩ := submitForall_cases t hSubmit
    have hShape := (hS.tidy t).wf.shape hS.node
    rcases offerForall_cases hS.node hKind hShape hOffer with
      ⟨rfl, nd', map, hG, rfl⟩ | ⟨th, nd', map, i, var, rfl, hMem, hG, hFiles, hUncov, hAdd⟩
    -- no offer has been accepted: the node stays pending, grown by the refused threads
    · simp only [Option.pure_def, Option.some.injEq] at hEq
      obtain ⟨rfl, rfl⟩ := hEq
      exact Or.inr (Or.inl ⟨n, nd', map₀, map, rfl, hS.regrow hG.grow, hOrigin, hG.kind, hG.map⟩)
    · simp only [Option.bind_eq_some_iff, Option.pure_def, Option.some.injEq,
        Prod.mk.injEq] at hEq
      obtain ⟨_, _, rfl, rfl⟩ := hEq
      have hS' := hS.regrow hG.grow
      have hEnd := hS.ne_end t.wf
      rw [Manager.addToPath, if_neg hEnd,
        addNodeToPath_iff (hS'.tidy t) (hS'.pending t) hS'.node hEnd] at hAdd
      exact Or.inr (Or.inr ⟨th, n, nd', _, map₀, map, i, var, rfl, hMem, hS', hOrigin, hG.kind,
        hG.map, hFiles, hUncov, hAdd⟩)

/-- The threads an EXISTS node had tried before the operation. -/
def ExistsOrigin (m : Manager) (n : Nat) (coveredVars : List ThreadVar) : Prop :=
  (∃ nd scope lvar, m.heap n = some nd ∧ nd.kind = .existsThread scope coveredVars lvar) ∨
  (m.heap n = none ∧ coveredVars = [])

/-- `DSLExistsThread` submits the recorded node with the threads it has tried, or a new one.
-/
theorem submitExists_cases {scope : ThreadVarPtrSet} (t : Tidy m)
    (hEq : m.submitExistsThread scope = some (m₁, n)) :
    ∃ nd tried, Submitted m n nd m₁ ∧ ExistsOrigin m n tried ∧
      nd.kind = .existsThread scope tried none := by
  simp only [Manager.submitExistsThread, Manager.submitSelect, Option.bind_eq_bind,
    Option.bind_eq_some_iff] at hEq
  obtain ⟨⟨node, idx⟩, hNext, hEq⟩ := hEq
  rcases node with _ | k
  · simp only [Option.pure_def, Option.some.injEq] at hEq
    obtain ⟨rfl, rfl⟩ := hEq
    exact ⟨_, [], submitted_new hNext rfl, Or.inr ⟨t.wf.fresh _ (Nat.le_refl _), rfl⟩, rfl⟩
  · simp only [Option.bind_eq_some_iff, Option.guard_eq_some', Option.pure_def,
      Option.some.injEq, Prod.mk.injEq] at hEq
    obtain ⟨nd, hn, kind, hKind, _, hCov, rfl, rfl⟩ := hEq
    split at hKind
    · rename_i scope' tried lvar hk
      obtain rfl := Option.some.inj hKind
      have hEnd := ne_end_of_kind t.wf hn (by rw [hk]; exact fun h => by cases h)
      have hShape : nd.children.length = 1 := by
        have := t.wf.shape hn
        rwa [hk] at this
      refine ⟨_, tried, .old idx nd hNext hn (by simpa using hCov) hEnd ?_,
        Or.inl ⟨nd, scope', lvar, hn, hk⟩, rfl⟩
      exact ⟨rfl, rfl, ⟨0, by simp⟩, hShape, fun h => by rw [hk] at h; cases h⟩
    · cases hKind

/-- **`CheckAndSelectThread` of an EXISTS node** refuses a thread or selects one it
has not tried; nothing else changes. -/
theorem evalExists_cases {scope : ThreadVarPtrSet} {tried : List ThreadVar} {of : Offer}
    {idx : Option Nat} (hn : m.heap n = some nd)
    (hKind : nd.kind = .existsThread scope tried none)
    (hEq : m.evalSelectThread n of = some (m', idx)) :
    (idx = none ∧ m' = m) ∨
    (idx = some 0 ∧ Manager.existsCandidate scope tried of.thread = true ∧ of.canSelect = true ∧
      m' = m.setNode n { nd with kind := .existsThread scope tried (some of.thread) }) := by
  simp only [Manager.evalSelectThread, hn, Option.bind_eq_bind, Option.bind_some,
    Option.bind_eq_some_iff, Option.guard_eq_some', hKind, Manager.checkAndSelectExists] at hEq
  obtain ⟨_, _, ⟨parent, recorded⟩, _, _, _, _, _, hEq⟩ := hEq
  split at hEq
  · simp only [Option.pure_def, Option.some.injEq] at hEq
    obtain ⟨rfl, rfl⟩ := hEq
    exact Or.inl ⟨rfl, rfl⟩
  · rename_i hCand
    split at hEq
    · rename_i hCan
      simp only [Option.pure_def, Option.some.injEq] at hEq
      obtain ⟨rfl, rfl⟩ := hEq
      exact Or.inr ⟨rfl, by simpa using hCand, hCan, by simp [Node.setLvar, hKind]⟩
    · simp only [Option.bind_eq_some_iff, Option.guard_eq_some', Option.pure_def,
        Option.some.injEq, Prod.mk.injEq] at hEq
      obtain ⟨_, _, rfl, rfl⟩ := hEq
      exact Or.inl ⟨rfl, rfl⟩

/-- **Threads evaluate an EXISTS node until one consumes it.** A refusal changes nothing, so
the induction on the offers is over the state itself. -/
theorem offerExists_cases {scope : ThreadVarPtrSet} {tried : List ThreadVar} {offers : List Offer}
    {selected : Option Thread} (hn : m.heap n = some nd)
    (hKind : nd.kind = .existsThread scope tried none)
    (hEq : m.offerSelect n offers = some (m', selected)) :
    (selected = none ∧ m' = m) ∨
    (∃ t, selected = some t ∧ ⟨t, true⟩ ∈ offers ∧ Manager.existsCandidate scope tried t = true ∧
      (m.setNode n { nd with kind := .existsThread scope tried (some t) }).addToPath n 0 =
        some m') := by
  induction offers with
  | nil =>
    simp only [Manager.offerSelect, Option.some.injEq, Prod.mk.injEq] at hEq
    obtain ⟨rfl, rfl⟩ := hEq
    exact Or.inl ⟨rfl, rfl⟩
  | cons of rest ih =>
    simp only [Manager.offerSelect, Option.bind_eq_bind, Option.bind_eq_some_iff] at hEq
    obtain ⟨⟨m₁, idx⟩, hEval, hEq⟩ := hEq
    rcases evalExists_cases hn hKind hEval with ⟨rfl, rfl⟩ | ⟨rfl, hCand, hCan, rfl⟩
    · rcases ih hEq with hNone | ⟨t, rfl, hMem, hRest⟩
      · exact Or.inl hNone
      · exact Or.inr ⟨t, rfl, List.mem_cons_of_mem _ hMem, hRest⟩
    · simp only [Option.bind_eq_some_iff, Option.pure_def, Option.some.injEq] at hEq
      obtain ⟨m₂, hAdd, rfl, rfl⟩ := hEq
      have hOf : of = ⟨of.thread, true⟩ := by rw [← hCan]
      exact Or.inr ⟨of.thread, rfl, hOf ▸ List.mem_cons_self, hCand, hAdd⟩

/-- **`DSLExistsThread`**: not submitted when all threads have ended; else a thread that has
not been tried is selected, or the node times out. Unlike a FORALL node it has one child,
whatever thread it selects. -/
theorem dslExistsThread_cases {scope : ThreadVarPtrSet} {env : Env} {r : OpResult} (t : Tidy m)
    (hEq : m.dslExistsThread scope env = some (m', r)) :
    (r = .throws .threadsAllEnded ∧ env.allEnded = true ∧ m' = m) ∨
    (∃ n nd tried, r = .throws .timeout ∧ Submitted m n nd m' ∧ ExistsOrigin m n tried ∧
      nd.kind = .existsThread scope tried none) ∨
    (∃ th n nd m₁ tried, r = .returns (.thread th) ∧ ⟨th, true⟩ ∈ env.offers ∧
      Submitted m n nd m₁ ∧ ExistsOrigin m n tried ∧
      nd.kind = .existsThread scope tried (some th) ∧
      Manager.existsCandidate scope tried th = true ∧ Consumed m₁ n 0 m') := by
  unfold Manager.dslExistsThread at hEq
  by_cases hAll : env.allEnded = true
  · rw [if_pos hAll] at hEq
    simp only [Option.pure_def, Option.some.injEq] at hEq
    obtain ⟨rfl, rfl⟩ := hEq
    exact Or.inl ⟨rfl, hAll, rfl⟩
  · rw [if_neg hAll] at hEq
    simp only [Option.bind_eq_bind, Option.bind_eq_some_iff, Manager.awaitSelect] at hEq
    obtain ⟨⟨m₁, n⟩, hSubmit, ⟨m₂, selected⟩, hOffer, hEq⟩ := hEq
    obtain ⟨nd, tried, hS, hOrigin, hKind⟩ := submitExists_cases t hSubmit
    have hShape := (hS.tidy t).wf.shape hS.node
    rcases offerExists_cases hS.node hKind hOffer with ⟨rfl, rfl⟩ | ⟨th, rfl, hMem, hCand, hAdd⟩
    · simp only [Option.pure_def, Option.some.injEq] at hEq
      obtain ⟨rfl, rfl⟩ := hEq
      exact Or.inr (Or.inl ⟨n, nd, tried, rfl, hS, hOrigin, hKind⟩)
    · simp only [Option.bind_eq_some_iff, Option.pure_def, Option.some.injEq,
        Prod.mk.injEq] at hEq
      obtain ⟨_, _, rfl, rfl⟩ := hEq
      have hGrow : Regrown nd { nd with kind := .existsThread scope tried (some th) } := by
        refine ⟨rfl, rfl, ⟨0, by simp⟩, ?_, fun h => by rw [hKind] at h; cases h⟩
        rw [hKind] at hShape
        exact hShape
      have hS' := hS.regrow hGrow
      have hEnd := hS.ne_end t.wf
      rw [Manager.addToPath, if_neg hEnd,
        addNodeToPath_iff (hS'.tidy t) (hS'.pending t) hS'.node hEnd] at hAdd
      exact Or.inr (Or.inr ⟨th, n, _, _, tried, rfl, hMem, hS', hOrigin, rfl, hCand, hAdd⟩)

-- ---------------------------------------------------------------------------
-- One operation of the script
-- ---------------------------------------------------------------------------

/-- Where a node that is submitted as it is comes from. -/
def Found (m : Manager) (n : Nat) (nd : Node) (fresh : NodeKind) : Prop :=
  m.heap n = some nd ∨ nd = Node.new fresh

/-- The operation consumes child `i` of node `n` and answers `a`. -/
inductive Takes (m m₁ : Manager) (env : Env) (n : Nat) (nd : Node) : Op → Nat → Answer → Prop where
  | choice (s : StaticId) (i : Nat) (hKind : nd.kind.isChoice = true)
      (hFound : Found m n nd (.choice s)) (hi : i ≤ 1) (hOpen : m₁.childCovered nd i = false) :
      Takes m m₁ env n nd (.choice s) i (.branch (i == 1))
  | conditional (v : Bool) (hKind : nd.kind = .conditional v)
      (hFound : Found m n nd (.conditional v)) (hOpen : m₁.childCovered nd 0 = false) :
      Takes m m₁ env n nd (.conditional v) 0 .unit
  | runThrough (hKind : nd.kind = .runThrough) (hFound : Found m n nd .runThrough) :
      Takes m m₁ env n nd .runThrough 0 .unit
  | runUntil (hKind : nd.kind = .runUntil) (hFound : Found m n nd .runUntil) :
      Takes m m₁ env n nd .runUntil 0 .unit
  | forallThread (scope : ThreadVarPtrSet) (map₀ map : List ThreadVar) (i : Nat) (t : Thread)
      (var : ThreadVar) (hOffer : ⟨t, true⟩ ∈ env.offers) (hOrigin : ForallOrigin m n map₀)
      (hKind : nd.kind = .forallThread scope map (some t)) (hGrown : MapGrown scope map₀ map)
      (hFiles : Files scope map t i var) (hOpen : m₁.treeChildCovered nd i = false) :
      Takes m m₁ env n nd (.forallThread scope) i (.thread t)
  | existsThread (scope : ThreadVarPtrSet) (tried : List ThreadVar) (t : Thread)
      (hOffer : ⟨t, true⟩ ∈ env.offers) (hOrigin : ExistsOrigin m n tried)
      (hKind : nd.kind = .existsThread scope tried (some t))
      (hCand : Manager.existsCandidate scope tried t = true) :
      Takes m m₁ env n nd (.existsThread scope) 0 (.thread t)

/-- The operation submits node `n` and gives up. -/
inductive GivesUp (m : Manager) (env : Env) (n : Nat) (nd : Node) : Op → BacktrackReason → Prop where
  | replayFails (v : Bool) (hKind : nd.kind.isConditional = true) (hNe : nd.kind ≠ .conditional v)
      (hOld : m.heap n = some nd) : GivesUp m env n nd (.conditional v) .replayFails
  | runThrough (hLate : env.consumed = false) (hKind : nd.kind = .runThrough)
      (hFound : Found m n nd .runThrough) : GivesUp m env n nd .runThrough .timeout
  | runUntil (hLate : env.consumed = false) (hKind : nd.kind = .runUntil)
      (hFound : Found m n nd .runUntil) : GivesUp m env n nd .runUntil .timeout
  | forallThread (scope : ThreadVarPtrSet) (map₀ map : List ThreadVar)
      (hOrigin : ForallOrigin m n map₀) (hKind : nd.kind = .forallThread scope map none)
      (hGrown : MapGrown scope map₀ map) : GivesUp m env n nd (.forallThread scope) .timeout
  | existsThread (scope : ThreadVarPtrSet) (tried : List ThreadVar)
      (hOrigin : ExistsOrigin m n tried) (hKind : nd.kind = .existsThread scope tried none) :
      GivesUp m env n nd (.existsThread scope) .timeout

/-- What one operation of the script can do. -/
inductive OpStep (m : Manager) (op : Op) (env : Env) : Manager → OpResult → Prop where
  | consumed (n : Nat) (nd : Node) (m₁ : Manager) (i : Nat) (m' : Manager) (a : Answer)
      (hS : Submitted m n nd m₁) (hTakes : Takes m m₁ env n nd op i a) (hC : Consumed m₁ n i m') :
      OpStep m op env m' (.returns a)
  | pending (n : Nat) (nd : Node) (m' : Manager) (reason : BacktrackReason)
      (hS : Submitted m n nd m') (hGives : GivesUp m env n nd op reason) :
      OpStep m op env m' (.throws reason)
  | covered (n : Nat) (nd : Node) (idx : Option Nat)
      (hNext : m.getNextNodeInStack = some (some n, idx)) (hn : m.heap n = some nd)
      (hKind : nd.kind.isChoice = true ∨ nd.kind.isConditional = true)
      (hRule : nd.covered = true ∨ m.coverageRule nd = true) :
      OpStep m op env (m.setNode n { nd with covered := true }) (.throws .treeNodeCovered)
  | idle (reason : BacktrackReason)
      (hWhy : (op = .finish ∧ reason = .success) ∨ (op = .assumeFails ∧ reason = .assumeFails) ∨
        (env.allEnded = true ∧ reason = .threadsAllEnded)) :
      OpStep m op env m (.throws reason)

/-- **Inversion of one operation.** One constructor of `OpStep` for what operations of all
kinds have in common: nothing happens, a node is found covered, a node stays pending, or a
node is consumed. All invariants of the search are derived from it. -/
theorem dslOp_cases {op : Op} {env : Env} {r : OpResult} (t : Tidy m)
    (hEq : m.dslOp op env = some (m', r)) : OpStep m op env m' r := by
  cases op with
  | finish =>
    obtain ⟨rfl, rfl⟩ := Prod.mk.inj (Option.some.inj hEq)
    exact .idle _ (Or.inl ⟨rfl, rfl⟩)
  | assumeFails =>
    obtain ⟨rfl, rfl⟩ := Prod.mk.inj (Option.some.inj hEq)
    exact .idle _ (Or.inr (Or.inl ⟨rfl, rfl⟩))
  | choice s =>
    rcases dslChoice_cases t hEq with
      ⟨rfl, n, nd, idx, hNext, hn, hKind, hRule, rfl⟩ |
      ⟨n, nd, m₁, i, rfl, hS, hKind, hFound, hi, hOpen, hC⟩
    · exact .covered n nd idx hNext hn (Or.inl hKind) hRule
    · exact .consumed n nd m₁ i m' _ hS (.choice s i hKind hFound hi hOpen) hC
  | conditional v =>
    rcases dslConditional_cases t hEq with
      ⟨rfl, n, nd, idx, hNext, hn, hKind, hRule, rfl⟩ | ⟨rfl, n, nd, hS, hKind, hNe, hOld⟩ |
      ⟨n, nd, m₁, rfl, hS, hKind, hFound, hOpen, hC⟩
    · exact .covered n nd idx hNext hn (Or.inr hKind) hRule
    · exact .pending n nd m' _ hS (.replayFails v hKind hNe hOld)
    · exact .consumed n nd m₁ 0 m' _ hS (.conditional v hKind hFound hOpen) hC
  | runThrough =>
    rcases dslTransition_cases t (by simp) rfl hEq with
      ⟨rfl, hAll, rfl⟩ | ⟨n, nd, rfl, hLate, hS, hKind, hFound⟩ |
      ⟨n, nd, m₁, rfl, hS, hKind, hFound, hC⟩
    · exact .idle _ (Or.inr (Or.inr ⟨hAll, rfl⟩))
    · exact .pending n nd m' _ hS (.runThrough hLate hKind hFound)
    · exact .consumed n nd m₁ 0 m' _ hS (.runThrough hKind hFound) hC
  | runUntil =>
    rcases dslTransition_cases t (by simp) rfl hEq with
      ⟨rfl, hAll, rfl⟩ | ⟨n, nd, rfl, hLate, hS, hKind, hFound⟩ |
      ⟨n, nd, m₁, rfl, hS, hKind, hFound, hC⟩
    · exact .idle _ (Or.inr (Or.inr ⟨hAll, rfl⟩))
    · exact .pending n nd m' _ hS (.runUntil hLate hKind hFound)
    · exact .consumed n nd m₁ 0 m' _ hS (.runUntil hKind hFound) hC
  | forallThread scope =>
    rcases dslForallThread_cases t hEq with
      ⟨rfl, hAll, rfl⟩ | ⟨n, nd, map₀, map, rfl, hS, hOrigin, hKind, hGrown⟩ |
      ⟨th, n, nd, m₁, map₀, map, i, var, rfl, hOffer, hS, hOrigin, hKind, hGrown, hFiles, hOpen, hC⟩
    · exact .idle _ (Or.inr (Or.inr ⟨hAll, rfl⟩))
    · exact .pending n nd m' _ hS (.forallThread scope map₀ map hOrigin hKind hGrown)
    · exact .consumed n nd m₁ i m' _ hS
        (.forallThread scope map₀ map i th var hOffer hOrigin hKind hGrown hFiles hOpen) hC
  | existsThread scope =>
    rcases dslExistsThread_cases t hEq with
      ⟨rfl, hAll, rfl⟩ | ⟨n, nd, tried, rfl, hS, hOrigin, hKind⟩ |
      ⟨th, n, nd, m₁, tried, rfl, hOffer, hS, hOrigin, hKind, hCand, hC⟩
    · exact .idle _ (Or.inr (Or.inr ⟨hAll, rfl⟩))
    · exact .pending n nd m' _ hS (.existsThread scope tried hOrigin hKind)
    · exact .consumed n nd m₁ 0 m' _ hS (.existsThread scope tried th hOffer hOrigin hKind hCand) hC

/-- The child an operation consumes exists. -/
theorem Takes.lt {env : Env} {op : Op} {a : Answer} (hTakes : Takes m m₁ env n nd op i a)
    (hShape : nd.children.length = nd.kind.numChildren) : i < nd.children.length := by
  rw [hShape]
  cases hTakes with
  | choice s i hKind _ hi =>
    rcases hk : nd.kind with _ | _ | _ | _ | _ | _ | _ | _
    case choice => exact Nat.lt_succ_of_le hi
    all_goals simp [hk, NodeKind.isChoice] at hKind
  | conditional v hKind => simp [hKind, NodeKind.numChildren]
  | runThrough hKind => simp [hKind, NodeKind.numChildren]
  | runUntil hKind => simp [hKind, NodeKind.numChildren]
  | forallThread scope map₀ map i t var _ _ hKind _ hFiles =>
    rw [hKind]
    exact (List.getElem?_eq_some_iff.mp hFiles.index).1
  | existsThread scope tried t _ _ hKind => simp [hKind, NodeKind.numChildren]

/-- **An operation leaves the state tidy.** -/
theorem OpStep.tidy {op : Op} {env : Env} {r : OpResult} (hStep : OpStep m op env m' r) (t : Tidy m) :
    Tidy m' := by
  cases hStep with
  | consumed n nd m₁ i m' a hS hTakes hC =>
    exact hC.tidy (hS.tidy t) hS.node (hS.ne_end t.wf) (hTakes.lt ((hS.tidy t).wf.shape hS.node))
  | pending n nd m' reason hS => exact hS.tidy t
  | covered n nd idx _ hn =>
    have hR := Recolored.cover hn
    exact ⟨hR.wellFormed t.wf, hR.linked t.linked, t.pos, t.le⟩
  | idle => exact t

end Concurrit.Model
