import Concurrit.Model.Ending

/-!
# Concurrit — progress of a plain script

While something is left to do and the surroundings cooperate (`Prompt`), no check
of an operation fails and the operation returns: a choice finds an open branch,
a FORALL selection finds a thread it accepts.
-/

namespace Concurrit.Model

open Function (update)

variable {n i : Nat} {m m' m₀ m₁ : Manager} {nd nd' : Node} {l : ChildLoc} {op : Op} {env : Env}
  {script : Script} {history ρ : List Answer} {scope : ThreadVarPtrSet} {map : List ThreadVar}
  {t : Thread} {offers : List Offer} {of : Offer}

/-- The surroundings let the operation go on: not all threads have ended, a
transition is consumed in time, and every thread of a FORALL scope evaluates the
selection. -/
structure Prompt (op : Op) (env : Env) : Prop where
  alive    : env.allEnded = false
  consumed : env.consumed = true
  offers   : ∀ scope, op = .forallThread scope → ∀ t ∈ scope.threads, ⟨t, true⟩ ∈ env.offers

-- ---------------------------------------------------------------------------
-- The next node
-- ---------------------------------------------------------------------------

/-- What the next operation finds: a recorded location with an open child, a node
that is not full, or nothing. -/
inductive NextNode (m : Manager) (op : Op) : Prop where
  | recorded (l : ChildLoc) (nd : Node) (hl : m.nodeStack[m.stackIndex]? = some l)
      (hn : m.heap l.parent = some nd) (hM : Matches op nd.kind) (hCov : nd.covered = false)
      (hi : l.childIndex < nd.children.length)
      (hOpen : m.treeChildCovered nd l.childIndex = false) : NextNode m op
  | left (n : Nat) (nd : Node) (hEnd : m.stackIndex = m.nodeStack.length)
      (hNext : m.getNextNodeInStack = some (some n, none)) (hn : m.heap n = some nd)
      (hM : Matches op nd.kind) (hCov : nd.covered = false) (hOpen : ¬ Full m nd) : NextNode m op
  | fresh (hEnd : m.stackIndex = m.nodeStack.length)
      (hNext : m.getNextNodeInStack = some (none, none)) : NextNode m op

theorem Tidy.getNext_isSome (t : Tidy m) : ∃ o idx, m.getNextNodeInStack = some (o, idx) := by
  rcases Nat.lt_or_eq_of_le t.le with hLt | hEnd
  · exact ⟨_, _, Manager.getNextNodeInStack_recorded (List.getElem?_eq_getElem hLt)⟩
  · obtain ⟨last, pd, o, hLast, hp, ho⟩ := t.exists_last
    exact ⟨_, _, Manager.getNextNodeInStack_end hEnd hLast hp ho⟩

/-- **What an operation of a plain script finds.** A recorded location whose child is still
open, a node that an earlier execution has left below the last location, or nothing. That
the next node is never covered follows from what restarting leaves: the stack ends above the
covered part of the tree. -/
theorem Tracks.nextNode (hT : Tracks script m history ρ) (t : Tidy m) (hFlag : Flagged m)
    (hOpen : Open m) : NextNode m (script history) := by
  obtain ⟨o, idx, hNext⟩ := t.getNext_isSome
  have hAt := hT.nodeAt_next t hNext
  -- the location is recorded, or the operation is at the end of the stack
  rcases t.next_cases hNext with ⟨l, hl, rfl, rfl⟩ | ⟨hEnd, rfl, last, pd, hLast, hp, ho⟩
  · obtain ⟨hlEnd, nd, hn, hi⟩ := t.linked.validAt hl
    have hCov := hOpen.stack l (List.mem_of_getElem? hl)
    rw [isCovered_of_node hn] at hCov
    refine .recorded l nd hl hn (hT.coherent history _ nd hAt hlEnd hn) hCov hi ?_
    -- the slot holds the next node of the stack, or what the last slot holds
    by_contra hChild
    obtain ⟨c, hc, hcCov⟩ := treeChildCovered_iff.mp (by simpa using hChild)
    have hSlot : Slot m.heap l.parent l.childIndex c := ⟨nd, hn, hc⟩
    rcases Nat.lt_or_ge (m.stackIndex + 1) m.nodeStack.length with hLt | hGe
    · have hl' := List.getElem?_eq_getElem hLt
      obtain ⟨nd', hn', hc'⟩ := t.linked.slot hl hl'
      rw [hn] at hn'
      obtain rfl := Option.some.inj hn'
      rw [hc] at hc'
      obtain rfl := Option.some.inj (Option.some.inj hc')
      rw [hOpen.stack _ (List.getElem_mem hLt)] at hcCov
      cases hcCov
    · have hLast : m.nodeStack.getLast? = some l := by
        have hLt := (List.getElem?_eq_some_iff.mp hl).1
        rw [List.getLast?_eq_getElem?, show m.nodeStack.length - 1 = m.stackIndex from by omega, hl]
      rw [hOpen.last l c hLast hSlot] at hcCov
      cases hcCov
  -- past the end: the slot of the last location is empty or holds a node
  · rcases o with _ | n
    · exact .fresh hEnd hNext
    · obtain ⟨nd, hn⟩ := nodeAt_node t.wf hAt
      have hCov := hOpen.last last n hLast ⟨pd, hp, ho⟩
      rw [isCovered_of_node hn] at hCov
      have hnEnd : n ≠ ENDNODE := by
        rintro rfl
        obtain ⟨e, hE⟩ := t.wf.endNode
        rw [hE] at hn
        obtain rfl := Option.some.inj hn
        cases hCov
      exact .left n nd hEnd hNext hn (hT.coherent history n nd hAt hnEnd hn) hCov
        (hFlag n nd hn hCov)

/-- A pending node can be consumed with the recorded child, or with any child where none is
recorded. -/
theorem Pending.consumable (hPending : Pending m n) (t : Tidy m) (hn : m.heap n = some nd)
    (hEnd : n ≠ ENDNODE) (hRec : ∀ l, m.nodeStack[m.stackIndex]? = some l → l.childIndex = i) :
    ∃ m', m.addToPath n i = some m' ∧ Consumed m n i m' := by
  have hC : ∃ m', Consumed m n i m' := by
    cases hPending with
    | recorded l hNext hl =>
      refine ⟨_, .recorded ?_⟩
      rw [hNext, ← hl, ← hRec l hNext]
    | linked last hStackEnd hLast hSlot => exact ⟨_, .linked last hStackEnd hLast hSlot⟩
    | loose last pd hStackEnd hLast hp hEmpty hLater hLoose =>
      exact ⟨_, .loose last pd nd hStackEnd hLast hp hEmpty hLater hLoose hn⟩
  obtain ⟨m', hC⟩ := hC
  refine ⟨m', ?_, hC⟩
  rw [Manager.addToPath, if_neg hEnd, addNodeToPath_iff t hPending hn hEnd]
  exact hC

/-- Submitting a node does not change what comes next. -/
theorem Submitted.next (hS : Submitted m n nd m₁) (t : Tidy m) :
    m₁.getNextNodeInStack = m.getNextNodeInStack := by
  obtain ⟨hStack, hIndex⟩ := hS.stack
  have t₁ := hS.tidy t
  rcases Nat.lt_or_eq_of_le t.le with hLt | hEnd
  · have hl := List.getElem?_eq_getElem hLt
    rw [Manager.getNextNodeInStack_recorded hl,
      Manager.getNextNodeInStack_recorded (by rw [hStack, hIndex]; exact hl)]
  · obtain ⟨last, pd, o, hLast, hp, ho⟩ := t.exists_last
    have hne : last.parent ≠ n := by
      have hLt := t.wf.lt_next hp
      cases hS with
      | old idx nd₀ hNext hn _ hnEnd =>
        rintro rfl
        rw [Manager.getNextNodeInStack_end hEnd hLast hp ho] at hNext
        obtain rfl := (Prod.mk.inj (Option.some.inj hNext)).1
        exact absurd (t.wf.child ⟨pd, hp, ho⟩ hnEnd).1 (Nat.lt_irrefl _)
      | new _ _ hn =>
        rw [hn]
        exact Nat.ne_of_lt hLt
    rw [Manager.getNextNodeInStack_end hEnd hLast hp ho,
      Manager.getNextNodeInStack_end (by rw [hStack, hIndex]; exact hEnd) (by rw [hStack]; exact hLast)
        (by rw [hS.frame hne]; exact hp) ho]

-- ---------------------------------------------------------------------------
-- Choices and conditionals
-- ---------------------------------------------------------------------------

/-- The marks leave a choice its recorded branch, or both branches where none is
recorded. -/
def Unmarked (m : Manager) (op : Op) : Prop :=
  ∀ s, op = .choice s →
    (∀ l, m.nodeStack[m.stackIndex]? = some l → (m.infos s).covered (l.childIndex == 1) = false) ∧
    (m.stackIndex = m.nodeStack.length → ∀ b, (m.infos s).covered b = false)

/-- A node whose rule does not hold is fetched as it is. -/
theorem fetchNode_found (sameClass : NodeKind → Bool) (fresh : NodeKind) {idx : Option Nat}
    (hNext : m.getNextNodeInStack = some (some n, idx)) (hn : m.heap n = some nd)
    (hClass : sameClass nd.kind = true) (hCov : nd.covered = false)
    (hRule : m.coverageRule nd = false) : m.fetchNode sameClass fresh = some (m, n, false) := by
  have hAssert : m.coverageAssert nd false = true := by
    unfold Manager.coverageAssert
    rw [hRule]
    split <;> rfl
  have hSame : m.setNode n { nd with covered := false } = m := by
    rw [← hCov]
    exact setNode_same hn
  simp [Manager.fetchNode, hNext, hn, hClass, guard, Manager.computeCoverage, hCov, hRule, hAssert,
    hSame]

theorem fetchNode_new (sameClass : NodeKind → Bool) (fresh : NodeKind) {idx : Option Nat}
    (hNext : m.getNextNodeInStack = some (none, idx)) : m.fetchNode sameClass fresh =
      some ((m.alloc (Node.new fresh)).1, m.next, false) := by
  simp [Manager.fetchNode, hNext, Manager.alloc]

/-- An uncovered branch of a choice: the random one where both are open. -/
theorem pickBranch_isSome {s : StaticId} (bit : Bool) (hKind : nd.kind = .choice s)
    (hOpen : m.childCovered nd 0 = false ∨ m.childCovered nd 1 = false) :
    ∃ r, m.pickBranch nd bit = some r ∧ r ≤ 1 ∧ m.childCovered nd r = false := by
  unfold Manager.pickBranch
  simp only [hKind]
  cases h0 : m.childCovered nd 0 with
  | true =>
    have h1 : m.childCovered nd 1 = false := by simpa [h0] using hOpen
    exact ⟨1, by simp [h1, guard], Nat.le_refl 1, h1⟩
  | false =>
    cases h1 : m.childCovered nd 1 with
    | true => exact ⟨0, by simp [guard], Nat.zero_le 1, h0⟩
    | false =>
      by_cases hNondet : (m.infos s).nondet = true
      · cases bit
        · exact ⟨0, by simp [hNondet, guard], Nat.zero_le 1, h0⟩
        · exact ⟨1, by simp [hNondet, guard], Nat.le_refl 1, h1⟩
      · exact ⟨1, by simp [hNondet, guard], Nat.le_refl 1, h1⟩

/-- A choice that has fetched its node returns. -/
theorem dslChoice_of_fetch {s : StaticId} {bit : Bool} {o : Option NodeId} {idx : Option Nat}
    {r : Nat} (hFetch : m.fetchNode NodeKind.isChoice (.choice s) = some (m₁, n, false))
    (t₁ : Tidy m₁) (hPending : Pending m₁ n) (hn : m₁.heap n = some nd) (hEnd : n ≠ ENDNODE)
    (hNext : m₁.getNextNodeInStack = some (o, idx))
    (hParent : (idx = none ∧ o = none) ∨ o = some n)
    (hRet : idx.or (m₁.pickBranch nd bit) = some r) (hr : r ≤ 1)
    (hOpen : m₁.childCovered nd r = false)
    (hRec : ∀ l, m₁.nodeStack[m₁.stackIndex]? = some l → l.childIndex = r) :
    ∃ m' a, m.dslChoice s bit = some (m', .returns a) := by
  obtain ⟨m', hAdd, _⟩ := hPending.consumable t₁ hn hEnd hRec
  refine ⟨m', .branch (r == 1), ?_⟩
  simp [Manager.dslChoice, hFetch, hn, hNext, hParent, hRet, hr, hOpen, hAdd, guard]

/-- A side of a new choice is covered only if it is marked. -/
theorem childCovered_new (m : Manager) (s : StaticId) (r : Nat) :
    m.childCovered (Node.new (.choice s)) r = (m.infos s).covered (r == 1) := by
  have hTree : m.treeChildCovered (Node.new (.choice s)) r = false := by
    by_contra hCov
    obtain ⟨c, hc, _⟩ := treeChildCovered_iff.mp (by simpa using hCov)
    exact noChildren_new _ r c hc
  unfold Manager.childCovered
  rw [hTree]
  rfl

/-- **A choice returns**, unless marks have closed its branches. One case for each place
where its node may be; in each the node is fetched without being found covered, and some
branch is left. -/
theorem dslChoice_returns {s : StaticId} (bit : Bool) (t : Tidy m) (hNode : NextNode m (.choice s))
    (hMarks : Unmarked m (.choice s)) : ∃ m' a, m.dslChoice s bit = some (m', .returns a) := by
  obtain ⟨hRecMark, hEndMark⟩ := hMarks s rfl
  have hKindOf : ∀ {kind : NodeKind}, Matches (.choice s) kind → kind = .choice s := by
    intro kind hM
    cases kind <;> try exact absurd hM id
    rw [show _ = _ from hM]
  cases hNode with
  -- replayed: the branch is the recorded one
  | recorded l nd hl hn hM hCov hi hOpen =>
    have hKind := hKindOf hM
    have hi' : l.childIndex ≤ 1 := by
      rw [t.wf.shape hn, hKind] at hi
      exact Nat.le_of_lt_succ hi
    have hOpen' : m.childCovered nd l.childIndex = false := by
      unfold Manager.childCovered
      rw [hKind]
      simp [hOpen, hRecMark l hl]
    have hRule : m.coverageRule nd = false := by
      unfold Manager.coverageRule
      rw [hKind]
      rcases Nat.le_one_iff_eq_zero_or_eq_one.mp hi' with h0 | h1
      · rw [h0] at hOpen'
        simp [hOpen']
      · rw [h1] at hOpen'
        simp [hOpen']
    have hNext := Manager.getNextNodeInStack_recorded hl
    have hEnd := (t.linked.validAt hl).1
    refine dslChoice_of_fetch (fetchNode_found _ _ hNext hn (by rw [hKind]; rfl) hCov hRule) t
      (.recorded l hl rfl) hn hEnd hNext (Or.inr rfl) rfl hi' hOpen' fun l' hl' => ?_
    rw [hl] at hl'
    obtain rfl := Option.some.inj hl'
    rfl
  -- the node is there and nothing is recorded: it is not full, so that the coverage rule
  -- leaves a branch
  | left n nd hEnd hNext hn hM hCov hOpen =>
    have hKind := hKindOf hM
    have hRule : m.coverageRule nd = false := by
      by_contra hRule
      refine hOpen (full_of_coverageRule (t.wf.shape hn) (fun s' b hk => ?_) (by simpa using hRule))
      rw [hKind] at hk
      obtain rfl := NodeKind.choice.inj hk
      exact hEndMark hEnd b
    have hSome : m.childCovered nd 0 = false ∨ m.childCovered nd 1 = false := by
      unfold Manager.coverageRule at hRule
      rw [hKind] at hRule
      exact Bool.and_eq_false_iff.mp hRule
    obtain ⟨r, hPick, hr, hOpen'⟩ := pickBranch_isSome bit hKind hSome
    have hnEnd : n ≠ ENDNODE := ne_end_of_kind t.wf hn (by simp [hKind])
    have hPending : Pending m n := by
      have hS := submitted_same t hNext hn hCov hnEnd
      exact hS.pending t
    refine dslChoice_of_fetch (fetchNode_found _ _ hNext hn (by rw [hKind]; rfl) hCov hRule) t
      hPending hn hnEnd hNext (Or.inr rfl) (by simpa using hPick) hr hOpen' fun l hl => ?_
    rw [hEnd, List.getElem?_eq_none (Nat.le_refl _)] at hl
    cases hl
  -- a new node has both branches
  | fresh hEnd hNext =>
    have hS : Submitted m m.next (Node.new (.choice s)) (m.alloc (Node.new (.choice s))).1 :=
      submitted_new hNext rfl
    obtain ⟨hStack, hIndex⟩ := hS.stack
    have hOpen : ∀ r, (m.alloc (Node.new (.choice s))).1.childCovered (Node.new (.choice s)) r =
        false := by
      intro r
      rw [childCovered_new, hS.infos]
      exact hEndMark hEnd _
    have hKind : (Node.new (.choice s)).kind = .choice s := rfl
    obtain ⟨r, hPick, hr, hOpen'⟩ := pickBranch_isSome bit hKind (Or.inl (hOpen 0))
    refine dslChoice_of_fetch (fetchNode_new _ _ hNext) (hS.tidy t) (hS.pending t) hS.node
      (hS.ne_end t.wf) ((hS.next t).trans hNext) (Or.inl ⟨rfl, rfl⟩) (by simpa using hPick) hr
      hOpen' fun l hl => ?_
    rw [hStack, hIndex, hEnd, List.getElem?_eq_none (Nat.le_refl _)] at hl
    cases hl

/-- A conditional that has fetched its node returns. -/
theorem dslConditional_of_fetch {v : Bool} {o : Option NodeId} {idx : Option Nat}
    (hFetch : m.fetchNode NodeKind.isConditional (.conditional v) = some (m₁, n, false))
    (t₁ : Tidy m₁) (hPending : Pending m₁ n) (hn : m₁.heap n = some nd) (hEnd : n ≠ ENDNODE)
    (hNext : m₁.getNextNodeInStack = some (o, idx))
    (hParent : (idx = none ∧ o = none) ∨ o = some n) (hIdx : idx = none ∨ idx = some 0)
    (hKind : nd.kind = .conditional v) (hOpen : m₁.treeChildCovered nd 0 = false)
    (hRec : ∀ l, m₁.nodeStack[m₁.stackIndex]? = some l → l.childIndex = 0) :
    ∃ m' a, m.dslConditional v = some (m', .returns a) := by
  obtain ⟨m', hAdd, _⟩ := hPending.consumable t₁ hn hEnd hRec
  refine ⟨m', .unit, ?_⟩
  simp [Manager.dslConditional, hFetch, hn, hNext, hParent, hIdx, hKind, Manager.childCovered,
    hOpen, hAdd, guard]

/-- **A conditional returns.** A node found for it has the same value, since the script does
what it did before. -/
theorem dslConditional_returns {v : Bool} (t : Tidy m) (hNode : NextNode m (.conditional v)) :
    ∃ m' a, m.dslConditional v = some (m', .returns a) := by
  have hKindOf : ∀ {kind : NodeKind}, Matches (.conditional v) kind → kind = .conditional v := by
    intro kind hM
    cases kind <;> try exact absurd hM id
    rw [show _ = _ from hM]
  have hLenOf : ∀ {n : Nat} {nd : Node}, m.heap n = some nd → nd.kind = .conditional v →
      nd.children.length = 1 := by
    intro n nd hn hKind
    rw [t.wf.shape hn, hKind]
    rfl
  -- the rule for a node with one child
  have hRuleOf : ∀ {n : Nat} {nd : Node}, m.heap n = some nd → nd.kind = .conditional v →
      m.treeChildCovered nd 0 = false → m.coverageRule nd = false := by
    intro n nd hn hKind hOpen
    by_contra hRule
    refine (open_of_not_full (hLenOf hn hKind) (by simp [hKind])).mpr hOpen
      (full_of_coverageRule (t.wf.shape hn) (fun s b hk => ?_) (by simpa using hRule))
    rw [hKind] at hk
    cases hk
  cases hNode with
  | recorded l nd hl hn hM hCov hi hOpen =>
    have hKind := hKindOf hM
    have hLen := hLenOf hn hKind
    have h0 : l.childIndex = 0 := by omega
    rw [h0] at hOpen
    have hNext := Manager.getNextNodeInStack_recorded hl
    rw [h0] at hNext
    refine dslConditional_of_fetch (fetchNode_found _ _ hNext hn (by rw [hKind]; rfl) hCov
      (hRuleOf hn hKind hOpen)) t (.recorded l hl rfl) hn (t.linked.validAt hl).1 hNext (Or.inr rfl)
      (Or.inr rfl) hKind hOpen fun l' hl' => ?_
    rw [hl] at hl'
    obtain rfl := Option.some.inj hl'
    exact h0
  | left n nd hEnd hNext hn hM hCov hOpen =>
    have hKind := hKindOf hM
    have hChild := (open_of_not_full (hLenOf hn hKind) (by simp [hKind])).mp hOpen
    have hnEnd : n ≠ ENDNODE := ne_end_of_kind t.wf hn (by simp [hKind])
    have hS := submitted_same t hNext hn hCov hnEnd
    refine dslConditional_of_fetch (fetchNode_found _ _ hNext hn (by rw [hKind]; rfl) hCov
      (hRuleOf hn hKind hChild)) t (hS.pending t) hn hnEnd hNext (Or.inr rfl) (Or.inl rfl) hKind
      hChild fun l hl => ?_
    rw [hEnd, List.getElem?_eq_none (Nat.le_refl _)] at hl
    cases hl
  | fresh hEnd hNext =>
    have hS : Submitted m m.next (Node.new (.conditional v)) (m.alloc (Node.new (.conditional v))).1 :=
      submitted_new hNext rfl
    obtain ⟨hStack, hIndex⟩ := hS.stack
    have hChild : (m.alloc (Node.new (.conditional v))).1.treeChildCovered
        (Node.new (.conditional v)) 0 = false := rfl
    refine dslConditional_of_fetch (fetchNode_new _ _ hNext) (hS.tidy t) (hS.pending t) hS.node
      (hS.ne_end t.wf) ((hS.next t).trans hNext) (Or.inl ⟨rfl, rfl⟩) (Or.inl rfl) rfl hChild
      fun l hl => ?_
    rw [hStack, hIndex, hEnd, List.getElem?_eq_none (Nat.le_refl _)] at hl
    cases hl

-- ---------------------------------------------------------------------------
-- Transitions
-- ---------------------------------------------------------------------------

/-- **A transition returns** when it is consumed in time, for both classes of nodes. -/
theorem dslTransition_returns {kind : NodeKind} (t : Tidy m) (hNode : NextNode m op)
    (hPrompt : Prompt op env) (hKindOf : ∀ k, Matches op k → k = kind)
    (hOne : kind.numChildren = 1) (hShape : (Node.new kind).children.length = kind.numChildren)
    (hEndKind : kind ≠ .endNode) :
    ∃ m' a, m.dslTransition kind env = some (m', .returns a) := by
  -- what is left once the node has been submitted
  have hReturns : ∀ (n : Nat) (nd : Node) (m₁ : Manager), m.submitTransition kind = some (m₁, n) →
      Submitted m n nd m₁ → (∀ l, m₁.nodeStack[m₁.stackIndex]? = some l → l.childIndex = 0) →
      ∃ m' a, m.dslTransition kind env = some (m', .returns a) := by
    intro n nd m₁ hSubmit hS hRec
    obtain ⟨m', hAdd, _⟩ := (hS.pending t).consumable (hS.tidy t) hS.node (hS.ne_end t.wf) hRec
    refine ⟨m', .unit, ?_⟩
    simp [Manager.dslTransition, hPrompt.alive, hPrompt.consumed, hSubmit, hAdd]
  cases hNode with
  | recorded l nd hl hn hM hCov hi hOpen =>
    have hKind := hKindOf _ hM
    have hNext := Manager.getNextNodeInStack_recorded hl
    have hEnd := (t.linked.validAt hl).1
    refine hReturns l.parent nd m ?_ (submitted_same t hNext hn hCov hEnd)
      fun l' hl' => ?_
    · simp [Manager.submitTransition, hNext, hn, hKind, hCov, guard]
    · rw [hl] at hl'
      obtain rfl := Option.some.inj hl'
      rw [t.wf.shape hn, hKind, hOne] at hi
      omega
  | left n nd hEnd hNext hn hM hCov hOpen =>
    have hKind := hKindOf _ hM
    have hnEnd : n ≠ ENDNODE := ne_end_of_kind t.wf hn (by rw [hKind]; exact hEndKind)
    refine hReturns n nd m ?_ (submitted_same t hNext hn hCov hnEnd)
      fun l hl => ?_
    · simp [Manager.submitTransition, hNext, hn, hKind, hCov, guard]
    · rw [hEnd, List.getElem?_eq_none (Nat.le_refl _)] at hl
      cases hl
  | fresh hEnd hNext =>
    have hS : Submitted m m.next (Node.new kind) (m.alloc (Node.new kind)).1 :=
      submitted_new hNext hShape
    obtain ⟨hStack, hIndex⟩ := hS.stack
    refine hReturns m.next (Node.new kind) (m.alloc (Node.new kind)).1 ?_ hS
      fun l hl => ?_
    · simp [Manager.submitTransition, hNext, Manager.alloc]
    · rw [hStack, hIndex, hEnd, List.getElem?_eq_none (Nat.le_refl _)] at hl
      cases hl

-- ---------------------------------------------------------------------------
-- Thread selections
-- ---------------------------------------------------------------------------

/-- A submitted FORALL node that threads are evaluating. -/
structure Evaluating (m₀ m : Manager) (n : Nat) (nd : Node) (scope : ThreadVarPtrSet)
    (map : List ThreadVar) (o : Option NodeId) (idx : Option Nat) : Prop where
  submitted : Submitted m₀ n nd m
  kind      : nd.kind = .forallThread scope map none
  filed     : Filed scope map
  next      : m₀.getNextNodeInStack = some (o, idx)
  parent    : (idx = none ∧ o = none) ∨ o = some n
  index     : ∀ j ∈ idx, j < nd.children.length
  recorded  : ∀ l, m₀.nodeStack[m₀.stackIndex]? = some l → idx = some l.childIndex

/-- A thread has looked at the node in vain: its child is covered, or another one is
recorded. -/
def Refused (m : Manager) (nd : Node) (scope : ThreadVarPtrSet) (map : List ThreadVar)
    (idx : Option Nat) (t : Thread) : Prop :=
  ∀ v, (v, t) ∈ scope.vars → ∃ i, map[i]? = some (.bound v) ∧
    (m.treeChildCovered nd i = true ∨ ∃ j ∈ idx, j ≠ i)

/-- A thread always gets a child: an old one, or a new one at the end. -/
theorem addOrGetChildIndex_isSome (hKind : nd.kind = .forallThread scope map none)
    (hShape : nd.children.length = nd.kind.numChildren) (var : ThreadVar) :
    ∃ nd' i, Manager.addOrGetChildIndex nd var = some (nd', i) := by
  have hLen : map.length = nd.children.length := by
    rw [hShape, hKind]
    rfl
  unfold Manager.addOrGetChildIndex
  simp only [hKind]
  rcases Manager.childIndexOf map var with _ | i
  · simp [hLen, guard]
  · exact ⟨nd, i, rfl⟩

variable {o : Option NodeId} {idx : Option Nat}

/-- What is filed stays filed, and threads refused before are refused still. -/
theorem Refused.grow {map' : List ThreadVar} {lvar : Option Thread}
    (hRef : Refused m nd scope map idx t) (hGrow : ForallGrown scope map lvar nd nd' map')
    (hCov : ∀ k, m'.isCovered k = m.isCovered k) : Refused m' nd' scope map' idx t := by
  intro v hv
  obtain ⟨i, hi, hWhy⟩ := hRef v hv
  obtain ⟨new, rfl⟩ := hGrow.map.extends
  refine ⟨i, by rw [List.getElem?_append_left (List.getElem?_eq_some_iff.mp hi).1, hi], ?_⟩
  rcases hWhy with hTree | hIdx
  · obtain ⟨c, hc, hcc⟩ := treeChildCovered_iff.mp hTree
    exact Or.inl (treeChildCovered_iff.mpr
      ⟨c, (hGrow.grow.sameLinks.children i c).mpr hc, by rwa [hCov]⟩)
  · exact Or.inr hIdx

/-- A node that grows keeps its flag. -/
theorem isCovered_setNode_grow (hn : m.heap n = some nd) (hCov : nd'.covered = nd.covered) (k : Nat) :
    (m.setNode n nd').isCovered k = m.isCovered k := by
  by_cases hk : k = n
  · subst hk
    rw [isCovered_of_node hn, isCovered_setNode_self, hCov]
  · exact isCovered_setNode_of_ne hk

/-- **A thread that evaluates a FORALL node** is refused for a reason, or accepted. A
refused thread has a child that is covered, or is not the recorded one; either way it has
been filed. -/
theorem Evaluating.eval (hE : Evaluating m₀ m n nd scope map o idx) (t₀ : Tidy m₀)
    (hDistinct : scope.Distinct) (of : Offer) :
    (∃ nd' map', m.evalSelectThread n of = some (m.setNode n nd', none) ∧
      ForallGrown scope map none nd nd' map' ∧
      (of.canSelect = true → Refused (m.setNode n nd') nd' scope map' idx of.thread)) ∨
    (∃ nd' map' i var, m.evalSelectThread n of = some (m.setNode n nd', some i) ∧
      ForallGrown scope map (some of.thread) nd nd' map' ∧ Files scope map' of.thread i var ∧
      ∀ j ∈ idx, j = i) := by
  have hS := hE.submitted
  have hKind := hE.kind
  have hShape := (hS.tidy t₀).wf.shape hS.node
  have hGrown₀ : ForallGrown scope map none nd nd map := ⟨hKind, .refl hShape, .refl map⟩
  have hEval : m.evalSelectThread n of = m.checkAndSelectForall n of idx := by
    simp [Manager.evalSelectThread, hS.node, hS.covered, (hS.next t₀).trans hE.next, hE.parent,
      hKind, guard]
  have hRefuse : m.evalSelectThread n of = some (m, none) →
      m.evalSelectThread n of = some (m.setNode n nd, none) := by
    intro h
    rw [h, setNode_same hS.node]
  -- a thread without a variable in the scope
  rcases hVar : scope.varFor of.thread with _ | var
  · refine Or.inl ⟨nd, map, hRefuse ?_, hGrown₀, fun _ v hv => ?_⟩
    · rw [hEval]
      simp [Manager.checkAndSelectForall, hS.node, hKind, hVar, guard]
    · rw [(ThreadVarPtrSet.varFor_iff hDistinct).mpr ⟨v, rfl, hv⟩] at hVar
      cases hVar
  -- its predicate is true: it has an index, found or new
  by_cases hCan : of.canSelect = true
  · obtain ⟨nd', i, hIdx⟩ := addOrGetChildIndex_isSome hKind hShape var
    obtain ⟨map', hKind', hGrow, hMap, hAt, hFirst⟩ :=
      addOrGetChildIndex_cases hKind hShape hVar hIdx
    have hFiles : Files scope map' of.thread i var := ⟨hVar, hAt, hFirst⟩
    have hLt : i < nd'.children.length := by
      rw [hGrow.shape, hKind']
      exact (List.getElem?_eq_some_iff.mp hAt).1
    have hIdxLt : ∀ j ∈ idx, j < nd'.children.length := fun j hj =>
      Nat.lt_of_lt_of_le (hE.index j hj) hGrow.length_le
    have hRefused : (m.setNode n nd').treeChildCovered nd' i = true ∨ (∃ j ∈ idx, j ≠ i) →
        Refused (m.setNode n nd') nd' scope map' idx of.thread := by
      intro hWhy v hv
      obtain ⟨v', rfl, hv'⟩ := (ThreadVarPtrSet.varFor_iff hDistinct).mp hVar
      have hSame := List.inj_on_of_nodup_map hDistinct.threads hv hv' rfl
      obtain rfl := (Prod.mk.inj hSame).1
      exact ⟨i, hAt, hWhy⟩
    have hCheck : m.checkAndSelectForall n of idx =
        if ∃ j ∈ idx, j ≠ i then some (m.setNode n nd', none)
        else if (m.setNode n nd').treeChildCovered nd' i then some (m.setNode n nd', none)
        else some (m.setNode n (nd'.setLvar of.thread), some i) := by
      simp only [Manager.checkAndSelectForall, hS.node, hKind, hVar, hCan, hIdx, hLt,
        Option.bind_eq_bind, Option.bind_some, guard, if_true, not_true_eq_false, if_false,
        setNode_setNode, Option.pure_def]
      rw [if_pos hIdxLt]
      rfl
    -- the three ways of `CheckAndSelectThread` from there on
    by_cases hOther : ∃ j ∈ idx, j ≠ i
    · refine Or.inl ⟨nd', map', ?_, ⟨hKind', hGrow, hMap⟩, fun _ => hRefused (Or.inr hOther)⟩
      rw [hEval, hCheck, if_pos hOther]
    · have hSameIdx : ∀ j ∈ idx, j = i := by
        intro j hj
        by_contra hne
        exact hOther ⟨j, hj, hne⟩
      by_cases hCov : (m.setNode n nd').treeChildCovered nd' i = true
      · refine Or.inl ⟨nd', map', ?_, ⟨hKind', hGrow, hMap⟩, fun _ => hRefused (Or.inl hCov)⟩
        rw [hEval, hCheck, if_neg hOther, if_pos hCov]
      · have hLvar : nd'.setLvar of.thread =
            { nd' with kind := .forallThread scope map' (some of.thread) } := by
          simp [Node.setLvar, hKind']
        have hGrow' : Regrown nd (nd'.setLvar of.thread) := by
          refine hGrow.trans ?_
          rw [hLvar]
          have hShape' := hGrow.shape
          rw [hKind'] at hShape'
          exact ⟨rfl, rfl, ⟨0, by simp⟩, hShape', fun hRoot => by rw [hKind'] at hRoot; cases hRoot⟩
        refine Or.inr ⟨nd'.setLvar of.thread, map', i, var, ?_, ⟨by rw [hLvar], hGrow', hMap⟩,
          hFiles, hSameIdx⟩
        rw [hEval, hCheck, if_neg hOther, if_neg hCov]
  -- its predicate is false
  · refine Or.inl ⟨nd, map, hRefuse ?_, hGrown₀, fun h => absurd h hCan⟩
    rw [hEval]
    simp [Manager.checkAndSelectForall, hS.node, hKind, hVar, hCan, guard]

/-- The next thread evaluates the node as the last one has left it. -/
theorem Evaluating.grow {map' : List ThreadVar} (hE : Evaluating m₀ m n nd scope map o idx)
    (hDistinct : scope.Distinct) (hGrow : ForallGrown scope map none nd nd' map') :
    Evaluating m₀ (m.setNode n nd') n nd' scope map' o idx where
  submitted := hE.submitted.regrow hGrow.grow
  kind := hGrow.kind
  filed := hGrow.map.filed hDistinct hE.filed
  next := hE.next
  parent := hE.parent
  index j hj := Nat.lt_of_lt_of_le (hE.index j hj) hGrow.grow.length_le
  recorded := hE.recorded

/-- **Threads evaluate a FORALL node** until one consumes it, or all are refused. By
induction on the offers; what has refused the first thread still refuses it after the node
has grown. -/
theorem Evaluating.offer (hE : Evaluating m₀ m n nd scope map o idx) (t₀ : Tidy m₀)
    (hDistinct : scope.Distinct) (offers : List Offer) :
    (∃ m' t, m.offerSelect n offers = some (m', some t) ∧ m'.checkConsumed n t = some ()) ∨
    (∃ nd' map', m.offerSelect n offers = some (m.setNode n nd', none) ∧
      ForallGrown scope map none nd nd' map' ∧
      ∀ of ∈ offers, of.canSelect = true → Refused (m.setNode n nd') nd' scope map' idx of.thread) := by
  induction offers generalizing m nd map with
  | nil =>
    have hS := hE.submitted
    refine Or.inr ⟨nd, map, ?_, ⟨hE.kind, .refl ((hS.tidy t₀).wf.shape hS.node), .refl map⟩,
      fun _ h => absurd h List.not_mem_nil⟩
    rw [setNode_same hS.node]
    rfl
  | cons of rest ih =>
    rcases hE.eval t₀ hDistinct of with
      ⟨nd₁, map₁, hEval, hGrow, hWhy⟩ | ⟨nd₁, map₁, i, var, hEval, hGrow, hFiles, hIdx⟩
    · -- refused: the next thread evaluates the grown node
      rcases ih (hE.grow hDistinct hGrow) with ⟨m', t, hOffer, hCheck⟩ |
        ⟨nd₂, map₂, hOffer, hGrow₂, hAll⟩
      · exact Or.inl ⟨m', t, by simp [Manager.offerSelect, hEval, hOffer], hCheck⟩
      · rw [setNode_setNode] at hOffer hAll
        refine Or.inr ⟨nd₂, map₂, by simp [Manager.offerSelect, hEval, hOffer],
          ⟨hGrow₂.kind, hGrow.grow.trans hGrow₂.grow, hGrow.map.trans hGrow₂.map⟩, ?_⟩
        intro of' hof' hCan
        rcases List.mem_cons.mp hof' with rfl | hMem
        · refine (hWhy hCan).grow hGrow₂ fun k => ?_
          rw [← setNode_setNode m n nd₁ nd₂]
          exact isCovered_setNode_grow (Function.update_self ..) hGrow₂.grow.covered k
        · exact hAll of' hMem hCan
    · -- accepted: the child it stands for is consumed
      have hS := hE.submitted.regrow hGrow.grow
      obtain ⟨hStack, hIndex⟩ := hS.stack
      obtain ⟨m', hAdd, hC⟩ := (hS.pending t₀).consumable (hS.tidy t₀) hS.node (hS.ne_end t₀.wf)
        (i := i) (fun l hl => by
          rw [hStack, hIndex] at hl
          exact hIdx _ (by rw [hE.recorded l hl]; rfl))
      refine Or.inl ⟨m', of.thread, by simp [Manager.offerSelect, hEval, hAdd], ?_⟩
      obtain ⟨nd', hnd', hKind', _⟩ := hC.keeps hS.node
      rw [hGrow.kind] at hKind'
      obtain ⟨v, hVar, hv⟩ := (ThreadVarPtrSet.varFor_iff hDistinct).mp hFiles.filed
      have hThread : var.thread scope = some of.thread := by
        rw [hVar]
        exact scope.threadOf_iff.mpr hv
      simp [Manager.checkConsumed, hC.getLast, hnd', hKind', hFiles.index, hThread, guard]

/-- **A node that refuses all threads of its scope is full**: each of its children stands
for a thread, which has been refused because the child is covered, and all variables of the
scope have been filed. -/
theorem full_of_refused (hDistinct : scope.Distinct) (hKind : nd.kind = .forallThread scope map none)
    (hShape : nd.children.length = nd.kind.numChildren) (hF : Filed scope map)
    (hAll : ∀ t ∈ scope.threads, Refused m nd scope map none t) : Full m nd := by
  have hLen : nd.children.length = map.length := by
    rw [hShape, hKind]
    rfl
  constructor
  -- all children are covered
  · intro j hj
    have hj' : map[j]? = some map[j] := List.getElem?_eq_getElem (hLen ▸ hj)
    obtain ⟨v, t, hv, hMem⟩ := hF.bound map[j] (List.getElem_mem _)
    obtain ⟨i, hi, hWhy⟩ := hAll t (ThreadVarPtrSet.mem_threads.mpr ⟨v, hMem⟩) v hMem
    have hij : i = j := by
      obtain ⟨hiLt, hiAt⟩ := List.getElem?_eq_some_iff.mp hi
      exact (hF.nodup.getElem_inj_iff).mp (hiAt.trans hv.symm)
    rw [← hij]
    rcases hWhy with hTree | ⟨_, hNone, _⟩
    · exact hTree
    · cases hNone
  -- there are as many children as variables
  · intro scope' map' lvar hk
    rw [hKind] at hk
    obtain ⟨rfl, rfl, _⟩ := NodeKind.forallThread.inj hk
    rw [if_neg hDistinct.size_ne_zero, hLen]
    -- the variables filed are the variables of the scope
    have hNodup : (scope.vars.map fun p => ThreadVar.bound p.1).Nodup := by
      have hMap : (scope.vars.map fun p => ThreadVar.bound p.1) =
          (scope.vars.map Prod.fst).map ThreadVar.bound := by
        rw [List.map_map]
        rfl
      rw [hMap]
      exact scope.nodup.map fun _ _ h => ThreadVar.bound.inj h
    have hPerm : (scope.vars.map fun p => ThreadVar.bound p.1).Perm map := by
      refine (List.perm_ext_iff_of_nodup hNodup hF.nodup).mpr fun var => ⟨fun hVar => ?_, fun hVar => ?_⟩
      · obtain ⟨⟨v, t⟩, hMem, rfl⟩ := List.mem_map.mp hVar
        obtain ⟨i, hi, _⟩ := hAll t (ThreadVarPtrSet.mem_threads.mpr ⟨v, hMem⟩) v hMem
        exact List.mem_of_getElem? hi
      · obtain ⟨v, t, rfl, hMem⟩ := hF.bound var hVar
        exact List.mem_map.mpr ⟨(v, t), hMem, rfl⟩
    rw [← hPerm.length_eq, List.length_map]
    rfl

/-- What `submitForallThread` does to the node it finds: it is given the scope again, and
keeps what it has filed. -/
theorem NextNode.evaluating (hNode : NextNode m (.forallThread scope)) (t : Tidy m) :
    ∃ n nd m₁ map o idx, m.submitForallThread scope = some (m₁, n) ∧
      Evaluating m m₁ n nd scope map o idx ∧
      (∀ nd₀, m.heap n = some nd₀ → Matches (.forallThread scope) nd₀.kind) ∧
      ∀ j ∈ idx, m.treeChildCovered nd j = false := by
  have hKindOf : ∀ {kind : NodeKind}, Matches (.forallThread scope) kind →
      ∃ map lvar, kind = .forallThread scope map lvar ∧ Filed scope map := by
    intro kind hM
    cases kind <;> try exact absurd hM id
    obtain ⟨rfl, hF⟩ := hM
    exact ⟨_, _, rfl, hF⟩
  -- an existing node is initialised again
  have hFound : ∀ {n : Nat} {nd : Node} {idx : Option Nat},
      m.getNextNodeInStack = some (some n, idx) → m.heap n = some nd →
      Matches (.forallThread scope) nd.kind → nd.covered = false → n ≠ ENDNODE →
      (∀ j ∈ idx, j < nd.children.length ∧ m.treeChildCovered nd j = false) →
      (∀ l, m.nodeStack[m.stackIndex]? = some l → idx = some l.childIndex) →
      ∃ n nd m₁ map o idx, m.submitForallThread scope = some (m₁, n) ∧
        Evaluating m m₁ n nd scope map o idx ∧
        (∀ nd₀, m.heap n = some nd₀ → Matches (.forallThread scope) nd₀.kind) ∧
        ∀ j ∈ idx, m.treeChildCovered nd j = false := by
    intro n nd idx hNext hn hM hCov hEnd hIdx hRec
    obtain ⟨map, lvar, hKind, hF⟩ := hKindOf hM
    have hShape : nd.children.length = map.length := by
      rw [t.wf.shape hn, hKind]
      rfl
    have hGrow : Regrown nd { nd with kind := .forallThread scope map none } :=
      ⟨rfl, rfl, ⟨0, by simp⟩, hShape, fun hRoot => by rw [hKind] at hRoot; cases hRoot⟩
    refine ⟨n, { nd with kind := .forallThread scope map none },
      m.setNode n { nd with kind := .forallThread scope map none }, map, some n, idx, ?_,
      ⟨.old idx nd hNext hn hCov hEnd hGrow, rfl, hF, hNext, Or.inr rfl,
        fun j hj => (hIdx j hj).1, hRec⟩, fun nd₀ hn₀ => ?_, fun j hj => (hIdx j hj).2⟩
    · simp [Manager.submitForallThread, Manager.submitSelect, hNext, hn, hKind, hCov, guard]
    · rw [hn] at hn₀
      obtain rfl := Option.some.inj hn₀
      exact hM
  cases hNode with
  | recorded l nd hl hn hM hCov hi hOpen =>
    refine hFound (Manager.getNextNodeInStack_recorded hl) hn hM hCov (t.linked.validAt hl).1
      (fun j hj => ?_) fun l' hl' => ?_
    · obtain rfl : l.childIndex = j := Option.some.inj hj
      exact ⟨hi, hOpen⟩
    · rw [hl] at hl'
      obtain rfl := Option.some.inj hl'
      rfl
  | left n nd hEnd hNext hn hM hCov hOpen =>
    obtain ⟨map, lvar, hKind, _⟩ := hKindOf hM
    refine hFound hNext hn hM hCov (ne_end_of_kind t.wf hn (by simp [hKind]))
      (fun j hj => by cases hj) fun l hl => ?_
    rw [hEnd, List.getElem?_eq_none (Nat.le_refl _)] at hl
    cases hl
  | fresh hEnd hNext =>
    refine ⟨m.next, Node.new (.forallThread scope [] none), (m.alloc _).1, [], none, none, ?_,
      ⟨submitted_new hNext rfl, rfl, filed_nil scope, hNext, Or.inl ⟨rfl, rfl⟩,
        (fun j hj => by cases hj), fun l hl => ?_⟩, fun nd₀ hn₀ => ?_, (fun j hj => by cases hj)⟩
    · simp [Manager.submitForallThread, Manager.submitSelect, hNext, Manager.alloc]
    · rw [hEnd, List.getElem?_eq_none (Nat.le_refl _)] at hl
      cases hl
    · rw [t.wf.fresh _ (Nat.le_refl _)] at hn₀
      cases hn₀

/-- **A FORALL selection returns** when all threads of its scope evaluate it. If all were
refused, the node would be full and so would have been found covered before, or the recorded
thread would be among those refused, whose child is not covered. -/
theorem dslForallThread_returns (t : Tidy m) (hFlag : Flagged m) (hDistinct : scope.Distinct)
    (hNode : NextNode m (.forallThread scope)) (hPrompt : Prompt (.forallThread scope) env) :
    ∃ m' a, m.dslForallThread scope env = some (m', .returns a) := by
  obtain ⟨n, nd, m₁, map, o, idx, hSubmit, hE, hOld, hOpen⟩ := hNode.evaluating t
  rcases hE.offer t hDistinct env.offers with ⟨m', th, hOffer, hCheck⟩ |
    ⟨nd', map', hOffer, hGrow, hAll⟩
  · refine ⟨m', .thread th, ?_⟩
    simp [Manager.dslForallThread, hPrompt.alive, hSubmit, Manager.awaitSelect, hOffer, hCheck]
  · -- not all threads can have been refused
    exfalso
    have hE' := hE.grow hDistinct hGrow
    have hS' := hE'.submitted
    have hRefused : ∀ th ∈ scope.threads, Refused (m₁.setNode n nd') nd' scope map' idx th :=
      fun th hth => hAll ⟨th, true⟩ (hPrompt.offers scope rfl th hth) rfl
    have hShape' := (hS'.tidy t).wf.shape hS'.node
    -- no index is recorded: the node would be full
    rcases idx with _ | j
    · refine hS'.not_full t (show Op.Plain (.forallThread scope) from hDistinct) ?_ hOld hFlag
        (full_of_refused hDistinct hE'.kind hShape' hE'.filed hRefused)
      rw [hE'.kind]
      exact ⟨rfl, hE'.filed⟩
    · -- the recorded thread is not refused
      have hj : j < nd.children.length := hE.index j rfl
      have hLen : nd.children.length = map.length := by
        rw [(hE.submitted.tidy t).wf.shape hE.submitted.node, hE.kind]
        rfl
      obtain ⟨new, rfl⟩ := hGrow.map.extends
      have hAt : (map ++ new)[j]? = some map[j] := by
        rw [List.getElem?_append_left (hLen ▸ hj), List.getElem?_eq_getElem]
      obtain ⟨v, th, hv, hMem⟩ := hE.filed.bound map[j] (List.getElem_mem _)
      obtain ⟨i, hi, hWhy⟩ := hRefused th (ThreadVarPtrSet.mem_threads.mpr ⟨v, hMem⟩) v hMem
      have hij : i = j := by
        obtain ⟨hiLt, hiAt⟩ := List.getElem?_eq_some_iff.mp hi
        obtain ⟨hjLt, hjAt⟩ := List.getElem?_eq_some_iff.mp hAt
        exact (hE'.filed.nodup.getElem_inj_iff).mp (hiAt.trans (hv.symm.trans hjAt.symm))
      rcases hWhy with hTree | ⟨j', hj', hNe⟩
      · obtain ⟨c, hc, hCov⟩ := treeChildCovered_iff.mp hTree
        have hCovBack : m.isCovered c = true := by
          rw [← hS'.isCovered_eq t c]
          exact hCov
        have hChild := hOpen j rfl
        rw [treeChildCovered_iff.mpr
          ⟨c, (hGrow.grow.sameLinks.children j c).mp (hij ▸ hc), hCovBack⟩] at hChild
        cases hChild
      · obtain rfl : j = j' := Option.some.inj hj'
        exact hNe hij.symm

-- ---------------------------------------------------------------------------
-- Every operation
-- ---------------------------------------------------------------------------

/-- **Progress.** An operation that does not end the script returns, as long as it is served
in time and no marks have closed a choice. -/
theorem Tracks.returns (hT : Tracks script m history ρ) (t : Tidy m) (hFlag : Flagged m)
    (hOpen : Open m) (hPlain : Script.Plain script) (hMarks : Unmarked m (script history))
    (hPrompt : Prompt (script history) env) (hGoes : ¬ (script history).Ends) :
    ∃ m' a, m.dslOp (script history) env = some (m', .returns a) := by
  have hNode := hT.nextNode t hFlag hOpen
  have hOpPlain := hPlain history
  generalize script history = op at *
  cases op with
  | finish => exact absurd (Or.inl rfl) hGoes
  | assumeFails => exact absurd (Or.inr rfl) hGoes
  | choice s => exact dslChoice_returns env.bit t hNode hMarks
  | conditional v => exact dslConditional_returns t hNode
  | runThrough =>
    refine dslTransition_returns t hNode hPrompt (fun k hM => ?_) rfl rfl (by simp)
    cases k <;> first | rfl | exact absurd hM id
  | runUntil =>
    refine dslTransition_returns t hNode hPrompt (fun k hM => ?_) rfl rfl (by simp)
    cases k <;> first | rfl | exact absurd hM id
  | forallThread scope => exact dslForallThread_returns t hFlag hOpPlain hNode hPrompt
  | existsThread => exact absurd hOpPlain id

end Concurrit.Model
