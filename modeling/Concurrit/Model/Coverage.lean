import Mathlib.Data.List.Perm.Subperm
import Concurrit.Model.Closing

/-!
# Concurrit — coverage of a plain script

What the coverage flags mean. A covered node is one below which every leaf of
the script is accounted for (`Sound`); a node that is not covered has a child
that is not (`Flagged`); and the search continues where something is left to do
(`Open`). Operations keep all three, and so does the end of an execution.
-/

namespace Concurrit.Model

open Function (update)
open Walk

variable {h h' : Heap} {next n p i k c : Nat} {a b : Answer} {m m' m₁ m₂ mid : Manager}
  {nd nd' pd : Node} {l last loc : ChildLoc} {stack base : List ChildLoc} {path q π : List Answer}
  {script : Script} {op : Op} {env : Env} {history ρ : List Answer} {cfg : Cfg}
  {reason : BacktrackReason} {scope : ThreadVarPtrSet} {map : List ThreadVar} {t : Thread}
  {good good' : List Answer → Prop}

-- ---------------------------------------------------------------------------
-- The coverage rules
-- ---------------------------------------------------------------------------

theorem treeChildCovered_iff {j : Nat} : m.treeChildCovered nd j = true ↔
    ∃ c, nd.children[j]? = some (some c) ∧ m.isCovered c = true := by
  unfold Manager.treeChildCovered Node.child
  rcases nd.children[j]? with _ | _ | c <;> simp

/-- All slots lead to covered nodes. -/
theorem childrenCovered_iff : m.childrenCovered nd = true ↔
    ∀ j < nd.children.length, m.treeChildCovered nd j = true := by
  unfold Manager.childrenCovered
  rw [List.all_eq_true]
  constructor
  · intro hAll j hj
    have hCov := hAll _ (List.getElem_mem hj)
    rw [treeChildCovered_iff]
    rcases hc : nd.children[j] with _ | c
    · simp [hc] at hCov
    · exact ⟨c, by rw [List.getElem?_eq_getElem hj, hc], by simpa [hc] using hCov⟩
  · intro hAll o ho
    obtain ⟨j, hj, rfl⟩ := List.getElem_of_mem ho
    obtain ⟨c, hc, hCov⟩ := treeChildCovered_iff.mp (hAll j hj)
    rw [List.getElem?_eq_getElem hj] at hc
    rw [Option.some.inj hc]
    exact hCov

theorem isCovered_of_node (hn : m.heap n = some nd) : m.isCovered n = nd.covered := by
  unfold Manager.isCovered
  rw [hn]

theorem isCovered_setNode_self : (m.setNode n nd).isCovered n = nd.covered :=
  isCovered_of_node (show (m.setNode n nd).heap n = some nd from Function.update_self ..)

theorem isCovered_setNode_of_ne (hk : k ≠ n) : (m.setNode n nd).isCovered k = m.isCovered k := by
  have hHeap : (m.setNode n nd).heap k = m.heap k := Function.update_of_ne hk ..
  unfold Manager.isCovered
  rw [hHeap]

/-- Every child of the node is there and covered, and a FORALL node has all its
children: the coverage rule, the marks of choices left out. -/
structure Full (m : Manager) (nd : Node) : Prop where
  children : ∀ j < nd.children.length, m.treeChildCovered nd j = true
  complete : ∀ scope map lvar, nd.kind = .forallThread scope map lvar →
    nd.children.length = if scope.size = 0 then m.numMembers else scope.size

/-- A node that is full is covered by the rule. -/
theorem coverageRule_of_full (hShape : nd.children.length = nd.kind.numChildren) (hFull : Full m nd) :
    m.coverageRule nd = true := by
  have hAll := childrenCovered_iff.mpr hFull.children
  unfold Manager.coverageRule
  rcases hKind : nd.kind with _ | _ | s | _ | ⟨scope, map, lvar⟩ | _ | _ | _
  case choice =>
    have hLen : nd.children.length = 2 := by
      rw [hShape, hKind]
      rfl
    have h0 := hFull.children 0 (by omega)
    have h1 := hFull.children 1 (by omega)
    simp [Manager.childCovered, hKind, h0, h1]
  case forallThread =>
    have hLen := hFull.complete scope map lvar hKind
    simp [hLen, hAll]
  all_goals exact hAll

/-- Without marks the coverage rule asks the tree only. -/
theorem full_of_coverageRule (hShape : nd.children.length = nd.kind.numChildren)
    (hMarks : ∀ s b, nd.kind = .choice s → (m.infos s).covered b = false)
    (hRule : m.coverageRule nd = true) : Full m nd := by
  unfold Manager.coverageRule at hRule
  constructor
  · rcases hKind : nd.kind with _ | _ | s | _ | ⟨scope, map, lvar⟩ | _ | _ | _
    -- the choice node: its two sides, each without a mark
    case choice =>
      simp only [hKind, Manager.childCovered, hMarks s _ hKind, Bool.or_false,
        Bool.and_eq_true] at hRule
      have hLen : nd.children.length = 2 := by
        rw [hShape, hKind]
        rfl
      intro j hj
      rcases Nat.le_one_iff_eq_zero_or_eq_one.mp (Nat.le_of_lt_succ (hLen ▸ hj)) with rfl | rfl
      · exact hRule.1
      · exact hRule.2
    -- the FORALL node has all its children as well
    case forallThread =>
      simp only [hKind, Bool.and_eq_true] at hRule
      exact childrenCovered_iff.mp hRule.2
    all_goals
      rw [hKind] at hRule
      exact childrenCovered_iff.mp hRule
  · intro scope map lvar hKind
    simp only [hKind, Bool.and_eq_true, beq_iff_eq] at hRule
    exact hRule.1

/-- A node that is full is full wherever its children are covered. -/
theorem Full.mono (hFull : Full m nd) (hNum : m'.numMembers = m.numMembers)
    (hCov : ∀ (j c : Nat), nd.children[j]? = some (some c) → m.isCovered c = true →
      m'.isCovered c = true) : Full m' nd where
  children j hj := by
    obtain ⟨c, hc, hcc⟩ := treeChildCovered_iff.mp (hFull.children j hj)
    exact treeChildCovered_iff.mpr ⟨c, hc, hCov j c hc hcc⟩
  complete scope map lvar hKind := by rw [hNum, hFull.complete scope map lvar hKind]

-- ---------------------------------------------------------------------------
-- Flags
-- ---------------------------------------------------------------------------

/-- A node that is not covered is not full. -/
def Flagged (m : Manager) : Prop :=
  ∀ n nd, m.heap n = some nd → nd.covered = false → ¬ Full m nd

/-- Flags are a matter of the heap. -/
theorem Flagged.congr (hFlag : Flagged m) (hHeap : m'.heap = m.heap)
    (hNum : m'.numMembers = m.numMembers) : Flagged m' := by
  intro n nd hn hCov hFull
  rw [hHeap] at hn
  refine hFlag n nd hn hCov (hFull.mono hNum.symm fun _ c _ hc => ?_)
  unfold Manager.isCovered at hc ⊢
  rwa [hHeap] at hc

/-- Submitting a node changes no coverage, since the node is new or was there with the same
flag. -/
theorem Submitted.isCovered (hS : Submitted m n nd m₁) (hn : n < m.next ∨ m.heap n = none) (k : Nat) :
    m₁.isCovered k = m.isCovered k := by
  unfold Manager.isCovered
  by_cases hk : k = n
  · subst hk
    rw [hS.node]
    cases hS with
    | old idx nd₀ hNext hn₀ hCov hEnd hGrow =>
      rw [hn₀]
      exact hGrow.covered
    | new idx hNext hNew hPar hCov =>
      rcases hn with hLt | hNone
      · omega
      · rw [hNone]
        exact hCov
  · rw [hS.frame hk]

/-- **Submitting keeps flags.** -/
theorem Submitted.isCovered_eq (hS : Submitted m n nd m₁) (t : Tidy m) (k : Nat) :
    m₁.isCovered k = m.isCovered k := by
  refine hS.isCovered ?_ k
  rcases Nat.lt_or_ge n m.next with hLt | hGe
  · exact Or.inl hLt
  · exact Or.inr (t.wf.fresh n hGe)

theorem Submitted.numMembers (hS : Submitted m n nd m₁) : m₁.numMembers = m.numMembers := by
  cases hS with
  | old => rfl
  | new => rfl

theorem Consumed.numMembers (hC : Consumed m n i m') : m'.numMembers = m.numMembers := by
  cases hC with
  | recorded => rfl
  | linked => rfl
  | loose => rfl

theorem Consumed.infos (hC : Consumed m n i m') : m'.infos = m.infos := by
  cases hC with
  | recorded => rfl
  | linked => rfl
  | loose => rfl

/-- A submitted node is not covered. -/
theorem Submitted.isCovered_self (hS : Submitted m n nd m₁) : m₁.isCovered n = false :=
  (isCovered_of_node hS.node).trans hS.covered

/-- A proper FORALL scope has members. -/
theorem ThreadVarPtrSet.Distinct.size_ne_zero (hDistinct : scope.Distinct) : scope.size ≠ 0 := by
  unfold ThreadVarPtrSet.size
  exact fun h => hDistinct.nonempty (List.length_eq_zero_iff.mp h)

/-- A matching node that is full has children: for a FORALL node because its scope is not
empty. -/
theorem Full.length_pos (hFull : Full m nd) (hM : Matches op nd.kind) (hPlain : op.Plain)
    (hShape : nd.children.length = nd.kind.numChildren) : 0 < nd.children.length := by
  rcases hKind : nd.kind with _ | _ | s | v | ⟨scope, map, lvar⟩ | ⟨scope, map, lvar⟩ | _ | _
  case forallThread =>
    rw [hFull.complete scope map lvar hKind]
    rw [hKind] at hM
    cases op <;> try exact absurd hM id
    case forallThread scope' =>
      obtain ⟨rfl, _⟩ := hM
      rw [if_neg (ThreadVarPtrSet.Distinct.size_ne_zero hPlain)]
      exact Nat.pos_of_ne_zero (ThreadVarPtrSet.Distinct.size_ne_zero hPlain)
  case choice =>
    rw [hShape, hKind]
    exact Nat.two_pos
  all_goals
    rw [hShape, hKind]
    exact Nat.one_pos

/-- Evaluating a matching node does not make it full: the slots it gets are empty, and an
old node without new slots was not full before. -/
theorem Submitted.not_full (hS : Submitted m n nd m₁) (t : Tidy m) (hPlain : op.Plain)
    (hM : Matches op nd.kind) (hOld : ∀ nd₀, m.heap n = some nd₀ → Matches op nd₀.kind)
    (hFlag : Flagged m) : ¬ Full m₁ nd := by
  intro hFull
  have hPos := hFull.length_pos hM hPlain ((hS.tidy t).wf.shape hS.node)
  have hCov := hS.isCovered_eq t
  have hNum := hS.numMembers
  cases hS with
  -- the node was there
  | old idx nd₀ hNext hn₀ hCov₀ hEnd hGrow =>
    obtain ⟨j, hKids⟩ := hGrow.children
    -- nothing has been appended: what is appended is empty
    have hj : j = 0 := by
      by_contra hne
      obtain ⟨c, hc, _⟩ := treeChildCovered_iff.mp (hFull.children nd₀.children.length (by
        rw [hKids, List.length_append, List.length_replicate]
        omega))
      rw [hKids] at hc
      have hOldSlot := (getElem?_append_none _ _).mp hc
      rw [List.getElem?_eq_none (Nat.le_refl _)] at hOldSlot
      cases hOldSlot
    have hSame : nd.children = nd₀.children := by
      rw [hKids, hj]
      simp
    refine hFlag n nd₀ hn₀ hCov₀ ⟨fun i hi => ?_, fun scope₀ map₀ lvar₀ hKind₀ => ?_⟩
    · obtain ⟨c, hc, hcc⟩ := treeChildCovered_iff.mp (hFull.children i (by rwa [hSame]))
      exact treeChildCovered_iff.mpr ⟨c, by rwa [← hSame], by rwa [← hCov c]⟩
    · -- the node keeps the scope of its operation
      have hM₀ := hOld nd₀ hn₀
      rw [hKind₀] at hM₀
      rcases hKind : nd.kind with _ | _ | _ | _ | ⟨scope, map, lvar⟩ | _ | _ | _ <;>
        rw [hKind] at hM <;> cases op <;>
        first | exact absurd hM id | exact absurd hM₀ id | skip
      case forallThread scope' =>
        obtain ⟨rfl, _⟩ := hM
        obtain ⟨rfl, _⟩ := hM₀
        rw [← hSame, ← hNum]
        exact hFull.complete _ map lvar hKind
  -- a new node has no children, but slots
  | new idx hNext hn hPar hCov₀ hKids hShape =>
    obtain ⟨c, hc, _⟩ := treeChildCovered_iff.mp (hFull.children 0 hPos)
    exact hKids 0 c hc

/-- What consuming does not change: a full node was full before, as the slot that it fills
leads to a node that is not covered. -/
theorem Consumed.full_of_full (hC : Consumed m n i m') (hn : m.isCovered n = false)
    (hk : m'.heap k = some nd') (hFull : Full m' nd') : ∃ nd, m.heap k = some nd ∧
      nd.covered = nd'.covered ∧ Full m nd := by
  obtain ⟨nd, hnd, hKind, hCov⟩ := hC.heap_eq_some hk
  obtain ⟨nd₁, hnd₁, _, _, hLen, hSlots⟩ := hC.keeps hnd
  rw [hk] at hnd₁
  obtain rfl := Option.some.inj hnd₁
  refine ⟨nd, hnd, hCov.symm, fun j hj => ?_, fun scope map lvar hk' => ?_⟩
  · obtain ⟨c, hc, hcc⟩ := treeChildCovered_iff.mp (hFull.children j (by rwa [hLen]))
    rw [hC.isCovered] at hcc
    rcases hSlots j with hSame | ⟨_, hNew⟩
    · exact treeChildCovered_iff.mpr ⟨c, by rwa [← hSame], hcc⟩
    · rw [hc] at hNew
      obtain rfl := Option.some.inj (Option.some.inj hNew)
      rw [hn] at hcc
      cases hcc
  · rw [← hLen, ← hC.numMembers]
    exact hFull.complete scope map lvar (by rw [hKind, hk'])

/-- **An operation of a plain script keeps the flags right**: no node that is not covered is
full after it. -/
theorem Flagged.advance (hFlag : Flagged m) (t : Tidy m) (hT : Tracks script m history ρ)
    (hPlain : Script.Plain script) (hS : Submitted m n nd m₁)
    (hTakes : Takes m m₁ env n nd (script history) i a) (hC : Consumed m₁ n i m') : Flagged m' := by
  intro k kd' hk hCov hFull
  obtain ⟨kd, hkd, hkCov, hFull₁⟩ := hC.full_of_full hS.isCovered_self hk hFull
  by_cases hkn : k = n
  · subst hkn
    rw [hS.node] at hkd
    obtain rfl := Option.some.inj hkd
    have hP := hT.plainStep t hPlain hS hTakes
    exact hS.not_full t (hPlain history) hP.kind (fun nd₀ hn₀ => hT.matches_old t hS hn₀) hFlag hFull₁
  · rw [hS.frame hkn] at hkd
    refine hFlag k kd hkd (hkCov.trans hCov) (hFull₁.mono hS.numMembers.symm ?_)
    intro j c _ hc
    rwa [← hS.isCovered_eq t c]

-- ---------------------------------------------------------------------------
-- Something left to do
-- ---------------------------------------------------------------------------

/-- The stack can be continued: no node on it is covered, nor what its last slot
holds. -/
structure Open (m : Manager) : Prop where
  stack : ∀ l ∈ m.nodeStack, m.isCovered l.parent = false
  last  : ∀ last c, m.nodeStack.getLast? = some last → Slot m.heap last.parent last.childIndex c →
            m.isCovered c = false

/-- Where the stack of an operation's result comes from. -/
theorem Consumed.stack_cases (hC : Consumed m n i m') :
    (m'.nodeStack = m.nodeStack ∧ m'.heap = m.heap) ∨ m'.nodeStack = m.nodeStack ++ [⟨n, i⟩] := by
  cases hC with
  | recorded => exact Or.inl ⟨rfl, rfl⟩
  | linked => exact Or.inr rfl
  | loose => exact Or.inr rfl

/-- A node with one child that is not full has an open child. -/
theorem open_of_not_full (hLen : nd.children.length = 1)
    (hKind : ∀ scope map lvar, nd.kind ≠ .forallThread scope map lvar) :
    ¬ Full m nd ↔ m.treeChildCovered nd 0 = false := by
  constructor
  · intro hNot
    by_contra hCov
    refine hNot ⟨fun j hj => ?_, fun _ _ _ hk => absurd hk (hKind _ _ _)⟩
    rw [show j = 0 from by omega]
    simpa using hCov
  · intro hOpen hFull
    have hCov := hFull.children 0 (by omega)
    rw [hOpen] at hCov
    cases hCov

/-- The child a plain operation consumes is not covered: it was chosen for that, or is the
only one of a node that is not full. -/
theorem Takes.open_child (hTakes : Takes m m₁ env n nd op i a) (hPlain : op.Plain)
    (hNotFull : ¬ Full m₁ nd) (hShape : nd.children.length = nd.kind.numChildren)
    (hc : nd.children[i]? = some (some c)) : m₁.isCovered c = false := by
  have hTree : m₁.treeChildCovered nd i = false → m₁.isCovered c = false := by
    intro hOpen
    by_contra hCov
    rw [treeChildCovered_iff.mpr ⟨c, hc, by simpa using hCov⟩] at hOpen
    cases hOpen
  cases hTakes with
  | choice s i hKind hFound hi hOpen =>
    refine hTree ?_
    rcases hk : nd.kind with _ | _ | _ | _ | _ | _ | _ | _
    case choice => simpa [Manager.childCovered, hk] using (Bool.or_eq_false_iff.mp (by
      simpa [Manager.childCovered, hk] using hOpen)).1
    all_goals simp [hk, NodeKind.isChoice] at hKind
  | conditional v hKind hFound hOpen =>
    exact hTree (by simpa [Manager.childCovered, hKind] using hOpen)
  | runThrough hKind =>
    exact hTree ((open_of_not_full (by rw [hShape, hKind]; rfl) (by simp [hKind])).mp hNotFull)
  | runUntil hKind =>
    exact hTree ((open_of_not_full (by rw [hShape, hKind]; rfl) (by simp [hKind])).mp hNotFull)
  | forallThread scope map₀ map i t var hOffer hOrigin hKind hGrown hFiles hOpen => exact hTree hOpen
  | existsThread => exact absurd hPlain id

/-- **An operation of a plain script leaves something to do**: no node of the stack is
covered, nor is the child behind its last location. -/
theorem Open.advance (hOpen : Open m) (t : Tidy m) (hFlag : Flagged m)
    (hT : Tracks script m history ρ) (hPlain : Script.Plain script) (hS : Submitted m n nd m₁)
    (hTakes : Takes m m₁ env n nd (script history) i a) (hC : Consumed m₁ n i m') : Open m' := by
  have hCov : ∀ k, m'.isCovered k = m.isCovered k := fun k =>
    (hC.isCovered k).trans (hS.isCovered_eq t k)
  have hSelf : m'.isCovered n = false := (hC.isCovered n).trans hS.isCovered_self
  obtain ⟨hStack, _⟩ := hS.stack
  have t₁ := hS.tidy t
  -- the path is followed, and the stack stays
  rcases hC.stack_cases with ⟨hSame, hHeap⟩ | hGrown
  · constructor
    · intro l hl
      rw [hSame, hStack] at hl
      rw [hCov]
      exact hOpen.stack l hl
    · intro last c hLast hSlot
      rw [hSame, hStack] at hLast
      rw [hHeap] at hSlot
      rw [hCov]
      refine hOpen.last last c hLast ?_
      by_cases hln : last.parent = n
      · -- the node submitted keeps its children
        obtain ⟨nd₁, hnd₁, hc⟩ := hSlot
        rw [hln, hS.node] at hnd₁
        obtain rfl := Option.some.inj hnd₁
        cases hS with
        | old idx nd₀ hNext hn₀ _ _ hGrow =>
          exact ⟨nd₀, by rw [hln, hn₀], (hGrow.sameLinks.children _ _).mp hc⟩
        | new idx hNext hn _ _ hKids => exact absurd hc (hKids _ _)
      · obtain ⟨nd₁, hnd₁, hc⟩ := hSlot
        rw [hS.frame hln] at hnd₁
        exact ⟨nd₁, hnd₁, hc⟩
  -- the path grows by the location consumed
  · rw [hStack] at hGrown
    constructor
    · intro l hl
      rw [hGrown] at hl
      rcases List.mem_append.mp hl with hl | hl
      · rw [hCov]
        exact hOpen.stack l hl
      · rw [List.mem_singleton.mp hl]
        exact hSelf
    · intro last c hLast hSlot
      rw [hGrown, List.getLast?_concat] at hLast
      obtain rfl := Option.some.inj hLast
      obtain ⟨nd', hnd', hc⟩ := hSlot
      obtain ⟨nd₁, hnd₁, _, _, _, hSlots⟩ := hC.keeps hS.node
      rw [hnd'] at hnd₁
      obtain rfl := Option.some.inj hnd₁
      -- the child behind it is an old one or the node itself
      rcases hSlots i with hSame | ⟨_, hNew⟩
      · rw [hC.isCovered]
        have hP := hT.plainStep t hPlain hS hTakes
        exact hTakes.open_child (hPlain history) (hS.not_full t (hPlain history) hP.kind
          (fun nd₀ hn₀ => hT.matches_old t hS hn₀) hFlag) (t₁.wf.shape hS.node) (by rwa [← hSame])
      · have hc' : nd'.children[i]? = some (some c) := hc
        rw [hNew] at hc'
        obtain rfl := Option.some.inj (Option.some.inj hc')
        exact hSelf

-- ---------------------------------------------------------------------------
-- What coverage means
-- ---------------------------------------------------------------------------

/-- The leaf lies at or below the position. -/
abbrev LeafAt (script : Script) (path leaf : List Answer) : Prop :=
  Leaf script leaf ∧ path <+: .unit :: leaf

/-- Every leaf at or below a covered node is accounted for. -/
def Sound (script : Script) (m : Manager) (good : List Answer → Prop) : Prop :=
  ∀ path n, nodeAt m.heap path = some n → m.isCovered n = true →
    ∀ leaf, LeafAt script path leaf → good leaf

/-- Every leaf below a marked branch is accounted for. -/
def MarksSound (script : Script) (infos : StaticId → StaticChoiceInfo) (good : List Answer → Prop) :
    Prop :=
  ∀ history s b, script history = .choice s → (infos s).covered b = true →
    ∀ leaf, LeafAt script (.unit :: (history ++ [.branch b])) leaf → good leaf

theorem Sound.mono (hSound : Sound script m good) (hGood : ∀ leaf, good leaf → good' leaf) :
    Sound script m good' := fun path n hn hCov leaf hLeaf =>
  hGood leaf (hSound path n hn hCov leaf hLeaf)

/-- A tree none of whose positions has become covered stays sound. -/
theorem Sound.of_covered (hSound : Sound script m good)
    (hOld : ∀ path n, nodeAt m'.heap path = some n → m'.isCovered n = true →
      nodeAt m.heap path = some n ∧ m.isCovered n = true) : Sound script m' good := by
  intro path n hn hCov leaf hLeaf
  obtain ⟨hn', hCov'⟩ := hOld path n hn hCov
  exact hSound path n hn' hCov' leaf hLeaf

/-- Soundness is a property of the tree. -/
theorem Sound.congr (hSound : Sound script m good) (hHeap : m'.heap = m.heap) :
    Sound script m' good := by
  refine hSound.of_covered fun path n hn hCov => ?_
  rw [hHeap] at hn
  exact ⟨hn, by rwa [Manager.isCovered, hHeap] at hCov⟩

/-- **An operation of a plain script covers nothing**, so what was accounted for still is.
-/
theorem Sound.advance (hSound : Sound script m good) (t : Tidy m)
    (hMoved : Moved script m m' n history ρ path a) (hS : Submitted m n nd m₁)
    (hC : Consumed m₁ n i m') : Sound script m' good := by
  refine hSound.of_covered fun q k hk hCov => ?_
  rw [hC.isCovered] at hCov
  rw [hMoved.nodeAt] at hk
  split at hk
  · obtain rfl := Option.some.inj hk
    rw [hS.isCovered_self] at hCov
    cases hCov
  · exact ⟨hk, by rwa [← hS.isCovered_eq t k]⟩

/-- Every variable of a scope is filed in a FORALL node with all its children: as many
variables as the scope has, each once. -/
theorem Filed.mem_of_complete (hF : Filed scope map) (hLen : map.length = scope.size) {v : TVar}
    (hv : (v, t) ∈ scope.vars) : ThreadVar.bound v ∈ map := by
  have hSub : map ⊆ scope.vars.map (fun p => ThreadVar.bound p.1) := by
    intro var hVar
    obtain ⟨v', t', rfl, hMem⟩ := hF.bound var hVar
    exact List.mem_map.mpr ⟨(v', t'), hMem, rfl⟩
  have hPerm := (List.subperm_of_subset hF.nodup hSub).perm_of_length_le (by
    rw [List.length_map, hLen]
    exact Nat.le_refl _)
  exact hPerm.mem_iff.mpr (List.mem_map.mpr ⟨(v, t), hv, rfl⟩)

/-- **When the rule of a matching node holds, every answer of its operation leads to a
covered child** or is a marked branch. -/
theorem Matches.covered_child (hM : Matches op nd.kind) (hPlain : op.Plain)
    (hShape : nd.children.length = nd.kind.numChildren) (hRule : m.coverageRule nd = true)
    (ha : op.Admits a) :
    (∃ i c, slotOf nd.kind a = some i ∧ nd.children[i]? = some (some c) ∧ m.isCovered c = true) ∨
    (∃ s b, op = .choice s ∧ a = .branch b ∧ (m.infos s).covered b = true) := by
  unfold Manager.coverageRule at hRule
  -- an operation with one answer
  have hSingle : slotOf nd.kind a = some 0 → nd.kind.numChildren = 1 → m.childrenCovered nd = true →
      ∃ i c, slotOf nd.kind a = some i ∧ nd.children[i]? = some (some c) ∧ m.isCovered c = true := by
    intro hSlot hOne hAll
    obtain ⟨c, hc, hCov⟩ := treeChildCovered_iff.mp (childrenCovered_iff.mp hAll 0 (by
      rw [hShape, hOne]
      exact Nat.one_pos))
    exact ⟨0, c, hSlot, hc, hCov⟩
  rcases hKind : nd.kind with _ | _ | s | v | ⟨scope, map, lvar⟩ | ⟨scope, map, lvar⟩ | _ | _ <;>
    rw [hKind] at hM hRule <;> cases op <;> try exact absurd hM id
  -- a choice: the side of the answer
  case choice.choice s' =>
    obtain rfl : s = s' := hM
    cases a with
    | unit => exact absurd ha id
    | thread => exact absurd ha id
    | branch b =>
      simp only [Manager.childCovered, hKind, Bool.and_eq_true, Bool.or_eq_true] at hRule
      have hb : m.treeChildCovered nd (if b then 1 else 0) = true ∨ (m.infos s).covered b = true := by
        cases b
        · exact hRule.1
        · exact hRule.2
      rcases hb with hTree | hMark
      · obtain ⟨c, hc, hCov⟩ := treeChildCovered_iff.mp hTree
        exact Or.inl ⟨_, c, rfl, hc, hCov⟩
      · exact Or.inr ⟨s, b, rfl, rfl, hMark⟩
  -- a selection: the thread is filed, and its child is covered
  case forallThread.forallThread scope' =>
    obtain ⟨rfl, hF⟩ := hM
    cases a with
    | unit => exact absurd ha id
    | branch => exact absurd ha id
    | thread th =>
      obtain ⟨v, hv⟩ := ThreadVarPtrSet.mem_threads.mp ha
      simp only [Bool.and_eq_true, beq_iff_eq,
        if_neg (ThreadVarPtrSet.Distinct.size_ne_zero hPlain)] at hRule
      have hLen : nd.children.length = map.length := by
        rw [hShape, hKind]
        rfl
      have hMem := hF.mem_of_complete (hLen ▸ hRule.1) hv
      obtain ⟨i, hi, hAt⟩ := List.getElem_of_mem hMem
      have hi' : map[i]? = some (.bound v) := by rw [List.getElem?_eq_getElem hi, hAt]
      obtain ⟨c, hc, hCov⟩ := treeChildCovered_iff.mp (childrenCovered_iff.mp hRule.2 i (by
        rw [hLen]
        exact hi))
      exact Or.inl ⟨i, c, slotOf_filed hPlain hF hi' hv, hc, hCov⟩
  all_goals
    cases a <;> try exact absurd ha id
    exact Or.inl (hKind ▸ hSingle (by rw [hKind]; rfl) (by rw [hKind]; rfl) hRule)

/-- **A node may be covered** when each leaf at or below it is accounted for or lies at or
below a covered child. -/
theorem Sound.cover (hSound : Sound script m good) (wf : WellFormed m.heap m.next)
    (hn : m.heap n = some nd) (hEnd : n ≠ ENDNODE) (hPath : nodeAt m.heap path = some n)
    (hChild : ∀ leaf, LeafAt script path leaf → good leaf ∨
      ∃ q c, nodeAt m.heap q = some c ∧ m.isCovered c = true ∧ q <+: .unit :: leaf) :
    Sound script (m.setNode n { nd with covered := true }) good := by
  intro q k hk hCov leaf hLeaf
  rw [(Recolored.cover hn).nodeAt] at hk
  by_cases hkn : k = n
  · subst hkn
    obtain rfl : q = path := walk_injective (treeShaped wf) hk hPath hEnd
    rcases hChild leaf hLeaf with hGood | ⟨q', c, hc, hcc, hPre⟩
    · exact hGood
    · exact hSound q' c hc hcc leaf ⟨hLeaf.1, hPre⟩
  · refine hSound q k hk ?_ leaf hLeaf
    rwa [isCovered_setNode_of_ne hkn] at hCov

/-- The leaves below a matching node whose rule holds are accounted for: each goes on by an
answer, which leads to a covered child. -/
theorem Sound.accounted (hSound : Sound script m good) (wf : WellFormed m.heap m.next)
    (hPlain : Script.Plain script) (hMarks : MarksSound script m.infos good)
    (hn : m.heap n = some nd) (hPath : nodeAt m.heap (.unit :: history) = some n)
    (hM : Matches (script history) nd.kind) (hRule : nd.covered = true ∨ m.coverageRule nd = true)
    {leaf : List Answer} (hLeaf : LeafAt script (.unit :: history) leaf) :
    good leaf ∨ ∃ q c, nodeAt m.heap q = some c ∧ m.isCovered c = true ∧ q <+: .unit :: leaf := by
  rcases hRule with hCov | hRule
  · exact Or.inl (hSound _ n hPath ((isCovered_of_node hn).trans hCov) leaf hLeaf)
  · have hPre : history <+: leaf := (List.cons_prefix_cons.mp hLeaf.2).2
    obtain ⟨a, ha, hNext⟩ := hLeaf.1.exists_answer hM.not_ends hPre
    have hNext' : .unit :: (history ++ [a]) <+: Answer.unit :: leaf :=
      List.cons_prefix_cons.mpr ⟨rfl, hNext⟩
    rcases hM.covered_child (hPlain history) (wf.shape hn) hRule ha with
      ⟨i, c, hi, hc, hCov⟩ | ⟨s, b, hOp, rfl, hMark⟩
    · refine Or.inr ⟨.unit :: (history ++ [a]), c, ?_, hCov, hNext'⟩
      exact walk_snoc_eq_some.mpr ⟨n, hPath, childBy_eq_some.mpr ⟨nd, i, hn, hi, hc⟩⟩
    · exact Or.inl (hMarks history s b hOp hMark leaf ⟨hLeaf.1, hNext'⟩)

/-- **Covering a location of the stack whose rule holds** is sound. -/
theorem Sound.cover_at (hSound : Sound script m good) (wf : WellFormed m.heap m.next)
    (hL : Labelled m.heap base (.unit :: ρ)) (hLinked : Linked m.heap base)
    (hC : Coherent script m.heap) (hPlain : Script.Plain script)
    (hMarks : MarksSound script m.infos good) (hl : base[k]? = some l)
    (hn : m.heap l.parent = some nd) (hRule : nd.covered = true ∨ m.coverageRule nd = true) :
    Sound script (m.setNode l.parent { nd with covered := true }) good := by
  have hPath := hL.nodeAt_take hLinked hl
  have hEnd := (hLinked.validAt hl).1
  refine hSound.cover wf hn hEnd hPath fun leaf hLeaf => ?_
  rcases k with _ | k
  · -- the root leads to its only child
    have hRoot : ROOTNODE = l.parent := Option.some.inj hPath
    obtain ⟨rd, hrd, hKind⟩ := wf.root
    rw [hRoot, hn] at hrd
    obtain rfl := Option.some.inj hrd
    rcases hRule with hCov | hRule
    · exact Or.inl (hSound _ l.parent hPath ((isCovered_of_node hn).trans hCov) leaf hLeaf)
    · simp only [Manager.coverageRule, hKind] at hRule
      obtain ⟨c, hc, hCov⟩ := treeChildCovered_iff.mp (childrenCovered_iff.mp hRule 0 (by
        rw [wf.shape hn, hKind]
        exact Nat.one_pos))
      refine Or.inr ⟨[.unit], c, ?_, hCov, ⟨leaf, rfl⟩⟩
      exact walk_snoc_eq_some (p := []).mpr ⟨l.parent, hPath, childBy_eq_some.mpr
        ⟨nd, 0, hn, by rw [hKind]; rfl, hc⟩⟩
  -- any other node matches the operation at its place
  · exact hSound.accounted wf hPlain hMarks hn hPath (hC _ _ nd hPath hEnd hn) hRule hLeaf

/-- **Putting the end node somewhere is sound** when the leaves there are accounted for. -/
theorem Sound.shortcut (hSound : Sound script m good) (wf : WellFormed m.heap m.next)
    (hCut : Shortcut m.heap m'.heap p i) (hPruned : Pruned m.heap m'.heap π)
    (hLeaves : ∀ leaf, LeafAt script π leaf → good leaf) : Sound script m' good := by
  intro q k hk hCov leaf hLeaf
  by_cases hq : q = π
  · exact hLeaves leaf (hq ▸ hLeaf)
  -- the end node at another place was there before
  by_cases hkEnd : k = ENDNODE
  · have hNot : ¬ π <+: q := by
      intro hPre
      rw [hPruned.below hPre hq] at hk
      cases hk
    rw [hPruned.other hNot] at hk
    refine hSound q k hk ?_ leaf hLeaf
    obtain ⟨e, hE⟩ := wf.endNode
    simp [Manager.isCovered, hkEnd, hE]
  -- a node that stays is as covered as before
  · obtain ⟨_, hk'⟩ := hPruned.of_ne_end hk hkEnd
    refine hSound q k hk' ?_ leaf hLeaf
    obtain ⟨kd, hkd⟩ := nodeAt_node (hCut.wellFormed wf) hk
    have hNot : ¬ Below m.heap p i k := fun hBelow => by
      rw [hCut.below k hBelow] at hkd
      cases hkd
    rwa [← hCut.isCovered wf hNot]

end Concurrit.Model
