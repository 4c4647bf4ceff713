import Concurrit.Model.Settled

/-!
# Concurrit — what a backtrack computes

`DoBacktrack` at the end of an execution, in any exploration: afterwards a node
of the path is flagged as its coverage rule says, no other flag has changed, the
stack is cut above the lowest selection with something left to try, and only
covered subtrees are deleted (`BacktrackPost`). A branch that is marked as
ending counts as covered, so below such a branch nothing is claimed.
-/

namespace Concurrit.Model

open Function (update)

variable {cfg : Cfg} {script : Script} {nondet : StaticId → Bool} {numMembers : Nat}
  {n i k : Nat} {m m' m₁ m₂ mid : Manager} {nd nd' : Node} {l last loc : ChildLoc}
  {env : Env} {reason : BacktrackReason} {s : Explorer} {base : List ChildLoc} {b : Bool}

/-- The state in which `EndWithSuccess` calls `DoBacktrack` when the next operation
of the script throws, and the reason it passes. -/
def Explorer.backtrackCall (cfg : Cfg) (script : Script) (e : Explorer) (env : Env) :
    Option (Manager × BacktrackReason) := do
  match ← e.mgr.dslOp (script e.history) env with
  | (_, .returns _) => none
  | (m, .throws thrown) =>
    let reason := Explorer.handledReason thrown env
    let last ← m.getLastNodeInStack
    let m ← m.coverLastSelection reason last
    let m ← m.markEndingBranch cfg reason last
    if m.retriesExists last then none
    else
      let m ← if last.parent ≠ ENDNODE then m.addToPath ENDNODE 0 else some m
      return (m, reason)

/-- The branch taken at this location of the path is marked as ending. -/
def TakesMarked (m : Manager) (l : ChildLoc) : Prop :=
  ∃ nd, m.heap l.parent = some nd ∧ EndingMarked m nd l.childIndex

/-- `k` lies below a branch that is marked as ending. -/
def BelowMarked (m : Manager) (k : Nat) : Prop :=
  ∃ n nd i, m.heap n = some nd ∧ EndingMarked m nd i ∧ Below m.heap n i k

/-- `DoBacktrack` has turned `m` into `m'`; `mid` is the state between the
recomputation of the flags and the deletion. -/
structure BacktrackPost (m mid m' : Manager) (goesOn : Bool) : Prop where
  ruled   : ∀ l ∈ m.nodeStack, ∀ nd, m'.heap l.parent = some nd →
              (nd.covered = true → m'.coverageRule nd = true) ∧
              (¬ TakesMarked m l → m'.coverageRule nd = true → nd.covered = true)
  offPath : ∀ k, (∀ l ∈ m.nodeStack, l.parent ≠ k) → mid.isCovered k = m.isCovered k
  final   : ∀ k, m'.heap k ≠ none → m'.isCovered k = mid.isCovered k
  returns : goesOn = !m'.isCovered ROOTNODE
  resumes : goesOn = true → ∃ j l n nd, j < m.nodeStack.length ∧
              m'.nodeStack = m.nodeStack.take j ∧ m'.stackIndex = j ∧
              m'.nodeStack.getLast? = some l ∧ m'.get l = some (some n) ∧
              m'.heap n = some nd ∧ nd.covered = false ∧
              (nd.kind.isChoice = true ∨ ∃ scope map lvar, nd.kind = .forallThread scope map lvar) ∧
              ∀ i l', j < i → m.nodeStack[i]? = some l' → mid.isCovered l'.parent = true
  deleted : ∀ k, m.heap k ≠ none → m'.heap k = none → mid.isCovered k = true ∨ BelowMarked mid k

-- ---------------------------------------------------------------------------
-- Rules and flags
-- ---------------------------------------------------------------------------

/-- **The coverage rule is monotone** in the flags. -/
theorem coverageRule_mono (hShape : nd.children.length = nd.kind.numChildren)
    (hShape' : nd'.children.length = nd'.kind.numChildren) (hKind : nd'.kind = nd.kind)
    (hNum : m'.numMembers = m.numMembers)
    (hCov : ∀ j < nd.children.length, m.childCovered nd j = true → m'.childCovered nd' j = true)
    (hRule : m.coverageRule nd = true) : m'.coverageRule nd' = true := by
  have hLen : nd'.children.length = nd.children.length := by rw [hShape', hShape, hKind]
  rw [coverageRule_iff hShape] at hRule
  rw [coverageRule_iff hShape', hLen, hKind, hNum]
  exact ⟨fun j hj => hCov j hj (hRule.1 j hj), hRule.2⟩

/-- Covering nodes keeps children covered. -/
theorem Recolored.childCovered (hR : Recolored m m') {j : Nat} (hKind : nd'.kind = nd.kind)
    (hKids : nd'.children = nd.children) (hCov : m.childCovered nd j = true) :
    m'.childCovered nd' j = true := by
  have hInfos : m'.infos = m.infos := by rw [hR.rest]
  rcases childCovered_iff.mp hCov with hCov | ⟨s, hs, hMark⟩
  · obtain ⟨c, hc, hC⟩ := treeChildCovered_iff.mp hCov
    exact childCovered_iff.mpr (Or.inl (treeChildCovered_iff.mpr ⟨c, hKids ▸ hc, hR.isCovered hC⟩))
  · exact childCovered_iff.mpr (Or.inr ⟨s, hKind.trans hs, hInfos ▸ hMark⟩)

/-- The rule of every covered node holds. -/
def Ruled (m : Manager) (P : Nat → Prop) : Prop :=
  ∀ n nd, P n → m.heap n = some nd → nd.covered = true → m.coverageRule nd = true

/-- Flagging a node whose rule holds leaves all flagged nodes with their rules, since more
nodes covered make more rules hold. -/
theorem Ruled.cover {P : Nat → Prop} (h : Ruled m P) (wf : WellFormed m.heap m.next)
    (hn : m.heap n = some nd) (hRule : nd.covered = true ∨ m.coverageRule nd = true) :
    Ruled (m.setNode n { nd with covered := true }) P := by
  have hR := Recolored.cover hn
  intro k kd hk hkd hCov
  obtain ⟨kd₀, hkd₀, hKind, hKids, _⟩ := hR.heap_eq_some hkd
  have hOld : P n → m.coverageRule nd = true := fun hP => hRule.elim (h n nd hP hn) id
  have hRule₀ : m.coverageRule kd₀ = true := by
    by_cases hkn : k = n
    · subst hkn
      rw [hn] at hkd₀
      obtain rfl := Option.some.inj hkd₀
      exact hOld hk
    · have hSame : (m.setNode n { nd with covered := true }).heap k = m.heap k :=
        Function.update_of_ne hkn ..
      rw [hSame] at hkd
      rw [hkd] at hkd₀
      obtain rfl := Option.some.inj hkd₀
      exact h k kd hk hkd hCov
  exact coverageRule_mono (m := m) (wf.shape hkd₀) ((hR.wellFormed wf).shape hkd) hKind rfl
    (fun _ _ => hR.childCovered hKind hKids) hRule₀

/-- **Propagation covers by the rule.** -/
theorem Propagated.ruled {stack : List ChildLoc} {j : Nat} {P : Nat → Prop}
    (hP : Propagated stack m j mid i) (wf : WellFormed m.heap m.next) (h : Ruled m P) :
    Ruled mid P := by
  refine (hP.preserves (P := fun x => WellFormed x.heap x.next ∧ Ruled x P) ⟨wf, h⟩ ?_).2
  rintro x _ l nd ⟨wfx, hx⟩ _ _ hn hRule
  exact ⟨(Recolored.cover hn).wellFormed wfx, hx.cover wfx hn hRule⟩

-- ---------------------------------------------------------------------------
-- The deletion
-- ---------------------------------------------------------------------------

/-- A slot of a node that stays counts as before, unless it is the one shortcut: the subtree
below another slot has not been cut. -/
theorem Shortcut.treeChildCovered_of_ne {next p j : Nat} (hCut : Shortcut m.heap m'.heap p i)
    (wf : WellFormed m.heap next) (hn : m.heap k = some nd) (hk : m'.heap k = some nd')
    (hne : ¬ (k = p ∧ j = i)) : m'.treeChildCovered nd' j = m.treeChildCovered nd j := by
  have hNot : ¬ Below m.heap p i k := fun hBelow => by
    rw [hCut.below k hBelow] at hk
    cases hk
  obtain ⟨kd, hkd, _, _, _, _, hKids⟩ := hCut.node_of_not_below wf hNot hn
  rw [hk] at hkd
  obtain rfl := Option.some.inj hkd
  have hSame : nd'.children[j]? = nd.children[j]? := hKids j fun hkp hj => hne ⟨hkp, hj⟩
  unfold Manager.treeChildCovered Node.child
  rw [hSame]
  rcases hc : nd.children[j]? with _ | _ | c
  · rfl
  · rfl
  · exact hCut.isCovered wf (child_not_below wf hNot hne ⟨nd, hn, hc⟩)

/-- The slot shortcut holds the end node. -/
theorem Shortcut.treeChildCovered_at {next p : Nat} (hCut : Shortcut m.heap m'.heap p i)
    (wf : WellFormed m.heap next) (hp : m'.heap p = some nd') : m'.treeChildCovered nd' i = true := by
  obtain ⟨_, pd, hpd, hi⟩ := hCut.valid
  rw [hCut.at_parent wf hpd] at hp
  obtain rfl := Option.some.inj hp
  exact treeChildCovered_iff.mpr
    ⟨ENDNODE, List.getElem?_set_self hi, isCovered_of_node (hCut.at_end wf)⟩

/-- **A shortcut of a covered slot is not seen** in the coverage of children. -/
theorem Shortcut.treeChildCovered {next p j c : Nat} (hCut : Shortcut m.heap m'.heap p i)
    (wf : WellFormed m.heap next) (hSlot : Slot m.heap p i c) (hCov : m.isCovered c = true)
    (hn : m.heap k = some nd) (hk : m'.heap k = some nd') :
    m'.treeChildCovered nd' j = m.treeChildCovered nd j := by
  by_cases hkp : k = p ∧ j = i
  · obtain ⟨rfl, rfl⟩ := hkp
    obtain ⟨pd, hp, hc⟩ := hSlot
    rw [hn] at hp
    obtain rfl := Option.some.inj hp
    rw [hCut.treeChildCovered_at wf hk, treeChildCovered_iff.mpr ⟨c, hc, hCov⟩]
  · exact hCut.treeChildCovered_of_ne wf hn hk hkp

/-- **A shortcut of a covered slot keeps every rule**: the end node that takes the place of
the subtree is covered as the subtree was. -/
theorem Shortcut.coverageRule {p c : Nat} (hCut : Shortcut m.heap m'.heap p i)
    (wf : WellFormed m.heap m.next)
    (hRest : m'.infos = m.infos ∧ m'.numMembers = m.numMembers) (hSlot : Slot m.heap p i c)
    (hCov : m.isCovered c = true) (hk : m'.heap k = some nd') :
    ∃ nd, m.heap k = some nd ∧ nd'.covered = nd.covered ∧
      m'.coverageRule nd' = m.coverageRule nd := by
  obtain ⟨nd, hn, hCovered, hKind, _⟩ := SettledAt.shortcut hCut wf hRest.1 hk
  refine ⟨nd, hn, hCovered, ?_⟩
  -- each slot counts as covered after the shortcut if and only if it did before
  have hChild : ∀ j, m'.childCovered nd' j = m.childCovered nd j := by
    intro j
    have hMarks : EndingMarked m' nd' j ↔ EndingMarked m nd j := by
      unfold EndingMarked
      rw [hKind, hRest.1]
    rw [Bool.eq_iff_iff, childCovered_iff, childCovered_iff,
      hCut.treeChildCovered wf hSlot hCov hn hk, hMarks]
  have hShape := wf.shape hn
  have hShape' := (hCut.wellFormed wf).shape hk
  rw [Bool.eq_iff_iff]
  constructor
  · refine coverageRule_mono hShape' hShape hKind.symm hRest.2.symm fun j _ hj => ?_
    rwa [← hChild]
  · refine coverageRule_mono hShape hShape' hKind hRest.2 fun j _ hj => ?_
    rwa [hChild]

/-- Below a covered node everything is covered, down to the branches that are
marked as ending. -/
theorem covered_of_desc (hAll : ∀ n nd, m.heap n = some nd → nd.covered = true → SettledAt m nd)
    (hn : m.isCovered n = true) (hDesc : Desc m.heap n k) :
    m.isCovered k = true ∨ BelowMarked m k := by
  induction hDesc with
  | refl => exact Or.inl hn
  | @tail p c _ hChild ih =>
    obtain ⟨hcEnd, j, pd, hp, hc⟩ := hChild
    rcases ih with hCov | ⟨q, qd, i, hq, hMark, top, hTop, hTopEnd, hTopDesc⟩
    · rw [isCovered_of_node hp] at hCov
      rcases hAll p pd hp hCov j c hc with hC | hMark
      · exact Or.inl hC
      · exact Or.inr ⟨p, pd, j, hp, hMark, c, ⟨pd, hp, hc⟩, hcEnd, .refl⟩
    · exact Or.inr ⟨q, qd, i, hq, hMark, top, hTop, hTopEnd, hTopDesc.tail ⟨hcEnd, j, pd, hp, hc⟩⟩

-- ---------------------------------------------------------------------------
-- DoBacktrack
-- ---------------------------------------------------------------------------

/-- The loop has one result. By induction on the run of the loop; where one run stops the
other one cannot go on. -/
theorem Propagated.unique {stack : List ChildLoc} {j i' : Nat} {mid' : Manager}
    (hP : Propagated stack m j mid i) (hP' : Propagated stack m j mid' i') : mid = mid' ∧ i = i' := by
  induction hP generalizing mid' i' with
  | top =>
    cases hP'
    exact ⟨rfl, rfl⟩
  -- stopped at a node whose rule does not hold
  | stop m k l nd hl hn hCov hRule =>
    cases hP' with
    | stop => exact ⟨rfl, rfl⟩
    | step _ _ l' nd' _ _ hl' hn' hRule' _ =>
      rw [hl] at hl'
      obtain rfl := Option.some.inj hl'
      rw [hn] at hn'
      obtain rfl := Option.some.inj hn'
      rw [hCov, hRule] at hRule'
      simp at hRule'
  -- went on past a node whose rule holds
  | step m k l nd m' h hl hn hRule hRest ih =>
    cases hP' with
    | stop _ _ l' nd' hl' hn' hCov' hRule' =>
      rw [hl] at hl'
      obtain rfl := Option.some.inj hl'
      rw [hn] at hn'
      obtain rfl := Option.some.inj hn'
      rw [hCov', hRule'] at hRule
      simp at hRule
    | step _ _ l' nd' _ _ hl' hn' _ hRest' =>
      rw [hl] at hl'
      obtain rfl := Option.some.inj hl'
      rw [hn] at hn'
      obtain rfl := Option.some.inj hn'
      exact ih hRest'

section Backtrack

variable {hi : Nat}

/-- Above the final position of the loop nothing is covered. -/
theorem Propagated.uncovered_above (hP : Propagated m.nodeStack m base.length mid hi)
    (c : Complete m base) (hU : Uncovered m.heap base) {j : Nat} (hj : j < hi)
    (hl : base[j]? = some l) : mid.isCovered l.parent = false := by
  have hFrame : mid.heap l.parent = m.heap l.parent := by
    refine hP.frame fun j' l' hj' hj'k hl' => ?_
    rw [c.getElem? hj'k] at hl'
    exact Nat.ne_of_gt (c.linked.parent_lt c.wf (Nat.lt_of_lt_of_le hj hj') hl hl')
  obtain ⟨_, nd, hn, _⟩ := c.linked.validAt hl
  rw [isCovered_of_node (hFrame.trans hn)]
  exact hU l (List.mem_of_getElem? hl) nd hn

/-- **After propagation a node of the path is covered if and only if its rule holds**, but
for choices whose branch taken is marked. Below the place where the loop stops it has
flagged what the rule says; above that place the child on the path is not covered, and
counts only if its branch is marked. -/
theorem Propagated.rule_iff (hP : Propagated m.nodeStack m base.length mid hi)
    (c : Complete m base) (hU : Uncovered m.heap base) (hl : l ∈ m.nodeStack)
    (hn : mid.heap l.parent = some nd) :
    (nd.covered = true → mid.coverageRule nd = true) ∧
      (¬ TakesMarked m l → mid.coverageRule nd = true → nd.covered = true) := by
  have c' := hP.recolored.complete c
  rw [c.stack] at hl
  rcases List.mem_append.mp hl with hl | hl
  -- a node of the path
  · obtain ⟨j, hj, rfl⟩ := List.getElem_of_mem hl
    have hjl := List.getElem?_eq_getElem hj
    have hRuled : Ruled m fun n => n = base[j].parent := by
      rintro _ kd rfl hkd hCov
      rw [hU _ hl kd hkd] at hCov
      cases hCov
    refine ⟨hP.ruled c.wf hRuled _ nd rfl hn, fun hNot hRule => ?_⟩
    by_contra hCov
    -- the loop has stopped at this node or below it
    have hLt : j < hi := by
      by_contra hGe
      have hC := hP.covered (Nat.not_lt.mp hGe) hj (by rw [c.getElem? hj, hjl])
      rw [isCovered_of_node hn] at hC
      exact hCov hC
    -- above the place where the loop has stopped, or at it
    rcases Nat.lt_or_eq_of_le (Nat.le_sub_one_of_lt hLt) with hAbove | rfl
    · have hLe := hP.le
      have hNext := List.getElem?_eq_getElem (show j + 1 < base.length by omega)
      obtain ⟨nd₁, hn₁, hc⟩ := c'.linked.slot hjl hNext
      rw [hn] at hn₁
      obtain rfl := Option.some.inj hn₁
      have hChild := ((coverageRule_iff (c'.wf.shape hn)).mp hRule).1 _
        (List.getElem?_eq_some_iff.mp hc).1
      -- its branch on the path counts: by the subtree, which is not covered, or by a mark
      rcases childCovered_iff.mp hChild with hTree | ⟨s, hs, hMark⟩
      · obtain ⟨d, hd, hdCov⟩ := treeChildCovered_iff.mp hTree
        rw [hc] at hd
        rw [← Option.some.inj (Option.some.inj hd),
          hP.uncovered_above c hU (by omega) hNext] at hdCov
        cases hdCov
      · obtain ⟨kd, hkd, hKind, _⟩ := hP.recolored.heap_eq_some hn
        refine hNot ⟨kd, hkd, s, hKind ▸ hs, ?_⟩
        rwa [hP.recolored.rest] at hMark
    · obtain ⟨l', nd', hl', hn', _, hRule'⟩ := hP.uncovered (by omega)
      rw [c.getElem? hj, hjl] at hl'
      obtain rfl := Option.some.inj hl'
      rw [hn] at hn'
      obtain rfl := Option.some.inj hn'
      rw [hRule'] at hRule
      cases hRule
  · -- the end node
    obtain rfl := List.mem_singleton.mp hl
    obtain ⟨q, hE⟩ := c'.wf.endNode
    have hn' : mid.heap ENDNODE = some nd := hn
    rw [hE] at hn'
    obtain rfl := Option.some.inj hn'
    have hRule : mid.coverageRule ⟨.endNode, q, [some ENDNODE], true⟩ = true := by
      rw [coverageRule_iff (c'.wf.shape hE)]
      refine ⟨fun j hj => childCovered_iff.mpr (Or.inl (treeChildCovered_iff.mpr ?_)), by simp⟩
      obtain rfl : j = 0 := by simpa using hj
      exact ⟨ENDNODE, rfl, isCovered_of_node hE⟩
    exact ⟨fun _ => hRule, fun _ _ => rfl⟩

/-- The node the loop stops at has a child to try: it is a choice or a FORALL node. A node
with one child has this child covered, as the next node of the path. -/
theorem Propagated.stops_at (hP : Propagated m.nodeStack m base.length mid hi)
    (c : Complete m base) (hPos : 0 < hi) :
    ∃ l nd, base[hi - 1]? = some l ∧ mid.heap l.parent = some nd ∧ nd.covered = false ∧
      (nd.kind.isChoice = true ∨ ∃ scope map lvar, nd.kind = .forallThread scope map lvar) := by
  have c' := hP.recolored.complete c
  have hLe := hP.le
  obtain ⟨l, nd, hl, hn, hCov, hRule⟩ := hP.uncovered hPos
  rw [c.getElem? (by omega)] at hl
  refine ⟨l, nd, hl, hn, hCov, ?_⟩
  -- the next node of the stack is covered
  obtain ⟨l', hl', hCov'⟩ := hP.at_hi c
  have hSlot : Slot mid.heap l.parent l.childIndex l'.parent := by
    refine c'.slot hl ?_
    rw [hP.recolored.rest, Nat.sub_add_cancel hPos]
    exact hl'
  obtain ⟨nd₁, hn₁, hc⟩ := hSlot
  rw [hn] at hn₁
  obtain rfl := Option.some.inj hn₁
  have hShape := c'.wf.shape hn
  have hOnly : nd.kind.numChildren = 1 → (∀ scope map lvar, nd.kind ≠ .forallThread scope map lvar) →
      False := by
    intro hOne hNot
    have hHolds : mid.coverageRule nd = true := by
      rw [coverageRule_iff hShape]
      refine ⟨fun j hj => childCovered_iff.mpr (Or.inl (treeChildCovered_iff.mpr ?_)),
        fun scope map lvar hKind => absurd hKind (hNot scope map lvar)⟩
      have hIndex := (List.getElem?_eq_some_iff.mp hc).1
      obtain rfl : j = l.childIndex := by omega
      exact ⟨_, hc, hCov'⟩
    rw [hRule] at hHolds
    cases hHolds
  rcases hKind : nd.kind with _ | _ | s | _ | ⟨scope, map, lvar⟩ | _ | _ | _
  case choice => exact Or.inl rfl
  case forallThread => exact Or.inr ⟨_, _, _, rfl⟩
  all_goals exact absurd (hOnly (by rw [hKind]; rfl) (by simp [hKind])) id

/-- After propagation every covered node is settled. -/
theorem Propagated.settled_all (hP : Propagated m.nodeStack m base.length mid hi)
    (c : Complete m base) (hU : Uncovered m.heap base) (hOff : SettledOff m) (n : Nat) (nd : Node)
    (hn : mid.heap n = some nd) (hCov : nd.covered = true) : SettledAt mid nd := by
  have c' := hP.recolored.complete c
  have hStack : mid.nodeStack = m.nodeStack := by rw [hP.recolored.rest]
  by_cases hMem : ∃ l ∈ m.nodeStack, l.parent = n
  · obtain ⟨l, hl, rfl⟩ := hMem
    exact settledAt_of_rule (c'.wf.shape hn) ((hP.rule_iff c hU hl hn).1 hCov)
  · refine hP.settledOff rfl hOff n nd (fun l hl hln => hMem ⟨l, ?_, hln⟩) hn hCov
    rwa [← hStack]

/-- What the deletion leaves of the propagated tree. -/
structure Trimmed (mid m' : Manager) : Prop where
  node    : ∀ k nd', m'.heap k = some nd' → ∃ nd, mid.heap k = some nd ∧ nd'.kind = nd.kind ∧
              nd'.covered = nd.covered ∧ m'.coverageRule nd' = mid.coverageRule nd
  deleted : ∀ k, mid.heap k ≠ none → m'.heap k = none → mid.isCovered k = true ∨ BelowMarked mid k

theorem Trimmed.isCovered (hT : Trimmed mid m') (hk : m'.heap k ≠ none) :
    m'.isCovered k = mid.isCovered k := by
  obtain ⟨nd', hn'⟩ := Option.ne_none_iff_exists'.mp hk
  obtain ⟨nd, hn, _, hCov, _⟩ := hT.node k nd' hn'
  rw [isCovered_of_node hn', isCovered_of_node hn, hCov]

/-- A tree that is not cut keeps all its nodes. -/
theorem trimmed_same (hHeap : m'.heap = mid.heap)
    (hRest : m'.infos = mid.infos ∧ m'.numMembers = mid.numMembers) (wf : WellFormed mid.heap mid.next) :
    Trimmed mid m' where
  node k nd' hk := by
    rw [hHeap] at hk
    refine ⟨nd', hk, rfl, rfl, ?_⟩
    have hCov : ∀ c, m'.isCovered c = mid.isCovered c := fun c => by
      unfold Manager.isCovered
      rw [hHeap]
    have hChild : ∀ j, m'.childCovered nd' j = mid.childCovered nd' j := fun j => by
      unfold Manager.childCovered Manager.treeChildCovered
      simp only [hCov, hRest.1]
    rw [Bool.eq_iff_iff]
    constructor
    · exact coverageRule_mono (wf.shape hk) (wf.shape hk) rfl hRest.2.symm fun j _ hj => by rwa [← hChild]
    · exact coverageRule_mono (wf.shape hk) (wf.shape hk) rfl hRest.2 fun j _ hj => by rwa [hChild]
  deleted k hk hNone := by
    rw [hHeap] at hNone
    exact absurd hNone hk

/-- **Only covered subtrees are cut off**: the nodes below a covered node are covered, which
is what being settled says. -/
theorem trimmed_cut {p : Nat} {c : Nat} (hCut : Shortcut mid.heap m'.heap p i)
    (wf : WellFormed mid.heap mid.next)
    (hRest : m'.infos = mid.infos ∧ m'.numMembers = mid.numMembers) (hSlot : Slot mid.heap p i c)
    (hCov : mid.isCovered c = true)
    (hAll : ∀ n nd, mid.heap n = some nd → nd.covered = true → SettledAt mid nd) :
    Trimmed mid m' where
  node k nd' hk := by
    obtain ⟨nd, hn, hCovered, hRule⟩ :=
      hCut.coverageRule wf hRest hSlot hCov hk
    obtain ⟨nd₁, hn₁, _, hKind, _⟩ := SettledAt.shortcut hCut wf hRest.1 hk
    rw [hn] at hn₁
    obtain rfl := Option.some.inj hn₁
    exact ⟨nd, hn, hKind, hCovered, hRule⟩
  deleted k hk hNone := by
    obtain ⟨kd, hkd⟩ := Option.ne_none_iff_exists'.mp hk
    -- a node that is gone was below the slot
    by_cases hBelow : Below mid.heap p i k
    · obtain ⟨top, hTop, _, hDesc⟩ := hBelow
      obtain ⟨pd, hp, hc⟩ := hSlot
      obtain ⟨pd', hp', hc'⟩ := hTop
      rw [hp] at hp'
      obtain rfl := Option.some.inj hp'
      rw [hc] at hc'
      rw [← Option.some.inj (Option.some.inj hc')] at hDesc
      exact covered_of_desc hAll hCov hDesc
    · obtain ⟨kd', hkd', _⟩ := hCut.node_of_not_below wf hBelow hkd
      rw [hNone] at hkd'
      cases hkd'

/-- The path above the place where the loop has stopped is still there: the cut is below it.
-/
theorem Trimmed.path {l' : ChildLoc} (hT : Trimmed mid m') (c' : Complete mid base)
    (hHeap : m'.heap = mid.heap ∨ ∃ lc, base[hi - 1]? = some lc ∧
      Shortcut mid.heap m'.heap lc.parent lc.childIndex)
    (hTwo : 2 ≤ hi) (hl : base[hi - 2]? = some l) (hl' : base[hi - 1]? = some l')
    (hn : mid.heap l'.parent = some nd) :
    m'.get l = some (some l'.parent) ∧
      ∃ nd', m'.heap l'.parent = some nd' ∧ nd'.kind = nd.kind ∧ nd'.covered = nd.covered := by
  have hOld : Slot mid.heap l.parent l.childIndex l'.parent :=
    c'.linked.slot hl (by rw [show hi - 2 + 1 = hi - 1 from by omega, hl'])
  have hValid := c'.linked.validAt hl'
  obtain ⟨wf', hSlot⟩ : WellFormed m'.heap mid.next ∧
      Slot m'.heap l.parent l.childIndex l'.parent := by
    rcases hHeap with hSame | ⟨lc, hlc, hCut⟩
    · rw [hSame]
      exact ⟨c'.wf, hOld⟩
    · have hLt := c'.linked.parent_lt c'.wf (show hi - 2 < hi - 1 by omega) hl hlc
      refine ⟨hCut.wellFormed c'.wf, (hCut.slot_iff c'.wf _ _ _).mpr (Or.inr ⟨?_, ?_, hOld⟩)⟩
      · exact fun hEq => absurd hEq.1 (Nat.ne_of_lt hLt)
      · exact fun hBelow => absurd (c'.wf.below_gt hBelow) (Nat.not_lt.mpr (Nat.le_of_lt hLt))
  obtain ⟨_, nd', hn', _⟩ := wf'.child hSlot hValid.1
  obtain ⟨nd₁, hn₁, hKind, hCov, _⟩ := hT.node _ nd' hn'
  rw [hn] at hn₁
  obtain rfl := Option.some.inj hn₁
  obtain ⟨pd, hp, hc⟩ := hSlot
  exact ⟨(Manager.get_eq hp).trans hc, nd', hn', hKind, hCov⟩

/-- **`DoBacktrack` on a complete path of uncovered nodes** does not fail, and leaves behind
what it should. First the two loops, propagation and the search for the slot to cut; then
the parts of the postcondition, most of which propagation has established and the cut has
kept. -/
theorem Complete.backtrackPost (c : Complete m base) (hU : Uncovered m.heap base)
    (hOff : cfg.deleteCoveredSubtrees = true → SettledOff m)
    (hReason : reason ≠ .searchEnds ∧ reason ≠ .exception ∧ reason ≠ .unknown) :
    ∃ mid hi m' b, Manager.propagate m.nodeStack m (m.nodeStack.length - 1) = some (mid, hi) ∧
      m.doBacktrack cfg reason = some (m', b) ∧ BacktrackPost m mid m' b := by
  obtain ⟨mid, hi, hProp⟩ := propagate_isSome c (Nat.le_refl _) (by rwa [List.take_length])
  obtain ⟨m', hEq, hB⟩ := doBacktrack_isSome cfg c hU hReason
  have hP := propagated_of_eq_some hProp
  refine ⟨mid, hi, m', _, by rw [c.length_stack, Nat.add_sub_cancel, hProp], hEq, ?_⟩
  obtain ⟨mid', hi', h', hP', hNe, hKeep, hCut⟩ := hB
  obtain ⟨rfl, rfl⟩ := hP.unique hP'
  have c' := hP.recolored.complete c
  have hLe := hP.le
  have hLen := c.length_stack
  have hRest : m.infos = mid.infos ∧ m.numMembers = mid.numMembers := by
    rw [hP.recolored.rest]
    exact ⟨rfl, rfl⟩
  obtain ⟨top, hTop, hTopCov⟩ := hP.at_hi c
  -- the next node of the stack hangs in the slot of the location above it
  have hSlot : ∀ l, base[hi - 1]? = some l → 0 < hi → Slot mid.heap l.parent l.childIndex top.parent := by
    intro l hl hPos
    refine c'.slot hl ?_
    rw [hP.recolored.rest, Nat.sub_add_cancel hPos]
    exact hTop
  generalize hm' : ({ m with
    heap := h', nodeStack := m.nodeStack.take (hi - 1), stackIndex := hi - 1 } : Manager) = m'
  have hHeap : m'.heap = h' := by rw [← hm']
  have hRest' : m'.infos = mid.infos ∧ m'.numMembers = mid.numMembers := by
    rw [← hm']
    exact hRest
  -- the tree is cut, or it is not
  have hEither : m'.heap = mid.heap ∨ (cfg.deleteCoveredSubtrees = true ∧ 1 ≤ hi ∧
      ∃ lc, base[hi - 1]? = some lc ∧ Shortcut mid.heap m'.heap lc.parent lc.childIndex) := by
    by_cases hDel : cfg.deleteCoveredSubtrees = true ∧ 1 ≤ hi ∧ hi ≤ base.length - 1
    · rw [hHeap]
      exact Or.inr ⟨hDel.1, hDel.2.1, hCut hDel.1 hDel.2.1 hDel.2.2⟩
    · exact Or.inl (hHeap.trans (hKeep hDel))
  have hT : Trimmed mid m' := by
    rcases hEither with hSame | ⟨hDel, hPos, lc, hlc, hShort⟩
    · exact trimmed_same hSame hRest' c'.wf
    · exact trimmed_cut hShort c'.wf hRest' (hSlot lc hlc hPos) hTopCov
        (hP.settled_all c hU (hOff hDel))
  refine ⟨fun l hl nd' hn' => ?_, fun k hk => ?_, fun k hk => hT.isCovered hk, rfl, fun hGoes => ?_,
    fun k hk hNone => ?_⟩
  -- the coverage of the nodes that are left
  · obtain ⟨nd, hn, _, hCov, hRule⟩ := hT.node _ nd' hn'
    rw [hCov, hRule]
    exact hP.rule_iff c hU hl hn
  -- the flags off the path
  · have hSame := hP.frame fun j l _ _ hl => hk l (List.mem_of_getElem? hl)
    unfold Manager.isCovered
    rw [hSame]
  · -- the root is not covered, so the loop has stopped below it
    have hPos : 0 < hi := by
      refine Nat.pos_of_ne_zero fun h0 => ?_
      subst h0
      rw [c.getElem? c.length_pos, ← List.head?_eq_getElem?, c.linked.head] at hTop
      obtain rfl := Option.some.inj hTop
      obtain ⟨rd, hrd, _⟩ := c'.wf.root
      have hSame : m'.heap = mid.heap := hEither.elim id fun h => absurd h.2.1 (by omega)
      rw [hT.isCovered (by rw [hSame, hrd]; simp), show mid.isCovered ROOTNODE = true from hTopCov]
        at hGoes
      cases hGoes
    obtain ⟨l', nd, hl', hn, hCov, hKind⟩ := hP.stops_at c hPos
    have hAt : base[hi - 2]? = some base[hi - 2] := List.getElem?_eq_getElem (by omega)
    obtain ⟨hGet, nd', hn', hKind', hCov'⟩ := hT.path c'
      (hEither.imp id fun h => h.2.2) (by omega) hAt hl' hn
    refine ⟨hi - 1, _, _, nd', by omega, by rw [← hm'], by rw [← hm'], ?_, hGet, hn', hCov' ▸ hCov,
      hKind' ▸ hKind, fun i l'' hi' hl'' => ?_⟩
    · rw [← hm']
      show (m.nodeStack.take (hi - 1)).getLast? = _
      rw [List.getLast?_eq_getElem?, List.length_take, Nat.min_eq_left (by omega),
        List.getElem?_take_of_lt (by omega), c.getElem? (by omega),
        show hi - 1 - 1 = hi - 2 from by omega, hAt]
    -- all nodes of the path below the new end of the stack are covered
    · rcases Nat.lt_or_ge i base.length with hLt | hGe
      · exact hP.covered (by omega) hLt hl''
      · have hi'' := (List.getElem?_eq_some_iff.mp hl'').1
        obtain rfl : i = base.length := by omega
        rw [c.back] at hl''
        rw [← Option.some.inj hl'']
        obtain ⟨_, hE⟩ := c'.wf.endNode
        exact isCovered_of_node hE
  -- what has been deleted was there before
  · refine hT.deleted k (fun hNoneMid => hk ?_) hNone
    rcases hm : m.heap k with _ | kd
    · rfl
    · obtain ⟨_, hkd, _⟩ := hP.recolored.node k kd hm
      rw [hNoneMid] at hkd
      cases hkd

end Backtrack

-- ---------------------------------------------------------------------------
-- Whole explorations
-- ---------------------------------------------------------------------------

/-- The reasons for which a script is left are none of those for which `DoBacktrack` is not
called. -/
theorem OpStep.handledReason_ne {op : Op} {thrown : BacktrackReason}
    (hStep : OpStep m op env m' (.throws thrown)) :
    Explorer.handledReason thrown env ≠ .searchEnds ∧
      Explorer.handledReason thrown env ≠ .exception ∧
      Explorer.handledReason thrown env ≠ .unknown := by
  have hThrown : thrown ≠ .searchEnds ∧ thrown ≠ .exception ∧ thrown ≠ .unknown := by
    cases hStep with
    | pending _ _ _ _ _ hGives => cases hGives <;> simp
    | covered => simp
    | idle _ hWhy => rcases hWhy with ⟨_, rfl⟩ | ⟨_, rfl⟩ | ⟨_, rfl⟩ <;> simp
  unfold Explorer.handledReason
  split
  · simp
  · exact hThrown

/-- **Where `DoBacktrack` is called**: the operation has thrown, the execution has been
marked, and the end node has been inserted. -/
theorem backtrackCall_cases (t : Tidy s.mgr) (hCall : s.backtrackCall cfg script env = some (m, reason)) :
    ∃ m₀ thrown last nd loc, OpStep s.mgr (script s.history) env m₀ (.throws thrown) ∧
      reason = Explorer.handledReason thrown env ∧ last ∈ m₀.nodeStack ∧
      m₀.heap last.parent = some nd ∧ Ended (marked cfg m₀ reason last nd) m loc := by
  unfold Explorer.backtrackCall at hCall
  rcases hOp : s.mgr.dslOp (script s.history) env with _ | ⟨m₀, a | thrown⟩
  · simp [hOp] at hCall
  · simp [hOp] at hCall
  · have hStep := dslOp_cases t hOp
    have t₀ := hStep.tidy t
    obtain ⟨last, nd, hLast, hMem, hEnd, hn, _⟩ := t₀.last_exists
    have hMark := mark_eq cfg (Explorer.handledReason thrown env) hn
    rw [hOp] at hCall
    simp only [Option.bind_eq_bind, Option.bind_some, hLast] at hCall
    rw [← Option.bind_assoc, show (m₀.coverLastSelection _ last).bind (fun m =>
      Manager.markEndingBranch cfg m (Explorer.handledReason thrown env) last) = _ from hMark,
      Option.bind_some] at hCall
    split at hCall
    · cases hCall
    · simp only [Option.pure_def, Option.bind_eq_some_iff, Option.some.injEq, Prod.mk.injEq] at hCall
      obtain ⟨m₂, hAdd, rfl, rfl⟩ := hCall
      obtain ⟨m₂', loc, hAdd', hE⟩ := addEndToPath_spec (t₀.marked cfg _ hn)
      rw [show Manager.addEndToPath _ = some m₂ from hAdd] at hAdd'
      obtain rfl := Option.some.inj hAdd'
      exact ⟨m₀, thrown, last, nd, loc, hStep, rfl, hMem, hn, hE⟩

/-- **`DoBacktrack` is correct on every path**: in every exploration, whatever its script,
whenever it is called with a path none of whose nodes is flagged yet. The path is complete
and linked because the reachable states are tidy, and deleting loses only covered nodes
because they are settled. -/
theorem doBacktrack_correct
    (hReach : Runs.Reachable (Explorer.system cfg script nondet numMembers) s)
    (hRun : s.status = .running) (hCall : s.backtrackCall cfg script env = some (m, reason))
    (hOpen : ∀ l ∈ m.nodeStack, l.parent ≠ ENDNODE → m.isCovered l.parent = false) :
    m.checkCompletePath m.nodeStack = true ∧
    ∃ mid hi m' b, Manager.propagate m.nodeStack m (m.nodeStack.length - 1) = some (mid, hi) ∧
      m.doBacktrack cfg reason = some (m', b) ∧ BacktrackPost m mid m' b := by
  have t := tidy_reachable hReach hRun
  have hSettled := settled_reachable hReach hRun
  obtain ⟨m₀, thrown, last, nd, loc, hStep, rfl, hMem, hn, hE⟩ := backtrackCall_cases t hCall
  have t₁ := (hStep.tidy t).marked cfg (Explorer.handledReason thrown env) hn
  have c := hE.complete t₁
  refine ⟨c.check, c.backtrackPost (fun l hl ld hld => ?_) (fun hDel => ?_) hStep.handledReason_ne⟩
  · rw [← isCovered_of_node hld]
    refine hOpen l ?_ (c.linked.valid l hl).1
    rw [c.stack]
    exact List.mem_append_left _ hl
  · exact hE.settledOff t₁ (((hStep.settled t hSettled).settled hDel).marked cfg _ hMem hn)

/-- Branch 1 of the choice ends the script, branch 0 leads to the choice again. -/
def endingBranchScript : Script
  | [] => .choice 0
  | [.branch false] => .choice 0
  | [.branch false, .branch false] => .conditional true
  | _ => .finish

/-- Branch 1 of the choice leads to the choice again, and only there ends the script. -/
def endingLaterScript : Script
  | [] => .choice 0
  | [.branch false] => .conditional true
  | [.branch true] => .choice 0
  | _ => .finish

def markingCfg : Cfg := ⟨true, false, true⟩

/-- An operation with this random bit and nothing else from outside. -/
def bitEnv (bit : Bool) : Env := ⟨bit, [], true, false, false⟩

/-- The exploration after these random bits. -/
def explored (script : Script) (nondet : Bool) (bits : List Bool) : Explorer :=
  (bits.map bitEnv).foldl (Explorer.step markingCfg script)
    (Explorer.initial markingCfg (fun _ => nondet) 0)

theorem explored_reachable (script : Script) (nondet : Bool) (bits : List Bool) :
    Runs.Reachable (Explorer.system markingCfg script (fun _ => nondet) 0)
      (explored script nondet bits) :=
  Runs.reachableUnder_foldl (.init rfl) _ fun _ _ _ => trivial

/-- A backtrack after a branch that ends the script at once: the path is complete, and the
loop, the cut and the truncation all do what they should. -/
theorem doBacktrack_correct_ending_branch :
    ∃ m reason, (explored endingBranchScript false [false, false, false, false, false]).backtrackCall
        markingCfg endingBranchScript (bitEnv false) = some (m, reason) ∧
      m.checkCompletePath m.nodeStack = true ∧
      ∃ mid hi m' b, Manager.propagate m.nodeStack m (m.nodeStack.length - 1) = some (mid, hi) ∧
        m.doBacktrack markingCfg reason = some (m', b) ∧ BacktrackPost m mid m' b :=
  ⟨_, _, rfl, doBacktrack_correct
    (explored_reachable endingBranchScript false [false, false, false, false, false]) rfl rfl (by decide)⟩

/-- A call of `DoBacktrack` on a path of uncovered nodes leaves a choice of the path
in a state with this property. -/
def LeavesChoice (script : Script) (nondet : Bool) (bits : List Bool)
    (P : Manager → Node → Prop) : Prop :=
  ∃ m reason m' b l nd, (explored script nondet bits).status = .running ∧
    (explored script nondet bits).backtrackCall markingCfg script (bitEnv false) = some (m, reason) ∧
    (∀ l ∈ m.nodeStack, l.parent ≠ ENDNODE → m.isCovered l.parent = false) ∧
    m.doBacktrack markingCfg reason = some (m', b) ∧ l ∈ m.nodeStack ∧
    m'.heap l.parent = some nd ∧ nd.kind.isChoice = true ∧ P m' nd

/-- **Marks take part in the coverage rule.** A choice is flagged although one of its
branches has no child at all, since the branch is marked; and a choice both of whose
branches count as covered is not flagged, since its branch on the path counts by its
mark only. -/
theorem doBacktrack_marks :
    LeavesChoice endingBranchScript false [false, false, false, false, false]
      (fun _ nd => nd.covered = true ∧ nd.child 1 = none) ∧
    LeavesChoice endingLaterScript true [false, false, false, false, true]
      (fun m' nd => nd.covered = false ∧ m'.childCovered nd 0 = true ∧ m'.childCovered nd 1 = true) :=
  ⟨⟨_, _, _, _, ⟨3, 0⟩, _, rfl, rfl, by decide, rfl, by decide, rfl, rfl, rfl, rfl⟩,
    ⟨_, _, _, _, ⟨2, 1⟩, _, rfl, rfl, by decide, rfl, by decide, rfl, rfl, rfl, rfl, rfl⟩⟩

end Concurrit.Model
