import Concurrit.Model.Shortcut

/-!
# Concurrit — backtracking

What `DoBacktrack` does to a complete path (`Complete`): it covers the nodes at
its lower end as long as their coverage rule holds (`Propagated`), may shortcut
the largest covered subtree, and cuts the stack (`Backtracked`).
-/

namespace Concurrit.Model

open Function (update)

variable {h h' : Heap} {next n p i k : Nat} {m m' : Manager} {l l' last : ChildLoc}
  {nd pd ed : Node} {base stack : List ChildLoc}

-- ---------------------------------------------------------------------------
-- Complete paths
-- ---------------------------------------------------------------------------

/-- The stack is a linked path that the end node closes. -/
structure Complete (m : Manager) (base : List ChildLoc) : Prop where
  wf     : WellFormed m.heap m.next
  linked : Linked m.heap base
  stack  : m.nodeStack = base ++ [⟨ENDNODE, 0⟩]
  last   : ∀ l, base.getLast? = some l → Slot m.heap l.parent l.childIndex ENDNODE
  parent : ∀ l, base.getLast? = some l → ∃ ed, m.heap ENDNODE = some ed ∧ ed.parent = some l.parent

/-- **Inserting the end node completes the path**: from the root to the end node there is no
gap any more. -/
theorem Ended.complete {loc : ChildLoc} (t : Tidy m) (hE : Ended m m' loc) :
    Complete m' (m.nodeStack.take (m.stackIndex + 1)) where
  wf := by
    rw [hE.rest]
    exact hE.cut.wellFormed t.wf
  linked := hE.cut.linked t.wf (t.linked.take (Nat.succ_pos _)) hE.last
  stack := by rw [hE.rest]
  last l hl := by
    rw [hE.last] at hl
    obtain rfl := Option.some.inj hl
    exact (hE.cut.slot_iff t.wf _ _ _).mpr (Or.inl ⟨rfl, rfl, rfl⟩)
  parent l hl := by
    rw [hE.last] at hl
    obtain rfl := Option.some.inj hl
    exact ⟨_, hE.cut.at_end t.wf, rfl⟩

/-- The nodes of the stack lie below one another in its order. -/
theorem Linked.desc (hL : Linked h stack) {j : Nat} (hij : i ≤ j) (hi : stack[i]? = some l)
    (hj : stack[j]? = some l') : Desc h l.parent l'.parent := by
  induction j, hij using Nat.le_induction generalizing l' with
  | base =>
    rw [hi] at hj
    obtain rfl := Option.some.inj hj
    exact .refl
  | succ j _ ih =>
    have hLt : j < stack.length := Nat.lt_of_succ_lt (List.getElem?_eq_some_iff.mp hj).1
    have hMid := List.getElem?_eq_getElem hLt
    exact (ih hMid).tail ⟨(hL.validAt hj).1, _, hL.slot hMid hj⟩

namespace Complete

theorem length_pos (c : Complete m base) : 0 < base.length := c.linked.length_pos

theorem length_stack (c : Complete m base) : m.nodeStack.length = base.length + 1 := by
  rw [c.stack]
  simp

/-- Below the end node the stack is the path. -/
theorem getElem? (c : Complete m base) (hk : k < base.length) : m.nodeStack[k]? = base[k]? := by
  rw [c.stack, List.getElem?_append_left hk]

theorem back (c : Complete m base) : m.nodeStack[base.length]? = some ⟨ENDNODE, 0⟩ := by
  rw [c.stack, List.getElem?_concat_length]

/-- Each location of the path leads to the next node of the stack, the last one to the end
node. -/
theorem slot (c : Complete m base) (hk : base[k]? = some l) (hk' : m.nodeStack[k + 1]? = some l') :
    Slot m.heap l.parent l.childIndex l'.parent := by
  have hLt := (List.getElem?_eq_some_iff.mp hk).1
  rcases Nat.lt_or_ge (k + 1) base.length with hLt' | hGe
  · rw [c.getElem? hLt'] at hk'
    exact c.linked.slot hk hk'
  · have hLast : base.getLast? = some l := by
      rw [List.getLast?_eq_getElem?, show base.length - 1 = k from by omega, hk]
    rw [show k + 1 = base.length from by omega, c.back] at hk'
    obtain rfl := Option.some.inj hk'
    exact c.last l hLast

/-- The next node of the stack knows its parent, the end node too. -/
theorem next_parent (c : Complete m base) (hk : base[k]? = some l)
    (hk' : m.nodeStack[k + 1]? = some l') :
    ∃ nd, m.heap l'.parent = some nd ∧ nd.parent = some l.parent := by
  have hLt := (List.getElem?_eq_some_iff.mp hk).1
  rcases Nat.lt_or_ge (k + 1) base.length with hLt' | hGe
  · have hSlot := c.slot hk hk'
    rw [c.getElem? hLt'] at hk'
    exact (c.wf.child hSlot (c.linked.validAt hk').1).2
  · have hLast : base.getLast? = some l := by
      rw [List.getLast?_eq_getElem?, show base.length - 1 = k from by omega, hk]
    rw [show k + 1 = base.length from by omega, c.back] at hk'
    obtain rfl := Option.some.inj hk'
    exact c.parent l hLast

end Complete

-- ---------------------------------------------------------------------------
-- Recolouring
-- ---------------------------------------------------------------------------

/-- The same tree, in which nodes may have become covered. -/
structure Recolored (m m' : Manager) : Prop where
  rest : m' = { m with heap := m'.heap }
  none : ∀ n, m.heap n = none → m'.heap n = none
  node : ∀ n nd, m.heap n = some nd →
    ∃ c, m'.heap n = some { nd with covered := c } ∧ (nd.covered = true → c = true)

namespace Recolored

theorem refl (m : Manager) : Recolored m m :=
  ⟨rfl, fun _ h => h, fun _ nd h => ⟨nd.covered, h, id⟩⟩

/-- Recolouring twice is recolouring. -/
theorem trans {m'' : Manager} (hR : Recolored m m') (hR' : Recolored m' m'') :
    Recolored m m'' where
  rest := by
    rw [hR'.rest, hR.rest]
  none n hn := hR'.none n (hR.none n hn)
  node n nd hn := by
    obtain ⟨c, hc, hcc⟩ := hR.node n nd hn
    obtain ⟨c', hc', hcc'⟩ := hR'.node n _ hc
    exact ⟨c', hc', fun hcov => hcc' (hcc hcov)⟩

/-- Covering one node changes nothing but its flag. -/
theorem cover (hn : m.heap n = some nd) : Recolored m (m.setNode n { nd with covered := true }) where
  rest := rfl
  none k hk := by
    have hkn : k ≠ n := by
      rintro rfl
      rw [hn] at hk
      cases hk
    exact (Function.update_of_ne hkn ..).trans hk
  node k kd hk := by
    by_cases hkn : k = n
    · subst hkn
      rw [hn] at hk
      obtain rfl := Option.some.inj hk
      exact ⟨true, Function.update_self .., fun _ => rfl⟩
    · exact ⟨kd.covered, (Function.update_of_ne hkn ..).trans hk, id⟩

/-- A node after recolouring was there before, with the same place in the tree and no lesser
flag. -/
theorem heap_eq_some (hR : Recolored m m') {nd' : Node} (hn : m'.heap n = some nd') :
    ∃ nd, m.heap n = some nd ∧ nd'.kind = nd.kind ∧ nd'.children = nd.children ∧
      nd'.parent = nd.parent ∧ (nd.covered = true → nd'.covered = true) := by
  rcases hm : m.heap n with _ | nd
  · rw [hR.none n hm] at hn
    cases hn
  · obtain ⟨c, hc, hcc⟩ := hR.node n nd hm
    rw [hn] at hc
    obtain rfl := Option.some.inj hc
    exact ⟨nd, rfl, rfl, rfl, rfl, hcc⟩

/-- Recolouring changes no slot. -/
theorem slot_iff (hR : Recolored m m') (n i c : Nat) : Slot m'.heap n i c ↔ Slot m.heap n i c := by
  constructor
  · rintro ⟨nd', hn, hc⟩
    obtain ⟨nd, hn', _, hKids, _⟩ := hR.heap_eq_some hn
    exact ⟨nd, hn', by rw [← hKids, hc]⟩
  · rintro ⟨nd, hn, hc⟩
    obtain ⟨c, hn', _⟩ := hR.node n nd hn
    exact ⟨_, hn', hc⟩

/-- What was covered stays covered. -/
theorem isCovered (hR : Recolored m m') (hn : m.isCovered n = true) : m'.isCovered n = true := by
  unfold Manager.isCovered at hn ⊢
  rcases hm : m.heap n with _ | nd
  · rw [hm] at hn
    cases hn
  · rw [hm] at hn
    obtain ⟨c, hc, hcc⟩ := hR.node n nd hm
    rw [hc]
    exact hcc hn

/-- Recolouring keeps the tree well formed: neither slots nor parents change. -/
theorem wellFormed (hR : Recolored m m') (wf : WellFormed m.heap m.next) :
    WellFormed m'.heap m'.next := by
  rw [hR.rest]
  refine ⟨wf.next_gt, fun n hn => hR.none n (wf.fresh n hn), ?_, ?_, ?_, ?_, ?_⟩
  · obtain ⟨rd, hrd, hk⟩ := wf.root
    obtain ⟨c, hc, _⟩ := hR.node _ _ hrd
    exact ⟨_, hc, hk⟩
  · obtain ⟨q, hE⟩ := wf.endNode
    obtain ⟨c, hc, hcc⟩ := hR.node _ _ hE
    obtain rfl := hcc rfl
    exact ⟨q, hc⟩
  · intro n nd' hn
    obtain ⟨nd, hn', hk, hKids, _⟩ := hR.heap_eq_some hn
    rw [hKids, hk]
    exact wf.shape hn'
  · intro n i c hSlot hc
    obtain ⟨hlt, cd, hcd, hpar⟩ := wf.child ((hR.slot_iff n i c).mp hSlot) hc
    obtain ⟨b, hcd', _⟩ := hR.node c cd hcd
    exact ⟨hlt, _, hcd', hpar⟩
  · intro n i j c hi hj hc
    exact wf.index ((hR.slot_iff n i c).mp hi) ((hR.slot_iff n j c).mp hj) hc

theorem linked (hR : Recolored m m') (hL : Linked m.heap stack) : Linked m'.heap stack := by
  refine hL.mono ?_ ?_
  · rintro l _ ⟨hlEnd, ld, hld, hlt⟩
    obtain ⟨c, hc, _⟩ := hR.node _ _ hld
    exact ⟨hlEnd, _, hc, hlt⟩
  · intro k l l' _ _ hLink
    exact (hR.slot_iff _ _ _).mpr hLink

/-- Nor does it change the path. -/
theorem complete (hR : Recolored m m') (c : Complete m base) : Complete m' base where
  wf := hR.wellFormed c.wf
  linked := hR.linked c.linked
  stack := by
    rw [hR.rest]
    exact c.stack
  last l hl := (hR.slot_iff _ _ _).mpr (c.last l hl)
  parent l hl := by
    obtain ⟨ed, hE, hpar⟩ := c.parent l hl
    obtain ⟨b, hb, _⟩ := hR.node _ _ hE
    exact ⟨_, hb, hpar⟩

end Recolored

-- ---------------------------------------------------------------------------
-- Propagation
-- ---------------------------------------------------------------------------

/-- The loop of `DoBacktrack`: from the lower end upwards, nodes whose rule holds
become covered; it stops at the first one whose rule does not hold. -/
inductive Propagated (stack : List ChildLoc) : Manager → Nat → Manager → Nat → Prop where
  | top (m : Manager) : Propagated stack m 0 m 0
  | stop (m : Manager) (k : Nat) (l : ChildLoc) (nd : Node) (hl : stack[k]? = some l)
      (hn : m.heap l.parent = some nd) (hCov : nd.covered = false)
      (hRule : m.coverageRule nd = false) : Propagated stack m (k + 1) m (k + 1)
  | step (m : Manager) (k : Nat) (l : ChildLoc) (nd : Node) (m' : Manager) (h : Nat)
      (hl : stack[k]? = some l) (hn : m.heap l.parent = some nd)
      (hRule : nd.covered = true ∨ m.coverageRule nd = true)
      (hRest : Propagated stack (m.setNode l.parent { nd with covered := true }) k m' h) :
      Propagated stack m (k + 1) m' h

theorem computeCoverage_eq_some {b : Bool} (hn : m.heap n = some nd)
    (hCov : m.computeCoverage n = some (m', b)) :
    b = (nd.covered || m.coverageRule nd) ∧ m' = m.setNode n { nd with covered := b } := by
  simp only [Manager.computeCoverage, hn, Option.bind_eq_bind, Option.bind_some,
    Option.bind_eq_some_iff, Option.pure_def, Option.some.injEq, Prod.mk.injEq] at hCov
  obtain ⟨_, _, rfl, rfl⟩ := hCov
  exact ⟨rfl, rfl⟩

/-- Writing the flag a node has already changes nothing. -/
theorem setNode_same (hn : m.heap n = some nd) : m.setNode n nd = m := by
  simp [Manager.setNode, ← hn, Function.update_eq_self]

/-- **The loop does nothing but propagate.** The induction follows the loop from the end of
the stack towards the root. -/
theorem propagated_of_eq_some (hP : Manager.propagate stack m k = some (m', i)) :
    Propagated stack m k m' i := by
  induction k generalizing m with
  | zero =>
    simp only [Manager.propagate, Option.some.injEq, Prod.mk.injEq] at hP
    obtain ⟨rfl, rfl⟩ := hP
    exact .top m
  | succ k ih =>
    simp only [Manager.propagate, Option.bind_eq_bind, Option.bind_eq_some_iff] at hP
    obtain ⟨element, hElement, below, _, b, hCheck, _, _, ⟨m₁, cov⟩, hCov, hIf⟩ := hP
    obtain ⟨nd, hn, _⟩ : ∃ nd, m.heap element.parent = some nd ∧ True := by
      simp only [Manager.computeCoverage, Option.bind_eq_bind, Option.bind_eq_some_iff] at hCov
      obtain ⟨nd, hn, _⟩ := hCov
      exact ⟨nd, hn, trivial⟩
    obtain ⟨hB, rfl⟩ := computeCoverage_eq_some hn hCov
    -- the node is covered, and the loop goes on with its parent
    cases cov with
    | true =>
      rw [if_pos rfl] at hIf
      exact .step m k element nd m' i hElement hn (by simpa using hB.symm) (ih hIf)
    -- it is not: the loop stops, and setting the flag changes nothing
    | false =>
      simp only [Bool.false_eq_true, if_false, Option.pure_def, Option.some.injEq,
        Prod.mk.injEq] at hIf
      obtain ⟨rfl, rfl⟩ := hIf
      have hBoth : nd.covered = false ∧ m.coverageRule nd = false := by simpa using hB.symm
      have hSame : m.setNode element.parent { nd with covered := false } = m := by
        rw [← hBoth.1]
        exact setNode_same hn
      rw [hSame]
      exact .stop m k element nd hElement hn hBoth.1 hBoth.2

namespace Propagated

theorem recolored (hP : Propagated stack m k m' i) : Recolored m m' := by
  induction hP with
  | top m => exact .refl m
  | stop m => exact .refl m
  | step m k l nd m' h _ hn _ _ ih => exact (Recolored.cover hn).trans ih

theorem le (hP : Propagated stack m k m' i) : i ≤ k := by
  induction hP with
  | top => exact Nat.le_refl _
  | stop => exact Nat.le_refl _
  | step m k l nd m' h _ _ _ _ ih => exact Nat.le_succ_of_le ih

/-- Only nodes of the path become covered, from the position on at which the loop stops. -/
theorem frame (hP : Propagated stack m k m' i)
    (hn : ∀ j l, i ≤ j → j < k → stack[j]? = some l → l.parent ≠ n) : m'.heap n = m.heap n := by
  induction hP with
  | top => rfl
  | stop => rfl
  | step m k l nd m' h hl hnd hRule hRest ih =>
    have hne : n ≠ l.parent := by
      rintro rfl
      exact hn k l hRest.le (Nat.lt_succ_self k) hl rfl
    rw [ih fun j l' hj hjk hl' => hn j l' hj (Nat.lt_succ_of_lt hjk) hl']
    exact Function.update_of_ne hne ..

/-- Every node of the path from the final position on is covered. -/
theorem covered (hP : Propagated stack m k m' i) {j : Nat} (hij : i ≤ j) (hjk : j < k)
    (hl : stack[j]? = some l) : m'.isCovered l.parent = true := by
  induction hP with
  | top => omega
  | stop => omega
  | step m k l' nd m' h hl' hnd _ hRest ih =>
    rcases Nat.lt_or_eq_of_le (Nat.le_of_lt_succ hjk) with hLt | rfl
    · exact ih hij hLt
    · rw [hl] at hl'
      obtain rfl := Option.some.inj hl'
      refine hRest.recolored.isCovered ?_
      simp [Manager.isCovered, Manager.setNode]

/-- The node above the final position is one whose rule does not hold. -/
theorem uncovered (hP : Propagated stack m k m' i) (hi : 0 < i) :
    ∃ l nd, stack[i - 1]? = some l ∧ m'.heap l.parent = some nd ∧ nd.covered = false ∧
      m'.coverageRule nd = false := by
  induction hP with
  | top => omega
  | stop m k l nd hl hn hCov hRule => exact ⟨l, nd, hl, hn, hCov, hRule⟩
  | step m k l nd m' h _ _ _ _ ih => exact ih hi

/-- **Propagation rule**: what covering one node whose rule holds preserves, the loop
preserves. -/
theorem preserves {P : Manager → Prop} (hP : Propagated stack m k m' i) (hm : P m)
    (hStep : ∀ m j l nd, P m → j < k → stack[j]? = some l → m.heap l.parent = some nd →
      (nd.covered = true ∨ m.coverageRule nd = true) →
      P (m.setNode l.parent { nd with covered := true })) : P m' := by
  induction hP with
  | top => exact hm
  | stop => exact hm
  | step m k l nd m' h hl hn hRule _ ih =>
    refine ih (hStep m k l nd hm (Nat.lt_succ_self k) hl hn hRule) ?_
    intro m j l nd hm hj
    exact hStep m j l nd hm (Nat.lt_succ_of_lt hj)

end Propagated

/-- **Propagation does not fail** on a complete path none of whose nodes is covered: the
links that it checks are those of the path, and the assertion on the coverage holds as the
flags are all clear. -/
theorem propagate_isSome (c : Complete m base) (hk : k ≤ base.length)
    (hU : Uncovered m.heap (base.take k)) :
    ∃ m' i, Manager.propagate m.nodeStack m k = some (m', i) := by
  induction k generalizing m with
  | zero => exact ⟨m, 0, rfl⟩
  | succ k ih =>
    have hLt : k < base.length := hk
    have hl : base[k]? = some base[k] := List.getElem?_eq_getElem hLt
    have hStack : m.nodeStack[k]? = some base[k] := by rw [c.getElem? hLt, hl]
    have hLt' : k + 1 < m.nodeStack.length := by
      rw [c.length_stack]
      omega
    have hBelow : m.nodeStack[k + 1]? = some m.nodeStack[k + 1] := List.getElem?_eq_getElem hLt'
    obtain ⟨nd, hn, hc⟩ := c.slot hl hBelow
    obtain ⟨bd, hb, hpar⟩ := c.next_parent hl hBelow
    have hCov : nd.covered = false := by
      refine hU base[k] ?_ nd hn
      exact List.mem_take_iff_getElem.mpr ⟨k, by omega, rfl⟩
    -- a node without the flag has nothing to assert
    have hAssert : m.coverageAssert nd (m.coverageRule nd) = true := by
      unfold Manager.coverageAssert
      split
      · simp
      · rfl
    have hStep : m.computeCoverage base[k].parent =
        some (m.setNode base[k].parent { nd with covered := m.coverageRule nd },
          m.coverageRule nd) := by
      simp only [Manager.computeCoverage, hn, Option.bind_eq_bind, Option.bind_some, hCov,
        Bool.false_or, hAssert, guard, if_true, Option.pure_def]
    simp only [Manager.propagate, hStack, hBelow, Option.bind_eq_bind, Option.bind_some,
      Manager.check_some hn hc hb, hpar, BEq.rfl, Bool.and_self, guard, if_true, Option.pure_def,
      hStep]
    -- the rule fails and the loop stops, or it goes on above
    cases hRule : m.coverageRule nd with
    | false => exact ⟨_, _, rfl⟩
    | true =>
      have hR := Recolored.cover hn
      refine ih (hR.complete c) (Nat.le_of_succ_le hk) ?_
      intro l hl' ld hld
      -- a node nearer to the root is another one
      have hlk : l.parent ≠ base[k].parent := by
        obtain ⟨j, hj, hEq⟩ := List.mem_take_iff_getElem.mp hl'
        have hPair := c.linked.pairwise_lt c.wf
        have hjk : j < k := by omega
        have hLess := List.pairwise_iff_getElem.mp hPair j k (by omega) hLt hjk
        rw [← hEq]
        exact Nat.ne_of_lt hLess
      have hOld : m.heap l.parent = some ld := by
        rw [← hld]
        exact (Function.update_of_ne hlk ..).symm
      refine hU l ?_ ld hOld
      exact List.mem_of_mem_take (i := k) (by rw [List.take_take, Nat.min_eq_left (Nat.le_succ k)]; exact hl')

-- ---------------------------------------------------------------------------
-- The cut
-- ---------------------------------------------------------------------------

/-- Subtrees agree where the child relation agrees. -/
theorem desc_congr (wf : WellFormed h next) {c : Nat}
    (hChild : ∀ n d, c ≤ n → ChildOf h n d → ChildOf h' n d) (hd : Desc h c k) : Desc h' c k := by
  induction hd with
  | refl => exact .refl
  | tail hPre hStep ih => exact ih.tail (hChild _ _ (wf.desc_le hPre) hStep)

/-- **Cutting a covered subtree is a shortcut**: its link to the end node is removed before
it is deleted, so exactly its own nodes are freed. -/
theorem cutSubtree_spec (c : Complete m base) {hi : Nat} (hPos : 1 ≤ hi)
    (hLe : hi ≤ base.length - 1) (hAt : base[hi - 1]? = some l) :
    ∃ h', m.cutSubtree hi = some { m with heap := h' } ∧
      Shortcut m.heap h' l.parent l.childIndex := by
  have hLen := c.length_pos
  -- the nodes the cut works with
  have hTop : base[hi]? = some base[hi] := List.getElem?_eq_getElem (by omega)
  have hLow : base[base.length - 1]? = some base[base.length - 1] :=
    List.getElem?_eq_getElem (by omega)
  generalize base[hi] = top at hTop
  generalize base[base.length - 1] = low at hLow
  obtain ⟨hlEnd, pd, hp, hpi⟩ := c.linked.validAt hAt
  have hTopValid := c.linked.validAt hTop
  obtain ⟨hLowEnd, ld, hld, hli⟩ := c.linked.validAt hLow
  have hSlot : Slot m.heap l.parent l.childIndex top.parent := by
    refine c.linked.slot hAt ?_
    rw [Nat.sub_add_cancel hPos, hTop]
  -- the last location of the path leads to the end node
  have hLowSlot : Slot m.heap low.parent low.childIndex ENDNODE := by
    refine c.last low ?_
    rw [List.getLast?_eq_getElem?, hLow]
  have hDesc : Desc m.heap top.parent low.parent := c.linked.desc hLe hTop hLow
  have hTopLt : l.parent < top.parent := (c.wf.child hSlot hTopValid.1).1
  have hLowLt : l.parent < low.parent := Nat.lt_of_lt_of_le hTopLt (c.wf.desc_le hDesc)
  obtain ⟨q, hE⟩ := c.wf.endNode
  have hpc : pd.children[l.childIndex]? = some (some top.parent) := by
    obtain ⟨pd', hp', hc⟩ := hSlot
    rw [hp] at hp'
    obtain rfl := Option.some.inj hp'
    exact hc
  have hlc : ld.children[low.childIndex]? = some (some ENDNODE) := by
    obtain ⟨ld', hld', hc⟩ := hLowSlot
    rw [hld] at hld'
    obtain rfl := Option.some.inj hld'
    exact hc
  -- the slot above is shortcut
  have hSet₁ := Manager.set_some (m := m) (n := ENDNODE) hp hpi hE (Ne.symm hlEnd)
  have hE₀ : update m.heap l.parent
      (some { pd with children := pd.children.set l.childIndex (some ENDNODE) }) ENDNODE =
      some ⟨.endNode, q, [some ENDNODE], true⟩ := by
    rw [Function.update_of_ne (Ne.symm hlEnd), hE]
  have wf₁ := (c.wf.setSlot (o := some ENDNODE) hp hlEnd hpi (by
    rintro d hd hdEnd
    exact absurd (Option.some.inj hd).symm hdEnd)).setEndParent hE₀ (some l.parent)
  generalize hh₁ : update (update m.heap l.parent
      (some { pd with children := pd.children.set l.childIndex (some ENDNODE) }))
      ENDNODE (some ⟨.endNode, some l.parent, [some ENDNODE], true⟩) = h₁ at hSet₁ wf₁
  have hld₁ : h₁ low.parent = some ld := by
    rw [← hh₁, Function.update_of_ne hLowEnd, Function.update_of_ne (Nat.ne_of_gt hLowLt), hld]
  -- the link to the end node is removed
  have hSet₂ := Manager.set_none (m := { m with heap := h₁ }) (l := low) hld₁ hli
  have wf₂ := wf₁.setSlot (o := none) hld₁ hLowEnd hli (fun d hd => by cases hd)
  generalize hh₂ : update h₁ low.parent
      (some { ld with children := ld.children.set low.childIndex none }) = h₂ at hSet₂ wf₂
  -- the slots after the two changes
  have hSlot₁ : ∀ n j d, Slot h₁ n j d ↔
      (n = l.parent ∧ j = l.childIndex ∧ some ENDNODE = some d) ∨
      (¬ (n = l.parent ∧ j = l.childIndex) ∧ Slot m.heap n j d) := by
    intro n j d
    rw [← hh₁]
    exact (slot_setParent_iff hE₀ (some l.parent) n j d).trans (slot_set_iff hp hpi n j d)
  have hSlot₂ : ∀ n j d, Slot h₂ n j d ↔
      (n = low.parent ∧ j = low.childIndex ∧ none = some d) ∨
      (¬ (n = low.parent ∧ j = low.childIndex) ∧ Slot h₁ n j d) := by
    intro n j d
    rw [← hh₂]
    exact slot_set_iff hld₁ hli n j d
  -- below the cut the tree is the same, up to the end node
  have hChild : ∀ n d, top.parent ≤ n → (ChildOf m.heap n d ↔ ChildOf h₂ n d) := by
    intro n d hn
    have hnl : n ≠ l.parent := Nat.ne_of_gt (Nat.lt_of_lt_of_le hTopLt hn)
    -- the link that was removed led to the end node, so no child is lost
    constructor
    · rintro ⟨hd, j, hj⟩
      refine ⟨hd, j, (hSlot₂ n j d).mpr (Or.inr ⟨?_, ?_⟩)⟩
      · rintro ⟨rfl, rfl⟩
        obtain ⟨ld', hld', hc⟩ := hj
        rw [hld] at hld'
        obtain rfl := Option.some.inj hld'
        rw [hlc] at hc
        exact hd (Option.some.inj (Option.some.inj hc)).symm
      · exact (hSlot₁ n j d).mpr (Or.inr ⟨fun h => hnl h.1, hj⟩)
    · rintro ⟨hd, j, hj⟩
      rcases (hSlot₂ n j d).mp hj with ⟨_, _, hNone⟩ | ⟨_, hj⟩
      · cases hNone
      · rcases (hSlot₁ n j d).mp hj with ⟨hn', _⟩ | ⟨_, hj⟩
        · exact absurd hn' hnl
        · exact ⟨hd, j, hj⟩
  have hDescIff : ∀ k, Desc m.heap top.parent k ↔ Desc h₂ top.parent k := fun k =>
    ⟨desc_congr c.wf fun n d hn => (hChild n d hn).mp,
      desc_congr wf₂ fun n d hn => (hChild n d hn).mpr⟩
  -- the top of the subtree is still there to be deleted
  obtain ⟨td, htd⟩ : ∃ td, h₂ top.parent = some td := by
    obtain ⟨td, htd, _⟩ := hTopValid.2
    have htd₁ : h₁ top.parent = some td := by
      rw [← hh₁, Function.update_of_ne hTopValid.1, Function.update_of_ne (Nat.ne_of_gt hTopLt),
        htd]
    rw [← hh₂]
    by_cases hEq : top.parent = low.parent
    · exact ⟨_, by rw [hEq, Function.update_self]⟩
    · exact ⟨td, by rw [Function.update_of_ne hEq, htd₁]⟩
  obtain ⟨h₃, hDel, hErased⟩ := deleteTree_spec (m := { m with heap := h₂ }) wf₂ htd
  refine ⟨h₃, ?_, ⟨hlEnd, pd, hp, hpi⟩, ?_, ?_⟩
  · -- every check of the cut passes
    have hStackAt : m.nodeStack[hi - 1]? = some l := by rw [c.getElem? (by omega), hAt]
    have hStackTop : m.nodeStack[hi]? = some top := by rw [c.getElem? (by omega), hTop]
    have hStackLow : m.nodeStack[m.nodeStack.length - 2]? = some low := by
      rw [c.length_stack, show base.length + 1 - 2 = base.length - 1 from by omega,
        c.getElem? (by omega), hLow]
    have hGetLow : Manager.get { m with heap := h₁ } low = some (some ENDNODE) :=
      (Manager.get_eq (m := { m with heap := h₁ }) hld₁).trans hlc
    simp only [Manager.cutSubtree, hStackAt, hStackTop, Option.bind_eq_bind, Option.bind_some,
      Manager.get_eq hp, hpc, guard, if_true, hSet₁, hStackLow, ne_eq, hLowEnd, not_false_eq_true,
      hGetLow, hSet₂, Option.pure_def]
    exact congrArg some hDel
  -- what lies below the cut is freed
  · intro k hb
    rw [below_iff_desc hSlot hTopValid.1, hDescIff] at hb
    exact (hErased k).1 hb
  -- everything else is as the two changes have left it
  · intro pd' ed' hp' hE' k hb
    rw [hp] at hp'
    obtain rfl := Option.some.inj hp'
    rw [hE] at hE'
    obtain rfl := Option.some.inj hE'
    rw [below_iff_desc hSlot hTopValid.1] at hb
    have hkl : k ≠ low.parent := by
      rintro rfl
      exact hb hDesc
    rw [(hErased k).2 (fun hd => hb ((hDescIff k).mpr hd))]
    show h₂ k = _
    rw [← hh₂, Function.update_of_ne hkl, ← hh₁]

-- ---------------------------------------------------------------------------
-- DoBacktrack
-- ---------------------------------------------------------------------------

/-- The end of `DoBacktrack`: `hi` is `highest_covered_index`. -/
inductive Backtracked (cfg : Cfg) (m : Manager) (base : List ChildLoc) : Manager → Prop where
  | intro (mid : Manager) (hi : Nat) (h' : Heap)
      (hProp : Propagated m.nodeStack m base.length mid hi) (hNe : hi ≠ 1)
      (hKeep : ¬ (cfg.deleteCoveredSubtrees = true ∧ 1 ≤ hi ∧ hi ≤ base.length - 1) → h' = mid.heap)
      (hCut : cfg.deleteCoveredSubtrees = true → 1 ≤ hi → hi ≤ base.length - 1 →
        ∃ l, base[hi - 1]? = some l ∧ Shortcut mid.heap h' l.parent l.childIndex) :
      Backtracked cfg m base { m with
        heap := h', nodeStack := m.nodeStack.take (hi - 1), stackIndex := hi - 1 }

/-- A complete path passes the check of `DoBacktrack`, which looks at both ends of the stack
and at the link to the end node. -/
theorem Complete.check (c : Complete m base) : m.checkCompletePath m.nodeStack = true := by
  have hLen := c.length_pos
  have hBack : m.nodeStack[m.nodeStack.length - 1]? = some ⟨ENDNODE, 0⟩ := by
    rw [c.length_stack, Nat.add_sub_cancel, c.back]
  have hPrev : m.nodeStack[m.nodeStack.length - 2]? = some base[base.length - 1] := by
    rw [c.length_stack, show base.length + 1 - 2 = base.length - 1 from by omega,
      c.getElem? (by omega), List.getElem?_eq_getElem]
  have hHead : m.nodeStack[0]? = some ⟨ROOTNODE, 0⟩ := by
    rw [c.getElem? hLen, ← List.head?_eq_getElem?, c.linked.head]
  obtain ⟨q, hE⟩ := c.wf.endNode
  have hValid := c.linked.valid base[base.length - 1] (List.getElem_mem _)
  obtain ⟨pd, hp, hc⟩ := c.last base[base.length - 1] (by
    rw [List.getLast?_eq_getElem?, List.getElem?_eq_getElem])
  have hGetBack : m.get ⟨ENDNODE, 0⟩ = some (some ENDNODE) := by
    rw [Manager.get_eq (l := ⟨ENDNODE, 0⟩) hE]
    rfl
  simp only [Manager.checkCompletePath, hBack, hPrev, hHead, hGetBack, Manager.get_eq hp, hc]
  simp [hValid.1, c.length_stack, Nat.succ_le_of_lt hLen]

/-- The node at the final position of the loop is covered: it is the end node, or one that
the loop has covered. -/
theorem Propagated.at_hi (c : Complete m base) (hP : Propagated m.nodeStack m base.length m' i) :
    ∃ l, m.nodeStack[i]? = some l ∧ m'.isCovered l.parent = true := by
  have hLt : i < m.nodeStack.length := by
    rw [c.length_stack]
    exact Nat.lt_succ_of_le hP.le
  refine ⟨_, List.getElem?_eq_getElem hLt, ?_⟩
  rcases Nat.lt_or_eq_of_le hP.le with hLess | rfl
  · exact hP.covered (Nat.le_refl _) hLess (List.getElem?_eq_getElem hLt)
  · have hEq : m.nodeStack[base.length] = ⟨ENDNODE, 0⟩ := by
      have hBack := c.back
      rw [List.getElem?_eq_getElem hLt] at hBack
      exact Option.some.inj hBack
    rw [hEq]
    refine hP.recolored.isCovered ?_
    obtain ⟨q, hE⟩ := c.wf.endNode
    simp [Manager.isCovered, hE]

/-- The root has one child only, so it does not stay behind uncovered: once its child is
covered the rule covers it as well. -/
theorem Propagated.ne_one (c : Complete m base) (hP : Propagated m.nodeStack m base.length m' i) :
    i ≠ 1 := by
  rintro rfl
  obtain ⟨l, hl, hCov⟩ := hP.at_hi c
  obtain ⟨l', nd, hl', hn, _, hRule⟩ := hP.uncovered Nat.one_pos
  have hBase : base[0]? = some ⟨ROOTNODE, 0⟩ := by
    rw [← List.head?_eq_getElem?, c.linked.head]
  rw [Nat.sub_self, c.getElem? c.length_pos, hBase] at hl'
  obtain rfl := Option.some.inj hl'
  have c' := hP.recolored.complete c
  -- the only child of the root is the node at position 1
  obtain ⟨rd, hrd, hKind⟩ := c'.wf.root
  have hn' : m'.heap ROOTNODE = some nd := hn
  rw [hrd] at hn'
  obtain rfl := Option.some.inj hn'
  obtain ⟨rd', hrd', hc⟩ := c'.slot hBase (by rw [c'.stack, ← c.stack]; exact hl)
  have hrd'' : m'.heap ROOTNODE = some rd' := hrd'
  rw [hrd] at hrd''
  obtain rfl := Option.some.inj hrd''
  have hShape := c'.wf.shape hrd
  rw [hKind] at hShape
  obtain ⟨o, ho⟩ := List.length_eq_one_iff.mp hShape
  rw [ho] at hc
  obtain rfl : o = some l.parent := by simpa using hc
  simp [Manager.coverageRule, hKind, Manager.childrenCovered, ho, hCov] at hRule

/-- After propagation the rest of `DoBacktrack` succeeds: the checks hold by the way the
loop has stopped, and the cut works on a complete path. -/
private theorem doBacktrack_of_propagated (cfg : Cfg) (c : Complete m base) {mid : Manager}
    (hEq : Manager.propagate m.nodeStack m base.length = some (mid, i)) (reason : BacktrackReason)
    (hReason : reason ≠ .searchEnds ∧ reason ≠ .exception ∧ reason ≠ .unknown) :
    ∃ m', m.doBacktrack cfg reason = some (m', !m'.isCovered ROOTNODE) ∧
      Backtracked cfg m base m' := by
  obtain ⟨g, rfl⟩ : ∃ g, mid = { m with heap := g } :=
    ⟨_, (propagated_of_eq_some hEq).recolored.rest⟩
  have hP := propagated_of_eq_some hEq
  have hR := hP.recolored
  have c' := hR.complete c
  have hNe := hP.ne_one c
  have hLe := hP.le
  obtain ⟨l, hl, hCov⟩ := hP.at_hi c
  have hLenStack := c.length_stack
  -- the three sanity checks
  have hGuard₁ : i = 0 ∨ (m.nodeStack[i - 1]?.map fun l =>
      Manager.isCovered { m with heap := g } l.parent) = some false := by
    rcases Nat.eq_zero_or_pos i with h0 | hPos
    · exact Or.inl h0
    · obtain ⟨l', nd, hl', hn, hU, _⟩ := hP.uncovered hPos
      have hNot : Manager.isCovered { m with heap := g } l'.parent = false := by
        unfold Manager.isCovered
        rw [hn]
        exact hU
      exact Or.inr (by rw [hl', Option.map_some, hNot])
  have hGuard₂ : 1 < i ∨ Manager.isCovered { m with heap := g } ROOTNODE = true := by
    rcases Nat.eq_zero_or_pos i with rfl | hPos
    · refine Or.inr ?_
      rw [c.getElem? c.length_pos, ← List.head?_eq_getElem?, c.linked.head] at hl
      obtain rfl := Option.some.inj hl
      exact hCov
    · exact Or.inl (by omega)
  -- the cut
  obtain ⟨h', hCutEq, hKeep, hCut⟩ : ∃ h',
      Manager.deleteCovered cfg { m with heap := g } i = some { m with heap := h' } ∧
      (¬ (cfg.deleteCoveredSubtrees = true ∧ 1 ≤ i ∧ i ≤ base.length - 1) → h' = g) ∧
      (cfg.deleteCoveredSubtrees = true → 1 ≤ i → i ≤ base.length - 1 →
        ∃ l, base[i - 1]? = some l ∧ Shortcut g h' l.parent l.childIndex) := by
    unfold Manager.deleteCovered
    rw [hLenStack, show base.length + 1 - 2 = base.length - 1 from by omega]
    -- the cut is made if anything is left between the stop and the end node
    by_cases hDel : cfg.deleteCoveredSubtrees = true ∧ 1 ≤ i ∧ i ≤ base.length - 1
    · have hAt : base[i - 1]? = some base[i - 1] := List.getElem?_eq_getElem (by omega)
      obtain ⟨h', hCutEq, hCut⟩ := cutSubtree_spec c' hDel.2.1 hDel.2.2 hAt
      exact ⟨h', by rw [if_pos hDel, hCutEq], fun hNot => absurd hDel hNot,
        fun _ _ _ => ⟨_, hAt, hCut⟩⟩
    · exact ⟨g, by rw [if_neg hDel], fun _ => rfl,
        fun hd hPos hLe' => absurd ⟨hd, hPos, hLe'⟩ hDel⟩
  have hTrunc : Manager.truncateNodeStack { m with heap := h' } (i - 1) = some { m with
      heap := h', nodeStack := m.nodeStack.take (i - 1), stackIndex := i - 1 } := by
    have hLen : i - 1 ≤ m.nodeStack.length := by omega
    simp [Manager.truncateNodeStack, guard, hLen]
  refine ⟨_, ?_, .intro _ i h' hP hNe hKeep hCut⟩
  simp only [Manager.doBacktrack, hReason, ne_eq, not_false_eq_true, and_self, guard, if_true,
    Option.bind_eq_bind, Option.bind_some, c.check, hLenStack, Nat.add_sub_cancel, hEq, hl, hCov,
    hGuard₁, hGuard₂, hCutEq, hTrunc, Option.pure_def]

/-- **`DoBacktrack` on a complete path** propagates, cuts and truncates, and returns whether
the root is still open. -/
theorem doBacktrack_cases {cfg : Cfg} {reason : BacktrackReason} {b : Bool}
    (c : Complete m base) (hEq : m.doBacktrack cfg reason = some (m', b)) :
    Backtracked cfg m base m' ∧ b = !m'.isCovered ROOTNODE := by
  have hSplit := hEq
  simp only [Manager.doBacktrack, Option.bind_eq_bind, Option.bind_eq_some_iff,
    Option.guard_eq_some', c.length_stack, Nat.add_sub_cancel] at hSplit
  obtain ⟨_, hReason, _, _, ⟨mid, i⟩, hProp, _⟩ := hSplit
  obtain ⟨m'', hEq', hB⟩ := doBacktrack_of_propagated cfg c hProp reason hReason
  rw [hEq] at hEq'
  obtain ⟨rfl, rfl⟩ := Prod.mk.inj (Option.some.inj hEq')
  exact ⟨hB, rfl⟩

/-- **`DoBacktrack` does not fail** on a complete path of uncovered nodes. -/
theorem doBacktrack_isSome (cfg : Cfg) {reason : BacktrackReason} (c : Complete m base)
    (hU : Uncovered m.heap base)
    (hReason : reason ≠ .searchEnds ∧ reason ≠ .exception ∧ reason ≠ .unknown) :
    ∃ m', m.doBacktrack cfg reason = some (m', !m'.isCovered ROOTNODE) ∧
      Backtracked cfg m base m' := by
  obtain ⟨mid, i, hEq⟩ := propagate_isSome c (Nat.le_refl _) (by rwa [List.take_length])
  exact doBacktrack_of_propagated cfg c hEq reason hReason

end Concurrit.Model
