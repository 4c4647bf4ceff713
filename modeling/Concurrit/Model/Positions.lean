import Concurrit.Lib.Walk
import Concurrit.Model.EndExecution

/-!
# Concurrit — positions in the tree

An answer of the script selects a child of the node it comes from (`slotOf`), so
a sequence of answers leads from the root to at most one node (`nodeAt`). The
node stack is such a path (`Labelled`), and the operations on the heap change
what hangs at and below one position. The nodes of thread selections are
labelled with threads; an EXISTS node has no labels, since its one child stands
for whichever thread was selected.
-/

namespace Concurrit.Model

open Function (update)
open Walk

-- ---------------------------------------------------------------------------
-- Labels
-- ---------------------------------------------------------------------------

/-- The child an answer stands for. -/
def slotOf : NodeKind → Answer → Option Nat
  | .root, .unit => some 0
  | .conditional _, .unit => some 0
  | .runThrough, .unit => some 0
  | .runUntil, .unit => some 0
  | .choice _, .branch b => some (if b then 1 else 0)
  | .forallThread scope idxToThreadMap _, .thread t =>
    idxToThreadMap.findIdx? fun v => v.thread scope == some t
  | _, _ => none

/-- The child of a node under an answer. -/
def childBy (h : Heap) (n : Nat) (a : Answer) : Option Nat := do
  let nd ← h n
  let i ← slotOf nd.kind a
  nd.child i

/-- The node a sequence of answers leads to; the first answer is the one of the root. -/
def nodeAt (h : Heap) (path : List Answer) : Option Nat := walk (childBy h) ROOTNODE path

/-- Two answers do not stand for the same child. -/
theorem slotOf_injective {kind : NodeKind} {a b : Answer} {i : Nat} (ha : slotOf kind a = some i)
    (hb : slotOf kind b = some i) : a = b := by
  cases kind <;> cases a <;> simp only [slotOf, reduceCtorEq, Option.some.injEq] at ha <;>
    cases b <;> simp only [slotOf, reduceCtorEq, Option.some.injEq] at hb
  case choice.branch.branch s x y =>
    subst ha
    cases x <;> cases y <;> first | rfl | cases hb
  case forallThread.thread.thread scope map lvar t t' =>
    obtain ⟨hLt, hAt, _⟩ := List.findIdx?_eq_some_iff_getElem.mp ha
    obtain ⟨_, hAt', _⟩ := List.findIdx?_eq_some_iff_getElem.mp hb
    rw [beq_iff_eq] at hAt hAt'
    rw [hAt] at hAt'
    rw [Option.some.inj hAt']
  all_goals rfl

variable {h h' : Heap} {next n p i k c : Nat} {a b : Answer} {m m' m₁ : Manager} {nd nd' pd : Node}
  {l last : ChildLoc} {stack : List ChildLoc} {path : List Answer}

theorem childBy_eq_some : childBy h n a = some c ↔
    ∃ nd i, h n = some nd ∧ slotOf nd.kind a = some i ∧ nd.children[i]? = some (some c) := by
  simp [childBy, Node.child, Option.bind_eq_some_iff, Option.join_eq_some_iff]

theorem slot_of_childBy (hc : childBy h n a = some c) : ∃ i, Slot h n i c := by
  obtain ⟨nd, i, hn, _, hi⟩ := childBy_eq_some.mp hc
  exact ⟨i, nd, hn, hi⟩

theorem childBy_none (hn : h n = none) (a : Answer) : childBy h n a = none := by
  simp [childBy, hn]

theorem childBy_end (wf : WellFormed h next) (a : Answer) : childBy h ENDNODE a = none := by
  obtain ⟨q, hE⟩ := wf.endNode
  simp [childBy, hE, slotOf]

/-- **The labelled edges form a tree**, whose shared leaf is the end node. -/
theorem treeShaped (wf : WellFormed h next) : TreeShaped (childBy h) ROOTNODE (· = ENDNODE) where
  unique := by
    intro n n' a a' c hc hc' hEnd
    obtain ⟨nd, i, hn, hi, hSlot⟩ := childBy_eq_some.mp hc
    obtain ⟨nd', i', hn', hi', hSlot'⟩ := childBy_eq_some.mp hc'
    obtain ⟨rfl, rfl⟩ := wf.slot_unique ⟨nd, hn, hSlot⟩ ⟨nd', hn', hSlot'⟩ hEnd
    rw [hn] at hn'
    obtain rfl := Option.some.inj hn'
    exact ⟨rfl, slotOf_injective hi hi'⟩
  root := by
    intro n a hRoot
    obtain ⟨i, hSlot⟩ := slot_of_childBy hRoot
    exact wf.slot_ne_root hSlot rfl
  leaf := by
    rintro c a rfl
    exact childBy_end wf a

/-- A position holds a node. -/
theorem nodeAt_node (wf : WellFormed h next) (hn : nodeAt h path = some n) : ∃ nd, h n = some nd := by
  rcases List.eq_nil_or_concat path with rfl | ⟨path, a, rfl⟩
  · obtain rfl : ROOTNODE = n := by simpa [nodeAt] using hn
    obtain ⟨rd, hrd, _⟩ := wf.root
    exact ⟨rd, hrd⟩
  · rw [List.concat_eq_append, nodeAt, walk_snoc_eq_some] at hn
    obtain ⟨p, _, hc⟩ := hn
    obtain ⟨i, hSlot⟩ := slot_of_childBy hc
    by_cases hEnd : n = ENDNODE
    · subst hEnd
      obtain ⟨q, hE⟩ := wf.endNode
      exact ⟨_, hE⟩
    · obtain ⟨_, nd, hnd, _⟩ := wf.child hSlot hEnd
      exact ⟨nd, hnd⟩

-- ---------------------------------------------------------------------------
-- Labelled stacks
-- ---------------------------------------------------------------------------

/-- The location is the one the answer stands for. -/
def Labels (h : Heap) (l : ChildLoc) (a : Answer) : Prop :=
  ∃ nd, h l.parent = some nd ∧ slotOf nd.kind a = some l.childIndex

/-- The stack is the path these answers lead along. -/
structure Labelled (h : Heap) (stack : List ChildLoc) (path : List Answer) : Prop where
  length : stack.length = path.length
  label  : ∀ {k : Nat} {l : ChildLoc} {a : Answer}, stack[k]? = some l → path[k]? = some a →
             Labels h l a

/-- The beginning of a labelled path is labelled. -/
theorem Labelled.take (hL : Labelled h stack path) (k : Nat) :
    Labelled h (stack.take k) (path.take k) where
  length := by
    rw [List.length_take, List.length_take, hL.length]
  label := by
    intro j l a hl ha
    rw [List.getElem?_take] at hl ha
    split at hl
    · rename_i hjk
      rw [if_pos hjk] at ha
      exact hL.label hl ha
    · cases hl

/-- A labelled path goes on by a labelled location. -/
theorem Labelled.snoc (hL : Labelled h stack path) (hNew : Labels h l a) :
    Labelled h (stack ++ [l]) (path ++ [a]) where
  length := by
    rw [List.length_append, List.length_append, hL.length]
    rfl
  label := by
    intro k l' a' hl ha
    rcases Nat.lt_or_ge k stack.length with hLt | hGe
    · rw [List.getElem?_append_left hLt] at hl
      rw [List.getElem?_append_left (by rw [← hL.length]; exact hLt)] at ha
      exact hL.label hl ha
    · rw [List.getElem?_append_right hGe] at hl
      rw [List.getElem?_append_right (by rw [← hL.length]; exact hGe), ← hL.length] at ha
      obtain hk : k - stack.length = 0 := by
        by_contra hne
        rw [List.getElem?_eq_none (by simpa using Nat.one_le_iff_ne_zero.mpr hne)] at hl
        cases hl
      rw [hk] at hl ha
      obtain rfl : l = l' := by simpa using hl
      obtain rfl : a = a' := by simpa using ha
      exact hNew

theorem Labelled.mono (hL : Labelled h stack path)
    (hKeep : ∀ l ∈ stack, ∀ a, Labels h l a → Labels h' l a) : Labelled h' stack path where
  length := hL.length
  label hl ha := hKeep _ (List.mem_of_getElem? hl) _ (hL.label hl ha)

/-- The answer at a location of the stack. -/
theorem Labelled.exists_answer (hL : Labelled h stack path) (hl : stack[k]? = some l) :
    ∃ a, path[k]? = some a ∧ Labels h l a := by
  have hLt : k < path.length := by
    rw [← hL.length]
    exact (List.getElem?_eq_some_iff.mp hl).1
  have ha : path[k]? = some path[k] := List.getElem?_eq_getElem hLt
  exact ⟨_, ha, hL.label hl ha⟩

/-- **The stack lies along its path.** -/
theorem Labelled.nodeAt_take (hL : Labelled h stack path) (hLinked : Linked h stack)
    (hk : stack[k]? = some l) : nodeAt h (path.take k) = some l.parent := by
  induction k generalizing l with
  | zero =>
    rw [← List.head?_eq_getElem?, hLinked.head] at hk
    obtain rfl := Option.some.inj hk
    rfl
  | succ k ih =>
    have hLt : k < stack.length := Nat.lt_of_succ_lt (List.getElem?_eq_some_iff.mp hk).1
    have hPrev := List.getElem?_eq_getElem hLt
    obtain ⟨a, ha, nd, hnd, hi⟩ := hL.exists_answer hPrev
    obtain ⟨nd', hnd', hc⟩ := hLinked.slot hPrev hk
    rw [hnd] at hnd'
    obtain rfl := Option.some.inj hnd'
    rw [List.take_add_one, ha, Option.toList_some, nodeAt, walk_snoc_eq_some]
    exact ⟨_, ih hPrev, childBy_eq_some.mpr ⟨nd, _, hnd, hi, hc⟩⟩

/-- What the last slot of the stack holds is what hangs at the end of its path. -/
theorem Labelled.nodeAt_end (hL : Labelled h stack path) (hLinked : Linked h stack)
    (hLast : stack.getLast? = some last) (hp : h last.parent = some pd)
    {o : Option NodeId} (ho : pd.children[last.childIndex]? = some o) : nodeAt h path = o := by
  rw [List.getLast?_eq_getElem?] at hLast
  have hPos := hLinked.length_pos
  obtain ⟨a, ha, nd, hnd, hi⟩ := hL.exists_answer hLast
  rw [hp] at hnd
  obtain rfl := Option.some.inj hnd
  have hPath : path = path.take (stack.length - 1) ++ [a] := by
    have hTake : path.take (stack.length - 1 + 1) = path :=
      List.take_of_length_le (by rw [← hL.length]; omega)
    rw [List.take_add_one, ha] at hTake
    exact hTake.symm
  rw [hPath, nodeAt, walk_snoc, show walk (childBy h) ROOTNODE (path.take (stack.length - 1)) =
    some last.parent from hL.nodeAt_take hLinked hLast]
  simp [childBy, hp, hi, Node.child, ho]

-- ---------------------------------------------------------------------------
-- Submitting and recolouring
-- ---------------------------------------------------------------------------

/-- A node's labels stay what they were; new labels stand for new children. -/
structure SameLabels (nd nd' : Node) : Prop where
  keep : ∀ {a i}, slotOf nd.kind a = some i → slotOf nd'.kind a = some i
  new  : ∀ {a i}, slotOf nd'.kind a = some i → slotOf nd.kind a = some i ∨ nd.children.length ≤ i

theorem SameLabels.of_kind (hKind : nd'.kind = nd.kind) : SameLabels nd nd' where
  keep h := by rw [hKind, h]
  new h := Or.inl (by rw [← hKind, h])

/-- Submitting a node moves nothing. -/
theorem Submitted.childBy (hS : Submitted m n nd' m₁) (t : Tidy m)
    (hLabels : ∀ nd, m.heap n = some nd → SameLabels nd nd') (k : Nat) (a : Answer) :
    childBy m₁.heap k a = childBy m.heap k a := by
  by_cases hk : k = n
  · subst hk
    have hNode := hS.node
    cases hS with
    | old idx nd hNext hn hCov hEnd hGrow =>
      have hSame := hLabels nd hn
      ext c
      rw [childBy_eq_some, childBy_eq_some]
      constructor
      · rintro ⟨nd₁, i, hn₁, hi, hc⟩
        rw [hNode] at hn₁
        obtain rfl := Option.some.inj hn₁
        have hc' := (hGrow.sameLinks.children i c).mp hc
        rcases hSame.new hi with hOld | hGe
        · exact ⟨nd, i, hn, hOld, hc'⟩
        · rw [List.getElem?_eq_none hGe] at hc'
          cases hc'
      · rintro ⟨nd₁, i, hn₁, hi, hc⟩
        rw [hn] at hn₁
        obtain rfl := Option.some.inj hn₁
        exact ⟨nd', i, hNode, hSame.keep hi, (hGrow.sameLinks.children i c).mpr hc⟩
    | new idx hNext hn hPar hCov hKids hShape =>
      rw [childBy_none (t.wf.fresh _ (Nat.le_of_eq hn.symm))]
      ext c
      rw [childBy_eq_some]
      constructor
      · rintro ⟨nd₁, i, hn₁, _, hc⟩
        rw [hNode] at hn₁
        obtain rfl := Option.some.inj hn₁
        exact absurd hc (hKids i c)
      · intro hc
        cases hc
  · unfold Model.childBy
    rw [hS.frame hk]

theorem Submitted.nodeAt (hS : Submitted m n nd' m₁) (t : Tidy m)
    (hLabels : ∀ nd, m.heap n = some nd → SameLabels nd nd') (q : List Answer) :
    nodeAt m₁.heap q = nodeAt m.heap q :=
  walk_congr (hS.childBy t hLabels) _ _

/-- Submitting a node keeps the labels of the path. -/
theorem Submitted.labelled (hS : Submitted m n nd' m₁)
    (hLabels : ∀ nd, m.heap n = some nd → SameLabels nd nd')
    (hL : Labelled m.heap stack path) : Labelled m₁.heap stack path := by
  refine hL.mono ?_
  rintro l _ a ⟨nd, hnd, hi⟩
  by_cases hl : l.parent = n
  · rw [hl] at hnd
    exact ⟨nd', by rw [hl, hS.node], (hLabels nd hnd).keep hi⟩
  · exact ⟨nd, by rw [hS.frame hl, hnd], hi⟩

/-- Recolouring changes no label. -/
theorem Recolored.childBy (hR : Recolored m m') (k : Nat) (a : Answer) :
    childBy m'.heap k a = childBy m.heap k a := by
  unfold Model.childBy
  rcases hk : m.heap k with _ | kd
  · rw [hR.none k hk]
  · obtain ⟨c, hc, _⟩ := hR.node k kd hk
    rw [hc]
    rfl

theorem Recolored.nodeAt (hR : Recolored m m') (q : List Answer) :
    nodeAt m'.heap q = nodeAt m.heap q :=
  walk_congr hR.childBy _ _

theorem Recolored.labelled (hR : Recolored m m') (hL : Labelled m.heap stack path) :
    Labelled m'.heap stack path := by
  refine hL.mono ?_
  rintro l _ a ⟨nd, hnd, hi⟩
  obtain ⟨c, hc, _⟩ := hR.node _ _ hnd
  exact ⟨_, hc, hi⟩

-- ---------------------------------------------------------------------------
-- Consuming
-- ---------------------------------------------------------------------------

/-- The answers consumed so far, and the one that is consumed now. -/
structure Advanced (m m' : Manager) (n : Nat) (path path' : List Answer) (a : Answer) : Prop where
  labelled : Labelled m'.heap m'.nodeStack path'
  taken    : path'.take m'.stackIndex = path.take m.stackIndex ++ [a]
  nodeAt   : ∀ q, nodeAt m'.heap q = if q = path.take m.stackIndex then some n else nodeAt m.heap q
  kept     : m.stackIndex < m.nodeStack.length → m'.nodeStack = m.nodeStack ∧ path' = path
  whole    : m.stackIndex = m.nodeStack.length → path' = path ++ [a]

/-- Linking a childless node puts it at the end of the path. -/
theorem nodeAt_link (wf : WellFormed h next) {nd : Node} (hp : h p = some pd)
    (hpEnd : p ≠ ENDNODE) (hi : slotOf pd.kind a = some i)
    (hEmpty : pd.children[i]? = some none) (hn : h n = some nd) (hKids : NoChildren nd)
    (hnp : n ≠ p) (hPath : nodeAt h path = some p) (q : List Answer) (par : Option NodeId) :
    nodeAt (update (update h p (some { pd with children := pd.children.set i (some n) }))
      n (some { nd with parent := par })) q =
      if q = path ++ [a] then some n else nodeAt h q := by
  generalize hh' : update (update h p (some { pd with children := pd.children.set i (some n) }))
    n (some { nd with parent := par }) = h'
  have hn' : h' n = some { nd with parent := par } := by
    rw [← hh', Function.update_self]
  have hp' : h' p = some { pd with children := pd.children.set i (some n) } := by
    rw [← hh', Function.update_of_ne (Ne.symm hnp), Function.update_self]
  have hFree : ∀ b, childBy h' n b = none ∧ childBy h n b = none := by
    intro b
    constructor
    · ext c
      rw [childBy_eq_some]
      refine ⟨?_, fun hc => by cases hc⟩
      rintro ⟨nd₁, j, hn₁, _, hc⟩
      rw [hn'] at hn₁
      obtain rfl := Option.some.inj hn₁
      exact absurd hc (hKids j c)
    · ext c
      rw [childBy_eq_some]
      refine ⟨?_, fun hc => by cases hc⟩
      rintro ⟨nd₁, j, hn₁, _, hc⟩
      rw [hn] at hn₁
      obtain rfl := Option.some.inj hn₁
      exact absurd hc (hKids j c)
  have hSelf : childBy h' p a = some n :=
    childBy_eq_some.mpr ⟨_, i, hp', hi, List.getElem?_set_self (List.getElem?_eq_some_iff.mp hEmpty).1⟩
  have hSame : ∀ q k b, ¬ path ++ [a] <+: q → walk (childBy h) ROOTNODE q = some k →
      (k = p → b ≠ a) → childBy h' k b = childBy h k b := by
    intro q k b _ _ hb
    by_cases hkn : k = n
    · rw [hkn, (hFree b).1, (hFree b).2]
    · by_cases hkp : k = p
      · subst hkp
        unfold childBy
        rw [hp', hp]
        simp only [Option.bind_eq_bind, Option.bind_some, Node.child]
        rcases hj : slotOf pd.kind b with _ | j
        · rfl
        · have hji : j ≠ i := by
            rintro rfl
            exact hb rfl (slotOf_injective hj hi)
          simp only [Option.bind_some, List.getElem?_set_ne (Ne.symm hji)]
      · unfold childBy
        rw [← hh', Function.update_of_ne hkn, Function.update_of_ne hkp]
  have hTree := treeShaped wf
  have hOldNone : childBy h p a = none := by
    simp [childBy, hp, hi, Node.child, hEmpty]
  by_cases hq : path ++ [a] <+: q
  · by_cases hEq : q = path ++ [a]
    · rw [if_pos hEq, hEq]
      exact (walk_edit_self hTree hPath hpEnd hSame).trans hSelf
    · rw [if_neg hEq]
      have hNew : nodeAt h' q = none := by
        refine walk_edit_below hTree hPath hpEnd hSame ?_ hq hEq
        intro c hc b
        rw [hSelf] at hc
        obtain rfl := Option.some.inj hc
        exact (hFree b).1
      have hOld : nodeAt h q = none := by
        refine walk_edit_below hTree hPath hpEnd (fun _ _ _ _ _ _ => rfl) ?_ hq hEq
        intro c hc
        rw [hOldNone] at hc
        cases hc
      rw [hNew, hOld]
  · have hNe : q ≠ path ++ [a] := by
      rintro rfl
      exact hq (List.prefix_refl _)
    rw [if_neg hNe]
    exact walk_edit_of_not_prefix hTree hPath hpEnd hSame hq

/-- **Consuming a node** moves one answer on, and puts the node at the end of the
path consumed so far. -/
theorem Consumed.advanced (hC : Consumed m n i m') (t : Tidy m)
    (hL : Labelled m.heap m.nodeStack path) (hn : m.heap n = some nd)
    (hFresh : (∀ p j, ¬ Slot m.heap p j n) → NoChildren nd)
    (ha : slotOf nd.kind a = some i) : ∃ path', Advanced m m' n path path' a := by
  cases hC with
  | recorded hNext =>
    have hAt : nodeAt m.heap (path.take m.stackIndex) = some n := hL.nodeAt_take t.linked hNext
    obtain ⟨b, hb, nd', hn', hi⟩ := hL.exists_answer hNext
    have hn'' : m.heap n = some nd' := hn'
    rw [hn] at hn''
    obtain rfl := Option.some.inj hn''
    obtain rfl := slotOf_injective ha hi
    have hLt := (List.getElem?_eq_some_iff.mp hNext).1
    refine ⟨path, hL, ?_, fun q => ?_, fun _ => ⟨rfl, rfl⟩, fun hEq => by omega⟩
    · show path.take (m.stackIndex + 1) = _
      rw [List.take_add_one, hb]
      rfl
    · split
      · rename_i hq
        rw [hq]
        exact hAt
      · rfl
  | linked last hEnd hLast hSlot =>
    obtain ⟨pd, hp, hc⟩ := hSlot
    have hTake : path.take m.stackIndex = path :=
      List.take_of_length_le (by rw [hEnd, hL.length])
    have hAt := hL.nodeAt_end t.linked hLast hp hc
    refine ⟨path ++ [a], hL.snoc ⟨nd, hn, ha⟩, ?_, fun q => ?_, fun hLt => by omega,
      fun _ => rfl⟩
    · rw [hTake]
      exact List.take_of_length_le (by simp [hEnd, hL.length])
    · rw [hTake]
      split
      · rename_i hq
        rw [hq]
        exact hAt
      · rfl
  | loose last pd nd' hEnd hLast hp hEmpty hLater hLoose hn' =>
    rw [hn] at hn'
    obtain rfl := Option.some.inj hn'
    have hTake : path.take m.stackIndex = path :=
      List.take_of_length_le (by rw [hEnd, hL.length])
    have hnp : n ≠ last.parent := Nat.ne_of_gt hLater
    have hKids := hFresh hLoose
    have hIdx : m.nodeStack[m.nodeStack.length - 1]? = some last := by
      rw [← List.getLast?_eq_getElem?, hLast]
    obtain ⟨b, hb, pd', hp', hi⟩ := hL.exists_answer hIdx
    rw [hp] at hp'
    obtain rfl := Option.some.inj hp'
    have hPos := t.linked.length_pos
    have hPath : path = path.take (m.nodeStack.length - 1) ++ [b] := by
      have hAll : path.take (m.nodeStack.length - 1 + 1) = path :=
        List.take_of_length_le (by rw [← hL.length]; omega)
      rw [List.take_add_one, hb] at hAll
      exact hAll.symm
    have hNode := nodeAt_link t.wf hp (t.linked.last_valid hLast).1 hi hEmpty hn hKids hnp
      (hL.nodeAt_take t.linked hIdx)
    rw [← hPath] at hNode
    refine ⟨path ++ [a], Labelled.snoc ?_ ⟨{ nd with parent := some last.parent },
      Function.update_self .., ha⟩, ?_, fun q => ?_, fun hLt => by omega, fun _ => rfl⟩
    · refine hL.mono ?_
      rintro l hl b ⟨ld, hld, hlb⟩
      have hln : l.parent ≠ n := by
        have hLe := t.linked.le_last t.wf hLast hl
        omega
      by_cases hlp : l.parent = last.parent
      · rw [hlp, hp] at hld
        obtain rfl := Option.some.inj hld
        refine ⟨{ pd with children := pd.children.set last.childIndex (some n) }, ?_, hlb⟩
        dsimp only
        rw [Function.update_of_ne hln, hlp, Function.update_self]
      · refine ⟨ld, ?_, hlb⟩
        dsimp only
        rw [Function.update_of_ne hln, Function.update_of_ne hlp, hld]
    · rw [hTake]
      exact List.take_of_length_le (by simp [hEnd, hL.length])
    · rw [hTake]
      exact hNode q _

-- ---------------------------------------------------------------------------
-- Shortcuts
-- ---------------------------------------------------------------------------

/-- A node below a slot has a position below the slot's. -/
theorem prefix_of_below (wf : WellFormed h next) (hp : h p = some pd) (hpEnd : p ≠ ENDNODE)
    (hi : slotOf pd.kind a = some i) (hPath : nodeAt h path = some p)
    {q : List Answer} (hq : nodeAt h q = some k) (hBelow : Below h p i k) : path ++ [a] <+: q := by
  induction q using List.reverseRecOn generalizing k with
  | nil =>
    obtain rfl : ROOTNODE = k := by simpa [nodeAt] using hq
    exact absurd (wf.below_gt hBelow) (Nat.not_lt_zero _)
  | append_singleton q b ih =>
    obtain ⟨k', hk', hb⟩ := walk_snoc_eq_some.mp hq
    obtain ⟨j, hSlot⟩ := slot_of_childBy hb
    obtain ⟨c, hc, hcEnd, hDesc⟩ := hBelow
    by_cases hkc : k = c
    · -- the node the slot holds
      subst hkc
      obtain ⟨nd', j', hnd', hj', hSlot'⟩ := childBy_eq_some.mp hb
      obtain ⟨rfl, rfl⟩ := wf.slot_unique ⟨nd', hnd', hSlot'⟩ hc hcEnd
      rw [hp] at hnd'
      obtain rfl := Option.some.inj hnd'
      obtain rfl := slotOf_injective hj' hi
      have hEq : q = path := walk_injective (treeShaped wf) hk' hPath hpEnd
      rw [hEq]
    · have hDesc' := wf.desc_parent hDesc hkc hSlot
      exact (ih hk' ⟨c, hc, hcEnd, hDesc'⟩).trans (List.prefix_append _ _)

/-- **A shortcut puts the end node at one position** and leaves nothing below it. -/
theorem Shortcut.nodeAt (hCut : Shortcut h h' p i) (wf : WellFormed h next) (hp : h p = some pd)
    (hi : slotOf pd.kind a = some i) (hPath : nodeAt h path = some p) (q : List Answer) :
    nodeAt h' q = if q = path ++ [a] then some ENDNODE
      else if path ++ [a] <+: q then none else nodeAt h q := by
  have hpEnd := hCut.valid.1
  have hTree := treeShaped wf
  have hSelf : childBy h' p a = some ENDNODE := by
    obtain ⟨_, pd', hp', hLt⟩ := hCut.valid
    have hp'' : h p = some pd' := hp'
    rw [hp] at hp''
    obtain rfl := Option.some.inj hp''
    exact childBy_eq_some.mpr ⟨_, i, hCut.at_parent wf hp, hi, List.getElem?_set_self hLt⟩
  have hEndNone : ∀ b, childBy h' ENDNODE b = none := childBy_end (hCut.wellFormed wf)
  have hSame : ∀ q k b, ¬ path ++ [a] <+: q → walk (childBy h) ROOTNODE q = some k →
      (k = p → b ≠ a) → childBy h' k b = childBy h k b := by
    intro q k b hq hk hb
    have hNot : ¬ Below h p i k := fun hBelow => hq (prefix_of_below wf hp hpEnd hi hPath hk hBelow)
    obtain ⟨kd, hkd⟩ := nodeAt_node wf hk
    obtain ⟨kd', hkd', hKind, _, _, _, hKids⟩ := hCut.node_of_not_below wf hNot hkd
    unfold childBy
    rw [hkd, hkd']
    simp only [Option.bind_eq_bind, Option.bind_some, hKind]
    rcases hj : slotOf kd.kind b with _ | j
    · rfl
    · have hEq : kd'.children[j]? = kd.children[j]? := by
        refine hKids j ?_
        rintro rfl rfl
        rw [hp] at hkd
        obtain rfl := Option.some.inj hkd
        exact hb rfl (slotOf_injective hj hi)
      simp only [Option.bind_some, Node.child, hEq]
  by_cases hEq : q = path ++ [a]
  · rw [if_pos hEq, hEq]
    exact (walk_edit_self hTree hPath hpEnd hSame).trans hSelf
  · rw [if_neg hEq]
    by_cases hq : path ++ [a] <+: q
    · rw [if_pos hq]
      refine walk_edit_below hTree hPath hpEnd hSame ?_ hq hEq
      intro c hc b
      rw [hSelf] at hc
      obtain rfl := Option.some.inj hc
      exact hEndNone b
    · rw [if_neg hq]
      exact walk_edit_of_not_prefix hTree hPath hpEnd hSame hq

theorem Shortcut.labelled (hCut : Shortcut h h' p i) (wf : WellFormed h next)
    (hL : Labelled h stack path) (hNot : ∀ l ∈ stack, ¬ Below h p i l.parent) :
    Labelled h' stack path := by
  refine hL.mono ?_
  rintro l hl a ⟨nd, hnd, hi⟩
  obtain ⟨nd', hnd', hKind, _⟩ := hCut.node_of_not_below wf (hNot l hl) hnd
  exact ⟨nd', hnd', by rw [hKind, hi]⟩

end Concurrit.Model
