import Concurrit.Model.Stack

/-!
# Concurrit — extending the path

What `AddToPath` can do from a state between two critical sections (`Tidy`):
consume the pending node (`Consumed`) or end the path (`Ended`). Everything the
development proves about the search uses these two descriptions and never
unfolds `AddToPath` again.
-/

namespace Concurrit.Model

open Function (update)

variable {m m' : Manager} {n i : Nat} {l last : ChildLoc} {nd pd ed : Node}

/-- The state of the manager between two critical sections. -/
structure Tidy (m : Manager) : Prop where
  wf     : WellFormed m.heap m.next
  linked : Linked m.heap m.nodeStack
  pos    : 1 ≤ m.stackIndex
  le     : m.stackIndex ≤ m.nodeStack.length

/-- The last location of the stack, and the content of its slot. -/
theorem Tidy.exists_last (t : Tidy m) : ∃ last pd o, m.nodeStack.getLast? = some last ∧
    m.heap last.parent = some pd ∧ pd.children[last.childIndex]? = some o := by
  have hLast := List.getLast?_eq_some_getLast t.linked.ne_nil
  obtain ⟨_, pd, hp, hi⟩ := t.linked.valid _ (List.mem_of_getLast? hLast)
  exact ⟨_, pd, _, hLast, hp, List.getElem?_eq_getElem hi⟩

/-- At the end of the stack the location consumed last is the last one. -/
theorem Tidy.last_at_end (t : Tidy m) (hEnd : m.stackIndex = m.nodeStack.length)
    (hLast : m.nodeStack.getLast? = some last) : m.getLastNodeInStack = some last := by
  rw [Manager.getLastNodeInStack_eq_some]
  refine ⟨t.pos, ?_⟩
  rw [hEnd, ← List.getLast?_eq_getElem?, hLast]

/-- Before the end of the stack the slot consumed last holds the pending node. -/
theorem Tidy.last_recorded (t : Tidy m) (hNext : m.nodeStack[m.stackIndex]? = some l) :
    ∃ last, m.getLastNodeInStack = some last ∧ LinksTo m.heap last l := by
  have hLt := (List.getElem?_eq_some_iff.mp hNext).1
  have hk : m.stackIndex - 1 + 1 = m.stackIndex := Nat.sub_add_cancel t.pos
  have hLast : m.nodeStack[m.stackIndex - 1]? = some m.nodeStack[m.stackIndex - 1] :=
    List.getElem?_eq_getElem (by omega)
  refine ⟨m.nodeStack[m.stackIndex - 1], ?_, t.linked.slot hLast (by rw [hk, hNext])⟩
  rw [Manager.getLastNodeInStack_eq_some]
  exact ⟨t.pos, hLast⟩

-- ---------------------------------------------------------------------------
-- Consuming the pending node
-- ---------------------------------------------------------------------------

/-- The node the next operation works on: recorded on the stack, left there by
an earlier execution, or new and hanging nowhere yet. -/
inductive Pending (m : Manager) (n : Nat) : Prop where
  | recorded (l : ChildLoc) (hNext : m.nodeStack[m.stackIndex]? = some l) (hl : l.parent = n)
  | linked (last : ChildLoc) (hEnd : m.stackIndex = m.nodeStack.length)
      (hLast : m.nodeStack.getLast? = some last)
      (hSlot : Slot m.heap last.parent last.childIndex n)
  | loose (last : ChildLoc) (pd : Node) (hEnd : m.stackIndex = m.nodeStack.length)
      (hLast : m.nodeStack.getLast? = some last)
      (hp : m.heap last.parent = some pd) (hEmpty : pd.children[last.childIndex]? = some none)
      (hLater : last.parent < n) (hLoose : ∀ p j, ¬ Slot m.heap p j n)

/-- What consuming child `i` of the pending node `n` does. -/
inductive Consumed (m : Manager) (n i : Nat) : Manager → Prop where
  | recorded (hNext : m.nodeStack[m.stackIndex]? = some ⟨n, i⟩) :
      Consumed m n i { m with stackIndex := m.stackIndex + 1 }
  | linked (last : ChildLoc) (hEnd : m.stackIndex = m.nodeStack.length)
      (hLast : m.nodeStack.getLast? = some last)
      (hSlot : Slot m.heap last.parent last.childIndex n) :
      Consumed m n i
        { m with nodeStack := m.nodeStack ++ [⟨n, i⟩], stackIndex := m.stackIndex + 1 }
  | loose (last : ChildLoc) (pd nd : Node) (hEnd : m.stackIndex = m.nodeStack.length)
      (hLast : m.nodeStack.getLast? = some last)
      (hp : m.heap last.parent = some pd) (hEmpty : pd.children[last.childIndex]? = some none)
      (hLater : last.parent < n) (hLoose : ∀ p j, ¬ Slot m.heap p j n)
      (hn : m.heap n = some nd) :
      Consumed m n i { m with
        heap := update (update m.heap last.parent
            (some { pd with children := pd.children.set last.childIndex (some n) }))
          n (some { nd with parent := some last.parent })
        nodeStack := m.nodeStack ++ [⟨n, i⟩]
        stackIndex := m.stackIndex + 1 }

/-- **Consumption**: `AddToPath` on the pending node advances along the recorded
path or extends it, and it fails only where another location is recorded. -/
theorem addNodeToPath_iff (t : Tidy m) (hPending : Pending m n) (hn : m.heap n = some nd)
    (hEnd : n ≠ ENDNODE) : m.addNodeToPath n i = some m' ↔ Consumed m n i m' := by
  cases hPending with
  | recorded l hNext hl =>
    subst hl
    obtain ⟨last, hLast, pd, hp, hc⟩ := t.last_recorded hNext
    obtain ⟨hLt, cd, hcd, hpar⟩ := t.wf.child ⟨pd, hp, hc⟩ hEnd
    have hSame : m.set last (some l.parent) = some m :=
      Manager.set_same hp hc hcd hpar (Nat.ne_of_gt hLt)
    have hAdd := Manager.addToNodeStack_recorded (l := ⟨l.parent, i⟩) hNext hEnd
    have hLen : m.stackIndex ≠ m.nodeStack.length :=
      Nat.ne_of_lt (List.getElem?_eq_some_iff.mp hNext).1
    simp only [Manager.addNodeToPath, hLast, Option.bind_eq_bind, Option.bind_some,
      Manager.check_none hp hc, Manager.check_some hp hc hcd, hpar, hSame, hAdd]
    constructor
    · intro h
      simp only [BEq.rfl, Bool.and_self, Bool.or_true, guard, if_true] at h
      split at h
      · rename_i hEq
        obtain rfl : _ = m' := Option.some.inj h
        exact .recorded (hNext.trans (congrArg some hEq))
      · simp at h
    · rintro (hNext' | ⟨_, hStackEnd, _, _⟩ | ⟨_, _, _, hStackEnd, _, _, _, _, _, _⟩)
      · rw [hNext] at hNext'
        have hEq := Option.some.inj hNext'
        rw [if_pos hEq]
        simp [guard]
      · exact absurd hStackEnd hLen
      · exact absurd hStackEnd hLen
  | linked last hStackEnd hLast hSlot =>
    obtain ⟨hLt, cd, hcd, hpar⟩ := t.wf.child hSlot hEnd
    obtain ⟨pd, hp, hc⟩ := hSlot
    have hSame : m.set last (some n) = some m :=
      Manager.set_same hp hc hcd hpar (Nat.ne_of_gt hLt)
    have hNone : m.nodeStack[m.stackIndex]? = none := List.getElem?_eq_none (by omega)
    simp only [Manager.addNodeToPath, t.last_at_end hStackEnd hLast, Option.bind_eq_bind,
      Option.bind_some, Manager.check_none hp hc, Manager.check_some hp hc hcd, hpar, hSame,
      Manager.addToNodeStack_end hStackEnd]
    constructor
    · intro h
      simp only [BEq.rfl, Bool.and_self, Bool.or_true, guard, if_true] at h
      obtain rfl : _ = m' := Option.some.inj h
      exact .linked last hStackEnd hLast ⟨pd, hp, hc⟩
    · rintro (hNext' | ⟨_, _, _, _⟩ | ⟨last', pd', _, _, hLast', hp', hEmpty, _, _, _⟩)
      · rw [hNone] at hNext'
        cases hNext'
      · simp [guard]
      · rw [hLast] at hLast'
        obtain rfl := Option.some.inj hLast'
        rw [hp] at hp'
        obtain rfl := Option.some.inj hp'
        rw [hc] at hEmpty
        cases hEmpty
  | loose last pd hStackEnd hLast hp hEmpty hLater hLoose =>
    have hi := (List.getElem?_eq_some_iff.mp hEmpty).1
    have hSet := Manager.set_some hp hi hn (Nat.ne_of_gt hLater)
    have hNone : m.nodeStack[m.stackIndex]? = none := List.getElem?_eq_none (by omega)
    simp only [Manager.addNodeToPath, t.last_at_end hStackEnd hLast, Option.bind_eq_bind,
      Option.bind_some, Manager.check_none hp hEmpty, Manager.check_some hp hEmpty hn, hSet]
    rw [Manager.addToNodeStack_end (by exact hStackEnd)]
    constructor
    · intro h
      simp only [BEq.rfl, Bool.true_or, guard, if_true] at h
      obtain rfl : _ = m' := Option.some.inj h
      exact .loose last pd nd hStackEnd hLast hp hEmpty hLater hLoose hn
    · rintro (hNext' | ⟨last', _, hLast', hSlot⟩ | ⟨last', pd', nd', _, hLast', hp', _, _, _, hn'⟩)
      · rw [hNone] at hNext'
        cases hNext'
      · exact absurd hSlot (hLoose _ _)
      · rw [hLast] at hLast'
        obtain rfl := Option.some.inj hLast'
        rw [hp] at hp'
        obtain rfl := Option.some.inj hp'
        rw [hn] at hn'
        obtain rfl := Option.some.inj hn'
        simp [guard]

/-- Hanging a loose node into an empty slot keeps every slot that held a node. -/
theorem slot_link_iff {h : Heap} {p j : Nat} (hp : h p = some pd) (hEmpty : pd.children[i]? = some none)
    (hn : h n = some nd) (hne : n ≠ p) (q : Option NodeId) (c d : Nat) :
    Slot (update (update h p (some { pd with children := pd.children.set i (some n) }))
        n (some { nd with parent := q })) c j d ↔
      (c = p ∧ j = i ∧ d = n) ∨ Slot h c j d := by
  have hi := (List.getElem?_eq_some_iff.mp hEmpty).1
  have hn' : update h p (some { pd with children := pd.children.set i (some n) }) n = some nd := by
    rw [Function.update_of_ne hne, hn]
  rw [slot_setParent_iff hn' q,
    slot_set_iff hp hi]
  constructor
  · rintro (⟨rfl, rfl, hd⟩ | ⟨_, hSlot⟩)
    · exact Or.inl ⟨rfl, rfl, (Option.some.inj hd).symm⟩
    · exact Or.inr hSlot
  · rintro (⟨rfl, rfl, rfl⟩ | hSlot)
    · exact Or.inl ⟨rfl, rfl, rfl⟩
    · refine Or.inr ⟨?_, hSlot⟩
      rintro ⟨rfl, rfl⟩
      obtain ⟨md, hmd, hd⟩ := hSlot
      rw [hp] at hmd
      obtain rfl := Option.some.inj hmd
      rw [hEmpty] at hd
      cases hd

/-- **A loose node is linked.** -/
theorem WellFormed.link {h : Heap} {next p : Nat} (wf : WellFormed h next) (hp : h p = some pd)
    (hEmpty : pd.children[i]? = some none) (hn : h n = some nd) (hEnd : n ≠ ENDNODE)
    (hLater : p < n) (hpEnd : p ≠ ENDNODE)
    (hLoose : ∀ p j, ¬ Slot h p j n) :
    WellFormed (update (update h p (some { pd with children := pd.children.set i (some n) }))
      n (some { nd with parent := some p })) next := by
  have hi := (List.getElem?_eq_some_iff.mp hEmpty).1
  -- first the parent pointer, then the slot
  have wf₁ : WellFormed (update h n (some { nd with parent := some p })) next := by
    refine wf.updateData hn hEnd ⟨fun _ _ => Iff.rfl, by simpa using wf.shape hn, fun hk => hk⟩ ?_
    exact fun q j hSlot => absurd hSlot (hLoose q j)
  have hSlot := slot_setParent_iff hn (some p)
  rw [Function.update_comm (Nat.ne_of_lt hLater)]
  refine wf₁.setSlot (by rw [Function.update_of_ne (Nat.ne_of_lt hLater), hp]) hpEnd hi ?_
  rintro c hc -
  obtain rfl := Option.some.inj hc
  refine ⟨hLater, ⟨_, Function.update_self .., rfl⟩, fun m j hmj => ?_⟩
  exact hLoose m j ((hSlot m j n).mp hmj)

theorem Linked.last_valid {h : Heap} {stack : List ChildLoc} (hL : Linked h stack)
    (hLast : stack.getLast? = some last) : ValidLoc h last :=
  hL.valid last (List.mem_of_getLast? hLast)

/-- **Consuming a node keeps the state tidy.** -/
theorem Consumed.tidy (t : Tidy m) (hC : Consumed m n i m') (hn : m.heap n = some nd)
    (hEnd : n ≠ ENDNODE) (hi : i < nd.children.length) : Tidy m' := by
  cases hC with
  | recorded hNext =>
    have hLt := (List.getElem?_eq_some_iff.mp hNext).1
    exact ⟨t.wf, t.linked, Nat.le_add_left _ _, hLt⟩
  | linked last hStackEnd hLast hSlot =>
    refine ⟨t.wf, ?_, Nat.le_add_left _ _, ?_⟩
    · refine t.linked.push ?_ ⟨hEnd, nd, hn, hi⟩
      intro l hl
      rw [hLast] at hl
      obtain rfl := Option.some.inj hl
      exact hSlot
    · simp [hStackEnd]
  | loose last pd nd' hStackEnd hLast hp hEmpty hLater hLoose hn' =>
    rw [hn] at hn'
    obtain rfl := Option.some.inj hn'
    have hValid := t.linked.last_valid hLast
    have hSlot := fun (c j d : Nat) => slot_link_iff (j := j) hp hEmpty hn (Nat.ne_of_gt hLater)
      (some last.parent) c d
    have hLinked : Linked (update (update m.heap last.parent
        (some { pd with children := pd.children.set last.childIndex (some n) }))
        n (some { nd with parent := some last.parent })) m.nodeStack := by
      refine t.linked.mono ?_ ?_
      · rintro l hl ⟨hlEnd, ld, hld, hlt⟩
        refine ⟨hlEnd, ?_⟩
        have hln : l.parent ≠ n := by
          have := t.linked.le_last t.wf hLast hl
          omega
        rw [Function.update_of_ne hln]
        by_cases hlp : l.parent = last.parent
        · rw [hlp, hp] at hld
          obtain rfl := Option.some.inj hld
          rw [hlp, Function.update_self]
          exact ⟨_, rfl, by simpa using hlt⟩
        · rw [Function.update_of_ne hlp]
          exact ⟨ld, hld, hlt⟩
      · intro k l l' _ _ hLink
        exact (hSlot _ _ _).mpr (Or.inr hLink)
    refine ⟨?_, ?_, Nat.le_add_left _ _, ?_⟩
    · exact t.wf.link hp hEmpty hn hEnd hLater hValid.1 hLoose
    · refine hLinked.push ?_ ⟨hEnd, _, Function.update_self .., hi⟩
      intro l hl
      rw [hLast] at hl
      obtain rfl := Option.some.inj hl
      exact (hSlot _ _ _).mpr (Or.inl ⟨rfl, rfl, rfl⟩)
    · simp [hStackEnd]

end Concurrit.Model
