import Concurrit.Model.Current

/-!
# Concurrit — constraints in force

`RUN_THROUGH` and `RUN_UNTIL` install their constraints, submit a node and wait until
it is consumed; leaving the block removes the constraints. A transition is evaluated
with the constraints that are installed at that moment. They are the ones the node was
submitted with as long as no exception unwinds the block while the node is current.
-/

namespace Concurrit.Model

open Function (update)

namespace Protocol

variable {P Trans : Type} {s s' : State P Trans} {sh sh' : Shared P Trans} {pc pc' : Pc P Trans}
  {t u n m : Nat} {l : Label}

/-- The constraints installed now are those node `n` was submitted with. -/
def Secured (s : State P Trans) (n : Nat) : Prop :=
  ∃ info, s.shared.nodes[n]? = some info ∧ info.installed = s.shared.constraints

/-- The evaluation is that of the node with the constraints it was submitted with. -/
def Entry.Meant (e : Entry P Trans) (info : NodeInfo P) : Prop :=
  ∃ selects, (e.consume, e.take) = evalNode e.holds info.installed selects info.kind info.pred

/-- Each transition that is let through, or consumes a node, satisfies the constraints that
were installed when the node was submitted. -/
def InForce (s : State P Trans) : Prop :=
  ∀ e ∈ s.shared.log, e.take = true ∨ e.consume = true →
    ∃ info, s.shared.nodes[e.node]? = some info ∧
      (info.kind ≠ .selectThread → info.installed.all e.holds = true)

/-- An evaluation that takes or consumes has found the constraints true. -/
theorem evalNode_constraints {holds : P → Bool} {constraints : List P} {selects : Bool}
    {kind : NodeKind} {pred : P} (hKind : kind ≠ .selectThread)
    (h : (evalNode holds constraints selects kind pred).2 = true ∨
      (evalNode holds constraints selects kind pred).1 = true) : constraints.all holds = true := by
  rw [← Bool.not_eq_false]
  intro hAll
  cases kind
  case selectThread => exact hKind rfl
  all_goals simp [evalNode, hAll] at h

theorem Entry.Meant.inForce {e : Entry P Trans} {info : NodeInfo P} (h : e.Meant info)
    (hCounts : e.take = true ∨ e.consume = true) (hKind : info.kind ≠ .selectThread) :
    info.installed.all e.holds = true := by
  obtain ⟨selects, hEval⟩ := h
  refine evalNode_constraints hKind (?_ : (evalNode _ _ selects _ info.pred).2 = true ∨ _)
  rw [← hEval]
  exact hCounts

/-- A submitted node stays what it is. -/
theorem Does.nodes_keep {info : NodeInfo P} (h : Does t sh pc l sh' pc')
    (hNode : sh.nodes[n]? = some info) : sh'.nodes[n]? = some info := by
  cases h.effect with
  | quiet hNodes _ _ _ => rwa [hNodes]
  | submit _ _ _ _ hShared _ =>
    rw [hShared]
    exact List.getElem?_append_left (List.getElem?_eq_some_iff.mp hNode).1 ▸ hNode
  | constrain _ _ hNodes _ _ => rwa [hNodes]
  | consume _ _ _ _ hShared _ => rwa [hShared]
  | evaluate _ _ _ _ _ _ _ _ _ _ hShared _ => rwa [hShared]

/-- Unwinding no constraint while the node is current, the constraints stay secured. -/
theorem Tracked.secured_step (hT : Tracked s) (h : Does t s.shared (s.pc t) l sh' pc')
    (hUnwind : l = .unwind → ¬ Current s n) (hSecured : Current s n → Secured s n)
    (hCurrent : Current (s.put t sh' pc') n) : Secured (s.put t sh' pc') n := by
  rcases h.current hCurrent with hOld | hSubmits
  · obtain ⟨info, hNode, hInstalled⟩ := hSecured hOld
    refine ⟨info, h.nodes_keep hNode, hInstalled.trans (Eq.symm ?_)⟩
    cases h.effect with
    | quiet _ hConstraints _ _ => exact hConstraints
    | submit _ _ _ _ hShared _ => rw [State.put_shared, hShared]
    | constrain hMain hPc _ _ _ =>
      subst hMain
      rcases hPc with hPc | ⟨hLabel, _⟩
      · exact absurd hOld (hT.not_current (by rw [hPc]; rfl) (by rw [hPc]; rfl))
      · exact absurd hOld (hUnwind hLabel)
    | consume _ _ _ _ hShared _ => rw [State.put_shared, hShared]
    | evaluate _ _ _ _ _ _ _ _ _ _ hShared _ => rw [State.put_shared, hShared]
  · obtain ⟨kind, pred, hNodes⟩ := hSubmits.nodes
    exact ⟨_, by rw [State.put_shared, hNodes, hSubmits.number, List.getElem?_concat_length],
      hSubmits.others.1.symm⟩

/-- The evaluations on the nodes in `N` are meant as those nodes were submitted. -/
def Recorded (N : Nat → Prop) (s : State P Trans) : Prop :=
  ∀ e ∈ s.shared.log, N e.node → ∃ info, s.shared.nodes[e.node]? = some info ∧ e.Meant info

/-- **Step lemma of the log**: an entry for a node that counts was made under the
constraints the node was submitted with, as these are secured while the node is current. -/
theorem Recorded.step {N : Nat → Prop} (hR : Recorded N s) (h : Does t s.shared (s.pc t) l sh' pc')
    (hSecured : ∀ n, N n → Current s n → Secured s n) : Recorded N (s.put t sh' pc') := by
  intro e he hN
  have hOld : e ∈ s.shared.log → ∃ info, sh'.nodes[e.node]? = some info ∧ e.Meant info := by
    intro hMem
    obtain ⟨info, hNode, hMeant⟩ := hR e hMem hN
    exact ⟨info, h.nodes_keep hNode, hMeant⟩
  cases h.effect with
  | quiet _ _ _ hLog => exact hOld (hLog ▸ he)
  | submit _ _ _ _ hShared _ => exact hOld (by rwa [State.put_shared, hShared] at he)
  | constrain _ _ _ _ hLog => exact hOld (hLog ▸ he)
  | consume _ _ _ _ hShared _ => exact hOld (by rwa [State.put_shared, hShared] at he)
  | evaluate o n info holds selects e' hNode hEval hEntry hPc hShared _ =>
    rw [State.put_shared, hShared] at he
    rcases List.mem_append.mp he with hMem | hNew
    · exact hOld hMem
    · obtain rfl := List.mem_singleton.mp hNew
      have hThis : e.node = n := by rw [hEntry]
      have hHolds : e.holds = holds := by rw [hEntry]
      obtain ⟨info', hNode', hInstalled⟩ :=
        hSecured n (hThis ▸ hN) (Or.inr ⟨t, by rw [hPc]; rfl⟩)
      obtain rfl : info = info' := Option.some.inj (hNode.symm.trans hNode')
      refine ⟨info, h.nodes_keep (hThis ▸ hNode), selects, ?_⟩
      rw [hEval, hInstalled, hHolds]

/-- No constraint is unwound while a node is current. -/
def unwindsUnused (s : State P Trans) (i : Nat × Label) : Prop :=
  i.2 = .unwind → ∀ n, ¬ Current s n

theorem secured (h : Runs.ReachableUnder (system P Trans) unwindsUnused s) :
    ∀ n, Current s n → Secured s n := by
  refine h.invariant_of (P := fun s => ∀ n, Current s n → Secured s n) (fun _ => tracked) ?_ ?_
  · rintro _ rfl n hCurrent
    cases tracked_start.last n hCurrent
  · rintro s ⟨t, l⟩ _ hT hSecured hOk ⟨hDoes⟩ n hCurrent
    exact hT.secured_step hDoes (fun hLabel => hOk hLabel n) (hSecured n) hCurrent

/-- **Main result.** While no exception removes constraints from under a current node, every
transition that is let through or consumes a node satisfies the constraints the node was
submitted with. The log records each of them with the node that was current at the time. -/
theorem constraints_inForce (h : Runs.ReachableUnder (system P Trans) unwindsUnused s) :
    InForce s := by
  have hRecorded : Recorded (fun _ => True) s := by
    refine h.invariant_of (fun _ => secured) ?_ ?_
    · rintro _ rfl e he
      cases he
    · rintro s ⟨t, l⟩ _ hSecured hR _ ⟨hDoes⟩
      exact hR.step hDoes fun n _ => hSecured n
  intro e he hCounts
  obtain ⟨info, hNode, hMeant⟩ := hRecorded e he trivial
  exact ⟨info, hNode, hMeant.inForce hCounts⟩

/-- Two predicates: the constraint `true` is installed, the node's predicate is `false`. -/
def offered : Shared Bool Unit where
  ref := .full 0
  owner := none
  sem := 1
  constraints := [true]
  nodes := [⟨.runThrough, false, [true]⟩]
  mutex := none
  casts := 0
  live := [1]
  reasons := []
  offers := update (fun _ => 0) 1 1
  consumed := []
  herald := none
  log := []

/-- A `RUN_THROUGH` is submitted, and a test thread arrives with a transition. -/
theorem reach_offered (ok : State Bool Unit → Nat × Label → Prop)
    (hOk : ∀ s t, s.pc t ≠ .broadcast → ok s (t, .step)) :
    ∃ pc, Runs.ReachableUnder (system Bool Unit) ok ⟨offered, pc⟩ ∧
      pc main = .acquire (.await 0) ∧ pc 1 = .acquire (.controlled ⟨0, ()⟩) ∧
      ∀ u, u ≠ main → u ≠ 1 → pc u = .fresh := by
  have h0 : Runs.ReachableUnder (system Bool Unit) ok .start := .init rfl
  have h1 := h0.step (hOk _ 0 nofun) (.mk (.install rfl true))
  have h2 := h1.step (hOk _ 0 nofun) (.mk (.submit rfl .runThrough false))
  have h3 := h2.step (hOk _ 0 nofun) (.mk .exchange)
  have h4 := h3.step (hOk _ 0 nofun) (.mk (.onLock rfl rfl))
  have h5 := h4.step (hOk _ 0 nofun) (.mk (.submitted rfl))
  have h6 := h5.step (hOk _ 0 nofun) (.mk (.unlock rfl rfl))
  have h7 := h6.step (hOk _ 0 nofun) (.mk .store)
  have h8 := h7.step (hOk _ 0 nofun) (.mk .signal)
  have h9 := h8.step (hOk _ 1 nofun) (.mk (.create (by decide)))
  have h10 := h9.step (hOk _ 1 nofun) (.mk (.offer (by decide) ()))
  refine ⟨_, h10, rfl, rfl, fun u hMain hOne => ?_⟩
  have hZero : u ≠ 0 := hMain
  simp [State.put, State.start, hMain, hZero, hOne]

/-- A `RUN_THROUGH` is submitted under a constraint, and a transition that satisfies it is
let through. -/
theorem constraints_inForce_one : ∃ s : State Bool Unit, s.shared.log.length = 1 ∧ InForce s := by
  obtain ⟨pc, h, _, hOne, _⟩ := reach_offered unwindsUnused fun _ _ _ hLabel => nomatch hLabel
  have h1 := reach_put h hOne .exchange (fun hLabel => nomatch hLabel)
  have h2 := reach_put (t := 1) h1 rfl (.onLock rfl rfl) (fun hLabel => nomatch hLabel)
  have h3 := reach_put (t := 1) h2 rfl (.evaluate (fun _ => true) false rfl) (fun hLabel => nomatch hLabel)
  exact ⟨_, rfl, constraints_inForce h3⟩

/-- Nothing holds of the test thread's transition, but once the main thread has given up the
wait and left the block, the transition is let through. -/
theorem constraints_not_inForce :
    ¬ ∀ s : State Bool Unit, Runs.Reachable (system Bool Unit) s → InForce s := by
  intro hAll
  obtain ⟨pc, h, hMain, hOne, _⟩ := reach_offered (fun _ _ => True) fun _ _ _ => trivial
  have h1 := reach_put h hMain .exchange trivial
  have h2 := reach_put (t := main) h1 rfl (.putBack rfl nofun nofun) trivial
  have h3 := reach_put (t := main) h2 rfl (.waitTimeout rfl rfl) trivial
  have h4 := reach_put (t := main) h3 rfl (.unwind rfl (show [true] = [] ++ [true] from rfl)) trivial
  have h5 := reach_put (t := 1) h4 hOne .exchange trivial
  have h6 := reach_put (t := 1) h5 rfl (.onLock rfl rfl) trivial
  have h7 := reach_put (t := 1) h6 rfl (.evaluate (fun _ => false) false rfl) trivial
  obtain ⟨info, hNode, hHolds⟩ := hAll _ h7 _ (List.mem_singleton_self _) (Or.inl rfl)
  cases hNode
  cases hHolds nofun

end Protocol

end Concurrit.Model
