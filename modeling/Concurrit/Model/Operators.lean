import Concurrit.Model.Offers

/-!
# Concurrit — the meaning of `RUN_THROUGH` and `RUN_UNTIL`

What the two operators do to the transitions offered while their node is current, as
functions on the list of these transitions, and that the evaluations of every run in
which the node is consumed in time are what these functions say.
-/

namespace Concurrit.Model

open Function (update)

namespace Protocol

-- ---------------------------------------------------------------------------
-- The meaning of the operators
-- ---------------------------------------------------------------------------

section Meaning

variable {α : Type} {q r take consume : α → Bool}

/-- Of the transitions offered: those let through, and the one that consumes the node. -/
structure Outcome (α : Type) where
  passed : List α
  consumer : Option α
deriving DecidableEq

/-- Lets through what satisfies `q` up to the first that satisfies `r` as well, which consumes
the node and is let through itself if `last` says so. -/
def operatorMeaning (last : Bool) (q r : α → Bool) : List α → Outcome α
  | [] => ⟨[], none⟩
  | x :: xs =>
    if q x then
      if r x then ⟨if last then [x] else [], some x⟩
      else
        let rest := operatorMeaning last q r xs
        ⟨x :: rest.passed, rest.consumer⟩
    else operatorMeaning last q r xs

/-- `RUN_THROUGH(q, r)` -/
def throughMeaning (q r : α → Bool) : List α → Outcome α :=
  operatorMeaning true q r

/-- `RUN_UNTIL(q, r)` -/
def untilMeaning (q r : α → Bool) : List α → Outcome α :=
  operatorMeaning false q r

example : throughMeaning (· < 9) (· = 4) [1, 12, 3, 4, 5] = ⟨[1, 3, 4], some 4⟩ := by decide
example : untilMeaning (· < 9) (· = 4) [1, 12, 3, 4, 5] = ⟨[1, 3], some 4⟩ := by decide

/-- Nothing comes after an element that consumes, where no other one consumes before. -/
theorem eq_nil_of_consume {x : α} {xs : List α} (hConsume : consume x = true)
    (hFirst : (x :: xs).Pairwise fun e _ => consume e = false) : xs = [] := by
  refine List.eq_nil_iff_forall_not_mem.mpr fun y hy => ?_
  have hNot := (List.pairwise_cons.mp hFirst).1 y hy
  rw [hConsume] at hNot
  cases hNot

/-- The outcome of a list of evaluations, if each of them is decided by the same two
conditions and at most the last one consumes. -/
theorem outcome_eq {last : Bool} {es : List α} (hTake : ∀ e ∈ es, take e = (q e && (last || !r e)))
    (hConsume : ∀ e ∈ es, consume e = (q e && r e))
    (hFirst : es.Pairwise fun e _ => consume e = false) :
    (⟨es.filter take, es.find? consume⟩ : Outcome α) = operatorMeaning last q r es := by
  induction es with
  | nil => rfl
  | cons x xs ih =>
    have hRest := ih (fun e he => hTake e (List.mem_cons_of_mem _ he))
      (fun e he => hConsume e (List.mem_cons_of_mem _ he)) hFirst.of_cons
    have hx := hTake x List.mem_cons_self
    have hc := hConsume x List.mem_cons_self
    rw [operatorMeaning, ← hRest]
    cases hq : q x with
    | false => simp [hx, hc, hq]
    | true =>
      cases hr : r x with
      | false => simp [hx, hc, hq, hr]
      | true =>
        obtain rfl := eq_nil_of_consume (by rw [hc, hq, hr]; rfl) hFirst
        cases last <;> simp [hx, hc, hq, hr]

end Meaning

variable {P Trans : Type} {s s' : State P Trans} {sh sh' : Shared P Trans} {pc pc' : Pc P Trans}
  {t u n m : Nat} {l : Label} {o : Offer Trans}

-- ---------------------------------------------------------------------------
-- Evaluations and consumed nodes
-- ---------------------------------------------------------------------------

/-- The evaluations on nodes, and the nodes consumed. -/
structure Accounted (s : State P Trans) : Prop where
  logged    : ∀ e ∈ s.shared.log, e.node < s.shared.nodes.length
  sorted    : s.shared.log.Pairwise fun e e' => e.node ≤ e'.node
  evaluated : ∀ t o n take, s.pc t = .evaluated o n true take →
    ∃ e ∈ s.shared.log, e.node = n ∧ e.consume = true
  consumed  : ∀ n ∈ s.shared.consumed, ∃ e ∈ s.shared.log, e.node = n ∧ e.consume = true
  /-- after an evaluation that consumes the node, its thread consumes it -/
  consumes  : ∀ e ∈ s.shared.log, e.consume = true → e.node ∈ s.shared.consumed ∨
    s.pc e.thread = .evaluated e.offer e.node true e.take

theorem accounted_start : Accounted (State.start : State P Trans) := by
  refine ⟨nofun, List.Pairwise.nil, fun t o n take hPc => ?_, nofun, nofun⟩
  simp only [State.start] at hPc
  split at hPc <;> cases hPc

/-- Coming to a decision writes an entry. -/
theorem Does.log_of_evaluated {consume take : Bool} (h : Does t sh pc l sh' pc')
    (hPc' : pc' = .evaluated o n consume take) : sh'.log ≠ sh.log := by
  cases h
  case evaluate => simp
  case signal k =>
    cases k
    case ended =>
      simp only [Next.pc] at hPc'
      split at hPc' <;> cases hPc'
    all_goals cases hPc'
  case caught =>
    unfold Protocol.caught at hPc'
    dsimp only at hPc'
    split_ifs at hPc'
  case broadcast => split at hPc' <;> cases hPc'
  all_goals cases hPc'

theorem Does.consumes {take : Bool} (h : Does t sh pc l sh' pc')
    (hPc : pc = .evaluated o n true take) : sh'.consumed = n :: sh.consumed := by
  subst hPc
  cases h
  rfl

theorem Does.nodes_length (h : Does t sh pc l sh' pc') : sh.nodes.length ≤ sh'.nodes.length := by
  cases h.effect with
  | quiet hNodes _ _ _ => rw [hNodes]
  | submit _ _ _ _ hShared _ => simp [hShared]
  | constrain _ _ hNodes _ _ => rw [hNodes]
  | consume _ _ _ _ hShared _ => rw [hShared]
  | evaluate _ _ _ _ _ _ _ _ _ _ hShared _ => rw [hShared]

/-- **Step lemma of the evaluations**: they come in the order of the nodes, and each
consumed node has one that consumes it. -/
theorem Accounted.step (hA : Accounted s) (hT : Tracked s) (h : Does t s.shared (s.pc t) l sh' pc') :
    Accounted (s.put t sh' pc') := by
  have hLogged : ∀ e ∈ s.shared.log, e.node < sh'.nodes.length := fun e he =>
    Nat.lt_of_lt_of_le (hA.logged e he) h.nodes_length
  have hMem : ∀ n ∈ s.shared.consumed, n ∈ sh'.consumed := by
    intro n hn
    rcases h.consumed with hSame | ⟨_, _, _, _, _, hMore, _⟩
    · rwa [hSame]
    · rw [hMore]
      exact List.mem_cons_of_mem _ hn
  have hOld : ∀ n ∈ sh'.consumed, ∃ e ∈ s.shared.log, e.node = n ∧ e.consume = true := by
    intro n hn
    rcases h.consumed with hSame | ⟨o, m, take, hPc, _, hMore, _⟩
    · exact hA.consumed n (hSame ▸ hn)
    · rw [hMore] at hn
      rcases List.mem_cons.mp hn with rfl | hn
      · exact hA.evaluated t o n take hPc
      · exact hA.consumed n hn
  have hConsumes : ∀ e ∈ s.shared.log, e.consume = true → e.node ∈ sh'.consumed ∨
      (s.put t sh' pc').pc e.thread = .evaluated e.offer e.node true e.take := by
    intro e he hConsume
    refine (hA.consumes e he hConsume).elim (fun hn => Or.inl (hMem _ hn)) (fun hPc => ?_)
    by_cases hThread : e.thread = t
    · rw [hThread] at hPc
      exact Or.inl (by simp [h.consumes hPc])
    · rw [State.put_of_ne _ _ _ hThread]
      exact Or.inr hPc
  rcases h.log with hLog | ⟨e, hLog, rfl, _, hPc, hPc'⟩
  · refine ⟨by rwa [State.put_shared, hLog], by rw [State.put_shared, hLog]; exact hA.sorted,
      fun u o n take hu => ?_, by rwa [State.put_shared, hLog], by rwa [State.put_shared, hLog]⟩
    by_cases hut : u = t
    · subst hut
      rw [State.put_self] at hu
      exact absurd hLog (h.log_of_evaluated hu)
    · rw [State.put_of_ne _ _ _ hut] at hu
      rw [State.put_shared, hLog]
      exact hA.evaluated u o n take hu
  · have hLast := hT.last e.node (Or.inr ⟨e.thread, by rw [hPc]; rfl⟩)
    have hMore : ∀ d ∈ s.shared.log, d ∈ (s.put e.thread sh' pc').shared.log := fun d hd => by
      rw [State.put_shared, hLog]
      exact List.mem_append_left _ hd
    refine ⟨fun d hd => ?_, ?_, fun u o n take hu => ?_, fun n hn => ?_, fun d hd hConsume => ?_⟩
    · rw [State.put_shared, hLog] at hd
      rcases List.mem_append.mp hd with hd | hd
      · exact hLogged d hd
      · obtain rfl := List.mem_singleton.mp hd
        exact Nat.lt_of_lt_of_le (Nat.lt_of_succ_le (Nat.le_of_eq hLast)) h.nodes_length
    · rw [State.put_shared, hLog, List.pairwise_append]
      refine ⟨hA.sorted, List.pairwise_singleton .., fun d hd e' he' => ?_⟩
      obtain rfl := List.mem_singleton.mp he'
      have hLt := hA.logged d hd
      rw [← hLast] at hLt
      exact Nat.le_of_lt_succ hLt
    · by_cases hut : u = e.thread
      · subst hut
        rw [State.put_self, hPc'] at hu
        injection hu with _ hNode hConsume _
        refine ⟨e, ?_, hNode, hConsume⟩
        rw [State.put_shared, hLog]
        exact List.mem_append_right _ (List.mem_singleton_self _)
      · rw [State.put_of_ne _ _ _ hut] at hu
        obtain ⟨d, hd, hd'⟩ := hA.evaluated u o n take hu
        exact ⟨d, hMore d hd, hd'⟩
    · obtain ⟨d, hd, hd'⟩ := hOld n hn
      exact ⟨d, hMore d hd, hd'⟩
    · rw [State.put_shared, hLog] at hd
      rcases List.mem_append.mp hd with hd | hd
      · exact hConsumes d hd hConsume
      · obtain rfl := List.mem_singleton.mp hd
        rw [State.put_self, hPc', hConsume]
        exact Or.inr rfl

theorem accounted {ok : State P Trans → Nat × Label → Prop}
    (h : Runs.ReachableUnder (system P Trans) ok s) : Accounted s := by
  refine h.invariant_of (fun _ => tracked) (fun _ hInit => hInit ▸ accounted_start) ?_
  rintro s ⟨t, l⟩ _ hT hA _ ⟨hDoes⟩
  exact hA.step hT hDoes

-- ---------------------------------------------------------------------------
-- One node, from its submission on
-- ---------------------------------------------------------------------------

/-- The main thread does not time out while node `n` is current. -/
def inTime (n : Nat) (s : State P Trans) (i : Nat × Label) : Prop :=
  i = (main, .timeout) → ¬ Current s n

/-- The main thread leaves the script by a timeout or an abort, when it finds the end node,
or when it waits for no node. -/
theorem Does.leaves (h : Does main sh pc l sh' pc') (hScript : pc.inScript = true)
    (hOut : pc'.inScript = false) :
    l = .timeout ∨ pc' = .aborted ∨ pc.awaits = none ∨ ∃ c, pc = .acquired c .endNode := by
  cases h
  case waitTimeout => exact Or.inl rfl
  case retryTimeout => exact Or.inl rfl
  case refused c _ _ hAwait _ _ =>
    refine Or.inr (Or.inr (Or.inl ?_))
    cases c <;> first | rfl | exact absurd rfl (hAwait _)
  case scriptEnded => exact Or.inr (Or.inr (Or.inr ⟨_, rfl⟩))
  case signal k => cases k <;> first | exact Bool.noConfusion hScript | exact Bool.noConfusion hOut
  all_goals first
    | exact Or.inr (Or.inr (Or.inl rfl))
    | exact Or.inr (Or.inl rfl)
    | exact Bool.noConfusion (hScript.symm.trans hOut)

/-- What holds of node `n` in the runs in which the main thread waits long enough for it. -/
structure Served (n : Nat) (s : State P Trans) : Prop where
  scripted : Current s n → (s.pc main).inScript = true
  recorded : Recorded (· = n) s
  /-- an evaluation that consumes the node is the last on it -/
  first    : s.shared.log.Pairwise fun e e' => e.node = n → e'.node = n → e.consume = false

theorem served_start : Served n (State.start : State P Trans) := by
  refine ⟨fun hCurrent => ?_, nofun, List.Pairwise.nil⟩
  cases tracked_start.last n hCurrent

/-- The main thread does not leave the script while the node is current. -/
theorem Served.scripted_step (hS : Served n s) (hT : Tracked s)
    (h : Does t s.shared (s.pc t) l sh' pc') (hOk : inTime n s (t, l))
    (hCurrent : Current (s.put t sh' pc') n) : ((s.put t sh' pc').pc main).inScript = true := by
  by_cases hut : main = t
  · subst hut
    rw [State.put_self]
    rcases h.current hCurrent with hOld | hSubmits
    · have hScript := hS.scripted hOld
      have hL := hT.locked (Pc.late_of_inScript hScript)
      rw [← Bool.not_eq_false]
      intro hOut
      rcases h.leaves hScript hOut with hTime | hAborted | hNone | ⟨c, hPc⟩
      · exact hOk (by rw [hTime]) hOld
      · exact hOk (by rw [hL.not_aborted h hAborted]) hOld
      · exact hT.not_current hScript hNone hOld
      · exact hL.not_current_of_ended (hT.ended (Pc.late_of_inScript hScript) _ c hPc) hOld
    · rw [hSubmits.place]
      rfl
  · rw [State.put_of_ne _ _ _ hut]
    refine hS.scripted ((h.current hCurrent).resolve_right fun hSubmits => ?_)
    exact hut hSubmits.isMain.symm

/-- No evaluation comes after the one that consumes the node. -/
theorem Served.first_step (hS : Served n s) (hT : Tracked s) (hA : Accounted s)
    (h : Does t s.shared (s.pc t) l sh' pc') :
    sh'.log.Pairwise fun e e' => e.node = n → e'.node = n → e.consume = false := by
  rcases h.log with hLog | ⟨e, hLog, rfl, _, hPc, _⟩
  · rw [hLog]
    exact hS.first
  · rw [hLog, List.pairwise_append]
    refine ⟨hS.first, List.pairwise_singleton .., fun d hd e' he' hd' hNode => ?_⟩
    obtain rfl := List.mem_singleton.mp he'
    have hThis : (s.pc e'.thread).node = some n := by rw [hPc, hNode]; rfl
    have hCurrent : Current s n := Or.inr ⟨_, hThis⟩
    have hLate := Pc.late_of_inScript (hS.scripted hCurrent)
    rw [← Bool.not_eq_true]
    intro hConsume
    rcases hA.consumes d hd hConsume with hn | hBusy
    · exact hT.unconsumed hLate n hCurrent (hd' ▸ hn)
    · -- the thread of the older evaluation has the reference as well
      have hOne := (hT.locked hLate).one d.thread e'.thread (by rw [hBusy]; rfl)
        (Pc.holds_of_node hThis)
      rw [hOne, hPc] at hBusy
      cases hBusy

theorem served (h : Runs.ReachableUnder (system P Trans) (inTime n) s) : Served n s := by
  refine h.invariant_of (Q := fun s => Tracked s ∧ Accounted s) (fun _ hR => ⟨tracked hR, accounted hR⟩)
    (fun _ hInit => hInit ▸ served_start) ?_
  rintro s ⟨t, l⟩ _ ⟨hT, hA⟩ hS hOk ⟨hDoes⟩
  refine ⟨hS.scripted_step hT hDoes hOk, hS.recorded.step hDoes ?_, hS.first_step hT hA hDoes⟩
  rintro _ rfl hCurrent
  exact hT.installed (hS.scripted hCurrent) _ hCurrent

-- ---------------------------------------------------------------------------
-- The operators
-- ---------------------------------------------------------------------------

/-- The evaluations on node `n`. -/
def State.evaluations (s : State P Trans) (n : Nat) : List (Entry P Trans) :=
  s.shared.log.filter (·.node = n)

def State.outcome (s : State P Trans) (n : Nat) : Outcome (Entry P Trans) :=
  ⟨(s.evaluations n).filter (·.take), (s.evaluations n).find? (·.consume)⟩

/-- The constraints the node was submitted with hold of the transition. -/
def NodeInfo.constraint (info : NodeInfo P) (e : Entry P Trans) : Bool :=
  info.installed.all e.holds

/-- The predicate of the node holds of the transition. -/
def NodeInfo.predicate (info : NodeInfo P) (e : Entry P Trans) : Bool :=
  e.holds info.pred

/-- Node `n` does what its operator means. -/
structure Means (s : State P Trans) (n : Nat) (info : NodeInfo P) : Prop where
  runThrough : info.kind = .runThrough →
    s.outcome n = throughMeaning info.constraint info.predicate (s.evaluations n)
  runUntil : info.kind = .runUntil →
    s.outcome n = untilMeaning info.constraint info.predicate (s.evaluations n)
  /-- the node is consumed for an offered transition only -/
  isConsumed : n ∈ s.shared.consumed → (s.outcome n).consumer ≠ none
  /-- it is consumed then, and no transition is offered to it any more -/
  consumer : ∀ e, (s.outcome n).consumer = some e → (s.evaluations n).getLast? = some e ∧
    (n ∈ s.shared.consumed ∨ s.pc e.thread = .evaluated e.offer n true e.take)
  /-- a transition that is let through is not offered again -/
  taken : ∀ e ∈ s.evaluations n, e.take = true → (s.pc e.thread).offer ≠ some e.offer ∧
    ∀ before after, s.evaluationsBy e.thread = before ++ e :: after →
      ∀ e' ∈ after, e.offer.number < e'.offer.number
  /-- any other is offered again, unchanged, and to a later node if it has consumed this one,
  unless the execution ends -/
  left : (s.pc main).late = false → ∀ e ∈ s.evaluations n, e.take = false →
    ∀ before after, s.evaluationsBy e.thread = before ++ e :: after →
      (after = [] → (s.pc e.thread).offer = some e.offer ∨ Ended s) ∧
      ∀ e' rest, after = e' :: rest → e'.offer = e.offer ∧ (e.consume = true → n < e'.node)

theorem State.mem_evaluations {e : Entry P Trans} :
    e ∈ s.evaluations n ↔ e ∈ s.shared.log ∧ e.node = n := by
  simp [State.evaluations]

theorem Served.evaluations_first (hS : Served n s) :
    (s.evaluations n).Pairwise fun e _ => e.consume = false := by
  refine (hS.first.filter _).imp_of_mem fun {e e'} he he' h => ?_
  exact h (State.mem_evaluations.mp he).2 (State.mem_evaluations.mp he').2

theorem Served.meant {info : NodeInfo P} (hS : Served n s) (hNode : s.shared.nodes[n]? = some info)
    {e : Entry P Trans} (he : e ∈ s.evaluations n) : e.Meant info := by
  obtain ⟨hMem, rfl⟩ := State.mem_evaluations.mp he
  obtain ⟨info', hNode', hMeant⟩ := hS.recorded e hMem rfl
  obtain rfl : info = info' := Option.some.inj (hNode.symm.trans hNode')
  exact hMeant

/-- The evaluation of a node with a predicate, as its operator has it. -/
theorem Entry.Meant.outcome {e : Entry P Trans} {info : NodeInfo P} (h : e.Meant info) :
    (info.kind = .runThrough → e.take = info.constraint e) ∧
    (info.kind = .runUntil → e.take = (info.constraint e && !info.predicate e)) ∧
    (info.kind ≠ .selectThread → e.consume = (info.constraint e && info.predicate e)) := by
  obtain ⟨selects, hEval⟩ := h
  obtain ⟨hConsume, hTake⟩ := Prod.mk.inj hEval
  rw [hConsume, hTake]
  simp only [NodeInfo.constraint, NodeInfo.predicate]
  cases info.kind <;> cases info.installed.all e.holds <;> simp

theorem Served.outcome_eq {info : NodeInfo P} (hS : Served n s)
    (hNode : s.shared.nodes[n]? = some info) (last : Bool) (hKind : info.kind ≠ .selectThread)
    (hTake : ∀ e ∈ s.evaluations n, e.take = (info.constraint e && (last || !info.predicate e))) :
    s.outcome n = operatorMeaning last info.constraint info.predicate (s.evaluations n) :=
  Protocol.outcome_eq hTake (fun _ he => (hS.meant hNode he).outcome.2.2 hKind)
    hS.evaluations_first

theorem Accounted.consumer (hA : Accounted s) (hConsumed : n ∈ s.shared.consumed) :
    (s.outcome n).consumer ≠ none := by
  obtain ⟨e, he, hNode, hConsume⟩ := hA.consumed n hConsumed
  intro hNone
  have hNot := List.find?_eq_none.mp hNone e (State.mem_evaluations.mpr ⟨he, hNode⟩)
  exact hNot hConsume

theorem Served.consumer_last (hS : Served n s) {e : Entry P Trans}
    (hConsumer : (s.outcome n).consumer = some e) : (s.evaluations n).getLast? = some e := by
  obtain ⟨before, after, hSplit⟩ := List.append_of_mem (List.mem_of_find?_eq_some hConsumer)
  have hFirst := hS.evaluations_first
  rw [hSplit, List.pairwise_append] at hFirst
  rw [hSplit, eq_nil_of_consume (by simpa using List.find?_some hConsumer) hFirst.2.1]
  simp

/-- **Main result.** In every run in which the main thread does not time out while the node
is current, the node does what its operator means: it lets through what the operator lets
through, is consumed by the transition that the operator waits for, and leaves all others to
be offered again. -/
theorem operators_mean {info : NodeInfo P}
    (h : Runs.ReachableUnder (system P Trans) (inTime n) s)
    (hNode : s.shared.nodes[n]? = some info) : Means s n info := by
  have hS := served h
  have hA := accounted h
  have hN := numbered h
  refine ⟨fun hKind => ?_, fun hKind => ?_, hA.consumer, fun e he => ?_, fun e he hTake => ?_,
    fun hLate e he hTake before after hBy => ?_⟩
  · refine hS.outcome_eq hNode true (by simp [hKind]) fun e he => ?_
    rw [(hS.meant hNode he).outcome.1 hKind]
    simp
  · exact hS.outcome_eq hNode false (by simp [hKind]) fun e he => (hS.meant hNode he).outcome.2.1 hKind
  · obtain ⟨hMem, hThis⟩ := State.mem_evaluations.mp (List.mem_of_find?_eq_some he)
    refine ⟨hS.consumer_last he, ?_⟩
    rw [← hThis]
    exact hA.consumes e hMem (by simpa using List.find?_some he)
  · have hMem := (State.mem_evaluations.mp he).1
    refine ⟨fun hOffer => ?_, fun before after hBy e' he' => ?_⟩
    · rw [(hN.refused _ _ hOffer e hMem rfl rfl).2] at hTake
      cases hTake
    · have hThread : e'.thread = e.thread := by
        have hAfter : e' ∈ s.evaluationsBy e.thread := by rw [hBy]; simp [he']
        simpa using (List.mem_filter.mp hAfter).2
      have hLater : (s.evaluationsBy e.thread).Pairwise _ := hN.later.filter _
      rw [hBy, List.pairwise_append, List.pairwise_cons] at hLater
      exact hLater.2.1.1 e' he' hThread.symm hTake
  · have hR := reoffered h hLate
    refine ⟨?_, ?_⟩
    · rintro rfl
      exact hR.still e.thread e (by simp [hBy]) hTake
    · rintro e' rest rfl
      have hChain := hR.again e.thread
      have hSorted : (s.evaluationsBy e.thread).Pairwise _ := hA.sorted.filter _
      have hFirst : (s.evaluationsBy e.thread).Pairwise _ := hS.first.filter _
      rw [hBy, List.pairwise_append, List.pairwise_cons] at hSorted hFirst
      rw [hBy, List.isChain_append_cons_cons] at hChain
      have hThis := (State.mem_evaluations.mp he).2
      refine ⟨hChain.2.1 hTake, fun hConsume => ?_⟩
      have hLe := hSorted.2.1.1 e' List.mem_cons_self
      rw [hThis] at hLe
      refine Nat.lt_of_le_of_ne hLe fun hEq => ?_
      rw [hFirst.2.1.1 e' List.mem_cons_self hThis hEq.symm] at hConsume
      cases hConsume

/-- One node is consumed, by a transition that satisfies its predicate. -/
theorem operators_mean_one : ∃ (s : State Bool Unit) (info : NodeInfo Bool),
    s.shared.consumed = [0] ∧ Means s 0 info := by
  obtain ⟨pc, h, _, hOne, _⟩ := reach_offered (inTime 0) fun _ _ _ hLabel => nomatch hLabel
  have h1 := reach_put (t := 1) h hOne .exchange (fun hLabel => nomatch hLabel)
  have h2 := reach_put (t := 1) h1 rfl (.onLock rfl rfl) (fun hLabel => nomatch hLabel)
  have h3 := reach_put (t := 1) h2 rfl (.evaluate (fun _ => true) false rfl)
    (fun hLabel => nomatch hLabel)
  have h4 := reach_put (t := 1) h3 rfl .consume (fun hLabel => nomatch hLabel)
  exact ⟨_, ⟨.runThrough, false, [true]⟩, rfl, operators_mean h4 rfl⟩

end Protocol

end Concurrit.Model
