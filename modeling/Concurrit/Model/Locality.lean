import Mathlib.Data.List.Induction
import Concurrit.Model.AuxState

/-!
# Concurrit — locality of the auxiliary state

What the predicates of a thread see is a function of `facts`, the entries of that
thread. `tracks` says that the facts of a thread are always those its own events
since its previous finished transition leave, whatever the other threads do.
-/

namespace Concurrit.Model

open Function (update)

namespace Aux

open Ipc (THREADID ADDRINT INVALID_THREADID)

variable {s s' : State} {t u : THREADID} {aux aux' : AuxState} {o : AuxOp} {e : Event}
  {act : Act}

-- ---------------------------------------------------------------------------
-- The facts of a thread
-- ---------------------------------------------------------------------------

inductive Kind where
  | reads | writes | calls | enters | returns
deriving DecidableEq, Repr

/-- What the tables hold for one thread. -/
structure Facts where
  recorded : Kind → ADDRINT → Bool
  hit : Bool
  pc : Int32

namespace Facts

/-- Nothing is recorded; the program counter is not reset. -/
def Empty (f : Facts) : Prop := (∀ k x, f.recorded k x = false) ∧ f.hit = false

def record (f : Facts) (k : Kind) (x : ADDRINT) (v : Bool) : Facts :=
  { f with recorded := fun k' x' => if k' = k ∧ x' = x then v else f.recorded k' x' }

theorem ext_of {f g : Facts} (hRec : ∀ k x, f.recorded k x = g.recorded k x)
    (hHit : f.hit = g.hit) (hPc : f.pc = g.pc) : f = g := by
  obtain ⟨r, h, p⟩ := f
  obtain rfl : r = _ := funext fun k => funext fun x => hRec k x
  simp_all

end Facts

def AuxState.facts (aux : AuxState) (t : THREADID) : Facts where
  recorded
    | .reads, x => aux.Reads.isset x t
    | .writes, x => aux.Writes.isset x t
    | .calls, x => aux.CallsTo.isset x t
    | .enters, x => aux.Enters.isset x t
    | .returns, x => aux.Returns.isset x t
  hit := aux.AtPc.isset t
  pc := aux.Pc.get t

/-- What an access does to the facts of its thread. -/
def AuxOp.effect (f : Facts) : AuxOp → Facts
  | setReads x size => f.record .reads x (decide (size ≠ 0))
  | setWrites x size => f.record .writes x (decide (size ≠ 0))
  | setEnters x => f.record .enters x true
  | setReturns x => f.record .returns x true
  | setPc pc => { f with pc := pc }
  | setAtPc => { f with hit := true }
  | _ => f

section Effect

variable (f : Facts) (x : ADDRINT) (size : UInt32) (pc : Int32)

@[simp] theorem AuxOp.effect_setReads :
    AuxOp.effect f (setReads x size) = f.record .reads x (decide (size ≠ 0)) := rfl

@[simp] theorem AuxOp.effect_setWrites :
    AuxOp.effect f (setWrites x size) = f.record .writes x (decide (size ≠ 0)) := rfl

@[simp] theorem AuxOp.effect_setEnters :
    AuxOp.effect f (setEnters x) = f.record .enters x true := rfl

@[simp] theorem AuxOp.effect_setReturns :
    AuxOp.effect f (setReturns x) = f.record .returns x true := rfl

@[simp] theorem AuxOp.effect_setPc : AuxOp.effect f (setPc pc) = { f with pc := pc } := rfl

@[simp] theorem AuxOp.effect_setAtPc : AuxOp.effect f setAtPc = { f with hit := true } := rfl

@[simp] theorem AuxOp.effect_setCallsFrom : AuxOp.effect f (setCallsFrom x) = f := rfl

@[simp] theorem AuxOp.effect_setCallsTo : AuxOp.effect f (setCallsTo x) = f := rfl

@[simp] theorem AuxOp.effect_setArg0 (v : ADDRINT) : AuxOp.effect f (setArg0 x v) = f := rfl

@[simp] theorem AuxOp.effect_setArg1 (v : ADDRINT) : AuxOp.effect f (setArg1 x v) = f := rfl

@[simp] theorem AuxOp.effect_setRetVal (v : ADDRINT) : AuxOp.effect f (setRetVal x v) = f := rfl

@[simp] theorem AuxOp.effect_incInFunc : AuxOp.effect f (incInFunc x) = f := rfl

@[simp] theorem AuxOp.effect_incNumInFunc : AuxOp.effect f (incNumInFunc x) = f := rfl

@[simp] theorem AuxOp.effect_setEnds : AuxOp.effect f setEnds = f := rfl

end Effect

/-- **An access of a thread** has its effect on the facts of that thread. The setters of
`FuncCall` are the exception: they pass the thread as the value, so that their entry belongs
to no thread. -/
theorem facts_apply_self (hT : t ≠ INVALID_THREADID) (h : o.apply t aux = some aux') :
    aux'.facts t = o.effect (aux.facts t) := by
  cases o <;> simp only [AuxOp.apply, Option.map_eq_some_iff] at h
  case setReads | setWrites | setEnters | setReturns =>
    obtain ⟨v, hv, rfl⟩ := h
    refine Facts.ext_of (fun k y => ?_) rfl rfl
    cases k <;> simp [Facts.record, AuxState.facts, AuxVar1.isset_set_self hv]
  -- here the entry is made for the invalid thread
  case setCallsFrom | setCallsTo =>
    obtain ⟨v, hv, rfl⟩ := h
    refine Facts.ext_of (fun k y => ?_) rfl rfl
    cases k <;> simp [AuxState.facts, AuxVar1.isset_set_of_ne hv hT]
  case setPc pc =>
    obtain rfl := Option.some.inj h
    exact Facts.ext_of (fun k y => rfl) rfl (AuxVar0.get_set_self ..)
  case setAtPc =>
    obtain rfl := Option.some.inj h
    refine Facts.ext_of (fun k y => rfl) ?_ rfl
    simp [AuxState.facts, AuxVar0.isset, AuxVar0.get_set_self]
  -- counters are not among the facts
  case incInFunc | incNumInFunc =>
    simp only [Option.ite_none_left_eq_some, Option.map_eq_some_iff] at h
    obtain ⟨_, v, hv, rfl⟩ := h
    rfl
  case setEnds =>
    simp only [Option.ite_none_left_eq_some, Option.some.injEq] at h
    obtain ⟨_, rfl⟩ := h
    rfl
  all_goals
    obtain ⟨v, hv, rfl⟩ := h
    rfl

/-- **An access of another thread** does not change the facts, since every table has a map
of its own for each thread. -/
theorem facts_apply_of_ne (hT : t ≠ INVALID_THREADID) (hu : t ≠ u) (h : o.apply u aux = some aux') :
    aux'.facts t = aux.facts t := by
  cases o <;> simp only [AuxOp.apply, Option.map_eq_some_iff] at h
  case setReads | setWrites | setEnters | setReturns =>
    obtain ⟨v, hv, rfl⟩ := h
    refine Facts.ext_of (fun k y => ?_) rfl rfl
    cases k <;> simp [AuxState.facts, AuxVar1.isset_set_of_ne hv hu]
  case setCallsFrom | setCallsTo =>
    obtain ⟨v, hv, rfl⟩ := h
    refine Facts.ext_of (fun k y => ?_) rfl rfl
    cases k <;> simp [AuxState.facts, AuxVar1.isset_set_of_ne hv hT]
  case setPc pc =>
    obtain rfl := Option.some.inj h
    exact Facts.ext_of (fun k y => rfl) rfl (AuxVar0.get_set_of_ne _ _ hu)
  case setAtPc =>
    obtain rfl := Option.some.inj h
    refine Facts.ext_of (fun k y => rfl) ?_ rfl
    simp [AuxState.facts, AuxVar0.isset, AuxVar0.get_set_of_ne _ _ hu]
  case incInFunc | incNumInFunc =>
    simp only [Option.ite_none_left_eq_some, Option.map_eq_some_iff] at h
    obtain ⟨_, v, hv, rfl⟩ := h
    rfl
  case setEnds =>
    simp only [Option.ite_none_left_eq_some, Option.some.injEq] at h
    obtain ⟨_, rfl⟩ := h
    rfl
  all_goals
    obtain ⟨v, hv, rfl⟩ := h
    rfl

theorem facts_reset_self (aux : AuxState) (t : THREADID) : ((aux.Reset t).facts t).Empty := by
  refine ⟨fun k x => ?_, ?_⟩
  · cases k <;> simp [AuxState.facts, AuxState.Reset, AuxVar1.isset_reset_self]
  · simp [AuxState.facts, AuxState.Reset, AuxVar0.reset, AuxVar0.isset, AuxVar0.get_set_self]

theorem facts_reset_of_ne (aux : AuxState) (hu : t ≠ u) : (aux.Reset u).facts t = aux.facts t := by
  refine Facts.ext_of (fun k y => ?_) ?_ rfl
  · cases k <;> simp [AuxState.facts, AuxState.Reset, AuxVar1.isset_reset_of_ne hu]
  · simp [AuxState.facts, AuxState.Reset, AuxVar0.reset, AuxVar0.isset, AuxVar0.get_set_of_ne _ _ hu]

theorem facts_cleared (t : THREADID) : (AuxState.cleared.facts t).Empty := by
  refine ⟨fun k x => ?_, rfl⟩
  cases k <;> rfl

-- ---------------------------------------------------------------------------
-- The events of a thread and its facts
-- ---------------------------------------------------------------------------

/-- What a whole callback does to the facts of its thread, up to the transition. -/
def Event.effect (f : Facts) (e : Event) : Facts := e.before.foldl AuxOp.effect f

/-- The accesses a thread has still to make in its callback. -/
def Loc.pending : Loc → List AuxOp
  | .before _ ops => ops
  | .after ops => ops
  | _ => []

/-- The facts of a thread, once its callback is done, are those its events leave. -/
def Tracked (s : State) (t : THREADID) : Prop :=
  ∃ f : Facts, f.Empty ∧
    (s.loc t).pending.foldl AuxOp.effect (s.aux.facts t) = (raised t s.log).foldl Event.effect f

/-- The accesses after the transition leave the facts as they are. -/
theorem effect_after (e : Event) (t : THREADID) (aux : AuxState) (f : Facts) :
    (e.after t aux).foldl AuxOp.effect f = f := by
  cases e with
  | FuncReturn addr retval =>
    simp only [Event.after]
    split <;> rfl
  | _ => rfl

-- ---------------------------------------------------------------------------
-- Steps
-- ---------------------------------------------------------------------------

/-- The steps of a thread, one constructor a case. -/
inductive Stepped (s : State) (t : THREADID) : Act → State → Prop where
  | raise (x : Event) (hLoc : s.loc t = .idle) (hT : t ≠ INVALID_THREADID) :
      Stepped s t (.raise x)
        ⟨s.aux, update s.loc t (.before x x.before), (t, .raised x) :: s.log⟩
  | access {x a ops m} (hLoc : s.loc t = .before x (a :: ops))
      (hApply : a.apply t s.aux = some m) :
      Stepped s t .proceed ⟨m, update s.loc t (.before x ops), s.log⟩
  | enter {x} (hLoc : s.loc t = .before x []) (hCtl : x.controlled = true) :
      Stepped s t .proceed ⟨s.aux, update s.loc t (.transition x), s.log⟩
  | leave {x} (hLoc : s.loc t = .before x []) (hCtl : x.controlled = false) :
      Stepped s t .proceed ⟨s.aux, update s.loc t .idle, s.log⟩
  | resume {x} (hLoc : s.loc t = .finished x) :
      Stepped s t .proceed ⟨s.aux, update s.loc t (.after (x.after t s.aux)), s.log⟩
  | accessAfter {a ops m} (hLoc : s.loc t = .after (a :: ops))
      (hApply : a.apply t s.aux = some m) :
      Stepped s t .proceed ⟨m, update s.loc t (.after ops), s.log⟩
  | return (hLoc : s.loc t = .after []) :
      Stepped s t .proceed ⟨s.aux, update s.loc t .idle, s.log⟩
  | finish {x} (hLoc : s.loc t = .transition x) :
      Stepped s t .finish ⟨s.aux.Reset t, update s.loc t (.finished x), (t, .finished) :: s.log⟩

/-- The steps of a thread by the place it is at. -/
theorem step_cases (h : s.step t act = some s') : Stepped s t act s' := by
  cases act with
  | raise e =>
    simp only [State.step] at h
    split at h
    · rename_i hLoc
      simp only [Option.ite_none_left_eq_some, Option.some.injEq] at h
      obtain ⟨hT, rfl⟩ := h
      exact .raise e hLoc hT
    · cases h
  | finish =>
    simp only [State.step] at h
    split at h
    · rename_i e hLoc
      obtain rfl := Option.some.inj h
      exact .finish hLoc
    · cases h
  | proceed =>
    simp only [State.step] at h
    split at h
    · rename_i e o ops hLoc
      obtain ⟨aux, hApply, rfl⟩ := Option.map_eq_some_iff.mp h
      exact .access hLoc hApply
    -- the transition is controlled, or it is left at once
    · rename_i e hLoc
      obtain rfl := Option.some.inj h
      split
      · rename_i hCtl
        exact .enter hLoc hCtl
      · rename_i hCtl
        exact .leave hLoc (Bool.not_eq_true _ ▸ hCtl)
    · rename_i e hLoc
      obtain rfl := Option.some.inj h
      exact .resume hLoc
    · rename_i o ops hLoc
      obtain ⟨aux, hApply, rfl⟩ := Option.map_eq_some_iff.mp h
      exact .accessAfter hLoc hApply
    · rename_i hLoc
      obtain rfl := Option.some.inj h
      exact .return hLoc
    · cases h

/-- A step of another thread touches neither the place, nor the record, nor the tables of
this one. -/
theorem Stepped.other (h : Stepped s u act s') (hT : t ≠ INVALID_THREADID) (hu : t ≠ u) :
    s'.loc t = s.loc t ∧ raised t s'.log = raised t s.log ∧ s'.aux.facts t = s.aux.facts t := by
  have hu' : u ≠ t := fun h => hu h.symm
  cases h with
  | raise x => exact ⟨Function.update_of_ne hu .., by simp [raised, hu'], rfl⟩
  | access hLoc hApply => exact ⟨Function.update_of_ne hu .., rfl, facts_apply_of_ne hT hu hApply⟩
  | accessAfter hLoc hApply =>
    exact ⟨Function.update_of_ne hu .., rfl, facts_apply_of_ne hT hu hApply⟩
  | finish hLoc =>
    exact ⟨Function.update_of_ne hu .., by simp [raised, hu'], facts_reset_of_ne _ hu⟩
  | enter | leave | resume | «return» => exact ⟨Function.update_of_ne hu .., rfl, rfl⟩

/-- **Step lemma** for the facts: together with the accesses that are still ahead they are
always what the events raised so far amount to, beginning with none at the last reset. -/
theorem Stepped.tracked (h : Stepped s u act s') (hT : t ≠ INVALID_THREADID) (hTr : Tracked s t) :
    Tracked s' t := by
  by_cases hu : t = u
  · subst hu
    obtain ⟨f, hEmpty, hEq⟩ := hTr
    cases h with
    -- raising an event adds its accesses to those ahead
    | raise x hLoc =>
      refine ⟨f, hEmpty, ?_⟩
      rw [hLoc] at hEq
      simp only [Function.update_self, Loc.pending, raised, if_true, List.foldl_append]
      rw [← hEq]
      rfl
    -- an access moves from those ahead into the tables
    | access hLoc hApply =>
      refine ⟨f, hEmpty, ?_⟩
      rw [hLoc] at hEq
      simpa only [Function.update_self, Loc.pending, List.foldl_cons,
        facts_apply_self hT hApply] using hEq
    | accessAfter hLoc hApply =>
      refine ⟨f, hEmpty, ?_⟩
      rw [hLoc] at hEq
      simpa only [Function.update_self, Loc.pending, List.foldl_cons,
        facts_apply_self hT hApply] using hEq
    | resume hLoc =>
      refine ⟨f, hEmpty, ?_⟩
      rw [hLoc] at hEq
      simpa only [Function.update_self, Loc.pending, List.foldl_nil, effect_after] using hEq
    -- the reset at the end: the record begins anew
    | finish hLoc =>
      refine ⟨_, facts_reset_self s.aux t, ?_⟩
      simp only [Function.update_self, Loc.pending, raised, if_true, List.foldl_nil]
    | enter hLoc | leave hLoc | «return» hLoc =>
      refine ⟨f, hEmpty, ?_⟩
      rw [hLoc] at hEq
      simpa only [Function.update_self, Loc.pending] using hEq
  · obtain ⟨hLoc, hRaised, hFacts⟩ := h.other hT hu
    obtain ⟨f, hEmpty, hEq⟩ := hTr
    exact ⟨f, hEmpty, by rw [hLoc, hRaised, hFacts, hEq]⟩

/-- **Run lemma**: the facts of a thread are those its own events leave. -/
theorem tracked_reachable (h : Runs.Reachable system s) (hT : t ≠ INVALID_THREADID) :
    Tracked s t := by
  refine h.invariant (P := fun s => Tracked s t) ?_ ?_
  · rintro s rfl
    exact ⟨_, facts_cleared t, rfl⟩
  · intro s a s' hTr _ hStep
    exact (step_cases hStep).tracked hT hTr

-- ---------------------------------------------------------------------------
-- The events of a transition
-- ---------------------------------------------------------------------------

/-- The fact an event is about. -/
def Event.fact : Event → Option (Kind × ADDRINT)
  | MemRead addr _ => some (.reads, addr)
  | MemWrite addr _ => some (.writes, addr)
  | FuncCall _ addr_target _ _ => some (.calls, addr_target)
  | FuncEnter addr _ _ => some (.enters, addr)
  | FuncReturn addr _ => some (.returns, addr)
  | _ => none

/-- The address of an event is not null. -/
def Event.NonNull (e : Event) : Prop := ∀ k x, e.fact = some (k, x) → x ≠ 0

/-- The key of an access to one of the tables of facts. -/
def AuxOp.key : AuxOp → Option ADDRINT
  | setReads x _ => some x
  | setWrites x _ => some x
  | setCallsTo x => some x
  | setEnters x => some x
  | setReturns x => some x
  | _ => none

theorem key_of_apply (h : o.apply t aux = some aux') : o.key ≠ some 0 := by
  cases o <;> simp only [AuxOp.key, ne_eq, Option.some.injEq, reduceCtorEq, not_false_eq_true]
  all_goals
    simp only [AuxOp.apply, Option.map_eq_some_iff] at h
    obtain ⟨v, hv, _⟩ := h
    exact AuxVar1.key_of_set hv

theorem Event.nonNull_of_before (h : ∀ o ∈ e.before, o.key ≠ some 0) : e.NonNull := by
  intro k x hFact
  cases e <;> simp_all [Event.fact, Event.before, AuxOp.key]

/-- An event that does not lead to a transition, fully recorded. -/
def Event.Quiet (e : Event) : Prop := e.controlled = false ∧ e.NonNull

/-- The events since the previous transition: accesses to memory, and the event the thread
is at. -/
def Shaped (s : State) (t : THREADID) : Prop :=
  match s.loc t with
  | .idle => ∀ d ∈ raised t s.log, d.Quiet
  | .before e ops => ∃ done pre, raised t s.log = done ++ [e] ∧ (∀ d ∈ done, d.Quiet) ∧
      e.before = pre ++ ops ∧ ∀ o ∈ pre, o.key ≠ some 0
  | .transition e => ∃ done, raised t s.log = done ++ [e] ∧ (∀ d ∈ done, d.Quiet) ∧ e.NonNull
  | .finished _ => raised t s.log = []
  | .after _ => raised t s.log = []

/-- What is in the record of a thread fits the place it is at: the last event is the one it
is handling, and all events before it have been passed by. -/
theorem Stepped.shaped (h : Stepped s u act s') (hT : t ≠ INVALID_THREADID) (hSh : Shaped s t) :
    Shaped s' t := by
  by_cases hu : t = u
  · subst hu
    unfold Shaped at hSh
    cases h with
    | raise x hLoc =>
      rw [hLoc] at hSh
      simp only [Shaped, Function.update_self]
      exact ⟨_, [], by simp [raised], hSh, rfl, by simp⟩
    -- one more access of the event is done
    | @access x a ops m hLoc hApply =>
      rw [hLoc] at hSh
      obtain ⟨done, pre, hRaised, hDone, hOps, hPre⟩ := hSh
      simp only [Shaped, Function.update_self]
      refine ⟨done, pre ++ [a], hRaised, hDone, by simp [hOps], fun o ho => ?_⟩
      rcases List.mem_append.mp ho with ho | ho
      · exact hPre o ho
      · rw [List.mem_singleton.mp ho]
        exact key_of_apply hApply
    -- a controlled transition: all accesses before it are done
    | @enter x hLoc hCtl =>
      rw [hLoc] at hSh
      obtain ⟨done, pre, hRaised, hDone, hOps, hPre⟩ := hSh
      simp only [Shaped, Function.update_self]
      rw [List.append_nil] at hOps
      exact ⟨done, hRaised, hDone, Event.nonNull_of_before (hOps ▸ hPre)⟩
    -- not controlled: the event joins those passed by
    | @leave x hLoc hCtl =>
      rw [hLoc] at hSh
      obtain ⟨done, pre, hRaised, hDone, hOps, hPre⟩ := hSh
      simp only [Shaped, Function.update_self]
      rw [List.append_nil] at hOps
      intro d hd
      rw [hRaised] at hd
      rcases List.mem_append.mp hd with hd | hd
      · exact hDone d hd
      · rw [List.mem_singleton.mp hd]
        exact ⟨hCtl, Event.nonNull_of_before (hOps ▸ hPre)⟩
    | resume hLoc | accessAfter hLoc =>
      rw [hLoc] at hSh
      simpa only [Shaped, Function.update_self] using hSh
    -- the record is empty then
    | «return» hLoc =>
      rw [hLoc] at hSh
      simp only [Shaped, Function.update_self]
      intro d hd
      rw [show raised t s.log = [] from hSh] at hd
      cases hd
    | finish hLoc =>
      simp only [Shaped, Function.update_self, raised, if_true]
  · obtain ⟨hLoc, hRaised, _⟩ := h.other hT hu
    unfold Shaped at hSh ⊢
    rwa [hLoc, hRaised]

/-- **At every place of a thread the record of its events has the right shape**, by
induction on the run. -/
theorem shaped_reachable (h : Runs.Reachable system s) (hT : t ≠ INVALID_THREADID) :
    Shaped s t := by
  refine h.invariant (P := fun s => Shaped s t) ?_ ?_
  · rintro s rfl
    intro d hd
    cases hd
  · intro s a s' hSh _ hStep
    exact (step_cases hStep).shaped hT hSh

-- ---------------------------------------------------------------------------
-- What the predicates see
-- ---------------------------------------------------------------------------

/-- A fact of the given kind is recorded, for the given address unless it is null. -/
def Facts.Seen (f : Facts) (k : Kind) (x : ADDRINT) : Prop :=
  if x = 0 then ∃ a, f.recorded k a = true else f.recorded k x = true

/-- The meaning of a predicate on the facts of a thread. -/
def Facts.Says (f : Facts) : Query → Prop
  | .READS x => f.Seen .reads x
  | .WRITES x => f.Seen .writes x
  | .CALLS x => f.Seen .calls x
  | .ENTERS x => f.Seen .enters x
  | .RETURNS x => f.Seen .returns x
  | .HITS_PC pc => f.hit = true ∧ (pc < 0 ∨ f.pc = pc)

/-- What `EvalState` of the predicates on accesses says: of an address, or of any one for
the address 0. -/
theorem evalAccess_iff {var : AuxVar1 ADDRINT UInt32 0 0} {x : ADDRINT} :
    evalAccess var x t = true ↔
      if x = 0 then ∃ a, var.isset a t = true else var.isset x t = true := by
  unfold evalAccess
  split
  · simp only [AuxVar1Pre.EvalState, AuxVar1.issetAny_iff]
  · rename_i hx
    simp [AuxVar1Pre.EvalState, hx]

/-- What `EvalState` of the predicates on functions says: of an address, or of any one for
the address 0. -/
theorem evalFunc_iff {var : AuxVar1 ADDRINT Bool 0 false} {x : ADDRINT} :
    evalFunc var x t = true ↔
      if x = 0 then ∃ a, var.isset a t = true else var.isset x t = true := by
  unfold evalFunc
  split
  · simp only [AuxVar1Pre.EvalState, AuxVar1.issetAny_iff]
  · rename_i hx
    -- an entry of this table is never the default
    have hGet : var.isset x t = true → var.get x t = true := by
      intro hSet
      unfold AuxVar1.isset at hSet
      unfold AuxVar1.get
      cases hMap : var.map t with
      | none => simp [hMap] at hSet
      | some mm =>
        rw [hMap] at hSet
        obtain ⟨v, hv⟩ := Option.isSome_iff_exists.mp hSet
        simpa [hv] using var.defined t mm x v hMap hv
    simp only [AuxVar1Pre.EvalState, if_false, Bool.true_eq_false]
    split
    · rename_i hSet
      simp [hGet hSet, hSet]
    · rename_i hSet
      simpa using hSet

/-- `EvalState` reads the facts, whichever the predicate is. -/
theorem evalState_iff {q : Query} : q.EvalState aux t = true ↔ (aux.facts t).Says q := by
  cases q with
  | READS x => exact evalAccess_iff
  | WRITES x => exact evalAccess_iff
  | CALLS x => exact evalFunc_iff
  | ENTERS x => exact evalFunc_iff
  | RETURNS x => exact evalFunc_iff
  -- a negative pc stands for any
  | HITS_PC pc =>
    simp only [Query.EvalState, AuxVar0Pre.EvalState, Facts.Says, AuxState.facts]
    split
    · rename_i hPc
      simp [hPc]
    · rename_i hPc
      have hNe : pc ≠ -1 := by
        rintro rfl
        exact hPc (by decide)
      by_cases hGet : aux.Pc.get t = pc
      · subst hGet
        simp [AuxVar0.isset, hNe]
      · simp only [hPc, false_or, hNe, if_false, Bool.and_eq_true]
        split <;> simp [hGet]

theorem Facts.Empty.excludes {f : Facts} (h : f.Empty) (q : Query) : ¬ f.Says q := by
  obtain ⟨hRec, hHit⟩ := h
  cases q <;> simp [Facts.Says, Facts.Seen, hRec, hHit]

-- ---------------------------------------------------------------------------
-- What the events leave
-- ---------------------------------------------------------------------------

/-- The event leaves its fact in the table of its thread: an access of size zero unsets it, and
the setters of `FuncCall` go to another thread. -/
def Event.kept : Event → Bool
  | MemRead _ size => decide (size ≠ 0)
  | MemWrite _ size => decide (size ≠ 0)
  | FuncCall .. => false
  | _ => true

/-- The last of the events with a fact. -/
def lastWith (k : Kind) (x : ADDRINT) (es : List Event) : Option Event :=
  (es.filter fun e => e.fact = some (k, x)).getLast?

/-- The last event with a fact after one more event. -/
theorem lastWith_append (k : Kind) (x : ADDRINT) (es : List Event) (e : Event) :
    lastWith k x (es ++ [e]) = if e.fact = some (k, x) then some e else lastWith k x es := by
  unfold lastWith
  rw [List.filter_append]
  split
  · rename_i hFact
    simp [hFact]
  · rename_i hFact
    simp [hFact]

theorem lastWith_mem {k : Kind} {x : ADDRINT} {es : List Event} (h : lastWith k x es = some e) :
    e ∈ es ∧ e.fact = some (k, x) := by
  simpa using List.mem_of_getLast? h

theorem lastWith_isSome {k : Kind} {x : ADDRINT} {es : List Event} (hMem : e ∈ es)
    (hFact : e.fact = some (k, x)) : ∃ d, lastWith k x es = some d := by
  rw [← Option.isSome_iff_exists, lastWith, List.getLast?_isSome]
  exact List.ne_nil_of_mem (List.mem_filter.mpr ⟨hMem, by simpa using hFact⟩)

/-- A fact is in the table if and only if the last event with it has left it there. The
induction is on the events, from the end. -/
theorem recorded_events {f : Facts} (hEmpty : f.Empty) (k : Kind) (x : ADDRINT) (es : List Event) :
    (es.foldl Event.effect f).recorded k x = (lastWith k x es).any Event.kept := by
  induction es using List.reverseRecOn with
  | nil => exact hEmpty.1 k x
  | append_singleton es e ih =>
    rw [List.foldl_append, lastWith_append]
    simp only [List.foldl_cons, List.foldl_nil]
    have hRecord : ∀ (f : Facts) (k' : Kind) (a : ADDRINT) (v : Bool),
        (f.record k' a v).recorded k x = if (k', a) = (k, x) then v else f.recorded k x := by
      intro f k' a v
      simp [Facts.record, Prod.ext_iff, eq_comm]
    cases e with
    -- a call leaves nothing for its thread
    | FuncCall src target arg0 arg1 =>
      show (es.foldl Event.effect f).recorded k x = _
      rw [ih]
      split
      · -- the calls before it have left nothing either
        rename_i hFact
        obtain ⟨rfl, rfl⟩ : Kind.calls = k ∧ target = x := by simpa [Event.fact] using hFact
        cases hLast : lastWith .calls target es with
        | none => rfl
        | some d =>
          have hd := (lastWith_mem hLast).2
          cases d <;> simp_all [Event.fact, Event.kept]
      · rfl
    | MemRead a size =>
      show ((es.foldl Event.effect f).record .reads a (decide (size ≠ 0))).recorded k x = _
      rw [hRecord, ih]
      simp only [Event.fact, Option.some.injEq]
      split <;> rfl
    | MemWrite a size =>
      show ((es.foldl Event.effect f).record .writes a (decide (size ≠ 0))).recorded k x = _
      rw [hRecord, ih]
      simp only [Event.fact, Option.some.injEq]
      split <;> rfl
    | FuncEnter a arg0 arg1 =>
      show ((es.foldl Event.effect f).record .enters a true).recorded k x = _
      rw [hRecord, ih]
      simp only [Event.fact, Option.some.injEq]
      split <;> rfl
    | FuncReturn a retval =>
      show ((es.foldl Event.effect f).record .returns a true).recorded k x = _
      rw [hRecord, ih]
      simp only [Event.fact, Option.some.injEq]
      split <;> rfl
    | MemAccessBefore | ThreadEnd | AtPc pc =>
      show (es.foldl Event.effect f).recorded k x = _
      rw [ih]
      rfl

/-- Events that do not lead to a transition are not hits. -/
theorem hit_events {f : Facts} (hHit : f.hit = false) {es : List Event}
    (hQuiet : ∀ d ∈ es, d.Quiet) : (es.foldl Event.effect f).hit = false := by
  induction es generalizing f with
  | nil => exact hHit
  | cons e es ih =>
    refine ih ?_ fun d hd => hQuiet d (by simp [hd])
    obtain ⟨hCtl, _⟩ := hQuiet e (by simp)
    cases e <;> simp_all [Event.controlled, Event.effect, Event.before, Facts.record]

/-- A predicate holds of events: one of them is of its kind, with its address or program
counter if it has one. -/
def Query.Raised (es : List Event) : Query → Prop
  | READS x => ∃ addr size, Event.MemRead addr size ∈ es ∧ (x = 0 ∨ addr = x)
  | WRITES x => ∃ addr size, Event.MemWrite addr size ∈ es ∧ (x = 0 ∨ addr = x)
  | CALLS f => ∃ src addr arg0 arg1, Event.FuncCall src addr arg0 arg1 ∈ es ∧ (f = 0 ∨ addr = f)
  | ENTERS f => ∃ addr arg0 arg1, Event.FuncEnter addr arg0 arg1 ∈ es ∧ (f = 0 ∨ addr = f)
  | RETURNS f => ∃ addr retval, Event.FuncReturn addr retval ∈ es ∧ (f = 0 ∨ addr = f)
  | HITS_PC pc => ∃ p, Event.AtPc p ∈ es ∧ (pc < 0 ∨ p = pc)

/-- An event of the given kind and, unless it is null, the given address. -/
def About (es : List Event) (k : Kind) (x : ADDRINT) : Prop :=
  ∃ e ∈ es, ∃ addr, e.fact = some (k, addr) ∧ (x = 0 ∨ addr = x)

/-- The kind and the address a predicate is about. -/
def Query.fact : Query → Option (Kind × ADDRINT)
  | READS x => some (.reads, x)
  | WRITES x => some (.writes, x)
  | CALLS x => some (.calls, x)
  | ENTERS x => some (.enters, x)
  | RETURNS x => some (.returns, x)
  | HITS_PC _ => none

/-- What a predicate asks for is that some event was about its fact. -/
theorem raised_iff_about {q : Query} {es : List Event} {k : Kind} {x : ADDRINT}
    (hq : q.fact = some (k, x)) : q.Raised es ↔ About es k x := by
  constructor
  · intro hRaised
    cases q <;> simp only [Query.fact, Option.some.injEq, Prod.mk.injEq, reduceCtorEq] at hq
    case READS | RETURNS | WRITES =>
      obtain ⟨rfl, rfl⟩ := hq
      obtain ⟨addr, _, hMem, hx⟩ := hRaised
      exact ⟨_, hMem, addr, rfl, hx⟩
    case CALLS =>
      obtain ⟨rfl, rfl⟩ := hq
      obtain ⟨_, addr, _, _, hMem, hx⟩ := hRaised
      exact ⟨_, hMem, addr, rfl, hx⟩
    case ENTERS =>
      obtain ⟨rfl, rfl⟩ := hq
      obtain ⟨addr, _, _, hMem, hx⟩ := hRaised
      exact ⟨_, hMem, addr, rfl, hx⟩
  · rintro ⟨e, hMem, addr, hFact, hx⟩
    cases q <;> simp only [Query.fact, Option.some.injEq, Prod.mk.injEq, reduceCtorEq] at hq
    all_goals
      obtain ⟨rfl, rfl⟩ := hq
      cases e <;> simp only [Event.fact, Option.some.injEq, Prod.mk.injEq, reduceCtorEq, false_and,
        true_and] at hFact
      subst hFact
    · exact ⟨_, _, hMem, hx⟩
    · exact ⟨_, _, hMem, hx⟩
    · exact ⟨_, _, _, _, hMem, hx⟩
    · exact ⟨_, _, _, hMem, hx⟩
    · exact ⟨_, _, hMem, hx⟩

theorem says_iff_seen {q : Query} {f : Facts} {k : Kind} {x : ADDRINT}
    (hq : q.fact = some (k, x)) : f.Says q ↔ f.Seen k x := by
  cases q <;> simp only [Query.fact, Option.some.injEq, Prod.mk.injEq, reduceCtorEq] at hq
  all_goals
    obtain ⟨rfl, rfl⟩ := hq
    rfl

theorem exists_query (k : Kind) (x : ADDRINT) : ∃ q : Query, q.fact = some (k, x) := by
  cases k
  · exact ⟨.READS x, rfl⟩
  · exact ⟨.WRITES x, rfl⟩
  · exact ⟨.CALLS x, rfl⟩
  · exact ⟨.ENTERS x, rfl⟩
  · exact ⟨.RETURNS x, rfl⟩

-- ---------------------------------------------------------------------------
-- The predicates at a transition
-- ---------------------------------------------------------------------------

/-- The thread is in a controlled transition. -/
def State.InTransition (s : State) (t : THREADID) : Prop := ∃ e, s.loc t = .transition e

/-- The last event of each kind and address leaves its fact. -/
def Kept (es : List Event) : Prop := ∀ k x e, lastWith k x es = some e → e.kept = true

/-- The facts of a thread in a transition, in terms of its events alone. -/
structure AtTransition (f : Facts) (es : List Event) : Prop where
  recorded : ∀ k x, f.recorded k x = (lastWith k x es).any Event.kept
  hits : ∀ pc, f.Says (.HITS_PC pc) ↔ (Query.HITS_PC pc).Raised es
  nonNull : ∀ d ∈ es, d.NonNull

/-- The invalid thread raises no events. -/
theorem loc_invalid (h : Runs.Reachable system s) : s.loc INVALID_THREADID = .idle := by
  refine h.invariant (P := fun s => s.loc INVALID_THREADID = .idle) ?_ ?_
  · rintro s rfl
    rfl
  · rintro s ⟨u, act⟩ s' hIdle _ hStep
    by_cases hu : INVALID_THREADID = u
    · subst hu
      rcases step_cases hStep with ⟨_, _, hT⟩ | hLoc | hLoc | hLoc | hLoc | hLoc | hLoc | hLoc
      · exact absurd rfl hT
      all_goals
        rw [hIdle] at hLoc
        cases hLoc
    · have hLoc : s'.loc INVALID_THREADID = s.loc INVALID_THREADID := by
        cases step_cases hStep <;> exact Function.update_of_ne hu ..
      rw [hLoc, hIdle]

theorem State.InTransition.valid (hIn : s.InTransition t) (h : Runs.Reachable system s) :
    t ≠ INVALID_THREADID := by
  rintro rfl
  obtain ⟨e, hLoc⟩ := hIn
  rw [loc_invalid h] at hLoc
  cases hLoc

/-- **At a controlled transition the tables are what the events say**: the accesses of the
last event that come before it are done, and those that come after it are not among the
facts. -/
theorem atTransition (h : Runs.Reachable system s) (hIn : s.InTransition t) :
    AtTransition (s.aux.facts t) (raised t s.log) := by
  have hT := hIn.valid h
  obtain ⟨e, hLoc⟩ := hIn
  obtain ⟨f, hEmpty, hFacts⟩ := tracked_reachable h hT
  have hShaped := shaped_reachable h hT
  unfold Shaped at hShaped
  rw [hLoc] at hFacts hShaped
  obtain ⟨done, hRaised, hQuiet, hNull⟩ := hShaped
  replace hFacts : s.aux.facts t = (raised t s.log).foldl Event.effect f := hFacts
  rw [hFacts]
  refine ⟨fun k x => recorded_events hEmpty k x _, fun pc => ?_, fun d hd => ?_⟩
  · -- only the event the thread is at may be a hit
    have hHit := hit_events hEmpty.2 hQuiet
    have hNone : ∀ p, Event.AtPc p ∉ done := fun p hp => by cases (hQuiet _ hp).1
    rw [hRaised, List.foldl_append]
    generalize hg : done.foldl Event.effect f = g at hHit ⊢
    cases e <;> simp_all [Facts.Says, Query.Raised, Event.effect, Event.before, Facts.record]
  · rw [hRaised] at hd
    rcases List.mem_append.mp hd with hd | hd
    · exact (hQuiet d hd).2
    · rw [List.mem_singleton.mp hd]
      exact hNull

variable {f g : Facts} {es : List Event}

theorem AtTransition.says_congr (hf : AtTransition f es) (hg : AtTransition g es) (q : Query) :
    f.Says q ↔ g.Says q := by
  have hRec : ∀ k x, f.recorded k x = g.recorded k x := fun k x =>
    (hf.recorded k x).trans (hg.recorded k x).symm
  cases q with
  | HITS_PC pc => exact (hf.hits pc).trans (hg.hits pc).symm
  | _ => simp only [Facts.Says, Facts.Seen, hRec]

/-- Facts that are all kept are seen exactly when they are raised. -/
theorem AtTransition.seen_iff_about (hf : AtTransition f es) (hKept : Kept es) (k : Kind)
    (x : ADDRINT) : f.Seen k x ↔ About es k x := by
  have hIff : ∀ a, f.recorded k a = true ↔ ∃ e ∈ es, e.fact = some (k, a) := by
    intro a
    rw [hf.recorded]
    constructor
    · intro hAny
      cases hLast : lastWith k a es with
      | none => simp [hLast] at hAny
      | some e => exact ⟨e, lastWith_mem hLast⟩
    · rintro ⟨e, hMem, hFact⟩
      obtain ⟨d, hLast⟩ := lastWith_isSome hMem hFact
      rw [hLast]
      exact hKept k a d hLast
  unfold Facts.Seen About
  -- the address 0 stands for any
  split
  · rename_i hx
    subst hx
    simp only [hIff, true_or, and_true]
    exact ⟨fun ⟨a, e, hMem, hFact⟩ => ⟨e, hMem, a, hFact⟩, fun ⟨e, hMem, a, hFact⟩ => ⟨a, e, hMem, hFact⟩⟩
  · rename_i hx
    simp only [hIff, hx, false_or]
    constructor
    · rintro ⟨e, hMem, hFact⟩
      exact ⟨e, hMem, x, hFact, rfl⟩
    · rintro ⟨e, hMem, a, hFact, rfl⟩
      exact ⟨e, hMem, hFact⟩

/-- The predicates are exact if and only if every fact is kept. A fact that is lost is found
by the predicate that asks for it. -/
theorem AtTransition.exact_iff (hf : AtTransition f es) :
    (∀ q, f.Says q ↔ q.Raised es) ↔ Kept es := by
  constructor
  -- take the predicate that asks for this fact
  · intro hExact k x e hLast
    obtain ⟨hMem, hFact⟩ := lastWith_mem hLast
    obtain ⟨q, hq⟩ := exists_query k x
    have hSeen := (says_iff_seen hq).mp
      ((hExact q).mpr ((raised_iff_about hq).mpr ⟨e, hMem, x, hFact, Or.inr rfl⟩))
    rw [Facts.Seen, if_neg (hf.nonNull e hMem k x hFact), hf.recorded, hLast] at hSeen
    exact hSeen
  · intro hKept q
    cases hq : q.fact with
    | none =>
      cases q with
      | HITS_PC pc => exact hf.hits pc
      | _ => cases hq
    | some kx =>
      rw [says_iff_seen hq, raised_iff_about hq]
      exact hf.seen_iff_about hKept _ _

/-- The events of a thread in its own part of the record. -/
theorem raised_own (t : THREADID) (log : List (THREADID × Record)) :
    raised t (own t log) = raised t log := by
  induction log with
  | nil => rfl
  | cons r log ih =>
    obtain ⟨u, r⟩ := r
    by_cases hu : u = t
    · subst hu
      simp only [own, List.filter_cons, decide_true, if_true, raised] at ih ⊢
      rw [ih]
    · simp only [own, List.filter_cons, hu, decide_false, Bool.false_eq_true, if_false, raised] at ih ⊢
      exact ih

/-- Locality for a thread in a controlled transition. -/
structure Local (s : State) (t : THREADID) : Prop where
  /-- the predicates depend on what the thread has done itself -/
  own : ∀ s', Runs.Reachable system s' → s'.InTransition t → own t s'.log = own t s.log →
    ∀ q : Query, q.EvalState s'.aux t = q.EvalState s.aux t
  /-- they hold of the events since the previous finished transition -/
  exact : ∀ q : Query, q.EvalState s.aux t = true ↔ q.Raised (raised t s.log)
  /-- nothing remains when the transition is finished -/
  reset : ∀ s', s.step t .finish = some s' → ∀ q : Query, q.EvalState s'.aux t = false

/-- **Locality of the auxiliary state.** In every state reached, at a controlled transition
of a thread, the predicates answer about its own events alone and forget them with the
transition, if and only if the thread has left all its facts in its own tables. -/
theorem aux_local_iff (h : Runs.Reachable system s) (hIn : s.InTransition t) :
    Local s t ↔ Kept (raised t s.log) := by
  have hAt := atTransition h hIn
  constructor
  · intro hLocal
    refine hAt.exact_iff.mp fun q => ?_
    rw [← evalState_iff]
    exact hLocal.exact q
  · intro hKept
    refine ⟨fun s' h' hIn' hOwn q => ?_, fun q => ?_, fun s' hStep q => ?_⟩
    -- another run with the same events of the thread
    · have hAt' := atTransition h' hIn'
      rw [← raised_own, hOwn, raised_own] at hAt'
      rw [Bool.eq_iff_iff, evalState_iff, evalState_iff]
      exact hAt'.says_congr hAt q
    -- exact at the transition
    · rw [evalState_iff]
      exact hAt.exact_iff.mpr hKept q
    · rw [← Bool.not_eq_true, evalState_iff]
      -- and nothing holds after the reset
      cases step_cases hStep with
      | finish hLoc => exact (facts_reset_self s.aux t).excludes q


theorem kept_of_all (h : ∀ e ∈ es, e.kept = true) : Kept es :=
  fun _ _ e hLast => h e (lastWith_mem hLast).1

/-- The state after the given steps. -/
def State.run (s : State) (acts : List (THREADID × Act)) : Option State :=
  acts.foldlM (fun s a => s.step a.1 a.2) s

/-- A run given by its actions is a run of the system. -/
theorem reachable_run {acts : List (THREADID × Act)} (h : Runs.Reachable system s)
    (hRun : s.run acts = some s') : Runs.Reachable system s' := by
  induction acts generalizing s with
  | nil =>
    obtain rfl := Option.some.inj hRun
    exact h
  | cons a acts ih =>
    simp only [State.run, List.foldlM_cons, Option.bind_eq_bind, Option.bind_eq_some_iff] at hRun
    obtain ⟨s₁, hStep, hRun⟩ := hRun
    exact ih (h.step trivial hStep) hRun

/-- Thread 2 has read four bytes and is at its next access, while thread 3 is in a call. -/
def readRun : List (THREADID × Act) :=
  [(2, .raise (.MemRead 0x1000 4)), (3, .raise (.FuncCall 0x400 0x800 0 0)), (2, .proceed),
    (3, .proceed), (2, .proceed), (3, .proceed), (2, .raise .MemAccessBefore), (2, .proceed)]

/-- A thread reads four bytes, and `READS` holds of the address at the transition of the
access. -/
theorem aux_local_read :
    ∃ s, Runs.Reachable system s ∧ s.InTransition 2 ∧ Local s 2 ∧
      Query.EvalState (.READS 0x1000) s.aux 2 = true := by
  obtain ⟨s, hRun, hIn, hRaised⟩ : ∃ s, State.start.run readRun = some s ∧ s.InTransition 2 ∧
      raised 2 s.log = [.MemRead 0x1000 4, .MemAccessBefore] := ⟨_, rfl, ⟨_, rfl⟩, rfl⟩
  have hReach := reachable_run (.init rfl) hRun
  have hLocal := (aux_local_iff hReach hIn).mpr (by rw [hRaised]; exact kept_of_all (by decide))
  exact ⟨s, hReach, hIn, hLocal, (hLocal.exact _).mpr ⟨0x1000, 4, by simp [hRaised], Or.inr rfl⟩⟩

/-- Thread 2 is in the transition of a call. -/
def callRun : List (THREADID × Act) :=
  [(2, .raise (.FuncCall 0x400 0x800 7 8)), (2, .proceed), (2, .proceed), (2, .proceed),
    (2, .proceed), (2, .proceed)]

/-- The setters of `FuncCall` pass the thread as the value: `CALLS` does not hold of a call,
at the transition of the call itself. -/
theorem call_not_seen :
    ¬ ∀ s t, Runs.Reachable system s → s.InTransition t → Local s t := by
  intro hAll
  obtain ⟨s, hRun, hIn, hRaised, hFalse⟩ : ∃ s, State.start.run callRun = some s ∧
      s.InTransition 2 ∧ raised 2 s.log = [.FuncCall 0x400 0x800 7 8] ∧
      Query.EvalState (.CALLS 0x800) s.aux 2 = false := ⟨_, rfl, ⟨_, rfl⟩, rfl, rfl⟩
  have hLocal := hAll s 2 (reachable_run (.init rfl) hRun) hIn
  have hTrue := (hLocal.exact (.CALLS 0x800)).mpr
    ⟨0x400, 0x800, 7, 8, by simp [hRaised], Or.inr rfl⟩
  rw [hFalse] at hTrue
  cases hTrue

end Aux

end Concurrit.Model
