import Concurrit.Model.Reference

/-!
# Concurrit — the current node

A submitted node is current while it is in the reference or a thread that has taken
it out carries it. While the main thread is in the script, a node is current only
while the main thread waits for it to be consumed.
-/

namespace Concurrit.Model

open Function (update)

namespace Protocol

variable {P Trans : Type} {s s' : State P Trans} {sh sh' : Shared P Trans} {pc pc' : Pc P Trans}
  {t u n m : Nat} {l : Label}

-- ---------------------------------------------------------------------------
-- Places of the main thread
-- ---------------------------------------------------------------------------

/-- The node a thread carries. -/
def Pc.node : Pc P Trans → Option Nat
  | .saw _ (.full n) | .acquired _ (.full n) | .unlock (.full n) _ | .store (.full n) _ => some n
  | .evaluated _ n _ _ => some n
  | _ => none

def Call.awaits : Call P Trans → Option Nat
  | .await n => some n
  | _ => none

def Next.awaits : Next Trans → Option Nat
  | .await n => some n
  | _ => none

/-- The node the main thread has submitted and waits for. -/
def Pc.awaits : Pc P Trans → Option Nat
  | .acquire c | .saw c _ | .semWait c | .semSignal c | .retry c | .acquired c _ => c.awaits
  | .unlock _ k | .store _ k | .signal k => k.awaits
  | _ => none

def Next.inScript : Next Trans → Bool
  | .await _ => true
  | .script => true
  | _ => false

/-- The main thread runs the script. -/
def Pc.inScript : Pc P Trans → Bool
  | .running => true
  | .acquire c | .saw c _ | .semWait c | .semSignal c | .retry c | .acquired c _ => c.ofScript
  | .unlock _ k | .store _ k | .signal k => k.inScript
  | _ => false

def Call.late : Call P Trans → Bool
  | .endWithSuccess reason => reason == .threadsAllEnded
  | .endWithException .. => true
  | _ => false

def Next.late : Next Trans → Bool
  | .ended reason => reason == .threadsAllEnded
  | .broadcast => true
  | _ => false

/-- The main thread has forced the lock, or ends the execution with an exception. -/
def Pc.late : Pc P Trans → Bool
  | .acquire c | .saw c _ | .semWait c | .semSignal c | .retry c | .acquired c _ => c.late
  | .unlock _ k | .store _ k | .signal k => k.late
  | .forced | .broadcast | .done | .aborted => true
  | _ => false

theorem Call.late_of_ofScript {c : Call P Trans} (h : c.ofScript = true) : c.late = false := by
  cases c <;> first | rfl | cases h

theorem Next.late_pc {k : Next Trans} (h : k.late = true) : (k.pc : Pc P Trans).late = true := by
  cases k <;> first | cases h | skip
  case ended reason =>
    obtain rfl : reason = .threadsAllEnded := by simpa [Next.late] using h
    rfl
  case broadcast => rfl

/-- The main thread does not come back from there. -/
theorem Does.late (h : Does main sh pc l sh' pc') (hLate : pc.late = true ∨ l = .force) :
    pc'.late = true := by
  cases h
  case force => rfl
  all_goals replace hLate := hLate.resolve_right nofun
  case signal k => exact Next.late_pc hLate
  case waitTimeout c _ hScript =>
    exact absurd hLate (by simp [Pc.late, Call.late_of_ofScript hScript])
  case retryTimeout c _ hScript =>
    exact absurd hLate (by simp [Pc.late, Call.late_of_ofScript hScript])
  case refused c _ hScript _ _ _ =>
    exact absurd hLate (by simp [Pc.late, Call.late_of_ofScript hScript])
  case scriptEnded c _ hScript _ _ =>
    exact absurd hLate (by simp [Pc.late, Call.late_of_ofScript hScript])
  case broadcast => rfl
  all_goals first | exact hLate | rfl | cases hLate

/-- Only a test thread gets there. -/
def Call.ofTest : Call P Trans → Bool
  | .controlled _ => true
  | .endWithException _ (some _) => true
  | _ => false

def Next.ofTest : Next Trans → Bool
  | .finish | .again _ | .wait .. => true
  | _ => false

def Pc.ofTest : Pc P Trans → Bool
  | .acquire c | .saw c _ | .semWait c | .semSignal c | .retry c | .acquired c _ => c.ofTest
  | .unlock _ k | .store _ k | .signal k => k.ofTest
  | .fresh | .evaluated .. | .condWait .. | .asleep .. | .woken .. | .leaveMutex .. => true
  | _ => false

/-- The main thread stays at its own places. -/
theorem Does.ofTest (h : Does main sh pc l sh' pc') (hMain : pc.ofTest = false) :
    pc'.ofTest = false := by
  cases h
  case signal k =>
    cases k
    case ended =>
      simp only [Next.pc]
      split <;> rfl
    all_goals first | rfl | exact Bool.noConfusion hMain
  case caught live reason =>
    unfold Protocol.caught
    dsimp only
    split_ifs <;> rfl
  all_goals first | exact hMain | rfl | exact Bool.noConfusion hMain | contradiction

/-- The script is left for good. -/
theorem Does.inScript (h : Does main sh pc l sh' pc') (hMain : pc.ofTest = false)
    (hScript : pc'.inScript = true) : pc.inScript = true := by
  cases h
  case signal k =>
    cases k
    case await => rfl
    case script => rfl
    case ended =>
      simp only [Next.pc] at hScript
      split at hScript <;> exact Bool.noConfusion hScript
    all_goals first | exact Bool.noConfusion hMain | exact Bool.noConfusion hScript
  case caught live reason =>
    unfold Protocol.caught at hScript
    dsimp only at hScript
    split_ifs at hScript <;> exact Bool.noConfusion hScript
  all_goals first | exact hScript | rfl | exact Bool.noConfusion hScript | exact Bool.noConfusion hMain

-- ---------------------------------------------------------------------------
-- What a step does to the nodes
-- ---------------------------------------------------------------------------

/-- The steps by what they do to the nodes, the constraints and the evaluations. -/
inductive Effect (t : Nat) (sh : Shared P Trans) (pc : Pc P Trans) (l : Label) (sh' : Shared P Trans)
    (pc' : Pc P Trans) : Prop where
  | quiet (hNodes : sh'.nodes = sh.nodes) (hConstraints : sh'.constraints = sh.constraints)
    (hConsumed : sh'.consumed = sh.consumed) (hLog : sh'.log = sh.log)
  | submit (kind : NodeKind) (pred : P) (hMain : t = main)
    (hPc : pc = .acquired (.submit kind pred) .empty)
    (hShared : sh' = { sh with nodes := sh.nodes ++ [⟨kind, pred, sh.constraints⟩] })
    (hPc' : pc' = .unlock (.full sh.nodes.length) (.await sh.nodes.length))
  | constrain (hMain : t = main)
    (hPc : pc = .running ∨ l = .unwind ∧ pc'.inScript = false) (hNodes : sh'.nodes = sh.nodes)
    (hConsumed : sh'.consumed = sh.consumed) (hLog : sh'.log = sh.log)
  | consume (o : Offer Trans) (n : Nat) (take : Bool) (hPc : pc = .evaluated o n true take)
    (hShared : sh' =
      { sh with casts := sh.casts + 1, consumed := n :: sh.consumed })
    (hPc' : pc' = .unlock .empty (if take then .finish else .again o))
  | evaluate (o : Offer Trans) (n : Nat) (info : NodeInfo P) (holds : P → Bool) (selects : Bool)
    (e : Entry P Trans) (hNode : sh.nodes[n]? = some info)
    (hEval : (e.consume, e.take) = evalNode holds sh.constraints selects info.kind info.pred)
    (hEntry : e = ⟨t, o, n, holds, e.consume, e.take⟩)
    (hPc : pc = .acquired (.controlled o) (.full n)) (hShared : sh' = { sh with log := sh.log ++ [e] })
    (hPc' : pc' = .evaluated o n e.consume e.take)

/-- What a step does to nodes, constraints, consumed nodes and evaluations: nothing, or one
of four things, each at one place. -/
theorem Does.effect (h : Does t sh pc l sh' pc') : Effect t sh pc l sh' pc' := by
  cases h
  case evaluate o n info holds selects hNode =>
    exact .evaluate o n info holds selects _ hNode rfl rfl rfl rfl rfl
  case consume o n take => exact .consume o n take rfl rfl rfl
  case submitted kind pred hMain => exact .submit kind pred hMain rfl rfl rfl
  case install hMain p => exact .constrain hMain (Or.inl rfl) rfl rfl rfl
  case uninstall p cs hMain hLast => exact .constrain hMain (Or.inl rfl) rfl rfl rfl
  case unwind p cs reason hMain hLast => exact .constrain hMain (Or.inr ⟨rfl, rfl⟩) rfl rfl rfl
  all_goals exact .quiet rfl rfl rfl rfl

/-- A node is consumed together with the broadcast for it. -/
theorem Does.consumed (h : Does t sh pc l sh' pc') :
    sh'.consumed = sh.consumed ∨
      ∃ o n take, pc = .evaluated o n true take ∧ l = .consume n ∧
        sh'.consumed = n :: sh.consumed ∧ sh'.casts = sh.casts + 1 := by
  cases h
  case consume o n take => exact Or.inr ⟨o, n, take, rfl, rfl, rfl, rfl⟩
  all_goals exact Or.inl rfl

@[simp]
theorem Pc.node_saw {c : Call P Trans} {r : Ref} : (Pc.saw c r).node = some n ↔ r = .full n := by
  cases r <;> simp [Pc.node]

@[simp]
theorem Pc.node_acquired {c : Call P Trans} {r : Ref} :
    (Pc.acquired c r).node = some n ↔ r = .full n := by
  cases r <;> simp [Pc.node]

@[simp]
theorem Pc.node_unlock {v : Ref} {k : Next Trans} :
    (Pc.unlock v k : Pc P Trans).node = some n ↔ v = .full n := by
  cases v <;> simp [Pc.node]

@[simp]
theorem Pc.node_store {v : Ref} {k : Next Trans} :
    (Pc.store v k : Pc P Trans).node = some n ↔ v = .full n := by
  cases v <;> simp [Pc.node]

theorem Next.pc_node (k : Next Trans) : (k.pc : Pc P Trans).node = none := by
  cases k <;> simp only [Next.pc]
  case ended => split <;> rfl
  all_goals rfl

theorem caught_node (live : List Nat) (reason : BacktrackReason) :
    (caught live reason : Pc P Trans).node = none := by
  unfold caught
  dsimp only
  split_ifs <;> rfl

/-- The main thread has submitted node `n`. -/
structure Submits (t : Nat) (sh : Shared P Trans) (pc : Pc P Trans) (sh' : Shared P Trans)
    (pc' : Pc P Trans) (n : Nat) : Prop where
  isMain : t = main
  source : ∃ kind pred, pc = .acquired (.submit kind pred) .empty
  number : n = sh.nodes.length
  nodes  : ∃ kind pred, sh'.nodes = sh.nodes ++ [⟨kind, pred, sh.constraints⟩]
  others : sh'.constraints = sh.constraints ∧ sh'.consumed = sh.consumed
  place  : pc' = .unlock (.full n) (.await n)

/-- A node is carried on or put back, or it is new. -/
theorem Does.node (h : Does t sh pc l sh' pc') (hNode : pc'.node = some n ∨ sh'.ref = .full n) :
    pc.node = some n ∨ sh.ref = .full n ∨ Submits t sh pc sh' pc' n := by
  cases h
  case submitted kind pred hMain =>
    rcases hNode with hNode | hRef
    · obtain rfl : sh.nodes.length = n := by simpa using hNode
      exact Or.inr (Or.inr ⟨hMain, ⟨kind, pred, rfl⟩, rfl, ⟨kind, pred, rfl⟩, ⟨rfl, rfl⟩, rfl⟩)
    · exact Or.inr (Or.inl hRef)
  case exchange c =>
    rcases hNode with hNode | hRef
    · exact Or.inr (Or.inl (Pc.node_saw.mp hNode))
    · cases hRef
  case putBack c r _ _ _ =>
    rcases hNode with hNode | hRef
    · cases hNode
    · exact Or.inl (Pc.node_saw.mpr hRef)
  case onLock c r _ _ =>
    exact hNode.imp (fun h => Pc.node_saw.mpr (Pc.node_acquired.mp h)) Or.inl
  case unlock v k _ _ =>
    exact hNode.imp (fun h => Pc.node_unlock.mpr (Pc.node_store.mp h)) Or.inl
  case store v k =>
    rcases hNode with hNode | hRef
    · cases hNode
    · exact Or.inl (Pc.node_store.mpr hRef)
  case signal k => exact hNode.imp (fun h => by simp [Next.pc_node] at h) Or.inl
  case caught => exact hNode.imp (fun h => by simp [caught_node] at h) Or.inl
  case broadcast =>
    refine hNode.imp (fun h => ?_) Or.inl
    split at h <;> cases h
  all_goals first
    | exact hNode.imp id Or.inl
    | exact hNode.elim (fun h => nomatch h) (fun h => Or.inr (Or.inl h))
    | exact hNode.elim (fun h => nomatch h) (fun h => nomatch h)

-- ---------------------------------------------------------------------------
-- Current nodes, and the end node
-- ---------------------------------------------------------------------------

/-- The node is in the reference, or a thread that has taken it out carries it. -/
def Current (s : State P Trans) (n : Nat) : Prop :=
  s.shared.ref = .full n ∨ ∃ t, (s.pc t).node = some n

/-- The thread carries the end node. -/
def Pc.carriesEnd : Pc P Trans → Bool
  | .saw _ .endNode | .unlock .endNode _ | .store .endNode _ => true
  | _ => false

/-- The end node is in the reference, or a thread carries it. -/
def Ended (s : State P Trans) : Prop :=
  s.shared.ref = .endNode ∨ ∃ t, (s.pc t).carriesEnd = true

theorem Pc.holds_of_node (h : pc.node = some n) : pc.holds = true := by
  cases pc
  case saw c r => simp [Pc.holds, Pc.node_saw.mp h]
  case acquired c r => simp [Pc.holds, Pc.node_acquired.mp h]
  all_goals first | rfl | cases h

theorem Pc.carriesEnd_iff : pc.carriesEnd = true ↔
    (∃ c, pc = .saw c .endNode) ∨ ∃ k, pc = .unlock .endNode k ∨ pc = .store .endNode k := by
  cases pc
  case saw c r => cases r <;> simp [Pc.carriesEnd]
  case unlock v k => cases v <;> simp [Pc.carriesEnd]
  case store v k => cases v <;> simp [Pc.carriesEnd]
  all_goals simp [Pc.carriesEnd]

theorem Pc.holds_of_carriesEnd (h : pc.carriesEnd = true) : pc.holds = true := by
  rcases Pc.carriesEnd_iff.mp h with ⟨c, rfl⟩ | ⟨k, rfl | rfl⟩ <;> rfl

theorem Pc.carriesEnd_of_node (h : pc.node = some n) : pc.carriesEnd = false := by
  rw [← Bool.not_eq_true]
  intro hEnd
  rcases Pc.carriesEnd_iff.mp hEnd with ⟨c, rfl⟩ | ⟨k, rfl | rfl⟩ <;> cases h

/-- Where a thread has the reference, it carries the current node. -/
theorem Locked.node_of_current (hL : Locked s) (hCurrent : Current s n)
    (hHolds : (s.pc t).holds = true) : (s.pc t).node = some n := by
  rcases hCurrent with hRef | ⟨u, hNode⟩
  · cases (hL.ref t hHolds).symm.trans hRef
  · rw [hL.one t u hHolds (Pc.holds_of_node hNode)]
    exact hNode

/-- Where a thread has the reference after the end, it carries the end node. -/
theorem Locked.carriesEnd_of_ended (hL : Locked s) (hEnded : Ended s)
    (hHolds : (s.pc t).holds = true) : (s.pc t).carriesEnd = true := by
  rcases hEnded with hRef | ⟨u, hEnd⟩
  · cases (hL.ref t hHolds).symm.trans hRef
  · rw [hL.one t u hHolds (Pc.holds_of_carriesEnd hEnd)]
    exact hEnd

/-- Once the end node is in the reference or carried no node is current. -/
theorem Locked.not_current_of_ended (hL : Locked s) (hEnded : Ended s) : ¬ Current s n := by
  rintro (hRef | ⟨t, hNode⟩)
  · rcases hEnded with hEnd | ⟨u, hEnd⟩
    · cases hRef.symm.trans hEnd
    · cases (hL.ref u (Pc.holds_of_carriesEnd hEnd)).symm.trans hRef
  · have hEnd := hL.carriesEnd_of_ended hEnded (Pc.holds_of_node hNode)
    rw [Pc.carriesEnd_of_node hNode] at hEnd
    cases hEnd

/-- The end node stays, unless the lock is forced. -/
theorem Does.ended (h : Does t sh pc l sh' pc') (hForce : l ≠ .force)
    (hNot : pc' = .aborted → l = .timeout) (hEnd : sh.ref = .endNode ∧ pc.holds = false ∨ pc.carriesEnd = true) :
    sh'.ref = .endNode ∨ pc'.carriesEnd = true := by
  rcases hEnd with ⟨hRef, hHolds⟩ | hEnd
  · cases h
    case exchange c => exact Or.inr (by rw [hRef]; rfl)
    case seeEnd c => exact Or.inl rfl
    case putBack c r _ hLock _ => simp [Pc.holds, hLock] at hHolds
    case store v k => cases hHolds
    case force => exact absurd rfl hForce
    all_goals exact Or.inl hRef
  · rcases Pc.carriesEnd_iff.mp hEnd with ⟨c, rfl⟩ | ⟨k, rfl | rfl⟩
    · cases h
      case seeEnd => exact Or.inl rfl
      case onLock hExits => exact absurd rfl (AcquireRefMode.ne_of_exits hExits).2
      case onLockFails => cases hNot rfl
      case putBack hEnd _ => exact absurd rfl hEnd
    · cases h
      case unlock => exact Or.inr rfl
      case unlockFails => cases hNot rfl
    · cases h
      exact Or.inl rfl

/-- **The end is final**: once the end node is there only a forced lock could take it away.
-/
theorem Ended.step (hEnded : Ended s) (hL : Locked s) (h : Step s (t, l) s')
    (hForce : l ≠ .force) : Ended s' := by
  cases h with
  | @mk _ _ sh' pc' hDoes =>
    have hStays := hDoes.ended hForce (hL.not_aborted hDoes)
    have hMine : sh'.ref = .endNode ∨ pc'.carriesEnd = true → Ended (s.put t sh' pc') :=
      Or.imp id fun hEnd => ⟨t, by rwa [State.put_self]⟩
    rcases hEnded with hRef | ⟨u, hEnd⟩
    · refine hMine (hStays (Or.inl ⟨hRef, ?_⟩))
      rw [← Bool.not_eq_true]
      exact fun hHolds => nomatch (hL.ref t hHolds).symm.trans hRef
    · by_cases hut : u = t
      · exact hMine (hStays (Or.inr (hut ▸ hEnd)))
      · exact Or.inr ⟨u, by rwa [State.put_of_ne _ _ _ hut]⟩

/-- `AcquireRef` returns the end node only from the reference. -/
theorem Does.ref_of_end {c : Call P Trans} (h : Does t sh pc l sh' pc')
    (hPc : pc' = .acquired c .endNode) : sh'.ref = .endNode ∨ pc = .acquired c .endNode := by
  cases h
  case seeEnd => exact Or.inl rfl
  case onLock hExits _ =>
    injection hPc with _ hRef
    subst hRef
    exact absurd rfl (AcquireRefMode.ne_of_exits hExits).2
  case signal k =>
    cases k
    case ended =>
      simp only [Next.pc] at hPc
      split at hPc <;> cases hPc
    all_goals cases hPc
  case caught =>
    unfold Protocol.caught at hPc
    dsimp only at hPc
    split_ifs at hPc
  case broadcast => split at hPc <;> cases hPc
  all_goals cases hPc

-- ---------------------------------------------------------------------------
-- The node the main thread waits for
-- ---------------------------------------------------------------------------

/-- The main thread waits for the node it has submitted, unless it has just found the
reference empty. -/
theorem Does.awaits (h : Does main sh pc l sh' pc') (hAwaits : pc.awaits = some n)
    (hScript : pc'.inScript = true) :
    pc'.awaits = some n ∨ ∃ c, pc = .acquired c .empty := by
  cases h
  case signal k =>
    cases k
    case await => exact Or.inl hAwaits
    all_goals cases hAwaits
  case awaited => exact Or.inr ⟨_, rfl⟩
  all_goals first | exact Or.inl hAwaits | cases hAwaits | exact Bool.noConfusion hScript

/-- What holds of the current node in every run. -/
structure Tracked (s : State P Trans) : Prop where
  ofMain     : (s.pc main).ofTest = false
  locked     : (s.pc main).late = false → Locked s
  /-- a node that `AcquireRef` returns at the end is the end node for good -/
  ended      : (s.pc main).late = false → ∀ t c, s.pc t = .acquired c .endNode → Ended s
  last       : ∀ n, Current s n → n + 1 = s.shared.nodes.length
  awaits     : (s.pc main).inScript = true → ∀ n, Current s n → (s.pc main).awaits = some n
  installed  : (s.pc main).inScript = true → ∀ n, Current s n →
    ∃ info, s.shared.nodes[n]? = some info ∧ info.installed = s.shared.constraints
  consumedLt : ∀ n ∈ s.shared.consumed, n < s.shared.nodes.length
  unconsumed : (s.pc main).late = false → ∀ n, Current s n → n ∉ s.shared.consumed

theorem Pc.late_of_inScript (h : pc.inScript = true) : pc.late = false := by
  cases pc
  case unlock v k => cases k <;> first | rfl | cases h
  case store v k => cases k <;> first | rfl | cases h
  case signal k => cases k <;> first | rfl | cases h
  all_goals first | exact Call.late_of_ofScript h | rfl | cases h

/-- At the beginning there is no node at all. -/
theorem tracked_start : Tracked (State.start : State P Trans) := by
  have hCurrent : ∀ n, ¬ Current (State.start : State P Trans) n := by
    rintro n (hRef | ⟨t, hNode⟩)
    · cases hRef
    · simp only [State.start] at hNode
      split at hNode <;> cases hNode
  refine ⟨rfl, fun _ => locked_start, fun _ t c hPc => ?_, fun n h => absurd h (hCurrent n),
    fun _ n h => absurd h (hCurrent n), fun _ n h => absurd h (hCurrent n), by simp [State.start],
    fun _ n h => absurd h (hCurrent n)⟩
  simp only [State.start] at hPc
  split at hPc <;> cases hPc

/-- A node becomes current only when it is submitted. -/
theorem Does.current (h : Does t s.shared (s.pc t) l sh' pc')
    (hCurrent : Current (s.put t sh' pc') n) : Current s n ∨ Submits t s.shared (s.pc t) sh' pc' n := by
  have hMine : pc'.node = some n ∨ sh'.ref = .full n → Current s n ∨ _ := fun hNode =>
    (h.node hNode).elim (fun hNode => Or.inl (Or.inr ⟨t, hNode⟩)) (Or.imp Or.inl id)
  rcases hCurrent with hRef | ⟨u, hNode⟩
  · exact hMine (Or.inr hRef)
  · by_cases hut : u = t
    · subst hut
      exact hMine (Or.inl (by simpa using hNode))
    · rw [State.put_of_ne _ _ _ hut] at hNode
      exact Or.inl (Or.inr ⟨u, hNode⟩)

/-- The main thread is in the script after a step only if it was before. -/
theorem Does.inScript_put (h : Does t s.shared (s.pc t) l sh' pc') (hMain : (s.pc main).ofTest = false)
    (hScript : ((s.put t sh' pc').pc main).inScript = true) : (s.pc main).inScript = true := by
  by_cases hut : main = t
  · subst hut
    exact h.inScript hMain (by simpa using hScript)
  · rwa [State.put_of_ne _ _ _ hut] at hScript

theorem Does.force_main (h : Does t sh pc l sh' pc') (hForce : l = .force) : t = main := by
  cases h
  case force hMain => exact hMain
  all_goals cases hForce

/-- The main thread ends the execution late after a step if it did before or forces the lock. -/
theorem Does.late_put (h : Does t s.shared (s.pc t) l sh' pc')
    (hLate : ((s.put t sh' pc').pc main).late = false) : (s.pc main).late = false ∧ l ≠ .force := by
  by_cases hut : main = t
  · subst hut
    rw [State.put_self] at hLate
    constructor
    · rw [← Bool.not_eq_true]
      intro hBefore
      simp [h.late (Or.inl hBefore)] at hLate
    · intro hBefore
      simp [h.late (Or.inr hBefore)] at hLate
  · rw [State.put_of_ne _ _ _ hut] at hLate
    exact ⟨hLate, fun hForce => hut (h.force_main hForce).symm⟩

/-- No node is current where the main thread is in the script and waits for none. -/
theorem Tracked.not_current (hT : Tracked s) (hScript : (s.pc main).inScript = true)
    (hAwaits : (s.pc main).awaits = none) : ¬ Current s n := by
  intro hCurrent
  cases (hT.awaits hScript n hCurrent).symm.trans hAwaits

/-- The nodes stay what they are while one of them is current. -/
theorem Tracked.nodes_eq (hT : Tracked s) (h : Does t s.shared (s.pc t) l sh' pc')
    (hCurrent : Current s n) : sh'.nodes = s.shared.nodes := by
  cases h.effect with
  | quiet hNodes _ _ _ => exact hNodes
  | submit kind pred hMain hPc _ _ =>
    subst hMain
    exact absurd hCurrent (hT.not_current (by rw [hPc]; rfl) (by rw [hPc]; rfl))
  | constrain _ _ hNodes _ _ => exact hNodes
  | consume _ _ _ _ hShared _ => rw [hShared]
  | evaluate _ _ _ _ _ _ _ _ _ _ hShared _ => rw [hShared]

/-- The node that is current is the one the main thread waits for. -/
theorem Tracked.awaits_step (hT : Tracked s) (h : Does t s.shared (s.pc t) l sh' pc')
    (hScript : ((s.put t sh' pc').pc main).inScript = true)
    (hCurrent : Current (s.put t sh' pc') n) : ((s.put t sh' pc').pc main).awaits = some n := by
  have hBefore := h.inScript_put hT.ofMain hScript
  rcases h.current hCurrent with hOld | hSubmits
  · have hAwaits := hT.awaits hBefore n hOld
    by_cases hut : main = t
    · subst hut
      rw [State.put_self] at hScript ⊢
      refine (h.awaits hAwaits hScript).resolve_right ?_
      rintro ⟨c, hPc⟩
      -- the main thread has taken the empty reference out, no node is left
      have hHolds : (s.pc main).holds = true := by rw [hPc]; rfl
      have hNode := (hT.locked (Pc.late_of_inScript hBefore)).node_of_current hOld hHolds
      rw [hPc] at hNode
      cases hNode
    · rwa [State.put_of_ne _ _ _ hut]
  · obtain rfl := hSubmits.isMain
    rw [State.put_self, hSubmits.place]
    rfl

theorem Tracked.last_step (hT : Tracked s) (h : Does t s.shared (s.pc t) l sh' pc')
    (hCurrent : Current (s.put t sh' pc') n) : n + 1 = sh'.nodes.length := by
  rcases h.current hCurrent with hOld | hSubmits
  · rw [hT.nodes_eq h hOld]
    exact hT.last n hOld
  · obtain ⟨kind, pred, hNodes⟩ := hSubmits.nodes
    simp [hNodes, hSubmits.number]

/-- It was submitted with the constraints that are installed. -/
theorem Tracked.installed_step (hT : Tracked s) (h : Does t s.shared (s.pc t) l sh' pc')
    (hScript : ((s.put t sh' pc').pc main).inScript = true)
    (hCurrent : Current (s.put t sh' pc') n) :
    ∃ info, sh'.nodes[n]? = some info ∧ info.installed = sh'.constraints := by
  have hBefore := h.inScript_put hT.ofMain hScript
  rcases h.current hCurrent with hOld | hSubmits
  · have hConstraints : sh'.constraints = s.shared.constraints := by
      cases h.effect with
      | quiet _ hConstraints _ _ => exact hConstraints
      | submit _ _ _ _ hShared _ => rw [hShared]
      | constrain hMain hPc _ _ _ =>
        subst hMain
        rcases hPc with hPc | ⟨_, hOut⟩
        · exact absurd hOld (hT.not_current hBefore (by rw [hPc]; rfl))
        · rw [State.put_self, hOut] at hScript
          cases hScript
      | consume _ _ _ _ hShared _ => rw [hShared]
      | evaluate _ _ _ _ _ _ _ _ _ _ hShared _ => rw [hShared]
    rw [hT.nodes_eq h hOld, hConstraints]
    exact hT.installed hBefore n hOld
  · obtain ⟨kind, pred, hNodes⟩ := hSubmits.nodes
    exact ⟨_, by rw [hNodes, hSubmits.number, List.getElem?_concat_length],
      hSubmits.others.1.symm⟩

/-- Only nodes that were submitted are consumed. -/
theorem Tracked.consumedLt_step (hT : Tracked s) (h : Does t s.shared (s.pc t) l sh' pc')
    (hConsumed : n ∈ sh'.consumed) : n < sh'.nodes.length := by
  cases h.effect with
  | quiet hNodes _ hSame _ =>
    rw [hNodes]
    exact hT.consumedLt n (hSame ▸ hConsumed)
  | submit _ _ _ _ hShared _ =>
    subst hShared
    have hLt := hT.consumedLt n hConsumed
    simpa using Nat.lt_succ_of_lt hLt
  | constrain _ _ hNodes hSame _ =>
    rw [hNodes]
    exact hT.consumedLt n (hSame ▸ hConsumed)
  | consume o m take hPc hShared _ =>
    subst hShared
    rcases List.mem_cons.mp hConsumed with rfl | hOld
    · have hLast := hT.last n (Or.inr ⟨t, by rw [hPc]; rfl⟩)
      exact Nat.lt_of_succ_le (Nat.le_of_eq hLast)
    · exact hT.consumedLt n hOld
  | evaluate _ _ _ _ _ _ _ _ _ _ hShared _ =>
    subst hShared
    exact hT.consumedLt n hConsumed

/-- The current node has not been consumed: the step that consumes it takes it out of the
reference. -/
theorem Tracked.unconsumed_step (hT : Tracked s) (h : Does t s.shared (s.pc t) l sh' pc')
    (hLocked : Locked (s.put t sh' pc')) (hOld : Current s n → n ∉ s.shared.consumed)
    (hCurrent : Current (s.put t sh' pc') n) : n ∉ sh'.consumed := by
  rcases h.current hCurrent with hBefore | hSubmits
  · have hNot := hOld hBefore
    cases h.effect with
    | quiet _ _ hSame _ => rwa [hSame]
    | submit _ _ _ _ hShared _ => rwa [hShared]
    | constrain _ _ _ hSame _ => rwa [hSame]
    | consume o m take hPc hShared hPc' =>
      -- the thread that consumes the node leaves nothing in the reference
      have hHolds : ((s.put t sh' pc').pc t).holds = true := by rw [State.put_self, hPc']; rfl
      have hNode := hLocked.node_of_current hCurrent hHolds
      rw [State.put_self, hPc'] at hNode
      cases hNode
    | evaluate _ _ _ _ _ _ _ _ _ _ hShared _ => rwa [hShared]
  · intro hConsumed
    rw [hSubmits.others.2, hSubmits.number] at hConsumed
    exact absurd (hT.consumedLt _ hConsumed) (Nat.lt_irrefl _)

/-- **Step lemma** for the current node. -/
theorem Tracked.step (hT : Tracked s) (h : Step s (t, l) s') : Tracked s' := by
  cases h with
  | @mk _ _ sh' pc' hDoes => ?_
  have hLocked : ((s.put t sh' pc').pc main).late = false → Locked (s.put t sh' pc') := by
    intro hLate
    obtain ⟨hBefore, hForce⟩ := hDoes.late_put hLate
    exact (hT.locked hBefore).step (.mk hDoes) (absurd · hForce)
  refine ⟨?_, hLocked, fun hLate u c hPc => ?_, fun n => hT.last_step hDoes,
    fun hScript n => hT.awaits_step hDoes hScript, fun hScript n => hT.installed_step hDoes hScript,
    fun n => hT.consumedLt_step hDoes, fun hLate n =>
      hT.unconsumed_step hDoes (hLocked hLate) (hT.unconsumed (hDoes.late_put hLate).1 n)⟩
  · by_cases hut : main = t
    · subst hut
      rw [State.put_self]
      exact hDoes.ofTest hT.ofMain
    · rw [State.put_of_ne _ _ _ hut]
      exact hT.ofMain
  · obtain ⟨hBefore, hForce⟩ := hDoes.late_put hLate
    have hStays : Ended s → Ended (s.put t sh' pc') := fun hEnded =>
      hEnded.step (hT.locked hBefore) (.mk hDoes) hForce
    by_cases hut : u = t
    · subst hut
      rw [State.put_self] at hPc
      rcases hDoes.ref_of_end hPc with hRef | hOld
      · exact Or.inl hRef
      · exact hStays (hT.ended hBefore u c hOld)
    · rw [State.put_of_ne _ _ _ hut] at hPc
      exact hStays (hT.ended hBefore u c hPc)

theorem tracked {ok : State P Trans → Nat × Label → Prop}
    (h : Runs.ReachableUnder (system P Trans) ok s) : Tracked s :=
  h.invariant (fun _ hInit => hInit ▸ tracked_start) fun _ _ _ hT _ hStep => hT.step hStep

end Protocol

end Concurrit.Model
