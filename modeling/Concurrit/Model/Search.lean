import Concurrit.Model.EndExecution
import Concurrit.Model.Explorer

/-!
# Concurrit — steps of an exploration

One step of the explorer from a running state: an operation advances the
execution in progress, or the execution ends, after which the search stops or
restarts (`StepCase`). Every running state is tidy.
-/

namespace Concurrit.Model

variable {cfg : Cfg} {script : Script} {nondet : StaticId → Bool} {numMembers : Nat}
  {s s' : Explorer} {env : Env}

/-- The state in which the next execution starts. -/
def Explorer.restarted (s : Explorer) (m : Manager) (ended : Execution) : Explorer :=
  { mgr := m
    history := []
    recorded := m.nodeStack
    executed := s.executed ++ [ended]
    status := .running }

/-- Where an internal check can fail. -/
inductive CheckFails (cfg : Cfg) (m : Manager) (op : Op) (env : Env) : Prop where
  | operation (hOp : m.dslOp op env = none) : CheckFails cfg m op env
  | ending (m₁ : Manager) (reason : BacktrackReason) (hOp : m.dslOp op env = some (m₁, .throws reason))
      (hEnd : m₁.endWithSuccess cfg (Explorer.handledReason reason env) = none) :
      CheckFails cfg m op env
  | restarting (m₁ m' : Manager) (reason : BacktrackReason)
      (hOp : m.dslOp op env = some (m₁, .throws reason))
      (hEnd : m₁.endWithSuccess cfg (Explorer.handledReason reason env) = some m')
      (hRoot : m'.isCovered ROOTNODE = false) (hRestart : m'.restart cfg = none) :
      CheckFails cfg m op env

/-- What one step from a running state can do. -/
inductive StepCase (cfg : Cfg) (script : Script) (s : Explorer) (env : Env) : Explorer → Prop where
  | failed (s' : Explorer) (hFailed : s'.status = .failed)
      (hWhy : CheckFails cfg s.mgr (script s.history) env) : StepCase cfg script s env s'
  | advanced (m' : Manager) (a : Answer)
      (hOp : s.mgr.dslOp (script s.history) env = some (m', .returns a)) :
      StepCase cfg script s env { s with mgr := m', history := s.history ++ [a] }
  | stopped (m₁ m' : Manager) (reason : BacktrackReason)
      (hOp : s.mgr.dslOp (script s.history) env = some (m₁, .throws reason))
      (hEnd : m₁.endWithSuccess cfg (Explorer.handledReason reason env) = some m')
      (hRoot : m'.isCovered ROOTNODE = true) :
      StepCase cfg script s env { s with
        mgr := m'
        executed := s.executed ++ [⟨s.history, Explorer.handledReason reason env⟩]
        status := .stopped }
  | restarted (m₁ m' m'' : Manager) (reason : BacktrackReason)
      (hOp : s.mgr.dslOp (script s.history) env = some (m₁, .throws reason))
      (hEnd : m₁.endWithSuccess cfg (Explorer.handledReason reason env) = some m')
      (hRoot : m'.isCovered ROOTNODE = false) (hRestart : m'.restart cfg = some m'') :
      StepCase cfg script s env
        (s.restarted m'' ⟨s.history, Explorer.handledReason reason env⟩)

/-- **Inversion of one step.** -/
theorem step_cases (hRun : s.status = .running) :
    StepCase cfg script s env (s.step cfg script env) := by
  obtain ⟨mgr, history, recorded, executed, status⟩ := s
  obtain rfl : status = .running := hRun
  unfold Explorer.step
  dsimp only
  rcases hOp : mgr.dslOp (script history) env with _ | ⟨m₁, a | reason⟩
  · exact .failed _ rfl (.operation hOp)
  · exact .advanced m₁ a hOp
  · dsimp only
    unfold Explorer.endExecution
    dsimp only
    rcases hEnd : m₁.endWithSuccess cfg (Explorer.handledReason reason env) with _ | m'
    · exact .failed _ rfl (.ending m₁ reason hOp hEnd)
    · dsimp only
      by_cases hRoot : m'.isCovered ROOTNODE = true
      · rw [if_pos hRoot]
        exact .stopped m₁ m' reason hOp hEnd hRoot
      · rw [if_neg hRoot]
        unfold Explorer.startExecution
        dsimp only
        rcases hRestart : m'.restart cfg with _ | m''
        · exact .failed _ rfl (.restarting m₁ m' reason hOp hEnd (by simpa using hRoot) hRestart)
        · exact .restarted m₁ m' m'' reason hOp hEnd (by simpa using hRoot) hRestart

/-- A step from a state that is not running changes nothing. -/
theorem step_of_not_running (hRun : s.status ≠ .running) : s.step cfg script env = s := by
  unfold Explorer.step
  split
  · rename_i h
    exact absurd h hRun
  · rfl

-- ---------------------------------------------------------------------------
-- The initial state
-- ---------------------------------------------------------------------------

/-- The tree of the beginning: the root, the end node and nothing else. -/
theorem wellFormed_initial (nondet : StaticId → Bool) (numMembers : Nat) :
    WellFormed (Manager.initial nondet numMembers).heap (Manager.initial nondet numMembers).next := by
  have hCases : ∀ {n : Nat} {nd : Node}, (Manager.initial nondet numMembers).heap n = some nd →
      (n = ROOTNODE ∧ nd = Node.new .root) ∨
      (n = ENDNODE ∧ nd = ⟨.endNode, none, [some ENDNODE], true⟩) := by
    intro n nd hn
    simp only [Manager.initial] at hn
    split at hn
    · rename_i hRoot
      exact Or.inl ⟨hRoot, (Option.some.inj hn).symm⟩
    · split at hn
      · rename_i hEnd
        exact Or.inr ⟨hEnd, (Option.some.inj hn).symm⟩
      · cases hn
  have hSlots : ∀ {n i c : Nat}, Slot (Manager.initial nondet numMembers).heap n i c →
      c = ENDNODE := by
    rintro n i c ⟨nd, hn, hc⟩
    rcases hCases hn with ⟨_, rfl⟩ | ⟨_, rfl⟩
    · exact absurd hc (noChildren_new .root i c)
    · rcases i with _ | i
      · exact (Option.some.inj (Option.some.inj hc)).symm
      · cases hc
  refine ⟨Nat.lt_succ_self 1, ?_, ⟨_, rfl, rfl⟩, ⟨none, rfl⟩, ?_, ?_, ?_⟩
  · intro n hn
    have hn' : 2 ≤ n := hn
    have hRoot : n ≠ ROOTNODE := Nat.ne_of_gt (Nat.lt_of_lt_of_le (by decide) hn')
    have hEnd : n ≠ ENDNODE := Nat.ne_of_gt (Nat.lt_of_lt_of_le (by decide) hn')
    simp only [Manager.initial, if_neg hRoot, if_neg hEnd]
  · intro n nd hn
    rcases hCases hn with ⟨_, rfl⟩ | ⟨_, rfl⟩
    · rfl
    · rfl
  · intro n i c hc hEnd
    exact absurd (hSlots hc) hEnd
  · intro n i j c hc _ hEnd
    exact absurd (hSlots hc) hEnd

/-- The manager the first execution starts with. -/
theorem restart_initial (cfg : Cfg) (nondet : StaticId → Bool) (numMembers : Nat) :
    (Manager.initial nondet numMembers).restart cfg =
      some { Manager.initial nondet numMembers with stackIndex := 1 } := by
  have hLinked : Linked (Manager.initial nondet numMembers).heap
      (Manager.initial nondet numMembers).nodeStack := linked_root (wellFormed_initial nondet numMembers)
  rw [restart_eq cfg hLinked]
  split <;> rfl

/-- The state before the first operation, written out. -/
theorem initial_eq (cfg : Cfg) (nondet : StaticId → Bool) (numMembers : Nat) :
    Explorer.initial cfg nondet numMembers =
      { mgr := { Manager.initial nondet numMembers with stackIndex := 1 }
        history := []
        recorded := [⟨ROOTNODE, 0⟩]
        executed := []
        status := .running } := by
  unfold Explorer.initial Explorer.startExecution
  dsimp only
  rw [restart_initial]
  rfl

theorem tidy_initial (nondet : StaticId → Bool) (numMembers : Nat) :
    Tidy { Manager.initial nondet numMembers with stackIndex := 1 } :=
  ⟨wellFormed_initial nondet numMembers, linked_root (wellFormed_initial nondet numMembers),
    Nat.le_refl _, Nat.le_refl _⟩

-- ---------------------------------------------------------------------------
-- Running states are tidy
-- ---------------------------------------------------------------------------

/-- Between two operations the manager is tidy, in a new execution as well. -/
theorem tidy_step (t : s.status = .running → Tidy s.mgr)
    (hRun : (s.step cfg script env).status = .running) : Tidy (s.step cfg script env).mgr := by
  by_cases hWas : s.status = .running
  · have hCase : StepCase cfg script s env (s.step cfg script env) := step_cases hWas
    generalize s.step cfg script env = s' at hCase hRun
    cases hCase with
    | failed s' hFailed _ =>
      rw [hFailed] at hRun
      cases hRun
    | advanced m' a hOp => exact (dslOp_cases (t hWas) hOp).tidy (t hWas)
    | stopped => cases hRun
    | restarted m₁ m' m'' reason hOp hEnd hRoot hRestart =>
      obtain ⟨wf, hLinked⟩ := endWithSuccess_linked ((dslOp_cases (t hWas) hOp).tidy (t hWas)) hEnd hRoot
      exact tidy_restart wf hLinked hRestart
  · rw [step_of_not_running hWas] at hRun
    exact absurd hRun hWas

/-- **Every running state of an exploration is tidy.** -/
theorem tidy_reachable {ok : Explorer → Env → Prop}
    (h : Runs.ReachableUnder (Explorer.system cfg script nondet numMembers) ok s) :
    s.status = .running → Tidy s.mgr := by
  refine h.invariant (P := fun s => s.status = .running → Tidy s.mgr) ?_ ?_
  · rintro _ rfl _
    rw [initial_eq]
    exact tidy_initial nondet numMembers
  · rintro s env _ t _ rfl hRun
    exact tidy_step t hRun

end Concurrit.Model
