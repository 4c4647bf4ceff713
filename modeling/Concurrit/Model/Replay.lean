import Concurrit.Model.Covering
import Concurrit.Model.Orderly

/-!
# Concurrit — replaying the recorded path

A re-execution of a plain script starts with the path the stack records. Each of
its operations finds the recorded node and returns the recorded answer, and the
stack stays as it is (`Replays`), unless the recorded branch has meanwhile been
marked as ending: then the check of `DSLChoice` fails. The mark is kept for the
choice in the source of the script, and the recorded branch may belong to
another instance of that choice than the one that has ended the script.
-/

namespace Concurrit.Model

variable {cfg : Cfg} {script : Script} {nondet : StaticId → Bool} {numMembers : Nat}
  {s s' : Explorer} {env : Env} {l : ChildLoc}

/-- The step replays the recorded location: the operation works on the recorded node
and returns what its slot stands for, and the recorded stack is kept. -/
structure Replays (s s' : Explorer) (l : ChildLoc) : Prop where
  running  : s'.status = .running
  recorded : s'.recorded = s.recorded
  stack    : s'.mgr.nodeStack = s.recorded
  position : s'.mgr.stackIndex = s'.history.length + 1
  location : s'.mgr.getLastNodeInStack = some l
  answer   : ∃ a, s'.history = s.history ++ [a] ∧ Labels s.mgr.heap l a

/-- A running state of an exploration without timeouts. -/
structure OnTrack (script : Script) (s : Explorer) : Prop where
  orderly  : ∃ ρ, Orderly script s.mgr s.history ρ
  recorded : s.mgr.stackIndex < s.recorded.length → s.mgr.nodeStack = s.recorded

/-- The surroundings cooperate with the operation in progress. -/
def Cooperates (script : Script) (s : Explorer) (env : Env) : Prop :=
  s.status = .running → Prompt (script s.history) env

/-- A step that does not end the exploration stays on the recorded path. -/
theorem onTrack_step (hPlain : Script.Plain script) (h : OnTrack script s) (hRun : s.status = .running)
    (hPrompt : Prompt (script s.history) env) (hRun' : (s.step cfg script env).status = .running) :
    OnTrack script (s.step cfg script env) := by
  obtain ⟨ρ, hO⟩ := h.orderly
  have hCase : StepCase cfg script s env (s.step cfg script env) := step_cases hRun
  generalize s.step cfg script env = s' at hCase hRun'
  cases hCase with
  | failed _ hFailed _ =>
    rw [hFailed] at hRun'
    cases hRun'
  | advanced m' a hOp =>
    obtain ⟨n, nd, m₁, i, ρ', hR, hO'⟩ := hO.advance hPlain hOp
    refine ⟨⟨ρ', hO'⟩, fun hLt => ?_⟩
    have hIndex : m'.stackIndex = s.mgr.stackIndex + 1 := by
      rw [hR.consumed.stackIndex, hR.submitted.stack.2]
    have hLt' : s.mgr.stackIndex + 1 < s.recorded.length := hIndex ▸ hLt
    have hStack := h.recorded (by omega)
    exact (hR.moved.kept (by rw [hStack]; omega)).1.trans hStack
  | stopped => cases hRun'
  | restarted m₁ m' m'' reason hOp hEnd hRoot hRestart =>
    have hT := hO.throws hPlain hPrompt hOp
    obtain ⟨hAll, hLate, _⟩ := hT.reason_ne
    have hHandled : Explorer.handledReason reason env = reason := if_neg fun hBoth => hLate hBoth.1
    rw [hHandled] at hEnd
    obtain ⟨j, _, _, hO', _⟩ := (hO.throws_closable hT).next hAll hEnd hRoot hRestart
    exact ⟨⟨_, hO'⟩, fun _ => rfl⟩

/-- **While nothing times out every running state is on track.** -/
theorem onTrack_reachable (hPlain : Script.Plain script)
    (h : Runs.ReachableUnder (Explorer.system cfg script nondet numMembers) (Cooperates script) s) :
    s.status = .running → OnTrack script s := by
  refine h.invariant (P := fun s => s.status = .running → OnTrack script s) ?_ ?_
  · rintro _ rfl _
    rw [initial_eq]
    exact ⟨⟨[], orderly_initial script nondet numMembers⟩, fun _ => rfl⟩
  · rintro s env _ hOn hCoop rfl hRun
    by_cases hWas : s.status = .running
    · exact onTrack_step hPlain (hOn hWas) hWas (hCoop hWas) hRun
    · have hSame : s.step cfg script env = s := step_of_not_running hWas
      rw [hSame] at hRun
      exact absurd hRun hWas

/-- **The step that consumes a recorded location replays it.** -/
theorem OnTrack.replays {ρ : List Answer} (h : OnTrack script s) (hO : Orderly script s.mgr s.history ρ)
    (hRun : s.status = .running) (hPlain : Script.Plain script)
    (hl : s.recorded[s.mgr.stackIndex]? = some l) {m' : Manager} {a : Answer}
    (hOp : s.mgr.dslOp (script s.history) env = some (m', .returns a)) :
    Replays s { s with mgr := m', history := s.history ++ [a] } l ∧
      ∀ X, script s.history = .choice X → (s.mgr.infos X).covered (l.childIndex == 1) = false := by
  have hLt := (List.getElem?_eq_some_iff.mp hl).1
  have hStack := h.recorded hLt
  obtain ⟨n, nd, m₁, i, ρ', hR, hO'⟩ := hO.advance hPlain hOp
  have hKept := hR.moved.kept (by rw [hStack]; exact hLt)
  obtain ⟨hStack₁, hIndex₁⟩ := hR.submitted.stack
  -- it consumes the recorded location
  have hConsumed : l = ⟨n, i⟩ := by
    have hLast := (Manager.getLastNodeInStack_eq_some.mp hR.consumed.getLast).2
    rw [hR.consumed.stackIndex, hIndex₁, Nat.add_sub_cancel, hKept.1, hStack, hl] at hLast
    exact Option.some.inj hLast
  have hTaken : ∀ {m : Manager} {history ρ : List Answer}, Tidy m → Tracks script m history ρ →
      m.stackIndex = history.length + 1 := by
    intro m history ρ t hT
    have hLen := congrArg List.length hT.taken
    rw [List.length_take, ← hT.labelled.length, Nat.min_eq_left t.le] at hLen
    simpa using hLen
  refine ⟨⟨hRun, rfl, hKept.1.trans hStack, hTaken hO'.tidy hO'.tracks,
    hConsumed ▸ hR.consumed.getLast, a, rfl, ?_⟩, fun X hX => ?_⟩
  · have hAt : s.mgr.nodeStack[s.mgr.stackIndex]? = some l := by rw [hStack, hl]
    obtain ⟨b, hb, hLabel⟩ := hO.tracks.labelled.exists_answer hAt
    -- the answer is the next one of the recorded path
    have hTaken' := hO'.tracks.taken
    rw [hKept.2, show m'.stackIndex = s.mgr.stackIndex + 1 from by
      rw [hR.consumed.stackIndex, hIndex₁], List.take_add_one, hO.tracks.taken, hb] at hTaken'
    have hEq : b = a := by simpa using hTaken'
    rwa [← hEq]
  · have hTakes := hR.takes
    have hMatch := (hO.tracks.plainStep hO.tidy hPlain hR.submitted hR.takes).kind
    rw [hX] at hTakes hMatch
    have hKind : nd.kind = .choice X := by
      cases hk : nd.kind <;> rw [hk] at hMatch <;> first | exact absurd hMatch id | skip
      rw [show _ = X from hMatch]
    cases hTakes with
    | choice _ _ _ _ _ hOpen =>
      rw [hConsumed, ← hR.submitted.infos]
      by_contra hMark
      rw [childCovered_iff.mpr (Or.inr ⟨X, hKind, by simpa using hMark⟩)] at hOpen
      cases hOpen

/-- **Replay follows the recorded path** if and only if the recorded branch is not
marked as ending: in every exploration of a plain script without timeouts, at every
operation before the end of the recorded stack. -/
theorem replay_iff (hPlain : Script.Plain script)
    (hReach : Runs.ReachableUnder (Explorer.system cfg script nondet numMembers)
      (Cooperates script) s)
    (hRun : s.status = .running) (hl : s.recorded[s.mgr.stackIndex]? = some l)
    (hPrompt : Prompt (script s.history) env) :
    Replays s (s.step cfg script env) l ↔
      ∀ X, script s.history = .choice X → (s.mgr.infos X).covered (l.childIndex == 1) = false := by
  have h := onTrack_reachable hPlain hReach hRun
  obtain ⟨ρ, hO⟩ := h.orderly
  have hLt := (List.getElem?_eq_some_iff.mp hl).1
  have hStack := h.recorded hLt
  have hAdvance : ∀ {m' a}, s.mgr.dslOp (script s.history) env = some (m', .returns a) →
      s.step cfg script env = { s with mgr := m', history := s.history ++ [a] } := by
    intro m' a hOp
    unfold Explorer.step
    simp only [hRun, hOp]
  constructor
  · intro hReplays
    have hCase : StepCase cfg script s env (s.step cfg script env) := step_cases hRun
    generalize s.step cfg script env = s' at hCase hReplays
    cases hCase with
    | failed _ hFailed _ =>
      have hRun' := hReplays.running
      rw [hFailed] at hRun'
      cases hRun'
    | advanced m' a hOp => exact (h.replays hO hRun hPlain hl hOp).2
    | stopped =>
      have hRun' := hReplays.running
      cases hRun'
    | restarted =>
      -- the history starts again, and does not grow
      obtain ⟨a, hGrown, _⟩ := hReplays.answer
      have hGrown' : ([] : List Answer) = s.history ++ [a] := hGrown
      simp at hGrown'
  · intro hUnmarked
    have hGoes : ¬ (script s.history).Ends := by
      intro hEnds
      have hLen := congrArg List.length hO.tracks.taken
      rw [hO.tracks.path_eq_of_ends hEnds, List.length_take] at hLen
      have hLenStack := hO.tracks.labelled.length
      rw [hO.tracks.path_eq_of_ends hEnds, hStack] at hLenStack
      omega
    have hMarks : Unmarked s.mgr (script s.history) := by
      intro X hX
      refine ⟨fun l' hl' => ?_, fun hEnd => ?_⟩
      · rw [hStack, hl] at hl'
        rw [← Option.some.inj hl']
        exact hUnmarked X hX
      · rw [hStack] at hEnd
        omega
    obtain ⟨m', a, hOp⟩ :=
      hO.tracks.returns hO.tidy hO.flagged hO.open_ hPlain hMarks hPrompt hGoes
    rw [hAdvance hOp]
    exact (h.replays hO hRun hPlain hl hOp).1

theorem plain_endingLaterScript : Script.Plain endingLaterScript := by
  intro history
  unfold endingLaterScript
  split <;> trivial

theorem prompt_bitEnv (history : List Answer) (bit : Bool) :
    Prompt (endingLaterScript history) (bitEnv bit) := by
  refine ⟨rfl, rfl, fun scope hOp => ?_⟩
  unfold endingLaterScript at hOp
  split at hOp <;> cases hOp

/-- The exploration of `endingLaterScript` after these random bits, none of whose
operations has timed out. -/
theorem explored_cooperates (nondet : Bool) (bits : List Bool) :
    Runs.ReachableUnder (Explorer.system markingCfg endingLaterScript (fun _ => nondet) 0)
      (Cooperates endingLaterScript) (explored endingLaterScript nondet bits) := by
  refine Runs.reachableUnder_foldl (.init rfl) _ fun s env hMem _ => ?_
  obtain ⟨bit, _, rfl⟩ := List.mem_map.mp hMem
  exact prompt_bitEnv s.history bit

/-- The replay of a choice whose recorded branch is not marked. -/
theorem replay_iff_ending_later :
    Replays (explored endingLaterScript true [true, false, false])
      ((explored endingLaterScript true [true, false, false]).step markingCfg endingLaterScript
        (bitEnv false)) ⟨2, 1⟩ := by
  refine (replay_iff plain_endingLaterScript (explored_cooperates true [true, false, false]) rfl rfl
    (prompt_bitEnv _ false)).mpr fun X hX => ?_
  obtain rfl : 0 = X := Op.choice.inj hX
  rfl

/-- **A mark of another instance breaks the replay.** The choice is taken twice and then
ends the script; in the next execution the check on the first instance fails. -/
theorem replay_fails_ending_later :
    (explored endingLaterScript false [false, false, false]).status = .running ∧
    (explored endingLaterScript false [false, false, false]).recorded[
      (explored endingLaterScript false [false, false, false]).mgr.stackIndex]? = some ⟨2, 1⟩ ∧
    ((explored endingLaterScript false [false, false, false]).step markingCfg endingLaterScript
      (bitEnv false)).status = .failed ∧
    ¬ Replays (explored endingLaterScript false [false, false, false])
      ((explored endingLaterScript false [false, false, false]).step markingCfg endingLaterScript
        (bitEnv false)) ⟨2, 1⟩ := by
  have hFailed : ((explored endingLaterScript false [false, false, false]).step markingCfg
      endingLaterScript (bitEnv false)).status = .failed := rfl
  refine ⟨rfl, rfl, hFailed, fun hReplays => ?_⟩
  have hRun := hReplays.running
  rw [hFailed] at hRun
  cases hRun

end Concurrit.Model
