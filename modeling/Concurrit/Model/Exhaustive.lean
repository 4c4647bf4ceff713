import Concurrit.Lib.Runs
import Concurrit.Model.Orderly
import Concurrit.Model.ScriptTree

/-!
# Concurrit — exhaustive search

Without ending-branch marks and timeouts, `Explore` executes every path of a
finite script exactly once and then stops. The invariant (`Searched`) says that
what has been executed are different leaves, that each of them is closed off by
an end node, and that everything below a covered node has been executed.
-/

namespace Concurrit.Model

variable {cfg : Cfg} {script : Script} {s s' : Explorer} {env : Env} {tree : ScriptTree}

/-- The leaf has been executed. -/
def Executed (executed : List Execution) (leaf : List Answer) : Prop :=
  ∃ e ∈ executed, e.history = leaf

/-- The tree records what has been executed, and nothing else. -/
structure Recorded (script : Script) (m : Manager) (executed : List Execution) : Prop where
  unmarked : ∀ i b, (m.infos i).covered b = false
  nodup    : (executed.map Execution.history).Nodup
  leaf     : ∀ e ∈ executed, Leaf script e.history ∧ e.reason = .success
  ended    : ∀ e ∈ executed, EndedAt m.heap e.history
  sound    : Sound script m (Executed executed)

structure Searched (script : Script) (s : Explorer) : Prop where
  alive    : s.status ≠ .failed
  recorded : Recorded script s.mgr s.executed
  running  : s.status = .running → ∃ ρ, Orderly script s.mgr s.history ρ
  stopped  : s.status = .stopped → s.mgr.isCovered ROOTNODE = true

/-- How a step makes progress: another answer, or another execution. -/
def Advances (s s' : Explorer) : Prop :=
  (s'.executed.length = s.executed.length ∧ s'.history.length = s.history.length + 1) ∨
  s'.executed.length = s.executed.length + 1

/-- The search begins at the root, with nothing executed. -/
theorem searched_initial (cfg : Cfg) (script : Script) (nondet : StaticId → Bool) (numMembers : Nat) :
    Searched script (Explorer.initial cfg nondet numMembers) := by
  rw [initial_eq]
  have hO := orderly_initial script nondet numMembers
  refine ⟨by simp, ⟨fun _ _ => rfl, List.nodup_nil, ?_, ?_, ?_⟩, fun _ => ⟨[], hO⟩, fun h => by cases h⟩
  · intro e he
    cases he
  · intro e he
    cases he
  -- the root is all there is, and it is not covered
  · intro path n hn hCov
    obtain ⟨_, rfl⟩ := nodeAt_initial nondet numMembers hn
    cases hCov

/-- Without marks nothing the operation meets is marked. -/
theorem unmarked_of_none {m : Manager} (hMarks : ∀ i b, (m.infos i).covered b = false) (op : Op) :
    Unmarked m op := by
  intro i _
  exact ⟨fun _ _ => hMarks i _, fun _ => hMarks i⟩

/-- **No check fails** in an orderly state without marks. -/
theorem Orderly.not_checkFails {m : Manager} {history ρ : List Answer}
    (hO : Orderly script m history ρ) (hPlain : Script.Plain script)
    (hPrompt : Prompt (script history) env) (hMarks : ∀ i b, (m.infos i).covered b = false) :
    ¬ CheckFails cfg m (script history) env := by
  -- what throws is the end of the script
  have hThrows : ∀ {m₁ reason}, m.dslOp (script history) env = some (m₁, .throws reason) →
      m₁ = m ∧ Explorer.handledReason reason env = reason ∧ reason ≠ .threadsAllEnded ∧
        (reason ≠ .searchEnds ∧ reason ≠ .exception ∧ reason ≠ .unknown) := by
    intro m₁ reason hOp
    have hT := hO.throws hPlain hPrompt hOp
    obtain ⟨hAll, hLate, hOther⟩ := hT.reason_ne
    refine ⟨(hO.throws_unmarked hT hMarks).2, ?_, hAll, hOther⟩
    exact if_neg fun h => hLate h.1
  rintro (hOp | ⟨m₁, reason, hOp, hEnd⟩ | ⟨m₁, m', reason, hOp, hEnd, hRoot, hRestart⟩)
  · by_cases hEnds : (script history).Ends
    · rcases hEnds with h | h
      · rw [h] at hOp
        cases hOp
      · rw [h] at hOp
        cases hOp
    · obtain ⟨_, _, hReturns⟩ := hO.tracks.returns hO.tidy hO.flagged hO.open_ hPlain
        (unmarked_of_none hMarks _) hPrompt hEnds
      rw [hOp] at hReturns
      cases hReturns
  · obtain ⟨rfl, hHandled, hAll, hOther⟩ := hThrows hOp
    obtain ⟨m', hSome⟩ := hO.endWithSuccess_isSome cfg hAll hOther
    rw [hHandled, hSome] at hEnd
    cases hEnd
  · obtain ⟨rfl, _⟩ := hThrows hOp
    obtain ⟨_, hLinked⟩ := endWithSuccess_linked hO.tidy hEnd hRoot
    rw [restart_eq cfg hLinked] at hRestart
    cases hRestart

/-- Without marking no mark is set. -/
theorem markedInfos_off (hMark : cfg.markEndingBranchesCovered = false) (reason : BacktrackReason)
    (infos : StaticId → StaticChoiceInfo) (kind : NodeKind) (i : Nat) :
    Manager.markedInfos cfg reason infos kind i = infos := by
  unfold Manager.markedInfos
  split
  · simp [hMark]
  · rfl

/-- **The end of an execution is recorded.** -/
theorem Recorded.endExecution {m m' : Manager} {executed : List Execution} {history ρ : List Answer}
    (hS : Recorded script m executed) (hO : Orderly script m history ρ)
    (hPlain : Script.Plain script) (hMark : cfg.markEndingBranchesCovered = false)
    (hEnds : (script history).Ends) (hEnd : m.endWithSuccess cfg .success = some m') :
    Recorded script m' (executed ++ [⟨history, .success⟩]) := by
  obtain ⟨last, nd, m₂, mid, hi, F⟩ := hO.closable.finish hEnd
  have hSame : coveredLast .success nd = nd := coveredLast_of_ne (by simp) nd
  have hUnmarked : ∀ i b, (m'.infos i).covered b = false := by
    intro i b
    rw [F.infos, markedInfos_off hMark]
    exact hS.unmarked i b
  -- the stack has been consumed: its path is the history
  obtain rfl : ρ = history := hO.tracks.path_eq_of_ends hEnds
  have hPath : (Answer.unit :: ρ).take (m.stackIndex + 1) = .unit :: ρ := by
    refine List.take_of_length_le (Nat.le_succ_of_le ?_)
    have hLen := congrArg List.length hO.tracks.taken
    rw [List.length_take] at hLen
    omega
  refine ⟨hUnmarked, ?_, ?_, ?_, ?_⟩
  · rw [List.map_append, List.nodup_append]
    refine ⟨hS.nodup, List.nodup_singleton _, fun h hOld h' hNew hEq => ?_⟩
    obtain ⟨e, he, rfl⟩ := List.mem_map.mp hOld
    rw [List.mem_singleton.mp hNew] at hEq
    refine hO.not_endedAt ?_
    rw [show ρ = e.history from hEq.symm]
    exact hS.ended e he
  · intro e he
    rcases List.mem_append.mp he with hOld | hNew
    · exact hS.leaf e hOld
    · rw [List.mem_singleton.mp hNew]
      exact ⟨⟨hO.tracks.admissible, hEnds⟩, rfl⟩
  · intro e he
    refine F.endedAt hSame ?_
    rcases List.mem_append.mp he with hOld | hNew
    · exact Or.inl (hS.ended e hOld)
    · rw [List.mem_singleton.mp hNew, hPath]
      exact Or.inr (List.prefix_refl _)
  · refine F.sound hO.tidy hO.tracks.labelled hPlain hO.tracks.coherent hSame
      (hS.sound.mono ?_) ?_ fun leaf hLeaf => ?_
    · rintro leaf ⟨e, he, hEq⟩
      exact ⟨e, List.mem_append_left _ he, hEq⟩
    · intro h i b _ hCov
      rw [hUnmarked] at hCov
      cases hCov
    · have hAt := hO.tracks.leafAt_history hLeaf
      refine ⟨_, List.mem_append_right _ (List.mem_singleton_self _), ?_⟩
      exact (hAt.1.eq_of_isPrefixOf hEnds (List.cons_prefix_cons.mp hAt.2).2).symm

/-- **An operation that returns leaves the record as it is.** -/
theorem Recorded.advance {m m' m₁ : Manager} {executed : List Execution}
    {history ρ ρ' : List Answer} {a : Answer} {n i : Nat} {nd : Node}
    (hS : Recorded script m executed) (hO : Orderly script m history ρ)
    (hR : Returns script m m' history ρ a env n nd m₁ i ρ') : Recorded script m' executed where
  unmarked := by
    rw [hR.infos]
    exact hS.unmarked
  nodup := hS.nodup
  leaf := hS.leaf
  ended e he := hO.endedAt_advance hR.moved (hS.ended e he)
  sound := hR.sound hO.tidy hS.sound

/-- The restart leaves the record as it is. -/
theorem Recorded.congr {m m' : Manager} {executed : List Execution}
    (hS : Recorded script m executed) (hHeap : m'.heap = m.heap) (hInfos : m'.infos = m.infos) :
    Recorded script m' executed where
  unmarked := by
    rw [hInfos]
    exact hS.unmarked
  nodup := hS.nodup
  leaf := hS.leaf
  ended e he := by
    rw [hHeap]
    exact hS.ended e he
  sound := hS.sound.congr hHeap

-- ---------------------------------------------------------------------------
-- One step
-- ---------------------------------------------------------------------------

/-- **One step keeps the search going**, and gets on with it. -/
theorem Searched.step (hS : Searched script s) (hRun : s.status = .running)
    (hPlain : Script.Plain script) (hGoal : ∀ history, script history ≠ .assumeFails)
    (hMark : cfg.markEndingBranchesCovered = false) (hPrompt : Prompt (script s.history) env) :
    Searched script (s.step cfg script env) ∧ Advances s (s.step cfg script env) := by
  obtain ⟨ρ, hO⟩ := hS.running hRun
  have hRec := hS.recorded
  -- what throws is the end of the script
  have hThrows : ∀ {m₁ reason}, s.mgr.dslOp (script s.history) env = some (m₁, .throws reason) →
      m₁ = s.mgr ∧ reason = .success ∧ Explorer.handledReason reason env = .success ∧
        (script s.history).Ends := by
    intro m₁ reason hOp
    have hT := hO.throws hPlain hPrompt hOp
    obtain ⟨hEnds, hSame⟩ := hO.throws_unmarked hT hRec.unmarked
    have hReason : reason = .success := by
      cases hT with
      | finish => rfl
      | assumeFails hAssume => exact absurd hAssume (hGoal _)
      | covered _ _ _ _ hChoice =>
        rw [hChoice] at hEnds
        rcases hEnds with h | h
        · cases h
        · cases h
    exact ⟨hSame, hReason, by rw [hReason]; rfl, hEnds⟩
  have hCase : StepCase cfg script s env (s.step cfg script env) := step_cases hRun
  generalize s.step cfg script env = s' at hCase
  cases hCase with
  | failed _ _ hWhy => exact absurd hWhy (hO.not_checkFails hPlain hPrompt hRec.unmarked)
  | advanced m' a hOp =>
    obtain ⟨n, nd, m₁, i, ρ', hR, hO'⟩ := hO.advance hPlain hOp
    refine ⟨⟨hS.alive, hRec.advance hO hR, fun _ => ⟨ρ', hO'⟩, fun h => ?_⟩, Or.inl ⟨rfl, by simp⟩⟩
    rw [show s.status = .stopped from h] at hRun
    cases hRun
  | stopped m₁ m' reason hOp hEnd hRoot =>
    obtain ⟨rfl, rfl, hHandled, hEnds⟩ := hThrows hOp
    rw [hHandled] at hEnd ⊢
    exact ⟨⟨by simp, hRec.endExecution hO hPlain hMark hEnds hEnd, (fun h => by cases h), fun _ => hRoot⟩,
      Or.inr (by simp)⟩
  | restarted m₁ m' m'' reason hOp hEnd hRoot hRestart =>
    obtain ⟨rfl, rfl, hHandled, hEnds⟩ := hThrows hOp
    rw [hHandled] at hEnd ⊢
    obtain ⟨j, _, _, hO', hHeap, hInfos, _⟩ :=
      hO.closable.next (by simp) hEnd hRoot hRestart
    exact ⟨⟨by simp [Explorer.restarted], (hRec.endExecution hO hPlain hMark hEnds hEnd).congr hHeap hInfos,
      fun _ => ⟨_, hO'⟩, fun h => by cases h⟩, Or.inr (by simp [Explorer.restarted])⟩

-- ---------------------------------------------------------------------------
-- Whole runs
-- ---------------------------------------------------------------------------

/-- What has been executed are different leaves of the tree. -/
theorem Searched.executed_le (hS : Searched tree.script s) :
    s.executed.length ≤ tree.leaves.length := by
  have hSub : s.executed.map Execution.history ⊆ tree.leaves := by
    intro leaf hMem
    obtain ⟨e, he, rfl⟩ := List.mem_map.mp hMem
    exact ScriptTree.mem_leaves_iff.mpr (hS.recorded.leaf e he).1
  have hLe := (hS.recorded.nodup.subperm hSub).length_le
  rwa [List.length_map] at hLe

/-- **Once the search has stopped every leaf has been executed**, and once only. -/
theorem Searched.executed_perm (hS : Searched tree.script s) (hStopped : s.status = .stopped)
    (hProper : tree.Proper) : (s.executed.map Execution.history).Perm tree.leaves := by
  rw [List.perm_ext_iff_of_nodup hS.recorded.nodup (ScriptTree.leaves_nodup hProper)]
  intro leaf
  rw [ScriptTree.mem_leaves_iff]
  constructor
  · intro hMem
    obtain ⟨e, he, rfl⟩ := List.mem_map.mp hMem
    exact (hS.recorded.leaf e he).1
  · intro hLeaf
    -- the root lies above every leaf
    obtain ⟨e, he, hEq⟩ := hS.recorded.sound [] ROOTNODE rfl (hS.stopped hStopped) leaf
      ⟨hLeaf, List.nil_prefix⟩
    exact List.mem_map.mpr ⟨e, he, hEq⟩

/-- How far the search has got. -/
def searchMeasure (tree : ScriptTree) (s : Explorer) : Nat :=
  s.executed.length * (tree.depth + 1) + s.history.length

/-- A history is never longer than the script is deep. -/
theorem Searched.history_le (hS : Searched tree.script s) (hRun : s.status = .running)
    (hProper : tree.Proper) : s.history.length ≤ tree.depth := by
  obtain ⟨ρ, hO⟩ := hS.running hRun
  have hPre : Answer.unit :: s.history <+: Answer.unit :: ρ := by
    rw [← hO.tracks.taken]
    exact List.take_prefix _ _
  exact ScriptTree.length_le_depth hProper
    (hO.tracks.admissible.shorten (List.cons_prefix_cons.mp hPre).2)

/-- Each step of the search increases its measure: one answer more, or one execution more.
-/
theorem Advances.measure_lt (hA : Advances s s') (hLe : s.history.length ≤ tree.depth) :
    searchMeasure tree s < searchMeasure tree s' := by
  unfold searchMeasure
  rcases hA with ⟨hSame, hLonger⟩ | hNext
  · rw [hSame, hLonger]
    omega
  · rw [hNext, Nat.succ_mul]
    omega

section Run

variable {nondet : StaticId → Bool} {numMembers : Nat} {envs : Nat → Env}

/-- Surroundings in which every thread evaluates every selection are prompt. -/
theorem ScriptTree.Scopes.prompt {threads : List Thread}
    (hRanges : tree.Scopes fun scope => scope.threads ⊆ threads)
    (hOffers : ∀ t ∈ threads, ⟨t, true⟩ ∈ env.offers) (hAlive : env.allEnded = false)
    (hConsumed : env.consumed = true) (history : List Answer) :
    Prompt (tree.script history) env where
  alive := hAlive
  consumed := hConsumed
  offers _ hOp t ht := hOffers t (hRanges.of_script hOp ht)

/-- **Every state of the exploration keeps the record**, while nothing times out. -/
theorem searched_run (hProper : tree.Proper) (hMark : cfg.markEndingBranchesCovered = false)
    (hPrompt : ∀ k, (Explorer.run cfg tree.script nondet numMembers envs k).status = .running →
      Prompt (tree.script (Explorer.run cfg tree.script nondet numMembers envs k).history) (envs k))
    (k : Nat) : Searched tree.script (Explorer.run cfg tree.script nondet numMembers envs k) := by
  refine Runs.trace_invariant (searched_initial cfg tree.script nondet numMembers) (fun k hS => ?_) k
  by_cases hRun : (Explorer.run cfg tree.script nondet numMembers envs k).status = .running
  · exact (hS.step hRun (ScriptTree.plain_script hProper) ScriptTree.script_ne_assumeFails hMark
      (hPrompt k hRun)).1
  · have hSame : Explorer.step cfg tree.script _ (envs k) = _ := step_of_not_running hRun
    rw [Explorer.run] at hSame
    rw [hSame]
    exact hS

/-- **Exhaustive search.** Without marks and timeouts the exploration of a finite script
never fails, stops with the root covered, and has then executed every path of the script
exactly once, whatever the order in which transitions are offered and the sides on which
choices begin. -/
theorem explore_exhaustive (tree : ScriptTree) (hProper : tree.Proper) (cfg : Cfg)
    (hMark : cfg.markEndingBranchesCovered = false) (nondet : StaticId → Bool) (numMembers : Nat)
    (envs : Nat → Env)
    (hPrompt : ∀ k, (Explorer.run cfg tree.script nondet numMembers envs k).status = .running →
      Prompt (tree.script (Explorer.run cfg tree.script nondet numMembers envs k).history)
        (envs k)) :
    (∀ k, (Explorer.run cfg tree.script nondet numMembers envs k).status ≠ .failed) ∧
    ∃ N s, s = Explorer.run cfg tree.script nondet numMembers envs N ∧
      (∀ k, N ≤ k → Explorer.run cfg tree.script nondet numMembers envs k = s) ∧
      s.status = .stopped ∧ s.mgr.isCovered ROOTNODE = true ∧
      (s.executed.map Execution.history).Perm tree.leaves ∧
      (∀ e ∈ s.executed, e.reason = .success) ∧
      s.executed.length = tree.leaves.length := by
  have hSearched : ∀ k, _ := searched_run hProper hMark hPrompt
  refine ⟨fun k => (hSearched k).alive, ?_⟩
  -- every step gets on, and there is only so much to do
  obtain ⟨N, _, hDead⟩ : ∃ N ≤ _, ¬ (Explorer.run cfg tree.script nondet numMembers envs N).status =
      .running := by
    refine Runs.trace_stops (fun s : Explorer => s.status = .running) (searchMeasure tree)
      (tree.leaves.length * (tree.depth + 1) + tree.depth) (fun k hRun => ?_) fun k hRun _ => ?_
    · exact Nat.add_le_add (Nat.mul_le_mul_right _ (hSearched k).executed_le)
        ((hSearched k).history_le hRun hProper)
    · exact ((hSearched k).step hRun (ScriptTree.plain_script hProper)
        ScriptTree.script_ne_assumeFails hMark (hPrompt k hRun)).2.measure_lt
        ((hSearched k).history_le hRun hProper)
  have hStopped : (Explorer.run cfg tree.script nondet numMembers envs N).status = .stopped := by
    rcases hStatus : (Explorer.run cfg tree.script nondet numMembers envs N).status with _ | _ | _
    · exact absurd hStatus hDead
    · rfl
    · exact absurd hStatus (hSearched N).alive
  have hPerm := (hSearched N).executed_perm hStopped hProper
  refine ⟨N, _, rfl, fun k hk => Runs.trace_halted (fun _ => step_of_not_running hDead) hk, hStopped,
    (hSearched N).stopped hStopped, hPerm, fun e he => ((hSearched N).recorded.leaf e he).2, ?_⟩
  rw [← hPerm.length_eq, List.length_map]

end Run

/-- Two threads selected one after the other, then a choice. -/
def twoThreads : ScriptTree :=
  let scope : ThreadVarPtrSet := ⟨[(0, 0), (1, 1)], by decide⟩
  .forallThread scope fun _ =>
    .runThrough (.forallThread scope fun _ => .choice 0 (.conditional true .finish) .finish)

/-- Both threads evaluate the selections, the second one first. -/
def bothOffer : Env := ⟨true, [⟨1, true⟩, ⟨0, true⟩], true, false, false⟩

/-- Two threads with two transfers each and a choice have eight schedules. -/
theorem explore_exhaustive_two_threads :
    ∃ N, (Explorer.run ⟨true, false, false⟩ twoThreads.script (fun _ => true) 2
        (fun _ => bothOffer) N).status = .stopped ∧
      (Explorer.run ⟨true, false, false⟩ twoThreads.script (fun _ => true) 2
        (fun _ => bothOffer) N).executed.length = 8 := by
  have hProper : twoThreads.Proper := by
    refine ⟨⟨by decide, by decide⟩, fun _ _ => ⟨⟨by decide, by decide⟩, fun _ _ => ⟨trivial, trivial⟩⟩⟩
  have hRanges : twoThreads.Scopes fun scope => scope.threads ⊆ [0, 1] := by
    refine ⟨by decide, fun _ _ => ⟨by decide, fun _ _ => ⟨trivial, trivial⟩⟩⟩
  obtain ⟨_, N, s, rfl, _, hStopped, _, _, _, hLength⟩ :=
    explore_exhaustive twoThreads hProper ⟨true, false, false⟩ rfl (fun _ => true) 2
      (fun _ => bothOffer) fun _ _ => hRanges.prompt (by decide) rfl rfl _
  exact ⟨N, hStopped, hLength⟩

end Concurrit.Model
