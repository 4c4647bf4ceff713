import Concurrit.Model.Exhaustive
import Concurrit.Model.Replay

/-!
# Concurrit — ending branches

`EndWithSuccess` marks the branch that has led to the end of the script, and a
marked branch is skipped at every instance of the choice. That is right where
the branch ends the script at every other instance too, or has been explored
there already (`FairMark`). As long as only such branches are marked, a branch
that is skipped ends the script at once, and the schedules executed are those
executed without marks, up to such branches.
-/

namespace Concurrit.Model

variable {cfg cfg' : Cfg} {script : Script} {nondet nondet' : StaticId → Bool}
  {numMembers numMembers' : Nat} {s s' : Explorer} {env : Env} {op : Op} {a : Answer}
  {m m' m₁ : Manager} {n i : Nat} {nd : Node} {l : ChildLoc} {X : StaticId} {b : Bool}
  {history leaf : List Answer} {reason : BacktrackReason} {executed executed' : List Execution}

-- ---------------------------------------------------------------------------
-- Possible histories
-- ---------------------------------------------------------------------------

/-- The thread a selection over this scope can return. -/
def ThreadVarPtrSet.Selects (scope : ThreadVarPtrSet) (t : Thread) : Prop :=
  scope.empty = true ∨ t ∈ scope.threads

/-- The answers an operation of any script can return. -/
def Op.Answers : Op → Answer → Prop
  | .choice _, .branch _ => True
  | .conditional _, .unit => True
  | .runThrough, .unit => True
  | .runUntil, .unit => True
  | .forallThread scope, .thread t => scope.Selects t
  | .existsThread scope, .thread t => scope.Selects t
  | _, _ => False

/-- Every answer is one the script's operation can have returned. -/
def Possible (script : Script) (history : List Answer) : Prop :=
  ∀ (k : Nat) (a : Answer), history[k]? = some a → (script (history.take k)).Answers a

theorem possible_nil (script : Script) : Possible script [] := by
  intro k a ha
  cases ha

/-- A history goes on by an answer to its operation. -/
theorem Possible.snoc (h : Possible script history) (ha : (script history).Answers a) :
    Possible script (history ++ [a]) := by
  intro k b hb
  rcases Nat.lt_or_ge k history.length with hLt | hGe
  · rw [List.getElem?_append_left hLt] at hb
    rw [List.take_append_of_le_length (Nat.le_of_lt hLt)]
    exact h k b hb
  · rw [List.getElem?_append_right hGe] at hb
    have hk : k - history.length = 0 := by
      by_contra hne
      rw [List.getElem?_eq_none (by simpa using Nat.one_le_iff_ne_zero.mpr hne)] at hb
      cases hb
    rw [hk] at hb
    obtain rfl : a = b := by simpa using hb
    rw [show k = history.length from by omega, List.take_left]
    exact ha

/-- In a plain script the admissible histories are possible. -/
theorem Admissible.possible (h : Admissible script history) (hPlain : Script.Plain script) :
    Possible script history := by
  intro k a ha
  have hAdmits := h k a ha
  have hOp := hPlain (history.take k)
  generalize script (history.take k) = op at hAdmits hOp
  cases op <;> cases a <;> first | exact hAdmits.elim | exact trivial | exact hOp.elim | skip
  exact Or.inr hAdmits

/-- A thread that a scope has a variable for is one it selects. -/
theorem selects_of_varFor {scope : ThreadVarPtrSet} {t : Thread} {var : ThreadVar}
    (hVar : scope.varFor t = some var) : scope.Selects t := by
  unfold ThreadVarPtrSet.varFor at hVar
  split at hVar
  · rename_i hEmpty
    exact Or.inl hEmpty
  · obtain ⟨v, hv, _⟩ := Option.map_eq_some_iff.mp hVar
    unfold ThreadVarPtrSet.findByThread at hv
    obtain ⟨⟨v', t'⟩, hFind, _⟩ := Option.map_eq_some_iff.mp hv
    have ht : t' = t := by simpa using List.find?_some hFind
    exact Or.inr (ThreadVarPtrSet.mem_threads.mpr ⟨v', ht ▸ List.mem_of_find?_eq_some hFind⟩)

/-- What an operation returns is an answer to it. -/
theorem Takes.answers (hTakes : Takes m m₁ env n nd op i a) : op.Answers a := by
  cases hTakes with
  | choice => trivial
  | conditional => trivial
  | runThrough => trivial
  | runUntil => trivial
  | forallThread _ _ _ _ _ _ _ _ _ _ hFiles => exact selects_of_varFor hFiles.filed
  -- an EXISTS node takes the candidate of its scope
  | existsThread scope tried t _ _ _ hCand =>
    unfold Manager.existsCandidate at hCand
    split at hCand
    · rename_i hEmpty
      exact Or.inl hEmpty
    · rename_i hEmpty
      rcases hFind : scope.findByThread t with _ | v
      · rw [hFind] at hCand
        cases hCand
      · have hVar : scope.varFor t = some (.bound v) := by
          rw [ThreadVarPtrSet.varFor, if_neg hEmpty, hFind]
          rfl
        exact selects_of_varFor hVar

-- ---------------------------------------------------------------------------
-- Fair marks
-- ---------------------------------------------------------------------------

/-- Wherever the choice is reached, the branch ends the script at once or has been
explored already. -/
def FairMark (script : Script) (executed : List Execution) (X : StaticId) (b : Bool) : Prop :=
  ∀ q, Possible script q → script q = .choice X →
    script (q ++ [.branch b]) = .finish ∨
      ∀ leaf, Possible script leaf → (script leaf).Ends → q ++ [.branch b] <+: leaf →
        Executed executed leaf

/-- When the script ends directly after a branch of a choice, the mark is fair. -/
def FairEnd (cfg : Cfg) (script : Script) (s : Explorer) : Prop :=
  cfg.markEndingBranchesCovered = true → script s.history = .finish →
    ∀ l nd X, s.mgr.getLastNodeInStack = some l → s.mgr.heap l.parent = some nd →
      nd.kind = .choice X →
      FairMark script (s.executed ++ [⟨s.history, .success⟩]) X (l.childIndex == 1)

theorem FairMark.mono (h : FairMark script executed X b)
    (hMore : ∀ leaf, Executed executed leaf → Executed executed' leaf) :
    FairMark script executed' X b := by
  intro q hq hX
  rcases h q hq hX with hEnd | hDone
  · exact Or.inl hEnd
  · exact Or.inr fun leaf hLeaf hEnds hPre => hMore leaf (hDone leaf hLeaf hEnds hPre)

/-- Marks are added by a successful end behind a choice only, and on the side that was
taken. -/
theorem markedInfos_cases {infos : StaticId → StaticChoiceInfo} {kind : NodeKind}
    (hMark : ((Manager.markedInfos cfg reason infos kind i) X).covered b = true) :
    (infos X).covered b = true ∨
      (kind = .choice X ∧ b = (i == 1) ∧ reason = .success ∧ cfg.markEndingBranchesCovered = true) := by
  unfold Manager.markedInfos at hMark
  split at hMark
  · rename_i X'
    split at hMark
    · rename_i hBoth
      -- the mark of this choice, on this side or on the other
      by_cases hX : X = X'
      · subst hX
        rw [Function.update_self] at hMark
        unfold StaticChoiceInfo.setCovered at hMark
        simp only at hMark
        split at hMark
        · rename_i hb
          exact Or.inr ⟨rfl, hb, hBoth⟩
        · exact Or.inl hMark
      · rw [Function.update_of_ne hX] at hMark
        exact Or.inl hMark
    · exact Or.inl hMark
  · exact Or.inl hMark

/-- What the end of an execution does to the marks depends on its last node alone. -/
theorem endWithSuccess_infos (t : Tidy m) (hEnd : m.endWithSuccess cfg reason = some m') :
    ∃ l nd, m.getLastNodeInStack = some l ∧ m.heap l.parent = some nd ∧
      m'.infos = Manager.markedInfos cfg reason m.infos nd.kind l.childIndex := by
  obtain ⟨l, nd, hLast, hn, hRetry | ⟨_, mid, loc, hE, hB⟩⟩ := endWithSuccess_cases t hEnd
  · obtain ⟨_, _, _, _, _, _, rfl⟩ := hRetry.tried
    exact ⟨l, nd, hLast, hn, rfl⟩
  · obtain ⟨_, _, _, _, hRest, _⟩ := hB.heap_cases
    refine ⟨l, nd, hLast, hn, ?_⟩
    rw [hRest]
    show mid.infos = _
    rw [hE.rest]
    rfl

/-- An operation leaves the marks alone. -/
theorem OpStep.infos {r : OpResult} (hStep : OpStep m op env m' r) : m'.infos = m.infos := by
  cases hStep with
  | consumed _ _ _ _ _ _ hS _ hC => exact hC.infos.trans hS.infos
  | pending _ _ _ _ hS => exact hS.infos
  | covered => rfl
  | idle => rfl

/-- An execution ends successfully where the script finishes: no other operation throws
`success`. -/
theorem OpStep.success {thrown : BacktrackReason} (hStep : OpStep m op env m' (.throws thrown))
    (hSuccess : Explorer.handledReason thrown env = .success) : op = .finish ∧ m' = m := by
  have hThrown : thrown = .success := by
    unfold Explorer.handledReason at hSuccess
    split at hSuccess
    · cases hSuccess
    · exact hSuccess
  subst hThrown
  cases hStep with
  | pending _ _ _ _ _ hGives => cases hGives
  | idle _ hWhy =>
    rcases hWhy with ⟨hOp, _⟩ | ⟨_, hEq⟩ | ⟨_, hEq⟩
    · exact ⟨hOp, rfl⟩
    · cases hEq
    · cases hEq

/-- Every mark is fair. -/
def FairMarks (cfg : Cfg) (script : Script) (m : Manager) (executed : List Execution) : Prop :=
  ∀ X b, (m.infos X).covered b = true →
    cfg.markEndingBranchesCovered = true ∧ FairMark script executed X b

/-- **The end of an execution keeps the marks fair.** A mark that is added is fair by the
condition, the execution itself is among those executed from now on. -/
theorem FairMarks.endExecution {thrown : BacktrackReason} (h : FairMarks cfg script s.mgr s.executed)
    (t : Tidy s.mgr) (hFair : FairEnd cfg script s)
    (hStep : OpStep s.mgr (script s.history) env m₁ (.throws thrown))
    (hEnd : m₁.endWithSuccess cfg (Explorer.handledReason thrown env) = some m') :
    FairMarks cfg script m'
      (s.executed ++ [⟨s.history, Explorer.handledReason thrown env⟩]) := by
  intro X b hMark
  obtain ⟨l, nd, hLast, hn, hInfos⟩ := endWithSuccess_infos (hStep.tidy t) hEnd
  rw [hInfos, hStep.infos] at hMark
  rcases markedInfos_cases hMark with hOld | ⟨hKind, rfl, hSuccess, hCfg⟩
  · obtain ⟨hCfg, hFairMark⟩ := h X b hOld
    refine ⟨hCfg, hFairMark.mono ?_⟩
    rintro leaf ⟨e, he, hEq⟩
    exact ⟨e, List.mem_append_left _ he, hEq⟩
  · obtain ⟨hOp, rfl⟩ := hStep.success hSuccess
    rw [hSuccess]
    exact ⟨hCfg, hFair hCfg hOp l nd X hLast hn hKind⟩

/-- A state in which the marks are fair. -/
structure Fair (cfg : Cfg) (script : Script) (s : Explorer) : Prop where
  possible : s.status = .running → Possible script s.history
  marks    : s.status ≠ .failed → FairMarks cfg script s.mgr s.executed

/-- **As long as only fair marks are set, all marks are fair**, and the history is one of
the script. -/
theorem fair_reachable
    (h : Runs.ReachableUnder (Explorer.system cfg script nondet numMembers)
      (fun s _ => s.status = .running → FairEnd cfg script s) s) : Fair cfg script s := by
  refine Runs.ReachableUnder.invariant_of (Q := fun s => s.status = .running → Tidy s.mgr)
    (P := Fair cfg script) (fun _ => tidy_reachable) ?_ ?_ h
  · rintro _ rfl
    rw [initial_eq]
    exact ⟨fun _ => possible_nil script, fun _ X b hMark => by cases hMark⟩
  · rintro s env s' hTidy hFair hOk rfl
    by_cases hWas : s.status = .running
    · have t := hTidy hWas
      have hMarks := hFair.marks (by rw [hWas]; simp)
      have hCase : StepCase cfg script s env (s.step cfg script env) := step_cases hWas
      generalize s.step cfg script env = s' at hCase
      cases hCase with
      | failed s' hFailed _ =>
        refine ⟨fun hRun => ?_, fun hNot => absurd hFailed hNot⟩
        rw [hFailed] at hRun
        cases hRun
      -- no mark changes within an execution
      | advanced m' a hOp =>
        have hStep := dslOp_cases t hOp
        refine ⟨fun _ => ?_, fun _ X b hMark => ?_⟩
        · cases hStep with
          | consumed _ _ _ _ _ _ _ hTakes => exact (hFair.possible hWas).snoc hTakes.answers
        · rw [show m'.infos = s.mgr.infos from hStep.infos] at hMark
          exact hMarks X b hMark
      -- the end of an execution
      | stopped m₁ m' thrown hOp hEnd hRoot =>
        exact ⟨(fun hRun => by cases hRun), fun _ =>
          hMarks.endExecution t (hOk hWas) (dslOp_cases t hOp) hEnd⟩
      -- the restart keeps the marks, and begins with the empty history
      | restarted m₁ m' m'' thrown hOp hEnd hRoot hRestart =>
        have hStep := dslOp_cases t hOp
        refine ⟨fun _ => possible_nil script, fun _ X b hMark => ?_⟩
        obtain ⟨_, hL⟩ := endWithSuccess_linked (hStep.tidy t) hEnd hRoot
        rw [restart_eq cfg hL] at hRestart
        obtain rfl := Option.some.inj hRestart
        exact hMarks.endExecution t (hOk hWas) hStep hEnd X b hMark
    · have hSame : s.step cfg script env = s := step_of_not_running hWas
      rw [hSame]
      exact hFair

-- ---------------------------------------------------------------------------
-- The schedules executed
-- ---------------------------------------------------------------------------

/-- The script ends at once after a branch of a choice. -/
def EndingLeaf (script : Script) (leaf : List Answer) : Prop :=
  ∃ q X b, leaf = q ++ [.branch b] ∧ script q = .choice X ∧ script leaf = .finish

/-- The leaf has been executed, or marking may skip it. -/
def Accounted (cfg : Cfg) (script : Script) (executed : List Execution) (leaf : List Answer) : Prop :=
  Executed executed leaf ∨ (cfg.markEndingBranchesCovered = true ∧ EndingLeaf script leaf)

theorem Accounted.mono (h : Accounted cfg script executed leaf)
    (hMore : ∀ leaf, Executed executed leaf → Executed executed' leaf) :
    Accounted cfg script executed' leaf := h.imp (hMore leaf) id

/-- Below a fair mark everything is accounted for: the branch ends the script at once, or
was executed to the end. -/
theorem FairMarks.sound (h : FairMarks cfg script m executed) (hPlain : Script.Plain script) :
    MarksSound script m.infos (Accounted cfg script executed) := by
  intro history X b hX hMark leaf hLeaf
  have hPre : history ++ [.branch b] <+: leaf := (List.cons_prefix_cons.mp hLeaf.2).2
  have hPossible : Possible script history := by
    refine (hLeaf.1.admissible.shorten ?_).possible hPlain
    exact (List.prefix_append _ _).trans hPre
  obtain ⟨hCfg, hFair⟩ := h X b hMark
  rcases hFair history hPossible hX with hEnd | hDone
  · have hEq := hLeaf.1.eq_of_isPrefixOf (Or.inl hEnd) hPre
    exact Or.inr ⟨hCfg, history, X, b, hEq, hX, by rw [hEq, hEnd]⟩
  · exact Or.inl (hDone leaf (hLeaf.1.admissible.possible hPlain) hLeaf.1.ends hPre)

/-- What has been covered has been executed, up to what marking may skip. -/
structure Swept (cfg : Cfg) (script : Script) (s : Explorer) : Prop where
  running : s.status = .running → ∃ ρ, Orderly script s.mgr s.history ρ
  sound   : s.status ≠ .failed → Sound script s.mgr (Accounted cfg script s.executed)
  stopped : s.status = .stopped → s.mgr.isCovered ROOTNODE = true
  leaf    : s.status ≠ .failed → ∀ e ∈ s.executed, (script e.history).Ends → Leaf script e.history

theorem swept_initial (cfg : Cfg) (script : Script) (nondet : StaticId → Bool) (numMembers : Nat) :
    Swept cfg script (Explorer.initial cfg nondet numMembers) := by
  rw [initial_eq]
  refine ⟨fun _ => ⟨[], orderly_initial script nondet numMembers⟩, fun _ path n hn hCov => ?_,
    (fun h => by cases h), fun _ e he => by cases he⟩
  obtain ⟨_, rfl⟩ := nodeAt_initial nondet numMembers hn
  cases hCov

/-- The end of an execution, in a plain script: everything below is accounted for. The
covered nodes of the propagation are so by the coverage rule, a marked branch by its mark.
-/
theorem Orderly.endExecution_sound {ρ : List Answer} (hO : Orderly script s.mgr s.history ρ)
    (hPlain : Script.Plain script) (hPrompt : Prompt (script s.history) env)
    (hFair : FairEnd cfg script s) (hMarks : FairMarks cfg script s.mgr s.executed)
    (hSound : Sound script s.mgr (Accounted cfg script s.executed))
    (hOp : s.mgr.dslOp (script s.history) env = some (m₁, .throws reason))
    (hEnd : m₁.endWithSuccess cfg reason = some m') :
    Sound script m' (Accounted cfg script (s.executed ++ [⟨s.history, reason⟩])) := by
  have hT := hO.throws hPlain hPrompt hOp
  obtain ⟨hAll, hLate, _⟩ := hT.reason_ne
  have hHandled : Explorer.handledReason reason env = reason := if_neg fun hBoth => hLate hBoth.1
  have hMarks' := hMarks.endExecution hO.tidy hFair (dslOp_cases hO.tidy hOp) (by rwa [hHandled])
  rw [hHandled] at hMarks'
  -- what was executed stays executed
  have hMore : ∀ leaf, Executed s.executed leaf →
      Executed (s.executed ++ [⟨s.history, reason⟩]) leaf := by
    rintro leaf ⟨e, he, hEq⟩
    exact ⟨e, List.mem_append_left _ he, hEq⟩
  have hMarks₀ : MarksSound script s.mgr.infos
      (Accounted cfg script (s.executed ++ [⟨s.history, reason⟩])) :=
    fun q X b hX hMark leaf hLeaf => (hMarks.sound hPlain q X b hX hMark leaf hLeaf).mono hMore
  obtain ⟨hSound₁, hLeaves⟩ := hO.throws_sound hPlain hT (hSound.mono fun _ h => h.mono hMore)
    hMarks₀ fun _ => Or.inl ⟨_, List.mem_append_right _ (List.mem_singleton_self _), rfl⟩
  have hC := hO.throws_closable hT
  obtain ⟨last, nd, m₂, mid, hi, F⟩ := hC.finish hEnd
  exact F.sound hC.tidy hC.labelled hPlain hC.coherent (coveredLast_of_ne hAll nd) hSound₁
    (hMarks'.sound hPlain) hLeaves

/-- A run without timeouts in which only fair marks are set. -/
def FairAndPrompt (cfg : Cfg) (script : Script) (s : Explorer) (env : Env) : Prop :=
  s.status = .running → FairEnd cfg script s ∧ Prompt (script s.history) env

/-- **Such a run sweeps the script.** The marks are fair by the run lemma above; the rest is
kept step by step as in the search without marks. -/
theorem swept_reachable (hPlain : Script.Plain script)
    (h : Runs.ReachableUnder (Explorer.system cfg script nondet numMembers)
      (FairAndPrompt cfg script) s) : Swept cfg script s := by
  refine Runs.ReachableUnder.invariant_of (Q := Fair cfg script) (P := Swept cfg script)
    (fun _ hR => fair_reachable (hR.mono fun _ _ hOk hRun => (hOk hRun).1)) ?_ ?_ h
  · rintro _ rfl
    exact swept_initial cfg script nondet numMembers
  · rintro s env s' hMarks hS hOk rfl
    by_cases hWas : s.status = .running
    · obtain ⟨hFair, hPrompt⟩ := hOk hWas
      obtain ⟨ρ, hO⟩ := hS.running hWas
      have hAlive : s.status ≠ .failed := by rw [hWas]; simp
      -- an execution that ends is at a leaf
      have hLeaf : ∀ thrown, ∀ e ∈ s.executed ++ [⟨s.history, thrown⟩], (script e.history).Ends →
          Leaf script e.history := by
        intro thrown e he hEnds
        rcases List.mem_append.mp he with hOld | hNew
        · exact hS.leaf hAlive e hOld hEnds
        · rw [List.mem_singleton.mp hNew] at hEnds ⊢
          exact ⟨hO.tracks.path_eq_of_ends hEnds ▸ hO.tracks.admissible, hEnds⟩
      have hSound := hS.sound hAlive
      have hMarks' := hMarks.marks hAlive
      have hCase : StepCase cfg script s env (s.step cfg script env) := step_cases hWas
      generalize s.step cfg script env = s' at hCase
      cases hCase with
      | failed s' hFailed _ =>
        exact ⟨(fun hRun => by rw [hFailed] at hRun; cases hRun), fun hNot => absurd hFailed hNot,
          (fun hRun => by rw [hFailed] at hRun; cases hRun), fun hNot => absurd hFailed hNot⟩
      -- within an execution nothing is covered but what the rule covers
      | advanced m' a hOp =>
        obtain ⟨n, nd, m₁, i, ρ', hR, hO'⟩ := hO.advance hPlain hOp
        refine ⟨fun _ => ⟨ρ', hO'⟩, fun _ => hR.sound hO.tidy hSound, fun hRun => ?_, hS.leaf⟩
        rw [show s.status = .stopped from hRun] at hWas
        cases hWas
      -- the last execution: the root is covered
      | stopped m₁ m' thrown hOp hEnd hRoot =>
        have hT := hO.throws hPlain hPrompt hOp
        have hHandled : Explorer.handledReason thrown env = thrown :=
          if_neg fun hBoth => hT.reason_ne.2.1 hBoth.1
        rw [hHandled] at hEnd ⊢
        exact ⟨(fun hRun => by cases hRun), fun _ =>
          hO.endExecution_sound hPlain hPrompt hFair hMarks' hSound hOp hEnd, fun _ => hRoot,
          fun _ => hLeaf thrown⟩
      -- the next execution begins on what the last one has left
      | restarted m₁ m' m'' thrown hOp hEnd hRoot hRestart =>
        have hT := hO.throws hPlain hPrompt hOp
        have hHandled : Explorer.handledReason thrown env = thrown :=
          if_neg fun hBoth => hT.reason_ne.2.1 hBoth.1
        rw [hHandled] at hEnd ⊢
        have hSound' := hO.endExecution_sound hPlain hPrompt hFair hMarks' hSound hOp hEnd
        obtain ⟨j, _, _, hO', hHeap, _⟩ :=
          (hO.throws_closable hT).next hT.reason_ne.1 hEnd hRoot hRestart
        exact ⟨fun _ => ⟨_, hO'⟩, fun _ => hSound'.congr hHeap, (fun hRun => by cases hRun),
          fun _ => hLeaf thrown⟩
    · have hSame : s.step cfg script env = s := step_of_not_running hWas
      rw [hSame]
      exact hS

/-- The node `DSLChoice` works on: the next one of the stack, or a new one. -/
def ChoiceNodeAt (m : Manager) (X : StaticId) (nd : Node) : Prop :=
  (∃ n idx, m.getNextNodeInStack = some (some n, idx) ∧ m.heap n = some nd) ∨
    ∃ idx, m.getNextNodeInStack = some (none, idx) ∧ nd = Node.new (.choice X)

/-- The schedule has been executed to the end of the script. -/
def Scheduled (script : Script) (s : Explorer) (leaf : List Answer) : Prop :=
  Executed s.executed leaf ∧ (script leaf).Ends

/-- **Marking is sound where only fair marks are set**: a branch that is skipped for its
mark ends the script at once or has been executed, in every exploration of every script; and
two explorations of a plain script without timeouts, one with and one without marking,
execute the same schedules up to branches that end the script at once. -/
theorem marking_sound (cfg : Cfg) (script : Script) :
    (∀ nondet numMembers s, Runs.ReachableUnder (Explorer.system cfg script nondet numMembers)
        (fun s _ => s.status = .running → FairEnd cfg script s) s → s.status = .running →
      ∀ X nd i, script s.history = .choice X → ChoiceNodeAt s.mgr X nd → nd.kind = .choice X →
        i ≤ 1 → EndingMarked s.mgr nd i →
        script (s.history ++ [.branch (i == 1)]) = .finish ∨
          ∀ leaf, Possible script leaf → (script leaf).Ends →
            s.history ++ [.branch (i == 1)] <+: leaf → Executed s.executed leaf) ∧
    (∀ nondet numMembers s, Script.Plain script →
      Runs.ReachableUnder (Explorer.system cfg script nondet numMembers)
        (FairAndPrompt cfg script) s → s.status = .stopped →
      ∀ cfg' nondet' numMembers' s', cfg'.markEndingBranchesCovered = false →
        Runs.ReachableUnder (Explorer.system cfg' script nondet' numMembers')
          (Cooperates script) s' → s'.status = .stopped →
        ∀ leaf, (Scheduled script s leaf → Scheduled script s' leaf) ∧
          (Scheduled script s' leaf → Scheduled script s leaf ∨ EndingLeaf script leaf)) := by
  constructor
  -- a mark is fair, and the history is one of the script
  · intro nondet numMembers s hReach hRun X nd i hX _ hKind _ hMark
    obtain ⟨Y, hY, hCov⟩ := hMark
    obtain rfl : X = Y := NodeKind.choice.inj (hKind.symm.trans hY)
    have hFair := fair_reachable hReach
    exact (hFair.marks (by rw [hRun]; simp) X _ hCov).2 s.history (hFair.possible hRun) hX
  -- both searches sweep the script
  · intro nondet numMembers s hPlain hReach hStop cfg' nondet' numMembers' s' hOff hReach' hStop' leaf
    have hS := swept_reachable hPlain hReach
    have hS' := swept_reachable hPlain (hReach'.mono 
      fun s env hCoop hRun => ⟨(fun hOn => by rw [hOff] at hOn; cases hOn), hCoop hRun⟩)
    have hAlive : s.status ≠ .failed := by rw [hStop]; simp
    have hAlive' : s'.status ≠ .failed := by rw [hStop']; simp
    -- a schedule is a leaf, and a leaf is accounted for below the covered root
    have hAll := fun hLeaf => hS.sound hAlive [] ROOTNODE rfl (hS.stopped hStop) leaf
      ⟨hLeaf, List.nil_prefix⟩
    have hAll' := fun hLeaf => hS'.sound hAlive' [] ROOTNODE rfl (hS'.stopped hStop') leaf
      ⟨hLeaf, List.nil_prefix⟩
    constructor
    -- executed with marking: a leaf, which the other search executes as well
    · rintro ⟨⟨e, he, rfl⟩, hEnds⟩
      rcases hAll' (hS.leaf hAlive e he hEnds) with hDone | ⟨hOn, _⟩
      · exact ⟨hDone, hEnds⟩
      · rw [hOff] at hOn
        cases hOn
    -- executed without: covered here, by an execution or by a mark
    · rintro ⟨⟨e, he, rfl⟩, hEnds⟩
      rcases hAll (hS'.leaf hAlive' e he hEnds) with hDone | ⟨_, hEnding⟩
      · exact Or.inl ⟨hDone, hEnds⟩
      · exact Or.inr hEnding

/-- In `endingBranchScript` the mark of branch 1 is fair: it ends the script wherever the
choice is reached. -/
theorem fairMark_endingBranch (executed : List Execution) :
    FairMark endingBranchScript executed 0 true := by
  intro q _ hX
  unfold endingBranchScript at hX
  split at hX
  · exact Or.inl rfl
  · exact Or.inl rfl
  · cases hX
  · cases hX

/-- A branch that ends the script at once is marked in the first execution and skipped in
the second one. -/
theorem marking_sound_ending_branch :
    endingBranchScript [.branch false, .branch true] = .finish ∨
      ∀ leaf, Possible endingBranchScript leaf → (endingBranchScript leaf).Ends →
        [.branch false, .branch true] <+: leaf →
        Executed (explored endingBranchScript false [false, false, false]).executed leaf := by
  -- at each end of an execution the last node is the choice, on its right side
  have hFair : ∀ bits, (∀ l, (explored endingBranchScript false bits).mgr.getLastNodeInStack = some l →
      endingBranchScript (explored endingBranchScript false bits).history = .finish →
      ∀ nd, (explored endingBranchScript false bits).mgr.heap l.parent = some nd →
        ∀ X, nd.kind = .choice X → X = 0 ∧ l.childIndex = 1) →
      FairEnd markingCfg endingBranchScript (explored endingBranchScript false bits) := by
    intro bits hLast _ hEnds l nd X hl hn hKind
    obtain ⟨rfl, hIndex⟩ := hLast l hl hEnds nd hn X hKind
    rw [hIndex]
    exact fairMark_endingBranch _
  have h0 := hFair [] fun _ _ hEnds => by cases hEnds
  have h1 := hFair [false] fun l hl _ nd hn X hKind => by
    obtain rfl : ⟨2, 1⟩ = l := Option.some.inj hl
    obtain rfl := Option.some.inj hn
    exact ⟨(NodeKind.choice.inj hKind).symm, rfl⟩
  have h2 := hFair [false, false] fun _ _ hEnds => by cases hEnds
  have hReach : Runs.ReachableUnder (Explorer.system markingCfg endingBranchScript (fun _ => false) 0)
      (fun s _ => s.status = .running → FairEnd markingCfg endingBranchScript s)
      (explored endingBranchScript false [false, false, false]) :=
    (((Runs.ReachableUnder.init rfl).step (i := bitEnv false) (fun _ => h0) rfl).step
      (i := bitEnv false) (fun _ => h1) rfl).step (i := bitEnv false) (fun _ => h2) rfl
  exact (marking_sound markingCfg endingBranchScript).1 _ _ _ hReach rfl 0 (Node.new (.choice 0)) 1 rfl
    (Or.inr ⟨none, rfl, rfl⟩) rfl (Nat.le_refl 1) ⟨0, rfl, rfl⟩

/-- Branch 1 of the choice ends the script at first, and not when it is reached again. -/
def endingOnceScript : Script
  | [] => .choice 0
  | [.branch false] => .choice 0
  | [.branch false, _] => .conditional true
  | _ => .finish

/-- **A mark prunes a real schedule.** The mark of the first instance makes the second one
skip a branch that leads to another node, and the search stops without having executed what
lies below. -/
theorem marking_prunes_schedule :
    (explored endingOnceScript false [false, false, false]).history = [.branch false] ∧
    ((explored endingOnceScript false [false, false, false]).mgr.infos 0).covered true = true ∧
    (explored endingOnceScript false [false, false, false, false]).history =
      [.branch false, .branch false] ∧
    endingOnceScript [.branch false, .branch true] = .conditional true ∧
    (explored endingOnceScript false [false, false, false, false, false, false]).status = .stopped ∧
    Leaf endingOnceScript [.branch false, .branch true, .unit] ∧
    ¬ Executed (explored endingOnceScript false [false, false, false, false, false, false]).executed
      [.branch false, .branch true, .unit] := by
  refine ⟨rfl, rfl, rfl, rfl, rfl, ⟨fun k a ha => ?_, Or.inl rfl⟩, ?_⟩
  · match k, ha with
    | 0, rfl => trivial
    | 1, rfl => trivial
    | 2, rfl => trivial
  -- the search has made two executions, neither of them this one
  · rintro ⟨e, he, hEq⟩
    have hTwo : e ∈ [(⟨[.branch true], .success⟩ : Execution),
      ⟨[.branch false, .branch false, .unit], .success⟩] := he
    simp only [List.mem_cons, List.not_mem_nil, or_false] at hTwo
    rcases hTwo with rfl | rfl
    · cases hEq
    · cases hEq

end Concurrit.Model
