import Mathlib.Data.List.Nodup
import Concurrit.Model.Positions
import Concurrit.Model.Explorer

/-!
# Concurrit — scripts and their trees

A deterministic script without EXISTS nodes determines the node at every
position: the tree is `Coherent` with it. This module says which answers an
operation admits, which node kinds match it, and that the operations of the
search keep the tree coherent and the node stack on a path of the script.
-/

namespace Concurrit.Model

open Function (update)
open Walk

variable {h h' : Heap} {next n p i k c : Nat} {a b : Answer} {m m' m₁ : Manager} {nd nd' pd : Node}
  {l last : ChildLoc} {stack : List ChildLoc} {path : List Answer} {scope : ThreadVarPtrSet}
  {map map₀ : List ThreadVar} {t : Thread} {script : Script} {op : Op} {env : Env}

-- ---------------------------------------------------------------------------
-- Scopes
-- ---------------------------------------------------------------------------

/-- The threads the scope's variables are bound to. -/
def ThreadVarPtrSet.threads (scope : ThreadVarPtrSet) : List Thread := scope.vars.map Prod.snd

/-- A non-empty scope of variables bound to pairwise different threads. -/
structure ThreadVarPtrSet.Distinct (scope : ThreadVarPtrSet) : Prop where
  nonempty : scope.vars ≠ []
  threads  : scope.threads.Nodup

/-- The thread of a variable in a scope, in which each variable occurs once. -/
theorem ThreadVarPtrSet.threadOf_iff (scope : ThreadVarPtrSet) {v : TVar} :
    scope.threadOf v = some t ↔ (v, t) ∈ scope.vars := by
  unfold ThreadVarPtrSet.threadOf
  constructor
  · intro hThread
    obtain ⟨⟨v', t'⟩, hFind, rfl⟩ := Option.map_eq_some_iff.mp hThread
    have hv := List.find?_some hFind
    obtain rfl : v' = v := by simpa using hv
    exact List.mem_of_find?_eq_some hFind
  · intro hMem
    rcases hFind : scope.vars.find? (fun p => p.1 == v) with _ | ⟨v', t'⟩
    · have hNone := List.find?_eq_none.mp hFind (v, t) hMem
      simp at hNone
    · have hv := List.find?_some hFind
      obtain rfl : v' = v := by simpa using hv
      have hEq := List.inj_on_of_nodup_map scope.nodup (List.mem_of_find?_eq_some hFind) hMem rfl
      rw [hFind, hEq]
      rfl

/-- The variable of a thread, if the scope binds no thread twice. Without that the search
may find another variable. -/
theorem ThreadVarPtrSet.findByThread_iff (hDistinct : scope.Distinct) {v : TVar} :
    scope.findByThread t = some v ↔ (v, t) ∈ scope.vars := by
  unfold ThreadVarPtrSet.findByThread
  constructor
  · intro hThread
    obtain ⟨⟨v', t'⟩, hFind, rfl⟩ := Option.map_eq_some_iff.mp hThread
    have ht := List.find?_some hFind
    obtain rfl : t' = t := by simpa using ht
    exact List.mem_of_find?_eq_some hFind
  · intro hMem
    rcases hFind : scope.vars.find? (fun p => p.2 == t) with _ | ⟨v', t'⟩
    · have hNone := List.find?_eq_none.mp hFind (v, t) hMem
      simp at hNone
    · have ht := List.find?_some hFind
      obtain rfl : t' = t := by simpa using ht
      have hEq := List.inj_on_of_nodup_map hDistinct.threads (List.mem_of_find?_eq_some hFind) hMem rfl
      rw [hFind, hEq]
      rfl

/-- A FORALL node over a proper scope files a thread under its variable. -/
theorem ThreadVarPtrSet.varFor_iff (hDistinct : scope.Distinct) {var : ThreadVar} :
    scope.varFor t = some var ↔ ∃ v, var = .bound v ∧ (v, t) ∈ scope.vars := by
  have hNe : scope.empty = false := by
    rcases hv : scope.vars with _ | ⟨_, _⟩
    · exact absurd hv hDistinct.nonempty
    · simp [ThreadVarPtrSet.empty, hv]
  unfold ThreadVarPtrSet.varFor
  rw [hNe, if_neg (by decide), Option.map_eq_some_iff]
  constructor
  · rintro ⟨v, hv, rfl⟩
    exact ⟨v, rfl, (findByThread_iff hDistinct).mp hv⟩
  · rintro ⟨v, rfl, hv⟩
    exact ⟨v, (findByThread_iff hDistinct).mpr hv, rfl⟩

theorem ThreadVarPtrSet.mem_threads : t ∈ scope.threads ↔ ∃ v, (v, t) ∈ scope.vars := by
  simp [ThreadVarPtrSet.threads]

-- ---------------------------------------------------------------------------
-- Plain scripts
-- ---------------------------------------------------------------------------

/-- An operation of a script without EXISTS nodes, over proper scopes. -/
def Op.Plain : Op → Prop
  | .existsThread _ => False
  | .forallThread scope => scope.Distinct
  | _ => True

def Script.Plain (script : Script) : Prop := ∀ history, (script history).Plain

/-- The answers an operation can return. -/
def Op.Admits : Op → Answer → Prop
  | .choice _, .branch _ => True
  | .conditional _, .unit => True
  | .runThrough, .unit => True
  | .runUntil, .unit => True
  | .forallThread scope, .thread t => t ∈ scope.threads
  | .existsThread _, .thread _ => True
  | _, _ => False

/-- The operation ends the execution by itself. -/
def Op.Ends (op : Op) : Prop := op = .finish ∨ op = .assumeFails

theorem Op.not_admits_of_ends (hEnds : op.Ends) (a : Answer) : ¬ op.Admits a := by
  rcases hEnds with rfl | rfl
  · exact id
  · exact id

/-- Every answer is one the script's operation can have returned. -/
def Admissible (script : Script) (history : List Answer) : Prop :=
  ∀ (k : Nat) (a : Answer), history[k]? = some a → (script (history.take k)).Admits a

/-- A history at which the script ends. -/
structure Leaf (script : Script) (history : List Answer) : Prop where
  admissible : Admissible script history
  ends       : (script history).Ends

/-- The beginning of an admissible sequence is admissible. -/
theorem Admissible.take {history : List Answer} (hA : Admissible script history) (j : Nat) :
    Admissible script (history.take j) := by
  intro k a ha
  rw [List.getElem?_take] at ha
  split at ha
  · rename_i hkj
    rw [List.take_take, Nat.min_eq_left (Nat.le_of_lt hkj)]
    exact hA k a ha
  · cases ha

/-- A sequence of answers goes on by an admitted one. -/
theorem Admissible.snoc {history : List Answer} (hA : Admissible script history)
    (ha : (script history).Admits a) : Admissible script (history ++ [a]) := by
  intro k b hb
  rcases Nat.lt_or_ge k history.length with hLt | hGe
  · rw [List.getElem?_append_left hLt] at hb
    rw [List.take_append_of_le_length (Nat.le_of_lt hLt)]
    exact hA k b hb
  · rw [List.getElem?_append_right hGe] at hb
    have hk : k - history.length = 0 := by
      by_contra hne
      rw [List.getElem?_eq_none (by simpa using Nat.one_le_iff_ne_zero.mpr hne)] at hb
      cases hb
    rw [hk] at hb
    obtain rfl : a = b := by simpa using hb
    rw [show k = history.length from by omega, List.take_left]
    exact ha

theorem admissible_nil (script : Script) : Admissible script [] := by
  intro k a ha
  cases ha

/-- What extends a history by one answer is admitted there. -/
theorem Admissible.admits {history rest : List Answer} (hA : Admissible script (history ++ a :: rest)) :
    (script history).Admits a := by
  have hAt := hA history.length a (by simp)
  rwa [List.take_left] at hAt

theorem Admissible.shorten {history long : List Answer} (hA : Admissible script long)
    (hPre : history <+: long) : Admissible script history := by
  rw [List.prefix_iff_eq_take.mp hPre]
  exact hA.take _

/-- A leaf that extends a history at which the script ends is this history. -/
theorem Leaf.eq_of_isPrefixOf {history leaf : List Answer} (hLeaf : Leaf script leaf)
    (hEnds : (script history).Ends) (hPre : history <+: leaf) : leaf = history := by
  obtain ⟨rest, rfl⟩ := hPre
  rcases rest with _ | ⟨a, rest⟩
  · simp
  · exact absurd hLeaf.admissible.admits (Op.not_admits_of_ends hEnds a)

/-- A leaf that extends a history at which the script goes on extends one of its
answers. -/
theorem Leaf.exists_answer {history leaf : List Answer} (hLeaf : Leaf script leaf)
    (hGoes : ¬ (script history).Ends) (hPre : history <+: leaf) :
    ∃ a, (script history).Admits a ∧ history ++ [a] <+: leaf := by
  obtain ⟨rest, rfl⟩ := hPre
  rcases rest with _ | ⟨a, rest⟩
  · exact absurd (by simpa using hLeaf.ends) hGoes
  · refine ⟨a, hLeaf.admissible.admits, ⟨rest, by simp⟩⟩

-- ---------------------------------------------------------------------------
-- Nodes that match an operation
-- ---------------------------------------------------------------------------

/-- The threads a FORALL node has filed are different ones of its scope. -/
structure Filed (scope : ThreadVarPtrSet) (map : List ThreadVar) : Prop where
  nodup : map.Nodup
  bound : ∀ var ∈ map, ∃ v t, var = .bound v ∧ (v, t) ∈ scope.vars

/-- The kind of node an operation works on. -/
def Matches : Op → NodeKind → Prop
  | .choice s, .choice s' => s' = s
  | .conditional v, .conditional v' => v' = v
  | .runThrough, .runThrough => True
  | .runUntil, .runUntil => True
  | .forallThread scope, .forallThread scope' map _ => scope' = scope ∧ Filed scope map
  | _, _ => False

theorem Matches.not_ends {kind : NodeKind} (hM : Matches op kind) : ¬ op.Ends := by
  rintro (rfl | rfl)
  · cases kind <;> exact hM
  · cases kind <;> exact hM

theorem filed_nil (scope : ThreadVarPtrSet) : Filed scope [] :=
  ⟨List.nodup_nil, fun _ h => absurd h List.not_mem_nil⟩

/-- Filing more threads keeps the map in order: each variable is there once, and belongs to
the scope. -/
theorem MapGrown.filed (hDistinct : scope.Distinct) (hG : MapGrown scope map₀ map)
    (hF : Filed scope map₀) : Filed scope map := by
  induction hG with
  | refl => exact hF
  | snoc map' t var _ hVar hNew ih =>
    obtain ⟨v, rfl, hv⟩ := (ThreadVarPtrSet.varFor_iff hDistinct).mp hVar
    -- a variable is appended only if it is not there yet
    have hNot : ThreadVar.bound v ∉ map' := List.idxOf?_eq_none_iff.mp hNew
    refine ⟨?_, ?_⟩
    · rw [List.nodup_append]
      refine ⟨ih.nodup, List.nodup_singleton _, ?_⟩
      intro x hx y hy
      rw [List.mem_singleton.mp hy]
      rintro rfl
      exact hNot hx
    · intro x hx
      rcases List.mem_append.mp hx with hx | hx
      · exact ih.bound x hx
      · exact ⟨v, t, List.mem_singleton.mp hx, hv⟩

theorem MapGrown.extends (hG : MapGrown scope map₀ map) : ∃ new, map = map₀ ++ new := by
  induction hG with
  | refl => exact ⟨[], by simp⟩
  | snoc map' t var _ _ _ ih =>
    obtain ⟨new, rfl⟩ := ih
    exact ⟨new ++ [var], by simp⟩

/-- The label of a filed thread is its child. -/
theorem slotOf_filed {lvar : Option Thread} {v : TVar} (hDistinct : scope.Distinct)
    (hF : Filed scope map) (hi : map[i]? = some (.bound v)) (hv : (v, t) ∈ scope.vars) :
    slotOf (.forallThread scope map lvar) (.thread t) = some i := by
  obtain ⟨hLt, hAt⟩ := List.getElem?_eq_some_iff.mp hi
  show map.findIdx? _ = some i
  rw [List.findIdx?_eq_some_iff_getElem]
  refine ⟨hLt, ?_, ?_⟩
  · rw [hAt, beq_iff_eq]
    exact scope.threadOf_iff.mpr hv
  · intro j hj hEq
    obtain ⟨v', t', hv', hMem⟩ := hF.bound map[j] (List.getElem_mem _)
    rw [hv', beq_iff_eq] at hEq
    have hMem' : (v', t) ∈ scope.vars := scope.threadOf_iff.mp hEq
    have hSame := List.inj_on_of_nodup_map hDistinct.threads hMem' hv rfl
    obtain rfl := (Prod.mk.inj hSame).1
    have hEq' : map[j] = map[i] := by rw [hv', hAt]
    exact absurd ((List.Nodup.getElem_inj_iff hF.nodup).mp hEq') (Nat.ne_of_lt hj)

/-- **A label names a thread of the scope** in a node that matches. -/
theorem filed_of_slotOf {lvar : Option Thread} (hF : Filed scope map)
    (hi : slotOf (.forallThread scope map lvar) (.thread t) = some i) :
    ∃ v, map[i]? = some (.bound v) ∧ (v, t) ∈ scope.vars := by
  obtain ⟨hLt, hAt, _⟩ := List.findIdx?_eq_some_iff_getElem.mp hi
  obtain ⟨v, t', hv, hMem⟩ := hF.bound map[i] (List.getElem_mem _)
  rw [hv, beq_iff_eq] at hAt
  exact ⟨v, by rw [List.getElem?_eq_getElem hLt, hv], scope.threadOf_iff.mp hAt⟩

/-- A FORALL node that has filed more threads keeps its labels, and the new ones come
behind. -/
theorem sameLabels_forall {lvar lvar' : Option Thread}
    (hKind : nd.kind = .forallThread scope map₀ lvar) (hKind' : nd'.kind = .forallThread scope map lvar')
    (hShape : nd.children.length = nd.kind.numChildren) (hG : MapGrown scope map₀ map) :
    SameLabels nd nd' := by
  obtain ⟨new, rfl⟩ := hG.extends
  have hLen : nd.children.length = map₀.length := by
    rw [hShape, hKind]
    rfl
  constructor
  · intro a i hi
    rw [hKind] at hi
    rw [hKind']
    cases a with
    | thread t =>
      have hi' : map₀.findIdx? (fun v => v.thread scope == some t) = some i := hi
      show (map₀ ++ new).findIdx? _ = some i
      rw [List.findIdx?_append, hi']
      rfl
    | branch => cases hi
    | unit => cases hi
  · intro a i hi
    rw [hKind'] at hi
    rw [hKind]
    cases a with
    | thread t =>
      have hi' : (map₀ ++ new).findIdx? (fun v => v.thread scope == some t) = some i := hi
      rw [List.findIdx?_append, Option.or_eq_some_iff] at hi'
      rcases hi' with hOld | ⟨_, hNew⟩
      · exact Or.inl hOld
      · obtain ⟨j, _, rfl⟩ := Option.map_eq_some_iff.mp hNew
        exact Or.inr (by rw [hLen]; exact Nat.le_add_left _ _)
    | branch => cases hi
    | unit => cases hi

/-- **A label of a matching node is an answer of its operation**, and has a slot. Of a
FORALL node only the threads filed so far have labels. -/
theorem Matches.slotOf_lt {kind : NodeKind} (hM : Matches op kind) (hi : slotOf kind a = some i) :
    op.Admits a ∧ i < kind.numChildren := by
  cases op <;> cases kind <;> try exact absurd hM id
  case choice.choice s s' =>
    cases a with
    | branch b =>
      refine ⟨trivial, ?_⟩
      cases hi
      cases b
      · exact Nat.two_pos
      · exact Nat.one_lt_two
    | unit => cases hi
    | thread => cases hi
  case conditional.conditional v v' =>
    cases a with
    | unit =>
      cases hi
      exact ⟨trivial, Nat.one_pos⟩
    | branch => cases hi
    | thread => cases hi
  case runThrough.runThrough =>
    cases a with
    | unit =>
      cases hi
      exact ⟨trivial, Nat.one_pos⟩
    | branch => cases hi
    | thread => cases hi
  case runUntil.runUntil =>
    cases a with
    | unit =>
      cases hi
      exact ⟨trivial, Nat.one_pos⟩
    | branch => cases hi
    | thread => cases hi
  case forallThread.forallThread scope scope' map lvar =>
    obtain ⟨rfl, hF⟩ := hM
    cases a with
    | thread t =>
      obtain ⟨v, hv, hMem⟩ := filed_of_slotOf hF hi
      exact ⟨ThreadVarPtrSet.mem_threads.mpr ⟨v, hMem⟩, (List.getElem?_eq_some_iff.mp hv).1⟩
    | branch => cases hi
    | unit => cases hi

-- ---------------------------------------------------------------------------
-- Coherent trees
-- ---------------------------------------------------------------------------

/-- The node at a position is of the kind the script's operation there works on. -/
def Coherent (script : Script) (h : Heap) : Prop :=
  ∀ (σ : List Answer) (n : Nat) (nd : Node), nodeAt h (.unit :: σ) = some n → n ≠ ENDNODE →
    h n = some nd → Matches (script σ) nd.kind

/-- The stack lies on a path of the script, and the tree is coherent with it. -/
structure Tracks (script : Script) (m : Manager) (history ρ : List Answer) : Prop where
  labelled   : Labelled m.heap m.nodeStack (.unit :: ρ)
  taken      : (.unit :: ρ).take m.stackIndex = .unit :: history
  admissible : Admissible script ρ
  coherent   : Coherent script m.heap

/-- Where the script ends, the stack has been consumed. -/
theorem Tracks.path_eq_of_ends (hT : Tracks script m history ρ) (hEnds : (script history).Ends) :
    ρ = history := by
  have hPre : Answer.unit :: history <+: Answer.unit :: ρ := by
    rw [← hT.taken]
    exact List.take_prefix _ _
  obtain ⟨rest, rfl⟩ := (List.cons_prefix_cons.mp hPre).2
  rcases rest with _ | ⟨a, rest⟩
  · exact List.append_nil _
  · exact absurd hT.admissible.admits (Op.not_admits_of_ends hEnds a)

/-- A tree without new nodes or new kinds stays coherent. -/
theorem Coherent.mono (hC : Coherent script h)
    (hAt : ∀ q n, nodeAt h' q = some n → n ≠ ENDNODE → nodeAt h q = some n)
    (hKind : ∀ n nd', h' n = some nd' → ∃ nd, h n = some nd ∧ nd'.kind = nd.kind) :
    Coherent script h' := by
  intro σ n nd' hn hEnd hnd'
  obtain ⟨nd, hnd, hk⟩ := hKind n nd' hnd'
  rw [hk]
  exact hC σ n nd (hAt _ n hn hEnd) hEnd hnd

theorem Coherent.recolored (hC : Coherent script m.heap) (hR : Recolored m m') :
    Coherent script m'.heap := by
  refine hC.mono (fun q n hn _ => ?_) fun n nd' hn => ?_
  · rw [← hR.nodeAt q, hn]
  · obtain ⟨nd, hnd, hk, _⟩ := hR.heap_eq_some hn
    exact ⟨nd, hnd, hk⟩

/-- Putting the end node somewhere keeps the tree coherent, as the nodes that stay keep
their place and kind. -/
theorem Coherent.shortcut (hC : Coherent script h) (hCut : Shortcut h h' p i) (wf : WellFormed h next)
    (hp : h p = some pd) (hi : slotOf pd.kind a = some i) (hPath : nodeAt h path = some p) :
    Coherent script h' := by
  refine hC.mono (fun q n hn hEnd => ?_) fun n nd' hn => ?_
  -- the place of a node that stays
  · rw [hCut.nodeAt wf hp hi hPath] at hn
    split at hn
    · exact absurd (Option.some.inj hn).symm hEnd
    · split at hn
      · cases hn
      · exact hn
  -- and it was there before
  · have hNot : ¬ Below h p i n := fun hBelow => by
      rw [hCut.below n hBelow] at hn
      cases hn
    obtain ⟨_, ed⟩ := wf.endNode
    rcases hm : h n with _ | nd
    · -- nothing appears where nothing was
      have hNe : n ≠ p := by
        rintro rfl
        rw [hp] at hm
        cases hm
      have hNeEnd : n ≠ ENDNODE := by
        rintro rfl
        rw [ed] at hm
        cases hm
      rw [hCut.frame wf hNot hNe hNeEnd, hm] at hn
      cases hn
    · obtain ⟨nd₁, hn₁, hk, _⟩ := hCut.node_of_not_below wf hNot hm
      rw [hn] at hn₁
      obtain rfl := Option.some.inj hn₁
      exact ⟨nd, rfl, hk⟩

-- ---------------------------------------------------------------------------
-- The pending position
-- ---------------------------------------------------------------------------

variable {history ρ : List Answer}

/-- The next node of the stack is the one at the position reached so far. -/
theorem Tracks.nodeAt_next (hT : Tracks script m history ρ) (t : Tidy m) {idx : Option Nat}
    {o : Option NodeId} (hNext : m.getNextNodeInStack = some (o, idx)) :
    nodeAt m.heap (.unit :: history) = o := by
  rw [← hT.taken]
  rcases t.next_cases hNext with ⟨l, hl, rfl, _⟩ | ⟨hEnd, _, last, pd, hLast, hp, ho⟩
  · exact hT.labelled.nodeAt_take t.linked hl
  · rw [List.take_of_length_le (by rw [hEnd, hT.labelled.length])]
    exact hT.labelled.nodeAt_end t.linked hLast hp ho

/-- A node that existed before it was submitted is the next one of the stack. -/
theorem Submitted.next_of_old (hS : Submitted m n nd m₁) (t : Tidy m) (hn : m.heap n = some nd') :
    ∃ idx, m.getNextNodeInStack = some (some n, idx) := by
  cases hS with
  | old idx _ hNext => exact ⟨idx, hNext⟩
  | new idx _ hNew =>
    rw [t.wf.fresh n (Nat.le_of_eq hNew.symm)] at hn
    cases hn

/-- **An existing node matches the operation that works on it.** -/
theorem Tracks.matches_old (hT : Tracks script m history ρ) (t : Tidy m)
    (hS : Submitted m n nd m₁) (hn : m.heap n = some nd') : Matches (script history) nd'.kind := by
  obtain ⟨idx, hNext⟩ := hS.next_of_old t hn
  exact hT.coherent history n nd' (hT.nodeAt_next t hNext) (hS.ne_end t.wf) hn

/-- A node that is submitted as it is matches the operation. -/
theorem Tracks.matches_found (hT : Tracks script m history ρ) (t : Tidy m)
    (hS : Submitted m n nd m₁) {fresh : NodeKind} (hFound : Found m n nd fresh)
    (hFresh : Matches (script history) fresh) : Matches (script history) nd.kind := by
  rcases hFound with hOld | rfl
  · exact hT.matches_old t hS hOld
  · exact hFresh

/-- The FORALL node an operation works on has filed threads of its scope. -/
theorem Tracks.filed_origin (hT : Tracks script m history ρ) (t : Tidy m)
    (hS : Submitted m n nd m₁) (hOp : script history = .forallThread scope)
    (hOrigin : ForallOrigin m n map₀) : Filed scope map₀ := by
  rcases hOrigin with ⟨nd₀, scope₀, lvar, hn, hKind⟩ | ⟨_, rfl⟩
  · have hM := hT.matches_old t hS hn
    rw [hOp, hKind] at hM
    obtain ⟨rfl, hF⟩ := hM
    exact hF
  · exact filed_nil scope

/-- Operations other than FORALL determine the kind of their node. -/
theorem Matches.kind_eq {kind kind' : NodeKind} (hM : Matches op kind) (hM' : Matches op kind')
    (hNot : ∀ scope, op ≠ .forallThread scope) : kind' = kind := by
  cases op <;> cases kind <;> try exact absurd hM id
  case forallThread.forallThread scope _ _ _ => exact absurd rfl (hNot scope)
  all_goals
    cases kind' <;> try exact absurd hM' id
  case choice.choice.choice => rw [show _ = _ from hM, show _ = _ from hM']
  case conditional.conditional.conditional => rw [show _ = _ from hM, show _ = _ from hM']
  all_goals rfl

/-- What consuming a node means in a plain script. -/
structure PlainStep (op : Op) (m : Manager) (n : Nat) (nd : Node) (i : Nat) (a : Answer) : Prop where
  labels : ∀ nd₀, m.heap n = some nd₀ → SameLabels nd₀ nd
  kind   : Matches op nd.kind
  slot   : slotOf nd.kind a = some i

/-- **In a plain script every operation consumes a matching node**, and the answer is the
label of the slot it takes. -/
theorem Tracks.plainStep (hT : Tracks script m history ρ) (t : Tidy m) (hPlain : Script.Plain script)
    (hS : Submitted m n nd m₁) (hTakes : Takes m m₁ env n nd (script history) i a) :
    PlainStep (script history) m n nd i a := by
  have hOldMatches : ∀ nd₀, m.heap n = some nd₀ → Matches (script history) nd₀.kind :=
    fun _ hn => hT.matches_old t hS hn
  have hOpPlain := hPlain history
  generalize hOp : script history = op at *
  have hSame : (∀ scope, op ≠ .forallThread scope) → Matches op nd.kind →
      ∀ nd₀, m.heap n = some nd₀ → SameLabels nd₀ nd := by
    intro hNot hM nd₀ hn
    exact .of_kind ((hOldMatches nd₀ hn).kind_eq hM hNot)
  cases hTakes with
  -- the node of a choice found in the tree is the one of this script position
  | choice s i hKind hFound hi =>
    have hM := hT.matches_found t hS hFound (by rw [hOp]; exact rfl)
    rw [hOp] at hM
    refine ⟨hSame (by simp) hM, hM, ?_⟩
    rcases hk : nd.kind with _ | _ | _ | _ | _ | _ | _ | _
    case choice =>
      show some (if (i == 1) = true then 1 else 0) = some i
      rcases Nat.le_one_iff_eq_zero_or_eq_one.mp hi with rfl | rfl
      · rfl
      · rfl
    all_goals simp [hk, NodeKind.isChoice] at hKind
  | conditional v hKind =>
    have hM : Matches (.conditional v) nd.kind := by
      rw [hKind]
      exact rfl
    exact ⟨hSame (by simp) hM, hM, by rw [hKind]; rfl⟩
  | runThrough hKind =>
    have hM : Matches .runThrough nd.kind := by
      rw [hKind]
      trivial
    exact ⟨hSame (by simp) hM, hM, by rw [hKind]; rfl⟩
  | runUntil hKind =>
    have hM : Matches .runUntil nd.kind := by
      rw [hKind]
      trivial
    exact ⟨hSame (by simp) hM, hM, by rw [hKind]; rfl⟩
  -- a selection: the variables filed before and now
  | forallThread scope map₀ map i t' var _ hOrigin hKind hGrown hFiles =>
    have hF₀ := hT.filed_origin t hS hOp hOrigin
    have hF := hGrown.filed hOpPlain hF₀
    have hM : Matches (.forallThread scope) nd.kind := by
      rw [hKind]
      exact ⟨rfl, hF⟩
    obtain ⟨v, rfl, hv⟩ := (ThreadVarPtrSet.varFor_iff hOpPlain).mp hFiles.filed
    refine ⟨fun nd₀ hn => ?_, hM, ?_⟩
    -- an old node keeps its labels
    · rcases hOrigin with ⟨nd₁, scope₁, lvar, hn₁, hKind₁⟩ | ⟨hNone, _⟩
      · rw [hn] at hn₁
        obtain rfl := Option.some.inj hn₁
        have hM₀ := hOldMatches nd₀ hn
        rw [hKind₁] at hM₀
        obtain ⟨rfl, _⟩ := hM₀
        exact sameLabels_forall hKind₁ hKind (t.wf.shape hn) hGrown
      · rw [hNone] at hn
        cases hn
    · rw [hKind]
      exact slotOf_filed hOpPlain hF hFiles.index hv
  | existsThread => exact absurd hOpPlain id

-- ---------------------------------------------------------------------------
-- Advancing
-- ---------------------------------------------------------------------------

/-- A node that has just been submitted and hangs nowhere has no children. -/
theorem Submitted.noChildren (hS : Submitted m n nd m₁) (t : Tidy m)
    (hLoose : ∀ p j, ¬ Slot m₁.heap p j n) : NoChildren nd := by
  cases hS with
  | old idx nd₀ hNext hn hCov hEnd hGrow =>
    have hSlot := slot_update_iff hn hGrow.sameLinks.children
    rcases t.next_cases hNext with ⟨l, hl, hln, _⟩ | ⟨_, _, last, pd, _, hp, ho⟩
    · obtain ⟨prev, _, hLink⟩ := t.last_recorded hl
      obtain rfl : n = l.parent := Option.some.inj hln
      exact absurd ((hSlot _ _ _).mpr hLink) (hLoose _ _)
    · exact absurd ((hSlot _ _ _).mpr ⟨pd, hp, ho⟩) (hLoose _ _)
  | new _ _ _ _ _ hKids => exact hKids

/-- What consuming a node leaves of each node: at most an empty slot is filled, with the
node consumed. -/
theorem Consumed.keeps (hC : Consumed m n i m') {kd : Node} (hk : m.heap k = some kd) :
    ∃ kd', m'.heap k = some kd' ∧ kd'.kind = kd.kind ∧ kd'.covered = kd.covered ∧
      kd'.children.length = kd.children.length ∧
      ∀ j : Nat, kd'.children[j]? = kd.children[j]? ∨
        (kd.children[j]? = some none ∧ kd'.children[j]? = some (some n)) := by
  cases hC with
  | recorded => exact ⟨kd, hk, rfl, rfl, rfl, fun _ => Or.inl rfl⟩
  | linked => exact ⟨kd, hk, rfl, rfl, rfl, fun _ => Or.inl rfl⟩
  -- the node is hung below the last location
  | loose last pd nd _ _ hp hEmpty hLater _ hn =>
    by_cases hkn : k = n
    · subst hkn
      rw [hn] at hk
      obtain rfl := Option.some.inj hk
      exact ⟨_, Function.update_self .., rfl, rfl, rfl, fun _ => Or.inl rfl⟩
    · by_cases hkp : k = last.parent
      · subst hkp
        rw [hp] at hk
        obtain rfl := Option.some.inj hk
        refine ⟨_, (Function.update_of_ne hkn ..).trans (Function.update_self ..), rfl, rfl,
          List.length_set .., fun j => ?_⟩
        by_cases hj : j = last.childIndex
        · subst hj
          exact Or.inr ⟨hEmpty, List.getElem?_set_self (List.getElem?_eq_some_iff.mp hEmpty).1⟩
        · exact Or.inl (List.getElem?_set_ne (Ne.symm hj))
      · exact ⟨kd, (Function.update_of_ne hkn ..).trans ((Function.update_of_ne hkp ..).trans hk),
          rfl, rfl, rfl, fun _ => Or.inl rfl⟩

/-- Consuming a node makes none. -/
theorem Consumed.none_of_none (hC : Consumed m n i m') (hk : m.heap k = none) : m'.heap k = none := by
  cases hC with
  | recorded => exact hk
  | linked => exact hk
  | loose last pd nd _ _ hp _ _ _ hn =>
    have hkn : k ≠ n := by
      rintro rfl
      rw [hn] at hk
      cases hk
    have hkp : k ≠ last.parent := by
      rintro rfl
      rw [hp] at hk
      cases hk
    exact (Function.update_of_ne hkn ..).trans ((Function.update_of_ne hkp ..).trans hk)

/-- Consuming a node makes none, and changes neither kind nor flag of the others. -/
theorem Consumed.heap_eq_some (hC : Consumed m n i m') {kd' : Node} (hk : m'.heap k = some kd') :
    ∃ kd, m.heap k = some kd ∧ kd'.kind = kd.kind ∧ kd'.covered = kd.covered := by
  rcases hm : m.heap k with _ | kd
  · rw [hC.none_of_none hm] at hk
    cases hk
  · obtain ⟨kd₁, hk₁, hKind, hCov, _⟩ := hC.keeps hm
    rw [hk] at hk₁
    obtain rfl := Option.some.inj hk₁
    exact ⟨kd, rfl, hKind, hCov⟩

/-- **Consuming keeps flags.** -/
theorem Consumed.isCovered (hC : Consumed m n i m') (k : Nat) : m'.isCovered k = m.isCovered k := by
  unfold Manager.isCovered
  rcases hm : m.heap k with _ | kd
  · rw [hC.none_of_none hm]
  · obtain ⟨kd₁, hk₁, _, hCov, _⟩ := hC.keeps hm
    rw [hk₁]
    exact hCov

/-- What one operation of a plain script does to positions and answers. -/
structure Moved (script : Script) (m m' : Manager) (n : Nat) (history ρ ρ' : List Answer) (a : Answer) :
    Prop where
  tracks  : Tracks script m' (history ++ [a]) ρ'
  nodeAt  : ∀ q, nodeAt m'.heap q = if q = .unit :: history then some n else nodeAt m.heap q
  kept    : m.stackIndex < m.nodeStack.length → m'.nodeStack = m.nodeStack ∧ ρ' = ρ
  whole   : m.stackIndex = m.nodeStack.length → ρ' = ρ ++ [a]
  admits  : (script history).Admits a

theorem Consumed.stackIndex (hC : Consumed m n i m') : m'.stackIndex = m.stackIndex + 1 := by
  cases hC with
  | recorded => rfl
  | linked => rfl
  | loose => rfl

/-- The location consumed last is the one just consumed. -/
theorem Consumed.getLast (hC : Consumed m n i m') : m'.getLastNodeInStack = some ⟨n, i⟩ := by
  rw [Manager.getLastNodeInStack_eq_some]
  cases hC with
  | recorded hNext => exact ⟨Nat.le_add_left _ _, by rwa [Nat.add_sub_cancel]⟩
  | linked last hEnd => exact ⟨Nat.le_add_left _ _, by simp [hEnd]⟩
  | loose last pd nd hEnd => exact ⟨Nat.le_add_left _ _, by simp [hEnd]⟩

/-- **An operation of a plain script follows the script** and keeps the tree coherent. While
the stack is being replayed the path stays, afterwards it grows by the answer. -/
theorem Tracks.advance (hT : Tracks script m history ρ) (t : Tidy m) (hPlain : Script.Plain script)
    (hS : Submitted m n nd m₁) (hTakes : Takes m m₁ env n nd (script history) i a)
    (hC : Consumed m₁ n i m') : ∃ ρ', Moved script m m' n history ρ ρ' a := by
  have hP := hT.plainStep t hPlain hS hTakes
  obtain ⟨hStack, hIndex⟩ := hS.stack
  have t₁ := hS.tidy t
  have hL₁ : Labelled m₁.heap m₁.nodeStack (.unit :: ρ) := by
    rw [hStack]
    exact hS.labelled hP.labels hT.labelled
  obtain ⟨path', hAdv⟩ := hC.advanced t₁ hL₁ hS.node (hS.noChildren t) hP.slot
  -- the path up to the index is the history
  have hTaken : path'.take m'.stackIndex = .unit :: (history ++ [a]) := by
    rw [hAdv.taken, hIndex, hT.taken]
    rfl
  obtain ⟨ρ', rfl⟩ : ∃ ρ', path' = .unit :: ρ' := by
    rcases path' with _ | ⟨x, ρ'⟩
    · simp at hTaken
    · rw [hC.stackIndex, List.take_succ_cons] at hTaken
      obtain ⟨rfl, _⟩ := List.cons.inj hTaken
      exact ⟨ρ', rfl⟩
  have hAdmits : (script history).Admits a := (hP.kind.slotOf_lt hP.slot).1
  have hAt : ∀ q, Model.nodeAt m'.heap q =
      if q = .unit :: history then some n else Model.nodeAt m.heap q := by
    intro q
    rw [hAdv.nodeAt, hIndex, hT.taken, hS.nodeAt t hP.labels]
  have hKept : m.stackIndex < m.nodeStack.length → m'.nodeStack = m.nodeStack ∧ ρ' = ρ := by
    intro hLt
    obtain ⟨hSt, hPath⟩ := hAdv.kept (by rw [hStack, hIndex]; exact hLt)
    exact ⟨hSt.trans hStack, (List.cons.inj hPath).2⟩
  have hWhole : m.stackIndex = m.nodeStack.length → ρ' = ρ ++ [a] := by
    intro hEnd
    have hPath := hAdv.whole (by rw [hStack, hIndex]; exact hEnd)
    exact (List.cons.inj hPath).2
  -- the whole path is admissible: nothing new, or one answer more
  have hAdmissible : Admissible script ρ' := by
    rcases Nat.lt_or_eq_of_le t.le with hLt | hEnd
    · rw [(hKept hLt).2]
      exact hT.admissible
    · have hHist : history = ρ := by
        have hTaken' := hT.taken
        rw [List.take_of_length_le (by rw [hEnd, hT.labelled.length])] at hTaken'
        exact (List.cons.inj hTaken').2.symm
      rw [hWhole hEnd]
      rw [hHist] at hAdmits
      exact hT.admissible.snoc hAdmits
  -- every node matches the operation at its place
  have hCoherent : Coherent script m'.heap := by
    intro σ k kd' hk hkEnd hkd'
    obtain ⟨kd, hkd, hKind, _⟩ := hC.heap_eq_some hkd'
    rw [hKind]
    rw [hAt] at hk
    by_cases hkn : k = n
    · -- the node consumed hangs at the pending position only
      subst hkn
      rw [hS.node] at hkd
      obtain rfl := Option.some.inj hkd
      split at hk
      · rename_i hσ
        obtain rfl : σ = history := (List.cons.inj hσ).2
        exact hP.kind
      · obtain ⟨nd₀, hn₀⟩ := nodeAt_node t.wf hk
        obtain ⟨idx, hNext⟩ := hS.next_of_old t hn₀
        have hEq := walk_injective (treeShaped t.wf) hk (hT.nodeAt_next t hNext) hkEnd
        obtain rfl : σ = history := (List.cons.inj hEq).2
        exact hP.kind
    · split at hk
      · exact absurd (Option.some.inj hk).symm hkn
      · rw [hS.frame hkn] at hkd
        exact hT.coherent σ k kd hk hkEnd hkd
  exact ⟨ρ', ⟨hAdv.labelled, hTaken, hAdmissible, hCoherent⟩, hAt, hKept, hWhole, hAdmits⟩

end Concurrit.Model
