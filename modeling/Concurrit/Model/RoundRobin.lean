import Mathlib.Data.List.Rotate
import Mathlib.Data.List.TakeWhile
import Concurrit.Model.Counit

/-!
# Concurrit — the next running coroutine

`coroutine_group.add` puts a coroutine at the end of `memberlist` and into the dictionary
`members`, under its `desc`; it may be in the list already, and so may another one with that
`desc`. `get_next_running` goes round the list from the place behind the current coroutine, up
to an entry that is equal to it, or to the first entry that it has looked at.

* `Undisturbed`         — no such entry, and no other coroutine's `desc`, comes before the
  coroutine that is looked for.
* `getNextRunning_iff`  — the first running coroutine in circular order is found if and only if
  the group is `Undisturbed`.
* `undisturbed_of_nodup` — a group without duplicates is.
-/

namespace Concurrit.Model

open Function (update)

namespace Counit

-- ---------------------------------------------------------------------------
-- Groups of coroutine objects
-- ---------------------------------------------------------------------------

/-- A `coroutine_group`, and the field `desc` of the coroutines. -/
structure CoroutineGroup (α : Type) where
  members : List (String × α)
  memberlist : List α
  nextId : Nat
  desc : α → Option String

/-- What `get_next_running` gets for `curr`. -/
inductive Current (α : Type) where
  | none
  | main
  | member (c : α)

variable {α : Type}

namespace CoroutineGroup

/-- `members[d] = c` -/
def setItem (members : List (String × α)) (d : String) (c : α) : List (String × α) :=
  (d, c) :: members.filter fun item => item.1 ≠ d

theorem mem_setItem {members : List (String × α)} {d e : String} {c m : α} :
    (e, m) ∈ setItem members d c ↔ (e = d ∧ m = c) ∨ ((e, m) ∈ members ∧ e ≠ d) := by
  simp [setItem]

def allEnded (g : CoroutineGroup α) (ended : α → Bool) : Bool :=
  g.members.all fun item => ended item.2

/-- `old_targets.count(coroutine.get_desc(m)) > 0 or m.ended` -/
def skips (g : CoroutineGroup α) (ended : α → Bool) (oldTargets : List String) (m : α) : Bool :=
  (match g.desc m with
    | none => false
    | some d => decide (0 < oldTargets.count d)) || ended m

/-- The index behind `i`. -/
def next (g : CoroutineGroup α) (i : Nat) : Nat := if g.memberlist.length ≤ i + 1 then 0 else i + 1

theorem next_lt (g : CoroutineGroup α) {i : Nat} (hi : i < g.memberlist.length) :
    g.next i < g.memberlist.length := by
  unfold next
  split <;> omega

/-- The place behind `i`, in circular order. -/
theorem rotate_next (g : CoroutineGroup α) {i : Nat} (hi : i < g.memberlist.length) :
    g.memberlist.rotate (g.next i) = g.memberlist.rotate (i + 1) := by
  unfold next
  split
  case isTrue hEnd =>
    obtain hLen : i + 1 = g.memberlist.length := by omega
    rw [hLen, List.rotate_length, List.rotate_zero]
  case isFalse => rfl

theorem rotate_cons {xs rest : List α} {i : Nat} {m : α} (h : xs.rotate i = m :: rest) :
    xs.rotate (i + 1) = rest ++ [m] := by
  rw [← List.rotate_rotate, h, List.rotate_cons_succ, List.rotate_zero]

/-- The list has the coroutines in the order in which they were added; each is known to the
dictionary by its `desc`, or another one is. -/
structure Lists (g : CoroutineGroup α) (cs : List α) : Prop where
  memberlist : g.memberlist = cs
  listed : ∀ m ∈ cs, ∃ d c, g.desc m = some d ∧ (d, c) ∈ g.members
  known : ∀ d c, (d, c) ∈ g.members → g.desc c = some d ∧ c ∈ cs

/-- A group whose dictionary has a running coroutine is not empty. -/
theorem Lists.ne_nil {g : CoroutineGroup α} {cs : List α} (h : g.Lists cs) {ended : α → Bool}
    (hEnded : g.allEnded ended = false) : cs ≠ [] := by
  rintro rfl
  have hAll : g.allEnded ended = true := List.all_eq_true.mpr fun item hItem =>
    absurd (h.known item.1 item.2 hItem).2 List.not_mem_nil
  rw [hAll] at hEnded
  cases hEnded

variable [DecidableEq α]

/-- What `add` does first: a coroutine without a `desc` gets one. -/
def named (g : CoroutineGroup α) (c : α) : String × CoroutineGroup α :=
  match g.desc c with
  | some d => (d, g)
  | none =>
    let d := "co" ++ toString g.nextId
    (d, { g with nextId := g.nextId + 1, desc := update g.desc c (some d) })

def add (g : CoroutineGroup α) (c : α) : CoroutineGroup α :=
  let named := g.named c
  { named.2 with
    members := setItem named.2.members named.1 c
    memberlist := named.2.memberlist ++ [c] }

/-- The group to which these coroutines have been added. -/
def of (desc : α → Option String) (cs : List α) : CoroutineGroup α :=
  cs.foldl add ⟨[], [], 0, desc⟩

/-- The `while` loop of `get_next_running`; the outer `none` means that it goes on. -/
def scan (g : CoroutineGroup α) (ended : α → Bool) (oldTargets : List String) :
    Nat → Nat → Option α → Option (Except Raised (Option α))
  | 0, _, _ => none
  | fuel + 1, i, curr =>
    match g.memberlist[i]? with
    | none => some (.error .error)
    | some m =>
      if curr = some m then some (.ok none)
      else if g.skips ended oldTargets m then
        g.scan ended oldTargets fuel (g.next i) (some (curr.getD m))
      else some (.ok (some m))

/-- `get_next_running`; the outer `none` means that `fuel` turns of its loop are not enough. -/
def getNextRunning (g : CoroutineGroup α) (fuel : Nat) (ended : α → Bool) (curr : Current α)
    (oldTargets : List String) : Option (Except Raised (Option α)) :=
  if g.allEnded ended then some (.ok none)
  else
    match curr with
    | .none | .main => g.scan ended oldTargets fuel 0 none
    | .member c =>
      match g.memberlist.idxOf? c with
      | none => some (.error .error)
      | some j => g.scan ended oldTargets fuel (g.next j) (some c)

-- ---------------------------------------------------------------------------
-- The coroutine that is looked for
-- ---------------------------------------------------------------------------

/-- The members in circular order after the current one, which comes last. -/
def circular (g : CoroutineGroup α) : Current α → List α
  | .none | .main => g.memberlist
  | .member c => g.memberlist.rotate (g.memberlist.idxOf c + 1)

/-- A running member that is not among the targets already tried. -/
def untried (g : CoroutineGroup α) (ended : α → Bool) (oldTargets : List String) (m : α) : Bool :=
  !g.skips ended oldTargets m

/-- An untried member that is not the current one. -/
def eligible (g : CoroutineGroup α) (ended : α → Bool) (oldTargets : List String) :
    Current α → α → Bool
  | .none, m | .main, m => g.untried ended oldTargets m
  | .member c, m => decide (m ≠ c) && g.untried ended oldTargets m

def firstRunning (g : CoroutineGroup α) (ended : α → Bool) (curr : Current α)
    (oldTargets : List String) : Option α :=
  (g.circular curr).find? (g.eligible ended oldTargets curr)

/-- The entries hold one at which the loop stops: the current coroutine; or without one, the
first entry again. -/
def Stops (entries : List α) : Current α → Prop
  | .none | .main => ∃ f rest, entries = f :: rest ∧ f ∈ rest
  | .member c => c ∈ entries

/-- If some member is eligible, then the loop does not stop before the first one, and not all
entries of the dictionary have ended. -/
def Undisturbed (g : CoroutineGroup α) (ended : α → Bool) (curr : Current α)
    (oldTargets : List String) : Prop :=
  ∀ before m, before ++ [m] <+: g.circular curr → g.eligible ended oldTargets curr m = true →
    (∀ x ∈ before, g.eligible ended oldTargets curr x = false) →
    g.allEnded ended = false ∧ ¬ Stops before curr

-- ---------------------------------------------------------------------------
-- Adding coroutines
-- ---------------------------------------------------------------------------

/-- Naming a coroutine leaves the names of the others, and the lists of the group. Only a
coroutine without a name gets a new one. -/
theorem named_spec (g : CoroutineGroup α) (c : α) :
    (g.named c).2.desc c = some (g.named c).1 ∧
      (∀ m d, g.desc m = some d → (g.named c).2.desc m = some d) ∧
      (g.named c).2.members = g.members ∧ (g.named c).2.memberlist = g.memberlist := by
  unfold named
  cases hDesc : g.desc c with
  | some d => exact ⟨hDesc, fun _ _ h => h, rfl, rfl⟩
  | none =>
    refine ⟨Function.update_self .., fun m d h => ?_, rfl, rfl⟩
    have hOther : m ≠ c := by
      rintro rfl
      rw [hDesc] at h
      cases h
    exact (Function.update_of_ne hOther ..).trans h

/-- **Adding a coroutine** puts it at the end of `memberlist` and under its `desc` into
`members`, where it may take the place of another one of the same name. -/
theorem Lists.add {g : CoroutineGroup α} {cs : List α} (h : g.Lists cs) (c : α) :
    (g.add c).Lists (cs ++ [c]) := by
  obtain ⟨hDesc, hKeep, hMembers, hList⟩ := g.named_spec c
  refine ⟨?_, fun m hm => ?_, fun e m hm => ?_⟩
  · simp only [CoroutineGroup.add, hList, h.memberlist]
  · rcases List.mem_append.mp hm with hm | hm
    · obtain ⟨d, k, hd, hk⟩ := h.listed m hm
      -- its entry is the one that is replaced
      by_cases hSame : d = (g.named c).1
      · exact ⟨d, c, hKeep m d hd, mem_setItem.mpr (.inl ⟨hSame, rfl⟩)⟩
      · refine ⟨d, k, hKeep m d hd, mem_setItem.mpr (.inr ⟨?_, hSame⟩)⟩
        exact hMembers ▸ hk
    · obtain rfl := List.mem_singleton.mp hm
      exact ⟨_, m, hDesc, mem_setItem.mpr (.inl ⟨rfl, rfl⟩)⟩
  -- every entry of the dictionary is of a coroutine that was added
  · rcases mem_setItem.mp hm with ⟨rfl, rfl⟩ | ⟨hm, -⟩
    · exact ⟨hDesc, by simp⟩
    · rw [hMembers] at hm
      obtain ⟨hd, hk⟩ := h.known e m hm
      exact ⟨hKeep m e hd, List.mem_append_left _ hk⟩

/-- A group that is built by `add` alone lists what was added, in this order. -/
theorem lists_of (desc : α → Option String) (cs : List α) : (of desc cs).Lists cs := by
  have hFold : ∀ (cs before : List α) (g : CoroutineGroup α), g.Lists before →
      (cs.foldl CoroutineGroup.add g).Lists (before ++ cs) := by
    intro cs
    induction cs with
    | nil =>
      intro before g h
      rwa [List.append_nil]
    | cons c cs ih =>
      intro before g h
      have := ih (before ++ [c]) (g.add c) (h.add c)
      rwa [List.append_assoc] at this
  exact hFold cs [] _ ⟨rfl, fun m hm => absurd hm List.not_mem_nil,
    fun d c hc => absurd hc List.not_mem_nil⟩

-- ---------------------------------------------------------------------------
-- The loop
-- ---------------------------------------------------------------------------

theorem takeWhile_append_of_mem {c : α} {xs : List α} (h : c ∈ xs) (ys : List α) :
    (xs ++ ys).takeWhile (· ≠ c) = xs.takeWhile (· ≠ c) := by
  rw [List.takeWhile_append, if_neg]
  intro hLen
  have hSelf := (List.takeWhile_prefix _).eq_of_length hLen
  simpa using List.takeWhile_eq_self_iff.mp hSelf c h

/-- With an entry to stop at, the loop finds the first one before it that it does not skip.
The induction is on the fuel; the entries that are left to look at are those of the rotated
list up to the stop. -/
theorem scan_some (g : CoroutineGroup α) (ended : α → Bool) (oldTargets : List String) (c : α)
    (hc : c ∈ g.memberlist) (fuel i : Nat) (hi : i < g.memberlist.length)
    (hFuel : ((g.memberlist.rotate i).takeWhile (· ≠ c)).length < fuel) :
    g.scan ended oldTargets fuel i (some c) = some (.ok
      (((g.memberlist.rotate i).takeWhile (· ≠ c)).find?
        (g.untried ended oldTargets))) := by
  induction fuel generalizing i with
  | zero => omega
  | succ fuel ih =>
    have hHead : (g.memberlist.rotate i).head? = g.memberlist[i]? := List.head?_rotate hi
    cases hRotate : g.memberlist.rotate i with
    -- the loop has something to look at, as the stop is in the list
    | nil =>
      rw [List.rotate_eq_nil_iff] at hRotate
      rw [hRotate] at hc
      cases hc
    | cons m rest =>
      rw [hRotate] at hHead hFuel
      rw [scan, ← hHead]
      dsimp only [List.head?_cons]
      by_cases hStop : m = c
      -- the loop is at the stop
      · rw [if_pos (congrArg some hStop.symm), List.takeWhile_cons_of_neg (by simpa using hStop),
          List.find?_nil]
      · rw [List.takeWhile_cons_of_pos (by simpa using hStop)] at hFuel ⊢
        rw [if_neg (fun h => hStop (Option.some.inj h).symm)]
        split
        -- the entry is skipped: the next round begins with the rest
        case isTrue hSkip =>
          have hc' : c ∈ rest := by
            have hMem : c ∈ m :: rest := hRotate ▸ List.mem_rotate.mpr hc
            exact (List.mem_cons.mp hMem).resolve_left (Ne.symm hStop)
          have hNext : (g.memberlist.rotate (g.next i)).takeWhile (· ≠ c) =
              rest.takeWhile (· ≠ c) := by
            rw [g.rotate_next hi, rotate_cons hRotate, takeWhile_append_of_mem hc']
          rw [Option.getD_some, ih (g.next i) (g.next_lt hi) (by
            rw [hNext]
            simpa using hFuel), hNext, List.find?_cons_of_neg (by simp [untried, hSkip])]
        -- the entry is the one to run
        case isFalse hRun =>
          rw [List.find?_cons_of_pos (by simpa [untried] using hRun)]

/-- The entries that the loop looks at. -/
def looked (g : CoroutineGroup α) : Current α → List α
  | .none | .main =>
    match g.memberlist with
    | [] => []
    | f :: rest => f :: rest.takeWhile (· ≠ f)
  | .member c => (g.circular (.member c)).takeWhile (· ≠ c)

/-- Without an entry to stop at the first one becomes the stop, unless it is taken: the loop
then looks at the others once. A second entry of the first coroutine stops it early. -/
theorem scan_none (g : CoroutineGroup α) (ended : α → Bool) (oldTargets : List String)
    (hNonempty : g.memberlist ≠ []) (fuel : Nat) (hFuel : g.memberlist.length + 1 < fuel) :
    g.scan ended oldTargets fuel 0 none = some (.ok
      ((g.looked .none).find? (g.untried ended oldTargets))) := by
  obtain ⟨fuel, rfl⟩ : ∃ n, fuel = n + 1 := ⟨fuel - 1, by omega⟩
  cases hList : g.memberlist with
  | nil => exact absurd hList hNonempty
  | cons f rest =>
    have hLook : g.looked .none = f :: rest.takeWhile (· ≠ f) := by
      simp only [looked, hList]
    rw [hLook, scan, hList]
    dsimp only [List.getElem?_cons_zero]
    rw [if_neg (by simp)]
    split
    case isFalse hRun =>
      -- taken at once
      rw [List.find?_cons_of_pos (by simpa [untried] using hRun)]
    case isTrue hSkip =>
      have hPos : 0 < g.memberlist.length := List.length_pos_iff.mpr hNonempty
      have hNext : (g.memberlist.rotate (g.next 0)).takeWhile (· ≠ f) =
          rest.takeWhile (· ≠ f) := by
        have hRotate : g.memberlist.rotate 0 = f :: rest := by rw [List.rotate_zero, hList]
        rw [g.rotate_next hPos, rotate_cons hRotate]
        -- whether the first one occurs again decides where the loop stops
        by_cases hf : f ∈ rest
        · exact takeWhile_append_of_mem hf [f]
        · have hAll : ∀ m ∈ rest, decide (m ≠ f) = true := fun m hm =>
            decide_eq_true (ne_of_mem_of_not_mem hm hf)
          rw [List.takeWhile_append_of_pos hAll, List.takeWhile_eq_self_iff.mpr hAll,
            List.takeWhile_cons_of_neg (by simp), List.append_nil]
      have hLen : (rest.takeWhile (· ≠ f)).length < fuel := by
        have := (List.takeWhile_prefix (p := (· ≠ f)) (l := rest)).length_le
        rw [hList, List.length_cons] at hFuel
        omega
      rw [Option.getD_none, g.scan_some ended oldTargets f (by simp [hList]) fuel (g.next 0)
        (g.next_lt hPos) (by rw [hNext]; exact hLen), hNext,
        List.find?_cons_of_neg (by simp [untried, hSkip])]

/-- `index` finds what is in the list, at its first place. -/
theorem idxOf?_of_mem {c : α} {xs : List α} (h : c ∈ xs) : xs.idxOf? c = some (xs.idxOf c) := by
  induction xs with
  | nil => cases h
  | cons x xs ih =>
    rw [List.idxOf?_cons, List.idxOf_cons]
    cases hx : x == c with
    | true => rfl
    | false =>
      have hMem : c ∈ xs := (List.mem_cons.mp h).resolve_left fun hEq => by
        rw [hEq, beq_self_eq_true] at hx
        cases hx
      rw [if_neg Bool.false_ne_true, ih hMem]
      rfl

/-- **`get_next_running` comes to an end**, and finds what there is among the entries that
it looks at. -/
theorem getNextRunning_eq {g : CoroutineGroup α} {cs : List α} (hLists : g.Lists cs) (fuel : Nat)
    (hFuel : cs.length + 1 < fuel) (ended : α → Bool) (curr : Current α)
    (hCurr : ∀ c, curr = .member c → c ∈ cs) (oldTargets : List String) :
    g.getNextRunning fuel ended curr oldTargets = some (.ok
      (if g.allEnded ended then none
        else (g.looked curr).find? (g.untried ended oldTargets))) := by
  unfold getNextRunning
  split
  · rfl
  -- otherwise the group is not empty, and the loop runs
  case isFalse hEnded =>
    rw [Bool.not_eq_true] at hEnded
    have hNonempty : g.memberlist ≠ [] := hLists.memberlist ▸ hLists.ne_nil hEnded
    rw [← hLists.memberlist] at hFuel hCurr
    cases curr with
    | none => exact g.scan_none ended oldTargets hNonempty fuel hFuel
    | main => exact g.scan_none ended oldTargets hNonempty fuel hFuel
    -- it begins behind the current coroutine and stops there
    | member c =>
      have hc := hCurr c rfl
      have hIdx := idxOf?_of_mem hc
      have hi : g.memberlist.idxOf c < g.memberlist.length := List.idxOf_lt_length_iff.mpr hc
      simp only [hIdx]
      have hLen : ((g.memberlist.rotate (g.next (g.memberlist.idxOf c))).takeWhile
          (· ≠ c)).length < fuel := by
        have := (List.takeWhile_prefix (p := (· ≠ c))
          (l := g.memberlist.rotate (g.next (g.memberlist.idxOf c)))).length_le
        rw [List.length_rotate] at this
        omega
      rw [g.scan_some ended oldTargets c hc fuel _ (g.next_lt hi) hLen, g.rotate_next hi]
      rfl

-- ---------------------------------------------------------------------------
-- When it finds the first one
-- ---------------------------------------------------------------------------

/-- A search that stops early finds the same if and only if it does not stop before the
first hit. `p` is what is searched for, `q` holds up to the stop. -/
theorem find?_takeWhile_iff {β : Type} {p q : β → Bool} {xs : List β}
    (hpq : ∀ x ∈ xs, p x = true → q x = true) :
    (xs.takeWhile q).find? p = xs.find? p ↔
      ∀ before m, before ++ [m] <+: xs → p m = true → (∀ x ∈ before, p x = false) →
        ∀ x ∈ before, q x = true := by
  induction xs with
  | nil => simp
  | cons a xs ih =>
    simp only [List.mem_cons, forall_eq_or_imp] at hpq
    -- the condition for `a :: xs` in terms of the one for `xs`
    have hStep : (∀ before m, before ++ [m] <+: a :: xs → p m = true →
        (∀ x ∈ before, p x = false) → ∀ x ∈ before, q x = true) ↔
        p a = true ∨ ∀ before m, before ++ [m] <+: xs → p m = true →
          (∀ x ∈ before, p x = false) → q a = true ∧ ∀ x ∈ before, q x = true := by
      constructor
      · intro h
        by_cases ha : p a = true
        · exact .inl ha
        refine .inr fun before m hPrefix hm hBefore => ?_
        have := h (a :: before) m (List.cons_prefix_cons.mpr ⟨rfl, hPrefix⟩) hm
          (List.forall_mem_cons.mpr ⟨by simpa using ha, hBefore⟩)
        exact List.forall_mem_cons.mp this
      · rintro h before m hPrefix hm hBefore
        cases before with
        | nil => simp
        | cons b before =>
          obtain ⟨rfl, hMore⟩ := List.cons_prefix_cons.mp hPrefix
          obtain ⟨hb, hBefore⟩ := List.forall_mem_cons.mp hBefore
          rcases h with h | h
          · rw [hb] at h
            cases h
          · exact List.forall_mem_cons.mpr (h before m hMore hm hBefore)
    rw [hStep]
    -- the first hit is here
    by_cases hp : p a = true
    · rw [List.takeWhile_cons_of_pos (hpq.1 hp), List.find?_cons_of_pos hp,
        List.find?_cons_of_pos hp]
      simp [hp]
    rw [List.find?_cons_of_neg hp, or_iff_right hp]
    -- here it neither hits nor stops
    by_cases hq : q a = true
    · rw [List.takeWhile_cons_of_pos hq, List.find?_cons_of_neg hp, ih hpq.2]
      simp [hq]
    · rw [List.takeWhile_cons_of_neg hq, List.find?_nil]
      cases hFind : xs.find? p with
      | none =>
        refine ⟨fun _ before m hPrefix hm => absurd hm ?_, fun _ => rfl⟩
        exact List.find?_eq_none.mp hFind m (hPrefix.subset (by simp))
      | some m =>
        -- the first hit is behind the stop
        obtain ⟨hm, before, behind, rfl, hBefore⟩ := List.find?_eq_some_iff_append.mp hFind
        have hPrefix : before ++ [m] <+: before ++ m :: behind := ⟨behind, by simp⟩
        refine ⟨fun h => absurd h (by simp), fun h => ?_⟩
        exact absurd (h before m hPrefix hm fun x hx => by simpa using hBefore x hx).1 hq

theorem find?_congr {β : Type} {p q : β → Bool} {xs : List β} (h : ∀ x ∈ xs, p x = q x) :
    xs.find? p = xs.find? q := by
  induction xs with
  | nil => rfl
  | cons a xs ih =>
    obtain ⟨ha, hMore⟩ := List.forall_mem_cons.mp h
    rw [List.find?_cons, List.find?_cons, ha, ih hMore]

section

variable {g : CoroutineGroup α} {ended : α → Bool} {oldTargets : List String}

/-- Without a current coroutine: the entries looked at are those before the second
occurrence of the first one. -/
theorem find?_looked_none :
    ((g.looked .none).find? (g.untried ended oldTargets)) =
        g.memberlist.find? (g.untried ended oldTargets) ↔
      ∀ before m, before ++ [m] <+: g.memberlist → g.untried ended oldTargets m = true →
        (∀ x ∈ before, g.untried ended oldTargets x = false) → ¬ Stops before .none := by
  cases hList : g.memberlist with
  | nil => simp [looked, hList]
  | cons f rest =>
    have hLook : g.looked .none = f :: rest.takeWhile (· ≠ f) := by
      simp only [looked, hList]
    rw [hLook]
    -- if the first entry is the hit there is nothing to disturb
    by_cases hf : g.untried ended oldTargets f = true
    · rw [List.find?_cons_of_pos hf, List.find?_cons_of_pos hf]
      refine ⟨fun _ before m hPrefix _ hBefore hStop => ?_, fun _ => rfl⟩
      obtain ⟨f', rest', rfl, -⟩ := hStop
      obtain ⟨rfl, -⟩ := List.cons_prefix_cons.mp hPrefix
      rw [hBefore f' (List.mem_cons_self ..)] at hf
      cases hf
    · have hOther : ∀ x ∈ rest, g.untried ended oldTargets x = true → decide (x ≠ f) = true := by
        intro x _ hx
        refine decide_eq_true ?_
        rintro rfl
        exact hf hx
      rw [List.find?_cons_of_neg hf, List.find?_cons_of_neg hf, find?_takeWhile_iff hOther]
      -- otherwise the loop stops where the first coroutine comes again
      constructor
      · intro h before m hPrefix hm hBefore hStop
        obtain ⟨f', before, rfl, hMem⟩ := hStop
        obtain ⟨rfl, hMore⟩ := List.cons_prefix_cons.mp hPrefix
        have := h before m hMore hm (fun x hx => hBefore x (List.mem_cons_of_mem _ hx)) f' hMem
        simp at this
      · intro h before m hPrefix hm hBefore x hx
        refine decide_eq_true ?_
        rintro rfl
        exact h (x :: before) m (List.cons_prefix_cons.mpr ⟨rfl, hPrefix⟩) hm
          (List.forall_mem_cons.mpr ⟨by simpa using hf, hBefore⟩) ⟨x, before, rfl, hx⟩

/-- The search among the entries that the loop looks at, against the search among all: they
agree if and only if the loop does not stop before the first hit. -/
theorem find?_looked_iff (curr : Current α) :
    ((g.looked curr).find? (g.untried ended oldTargets)) =
        g.firstRunning ended curr oldTargets ↔
      ∀ before m, before ++ [m] <+: g.circular curr →
        g.eligible ended oldTargets curr m = true →
        (∀ x ∈ before, g.eligible ended oldTargets curr x = false) → ¬ Stops before curr := by
  cases curr with
  | none => exact find?_looked_none
  | main => exact find?_looked_none
  -- the current coroutine is never the hit, so the search may leave it out
  | member c =>
    have hLook : ((g.looked (.member c)).find? (g.untried ended oldTargets)) =
        ((g.circular (.member c)).takeWhile (· ≠ c)).find?
          (g.eligible ended oldTargets (.member c)) := by
      refine find?_congr fun m hm => ?_
      have hOther : m ≠ c := by simpa using List.mem_takeWhile_imp hm
      simp [eligible, hOther]
    have hOther : ∀ m ∈ g.circular (.member c),
        g.eligible ended oldTargets (.member c) m = true → decide (m ≠ c) = true := by
      intro m _ hm
      rw [eligible, Bool.and_eq_true] at hm
      exact hm.1
    rw [hLook, firstRunning, find?_takeWhile_iff hOther]
    refine forall_congr' fun before => forall_congr' fun m => ?_
    have hStops : (∀ x ∈ before, decide (x ≠ c) = true) ↔ ¬ Stops before (.member c) := by
      simp only [decide_eq_true_eq]
      exact ⟨fun h hMem => h c hMem rfl, fun h x hx hEq => h (hEq ▸ hx)⟩
    rw [hStops]

theorem firstRunning_ne_none {curr : Current α} {before : List α} {m : α}
    (hPrefix : before ++ [m] <+: g.circular curr)
    (hm : g.eligible ended oldTargets curr m = true) :
    g.firstRunning ended curr oldTargets ≠ none := fun h =>
  List.find?_eq_none.mp h m (hPrefix.subset (by simp)) hm

/-- The loop for a group in its lists. What can disturb it is the dictionary, which says
that all have ended, and the early stop. -/
theorem Lists.finds_iff {cs : List α} (h : g.Lists cs) (curr : Current α)
    (hCurr : ∀ c, curr = .member c → c ∈ cs) (fuel : Nat) (hFuel : cs.length + 1 < fuel) :
    g.getNextRunning fuel ended curr oldTargets =
        some (.ok (g.firstRunning ended curr oldTargets)) ↔
      g.Undisturbed ended curr oldTargets := by
  rw [getNextRunning_eq h fuel hFuel ended curr hCurr, Option.some.injEq, Except.ok.injEq]
  -- a group that is not empty in the dictionary: only the stop is left
  cases hEnded : g.allEnded ended with
  | false =>
    rw [if_neg Bool.false_ne_true, find?_looked_iff]
    simp [Undisturbed, hEnded]
  -- the loop answers that all have ended: right only if nobody can run
  | true =>
    rw [if_pos rfl]
    constructor
    · intro h before m hPrefix hm
      exact absurd h.symm (firstRunning_ne_none hPrefix hm)
    · intro h
      cases hFirst : g.firstRunning ended curr oldTargets with
      | none => rfl
      | some m =>
        obtain ⟨hm, before, behind, hCircular, hBefore⟩ := List.find?_eq_some_iff_append.mp hFirst
        have hPrefix : before ++ [m] <+: g.circular curr := ⟨behind, by rw [hCircular]; simp⟩
        have := (h before m hPrefix hm fun x hx => by simpa using hBefore x hx).1
        rw [hEnded] at this
        cases this

end

/-- **Round robin.** The loop comes to an end, and finds the first running coroutine in
circular order, if and only if the group is `Undisturbed`: the dictionary and the early stop
do not hide it. The fuel is one round and two more steps. -/
theorem getNextRunning_iff (desc : α → Option String) (cs : List α) (ended : α → Bool)
    (curr : Current α) (hCurr : ∀ c, curr = .member c → c ∈ cs) (oldTargets : List String)
    (fuel : Nat) (hFuel : cs.length + 1 < fuel) :
    (of desc cs).getNextRunning fuel ended curr oldTargets =
        some (.ok ((of desc cs).firstRunning ended curr oldTargets)) ↔
      (of desc cs).Undisturbed ended curr oldTargets :=
  (lists_of desc cs).finds_iff curr hCurr fuel hFuel

/-- Two coroutines, the second of which is the current one: the first one has been tried,
and nothing is found. -/
theorem getNextRunning_two :
    (of some ["a", "b"]).getNextRunning 5 (fun _ => false) (.member "b") ["a"] =
        some (.ok ((of some ["a", "b"]).firstRunning (fun _ => false) (.member "b") ["a"])) ↔
      (of some ["a", "b"]).Undisturbed (fun _ => false) (.member "b") ["a"] :=
  getNextRunning_iff some ["a", "b"] (fun _ => false) (.member "b")
    (fun c h => by cases h; decide) ["a"] 5 (by decide)

/-- A coroutine that has been added twice, and has ended, hides the one behind it: the
comment in the code takes this for the end of all threads. -/
theorem getNextRunning_added_twice :
    (of some ["a", "a", "b"]).getNextRunning 5 (· == "a") .none [] = some (.ok none) ∧
      (of some ["a", "a", "b"]).firstRunning (· == "a") .none [] = some "b" := by
  decide

/-- The current coroutine comes last in the circular order. -/
theorem circular_member {g : CoroutineGroup α} {c : α} (hc : c ∈ g.memberlist) :
    ∃ others, g.circular (.member c) = others ++ [c] := by
  have hi : g.memberlist.idxOf c < g.memberlist.length := List.idxOf_lt_length_iff.mpr hc
  have hHead : (g.memberlist.rotate (g.memberlist.idxOf c)).head? = some c := by
    rw [List.head?_rotate hi, List.getElem?_eq_getElem hi, List.getElem_idxOf]
  cases hRotate : g.memberlist.rotate (g.memberlist.idxOf c) with
  | nil =>
    rw [hRotate] at hHead
    cases hHead
  | cons m others =>
    rw [hRotate] at hHead
    obtain rfl := Option.some.inj hHead
    exact ⟨others, rotate_cons hRotate⟩

theorem perm_circular (g : CoroutineGroup α) (curr : Current α) :
    (g.circular curr).Perm g.memberlist := by
  cases curr with
  | none => exact .refl _
  | main => exact .refl _
  | member c => exact List.rotate_perm _ _

/-- Nothing disturbs a group in which every coroutine has been added once, and no two have
the same `desc`: the dictionary has all of them, and the stop is at the end. -/
theorem undisturbed_of_nodup {g : CoroutineGroup α} {cs : List α} (hLists : g.Lists cs)
    (hNodup : cs.Nodup) (hDesc : ∀ a ∈ cs, ∀ b ∈ cs, g.desc a = g.desc b → a = b)
    (ended : α → Bool) (curr : Current α) (hCurr : ∀ c, curr = .member c → c ∈ cs)
    (oldTargets : List String) : g.Undisturbed ended curr oldTargets := by
  intro before m hPrefix hm _
  have hCircular : (g.circular curr).Nodup :=
    (g.perm_circular curr).nodup_iff.mpr (hLists.memberlist ▸ hNodup)
  -- the hit has not ended
  have hRuns : ended m = false := by
    have hUntried : g.untried ended oldTargets m = true := by
      cases curr with
      | none => exact hm
      | main => exact hm
      | member c => exact (Bool.and_eq_true _ _ ▸ hm).2
    simp only [untried, skips, Bool.not_or, Bool.and_eq_true, Bool.not_eq_true'] at hUntried
    exact hUntried.2
  constructor
  · -- the dictionary has the coroutine itself
    have hMem : m ∈ cs := hLists.memberlist ▸
      (g.perm_circular curr).mem_iff.mp (hPrefix.subset (by simp))
    obtain ⟨d, c, hd, hItem⟩ := hLists.listed m hMem
    obtain ⟨hc, hcMem⟩ := hLists.known d c hItem
    obtain rfl := hDesc m hMem c hcMem (hd.trans hc.symm)
    rw [allEnded, List.all_eq_false]
    exact ⟨_, hItem, by simp [hRuns]⟩
  -- the stop is behind the hit, since it is the last entry
  · obtain ⟨behind, hBehind⟩ := hPrefix
    rw [← hBehind, List.append_assoc] at hCircular
    cases curr with
    | none =>
      rintro ⟨f, rest, rfl, hf⟩
      exact (List.nodup_cons.mp (List.nodup_append.mp hCircular).1).1 hf
    | main =>
      rintro ⟨f, rest, rfl, hf⟩
      exact (List.nodup_cons.mp (List.nodup_append.mp hCircular).1).1 hf
    | member c =>
      intro hStop
      obtain ⟨others, hOthers⟩ := circular_member (hLists.memberlist ▸ hCurr c rfl)
      have hLast : ([m] ++ behind).getLast? = some c := by
        have := congrArg List.getLast? (hBehind.trans hOthers)
        rw [List.append_assoc, List.getLast?_append_of_ne_nil _ (by simp),
          List.getLast?_concat] at this
        exact this
      exact (List.nodup_append.mp hCircular).2.2 c hStop c (List.mem_of_getLast? hLast) rfl

end CoroutineGroup

-- ---------------------------------------------------------------------------
-- The groups of a scenario
-- ---------------------------------------------------------------------------

/-- Coroutines that are known by their `desc`. -/
abbrev Group.coroutines (g : Group) : CoroutineGroup String := .of some g.memberlist

def Party.toCurrent : Party → Current String
  | .main => .main
  | .member desc => .member desc

/-- A scenario's coroutines are named by themselves. -/
theorem of_some_desc (cs : List String) : (CoroutineGroup.of some cs).desc = some := by
  have hFold : ∀ (cs : List String) (g : CoroutineGroup String), g.desc = some →
      (cs.foldl CoroutineGroup.add g).desc = some := by
    intro cs
    induction cs with
    | nil => exact fun g h => h
    | cons c cs ih =>
      intro g h
      refine ih (g.add c) ?_
      simp only [CoroutineGroup.add, CoroutineGroup.named, h]
  exact hFold cs _ rfl

/-- The group's own test of the end, over its dictionary. -/
theorem Group.allEnded_eq (g : Group) :
    g.allEnded = g.coroutines.allEnded fun desc => (g.members desc).ended := by
  have hLists := CoroutineGroup.lists_of some g.memberlist
  rw [Bool.eq_iff_iff, Group.allEnded, CoroutineGroup.allEnded, List.all_eq_true,
    List.all_eq_true]
  constructor
  · rintro h ⟨d, c⟩ hItem
    exact h c (hLists.known d c hItem).2
  · intro h m hm
    obtain ⟨d, c, hd, hItem⟩ := hLists.listed m hm
    have hc := (hLists.known d c hItem).1
    rw [of_some_desc] at hd hc
    obtain rfl := Option.some.inj (hd.trans hc.symm)
    exact h (d, m) hItem

/-- The loop of the scenario's group, written over its own fields. -/
theorem Group.scan_eq (g : Group) (oldTargets : List String) (fuel i : Nat)
    (curr : Option String) :
    g.scan oldTargets fuel i curr =
      g.coroutines.scan (fun desc => (g.members desc).ended) oldTargets fuel i curr := by
  induction fuel generalizing i curr with
  | zero => rfl
  | succ fuel ih =>
    have hList : g.coroutines.memberlist = g.memberlist :=
      (CoroutineGroup.lists_of some g.memberlist).memberlist
    rw [Group.scan, CoroutineGroup.scan, hList]
    cases g.memberlist[i]? with
    | none => rfl
    | some m =>
      simp only [CoroutineGroup.skips, CoroutineGroup.next, of_some_desc, hList, ih]

/-- The scenario's own round robin is the one of its coroutines. -/
theorem Group.getNextRunning_eq (g : Group) (curr : Party) (oldTargets : List String) :
    g.getNextRunning curr oldTargets =
      (g.coroutines.getNextRunning (2 * g.memberlist.length + 2)
        (fun desc => (g.members desc).ended) curr.toCurrent oldTargets).getD (.error .error) := by
  have hList : g.coroutines.memberlist = g.memberlist :=
    (CoroutineGroup.lists_of some g.memberlist).memberlist
  simp only [Group.getNextRunning, CoroutineGroup.getNextRunning, ← g.allEnded_eq]
  split
  · rfl
  · cases curr with
    | main => simp only [Party.toCurrent, g.scan_eq]
    | member desc =>
      simp only [Party.toCurrent, hList, g.scan_eq, CoroutineGroup.next]
      cases g.memberlist.idxOf? desc with
      | none => rfl
      | some j => rfl

/-- A scenario that adds no coroutine twice goes round them in circular order. This is what
the search by scenarios relies on. -/
theorem Group.getNextRunning_of_nodup (g : Group) (hNodup : g.memberlist.Nodup) (curr : Party)
    (hCurr : ∀ desc, curr = .member desc → desc ∈ g.memberlist) (oldTargets : List String) :
    g.getNextRunning curr oldTargets = .ok (g.coroutines.firstRunning
      (fun desc => (g.members desc).ended) curr.toCurrent oldTargets) := by
  have hLists := CoroutineGroup.lists_of some g.memberlist
  have hMember : ∀ c, curr.toCurrent = .member c → c ∈ g.memberlist := by
    intro c h
    cases curr with
    | main => cases h
    | member desc =>
      cases h
      exact hCurr _ rfl
  have hUndisturbed := CoroutineGroup.undisturbed_of_nodup hLists hNodup
    (fun a _ b _ h => by
      rw [of_some_desc] at h
      exact Option.some.inj h)
    (fun desc => (g.members desc).ended) curr.toCurrent hMember oldTargets
  rw [g.getNextRunning_eq, (hLists.finds_iff curr.toCurrent hMember _ (by omega)).mpr hUndisturbed]
  rfl

end Counit

end Concurrit.Model
