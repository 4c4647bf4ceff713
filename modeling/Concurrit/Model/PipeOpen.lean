import Mathlib.Algebra.BigOperators.Group.List.Basic
import Mathlib.Algebra.Order.BigOperators.Group.List
import Mathlib.Algebra.Order.Ring.Nat
import Mathlib.Logic.Function.Basic
import Concurrit.Lib.Runs

/-!
# Concurrit — opening the pipes

The DSL opens its pipes one after another, and the program and the controller at the other ends
open theirs. `open` of a named pipe does not return before the other side has called `open` on it
too, so what comes first at one end has to be answered by what comes first at the other.

* `next`           — a step of one end of one pipe: a call of `stat`, `mkfifo` or `open`.
* `all_open_iff`   — whatever the order of the steps, all ends come to be open, if and only if no
  pipe is opened for reading first, or for writing first, at both ends.
-/

namespace Concurrit.Model

open Function (update)

namespace PipeOpen

-- ---------------------------------------------------------------------------
-- Names and calls
-- ---------------------------------------------------------------------------

inductive Direction where
  | fifo_in
  | fifo_out
deriving DecidableEq

/-- The name of a named pipe, `PIPEDIR "/fifo_in_%d"` or `PIPEDIR "/fifo_out_%d"`. -/
structure Fifo where
  direction : Direction
  id : Nat
deriving DecidableEq

structure PipeNamePair where
  in_name : Fifo
  out_name : Fifo

def PipeNamesForSUT (id : Nat) : PipeNamePair := ⟨⟨.fifo_in, id⟩, ⟨.fifo_out, id⟩⟩

def PipeNamesForDSL (id : Nat) : PipeNamePair :=
  let pair := PipeNamesForSUT id
  ⟨pair.out_name, pair.in_name⟩

inductive Access where
  | O_RDONLY
  | O_WRONLY
deriving DecidableEq

def Access.other : Access → Access
  | O_RDONLY => O_WRONLY
  | O_WRONLY => O_RDONLY

/-- A call of `open`. -/
structure Call where
  name : Fifo
  access : Access
deriving DecidableEq

/-- The call that a call waits for. -/
def Call.partner (call : Call) : Call := ⟨call.name, call.access.other⟩

/-- The calls of `EventPipe::Open`. -/
def Open (names : PipeNamePair) (open_for_read_first : Bool) : List Call :=
  if open_for_read_first then [⟨names.in_name, .O_RDONLY⟩, ⟨names.out_name, .O_WRONLY⟩]
  else [⟨names.out_name, .O_WRONLY⟩, ⟨names.in_name, .O_RDONLY⟩]

inductive Side where
  | DSL
  | SUT
deriving DecidableEq

def Side.other : Side → Side
  | DSL => SUT
  | SUT => DSL

def Side.names : Side → Nat → PipeNamePair
  | DSL, id => PipeNamesForDSL id
  | SUT, id => PipeNamesForSUT id

/-- The pipes that the DSL opens, in this order, and what is passed to `Open` at each end. -/
structure Config where
  ids : List Nat
  open_for_read_first : Side → Nat → Bool

/-- `OpenForDSL`, `OpenForSUT`, `OpenControlForDSL` and `OpenControlForSUT`. -/
def Config.code : Config where
  ids := [0, 1]
  open_for_read_first
    | .DSL, _ => true
    | .SUT, _ => false

variable (c : Config)

def Config.opens (side : Side) (id : Nat) : List Call :=
  Open (side.names id) (c.open_for_read_first side id)

-- ---------------------------------------------------------------------------
-- The system
-- ---------------------------------------------------------------------------

/-- Where one end of a pipe is. -/
inductive Place where
  /-- in `Init`: `MkFifo` is to be called for these names -/
  | making (left : List Fifo)
  /-- in `MkFifo`: `stat` has not found the file, `mkfifo` is next -/
  | creating (name : Fifo) (left : List Fifo)
  /-- in `Open`, with these calls behind and before it -/
  | opening (done left : List Call)
  /-- in the call -/
  | waiting (done : List Call) (call : Call) (left : List Call)

namespace Place

/-- The calls that have been entered. -/
def entered : Place → List Call
  | .opening done _ => done
  | .waiting done call _ => done ++ [call]
  | _ => []

/-- The calls that have returned. -/
def done : Place → List Call
  | .opening done _ => done
  | .waiting done _ _ => done
  | _ => []

def isOpen : Place → Bool
  | .opening _ [] => true
  | _ => false

end Place

structure State where
  files : Fifo → Bool
  place : Side → Nat → Place
  /-- an `open` has returned -1 -/
  failed : Bool

namespace State

variable (s : State)

def goto (side : Side) (id : Nat) (place : Place) : State :=
  { s with place := update s.place side (update (s.place side) id place) }

/-- Some process has entered the call. -/
def entered (call : Call) : Bool :=
  [Side.DSL, Side.SUT].any fun side => c.ids.any fun id => (s.place side id).entered.contains call

/-- The DSL opens one pipe after another. -/
def hasTurn (side : Side) (id : Nat) : Bool :=
  match side with
  | .DSL => (c.ids.takeWhile fun x => x != id).all fun x => (s.place .DSL x).isOpen
  | .SUT => true

/-- The next step at one end of a pipe. -/
def step (side : Side) (id : Nat) : Option State :=
  match s.place side id with
  | .making [] => some (s.goto side id (.opening [] (c.opens side id)))
  | .making (name :: left) =>
    if s.files name then some (s.goto side id (.making left))
    else some (s.goto side id (.creating name left))
  -- another process may have made it in the meantime, which is as good
  | .creating name left =>
    some { s.goto side id (.making left) with files := update s.files name true }
  | .opening _ [] => none
  | .opening done (call :: left) =>
    if s.files call.name then some (s.goto side id (.waiting done call left))
    else some { s with failed := true }
  | .waiting done call left =>
    if s.entered c call.partner then some (s.goto side id (.opening (done ++ [call]) left))
    else none

def next (side : Side) (id : Nat) : Option State :=
  if s.failed = false ∧ id ∈ c.ids ∧ s.hasTurn c side id then s.step c side id else none

end State

/-- The names for which `Init` calls `MkFifo`. -/
def Side.fifos (side : Side) (id : Nat) : List Fifo :=
  [(side.names id).in_name, (side.names id).out_name]

/-- No end is open; some files may be there already. -/
def Initial (s : State) : Prop :=
  s.failed = false ∧ ∀ side id, s.place side id = .making (side.fifos id)

def system : Runs.System State (Side × Nat) where
  init := Initial
  step s i s' := s.next c i.1 i.2 = some s'

/-- All ends are open. -/
def AllOpen (s : State) : Prop :=
  s.failed = false ∧ ∀ side, ∀ id ∈ c.ids, (s.place side id).isOpen = true

-- ---------------------------------------------------------------------------
-- Steps
-- ---------------------------------------------------------------------------

variable {c : Config} {s s' : State} {side side' : Side} {id id' : Nat} {call : Call}

/-- The steps at one end, one constructor a case. -/
inductive Stepped (c : Config) (s : State) (side : Side) (id : Nat) : State → Prop where
  | made (hPlace : s.place side id = .making []) :
      Stepped c s side id (s.goto side id (.opening [] (c.opens side id)))
  | found {name left} (hPlace : s.place side id = .making (name :: left))
      (hFile : s.files name = true) : Stepped c s side id (s.goto side id (.making left))
  | missing {name left} (hPlace : s.place side id = .making (name :: left)) :
      Stepped c s side id (s.goto side id (.creating name left))
  | create {name left} (hPlace : s.place side id = .creating name left) :
      Stepped c s side id
        { s.goto side id (.making left) with files := update s.files name true }
  | enter {done call left} (hPlace : s.place side id = .opening done (call :: left)) :
      Stepped c s side id (s.goto side id (.waiting done call left))
  | fail {done call left} (hPlace : s.place side id = .opening done (call :: left))
      (hFile : s.files call.name = false) : Stepped c s side id { s with failed := true }
  | «return» {done call left} (hPlace : s.place side id = .waiting done call left)
      (hPartner : s.entered c call.partner = true) :
      Stepped c s side id (s.goto side id (.opening (done ++ [call]) left))

/-- The steps of a thread that opens a pipe. -/
theorem step_cases (h : s.step c side id = some s') : Stepped c s side id s' := by
  simp only [State.step] at h
  split at h
  · rename_i hPlace
    obtain rfl := Option.some.inj h
    exact .made hPlace
  · rename_i name left hPlace
    split at h
    · rename_i hFile
      obtain rfl := Option.some.inj h
      exact .found hPlace hFile
    · obtain rfl := Option.some.inj h
      exact .missing hPlace
  · rename_i name left hPlace
    obtain rfl := Option.some.inj h
    exact .create hPlace
  · cases h
  · rename_i done call left hPlace
    split at h
    · obtain rfl := Option.some.inj h
      exact .enter hPlace
    · rename_i hFile
      obtain rfl := Option.some.inj h
      exact .fail hPlace (Bool.not_eq_true _ ▸ hFile)
  · rename_i done call left hPlace
    split at h
    · rename_i hPartner
      obtain rfl := Option.some.inj h
      exact .return hPlace hPartner
    · cases h

theorem next_cases (h : s.next c side id = some s') :
    s.failed = false ∧ id ∈ c.ids ∧ Stepped c s side id s' := by
  simp only [State.next, Option.ite_none_right_eq_some] at h
  exact ⟨h.1.1, h.1.2.1, step_cases h.2⟩

@[simp] theorem goto_place_self (s : State) (side : Side) (id : Nat) (place : Place) :
    (s.goto side id place).place side id = place := by
  simp [State.goto]

theorem goto_place_other (s : State) {side side' : Side} {id id' : Nat} (place : Place)
    (h : ¬ (side' = side ∧ id' = id)) : (s.goto side id place).place side' id' = s.place side' id' := by
  by_cases hSide : side' = side
  · subst hSide
    have hId : id' ≠ id := fun hSame => h ⟨rfl, hSame⟩
    simp [State.goto, hId]
  · simp [State.goto, hSide]

/-- The other ends stay where they are. -/
theorem Stepped.place_other (h : Stepped c s side id s') (hOther : ¬ (side' = side ∧ id' = id)) :
    s'.place side' id' = s.place side' id' := by
  cases h with
  | fail => rfl
  | made | found | missing | create | enter | «return» => exact goto_place_other s _ hOther

/-- Files are not removed. -/
theorem Stepped.files (h : Stepped c s side id s') {name : Fifo} (hFile : s.files name = true) :
    s'.files name = true := by
  cases h with
  | @create made =>
    by_cases hName : name = made
    · subst hName
      exact Function.update_self ..
    · exact (Function.update_of_ne hName ..).trans hFile
  | fail | made | found | missing | enter | «return» => exact hFile

-- ---------------------------------------------------------------------------
-- Where the ends are
-- ---------------------------------------------------------------------------

/-- What holds of an end at its place. -/
def Place.Sound (c : Config) (files : Fifo → Bool) (side : Side) (id : Nat) : Place → Prop
  | .making left => ∀ name ∈ side.fifos id, name ∈ left ∨ files name = true
  | .creating name left => ∀ name' ∈ side.fifos id, name' ∈ name :: left ∨ files name' = true
  | .opening done left => done ++ left = c.opens side id ∧ ∀ name ∈ side.fifos id, files name = true
  | .waiting done call left =>
    done ++ call :: left = c.opens side id ∧ ∀ name ∈ side.fifos id, files name = true

structure Inv (c : Config) (s : State) : Prop where
  alive : s.failed = false
  sound : ∀ side id, (s.place side id).Sound c s.files side id

theorem Place.Sound.mono {place : Place} {files files' : Fifo → Bool}
    (h : place.Sound c files side id) (hFiles : ∀ name, files name = true → files' name = true) :
    place.Sound c files' side id := by
  cases place with
  | making | creating => exact fun name hName => (h name hName).imp_right (hFiles name)
  | opening | waiting => exact ⟨h.1, fun name hName => hFiles name (h.2 name hName)⟩

/-- What is opened has been made. -/
theorem name_of_mem_opens (h : call ∈ c.opens side id) : call.name ∈ side.fifos id := by
  simp only [Config.opens, Open] at h
  split at h <;> simp only [List.mem_cons, List.not_mem_nil, or_false] at h <;>
    rcases h with rfl | rfl <;> simp [Side.fifos]

/-- **Step lemma**. -/
theorem Stepped.inv (h : Stepped c s side id s') (hInv : Inv c s) : Inv c s' := by
  have hHere := hInv.sound side id
  have hSound : (s'.place side id).Sound c s'.files side id := by
    cases h with
    | made hPlace =>
      rw [hPlace] at hHere
      rw [goto_place_self]
      exact ⟨rfl, fun name hName => (hHere name hName).resolve_left (List.not_mem_nil)⟩
    | @found name left hPlace hFile =>
      rw [hPlace] at hHere
      rw [goto_place_self]
      intro name' hName
      rcases hHere name' hName with hLeft | hThere
      · rcases List.mem_cons.mp hLeft with rfl | hLeft
        · exact .inr hFile
        · exact .inl hLeft
      · exact .inr hThere
    | missing hPlace =>
      rw [hPlace] at hHere
      rw [goto_place_self]
      exact hHere
    | @create name left hPlace =>
      rw [hPlace] at hHere
      show ((s.goto side id (.making left)).place side id).Sound c _ side id
      rw [goto_place_self]
      intro name' hName
      by_cases hSame : name' = name
      · subst hSame
        exact .inr (Function.update_self ..)
      · rcases hHere name' hName with hLeft | hThere
        · exact .inl (List.mem_of_ne_of_mem hSame hLeft)
        · exact .inr ((Function.update_of_ne hSame ..).trans hThere)
    | enter hPlace =>
      rw [hPlace] at hHere
      rw [goto_place_self]
      exact hHere
    | fail => exact hHere
    | «return» hPlace =>
      rw [hPlace] at hHere
      rw [goto_place_self]
      exact ⟨by rw [← hHere.1, List.append_assoc]; rfl, hHere.2⟩
  refine ⟨?_, fun side' id' => ?_⟩
  · cases h with
    | @fail done call left hPlace hFile =>
      -- the files are made before they are opened
      rw [hPlace] at hHere
      have hMem : call ∈ c.opens side id := hHere.1 ▸ by simp
      rw [hHere.2 _ (name_of_mem_opens hMem)] at hFile
      cases hFile
    | made | found | missing | create | enter | «return» => exact hInv.alive
  · by_cases hOther : side' = side ∧ id' = id
    · obtain ⟨rfl, rfl⟩ := hOther
      exact hSound
    · rw [h.place_other hOther]
      exact (hInv.sound side' id').mono fun _ => h.files

theorem Initial.inv (h : Initial s) : Inv c s where
  alive := h.1
  sound side id := by
    rw [h.2 side id]
    exact fun _ hName => .inl hName

-- ---------------------------------------------------------------------------
-- What waits for what
-- ---------------------------------------------------------------------------

/-- What is opened first at an end. -/
def Config.first (c : Config) (side : Side) (id : Nat) : Call :=
  if c.open_for_read_first side id then ⟨(side.names id).in_name, .O_RDONLY⟩
  else ⟨(side.names id).out_name, .O_WRONLY⟩

def Config.second (c : Config) (side : Side) (id : Nat) : Call :=
  if c.open_for_read_first side id then ⟨(side.names id).out_name, .O_WRONLY⟩
  else ⟨(side.names id).in_name, .O_RDONLY⟩

theorem opens_eq (c : Config) (side : Side) (id : Nat) :
    c.opens side id = [c.first side id, c.second side id] := by
  simp only [Config.opens, Open, Config.first, Config.second]
  cases c.open_for_read_first side id <;> rfl

/-- The two ends open a pipe in opposite orders. -/
def Opposite (c : Config) (id : Nat) : Prop :=
  c.open_for_read_first .DSL id ≠ c.open_for_read_first .SUT id

theorem Opposite.partner (h : Opposite c id) (side : Side) :
    (c.first side id).partner = c.first side.other id ∧
      (c.second side id).partner = c.second side.other id := by
  cases hDSL : c.open_for_read_first .DSL id <;> cases hSUT : c.open_for_read_first .SUT id <;>
    cases side <;> simp_all [Opposite, Config.first, Config.second, Side.other, Call.partner,
      Access.other, Side.names, PipeNamesForDSL, PipeNamesForSUT]

theorem partner_of_alike (h : ¬ Opposite c id) (side : Side) :
    (c.first side id).partner = c.second side.other id := by
  cases hDSL : c.open_for_read_first .DSL id <;> cases hSUT : c.open_for_read_first .SUT id <;>
    cases side <;> simp_all [Opposite, Config.first, Config.second, Side.other, Call.partner,
      Access.other, Side.names, PipeNamesForDSL, PipeNamesForSUT]

/-- A thread that waits is in the first or in the second of its two calls. -/
theorem Place.Sound.waiting_cases {files : Fifo → Bool} {done left : List Call}
    (h : (Place.waiting done call left).Sound c files side id) :
    (done = [] ∧ call = c.first side id) ∨ (done = [c.first side id] ∧ call = c.second side id) := by
  have hCalls := h.1
  rw [opens_eq] at hCalls
  rcases done with _ | ⟨d, _ | ⟨d', more⟩⟩
  · exact .inl ⟨rfl, (List.cons.inj hCalls).1⟩
  · obtain ⟨rfl, hRest⟩ := List.cons.inj hCalls
    exact .inr ⟨rfl, (List.cons.inj hRest).1⟩
  · have hLen := congrArg List.length hCalls
    simp only [List.length_append, List.length_cons, List.length_nil] at hLen
    omega

/-- An end that is open has entered both its calls. -/
theorem Place.Sound.entered_of_isOpen {files : Fifo → Bool} {place : Place}
    (h : place.Sound c files side id) (hOpen : place.isOpen = true) :
    place.entered = [c.first side id, c.second side id] := by
  cases place with
  | making | creating | waiting => cases hOpen
  | opening done left =>
    cases left with
    | cons => cases hOpen
    | nil => rw [← opens_eq, ← h.1, List.append_nil]; rfl

theorem entered_of_mem (hId : id ∈ c.ids) (h : call ∈ (s.place side id).entered) :
    s.entered c call = true := by
  refine List.any_eq_true.mpr ⟨side, by cases side <;> simp, ?_⟩
  exact List.any_eq_true.mpr ⟨id, hId, by simpa using h⟩

/-- An end that has no step is open, or waits for a call that nobody has entered. -/
theorem blocked_cases (h : s.step c side id = none) : (s.place side id).isOpen = true ∨
    ∃ done call left, s.place side id = .waiting done call left ∧
      s.entered c call.partner = false := by
  simp only [State.step] at h
  split at h
  · cases h
  · split at h <;> cases h
  · cases h
  · rename_i done hPlace
    exact .inl (by rw [hPlace]; rfl)
  · split at h <;> cases h
  · rename_i done call left hPlace
    split at h
    · cases h
    · rename_i hPartner
      exact .inr ⟨done, call, left, hPlace, Bool.not_eq_true _ ▸ hPartner⟩

/-- Of the two ends of a pipe one can go on, unless both are open. -/
theorem Inv.pair_open (hInv : Inv c s) (hId : id ∈ c.ids) (hOpposite : Opposite c id)
    (h : s.step c side id = none) (hOther : s.step c side.other id = none) :
    (s.place side id).isOpen = true := by
  rcases blocked_cases h with hOpen | ⟨done, call, left, hPlace, hNobody⟩
  · exact hOpen
  obtain ⟨hFirst, hSecond⟩ := hOpposite.partner side
  -- the partner of the call has been entered at the other end
  have hAbsurd : call.partner ∉ (s.place side.other id).entered := by
    intro hMem
    rw [entered_of_mem hId hMem] at hNobody
    cases hNobody
  have hHere := hInv.sound side id
  rw [hPlace] at hHere
  rcases blocked_cases hOther with hOpen | ⟨done', call', left', hPlace', hNobody'⟩
  · rw [(hInv.sound side.other id).entered_of_isOpen hOpen] at hAbsurd
    rcases hHere.waiting_cases with ⟨-, rfl⟩ | ⟨-, rfl⟩
    · simp [hFirst] at hAbsurd
    · simp [hSecond] at hAbsurd
  · have hThere := hInv.sound side.other id
    rw [hPlace'] at hThere hAbsurd
    rcases hHere.waiting_cases with ⟨rfl, rfl⟩ | ⟨rfl, rfl⟩ <;>
      rcases hThere.waiting_cases with ⟨rfl, rfl⟩ | ⟨rfl, rfl⟩
    · simp [Place.entered, hFirst] at hAbsurd
    · simp [Place.entered, hFirst] at hAbsurd
    · -- the other end is at its first call, and this one has entered the partner
      have hBack : (c.first side.other id).partner = c.first side id := by
        rw [(hOpposite.partner side.other).1]
        cases side <;> rfl
      have hMem : (c.first side.other id).partner ∈ (s.place side id).entered := by
        rw [hPlace, hBack]
        simp [Place.entered]
      rw [entered_of_mem hId hMem] at hNobody'
      cases hNobody'
    · simp [Place.entered, hSecond] at hAbsurd

-- ---------------------------------------------------------------------------
-- All ends come to be open
-- ---------------------------------------------------------------------------

/-- The pipes before a given one. -/
theorem mem_before {before after : List Nat} {x : Nat}
    (h : x ∈ (before ++ id :: after).takeWhile fun y => y != id) : x ∈ before := by
  induction before with
  | nil => simp at h
  | cons y before ih =>
    rw [List.cons_append, List.takeWhile_cons] at h
    split at h
    · exact (List.mem_cons.mp h).elim (fun hSame => hSame ▸ List.mem_cons_self)
        fun hRest => List.mem_cons_of_mem _ (ih hRest)
    · cases h

/-- As long as an end is not open, there is a step. -/
theorem Inv.goes (hInv : Inv c s) (hOpposite : ∀ id ∈ c.ids, Opposite c id)
    (hOpen : ¬ AllOpen c s) : ∃ i : Side × Nat, ∃ s', s.next c i.1 i.2 = some s' := by
  by_contra hNone
  have hBlocked : ∀ side, ∀ id ∈ c.ids, s.hasTurn c side id = true → s.step c side id = none := by
    intro side id hId hTurn
    cases hStep : s.step c side id with
    | none => rfl
    | some s' =>
      refine absurd ⟨(side, id), s', ?_⟩ hNone
      rw [State.next, if_pos ⟨hInv.alive, hId, hTurn⟩, hStep]
  have hSUT : ∀ id ∈ c.ids, s.step c .SUT id = none := fun id hId => hBlocked .SUT id hId rfl
  have hDSL : ∀ id ∈ c.ids, (s.place .DSL id).isOpen = true := by
    cases hFind : c.ids.find? fun id => !(s.place .DSL id).isOpen with
    | none =>
      intro id hId
      simpa using List.find?_eq_none.mp hFind id hId
    | some id =>
      -- the first one that is not open has its turn
      obtain ⟨hClosed, before, after, hIds, hBefore⟩ := List.find?_eq_some_iff_append.mp hFind
      have hId : id ∈ c.ids := hIds ▸ by simp
      have hTurn : s.hasTurn c .DSL id = true := by
        refine List.all_eq_true.mpr fun x hx => ?_
        rw [hIds] at hx
        simpa using hBefore x (mem_before hx)
      have hHere := hInv.pair_open hId (hOpposite id hId) (hBlocked .DSL id hId hTurn) (hSUT id hId)
      rw [hHere] at hClosed
      cases hClosed
  refine hOpen ⟨hInv.alive, fun side id hId => ?_⟩
  cases side with
  | DSL => exact hDSL id hId
  | SUT =>
    refine hInv.pair_open hId (hOpposite id hId) (hSUT id hId) ?_
    have hPlace := hDSL id hId
    simp only [Side.other, State.step]
    split <;> simp_all [Place.isOpen]

/-- How many steps an end has before it, at most. -/
def Place.left : Place → Nat
  | .making names => 2 * names.length + 5
  | .creating _ names => 2 * names.length + 6
  | .opening _ calls => 2 * calls.length
  | .waiting _ _ calls => 2 * calls.length + 1

def State.left (c : Config) (s : State) : Nat :=
  (c.ids.map fun id => (s.place .DSL id).left + (s.place .SUT id).left).sum

/-- Every step of a thread leaves it fewer steps. -/
theorem Stepped.left_lt (h : Stepped c s side id s') (hAlive : s'.failed = false) :
    (s'.place side id).left < (s.place side id).left := by
  cases h with
  | made hPlace =>
    rw [hPlace, goto_place_self, opens_eq]
    simp [Place.left]
  | found hPlace _ | missing hPlace | enter hPlace | «return» hPlace _ =>
    rw [hPlace, goto_place_self]
    simp only [Place.left, List.length_cons]
    omega
  | @create name left hPlace =>
    show ((s.goto side id (.making left)).place side id).left < _
    rw [hPlace, goto_place_self]
    simp only [Place.left]
    omega
  | fail => cases hAlive

/-- Every step leaves fewer steps altogether. -/
theorem Stepped.left (h : Stepped c s side id s') (hAlive : s'.failed = false) (hId : id ∈ c.ids) :
    s'.left c < s.left c := by
  have hLess := h.left_lt hAlive
  have hLe : ∀ side' id', (s'.place side' id').left ≤ (s.place side' id').left := by
    intro side' id'
    by_cases hOther : side' = side ∧ id' = id
    · obtain ⟨rfl, rfl⟩ := hOther
      exact Nat.le_of_lt hLess
    · rw [h.place_other hOther]
  refine List.sum_lt_sum _ _ (fun id' _ => Nat.add_le_add (hLe .DSL id') (hLe .SUT id')) ⟨id, hId, ?_⟩
  cases side with
  | DSL => exact Nat.add_lt_add_of_lt_of_le hLess (hLe .SUT id)
  | SUT => exact Nat.add_lt_add_of_le_of_lt (hLe .DSL id) hLess

/-- **All ends come to be open**, since two sides that open in opposite order never both
wait. -/
theorem Inv.all_open (hInv : Inv c s) (hOpposite : ∀ id ∈ c.ids, Opposite c id) :
    Runs.Inevitable (system c) (fun _ _ => True) (AllOpen c) s := by
  refine Runs.Inevitable.of_measure (Q := Inv c) Nat.lt_wfRel.wf (State.left c) ?_ ?_ ?_ hInv
  · exact fun s i s' hInv _ hStep => (next_cases hStep).2.2.inv hInv
  · intro s hInv hOpen
    obtain ⟨i, s', hStep⟩ := hInv.goes hOpposite hOpen
    exact ⟨i, s', trivial, hStep⟩
  · intro s i s' hInv _ hStep
    obtain ⟨-, hId, hStepped⟩ := next_cases hStep
    exact hStepped.left (hStepped.inv hInv).alive hId

-- ---------------------------------------------------------------------------
-- Two ends that open in the same order
-- ---------------------------------------------------------------------------

/-- The end that has the call. -/
def Call.owner (call : Call) : Side :=
  match call.name.direction, call.access with
  | .fifo_out, .O_RDONLY => .DSL
  | .fifo_in, .O_WRONLY => .DSL
  | .fifo_in, .O_RDONLY => .SUT
  | .fifo_out, .O_WRONLY => .SUT

theorem owner_of_mem_opens (h : call ∈ c.opens side id) : call.owner = side ∧ call.name.id = id := by
  simp only [Config.opens, Open] at h
  cases side <;> split at h <;> simp only [List.mem_cons, List.not_mem_nil, or_false] at h <;>
    rcases h with rfl | rfl <;> exact ⟨rfl, rfl⟩

/-- The calls that a thread has entered are among those it makes. -/
theorem Place.Sound.entered_subset {files : Fifo → Bool} {place : Place}
    (h : place.Sound c files side id) (hMem : call ∈ place.entered) : call ∈ c.opens side id := by
  cases place with
  | making | creating => cases hMem
  | opening done left => exact h.1 ▸ List.mem_append_left _ hMem
  | waiting done call' left =>
    rw [← h.1, ← List.singleton_append, ← List.append_assoc]
    exact List.mem_append_left _ hMem

theorem first_ne_second (c : Config) (side : Side) (id : Nat) : c.first side id ≠ c.second side id := by
  cases h : c.open_for_read_first side id <;> simp [Config.first, Config.second, h]

/-- An end of which no call has returned has entered its first call at most. -/
theorem Place.Sound.second_not_mem {files : Fifo → Bool} {place : Place}
    (h : place.Sound c files side id) (hDone : place.done = []) :
    c.second side id ∉ place.entered := by
  cases place with
  | making | creating => exact List.not_mem_nil
  | opening done left =>
    obtain rfl : done = [] := hDone
    exact List.not_mem_nil
  | waiting done call left =>
    obtain rfl : done = [] := hDone
    rcases h.waiting_cases with ⟨-, rfl⟩ | ⟨hNil, -⟩
    · simpa [Place.entered] using (first_ne_second c side id).symm
    · cases hNil

/-- At both ends of the pipe no call has returned. -/
def Deadlocked (c : Config) (id : Nat) (s : State) : Prop :=
  Inv c s ∧ ∀ side, (s.place side id).done = []

/-- Both ends wait for what the other does second. -/
theorem Stepped.deadlocked (h : Stepped c s side' id' s') (hAlike : ¬ Opposite c id)
    (hDead : Deadlocked c id s) : Deadlocked c id s' := by
  obtain ⟨hInv, hDone⟩ := hDead
  refine ⟨h.inv hInv, fun side => ?_⟩
  by_cases hHere : side = side' ∧ id = id'
  · obtain ⟨rfl, rfl⟩ := hHere
    have hBefore := hDone side
    cases h with
    | made | found | missing => rw [goto_place_self]; rfl
    | @create name left =>
      show ((s.goto side id (.making left)).place side id).done = []
      rw [goto_place_self]
      rfl
    | enter hPlace =>
      rw [hPlace] at hBefore
      rw [goto_place_self]
      exact hBefore
    | fail => exact hBefore
    | @«return» done call left hPlace hPartner =>
      exfalso
      have hSound := hInv.sound side id
      rw [hPlace] at hSound hBefore
      obtain rfl : done = [] := hBefore
      obtain rfl : call = c.first side id := by
        rcases hSound.waiting_cases with ⟨-, hCall⟩ | ⟨hNil, -⟩
        · exact hCall
        · cases hNil
      -- somebody would have entered the second call of the other end
      rw [partner_of_alike hAlike, State.entered, List.any_eq_true] at hPartner
      obtain ⟨other, -, hAny⟩ := hPartner
      obtain ⟨x, -, hContains⟩ := List.any_eq_true.mp hAny
      have hMem : c.second side.other id ∈ (s.place other x).entered := by simpa using hContains
      obtain ⟨hSide, hId⟩ := owner_of_mem_opens ((hInv.sound other x).entered_subset hMem)
      have hSecond : c.second side.other id ∈ c.opens side.other id := by simp [opens_eq]
      obtain ⟨hSide', hId'⟩ := owner_of_mem_opens hSecond
      obtain rfl : other = side.other := hSide.symm.trans hSide'
      obtain rfl : x = id := hId.symm.trans hId'
      exact (hInv.sound side.other x).second_not_mem (hDone _) hMem
  · rw [h.place_other hHere]
    exact hDone side

/-- **All ends come to be open**, whatever the order of the steps, if and only if no pipe is
opened in the same order at both ends. Opening an end blocks until the other end is opened,
so each side has to begin with the end for which the other one comes. -/
theorem all_open_iff (c : Config) :
    (∀ s, Initial s → Runs.Inevitable (system c) (fun _ _ => True) (AllOpen c) s) ↔
      ∀ id ∈ c.ids, c.open_for_read_first .DSL id ≠ c.open_for_read_first .SUT id := by
  constructor
  · intro hAll id hId hAlike
    let s₀ : State := ⟨fun _ => false, fun side id => .making (side.fifos id), false⟩
    have hStart : Initial s₀ := ⟨rfl, fun _ _ => rfl⟩
    obtain ⟨s, hReach, hOpen⟩ := (hAll s₀ hStart).possible (.init rfl)
    have hDead : Deadlocked c id s := by
      refine hReach.invariant (P := Deadlocked c id) ?_ ?_
      · rintro s rfl
        exact ⟨hStart.inv, fun _ => rfl⟩
      · exact fun s i s' hDead _ hStep =>
          (next_cases hStep).2.2.deadlocked (fun hOpposite => hOpposite hAlike) hDead
    -- an open end has done both calls
    have hPlace := hOpen.2 .DSL id hId
    have hSound := hDead.1.sound .DSL id
    have hDone := hDead.2 .DSL
    cases hCase : s.place .DSL id with
    | opening done left =>
      rw [hCase] at hPlace hSound hDone
      obtain rfl : done = [] := hDone
      cases left with
      | nil => exact absurd (hSound.1.trans (opens_eq c .DSL id)) (by simp)
      | cons => cases hPlace
    | making | creating | waiting =>
      rw [hCase] at hPlace
      cases hPlace
  · exact fun hOpposite s hStart => (Initial.inv hStart).all_open hOpposite

/-- The pipes of the code come to be open. -/
example (s : State) (h : Initial s) :
    Runs.Inevitable (system .code) (fun _ _ => True) (AllOpen .code) s :=
  (Initial.inv h).all_open fun _ _ => Bool.noConfusion

end PipeOpen

end Concurrit.Model
