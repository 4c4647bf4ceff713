import Mathlib.Data.List.Basic
import Mathlib.Data.List.TakeWhile

/-!
# Concurrit — line files

`ReadLinesFromFile` reads through a buffer of 256 bytes: `fgets` stores up to 255 bytes of a
line, and each piece is looked at like a line of its own, up to its first NUL byte.

* `Whole`            — a line that the buffer does not spoil.
* `read_lines_exact` — the lines returned are those of the file if and only if all its lines
  are `Whole`.

`InstParams::ParseFile` sorts the lines of the list of functions (`parseFile_names`); it never
looks into an empty one (`parseFile_isSome`).
-/

namespace Concurrit.Model

namespace LineFile

-- ---------------------------------------------------------------------------
-- The reader
-- ---------------------------------------------------------------------------

def newline : UInt8 := 10

/-- A file that is open for reading: what is left of it, and its end-of-file indicator. -/
structure FILE where
  rest : List UInt8
  eof : Bool

/-- Up to `n` bytes, none behind a newline: what is read, what is left, and whether the end of
the file has been met. -/
def readUpTo : Nat → List UInt8 → List UInt8 × List UInt8 × Bool
  | 0, bs => ([], bs, false)
  | _ + 1, [] => ([], [], true)
  | n + 1, b :: bs =>
    if b = newline then ([b], bs, false)
    else
      match readUpTo n bs with
      | (got, rest, eof) => (b :: got, rest, eof)

/-- `fgets(buff, size, fin)`: the bytes that are stored, before the NUL behind them. -/
def fgets (size : Nat) (fin : FILE) : Option (List UInt8) × FILE :=
  match readUpTo (size - 1) fin.rest with
  | (got, rest, eof) => (if got = [] then none else some got, ⟨rest, fin.eof || eof⟩)

/-- `strnlen`, of bytes with a NUL behind them. -/
def strnlen (buff : List UInt8) : Nat := (buff.takeWhile (· ≠ 0)).length

/-- The string that a piece adds to the lines. -/
def pushed (comment : UInt8) (buff : List UInt8) : List (List UInt8) :=
  let sz := strnlen buff
  if 0 < sz ∧ buff[0]? ≠ some comment then
    if buff[sz - 1]? = some newline then
      if sz - 1 = 0 then [] else [buff.take (sz - 1)]
    else [buff.take sz]
  else []

def buffSz : Nat := 256

/-- The loop of `ReadLinesFromFile`. -/
def readLoop (comment : UInt8) : Nat → FILE → List (List UInt8) → Option (List (List UInt8))
  | 0, _, _ => none
  | fuel + 1, fin, lines =>
    if fin.eof then some lines
    else
      match fgets buffSz fin with
      | (none, _) => some lines
      | (some buff, fin) => readLoop comment fuel fin (lines ++ pushed comment buff)

/-- `ReadLinesFromFile`; `none` if it aborts. Each turn of the loop but the last one takes a
byte from the file. -/
def ReadLinesFromFile (file : Option (List UInt8)) (lines : List (List UInt8))
    (exitOnFail : Bool) (comment : UInt8) : Option (List (List UInt8)) :=
  match file with
  | none => if exitOnFail then none else some lines
  | some content => readLoop comment (content.length + 1) ⟨content, false⟩ lines

-- ---------------------------------------------------------------------------
-- The lines of a file
-- ---------------------------------------------------------------------------

/-- The non-empty lines that are not comments, in file order. -/
def linesOf (comment : UInt8) (content : List UInt8) : List (List UInt8) :=
  (content.splitOn newline).filter fun line => line ≠ [] ∧ line.head? ≠ some comment

/-- The line is a comment whose pieces all look like comments, or like nothing; or the buffer
holds it and strings hold its bytes. -/
def Whole (comment : UInt8) (bytes : List UInt8) : Prop :=
  (bytes.head? = some comment ∧
    ∀ k b, bytes[k * (buffSz - 1)]? = some b → b = comment ∨ b = 0) ∨
  (bytes.head? ≠ some comment ∧ bytes.length ≤ buffSz - 1 ∧ 0 ∉ bytes)

-- ---------------------------------------------------------------------------
-- The pieces of a line
-- ---------------------------------------------------------------------------

/-- What a piece without a newline adds. -/
def pushOf (comment : UInt8) (piece : List UInt8) : List (List UInt8) :=
  if piece.head? = some comment ∨ piece.head? = some 0 ∨ piece = [] then []
  else [piece.takeWhile (· ≠ 0)]

/-- What a line adds, a buffer after the other. -/
def lineOut (comment : UInt8) (line : List UInt8) : List (List UInt8) :=
  if line.length < buffSz - 1 then pushOf comment line
  else pushOf comment (line.take (buffSz - 1)) ++ lineOut comment (line.drop (buffSz - 1))
termination_by line.length
decreasing_by simp only [List.length_drop, buffSz] at *; omega

/-- What the line is to add. -/
def lineOf (comment : UInt8) (line : List UInt8) : List (List UInt8) :=
  if line ≠ [] ∧ line.head? ≠ some comment then [line] else []

/-- The lines of a file are those of its pieces between the newlines. -/
theorem linesOf_eq_flatMap (comment : UInt8) (content : List UInt8) :
    linesOf comment content = (content.splitOn newline).flatMap (lineOf comment) := by
  unfold linesOf
  induction content.splitOn newline with
  | nil => rfl
  | cons line lines ih =>
    rw [List.filter_cons, List.flatMap_cons, ih]
    simp only [lineOf, decide_eq_true_eq]
    split <;> simp

/-- A piece is looked at up to its first NUL byte. -/
theorem pushed_eq_string (comment : UInt8) (buff s : List UInt8)
    (hString : buff.takeWhile (· ≠ 0) = s) (hNonempty : s ≠ [])
    (hHead : buff.head? ≠ some comment) :
    pushed comment buff =
      if s.getLast? = some newline then if s.dropLast = [] then [] else [s.dropLast]
      else [s] := by
  obtain ⟨rest, rfl⟩ : s <+: buff := hString ▸ List.takeWhile_prefix _
  have hPos : 0 < s.length := List.length_pos_iff.mpr hNonempty
  have hTake : (s ++ rest).take s.length = s := List.take_left
  have hLast : (s ++ rest)[s.length - 1]? = s.getLast? := by
    rw [List.getLast?_eq_getElem?, List.getElem?_append_left (by omega)]
  have hDrop : (s ++ rest).take (s.length - 1) = s.dropLast := by
    rw [List.dropLast_eq_take, List.take_append_of_le_length (by omega)]
  have hEmpty : s.length - 1 = 0 ↔ s.dropLast = [] := by
    rw [← List.length_eq_zero_iff, List.length_dropLast]
  simp only [pushed, strnlen, hString, hPos, true_and, ← List.head?_eq_getElem?, hHead,
    ne_eq, not_false_eq_true, if_true, hLast, hDrop, hEmpty, hTake]

/-- Nothing comes of a comment, a NUL or an empty buffer. -/
theorem pushed_eq_nil (comment : UInt8) (buff : List UInt8)
    (h : buff.head? = some comment ∨ buff.head? = some 0 ∨ buff = []) :
    pushed comment buff = [] := by
  rcases h with h | h | rfl
  · simp [pushed, ← List.head?_eq_getElem?, h]
  · obtain ⟨rest, rfl⟩ : ∃ rest, buff = 0 :: rest := by
      cases buff with
      | nil => cases h
      | cons b rest => exact ⟨rest, by rw [Option.some.inj h]⟩
    simp [pushed, strnlen]
  · simp [pushed, strnlen]

/-- What is before the first NUL is not empty, if the piece does not begin with one. -/
theorem takeWhile_ne_nil {piece : List UInt8} (hNul : piece.head? ≠ some 0)
    (hNonempty : piece ≠ []) : piece.takeWhile (· ≠ 0) ≠ [] := by
  cases piece with
  | nil => exact absurd rfl hNonempty
  | cons b rest =>
    have hb : b ≠ 0 := fun h => hNul (by rw [h]; rfl)
    rw [List.takeWhile_cons_of_pos (by simpa using hb)]
    exact List.cons_ne_nil _ _

theorem getLast?_ne_newline {piece s : List UInt8} (hLine : newline ∉ piece)
    (hPrefix : s <+: piece) : s.getLast? ≠ some newline := fun h =>
  hLine (hPrefix.subset (List.mem_of_getLast? h))

/-- What comes of a whole piece. -/
theorem pushed_eq (comment : UInt8) (piece : List UInt8) (hLine : newline ∉ piece) :
    pushed comment piece = pushOf comment piece := by
  unfold pushOf
  split
  case isTrue h => exact pushed_eq_nil comment piece h
  case isFalse h =>
    simp only [not_or] at h
    rw [pushed_eq_string comment piece _ rfl (takeWhile_ne_nil h.2.1 h.2.2) h.1,
      if_neg (getLast?_ne_newline hLine (List.takeWhile_prefix _))]

/-- The newline behind a piece makes no difference: if a NUL byte hides it, the string ends
before it. -/
theorem pushed_newline (comment : UInt8) (piece : List UInt8) (hLine : newline ∉ piece) :
    pushed comment (piece ++ [newline]) = pushOf comment piece := by
  by_cases hEmpty : piece = []
  · subst hEmpty
    simp [pushed, pushOf, strnlen, newline]
  have hHead : (piece ++ [newline]).head? = piece.head? := by
    cases piece with
    | nil => exact absurd rfl hEmpty
    | cons b rest => rfl
  unfold pushOf
  split
  case isTrue h =>
    refine pushed_eq_nil comment _ ?_
    rw [hHead]
    exact h.imp_right fun h => .inl (h.resolve_right hEmpty)
  case isFalse h =>
    simp only [not_or] at h
    rw [← hHead] at h
    by_cases hNul : 0 ∈ piece
    · -- the string ends inside the piece
      have hString : (piece ++ [newline]).takeWhile (· ≠ 0) = piece.takeWhile (· ≠ 0) := by
        rw [List.takeWhile_append, if_neg]
        intro hAll
        have hSelf := (List.takeWhile_prefix _).eq_of_length hAll
        simpa using List.takeWhile_eq_self_iff.mp hSelf 0 hNul
      rw [pushed_eq_string comment _ _ hString
        (takeWhile_ne_nil (by rw [← hHead]; exact h.2.1) h.2.2) h.1,
        if_neg (getLast?_ne_newline hLine (List.takeWhile_prefix _))]
    · have hAll : ∀ b ∈ piece, decide (b ≠ 0) = true := fun b hb =>
        decide_eq_true (ne_of_mem_of_not_mem hb hNul)
      have hString : (piece ++ [newline]).takeWhile (· ≠ 0) = piece ++ [newline] := by
        rw [List.takeWhile_append_of_pos hAll]
        rfl
      rw [pushed_eq_string comment _ _ hString (by simp) h.1, List.getLast?_append,
        List.dropLast_concat, List.takeWhile_eq_self_iff.mpr hAll]
      simp [hEmpty]

-- ---------------------------------------------------------------------------
-- The loop takes line after line
-- ---------------------------------------------------------------------------

/-- A line that is too long fills the buffer, and the rest stays in the file. -/
theorem readUpTo_long (n : Nat) (line tail : List UInt8) (hLen : n ≤ line.length)
    (hLine : newline ∉ line) :
    readUpTo n (line ++ tail) = (line.take n, line.drop n ++ tail, false) := by
  induction n generalizing line with
  | zero => simp [readUpTo]
  | succ n ih =>
    cases line with
    | nil => simp at hLen
    | cons b line =>
      simp only [List.mem_cons, not_or] at hLine
      rw [List.cons_append, readUpTo, if_neg (Ne.symm hLine.1), ih line (by simpa using hLen) hLine.2]
      rfl

/-- A line that fits is read with its newline. -/
theorem readUpTo_line (n : Nat) (line rest : List UInt8) (hLen : line.length < n)
    (hLine : newline ∉ line) :
    readUpTo n (line ++ newline :: rest) = (line ++ [newline], rest, false) := by
  induction line generalizing n with
  | nil =>
    obtain ⟨m, rfl⟩ := Nat.exists_eq_add_of_lt hLen
    simp [readUpTo]
  | cons b line ih =>
    simp only [List.mem_cons, not_or] at hLine
    obtain ⟨n, rfl⟩ : ∃ m, n = m + 1 := ⟨n - 1, by simp at hLen; omega⟩
    rw [List.cons_append, readUpTo, if_neg (Ne.symm hLine.1),
      ih n (by simpa using hLen) hLine.2]
    rfl

/-- The last line has no newline, and the file is at its end behind it. -/
theorem readUpTo_end (n : Nat) (line : List UInt8) (hLen : line.length < n)
    (hLine : newline ∉ line) : readUpTo n line = (line, [], true) := by
  induction line generalizing n with
  | nil =>
    obtain ⟨m, rfl⟩ := Nat.exists_eq_add_of_lt hLen
    simp [readUpTo]
  | cons b line ih =>
    simp only [List.mem_cons, not_or] at hLine
    obtain ⟨n, rfl⟩ : ∃ m, n = m + 1 := ⟨n - 1, by simp at hLen; omega⟩
    rw [readUpTo, if_neg (Ne.symm hLine.1), ih n (by simpa using hLen) hLine.2]

/-- The first line of a file, and what is behind it. -/
theorem exists_line (bs : List UInt8) :
    ∃ line tail, bs = line ++ tail ∧ newline ∉ line ∧
      (tail = [] ∨ ∃ rest, tail = newline :: rest) := by
  refine ⟨bs.takeWhile (· ≠ newline), bs.dropWhile (· ≠ newline),
    List.takeWhile_append_dropWhile.symm, fun h => ?_, ?_⟩
  · simpa using List.mem_takeWhile_imp h
  · cases h : bs.dropWhile (· ≠ newline) with
    | nil => exact .inl rfl
    | cons b rest =>
      have hb := List.head?_dropWhile_not (· ≠ newline) bs
      rw [h] at hb
      simp only [List.head?_cons, ne_eq, decide_not, Bool.not_eq_eq_eq_not, Bool.not_false,
        decide_eq_true_eq] at hb
      exact .inr ⟨rest, by rw [hb]⟩

theorem splitOn_newline (rest : List UInt8) :
    (newline :: rest).splitOn newline = [] :: rest.splitOn newline :=
  List.splitOn_append_cons_self_of_not_mem List.not_mem_nil rest

/-- The lines behind the first one do not depend on it. -/
theorem splitOn_tail {line tail : List UInt8} (hLine : newline ∉ line)
    (hTail : tail = [] ∨ ∃ rest, tail = newline :: rest) :
    (line ++ tail).splitOn newline = line :: (tail.splitOn newline).tail := by
  rcases hTail with rfl | ⟨rest, rfl⟩
  · rw [List.append_nil, List.splitOn_eq_singleton hLine]
    rfl
  · rw [List.splitOn_append_cons_self_of_not_mem hLine, splitOn_newline, List.tail_cons]

theorem readLoop_of_fgets (comment : UInt8) (fuel : Nat) (bs : List UInt8)
    (lines : List (List UInt8)) {got rest : List UInt8} {eof : Bool}
    (h : readUpTo (buffSz - 1) bs = (got, rest, eof)) (hGot : got ≠ []) :
    readLoop comment (fuel + 1) ⟨bs, false⟩ lines =
      readLoop comment fuel ⟨rest, eof⟩ (lines ++ pushed comment got) := by
  simp [readLoop, fgets, h, hGot]

/-- The loop adds, line by line, the pieces of the file. -/
theorem readLoop_eq (comment : UInt8) (fuel : Nat) (bs : List UInt8)
    (lines : List (List UInt8)) (hFuel : bs.length < fuel) :
    readLoop comment fuel ⟨bs, false⟩ lines =
      some (lines ++ (bs.splitOn newline).flatMap (lineOut comment)) := by
  induction fuel generalizing bs lines with
  | zero => omega
  | succ fuel ih =>
    obtain ⟨line, tail, rfl, hLine, hTail⟩ := exists_line bs
    rw [splitOn_tail hLine hTail, List.flatMap_cons, lineOut]
    rw [List.length_append] at hFuel
    split
    case isFalse hLong =>
      -- a full buffer, and the rest of the line stays in the file
      have hRead := readUpTo_long (buffSz - 1) line tail (by omega) hLine
      have hFull : line.take (buffSz - 1) ≠ [] := by
        rw [← List.length_pos_iff, List.length_take]
        simp only [buffSz] at *
        omega
      have hDrop : newline ∉ line.drop (buffSz - 1) := fun h => hLine (List.mem_of_mem_drop h)
      have hTake : newline ∉ line.take (buffSz - 1) := fun h => hLine (List.mem_of_mem_take h)
      rw [readLoop_of_fgets comment fuel _ lines hRead hFull, ih _ _ (by
        rw [List.length_append, List.length_drop]
        simp only [buffSz] at *
        omega), splitOn_tail hDrop hTail, List.flatMap_cons, pushed_eq comment _ hTake]
      simp only [List.append_assoc]
    case isTrue hShort =>
      rcases hTail with rfl | ⟨rest, rfl⟩
      · -- the last line, without a newline
        rw [List.append_nil, List.splitOn_nil, List.tail_cons, List.flatMap_nil, List.append_nil]
        have hRead := readUpTo_end (buffSz - 1) line hShort hLine
        by_cases hEmpty : line = []
        · subst hEmpty
          simp [readLoop, fgets, hRead, pushOf]
        · obtain ⟨fuel, rfl⟩ : ∃ m, fuel = m + 1 :=
            ⟨fuel - 1, by have := List.length_pos_iff.mpr hEmpty; omega⟩
          rw [readLoop_of_fgets comment _ _ lines hRead hEmpty, readLoop, if_pos rfl,
            pushed_eq comment _ hLine]
      · have hRead := readUpTo_line (buffSz - 1) line rest hShort hLine
        rw [readLoop_of_fgets comment fuel _ lines hRead (by simp), ih _ _ (by
          rw [List.length_cons] at hFuel
          omega), pushed_newline comment _ hLine, splitOn_newline, List.tail_cons]
        simp only [List.append_assoc]

theorem readLinesFromFile_eq (content : List UInt8) (lines : List (List UInt8))
    (exitOnFail : Bool) (comment : UInt8) :
    ReadLinesFromFile (some content) lines exitOnFail comment =
      some (lines ++ (content.splitOn newline).flatMap (lineOut comment)) :=
  readLoop_eq comment _ content lines (Nat.lt_succ_self _)

example : ReadLinesFromFile (some [35, 97, 10, 10, 98, 10, 99]) [] false 35 =
    some [[98], [99]] := by decide

-- ---------------------------------------------------------------------------
-- Exactly the lines of the file
-- ---------------------------------------------------------------------------

/-- A string that the loop adds is not empty, fits the buffer and has no NUL byte. -/
theorem mem_pushOf {comment : UInt8} {piece s : List UInt8} (h : s ∈ pushOf comment piece) :
    s ≠ [] ∧ s.length ≤ piece.length ∧ 0 ∉ s := by
  unfold pushOf at h
  split at h
  case isTrue => cases h
  case isFalse hPiece =>
    simp only [not_or] at hPiece
    obtain rfl := List.mem_singleton.mp h
    exact ⟨takeWhile_ne_nil hPiece.2.1 hPiece.2.2, (List.takeWhile_prefix _).length_le,
      fun hNul => by simpa using List.mem_takeWhile_imp hNul⟩

/-- What is pushed is a string of C, not empty and no longer than the buffer. -/
theorem mem_lineOut {comment : UInt8} {line s : List UInt8} (h : s ∈ lineOut comment line) :
    s ≠ [] ∧ s.length ≤ buffSz - 1 ∧ 0 ∉ s := by
  induction line using lineOut.induct with
  | case1 line hShort =>
    rw [lineOut, if_pos hShort] at h
    obtain ⟨hNonempty, hLen, hNul⟩ := mem_pushOf h
    exact ⟨hNonempty, by omega, hNul⟩
  | case2 line hLong ih =>
    rw [lineOut, if_neg hLong, List.mem_append] at h
    rcases h with h | h
    · obtain ⟨hNonempty, hLen, hNul⟩ := mem_pushOf h
      rw [List.length_take] at hLen
      exact ⟨hNonempty, by omega, hNul⟩
    · exact ih h

/-- Only a comment or a NUL at the beginning pushes nothing. -/
theorem pushOf_eq_nil_iff {comment : UInt8} {piece : List UInt8} :
    pushOf comment piece = [] ↔ ∀ b, piece[0]? = some b → b = comment ∨ b = 0 := by
  unfold pushOf
  cases piece with
  | nil => simp
  | cons b rest =>
    simp only [List.head?_cons, Option.some.injEq, reduceCtorEq, or_false, ite_eq_left_iff,
      List.cons_ne_self, imp_false, not_not, List.getElem?_cons_zero, forall_eq']

/-- Nothing is added for a line if and only if each of its pieces looks like a comment, or like
nothing. -/
theorem lineOut_eq_nil_iff {comment : UInt8} {bytes : List UInt8} :
    lineOut comment bytes = [] ↔
      ∀ k b, bytes[k * (buffSz - 1)]? = some b → b = comment ∨ b = 0 := by
  induction bytes using lineOut.induct with
  | case1 bytes hShort =>
    rw [lineOut, if_pos hShort, pushOf_eq_nil_iff]
    refine ⟨fun h k b hb => ?_, fun h b hb => h 0 b hb⟩
    obtain ⟨hIdx, -⟩ := List.getElem?_eq_some_iff.mp hb
    obtain rfl : k = 0 := by
      simp only [buffSz] at *
      omega
    exact h b hb
  | case2 bytes hLong ih =>
    have hFirst : (bytes.take (buffSz - 1))[0]? = bytes[0]? :=
      List.getElem?_take_of_lt (by simp [buffSz])
    rw [lineOut, if_neg hLong, List.append_eq_nil_iff, pushOf_eq_nil_iff, ih, hFirst]
    refine ⟨fun ⟨h, hMore⟩ k b hb => ?_, fun h => ⟨fun b hb => h 0 b hb, fun k b hb => ?_⟩⟩
    · cases k with
      | zero => exact h b hb
      | succ k =>
        refine hMore k b ?_
        rwa [List.getElem?_drop, Nat.add_comm, ← Nat.succ_mul]
    · refine h (k + 1) b ?_
      rwa [List.getElem?_drop, Nat.add_comm, ← Nat.succ_mul] at hb

/-- A line that fits the buffer, and has no NUL byte, is added as it is unless it is a
comment. -/
theorem lineOut_of_fits {comment : UInt8} {line : List UInt8} (hLen : line.length ≤ buffSz - 1)
    (hNul : 0 ∉ line) : lineOut comment line = lineOf comment line := by
  have hHead : line.head? ≠ some 0 := fun h => hNul (List.mem_of_mem_head? h)
  have hSelf : line.takeWhile (· ≠ 0) = line :=
    List.takeWhile_eq_self_iff.mpr fun b hb => decide_eq_true (ne_of_mem_of_not_mem hb hNul)
  have hPush : pushOf comment line = lineOf comment line := by
    unfold pushOf lineOf
    rw [hSelf]
    by_cases hEmpty : line = []
    · simp [hEmpty]
    · by_cases hComment : line.head? = some comment
      · simp [hComment]
      · simp [hEmpty, hComment, hHead]
  rw [lineOut]
  split
  · exact hPush
  · rw [List.take_of_length_le hLen, List.drop_of_length_le hLen, hPush, lineOut]
    simp [pushOf, buffSz]

theorem lineOut_nil (comment : UInt8) : lineOut comment [] = lineOf comment [] :=
  lineOut_of_fits (Nat.zero_le _) List.not_mem_nil

theorem lineOf_length_le {comment : UInt8} {line : List UInt8} (hFits : ∀ s ∈ lineOf comment line,
    s.length ≤ buffSz - 1 ∧ 0 ∉ s) :
    (lineOf comment line).length ≤ (lineOut comment line).length := by
  by_cases h : line ≠ [] ∧ line.head? ≠ some comment
  · have hMem : line ∈ lineOf comment line := by simp [lineOf, h]
    rw [lineOut_of_fits (hFits line hMem).1 (hFits line hMem).2]
  · simp [lineOf, h]

/-- A line adds what it is to add if and only if it is `Whole`. -/
theorem lineOut_eq_iff {comment : UInt8} {line : List UInt8} :
    lineOut comment line = lineOf comment line ↔ (line ≠ [] → Whole comment line) := by
  by_cases hEmpty : line = []
  · subst hEmpty
    simp [lineOut_nil]
  by_cases hComment : line.head? = some comment
  · have hOf : lineOf comment line = [] := by simp [lineOf, hComment]
    rw [hOf, lineOut_eq_nil_iff]
    simp [Whole, hEmpty, hComment]
  · have hOf : lineOf comment line = [line] := by simp [lineOf, hEmpty, hComment]
    constructor
    · intro h _
      have hMem : line ∈ lineOut comment line := by simp [h, hOf]
      exact .inr ⟨hComment, (mem_lineOut hMem).2⟩
    · intro h
      rcases h hEmpty with hWhole | ⟨-, hLen, hNul⟩
      · exact absurd hWhole.1 hComment
      · exact lineOut_of_fits hLen hNul

/-- Two ways to expand a list, one never shorter than the other, agree on the list only if they
agree on each element. -/
theorem flatMap_eq_iff {α β : Type} {f g : α → List β} {xs : List α}
    (hLen : ∀ x ∈ xs, (g x).length ≤ (f x).length) :
    xs.flatMap f = xs.flatMap g ↔ ∀ x ∈ xs, f x = g x := by
  have hLe : ∀ ys : List α, (∀ y ∈ ys, (g y).length ≤ (f y).length) →
      (ys.flatMap g).length ≤ (ys.flatMap f).length := by
    intro ys hYs
    induction ys with
    | nil => simp
    | cons y ys ih =>
      simp only [List.mem_cons, forall_eq_or_imp] at hYs
      have := ih hYs.2
      simp only [List.flatMap_cons, List.length_append]
      omega
  refine ⟨fun h => ?_, fun h => List.flatMap_congr h⟩
  induction xs with
  | nil => simp
  | cons x xs ih =>
    simp only [List.mem_cons, forall_eq_or_imp] at hLen ⊢
    have hTotal := congrArg List.length h
    have hRest := hLe xs hLen.2
    simp only [List.flatMap_cons, List.length_append] at h hTotal
    obtain ⟨hFirst, hMore⟩ := List.append_inj h (by omega)
    exact ⟨hFirst, ih hLen.2 hMore⟩

theorem linesOut_eq_linesOf {comment : UInt8} {content : List UInt8}
    (h : ∀ line ∈ content.splitOn newline, line ≠ [] → Whole comment line) :
    (content.splitOn newline).flatMap (lineOut comment) = linesOf comment content := by
  rw [linesOf_eq_flatMap]
  exact List.flatMap_congr fun line hLine => lineOut_eq_iff.mpr (h line hLine)

/-- **The lines of a file.** They are returned exactly, without comments and in their order,
if and only if the buffer spoils none of them: `fgets` cuts what is too long for its 256
bytes, and the rest is taken for a line of its own. -/
theorem read_lines_exact (comment : UInt8) (content : List UInt8) (lines : List (List UInt8))
    (exitOnFail : Bool) :
    ReadLinesFromFile (some content) lines exitOnFail comment =
        some (lines ++ linesOf comment content) ↔
      ∀ line ∈ content.splitOn newline, line ≠ [] → Whole comment line := by
  rw [readLinesFromFile_eq, Option.some.injEq, List.append_cancel_left_eq]
  refine ⟨fun h => ?_, linesOut_eq_linesOf⟩
  rw [linesOf_eq_flatMap] at h
  -- what is returned fits the buffer, so what is to be returned does
  have hFits : ∀ line ∈ content.splitOn newline, ∀ s ∈ lineOf comment line,
        s.length ≤ buffSz - 1 ∧ 0 ∉ s := by
    intro line hLine s hs
    have hMem := List.mem_flatMap_of_mem hLine hs
    rw [← h] at hMem
    obtain ⟨line', -, hMem⟩ := List.mem_flatMap.mp hMem
    exact (mem_lineOut hMem).2
  have hEach := (flatMap_eq_iff fun line hLine => lineOf_length_le (hFits line hLine)).mp h
  exact fun line hLine => lineOut_eq_iff.mp (hEach line hLine)

/-- A line longer than the buffer never comes back as one. -/
theorem read_long_ne {comment : UInt8} {line : List UInt8} (hNewline : newline ∉ line)
    (hComment : line.head? ≠ some comment) (hLen : buffSz - 1 < line.length) :
    ReadLinesFromFile (some line) [] false comment ≠ some ([] ++ linesOf comment line) := by
  intro h
  have hEmpty : line ≠ [] := by
    rintro rfl
    exact absurd hLen (Nat.not_lt_zero _)
  rw [readLinesFromFile_eq, Option.some.injEq, List.append_cancel_left_eq, linesOf_eq_flatMap,
    List.splitOn_eq_singleton hNewline, List.flatMap_singleton, List.flatMap_singleton] at h
  have hMem : line ∈ lineOut comment line := by
    rw [h, lineOf, if_pos ⟨hEmpty, hComment⟩]
    exact List.mem_singleton_self line
  exact absurd (mem_lineOut hMem).2.1 (by omega)

/-- A line of 300 bytes comes back as two, neither of which is in the file. -/
theorem read_long_line :
    ReadLinesFromFile (some (List.replicate 300 97)) [] false 35 ≠
      some ([] ++ linesOf 35 (List.replicate 300 97)) :=
  read_long_ne (fun h => absurd (List.eq_of_mem_replicate h) (by decide))
    (by rw [List.head?_replicate]; decide) (by rw [List.length_replicate]; decide)

-- ---------------------------------------------------------------------------
-- The list of functions
-- ---------------------------------------------------------------------------

def StartEndInstrument : List UInt8 :=
  [83, 116, 97, 114, 116, 69, 110, 100, 73, 110, 115, 116, 114, 117, 109, 101, 110, 116]

def All : List UInt8 := [65, 108, 108]

structure InstParams where
  RTNIdsToInstrument : List UInt64
  RTNNamesToInstrument : List (List UInt8)
  RTNNamesToSkip : List (List UInt8)
  InstrumentAllRoutines : Bool

/-- What `ParseFile` does with a line; `none` if `s.at(0)` throws. -/
def InstParams.sort (params : InstParams) (s : List UInt8) : Option InstParams :=
  match s with
  | [] => none
  | b :: rest =>
    if b = 45 then
      some { params with RTNNamesToSkip := params.RTNNamesToSkip.insert rest }
    else if s = All then some { params with InstrumentAllRoutines := true }
    else some { params with RTNNamesToInstrument := params.RTNNamesToInstrument.insert s }

def InstParams.ParseFile (params : InstParams) (file : Option (List UInt8)) :
    Option InstParams := do
  let params := { params with
    RTNIdsToInstrument := params.RTNIdsToInstrument.insert 0
    RTNNamesToInstrument := params.RTNNamesToInstrument.insert StartEndInstrument }
  let lines ← ReadLinesFromFile file [] false 35
  lines.foldlM InstParams.sort params

/-- Every string but the empty one is sorted into one of the lists. -/
theorem sort_isSome (params : InstParams) {s : List UInt8} (h : s ≠ []) :
    (params.sort s).isSome := by
  cases s with
  | nil => exact absurd rfl h
  | cons b rest =>
    simp only [InstParams.sort]
    split
    · rfl
    · split <;> rfl

/-- So are all strings of a file, since none of them is empty. -/
theorem foldlM_sort_isSome (lines : List (List UInt8)) (params : InstParams)
    (h : ∀ s ∈ lines, s ≠ []) : (lines.foldlM InstParams.sort params).isSome := by
  induction lines generalizing params with
  | nil => rfl
  | cons s lines ih =>
    simp only [List.mem_cons, forall_eq_or_imp] at h
    obtain ⟨params', hSort⟩ := Option.isSome_iff_exists.mp (sort_isSome params h.1)
    rw [List.foldlM_cons, hSort]
    exact ih params' h.2

/-- The lines that are read have a first byte to look at. -/
theorem parseFile_isSome (params : InstParams) (file : Option (List UInt8)) :
    (params.ParseFile file).isSome := by
  cases file with
  | none => rfl
  | some content =>
    rw [InstParams.ParseFile, readLinesFromFile_eq]
    refine foldlM_sort_isSome _ _ fun s hs => ?_
    rw [List.nil_append] at hs
    obtain ⟨line, -, hMem⟩ := List.mem_flatMap.mp hs
    exact (mem_lineOut hMem).1

/-- A line puts its function into one of the two sets, or asks for all functions. -/
theorem sort_some {params params' : InstParams} {s : List UInt8}
    (h : params.sort s = some params') :
    (∀ n, n ∈ params'.RTNNamesToInstrument ↔
      n ∈ params.RTNNamesToInstrument ∨ n = s ∧ n.head? ≠ some 45 ∧ n ≠ All) ∧
    (∀ n, n ∈ params'.RTNNamesToSkip ↔ n ∈ params.RTNNamesToSkip ∨ 45 :: n = s) ∧
    (params'.InstrumentAllRoutines = true ↔ params.InstrumentAllRoutines = true ∨ s = All) := by
  have hAll : All ≠ [] ∧ All.head? ≠ some 45 := by decide
  cases s with
  | nil => cases h
  | cons b rest =>
    simp only [InstParams.sort] at h
    split at h
    case isTrue hSkip =>
      subst hSkip
      cases h
      refine ⟨fun n => ⟨.inl, ?_⟩, fun n => ?_, ⟨.inl, ?_⟩⟩
      · rintro (h | ⟨rfl, h, -⟩)
        · exact h
        · exact absurd rfl h
      · rw [List.mem_insert_iff, List.cons.injEq, or_comm]
        simp
      · rintro (h | h)
        · exact h
        · exact absurd (h ▸ rfl) hAll.2
    case isFalse hKeep =>
      have hHead : ∀ n, ¬ 45 :: n = b :: rest := fun n h => hKeep (List.cons.inj h).1.symm
      split at h
      case isTrue hIs =>
        cases h
        refine ⟨fun n => ⟨.inl, ?_⟩, fun n => by simp [hHead], by simp [hIs]⟩
        rintro (h | ⟨rfl, -, h⟩)
        · exact h
        · exact absurd hIs h
      case isFalse hOther =>
        cases h
        refine ⟨fun n => ?_, fun n => by simp [hHead], by simp [hOther]⟩
        rw [List.mem_insert_iff, or_comm]
        refine or_congr_right ⟨fun h => ⟨h, ?_⟩, fun h => h.1⟩
        subst h
        exact ⟨fun h => hKeep (Option.some.inj h), hOther⟩

/-- Where the names of a file go: to those to instrument, to those to skip, or to the switch
for all of them. -/
theorem foldlM_sort_some {lines : List (List UInt8)} {params params' : InstParams}
    (h : lines.foldlM InstParams.sort params = some params') :
    (∀ n, n ∈ params'.RTNNamesToInstrument ↔
      n ∈ params.RTNNamesToInstrument ∨ n ∈ lines ∧ n.head? ≠ some 45 ∧ n ≠ All) ∧
    (∀ n, n ∈ params'.RTNNamesToSkip ↔ n ∈ params.RTNNamesToSkip ∨ 45 :: n ∈ lines) ∧
    (params'.InstrumentAllRoutines = true ↔
      params.InstrumentAllRoutines = true ∨ All ∈ lines) := by
  induction lines generalizing params with
  | nil =>
    cases h
    simp
  | cons s lines ih =>
    rw [List.foldlM_cons] at h
    obtain ⟨between, hSort, hRest⟩ := Option.bind_eq_some_iff.mp h
    obtain ⟨hNames, hSkip, hAll⟩ := sort_some hSort
    obtain ⟨hNames', hSkip', hAll'⟩ := ih hRest
    refine ⟨fun n => ?_, fun n => ?_, ?_⟩
    · rw [hNames', hNames, List.mem_cons]
      tauto
    · rw [hSkip', hSkip, List.mem_cons]
      tauto
    · rw [hAll', hAll, List.mem_cons, eq_comm (a := s)]
      tauto

/-- A file that the buffer does not spoil names the functions to instrument and those to
skip. -/
theorem parseFile_names {params params' : InstParams} {content : List UInt8}
    (hWhole : ∀ line ∈ content.splitOn newline, line ≠ [] → Whole 35 line)
    (h : params.ParseFile (some content) = some params') :
    (∀ n, n ∈ params'.RTNNamesToInstrument ↔
      (n = StartEndInstrument ∨ n ∈ params.RTNNamesToInstrument) ∨
        n ∈ linesOf 35 content ∧ n.head? ≠ some 45 ∧ n ≠ All) ∧
    (∀ n, n ∈ params'.RTNNamesToSkip ↔
      n ∈ params.RTNNamesToSkip ∨ 45 :: n ∈ linesOf 35 content) ∧
    (params'.InstrumentAllRoutines = true ↔
      params.InstrumentAllRoutines = true ∨ All ∈ linesOf 35 content) := by
  rw [InstParams.ParseFile, readLinesFromFile_eq, linesOut_eq_linesOf hWhole] at h
  obtain ⟨hNames, hSkip, hAll⟩ := foldlM_sort_some h
  refine ⟨fun n => ?_, hSkip, hAll⟩
  rw [hNames, List.mem_insert_iff]
  rfl

end LineFile

end Concurrit.Model
