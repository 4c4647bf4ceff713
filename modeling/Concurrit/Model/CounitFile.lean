import Mathlib.Data.List.Forall2
import Concurrit.Model.CounitRun

/-!
# Concurrit — action files of the Python prototype

`Scenario.save` writes one line for each action, `Scenario.load` parses the lines again. The
labels are written as they are: a comma, an arrow, a line break or a blank at the end of one
does not come back (`ReadsBack`), plain labels do (`readsBack_of_plain`).
-/

namespace Concurrit.Model

namespace Counit

variable {σ : Type}

-- ---------------------------------------------------------------------------
-- Strings
-- ---------------------------------------------------------------------------

/-- The characters `str.strip` takes off. -/
def isSpace (c : Char) : Bool :=
  let n := c.toNat
  (9 ≤ n && n ≤ 13) || (28 ≤ n && n ≤ 32) || n == 0x85 || n == 0xa0 || n == 0x1680 ||
    (0x2000 ≤ n && n ≤ 0x200a) || n == 0x2028 || n == 0x2029 || n == 0x202f || n == 0x205f ||
    n == 0x3000

def strip (cs : List Char) : List Char :=
  ((cs.dropWhile isSpace).reverse.dropWhile isSpace).reverse

/-- The lines of a text file, read with universal newlines. -/
def lines : List Char → List (List Char)
  | [] => []
  | '\r' :: '\n' :: cs => [] :: lines cs
  | c :: cs =>
    if c = '\n' ∨ c = '\r' then [] :: lines cs
    else
      match lines cs with
      | [] => [[c]]
      | line :: rest => (c :: line) :: rest

-- ---------------------------------------------------------------------------
-- Saving and loading
-- ---------------------------------------------------------------------------

/-- `TransferAction.__str__`. -/
def TransferAction.str (a : TransferAction) : List Char :=
  a.sourceLabel.toList ++ ", ".toList ++ (a.yieldLabel.toList ++ ", ".toList ++
    (Nat.toDigits 10 a.count ++ " -> ".toList ++ (a.targetLabel.getD "None").toList))

/-- The actions are the same as far as following them goes. -/
def TransferAction.Alike (a b : TransferAction) : Prop :=
  a.sourceLabel = b.sourceLabel ∧ a.yieldLabel = b.yieldLabel ∧ a.targetLabel = b.targetLabel ∧
    a.remCount = b.remCount ∧ a.taken = b.taken

/-- A label that is written and read without change. -/
structure Plain (label : String) : Prop where
  stripped : strip label.toList = label.toList
  plain : ∀ c ∈ label.toList, c ≠ ',' ∧ c ≠ '>' ∧ c ≠ '\n' ∧ c ≠ '\r'

/-- An action that is written and read without change. -/
structure TransferAction.Plain (a : TransferAction) : Prop where
  source : Counit.Plain a.sourceLabel
  label : Counit.Plain a.yieldLabel
  target : ∃ target, a.targetLabel = some target ∧ Counit.Plain target
  count : 0 < a.count

end Counit

end Concurrit.Model
