import Mathlib.Data.List.Basic
import Mathlib.Tactic.Ring

/-!
# Values as bytes

A `Layout` says how the values of a type lie in memory: a fixed number of bytes,
from which the value is found again.
-/

namespace Bytes

structure Layout (α : Type) where
  size : Nat
  toBytes : α → List UInt8
  ofBytes : List UInt8 → α
  length_toBytes : ∀ a, (toBytes a).length = size
  ofBytes_toBytes : ∀ a, ofBytes (toBytes a) = a

-- ---------------------------------------------------------------------------
-- Little-endian numbers
-- ---------------------------------------------------------------------------

/-- The `n` lowest bytes of a number, the lowest first. -/
def leBytes : Nat → Nat → List UInt8
  | 0, _ => []
  | n + 1, x => UInt8.ofNat x :: leBytes n (x / 256)

def ofLeBytes : List UInt8 → Nat
  | [] => 0
  | b :: bs => b.toNat + 256 * ofLeBytes bs

theorem length_leBytes (n x : Nat) : (leBytes n x).length = n := by
  induction n generalizing x with
  | zero => rfl
  | succ n ih => simp [leBytes, ih]

theorem ofLeBytes_leBytes (n x : Nat) : ofLeBytes (leBytes n x) = x % 256 ^ n := by
  induction n generalizing x with
  | zero => simp [leBytes, ofLeBytes, Nat.mod_one]
  | succ n ih =>
    have hByte : (UInt8.ofNat x).toNat = x % 256 := UInt8.toNat_ofNat'
    rw [leBytes, ofLeBytes, ih, hByte, Nat.pow_succ', Nat.mod_mul]

/-- A number below the range of its bytes is found again. -/
theorem ofLeBytes_leBytes_of_lt {n x : Nat} (h : x < 256 ^ n) : ofLeBytes (leBytes n x) = x := by
  rw [ofLeBytes_leBytes, Nat.mod_eq_of_lt h]

-- ---------------------------------------------------------------------------
-- Layouts
-- ---------------------------------------------------------------------------

def uint32 : Layout UInt32 where
  size := 4
  toBytes x := leBytes 4 x.toNat
  ofBytes bs := UInt32.ofNat (ofLeBytes bs)
  length_toBytes x := length_leBytes 4 _
  ofBytes_toBytes x := by
    rw [ofLeBytes_leBytes_of_lt (x.toNat_lt.trans_eq (by norm_num)), UInt32.ofNat_toNat]

def uint64 : Layout UInt64 where
  size := 8
  toBytes x := leBytes 8 x.toNat
  ofBytes bs := UInt64.ofNat (ofLeBytes bs)
  length_toBytes x := length_leBytes 8 _
  ofBytes_toBytes x := by
    rw [ofLeBytes_leBytes_of_lt (x.toNat_lt.trans_eq (by norm_num)), UInt64.ofNat_toNat]

/-- Two's complement. -/
def int32 : Layout Int32 where
  size := 4
  toBytes x := uint32.toBytes x.toUInt32
  ofBytes bs := ⟨uint32.ofBytes bs⟩
  length_toBytes x := uint32.length_toBytes _
  ofBytes_toBytes x := by rw [uint32.ofBytes_toBytes]

/-- An array of characters. -/
def chars (n : Nat) : Layout (Vector UInt8 n) where
  size := n
  toBytes v := v.toList
  ofBytes bs := if h : bs.length = n then ⟨bs.toArray, by simpa using h⟩ else Vector.replicate n 0
  length_toBytes v := by simp
  ofBytes_toBytes v := by simp [Vector.toList]

end Bytes
