/-
Module: Ziftrcoin.Spec.Bytes
Purpose: Byte strings, fixed-width integers and the length-prefixed vectors of
  `serialize.h`, as far as transactions and blocks use them.
Trusted boundary: human-reviewed model of src/serialize.h, src/util.h
Main exports: uint256, valtype, int64
-/
import Mathlib.Algebra.Order.Ring.Int
import Mathlib.Data.List.Basic

namespace Ziftrcoin.Spec

/-- Hash values and hash-sized numbers.  A hash function is a parameter of the
model, so a `uint256` is only ever compared, ordered and written out; the
width matters where a number is added up or serialised, and is then written
as `% 2 ^ 256`. -/
abbrev uint256 := Nat

/-- `std::vector<unsigned char>`. -/
abbrev valtype := List UInt8

/-- Result of a signed 64-bit operation whose exact result is `x`. -/
def int64 (x : Int) : Int := x.bmod (2 ^ 64)

/-- Result of a signed 32-bit operation whose exact result is `x`. -/
def int32 (x : Int) : Int := x.bmod (2 ^ 32)

/-- Result of an unsigned 32-bit operation whose exact result is `x`. -/
def uint32 (x : Nat) : Nat := x % 2 ^ 32

/-! ### Amounts -/

def COIN : Int := 100000

def CENT : Int := 1000

/-- No amount larger than this (in satoshi) is valid. -/
def MAX_MONEY_SATOSHIS : Int := 12000000000 * COIN

def MoneyRange (nValue : Int) : Bool :=
  decide (0 ≤ nValue) && decide (nValue ≤ MAX_MONEY_SATOSHIS)

theorem moneyRange_iff {nValue : Int} :
    MoneyRange nValue = true ↔ 0 ≤ nValue ∧ nValue ≤ MAX_MONEY_SATOSHIS := by
  simp [MoneyRange]

/-! ### Little-endian integers -/

/-- The `width` low-order bytes of `n`, least significant first. -/
def leBytes : (width n : Nat) → valtype
  | 0, _ => []
  | width + 1, n => UInt8.ofNat n :: leBytes width (n / 256)

@[simp] theorem leBytes_length (width n : Nat) :
    (leBytes width n).length = width := by
  induction width generalizing n with
  | zero => rfl
  | succ width ih => simp [leBytes, ih]

/-- Little-endian value of a byte string. -/
def readLE : valtype → Nat
  | [] => 0
  | b :: bs => b.toNat + 256 * readLE bs

theorem readLE_leBytes (width n : Nat) : readLE (leBytes width n) = n % 256 ^ width := by
  induction width generalizing n with
  | zero => rw [leBytes, readLE, Nat.pow_zero, Nat.mod_one]
  | succ width ih =>
      rw [leBytes, readLE, ih, Nat.pow_succ', Nat.mod_mul]
      rfl

theorem readLE_append (bs bs' : valtype) :
    readLE (bs ++ bs') = readLE bs + 256 ^ bs.length * readLE bs' := by
  induction bs with
  | nil => rw [List.nil_append, List.length_nil, Nat.pow_zero, Nat.one_mul, readLE,
      Nat.zero_add]
  | cons b bs ih =>
      rw [List.cons_append, readLE, ih, readLE, List.length_cons, Nat.pow_succ', Nat.mul_add,
        Nat.mul_assoc, Nat.add_assoc]

/-- Bytes of a signed 32-bit integer in two's complement. -/
def leInt32 (n : Int) : valtype := leBytes 4 (n % 2 ^ 32).toNat

/-- Bytes of a signed 64-bit integer in two's complement. -/
def leInt64 (n : Int) : valtype := leBytes 8 (n % 2 ^ 64).toNat

/-! ### Vectors -/

/-- No vector that is read from a stream is longer. -/
def MAX_SIZE : Nat := 0x02000000

def writeCompactSize (nSize : Nat) : valtype :=
  if nSize < 253 then leBytes 1 nSize
  else if nSize ≤ 0xffff then 253 :: leBytes 2 nSize
  else if nSize ≤ 0xffffffff then 254 :: leBytes 4 nSize
  else 255 :: leBytes 8 nSize

/-- A vector is its length followed by its elements. -/
def serializeVector {α : Type} (serialize : α → valtype) (xs : List α) :
    valtype :=
  writeCompactSize xs.length ++ xs.flatMap serialize

/-- A byte vector, for which every element is its own serialisation. -/
def serializeBytes (bs : valtype) : valtype :=
  writeCompactSize bs.length ++ bs

end Ziftrcoin.Spec
