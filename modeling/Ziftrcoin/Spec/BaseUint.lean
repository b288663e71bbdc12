/-
Module: Ziftrcoin.Spec.BaseUint
Purpose: Numbers of several 32-bit limbs, limb by limb as the class computes them.
Trusted boundary: human-reviewed model of base_uint in src/uint256.h, on a machine whose
  bytes are in little-endian order
Main exports: base_uint, base_uint.add, base_uint.neg
-/
import Ziftrcoin.Spec.Text
import Ziftrcoin.Spec.CoinsFormat

namespace Ziftrcoin.Spec

/-- `uint32_t`. -/
abbrev Limb := BitVec 32

/-- `base_uint<BITS>` with `WIDTH = BITS / 32`; the limbs have the lowest one first. -/
structure base_uint (WIDTH : ℕ) where
  pn : List Limb
  size : pn.length = WIDTH

namespace base_uint

variable {WIDTH : ℕ}

/-! ### Bitwise operators -/

/-- `operator~`. -/
def not (a : base_uint WIDTH) : base_uint WIDTH :=
  ⟨a.pn.map fun limb => ~~~limb, by rw [List.length_map, a.size]⟩

/-- The loop of `operator^=`, `operator&=` and `operator|=`. -/
def limbwise (op : Limb → Limb → Limb) (a b : base_uint WIDTH) : base_uint WIDTH :=
  ⟨List.zipWith op a.pn b.pn, by rw [List.length_zipWith, a.size, b.size, Nat.min_self]⟩

def xor (a b : base_uint WIDTH) : base_uint WIDTH := limbwise (· ^^^ ·) a b
def and (a b : base_uint WIDTH) : base_uint WIDTH := limbwise (· &&& ·) a b
def or (a b : base_uint WIDTH) : base_uint WIDTH := limbwise (· ||| ·) a b

/-! ### Carries -/

/-- The loop of `operator+=` from the limb that is reached with `carry`. -/
def addLoop : (carry : ℕ) → List Limb → List Limb → List Limb
  | carry, x :: xs, y :: ys =>
      let n := uint64 (carry + x.toNat + y.toNat)
      BitVec.ofNat 32 n :: addLoop (n / 2 ^ 32) xs ys
  | _, _, _ => []

theorem length_addLoop (carry : ℕ) (xs ys : List Limb) :
    (addLoop carry xs ys).length = min xs.length ys.length := by
  induction xs generalizing carry ys with
  | nil => simp [addLoop]
  | cons x xs ih =>
      cases ys with
      | nil => simp [addLoop]
      | cons y ys => simp [addLoop, ih]

/-- `operator+=`. -/
def add (a b : base_uint WIDTH) : base_uint WIDTH :=
  ⟨addLoop 0 a.pn b.pn, by rw [length_addLoop, a.size, b.size, Nat.min_self]⟩

/-- `while (++pn[i] == 0 && i < WIDTH-1) i++;`. -/
def incrementLoop : List Limb → List Limb
  | [] => []
  | x :: xs => if x + 1 = 0 ∧ xs ≠ [] then (x + 1) :: incrementLoop xs else (x + 1) :: xs

theorem length_incrementLoop (xs : List Limb) : (incrementLoop xs).length = xs.length := by
  induction xs with
  | nil => rfl
  | cons x xs ih =>
      rw [incrementLoop]
      split_ifs
      · rw [List.length_cons, ih, List.length_cons]
      · rfl

/-- `operator++`. -/
def increment (a : base_uint WIDTH) : base_uint WIDTH :=
  ⟨incrementLoop a.pn, by rw [length_incrementLoop, a.size]⟩

/-- `while (--pn[i] == (uint32_t)-1 && i < WIDTH-1) i++;`. -/
def decrementLoop : List Limb → List Limb
  | [] => []
  | x :: xs => if x - 1 = -1 ∧ xs ≠ [] then (x - 1) :: decrementLoop xs else (x - 1) :: xs

theorem length_decrementLoop (xs : List Limb) : (decrementLoop xs).length = xs.length := by
  induction xs with
  | nil => rfl
  | cons x xs ih =>
      rw [decrementLoop]
      split_ifs
      · rw [List.length_cons, ih, List.length_cons]
      · rfl

/-- `operator--`. -/
def decrement (a : base_uint WIDTH) : base_uint WIDTH :=
  ⟨decrementLoop a.pn, by rw [length_decrementLoop, a.size]⟩

/-- `operator-` with one operand. -/
def neg (a : base_uint WIDTH) : base_uint WIDTH := a.not.increment

/-- `operator-=`. -/
def sub (a b : base_uint WIDTH) : base_uint WIDTH := a.add b.neg

/-! ### Shifts -/

/-- `pn[i] |= limb`. -/
def orAt (pn : List Limb) (i : ℕ) (limb : Limb) : List Limb := pn.modify i (· ||| limb)

/-- An iteration of `operator<<=`. -/
def shlStep (WIDTH k shift : ℕ) (a pn : List Limb) (i : ℕ) : List Limb :=
  let pn := if i + k + 1 < WIDTH ∧ shift ≠ 0 then
    orAt pn (i + k + 1) (a.getD i 0 >>> (32 - shift)) else pn
  if i + k < WIDTH then orAt pn (i + k) (a.getD i 0 <<< shift) else pn

/-- An iteration of `operator>>=`; the indices are `int`s and may be negative. -/
def shrStep (k shift : ℕ) (a pn : List Limb) (i : ℕ) : List Limb :=
  let pn := if k + 1 ≤ i ∧ shift ≠ 0 then
    orAt pn (i - k - 1) (a.getD i 0 <<< (32 - shift)) else pn
  if k ≤ i then orAt pn (i - k) (a.getD i 0 >>> shift) else pn

theorem length_shlStep (k shift : ℕ) (a pn : List Limb) (i : ℕ) :
    (shlStep WIDTH k shift a pn i).length = pn.length := by
  unfold shlStep orAt
  dsimp only
  split_ifs <;> simp

theorem length_shrStep (k shift : ℕ) (a pn : List Limb) (i : ℕ) :
    (shrStep k shift a pn i).length = pn.length := by
  unfold shrStep orAt
  dsimp only
  split_ifs <;> simp

theorem length_foldl_step {step : List Limb → ℕ → List Limb}
    (hstep : ∀ pn i, (step pn i).length = pn.length) (is : List ℕ) (pn : List Limb) :
    (is.foldl step pn).length = pn.length := by
  induction is generalizing pn with
  | nil => rfl
  | cons i is ih => rw [List.foldl_cons, ih, hstep]

/-- `operator<<=`. -/
def shl (a : base_uint WIDTH) (shift : ℕ) : base_uint WIDTH :=
  ⟨(List.range WIDTH).foldl (shlStep WIDTH (shift / 32) (shift % 32) a.pn)
      (List.replicate WIDTH 0), by
    rw [length_foldl_step (length_shlStep _ _ _), List.length_replicate]⟩

/-- `operator>>=`. -/
def shr (a : base_uint WIDTH) (shift : ℕ) : base_uint WIDTH :=
  ⟨(List.range WIDTH).foldl (shrStep (shift / 32) (shift % 32) a.pn)
      (List.replicate WIDTH 0), by
    rw [length_foldl_step (length_shrStep _ _ _), List.length_replicate]⟩

/-! ### Comparisons -/

/-- The loop of the four orderings, from the highest limb down: true where `a` is the
smaller one, `equal` where no limb differs. -/
def compareLoop (equal : Bool) : List Limb → List Limb → Bool
  | x :: xs, y :: ys =>
      if x < y then true else if y < x then false else compareLoop equal xs ys
  | _, _ => equal

def lt (a b : base_uint WIDTH) : Bool := compareLoop false a.pn.reverse b.pn.reverse
def le (a b : base_uint WIDTH) : Bool := compareLoop true a.pn.reverse b.pn.reverse
def gt (a b : base_uint WIDTH) : Bool := compareLoop false b.pn.reverse a.pn.reverse
def ge (a b : base_uint WIDTH) : Bool := compareLoop true b.pn.reverse a.pn.reverse

/-- `operator==`. -/
def eq (a b : base_uint WIDTH) : Bool := (List.zip a.pn b.pn).all fun (x, y) => x == y

/-- `operator!=`. -/
def ne (a b : base_uint WIDTH) : Bool := !(eq a b)

/-! ### Operands of 64 bits -/

section Uint64

/-- `operator=(uint64_t)`; there are two limbs at least. -/
def ofUint64 (h : 2 ≤ WIDTH) (b : BitVec 64) : base_uint WIDTH :=
  ⟨b.setWidth 32 :: (b >>> 32).setWidth 32 :: List.replicate (WIDTH - 2) 0, by
    rw [List.length_cons, List.length_cons, List.length_replicate]
    omega⟩

/-- The two limbs of `operator^=(uint64_t)` and `operator|=(uint64_t)`. -/
def lowLimbs (op : Limb → Limb → Limb) (a : base_uint WIDTH) (b : BitVec 64) :
    base_uint WIDTH :=
  ⟨(a.pn.modify 0 fun limb => op limb (b.setWidth 32)).modify 1 fun limb =>
      op limb ((b >>> 32).setWidth 32), by
    rw [List.length_modify, List.length_modify, a.size]⟩

def xor64 (a : base_uint WIDTH) (b : BitVec 64) : base_uint WIDTH := lowLimbs (· ^^^ ·) a b
def or64 (a : base_uint WIDTH) (b : BitVec 64) : base_uint WIDTH := lowLimbs (· ||| ·) a b

def add64 (h : 2 ≤ WIDTH) (a : base_uint WIDTH) (b64 : BitVec 64) : base_uint WIDTH :=
  a.add (ofUint64 h b64)

def sub64 (h : 2 ≤ WIDTH) (a : base_uint WIDTH) (b64 : BitVec 64) : base_uint WIDTH :=
  a.add (ofUint64 h b64).neg

/-- `operator==` with a `uint64_t`. -/
def eq64 (a : base_uint WIDTH) (b : BitVec 64) : Bool :=
  if a.pn.getD 0 0 ≠ b.setWidth 32 then false
  else if a.pn.getD 1 0 ≠ (b >>> 32).setWidth 32 then false
  else (a.pn.drop 2).all fun limb => limb == 0

def ne64 (a : base_uint WIDTH) (b : BitVec 64) : Bool := !(eq64 a b)

end Uint64

/-! ### Hexadecimal digits -/

/-- The memory of the limbs. -/
def bytes (a : base_uint WIDTH) : valtype := a.pn.flatMap fun limb => leBytes 4 limb.toNat

/-- `WIDTH` limbs in memory. -/
def limbsAt : (WIDTH : ℕ) → valtype → List Limb
  | 0, _ => []
  | WIDTH + 1, memory => BitVec.ofNat 32 (readLE (memory.take 4)) :: limbsAt WIDTH (memory.drop 4)

theorem length_limbsAt (WIDTH : ℕ) (memory : valtype) : (limbsAt WIDTH memory).length = WIDTH := by
  induction WIDTH generalizing memory with
  | zero => rfl
  | succ WIDTH ih => rw [limbsAt, List.length_cons, ih]

/-- A digit of `%02x`. -/
def hexChar (d : ℕ) : UInt8 := UInt8.ofNat (if d < 10 then 48 + d else 87 + d)

/-- `sprintf` of a byte with `%02x`. -/
def hexByte (b : UInt8) : CString := [hexChar (b.toNat / 16), hexChar (b.toNat % 16)]

def GetHex (a : base_uint WIDTH) : CString := a.bytes.reverse.flatMap hexByte

/-- The last loop of `SetHex`: digits from the last one back, two to a byte, into a
memory of `room` zero bytes. -/
def fillBytes : (digits : CString) → (room : ℕ) → valtype
  | _, 0 => []
  | [], room + 1 => 0 :: fillBytes [] room
  | [c], room + 1 => UInt8.ofNat (HexDigit c).toNat :: fillBytes [] room
  | c :: c' :: digits, room + 1 =>
      (UInt8.ofNat (HexDigit c).toNat ||| UInt8.ofNat (HexDigit c').toNat <<< 4) ::
        fillBytes digits room

/-- Behind the spaces and an optional `0x`. -/
def skipMarker (psz : CString) : CString :=
  let psz := psz.dropWhile isspace
  if charAt psz 0 = 48 ∧ tolower (charAt psz 1) = 120 then psz.drop 2 else psz

/-- The digits that `SetHex` takes. -/
def hexDigits (psz : CString) : CString := (skipMarker psz).takeWhile fun c => HexDigit c != -1

def SetHex (WIDTH : ℕ) (psz : CString) : base_uint WIDTH :=
  ⟨limbsAt WIDTH (fillBytes (hexDigits psz).reverse (WIDTH * 4)), length_limbsAt _ _⟩

end base_uint
end Ziftrcoin.Spec
