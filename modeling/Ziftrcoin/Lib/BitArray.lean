/-
Module: Ziftrcoin.Lib.BitArray
Purpose: Byte strings as arrays of bits, eight to a byte.
Trusted boundary: none
-/
import Mathlib.Data.List.Basic

namespace Ziftrcoin.Lib.BitArray

/-- The bit of position `n` within its byte. -/
def mask (n : ℕ) : UInt8 := UInt8.ofNat (1 <<< (7 &&& n))

/-- The bit at position `n`; positions beyond the end are clear. -/
def test (bytes : List UInt8) (n : ℕ) : Bool := bytes.getD (n >>> 3) 0 &&& mask n != 0

def set (bytes : List UInt8) (n : ℕ) : List UInt8 :=
  bytes.modify (n >>> 3) fun b => b ||| mask n

variable {bytes : List UInt8} {m n : ℕ}

@[simp] theorem length_set (bytes : List UInt8) (n : ℕ) : (set bytes n).length = bytes.length :=
  List.length_modify _ _ _

theorem mask_ne_zero (n : ℕ) : mask n ≠ 0 := by
  have hmask : ∀ k : Fin 8, UInt8.ofNat (1 <<< (k : ℕ)) ≠ 0 := by decide
  have hlow : 7 &&& n < 8 := Nat.lt_succ_of_le Nat.and_le_left
  exact hmask ⟨7 &&& n, hlow⟩

theorem and_or (k b l : UInt8) : k &&& (b ||| l) = (k &&& b) ||| (k &&& l) := by
  apply UInt8.toBitVec_inj.mp
  apply BitVec.eq_of_getLsbD_eq
  intro i _
  simp only [UInt8.toBitVec_and, UInt8.toBitVec_or, BitVec.getLsbD_and, BitVec.getLsbD_or,
    Bool.and_or_distrib_left]

theorem and_or_ne_zero {b k : UInt8} (h : b &&& k ≠ 0) (l : UInt8) : (b ||| l) &&& k ≠ 0 := by
  intro hzero
  rw [UInt8.and_comm, and_or, UInt8.or_eq_zero_iff, UInt8.and_comm] at hzero
  exact h hzero.1

/-- Setting a bit clears no other. -/
theorem test_set_of_test (h : test bytes m = true) : test (set bytes n) m = true := by
  unfold test at h ⊢
  rw [bne_iff_ne] at h ⊢
  by_cases hbyte : n >>> 3 = m >>> 3
  · rw [set, hbyte, List.getD_eq_getElem?_getD, List.getElem?_modify_eq]
    rw [List.getD_eq_getElem?_getD] at h
    cases hget : bytes[m >>> 3]? with
    | none =>
        rw [hget] at h
        exact absurd UInt8.zero_and h
    | some b =>
        rw [hget] at h
        exact and_or_ne_zero h _
  · rw [set, List.getD_eq_getElem?_getD, List.getElem?_modify_ne _ _ hbyte,
      ← List.getD_eq_getElem?_getD]
    exact h

theorem test_set_self (h : n < bytes.length * 8) : test (set bytes n) n = true := by
  have hbyte : n >>> 3 < bytes.length := by
    rw [Nat.shiftRight_eq_div_pow]
    omega
  unfold test
  rw [bne_iff_ne, set, List.getD_eq_getElem?_getD, List.getElem?_modify_eq,
    List.getElem?_eq_getElem hbyte, Option.map_eq_map, Option.map_some, Option.getD_some,
    UInt8.and_comm, and_or, UInt8.and_self]
  intro hzero
  exact mask_ne_zero n (UInt8.or_eq_zero_iff.mp hzero).2

theorem test_of_full (hfull : ∀ b ∈ bytes, b = 0xff) (h : n < bytes.length * 8) :
    test bytes n = true := by
  have hbyte : n >>> 3 < bytes.length := by
    rw [Nat.shiftRight_eq_div_pow]
    omega
  have hones : (0xff : UInt8) = -1 := rfl
  unfold test
  rw [bne_iff_ne, List.getD_eq_getElem?_getD, List.getElem?_eq_getElem hbyte, Option.getD_some,
    hfull _ (List.getElem_mem hbyte), hones,
    UInt8.neg_one_and]
  exact mask_ne_zero n

theorem test_of_blank (hblank : ∀ b ∈ bytes, b = 0) (n : ℕ) : test bytes n = false := by
  have hbyte : bytes.getD (n >>> 3) 0 = 0 := by
    rw [List.getD_eq_getElem?_getD]
    cases hget : bytes[n >>> 3]? with
    | none => rfl
    | some b => exact hblank b (List.mem_of_getElem? hget)
  unfold test
  rw [hbyte, UInt8.zero_and]
  rfl

end Ziftrcoin.Lib.BitArray
