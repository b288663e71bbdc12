/-
Module: Ziftrcoin.Proofs.Compact
Purpose: The compact form of a target as a rounding down: what is lost, the
  order, and which numbers are kept.
Trusted boundary: none
Main exports: compactSize, canonical_getCompact
-/
import Ziftrcoin.Lib.Rounding
import Ziftrcoin.Spec.Block

namespace Ziftrcoin.Spec

open Ziftrcoin.Lib

/-! ### Size and mantissa -/

/-- Bytes of a number and its sign bit. -/
def compactSize (n : ℕ) : ℕ := (n.log2 + 1) / 8 + 1

/-- The three highest bytes of a number of `k` bytes. -/
def mantissa (n k : ℕ) : ℕ :=
  if k ≤ 3 then n * 2 ^ (8 * (3 - k)) else n / 2 ^ (8 * (k - 3))

/-- What the last bit of the mantissa stands for. -/
def compactStep (n : ℕ) : ℕ := 2 ^ (8 * (compactSize n - 3))

theorem compactSize_pos (n : ℕ) : 0 < compactSize n := Nat.succ_pos _

theorem lt_two_pow_compactSize (n : ℕ) : n < 2 ^ (8 * compactSize n - 1) := by
  have hlog : n.log2 + 1 ≤ 8 * compactSize n - 1 := by
    unfold compactSize
    omega
  exact lt_of_lt_of_le Nat.lt_log2_self (Nat.pow_le_pow_right (by decide) hlog)

theorem two_pow_compactSize_le {n : ℕ} (hn : n ≠ 0) : 2 ^ (8 * compactSize n - 9) ≤ n := by
  rw [← Nat.le_log2 hn]
  unfold compactSize
  omega

theorem compactSize_mono {m n : ℕ} (h : m ≤ n) : compactSize m ≤ compactSize n := by
  unfold compactSize
  rcases Nat.eq_zero_or_pos m with rfl | hm
  · rw [Nat.log2_zero]
    omega
  · have hlog : m.log2 ≤ n.log2 :=
      (Nat.le_log2 (by omega)).mpr ((Nat.log2_self_le (by omega)).trans h)
    omega

/-- The size is the only one with these bounds. -/
theorem compactSize_eq {n k : ℕ} (hn : n ≠ 0) (hk : 0 < k) (hlow : 2 ^ (8 * k - 9) ≤ n)
    (hhigh : n < 2 ^ (8 * k - 1)) : compactSize n = k := by
  have hge := (Nat.le_log2 hn).mpr hlow
  have hlt := (Nat.log2_lt hn).mpr hhigh
  unfold compactSize
  omega

theorem mantissa_succ (n k : ℕ) : mantissa n k / 2 ^ 8 = mantissa n (k + 1) := by
  unfold mantissa
  rcases Nat.lt_trichotomy k 3 with hlt | rfl | hgt
  · rw [if_pos (by omega), if_pos (by omega),
      show 8 * (3 - k) = 8 * (3 - (k + 1)) + 8 by omega, Nat.pow_add, ← Nat.mul_assoc,
      Nat.mul_div_cancel _ (by decide)]
  · simp
  · rw [if_neg (by omega), if_neg (by omega), Nat.div_div_eq_div_mul, ← Nat.pow_add]
    congr 2
    omega

theorem mantissa_lt {n k b : ℕ} (hk : 0 < k) (hb : b ≤ 8) (h : n < 2 ^ (8 * k - b)) :
    mantissa n k < 2 ^ (24 - b) := by
  unfold mantissa
  split
  · next hle =>
      calc n * 2 ^ (8 * (3 - k)) < 2 ^ (8 * k - b) * 2 ^ (8 * (3 - k)) :=
            Nat.mul_lt_mul_of_pos_right h (Nat.two_pow_pos _)
        _ = 2 ^ (24 - b) := by
            rw [← Nat.pow_add]
            congr 1
            omega
  · next hgt =>
      apply Nat.div_lt_of_lt_mul
      rw [← Nat.pow_add]
      have hexp : 8 * (k - 3) + (24 - b) = 8 * k - b := by omega
      rw [hexp]
      exact h

theorem le_mantissa {n k b : ℕ} (hb : b ≤ 8 * k) (hb' : b ≤ 24)
    (h : 2 ^ (8 * k - b) ≤ n) : 2 ^ (24 - b) ≤ mantissa n k := by
  unfold mantissa
  split
  · next hle =>
      calc 2 ^ (24 - b) = 2 ^ (8 * k - b) * 2 ^ (8 * (3 - k)) := by
            rw [← Nat.pow_add]
            congr 1
            omega
        _ ≤ n * 2 ^ (8 * (3 - k)) := Nat.mul_le_mul_right _ h
  · next hgt =>
      rw [Nat.le_div_iff_mul_le (Nat.two_pow_pos _), ← Nat.pow_add]
      have hexp : 24 - b + 8 * (k - 3) = 8 * k - b := by omega
      rw [hexp]
      exact h

theorem mantissa_compactSize_lt (n : ℕ) : mantissa n (compactSize n) < 2 ^ 23 :=
  mantissa_lt (compactSize_pos n) (by decide) (lt_two_pow_compactSize n)

theorem testBit_23 {x : ℕ} (h : x < 2 ^ 24) : x.testBit 23 = decide (2 ^ 23 ≤ x) := by
  rw [Nat.testBit_eq_decide_div_mod_eq]
  congr 1
  apply propext
  omega

/-! ### The compact form of a natural number -/

/-- The compact form of a positive number. -/
theorem getCompact_eq {n : ℕ} (hn : n ≠ 0) :
    GetCompact n = mantissa n (compactSize n) + compactSize n * 2 ^ 24 := by
  have hbytes : numBytes n = n.log2 / 8 + 1 := if_neg hn
  have hlog := Nat.log2_self_le hn
  have hlog' := Nat.lt_log2_self (n := n)
  have hraw : mantissa n (numBytes n) < 2 ^ 24 := by
    apply mantissa_lt (b := 0) (by omega) (by decide)
    exact hlog'.trans_le (Nat.pow_le_pow_right (by decide) (by omega))
  have hneg : ¬((n : ℤ) < 0) := by omega
  unfold GetCompact
  rw [Int.natAbs_natCast, if_neg hneg]
  change (if (mantissa n (numBytes n)).testBit 23 = true
      then (mantissa n (numBytes n) / 2 ^ 8, numBytes n + 1)
      else (mantissa n (numBytes n), numBytes n)).1 +
    (if (mantissa n (numBytes n)).testBit 23 = true
      then (mantissa n (numBytes n) / 2 ^ 8, numBytes n + 1)
      else (mantissa n (numBytes n), numBytes n)).2 * 2 ^ 24 + 0 = _
  rw [testBit_23 hraw]
  by_cases hfull : n.log2 % 8 = 7
  · -- The highest byte uses its highest bit: a byte for the sign is added.
    have hsize : compactSize n = numBytes n + 1 := by
      unfold compactSize
      omega
    have hbit : 2 ^ 23 ≤ mantissa n (numBytes n) :=
      le_mantissa (b := 1) (by omega) (by decide)
        ((Nat.pow_le_pow_right (by decide) (by omega)).trans hlog)
    rw [decide_eq_true hbit, if_pos rfl, mantissa_succ, hsize, Nat.add_zero]
  · have hsize : compactSize n = numBytes n := by
      unfold compactSize
      omega
    have hbit : mantissa n (numBytes n) < 2 ^ 23 := by
      rw [← hsize]
      exact mantissa_compactSize_lt n
    rw [decide_eq_false (by omega), if_neg (by decide), hsize, Nat.add_zero]

/-- What `SetCompact` makes of a mantissa without a sign and a size. -/
theorem setCompact_eq {w k : ℕ} (hw : w < 2 ^ 23) :
    SetCompact (w + k * 2 ^ 24) =
      ((if k ≤ 3 then w / 2 ^ (8 * (3 - k)) else w * 2 ^ (8 * (k - 3)) : ℕ) : ℤ) := by
  have hsize : (w + k * 2 ^ 24) / 2 ^ 24 = k := by omega
  have hword : (w + k * 2 ^ 24) % 2 ^ 23 = w := by omega
  have hsign : (w + k * 2 ^ 24).testBit 23 = false := by
    rw [Nat.testBit_eq_decide_div_mod_eq]
    apply decide_eq_false
    omega
  unfold SetCompact
  rw [hsize, hword, hsign]
  simp

theorem compactStep_pos (n : ℕ) : 0 < compactStep n := Nat.two_pow_pos _

/-- A number and its mantissa. -/
theorem roundDown_compactStep (n : ℕ) :
    roundDown compactStep n = if compactSize n ≤ 3
      then mantissa n (compactSize n) / 2 ^ (8 * (3 - compactSize n))
      else mantissa n (compactSize n) * 2 ^ (8 * (compactSize n - 3)) := by
  unfold roundDown compactStep mantissa
  split
  · next hle =>
      rw [Nat.mul_div_cancel _ (Nat.two_pow_pos _), Nat.sub_eq_zero_of_le hle]
      simp
  · rfl

/-- To the compact form and back is to round down. -/
theorem setCompact_getCompact (n : ℕ) :
    SetCompact (GetCompact n) = (roundDown compactStep n : ℕ) := by
  rcases Nat.eq_zero_or_pos n with rfl | hn
  · rw [roundDown_zero]
    decide
  · rw [getCompact_eq (by omega), setCompact_eq (mantissa_compactSize_lt n),
      roundDown_compactStep]

/-! ### The grid -/

theorem two_pow_le_roundDown {n : ℕ} (hn : n ≠ 0) :
    2 ^ (8 * compactSize n - 9) ≤ roundDown compactStep n := by
  have hdvd : compactStep n ∣ 2 ^ (8 * compactSize n - 9) :=
    Nat.pow_dvd_pow 2 (by omega)
  exact le_roundDown_of_dvd (two_pow_compactSize_le hn) hdvd

/-- Rounding down does not change the size. -/
theorem compactSize_roundDown (n : ℕ) :
    compactSize (roundDown compactStep n) = compactSize n := by
  rcases Nat.eq_zero_or_pos n with rfl | hn
  · rw [roundDown_zero]
  · have hlow := two_pow_le_roundDown (n := n) (by omega)
    have hpos := Nat.two_pow_pos (8 * compactSize n - 9)
    exact compactSize_eq (by omega) (compactSize_pos n) hlow
      ((roundDown_le _ n).trans_lt (lt_two_pow_compactSize n))

/-- A size starts at a number that its step divides. -/
theorem grid_compactStep : Grid compactStep where
  pos := compactStep_pos
  cross := by
    intro m n hle hstep
    have hsize : compactSize m < compactSize n := by
      refine lt_of_le_of_ne (compactSize_mono hle) fun heq => hstep ?_
      unfold compactStep
      rw [heq]
    have hn : n ≠ 0 := by
      rintro rfl
      exact absurd (Nat.le_zero.mp hle ▸ hsize) (lt_irrefl _)
    have hlow : 8 * compactSize m - 1 ≤ 8 * compactSize n - 9 := by omega
    refine ⟨2 ^ (8 * compactSize n - 9), ?_, two_pow_compactSize_le hn, ?_⟩
    · exact (lt_two_pow_compactSize m).le.trans (Nat.pow_le_pow_right (by decide) hlow)
    · exact Nat.pow_dvd_pow 2 (by omega)
  stable := fun n => congrArg (fun k => 2 ^ (8 * (k - 3))) (compactSize_roundDown n)

/-- A number with more than three bytes keeps sixteen bits. -/
theorem compactStep_cases (n : ℕ) :
    compactStep n = 1 ∨ compactStep n * 2 ^ 15 ≤ n := by
  by_cases hsize : compactSize n ≤ 3
  · left
    unfold compactStep
    rw [Nat.sub_eq_zero_of_le hsize]
    rfl
  · right
    have hn : n ≠ 0 := by
      rintro rfl
      exact hsize (by decide)
    refine le_trans ?_ (two_pow_compactSize_le hn)
    unfold compactStep
    rw [← Nat.pow_add]
    exact Nat.pow_le_pow_right (by decide) (by omega)

/-- The relative error is below `2^-15`. -/
theorem compact_error_lt {n : ℕ} (hn : 0 < n) :
    (n - roundDown compactStep n) * 2 ^ 15 < n := by
  rcases compactStep_cases n with hone | hstep
  · have hlt := grid_compactStep.lt_roundDown_add n
    have hexact : n - roundDown compactStep n = 0 := by omega
    rw [hexact, Nat.zero_mul]
    exact hn
  · exact grid_compactStep.error_lt hstep (by decide)

/-! ### The order -/

theorem getCompact_le_getCompact {m n : ℕ} (h : m ≤ n) :
    GetCompact m ≤ GetCompact n := by
  rcases Nat.eq_zero_or_pos m with rfl | hm
  · have hzero : GetCompact ((0 : ℕ) : ℤ) = 0 := by decide
    rw [hzero]
    exact Nat.zero_le _
  · rw [getCompact_eq (by omega), getCompact_eq (by omega)]
    rcases Nat.lt_or_eq_of_le (compactSize_mono h) with hlt | heq
    · have hword := mantissa_compactSize_lt m
      omega
    · rw [heq]
      have hword : mantissa m (compactSize n) ≤ mantissa n (compactSize n) := by
        unfold mantissa
        split
        · exact Nat.mul_le_mul_right _ h
        · exact Nat.div_le_div_right h
      omega

/-- `GetCompact` keeps the order of numbers that are not negative. -/
theorem getCompact_mono {x y : ℤ} (hx : 0 ≤ x) (h : x ≤ y) :
    GetCompact x ≤ GetCompact y := by
  lift x to ℕ using hx
  lift y to ℕ using (Int.natCast_nonneg x).trans h
  exact getCompact_le_getCompact (Int.ofNat_le.mp h)

theorem setCompact_getCompact_nonneg {x : ℤ} (hx : 0 ≤ x) :
    0 ≤ SetCompact (GetCompact x) := by
  lift x to ℕ using hx
  rw [setCompact_getCompact]
  exact Int.natCast_nonneg _

theorem setCompact_getCompact_le {x : ℤ} (hx : 0 ≤ x) :
    SetCompact (GetCompact x) ≤ x := by
  lift x to ℕ using hx
  rw [setCompact_getCompact]
  exact Int.ofNat_le.mpr (roundDown_le _ _)

theorem setCompact_getCompact_mono {x y : ℤ} (hx : 0 ≤ x) (h : x ≤ y) :
    SetCompact (GetCompact x) ≤ SetCompact (GetCompact y) := by
  lift x to ℕ using hx
  lift y to ℕ using (Int.natCast_nonneg x).trans h
  rw [setCompact_getCompact, setCompact_getCompact]
  exact Int.ofNat_le.mpr (grid_compactStep.roundDown_mono (Int.ofNat_le.mp h))

theorem setCompact_getCompact_error {x : ℤ} (hx : 0 < x) :
    (x - SetCompact (GetCompact x)) * 2 ^ 15 < x := by
  lift x to ℕ using hx.le
  rw [setCompact_getCompact]
  have herror := compact_error_lt (Int.natCast_pos.mp hx)
  have hle := roundDown_le compactStep x
  omega

/-! ### Canonical forms -/

/-- The number is the compact form of what it stands for. -/
def Canonical (nCompact : ℕ) : Prop := GetCompact (SetCompact nCompact) = nCompact

theorem getCompact_roundDown (n : ℕ) :
    GetCompact (roundDown compactStep n : ℕ) = GetCompact n := by
  apply Nat.le_antisymm
  · exact getCompact_le_getCompact (roundDown_le _ n)
  · rcases Nat.eq_zero_or_pos n with rfl | hn
    · rw [roundDown_zero]
    have hlow := two_pow_le_roundDown (n := n) (by omega)
    have hpos := Nat.two_pow_pos (8 * compactSize n - 9)
    have hsize := compactSize_roundDown n
    rw [getCompact_eq (by omega), getCompact_eq (by omega), hsize]
    apply Nat.add_le_add_right
    unfold mantissa
    split
    · next hle =>
        have hone : compactStep n = 1 := by
          unfold compactStep
          rw [Nat.sub_eq_zero_of_le hle]
          rfl
        rw [roundDown_eq_self_of_dvd (by rw [hone]; exact one_dvd _)]
    · have hquot : roundDown compactStep n / compactStep n = n / compactStep n :=
        Nat.mul_div_cancel _ (compactStep_pos n)
      exact hquot.ge

theorem canonical_getCompact {x : ℤ} (hx : 0 ≤ x) : Canonical (GetCompact x) := by
  lift x to ℕ using hx
  unfold Canonical
  rw [setCompact_getCompact, getCompact_roundDown]

/-- `SetCompact` keeps the order of canonical forms. -/
theorem Canonical.setCompact_mono {a b : ℕ} (ha : Canonical a) (hb : Canonical b)
    (hpos : 0 ≤ SetCompact b) (h : a ≤ b) : SetCompact a ≤ SetCompact b := by
  by_contra hlt
  have hle : b ≤ a := by
    rw [← ha, ← hb]
    exact getCompact_mono hpos (by omega)
  rw [Nat.le_antisymm h hle] at hlt
  exact hlt le_rfl

end Ziftrcoin.Spec
