/-
Module: Ziftrcoin.Proofs.BaseUint
Purpose: The limb-wise operations compute modulo the size of the number, and a number is
  read back from its hexadecimal digits.
Trusted boundary: none
Main exports: base_uint.toNat, baseUint_arithmetic
-/
import Ziftrcoin.Lib.Radix
import Ziftrcoin.Proofs.NetworkFormat
import Ziftrcoin.Spec.BaseUint

namespace Ziftrcoin.Spec

open Ziftrcoin.Lib Limbs

namespace base_uint

variable {WIDTH : ℕ}

/-- The number that the limbs represent. -/
def toNat (a : base_uint WIDTH) : ℕ := value a.pn

theorem toNat_lt (a : base_uint WIDTH) : a.toNat < 2 ^ (32 * WIDTH) := by
  have h := value_lt (by decide) a.pn
  rw [a.size] at h
  exact h

theorem ext_toNat {a b : base_uint WIDTH} (h : a.toNat = b.toNat) : a = b := by
  obtain ⟨xs, hx⟩ := a
  obtain ⟨ys, hy⟩ := b
  have hsame : xs = ys := value_inj (by decide) (hx.trans hy.symm) h
  subst hsame
  rfl

/-! ### Bitwise operators -/

theorem toNat_not (a : base_uint WIDTH) : a.not.toNat = 2 ^ (32 * WIDTH) - 1 - a.toNat := by
  have h := value_complement a.pn
  rw [a.size] at h
  change value (a.pn.map fun x => ~~~x) = _
  unfold toNat
  omega

theorem toNat_xor (a b : base_uint WIDTH) : (a.xor b).toNat = a.toNat ^^^ b.toNat :=
  value_zipWith (f := Bool.xor) (by decide) (fun x y i _ => BitVec.getLsbD_xor)
    (fun m n i => Nat.testBit_xor ..) rfl (a.size.trans b.size.symm)

theorem toNat_and (a b : base_uint WIDTH) : (a.and b).toNat = a.toNat &&& b.toNat :=
  value_zipWith (f := Bool.and) (by decide) (fun x y i _ => BitVec.getLsbD_and)
    (fun m n i => Nat.testBit_and ..) rfl (a.size.trans b.size.symm)

theorem toNat_or (a b : base_uint WIDTH) : (a.or b).toNat = a.toNat ||| b.toNat :=
  value_zipWith (f := Bool.or) (by decide) (fun x y i _ => BitVec.getLsbD_or)
    (fun m n i => Nat.testBit_or ..) rfl (a.size.trans b.size.symm)

/-! ### Carries -/

theorem value_addLoop {carry : ℕ} (hcarry : carry ≤ 1) {xs ys : List Limb}
    (hlength : xs.length = ys.length) :
    value (addLoop carry xs ys) = (carry + value xs + value ys) % 2 ^ (32 * xs.length) := by
  induction xs generalizing carry ys with
  | nil => simp [addLoop, value, Nat.mod_one]
  | cons x xs ih =>
      cases ys with
      | nil => cases hlength
      | cons y ys =>
          have hx : x.toNat < 2 ^ 32 := x.isLt
          have hy : y.toNat < 2 ^ 32 := y.isLt
          have hsmall : uint64 (carry + x.toNat + y.toNat) = carry + x.toNat + y.toNat :=
            Nat.mod_eq_of_lt (by omega)
          have hsum : carry + value (x :: xs) + value (y :: ys) =
              carry + x.toNat + y.toNat + 2 ^ 32 * (value xs + value ys) := by
            rw [value, value]
            ring
          rw [addLoop, hsmall, value, ih (by omega) (Nat.succ.inj hlength), List.length_cons, hsum,
            add_digit_mod, BitVec.toNat_ofNat, Nat.add_assoc (_ / _)]

theorem toNat_add (a b : base_uint WIDTH) :
    (a.add b).toNat = (a.toNat + b.toNat) % 2 ^ (32 * WIDTH) := by
  have h := value_addLoop (Nat.zero_le 1) (a.size.trans b.size.symm)
  rw [a.size, Nat.zero_add] at h
  exact h

theorem value_incrementLoop (xs : List Limb) :
    value (incrementLoop xs) = (value xs + 1) % 2 ^ (32 * xs.length) := by
  induction xs with
  | nil => simp [incrementLoop, value]
  | cons x xs ih =>
      have hx : x.toNat < 2 ^ 32 := x.isLt
      have hsum : value (x :: xs) + 1 = x.toNat + 1 + 2 ^ 32 * value xs := by
        rw [value]
        ring
      have hstep : (x + 1).toNat = (x.toNat + 1) % 2 ^ 32 := by simp
      rw [hsum, List.length_cons, add_digit_mod, ← hstep, incrementLoop]
      by_cases hzero : x + 1 = 0
      · have hcarry : (x.toNat + 1) / 2 ^ 32 = 1 := by
          rw [hzero] at hstep
          simp only [BitVec.toNat_zero, BitVec.ofNat_eq_ofNat] at hstep
          omega
        rw [hcarry, Nat.add_comm 1]
        by_cases hnil : xs = []
        · rw [if_neg fun h => h.2 hnil, hnil]
          simp [value]
        · rw [if_pos ⟨hzero, hnil⟩, value, ih]
      · have hcarry : (x.toNat + 1) / 2 ^ 32 = 0 := by
          apply Nat.div_eq_of_lt
          by_contra hbig
          apply hzero
          apply BitVec.eq_of_toNat_eq
          rw [hstep]
          simp only [BitVec.toNat_zero, BitVec.ofNat_eq_ofNat]
          omega
        rw [hcarry, Nat.zero_add, Nat.mod_eq_of_lt (value_lt (by decide) xs),
          if_neg fun h => hzero h.1, value]

theorem toNat_increment (a : base_uint WIDTH) :
    a.increment.toNat = (a.toNat + 1) % 2 ^ (32 * WIDTH) := by
  have h := value_incrementLoop a.pn
  rw [a.size] at h
  exact h

theorem value_decrementLoop (xs : List Limb) :
    value (decrementLoop xs) = (value xs + (2 ^ (32 * xs.length) - 1)) % 2 ^ (32 * xs.length) := by
  induction xs with
  | nil => simp [decrementLoop, value]
  | cons x xs ih =>
      have hx : x.toNat < 2 ^ 32 := x.isLt
      have hpos : 0 < 2 ^ (32 * xs.length) := Nat.two_pow_pos _
      have hsum : value (x :: xs) + (2 ^ 32 * 2 ^ (32 * xs.length) - 1) =
          x.toNat + (2 ^ 32 - 1) + 2 ^ 32 * (value xs + (2 ^ (32 * xs.length) - 1)) := by
        rw [value, Nat.mul_add, Nat.mul_sub]
        omega
      have hstep : (x - 1).toNat = (x.toNat + (2 ^ 32 - 1)) % 2 ^ 32 := by
        rw [BitVec.toNat_sub, Nat.add_comm]
        rfl
      rw [List.length_cons, pow_succ_words, hsum, ← pow_succ_words, add_digit_mod, ← hstep,
        decrementLoop]
      by_cases hborrow : x - 1 = -1
      · have hcarry : (x.toNat + (2 ^ 32 - 1)) / 2 ^ 32 = 0 := by
          have hones : (-1 : Limb).toNat = 2 ^ 32 - 1 := rfl
          rw [hborrow, hones] at hstep
          omega
        rw [hcarry, Nat.zero_add]
        by_cases hnil : xs = []
        · rw [if_neg fun h => h.2 hnil, hnil]
          simp [value]
        · rw [if_pos ⟨hborrow, hnil⟩, value, ih]
      · have hne : x.toNat ≠ 0 := by
          intro hzero
          apply hborrow
          apply BitVec.eq_of_toNat_eq
          rw [hstep, hzero]
          rfl
        have hcarry : (x.toNat + (2 ^ 32 - 1)) / 2 ^ 32 = 1 := by omega
        have hwrap : 1 + (value xs + (2 ^ (32 * xs.length) - 1)) =
            value xs + 2 ^ (32 * xs.length) := by omega
        rw [hcarry, hwrap, Nat.add_mod_right, Nat.mod_eq_of_lt (value_lt (by decide) xs),
          if_neg fun h => hborrow h.1, value]

theorem toNat_decrement (a : base_uint WIDTH) :
    a.decrement.toNat = (a.toNat + (2 ^ (32 * WIDTH) - 1)) % 2 ^ (32 * WIDTH) := by
  have h := value_decrementLoop a.pn
  rw [a.size] at h
  exact h

theorem toNat_neg (a : base_uint WIDTH) :
    a.neg.toNat = (2 ^ (32 * WIDTH) - a.toNat) % 2 ^ (32 * WIDTH) := by
  have hlt := a.toNat_lt
  unfold neg
  rw [toNat_increment, toNat_not]
  congr 1
  omega

theorem toNat_sub (a b : base_uint WIDTH) :
    (a.sub b).toNat = (a.toNat + (2 ^ (32 * WIDTH) - b.toNat)) % 2 ^ (32 * WIDTH) := by
  unfold sub
  rw [toNat_add, toNat_neg, Nat.add_mod_mod]

/-! ### Shifts -/

theorem getD_orAt {pn : List Limb} {i j : ℕ} (limb : Limb) (hj : j < pn.length) :
    (orAt pn i limb).getD j 0 = if i = j then pn.getD j 0 ||| limb else pn.getD j 0 := by
  unfold orAt
  rw [List.getD_eq_getElem _ _ (by rw [List.length_modify]; exact hj), List.getElem_modify,
    List.getD_eq_getElem _ _ hj]

theorem length_orAt_if {c : Prop} [Decidable c] (pn : List Limb) (i : ℕ) (limb : Limb) :
    (if c then orAt pn i limb else pn).length = pn.length := by
  split_ifs
  · exact List.length_modify _ _ _
  · rfl

theorem getD_orAt_if {c : Prop} [Decidable c] {pn : List Limb} {i j : ℕ} (limb : Limb)
    (hj : j < pn.length) :
    (if c then orAt pn i limb else pn).getD j 0 =
      if c ∧ i = j then pn.getD j 0 ||| limb else pn.getD j 0 := by
  by_cases hc : c
  · rw [if_pos hc, getD_orAt limb hj]
    simp [hc]
  · rw [if_neg hc, if_neg fun h => hc h.1]

theorem zero_or_limb (x : Limb) : 0 ||| x = x := BitVec.zero_or

theorem or_zero_limb (x : Limb) : x ||| 0 = x := BitVec.or_zero

/-- A bit of a limb that is there under a condition only. -/
theorem getLsbD_if {c : Prop} [Decidable c] (x : Limb) (t : ℕ) :
    (if c then x else 0).getLsbD t = (decide c && x.getLsbD t) := by
  by_cases hc : c
  · rw [if_pos hc, decide_eq_true hc, Bool.true_and]
  · rw [if_neg hc, decide_eq_false hc, Bool.false_and]
    exact BitVec.getLsbD_zero

/-- What an iteration of the left shift does to a limb. -/
theorem getD_shlStep {k s : ℕ} {a pn : List Limb} {i j : ℕ} (hpn : pn.length = WIDTH)
    (hj : j < WIDTH) :
    (shlStep WIDTH k s a pn i).getD j 0 =
      if i + k = j then pn.getD j 0 ||| a.getD i 0 <<< s
      else if s ≠ 0 ∧ i + k + 1 = j then pn.getD j 0 ||| a.getD i 0 >>> (32 - s)
      else pn.getD j 0 := by
  unfold shlStep
  dsimp only
  rw [getD_orAt_if _ (by rw [length_orAt_if]; omega), getD_orAt_if _ (by omega)]
  by_cases hlow : i + k = j
  · rw [if_pos ⟨by omega, hlow⟩, if_neg (by omega), if_pos hlow]
  · rw [if_neg fun h => hlow h.2, if_neg hlow]
    by_cases hhigh : s ≠ 0 ∧ i + k + 1 = j
    · rw [if_pos ⟨⟨by omega, hhigh.1⟩, hhigh.2⟩, if_pos hhigh]
    · rw [if_neg fun h => hhigh ⟨h.1.2, h.2⟩, if_neg hhigh]

/-- What an iteration of the right shift does to a limb. -/
theorem getD_shrStep {k s : ℕ} {a pn : List Limb} {i j : ℕ} (hj : j < pn.length) :
    (shrStep k s a pn i).getD j 0 =
      if i = j + k then pn.getD j 0 ||| a.getD i 0 >>> s
      else if s ≠ 0 ∧ i = j + k + 1 then pn.getD j 0 ||| a.getD i 0 <<< (32 - s)
      else pn.getD j 0 := by
  unfold shrStep
  dsimp only
  rw [getD_orAt_if _ (by rw [length_orAt_if]; omega), getD_orAt_if _ (by omega)]
  by_cases hlow : i = j + k
  · rw [if_pos ⟨by omega, by omega⟩, if_neg (by omega), if_pos hlow]
  · rw [if_neg (by omega), if_neg hlow]
    by_cases hhigh : s ≠ 0 ∧ i = j + k + 1
    · rw [if_pos ⟨⟨by omega, hhigh.1⟩, by omega⟩, if_pos hhigh]
    · rw [if_neg (by omega), if_neg hhigh]

/-- The limbs after `n` iterations of the left shift. -/
theorem getD_shl_steps (k s : ℕ) (a : List Limb) (n : ℕ) {j : ℕ} (hj : j < WIDTH) :
    ((List.range n).foldl (shlStep WIDTH k s a) (List.replicate WIDTH 0)).getD j 0 =
      (if k ≤ j ∧ j < n + k then a.getD (j - k) 0 <<< s else 0) |||
        (if s ≠ 0 ∧ k + 1 ≤ j ∧ j < n + (k + 1) then a.getD (j - (k + 1)) 0 >>> (32 - s)
        else 0) := by
  induction n with
  | zero =>
      rw [if_neg (by omega), if_neg (by omega)]
      simp
  | succ n ih =>
      have hlength : ((List.range n).foldl (shlStep WIDTH k s a) (List.replicate WIDTH 0)).length =
          WIDTH := by
        rw [length_foldl_step (length_shlStep k s a), List.length_replicate]
      rw [List.range_succ, List.foldl_append, List.foldl_cons, List.foldl_nil,
        getD_shlStep hlength hj, ih]
      by_cases hlow : n + k = j
      · -- the limb that gets its lower part
        have hindex : j - k = n := by omega
        have hsame : (s ≠ 0 ∧ k + 1 ≤ j ∧ j < n + (k + 1)) ↔
            (s ≠ 0 ∧ k + 1 ≤ j ∧ j < n + 1 + (k + 1)) := by omega
        rw [if_pos hlow, if_neg (by omega), if_pos (by omega : k ≤ j ∧ j < n + 1 + k), hindex,
          zero_or_limb, BitVec.or_comm]
        simp only [hsame]
      · have hsame : (k ≤ j ∧ j < n + k) ↔ (k ≤ j ∧ j < n + 1 + k) := by omega
        rw [if_neg hlow]
        simp only [hsame]
        by_cases hhigh : s ≠ 0 ∧ n + k + 1 = j
        · -- the limb above it
          have hindex : j - (k + 1) = n := by omega
          rw [if_pos hhigh, if_neg (by omega : ¬ (s ≠ 0 ∧ k + 1 ≤ j ∧ j < n + (k + 1))),
            if_pos (by omega : s ≠ 0 ∧ k + 1 ≤ j ∧ j < n + 1 + (k + 1)), hindex, or_zero_limb]
        · have hsame' : (s ≠ 0 ∧ k + 1 ≤ j ∧ j < n + (k + 1)) ↔
              (s ≠ 0 ∧ k + 1 ≤ j ∧ j < n + 1 + (k + 1)) := by omega
          rw [if_neg hhigh]
          simp only [hsame']

/-- The limbs after `n` iterations of the right shift. -/
theorem getD_shr_steps (k s : ℕ) (a : List Limb) (n : ℕ) {j : ℕ} (hj : j < WIDTH) :
    ((List.range n).foldl (shrStep k s a) (List.replicate WIDTH 0)).getD j 0 =
      (if j + k < n then a.getD (j + k) 0 >>> s else 0) |||
        (if s ≠ 0 ∧ j + k + 1 < n then a.getD (j + k + 1) 0 <<< (32 - s) else 0) := by
  induction n with
  | zero =>
      rw [if_neg (by omega), if_neg (by omega)]
      simp
  | succ n ih =>
      have hlength : ((List.range n).foldl (shrStep k s a) (List.replicate WIDTH 0)).length =
          WIDTH := by
        rw [length_foldl_step (length_shrStep k s a), List.length_replicate]
      rw [List.range_succ, List.foldl_append, List.foldl_cons, List.foldl_nil,
        getD_shrStep (by omega), ih]
      by_cases hlow : n = j + k
      · rw [if_pos hlow, if_neg (by omega), if_neg (by omega), if_pos (by omega),
          if_neg (by omega), hlow]
        simp
      · have hsame : j + k < n ↔ j + k < n + 1 := by omega
        rw [if_neg hlow]
        simp only [hsame]
        by_cases hhigh : s ≠ 0 ∧ n = j + k + 1
        · rw [if_pos hhigh, if_neg (by omega : ¬ (s ≠ 0 ∧ j + k + 1 < n)),
            if_pos (by omega : s ≠ 0 ∧ j + k + 1 < n + 1), hhigh.2,
              or_zero_limb]
        · have hsame' : (s ≠ 0 ∧ j + k + 1 < n) ↔ (s ≠ 0 ∧ j + k + 1 < n + 1) := by omega
          rw [if_neg hhigh]
          simp only [hsame']

theorem toNat_shl (a : base_uint WIDTH) (shift : ℕ) :
    (a.shl shift).toNat = a.toNat * 2 ^ shift % 2 ^ (32 * WIDTH) := by
  apply Nat.eq_of_testBit_eq
  intro p
  obtain ⟨j, t, rfl, ht⟩ := exists_bit (w := 32) (by decide) p
  rw [Nat.testBit_mod_two_pow, ← Nat.shiftLeft_eq, Nat.testBit_shiftLeft]
  unfold toNat
  rw [testBit_value _ _ ht]
  by_cases hj : j < WIDTH
  · have hlimb := getD_shl_steps (shift / 32) (shift % 32) a.pn WIDTH hj
    change (a.shl shift).pn.getD j 0 = _ at hlimb
    rw [hlimb, decide_eq_true (by omega : 32 * j + t < 32 * WIDTH), Bool.true_and,
      BitVec.getLsbD_or, getLsbD_if, getLsbD_if, BitVec.getLsbD_shiftLeft,
      BitVec.getLsbD_ushiftRight]
    by_cases hlow : shift % 32 ≤ t
    · -- the bit comes from the limb `shift / 32` below
      rw [BitVec.getLsbD_of_ge _ (32 - shift % 32 + t) (by omega), Bool.and_false, Bool.or_false,
        decide_eq_true ht, decide_eq_false (by omega : ¬ t < shift % 32), Bool.not_false,
        Bool.true_and, Bool.true_and]
      by_cases hk : shift / 32 ≤ j
      · have hindex : 32 * j + t - shift = 32 * (j - shift / 32) + (t - shift % 32) := by omega
        rw [hindex, testBit_value _ _ (by omega), decide_eq_true (by omega),
          decide_eq_true (by omega : 32 * j + t ≥ shift)]
      · rw [decide_eq_false (by omega), decide_eq_false (by omega : ¬ 32 * j + t ≥ shift),
          Bool.false_and, Bool.false_and]
    · -- the bit comes from the limb one further below
      rw [decide_eq_true (by omega : t < shift % 32), Bool.not_true, Bool.and_false,
        Bool.false_and, Bool.and_false, Bool.false_or]
      by_cases hk : shift / 32 + 1 ≤ j
      · have hindex : 32 * j + t - shift =
            32 * (j - (shift / 32 + 1)) + (32 - shift % 32 + t) := by omega
        rw [hindex, testBit_value _ _ (by omega), decide_eq_true (by omega),
          decide_eq_true (by omega : 32 * j + t ≥ shift)]
      · rw [decide_eq_false (by omega), decide_eq_false (by omega : ¬ 32 * j + t ≥ shift),
          Bool.false_and, Bool.false_and]
  · rw [getD_of_le (by rw [(a.shl shift).size]; omega),
      decide_eq_false (by omega : ¬ 32 * j + t < 32 * WIDTH), Bool.false_and]
    exact BitVec.getLsbD_zero

theorem toNat_shr (a : base_uint WIDTH) (shift : ℕ) :
    (a.shr shift).toNat = a.toNat / 2 ^ shift := by
  apply Nat.eq_of_testBit_eq
  intro p
  obtain ⟨j, t, rfl, ht⟩ := exists_bit (w := 32) (by decide) p
  rw [← Nat.shiftRight_eq_div_pow, Nat.testBit_shiftRight]
  unfold toNat
  rw [testBit_value _ _ ht]
  by_cases hj : j < WIDTH
  · have hlimb := getD_shr_steps (shift / 32) (shift % 32) a.pn WIDTH hj
    change (a.shr shift).pn.getD j 0 = _ at hlimb
    rw [hlimb, BitVec.getLsbD_or, getLsbD_if, getLsbD_if, BitVec.getLsbD_shiftLeft,
      BitVec.getLsbD_ushiftRight]
    by_cases hlow : shift % 32 + t < 32
    · -- the bit comes from the limb `shift / 32` above
      have hindex : shift + (32 * j + t) = 32 * (j + shift / 32) + (shift % 32 + t) := by omega
      have hsecond : (decide (shift % 32 ≠ 0 ∧ j + shift / 32 + 1 < WIDTH) &&
          (decide (t < 32) && !decide (t < 32 - shift % 32) &&
            (a.pn.getD (j + shift / 32 + 1) 0).getLsbD (t - (32 - shift % 32)))) = false := by
        rw [decide_eq_true (by omega : t < 32 - shift % 32), Bool.not_true, Bool.and_false,
          Bool.false_and, Bool.and_false]
      rw [hsecond, Bool.or_false, hindex, testBit_value _ _ hlow]
      by_cases hk : j + shift / 32 < WIDTH
      · rw [decide_eq_true hk, Bool.true_and]
      · rw [decide_eq_false hk, Bool.false_and, getD_of_le (by rw [a.size]; omega)]
        exact BitVec.getLsbD_zero.symm
    · -- the bit comes from the limb one further above
      have hindex : shift + (32 * j + t) =
          32 * (j + shift / 32 + 1) + (t - (32 - shift % 32)) := by omega
      rw [BitVec.getLsbD_of_ge _ (shift % 32 + t) (by omega), Bool.and_false, Bool.false_or,
        decide_eq_true ht, decide_eq_false (by omega : ¬ t < 32 - shift % 32), Bool.not_false,
        Bool.true_and, Bool.true_and, hindex, testBit_value _ _ (by omega)]
      by_cases hk : j + shift / 32 + 1 < WIDTH
      · rw [decide_eq_true (by omega), Bool.true_and]
      · rw [decide_eq_false (by omega), Bool.false_and, getD_of_le (by rw [a.size]; omega)]
        exact BitVec.getLsbD_zero.symm
  · have hlt : a.toNat < 2 ^ (shift + (32 * j + t)) :=
      Nat.lt_of_lt_of_le a.toNat_lt (Nat.pow_le_pow_right (by decide) (by omega))
    rw [getD_of_le (by rw [(a.shr shift).size]; omega)]
    exact BitVec.getLsbD_zero.trans (Nat.testBit_lt_two_pow hlt).symm

/-! ### Comparisons -/

theorem value_concat (xs : List Limb) (x : Limb) :
    value (xs ++ [x]) = value xs + 2 ^ (32 * xs.length) * x.toNat := by
  rw [value_append, value, value, Nat.mul_zero, Nat.add_zero]

/-- The highest limb that differs decides. -/
theorem value_concat_lt {xs ys : List Limb} (hlength : xs.length = ys.length) {x y : Limb}
    (h : x < y) : value (xs ++ [x]) < value (ys ++ [y]) := by
  have hxs := value_lt (by decide) xs
  have hmul : 2 ^ (32 * xs.length) * (x.toNat + 1) ≤ 2 ^ (32 * xs.length) * y.toNat :=
    Nat.mul_le_mul_left _ (BitVec.lt_def.mp h)
  rw [value_concat, value_concat, ← hlength]
  rw [Nat.mul_add, Nat.mul_one] at hmul
  omega

theorem compareLoop_eq (equal : Bool) {xs ys : List Limb} (hlength : xs.length = ys.length) :
    compareLoop equal xs ys =
      if value xs.reverse < value ys.reverse then true
      else if value ys.reverse < value xs.reverse then false else equal := by
  induction xs generalizing ys with
  | nil =>
      obtain rfl : ys = [] := List.eq_nil_of_length_eq_zero hlength.symm
      simp [compareLoop]
  | cons x xs ih =>
      cases ys with
      | nil => cases hlength
      | cons y ys =>
          have htail : xs.length = ys.length := Nat.succ.inj hlength
          have hreverse : xs.reverse.length = ys.reverse.length := by
            rw [List.length_reverse, List.length_reverse, htail]
          rw [compareLoop, List.reverse_cons, List.reverse_cons]
          by_cases hlt : x < y
          · rw [if_pos hlt, if_pos (value_concat_lt hreverse hlt)]
          · rw [if_neg hlt]
            by_cases hgt : y < x
            · have hvalue := value_concat_lt hreverse.symm hgt
              rw [if_pos hgt, if_neg (Nat.lt_asymm hvalue), if_pos hvalue]
            · have hsame : x = y :=
                BitVec.le_antisymm (BitVec.not_lt.mp hgt) (BitVec.not_lt.mp hlt)
              rw [if_neg hgt, ih htail, hsame, value_concat, value_concat, hreverse]
              simp only [Nat.add_lt_add_iff_right]

theorem compareLoop_reverse (equal : Bool) (a b : base_uint WIDTH) :
    compareLoop equal a.pn.reverse b.pn.reverse =
      if a.toNat < b.toNat then true else if b.toNat < a.toNat then false else equal := by
  have hlength : a.pn.reverse.length = b.pn.reverse.length := by
    rw [List.length_reverse, List.length_reverse, a.size, b.size]
  have h := compareLoop_eq equal hlength
  rw [List.reverse_reverse, List.reverse_reverse] at h
  exact h

theorem lt_eq (a b : base_uint WIDTH) : a.lt b = decide (a.toNat < b.toNat) := by
  unfold lt
  rw [compareLoop_reverse]
  split_ifs with h <;> simp [h]

theorem le_eq (a b : base_uint WIDTH) : a.le b = decide (a.toNat ≤ b.toNat) := by
  unfold le
  rw [compareLoop_reverse]
  split_ifs with h h'
  · exact (decide_eq_true h.le).symm
  · exact (decide_eq_false (Nat.not_le.mpr h')).symm
  · exact (decide_eq_true (Nat.not_lt.mp h')).symm

theorem gt_eq (a b : base_uint WIDTH) : a.gt b = decide (b.toNat < a.toNat) := lt_eq b a

theorem ge_eq (a b : base_uint WIDTH) : a.ge b = decide (b.toNat ≤ a.toNat) := le_eq b a

theorem all_zip_eq {xs ys : List Limb} (hlength : xs.length = ys.length) :
    ((List.zip xs ys).all fun (x, y) => x == y) = decide (xs = ys) := by
  induction xs generalizing ys with
  | nil =>
      obtain rfl : ys = [] := List.eq_nil_of_length_eq_zero hlength.symm
      rfl
  | cons x xs ih =>
      cases ys with
      | nil => cases hlength
      | cons y ys =>
          rw [List.zip_cons_cons, List.all_cons, ih (Nat.succ.inj hlength)]
          simp [Bool.beq_eq_decide_eq]

theorem eq_eq (a b : base_uint WIDTH) : a.eq b = decide (a.toNat = b.toNat) := by
  unfold eq
  rw [all_zip_eq (a.size.trans b.size.symm)]
  apply decide_eq_decide.mpr
  exact ⟨fun h => congrArg value h, fun h => congrArg pn (ext_toNat h)⟩

theorem ne_eq (a b : base_uint WIDTH) : a.ne b = decide (a.toNat ≠ b.toNat) := by
  unfold ne
  rw [eq_eq]
  simp

/-! ### Operands of 64 bits -/

theorem toNat_ofUint64 (h : 2 ≤ WIDTH) (b : BitVec 64) : (ofUint64 h b).toNat = b.toNat := by
  have hb : b.toNat < 2 ^ 64 := b.isLt
  change value (_ :: _ :: List.replicate (WIDTH - 2) 0) = _
  rw [value, value, value_replicate_zero, BitVec.toNat_setWidth, BitVec.toNat_setWidth,
    BitVec.toNat_ushiftRight, Nat.shiftRight_eq_div_pow]
  omega

theorem exists_two_limbs (h : 2 ≤ WIDTH) (a : base_uint WIDTH) :
    ∃ x y xs, ∃ hsize : (x :: y :: xs : List Limb).length = WIDTH, a = ⟨x :: y :: xs, hsize⟩ := by
  obtain ⟨xs, hsize⟩ := a
  cases xs with
  | nil => exact absurd (h.trans_eq hsize.symm) (by decide)
  | cons x xs =>
      cases xs with
      | nil => exact absurd (h.trans_eq hsize.symm) (Nat.not_succ_le_self 1)
      | cons y xs => exact ⟨x, y, xs, hsize, rfl⟩

/-- Two limbs are combined, and the others are left as they are. -/
theorem lowLimbs_eq (h : 2 ≤ WIDTH) {op : Limb → Limb → Limb} (hop : ∀ x, op x 0 = x)
    (a : base_uint WIDTH) (b : BitVec 64) : lowLimbs op a b = limbwise op a (ofUint64 h b) := by
  obtain ⟨_, _, xs, hsize, rfl⟩ := exists_two_limbs h a
  have hlength : WIDTH - 2 = xs.length := by
    rw [← hsize]
    rfl
  have htail : ∀ zs : List Limb, List.zipWith op zs (List.replicate zs.length 0#32) = zs := by
    intro zs
    induction zs with
    | nil => rfl
    | cons z zs ih =>
        rw [List.length_cons, List.replicate_succ, List.zipWith_cons_cons, ih]
        exact congrArg (· :: zs) (hop z)
  simp [lowLimbs, limbwise, ofUint64, hlength, htail xs]

theorem xor64_eq (h : 2 ≤ WIDTH) (a : base_uint WIDTH) (b : BitVec 64) :
    a.xor64 b = a.xor (ofUint64 h b) :=
  lowLimbs_eq h (fun _ => BitVec.xor_zero) a b

theorem or64_eq (h : 2 ≤ WIDTH) (a : base_uint WIDTH) (b : BitVec 64) :
    a.or64 b = a.or (ofUint64 h b) :=
  lowLimbs_eq h or_zero_limb a b

theorem eq64_eq (h : 2 ≤ WIDTH) (a : base_uint WIDTH) (b : BitVec 64) :
    a.eq64 b = a.eq (ofUint64 h b) := by
  obtain ⟨_, _, xs, hsize, rfl⟩ := exists_two_limbs h a
  have hlength : WIDTH - 2 = xs.length := by
    rw [← hsize]
    rfl
  have htail : ∀ zs : List Limb, (zs.all fun limb => limb == 0) =
      (List.zip zs (List.replicate zs.length 0)).all fun (x, y) => x == y := by
    intro zs
    induction zs with
    | nil => rfl
    | cons z zs ih => rw [List.length_cons, List.replicate_succ, List.zip_cons_cons, List.all_cons,
        List.all_cons, ih]
  unfold eq64 eq ofUint64
  simp only [List.getD_cons_zero, List.getD_cons_succ, List.drop_succ_cons, List.drop_zero, htail,
    hlength, List.zip_cons_cons, List.all_cons]
  split_ifs with hlow hhigh
  · rw [beq_false_of_ne hlow, Bool.false_and]
  · rw [beq_false_of_ne hhigh, Bool.false_and, Bool.and_false]
  · rw [beq_iff_eq.mpr (not_not.mp hlow), beq_iff_eq.mpr (not_not.mp hhigh), Bool.true_and,
      Bool.true_and]

theorem ne64_eq (h : 2 ≤ WIDTH) (a : base_uint WIDTH) (b : BitVec 64) :
    a.ne64 b = a.ne (ofUint64 h b) :=
  congrArg Bool.not (eq64_eq h a b)

end base_uint

/-! ### Hexadecimal numbers -/

/-- The value of a hexadecimal digit. -/
def hexDigit? (c : UInt8) : Option ℕ :=
  if 48 ≤ c.toNat ∧ c.toNat ≤ 57 then some (c.toNat - 48)
  else if 65 ≤ c.toNat ∧ c.toNat ≤ 70 then some (c.toNat - 55)
  else if 97 ≤ c.toNat ∧ c.toNat ≤ 102 then some (c.toNat - 87)
  else none

/-- The number that a string of hexadecimal digits denotes. -/
def hexValue (digits : CString) : ℕ := digits.foldl (fun v c => 16 * v + (hexDigit? c).getD 0) 0

/-- The marker in front of a hexadecimal number. -/
def IsMarker (s : CString) : Prop := s = chars ['0', 'x'] ∨ s = chars ['0', 'X']

/-- `digits` are the hexadecimal digits of `psz` behind spaces and an optional marker, as
many as there are. -/
def HexNumber (psz digits : CString) : Prop :=
  ∃ before marker rest : CString, psz = before ++ marker ++ (digits ++ rest) ∧
    (∀ c ∈ before, isspace c = true) ∧
    (IsMarker marker ∨ (marker = [] ∧ (∀ c ∈ (digits ++ rest).head?, isspace c = false) ∧
      ¬ IsMarker ((digits ++ rest).take 2))) ∧
    (∀ c ∈ digits, (hexDigit? c).isSome) ∧ ∀ c ∈ rest.head?, hexDigit? c = none

theorem hexDigit_eq (c : UInt8) :
    HexDigit c = match hexDigit? c with
      | some d => d
      | none => -1 := by
  revert c
  apply forall_char
  decide +kernel

theorem hexDigit?_lt {c : UInt8} {d : ℕ} (h : hexDigit? c = some d) : d < 16 := by
  unfold hexDigit? at h
  split_ifs at h <;> cases h <;> omega

theorem hexDigit_eq_neg_one_iff (c : UInt8) : HexDigit c = -1 ↔ hexDigit? c = none := by
  rw [hexDigit_eq]
  cases hexDigit? c with
  | none => exact iff_of_true rfl rfl
  | some d => exact iff_of_false (fun h => nomatch h) (fun h => nomatch h)

theorem isSome_of_hexDigit {c : UInt8} (h : (HexDigit c != -1) = true) : (hexDigit? c).isSome := by
  rw [Option.isSome_iff_ne_none]
  intro hnone
  exact bne_iff_ne.mp h ((hexDigit_eq_neg_one_iff c).mpr hnone)

theorem hexDigit_bne_of_isSome {c : UInt8} (h : (hexDigit? c).isSome) :
    (HexDigit c != -1) = true := by
  apply bne_iff_ne.mpr
  intro heq
  rw [(hexDigit_eq_neg_one_iff c).mp heq] at h
  cases h

/-- What the last loop of the reader adds up, the last digit first. -/
def hexValueBack (digits : CString) : ℕ :=
  digits.foldr (fun c v => 16 * v + (hexDigit? c).getD 0) 0

theorem hexValue_eq (digits : CString) : hexValue digits = hexValueBack digits.reverse := by
  unfold hexValue hexValueBack
  rw [List.foldr_reverse]

theorem hexDigit_toNat {c : UInt8} (h : (hexDigit? c).isSome) :
    (HexDigit c).toNat = (hexDigit? c).getD 0 ∧ (hexDigit? c).getD 0 < 16 := by
  obtain ⟨d, hd⟩ := Option.isSome_iff_exists.mp h
  rw [hexDigit_eq, hd]
  exact ⟨rfl, hexDigit?_lt hd⟩

/-- Two digits in one byte. -/
theorem toNat_twoDigits : ∀ d < 16, ∀ d' < 16,
    (UInt8.ofNat d ||| UInt8.ofNat d' <<< 4).toNat = d + 16 * d' := by
  decide +kernel

namespace base_uint

variable {WIDTH : ℕ}

theorem readLE_fillBytes {digits : CString} (hdigits : ∀ c ∈ digits, (hexDigit? c).isSome)
    (room : ℕ) : readLE (fillBytes digits room) = hexValueBack digits % 256 ^ room := by
  induction digits, room using fillBytes.induct with
  | case1 digits => simp [fillBytes, readLE, Nat.mod_one]
  | case2 room ih =>
      rw [fillBytes, readLE, ih fun _ h => absurd h List.not_mem_nil]
      simp [hexValueBack]
  | case3 c room ih =>
      obtain ⟨hvalue, hlt⟩ := hexDigit_toNat (hdigits c List.mem_cons_self)
      have hpow : 256 ≤ 256 ^ (room + 1) := Nat.le_self_pow (Nat.succ_ne_zero room) 256
      have hback : hexValueBack [c] = (hexDigit? c).getD 0 := by simp [hexValueBack]
      have hrest : readLE (fillBytes [] room) = 0 := by
        rw [ih fun _ h => absurd h List.not_mem_nil]
        simp [hexValueBack]
      rw [fillBytes, readLE, hrest, hvalue, hback, Nat.mod_eq_of_lt (by omega),
        UInt8.toNat_ofNat']
      omega
  | case4 c c' digits room ih =>
      obtain ⟨hvalue, hlt⟩ := hexDigit_toNat (hdigits c List.mem_cons_self)
      obtain ⟨hvalue', hlt'⟩ := hexDigit_toNat
        (hdigits c' (List.mem_cons_of_mem _ List.mem_cons_self))
      have hlow : (hexDigit? c).getD 0 + 16 * (hexDigit? c').getD 0 < 256 := by omega
      have hback : hexValueBack (c :: c' :: digits) =
          (hexDigit? c).getD 0 + 16 * (hexDigit? c').getD 0 + 256 * hexValueBack digits := by
        simp only [hexValueBack, List.foldr_cons]
        omega
      rw [fillBytes, readLE, hvalue, hvalue', toNat_twoDigits _ hlt _ hlt', hback,
        ih fun d hd => hdigits d (List.mem_cons_of_mem _ (List.mem_cons_of_mem _ hd)),
        Nat.pow_succ', Nat.mod_mul, Nat.add_mul_mod_self_left, Nat.add_mul_div_left _ _ (by decide),
        Nat.div_eq_of_lt hlow, Nat.mod_eq_of_lt hlow, Nat.zero_add]

theorem length_fillBytes (digits : CString) (room : ℕ) : (fillBytes digits room).length = room := by
  induction digits, room using fillBytes.induct with
  | case1 digits => simp [fillBytes]
  | case2 room ih => rw [fillBytes, List.length_cons, ih]
  | case3 c room ih => rw [fillBytes, List.length_cons, ih]
  | case4 c c' digits room ih => rw [fillBytes, List.length_cons, ih]

theorem word_bytes : 256 ^ 4 = 2 ^ 32 := by decide

theorem value_limbsAt {memory : valtype} (hlength : memory.length = WIDTH * 4) :
    value (limbsAt WIDTH memory) = readLE memory := by
  induction WIDTH generalizing memory with
  | zero =>
      obtain rfl : memory = [] := List.eq_nil_of_length_eq_zero (by omega)
      rfl
  | succ WIDTH ih =>
      have htake : (memory.take 4).length = 4 := by
        rw [List.length_take]
        omega
      have hlow := readLE_lt (memory.take 4)
      have hsplit := readLE_append (memory.take 4) (memory.drop 4)
      rw [List.take_append_drop, htake] at hsplit
      rw [htake] at hlow
      rw [limbsAt, value, ih (by rw [List.length_drop]; omega), BitVec.toNat_ofNat,
        Nat.mod_eq_of_lt (by omega), hsplit, word_bytes]

theorem readLE_limbs (xs : List Limb) :
    readLE (xs.flatMap fun limb => leBytes 4 limb.toNat) = value xs := by
  induction xs with
  | nil => rfl
  | cons x xs ih =>
      have hx : x.toNat < 2 ^ 32 := x.isLt
      rw [List.flatMap_cons, readLE_append, ih, readLE_leBytes, leBytes_length, value, word_bytes,
        Nat.mod_eq_of_lt hx]

theorem readLE_bytes (a : base_uint WIDTH) : readLE a.bytes = a.toNat := readLE_limbs a.pn

/-! ### Reading -/

theorem tolower_eq_x {c : UInt8} : tolower c = 120 → c = 120 ∨ c = 88 := by
  revert c
  apply forall_char
  decide +kernel

theorem tolower_nul_ne : tolower 0 ≠ 120 := by decide

theorem isMarker_take_iff (s : CString) :
    IsMarker (s.take 2) ↔ charAt s 0 = 48 ∧ tolower (charAt s 1) = 120 := by
  match s with
  | [] => exact iff_of_false (fun h => nomatch h) (fun h => absurd h.1 (by decide))
  | [c] => exact iff_of_false (fun h => nomatch h) (fun h => absurd h.2 tolower_nul_ne)
  | c :: c' :: s =>
      constructor
      · rintro (h | h)
        all_goals
          obtain ⟨rfl, h'⟩ := List.cons.inj h
          obtain ⟨rfl, _⟩ := List.cons.inj h'
          exact ⟨rfl, rfl⟩
      · rintro ⟨hzero, hx⟩
        have hzero' : c = 48 := hzero
        subst hzero'
        obtain h | h := tolower_eq_x hx
        · have h' : c' = 120 := h
          exact Or.inl (by rw [h']; rfl)
        · have h' : c' = 88 := h
          exact Or.inr (by rw [h']; rfl)

theorem dropWhile_isspace_of_head {s : CString} (h : ∀ c ∈ s.head?, isspace c = false) :
    s.dropWhile isspace = s := by
  cases s with
  | nil => rfl
  | cons c s =>
      rw [List.dropWhile_cons_of_neg]
      rw [h c rfl]
      exact Bool.false_ne_true

theorem hexDigits_eq {psz digits : CString} (h : HexNumber psz digits) :
    hexDigits psz = digits := by
  obtain ⟨before, marker, rest, rfl, hbefore, hmarker, hdigits, hrest⟩ := h
  have hskip : skipMarker (before ++ marker ++ (digits ++ rest)) = digits ++ rest := by
    unfold skipMarker
    rw [List.append_assoc, List.dropWhile_append_of_pos hbefore]
    obtain (rfl | rfl) | ⟨rfl, hspace, hnot⟩ := hmarker
    · rfl
    · rfl
    · rw [List.nil_append, dropWhile_isspace_of_head hspace]
      exact if_neg fun h => hnot ((isMarker_take_iff _).mpr h)
  have htake : (digits ++ rest).takeWhile (fun c => HexDigit c != -1) = digits := by
    rw [List.takeWhile_append_of_pos fun c hc => hexDigit_bne_of_isSome (hdigits c hc)]
    cases rest with
    | nil => simp
    | cons c rest =>
        have hc := (hexDigit_eq_neg_one_iff c).mpr (hrest c rfl)
        rw [List.takeWhile_cons_of_neg (by simp [hc]), List.append_nil]
  unfold hexDigits
  rw [hskip, htake]

/-- Every string has its hexadecimal digits. -/
theorem hexNumber_hexDigits (psz : CString) : HexNumber psz (hexDigits psz) := by
  have hspaces : ∀ c ∈ psz.takeWhile isspace, isspace c = true := fun c hc =>
    List.mem_takeWhile_imp hc
  have hdigits : ∀ c ∈ hexDigits psz, (hexDigit? c).isSome := fun c hc =>
    isSome_of_hexDigit (List.mem_takeWhile_imp (p := fun c => HexDigit c != -1) hc)
  have hsplit := List.takeWhile_append_dropWhile (p := fun c => HexDigit c != -1)
    (l := skipMarker psz)
  have hrest : ∀ c ∈ ((skipMarker psz).dropWhile fun c => HexDigit c != -1).head?,
      hexDigit? c = none := by
    intro c hc
    have hnot := List.head?_dropWhile_not (fun c => HexDigit c != -1) (skipMarker psz)
    rw [Option.mem_def.mp hc] at hnot
    exact (hexDigit_eq_neg_one_iff c).mp (by simpa using hnot)
  have hwhole := List.takeWhile_append_dropWhile (p := isspace) (l := psz)
  by_cases hmarker : IsMarker ((psz.dropWhile isspace).take 2)
  · have hskip : skipMarker psz = (psz.dropWhile isspace).drop 2 :=
      if_pos ((isMarker_take_iff _).mp hmarker)
    refine ⟨psz.takeWhile isspace, (psz.dropWhile isspace).take 2, _, ?_, hspaces,
      Or.inl hmarker, hdigits, hrest⟩
    unfold hexDigits
    rw [hsplit, hskip, List.append_assoc, List.take_append_drop, hwhole]
  · have hskip : skipMarker psz = psz.dropWhile isspace :=
      if_neg fun h => hmarker ((isMarker_take_iff _).mpr h)
    have hself : hexDigits psz ++ (skipMarker psz).dropWhile (fun c => HexDigit c != -1) =
        psz.dropWhile isspace := hsplit.trans hskip
    refine ⟨psz.takeWhile isspace, [], _, ?_, hspaces, Or.inr ⟨rfl, ?_, ?_⟩, hdigits, hrest⟩
    · rw [hself, List.append_nil, hwhole]
    · rw [hself]
      intro c hc
      have hnot := List.head?_dropWhile_not isspace psz
      rw [Option.mem_def.mp hc] at hnot
      simpa using hnot
    · rw [hself]
      exact hmarker

theorem toNat_setHex {psz digits : CString} (h : HexNumber psz digits) :
    (SetHex WIDTH psz).toNat = hexValue digits % 2 ^ (32 * WIDTH) := by
  have hdigits : ∀ c ∈ (hexDigits psz).reverse, (hexDigit? c).isSome := by
    rw [hexDigits_eq h]
    obtain ⟨_, _, _, _, _, _, hdigits, _⟩ := h
    intro c hc
    exact hdigits c (List.mem_reverse.mp hc)
  have hpow : 256 ^ (WIDTH * 4) = 2 ^ (32 * WIDTH) := by
    rw [Nat.mul_comm, Nat.pow_mul, word_bytes, Nat.pow_mul]
  change value (limbsAt WIDTH _) = _
  rw [value_limbsAt (length_fillBytes _ _), readLE_fillBytes hdigits, hexDigits_eq h,
    ← hexValue_eq, hpow]

/-! ### Writing -/

theorem hexDigit?_hexChar : ∀ d < 16, hexDigit? (hexChar d) = some d := by decide

theorem hexValue_hexByte (digits : CString) (b : UInt8) :
    hexValue (digits ++ hexByte b) = 256 * hexValue digits + b.toNat := by
  have hb : b.toNat < 256 := b.toNat_lt
  unfold hexValue hexByte
  rw [List.foldl_append, List.foldl_cons, List.foldl_cons, List.foldl_nil,
    hexDigit?_hexChar _ (by omega), hexDigit?_hexChar _ (by omega)]
  simp only [Option.getD_some]
  omega

theorem hexValue_reverse (bs : valtype) : hexValue (bs.reverse.flatMap hexByte) = readLE bs := by
  induction bs with
  | nil => rfl
  | cons b bs ih =>
      rw [List.reverse_cons, List.flatMap_append, List.flatMap_singleton, hexValue_hexByte, ih,
        readLE, Nat.add_comm]

theorem isSome_of_mem_hexByte {bs : valtype} {c : UInt8} (hc : c ∈ bs.flatMap hexByte) :
    (hexDigit? c).isSome := by
  obtain ⟨b, _, hc⟩ := List.mem_flatMap.mp hc
  have hb : b.toNat < 256 := b.toNat_lt
  obtain rfl | hc := List.mem_cons.mp hc
  · rw [hexDigit?_hexChar _ (by omega)]
    rfl
  · rw [List.mem_singleton.mp hc, hexDigit?_hexChar _ (by omega)]
    rfl

theorem not_isspace_of_hexDigit {c : UInt8} : (hexDigit? c).isSome → isspace c = false := by
  revert c
  apply forall_char
  decide +kernel

/-- Digits alone are a number without a marker. -/
theorem hexNumber_self {digits : CString} (hdigits : ∀ c ∈ digits, (hexDigit? c).isSome) :
    HexNumber digits digits := by
  refine ⟨[], [], [], by simp, List.forall_mem_nil _, Or.inr ⟨rfl, ?_, ?_⟩, hdigits,
    fun _ h => nomatch h⟩
  · intro c hc
    rw [List.append_nil] at hc
    exact not_isspace_of_hexDigit (hdigits c (List.mem_of_mem_head? hc))
  · rw [List.append_nil]
    -- an x is no digit
    have hx : ∀ x : UInt8, digits.take 2 = [48, x] → (hexDigit? x).isSome := by
      intro x htake
      apply hdigits x
      apply List.mem_of_mem_take (i := 2)
      rw [htake]
      exact List.mem_cons_of_mem _ List.mem_cons_self
    rintro (h | h)
    · exact absurd (hx 120 h) (by decide)
    · exact absurd (hx 88 h) (by decide)

theorem setHex_getHex (a : base_uint WIDTH) : SetHex WIDTH a.GetHex = a := by
  apply ext_toNat
  have hnumber : HexNumber a.GetHex a.GetHex := hexNumber_self fun _ hc => isSome_of_mem_hexByte hc
  rw [toNat_setHex hnumber]
  unfold GetHex
  rw [hexValue_reverse, readLE_bytes, Nat.mod_eq_of_lt a.toNat_lt]

end base_uint

open base_uint

/-- With two limbs at least, as `uint160` and `uint256` have, every operation computes modulo
`2^BITS`; an operand of 64 bits acts as the number it is; and the hexadecimal digits are read
back. -/
theorem baseUint_arithmetic {WIDTH : ℕ} (h : 2 ≤ WIDTH) :
    (∀ a b : base_uint WIDTH,
      (a.add b).toNat = (a.toNat + b.toNat) % 2 ^ (32 * WIDTH) ∧
      (a.sub b).toNat = (a.toNat + (2 ^ (32 * WIDTH) - b.toNat)) % 2 ^ (32 * WIDTH) ∧
      (a.xor b).toNat = a.toNat ^^^ b.toNat ∧
      (a.and b).toNat = a.toNat &&& b.toNat ∧
      (a.or b).toNat = a.toNat ||| b.toNat ∧
      (a.lt b ↔ a.toNat < b.toNat) ∧ (a.le b ↔ a.toNat ≤ b.toNat) ∧
      (a.gt b ↔ a.toNat > b.toNat) ∧ (a.ge b ↔ a.toNat ≥ b.toNat) ∧
      (a.eq b ↔ a.toNat = b.toNat) ∧ (a.ne b ↔ a.toNat ≠ b.toNat)) ∧
    (∀ a : base_uint WIDTH, a.toNat < 2 ^ (32 * WIDTH) ∧
      a.not.toNat = 2 ^ (32 * WIDTH) - 1 - a.toNat ∧
      a.neg.toNat = (2 ^ (32 * WIDTH) - a.toNat) % 2 ^ (32 * WIDTH) ∧
      a.increment.toNat = (a.toNat + 1) % 2 ^ (32 * WIDTH) ∧
      a.decrement.toNat = (a.toNat + (2 ^ (32 * WIDTH) - 1)) % 2 ^ (32 * WIDTH)) ∧
    (∀ (a : base_uint WIDTH) (shift : ℕ), shift < 2 ^ 32 →
      (a.shl shift).toNat = a.toNat * 2 ^ shift % 2 ^ (32 * WIDTH) ∧
      (a.shr shift).toNat = a.toNat / 2 ^ shift) ∧
    (∀ (a : base_uint WIDTH) (b : BitVec 64), (ofUint64 h b).toNat = b.toNat ∧
      a.add64 h b = a.add (ofUint64 h b) ∧ a.sub64 h b = a.sub (ofUint64 h b) ∧
      a.xor64 b = a.xor (ofUint64 h b) ∧ a.or64 b = a.or (ofUint64 h b) ∧
      a.eq64 b = a.eq (ofUint64 h b) ∧ a.ne64 b = a.ne (ofUint64 h b)) ∧
    (∀ a : base_uint WIDTH, SetHex WIDTH a.GetHex = a) ∧
    ∀ psz : CString, (∃ digits, HexNumber psz digits) ∧ ∀ digits, HexNumber psz digits →
      (SetHex WIDTH psz).toNat = hexValue digits % 2 ^ (32 * WIDTH) := by
  refine ⟨?_, ?_, ?_, ?_, ?_, ?_⟩
  · intro a b
    refine ⟨toNat_add a b, toNat_sub a b, toNat_xor a b, toNat_and a b, toNat_or a b, ?_⟩
    rw [lt_eq, le_eq, gt_eq, ge_eq, eq_eq, base_uint.ne_eq]
    simp only [decide_eq_true_eq, gt_iff_lt, ge_iff_le, true_and]
  · intro a
    exact ⟨a.toNat_lt, toNat_not a, toNat_neg a, toNat_increment a, toNat_decrement a⟩
  · intro a shift _
    exact ⟨toNat_shl a shift, toNat_shr a shift⟩
  · intro a b
    exact ⟨toNat_ofUint64 h b, rfl, rfl, xor64_eq h a b, or64_eq h a b, eq64_eq h a b,
      ne64_eq h a b⟩
  · intro a
    exact setHex_getHex a
  · intro psz
    exact ⟨⟨hexDigits psz, hexNumber_hexDigits psz⟩, fun _ hnumber => toNat_setHex hnumber⟩

/-- Both widths of the source have two limbs at least. -/
theorem baseUint_arithmetic_widths :
    SetHex 5 (ofUint64 (by decide : 2 ≤ 5) 0xab).GetHex = ofUint64 (by decide) 0xab ∧
      ((ofUint64 (by decide : 2 ≤ 8) 3).shl 255).toNat = 3 * 2 ^ 255 % 2 ^ (32 * 8) := by
  refine ⟨(baseUint_arithmetic (by decide : 2 ≤ 5)).2.2.2.2.1 _, ?_⟩
  have hshl := ((baseUint_arithmetic (by decide : 2 ≤ 8)).2.2.1 (ofUint64 (by decide) 3) 255
    (by decide)).1
  rw [hshl, toNat_ofUint64]
  rfl

end Ziftrcoin.Spec
