/-
Module: Ziftrcoin.Lib.Radix
Purpose: Positional numbers.  Digits with the highest one first and zeros in front, and how
  many digits of one base make room for those of another; words with the lowest one first,
  their bits, and what appending, complementing and combining words does.
Trusted boundary: none
Main exports: Radix.read, Radix.expand, Radix.read_append
-/
import Mathlib.Data.List.GetD
import Mathlib.Data.List.Induction
import Mathlib.Data.List.TakeWhile
import Mathlib.Data.Nat.Bitwise
import Mathlib.Data.Nat.Digits.Defs
import Mathlib.Data.Nat.Digits.Lemmas
import Mathlib.Tactic.Ring

namespace Ziftrcoin.Lib.Radix

variable {base : ℕ}

/-- The number that digits denote, the highest one first. -/
def read (base : ℕ) (digits : List ℕ) : ℕ := Nat.ofDigits base digits.reverse

/-- The digits of a number, the highest one first, behind some zeros. -/
def expand (base zeros n : ℕ) : List ℕ := List.replicate zeros 0 ++ (Nat.digits base n).reverse

theorem read_nil : read base [] = 0 := rfl

theorem read_append (digits digits' : List ℕ) :
    read base (digits ++ digits') =
      base ^ digits'.length * read base digits + read base digits' := by
  unfold read
  rw [List.reverse_append, Nat.ofDigits_append, List.length_reverse, Nat.add_comm]

theorem read_singleton (d : ℕ) : read base [d] = d := Nat.ofDigits_singleton

theorem read_concat (digits : List ℕ) (d : ℕ) :
    read base (digits ++ [d]) = base * read base digits + d := by
  rw [read_append, read_singleton, List.length_singleton, Nat.pow_one]

theorem read_cons (d : ℕ) (digits : List ℕ) :
    read base (d :: digits) = base ^ digits.length * d + read base digits := by
  have h : read base ([d] ++ digits) = _ := read_append [d] digits
  rw [read_singleton] at h
  exact h

theorem read_lt (hbase : 1 < base) {digits : List ℕ} (h : ∀ d ∈ digits, d < base) :
    read base digits < base ^ digits.length := by
  have hlt := Nat.ofDigits_lt_base_pow_length hbase fun d hd => h d (List.mem_reverse.mp hd)
  rw [List.length_reverse] at hlt
  exact hlt

/-- Reading digit by digit. -/
theorem foldl_eq_read {α : Type*} (digit : α → ℕ) (xs : List α) :
    xs.foldl (fun v x => base * v + digit x) 0 = read base (xs.map digit) := by
  induction xs using List.reverseRecOn with
  | nil => rfl
  | append_singleton xs x ih =>
      rw [List.foldl_append, List.foldl_cons, List.foldl_nil, ih, List.map_append,
        List.map_singleton, read_concat]

theorem read_replicate_zero (zeros : ℕ) (digits : List ℕ) :
    read base (List.replicate zeros 0 ++ digits) = read base digits := by
  unfold read
  rw [List.reverse_append, List.reverse_replicate, Nat.ofDigits_append_replicate_zero]

theorem read_expand (zeros n : ℕ) : read base (expand base zeros n) = n := by
  unfold expand
  rw [read_replicate_zero]
  unfold read
  rw [List.reverse_reverse, Nat.ofDigits_digits]

/-- As many digits that denote one number are the same. -/
theorem read_inj (hbase : 1 < base) {digits digits' : List ℕ} (h : ∀ d ∈ digits, d < base)
    (h' : ∀ d ∈ digits', d < base) (hlength : digits.length = digits'.length)
    (hread : read base digits = read base digits') : digits = digits' := by
  apply List.reverse_injective
  apply Nat.ofDigits_inj_of_len_eq hbase
  · rw [List.length_reverse, List.length_reverse, hlength]
  · exact fun d hd => h d (List.mem_reverse.mp hd)
  · exact fun d hd => h' d (List.mem_reverse.mp hd)
  · exact hread

/-- The digits of a number start with one that is not zero. -/
theorem head_ne_zero {n d : ℕ} (h : d ∈ (Nat.digits base n).reverse.head?) : d ≠ 0 := by
  rw [List.head?_reverse, Option.mem_def] at h
  have hn : n ≠ 0 := by
    rintro rfl
    rw [Nat.digits_zero] at h
    cases h
  have hne := Nat.digits_ne_nil_iff_ne_zero (b := base).mpr hn
  rw [List.getLast?_eq_some_getLast hne, Option.some_inj] at h
  rw [← h]
  exact Nat.getLast_digit_ne_zero base hn

theorem takeWhile_expand (zeros n : ℕ) :
    (expand base zeros n).takeWhile (· == 0) = List.replicate zeros 0 := by
  unfold expand
  rw [List.takeWhile_append_of_pos fun d hd => by rw [List.eq_of_mem_replicate hd]; rfl]
  cases hdigits : (Nat.digits base n).reverse with
  | nil => rw [List.takeWhile_nil, List.append_nil]
  | cons d digits =>
      have hhead : d ∈ (Nat.digits base n).reverse.head? := by
        rw [hdigits]
        rfl
      have hd : d ≠ 0 := head_ne_zero hhead
      rw [List.takeWhile_cons_of_neg (by simpa using hd), List.append_nil]

theorem dropWhile_expand (zeros n : ℕ) :
    (expand base zeros n).dropWhile (· == 0) = (Nat.digits base n).reverse := by
  have hsplit := List.takeWhile_append_dropWhile (p := (· == 0)) (l := expand base zeros n)
  rw [takeWhile_expand] at hsplit
  exact List.append_cancel_left hsplit

/-- Digits are zeros in front of the digits of the number that they denote. -/
theorem eq_expand (hbase : 1 < base) {digits : List ℕ} (h : ∀ d ∈ digits, d < base) :
    digits = expand base (digits.takeWhile (· == 0)).length (read base digits) := by
  have hsplit := List.takeWhile_append_dropWhile (p := (· == 0)) (l := digits)
  have hzeros : digits.takeWhile (· == 0) =
      List.replicate (digits.takeWhile (· == 0)).length 0 := by
    apply List.eq_replicate_of_mem
    intro d hd
    exact beq_iff_eq.mp (List.mem_takeWhile_imp (p := (· == 0)) hd)
  have hread : read base digits = read base (digits.dropWhile (· == 0)) := by
    rw [← hsplit, hzeros, read_replicate_zero, ← hzeros, hsplit]
  have hdigits : Nat.digits base (read base (digits.dropWhile (· == 0))) =
      (digits.dropWhile (· == 0)).reverse := by
    apply Nat.digits_ofDigits base hbase
    · intro d hd
      exact h d (List.dropWhile_suffix _ |>.mem (List.mem_reverse.mp hd))
    · intro hne
      have hne' : digits.dropWhile (· == 0) ≠ [] := fun hnil => hne (by rw [hnil]; rfl)
      rw [List.getLast_reverse]
      exact beq_eq_false_iff_ne.mp (List.head_dropWhile_not (· == 0) hne')
  unfold expand
  rw [hread, hdigits, List.reverse_reverse, ← hzeros, hsplit]

/-- If `q` digits of one base fit into `p` digits of another, then any `n` digits fit into
their share of them, rounded down, and one more. -/
theorem pow_le_pow_ratio {a b p q : ℕ} (hb : 0 < b) (hq : 0 < q) (h : a ^ q ≤ b ^ p) (n : ℕ) :
    a ^ n ≤ b ^ (n * p / q + 1) := by
  have hround : n * p ≤ (n * p / q + 1) * q := by
    rw [Nat.mul_comm _ q]
    exact (Nat.lt_mul_div_succ (n * p) hq).le
  have hscaled : (a ^ n) ^ q ≤ (b ^ (n * p / q + 1)) ^ q := by
    calc (a ^ n) ^ q = (a ^ q) ^ n := by rw [← pow_mul, Nat.mul_comm, pow_mul]
      _ ≤ (b ^ p) ^ n := Nat.pow_le_pow_left h n
      _ = b ^ (n * p) := by rw [← pow_mul, Nat.mul_comm]
      _ ≤ b ^ ((n * p / q + 1) * q) := Nat.pow_le_pow_right hb hround
      _ = (b ^ (n * p / q + 1)) ^ q := pow_mul b _ q
  exact (Nat.pow_le_pow_iff_left hq.ne').mp hscaled

end Ziftrcoin.Lib.Radix

namespace Ziftrcoin.Lib.Limbs

variable {w : ℕ}

/-- The number that a list of words stands for. -/
def value : List (BitVec w) → ℕ
  | [] => 0
  | x :: xs => x.toNat + 2 ^ w * value xs

theorem pow_succ_words (w n : ℕ) : 2 ^ (w * (n + 1)) = 2 ^ w * 2 ^ (w * n) := by
  rw [← Nat.pow_add, Nat.mul_add, Nat.mul_one, Nat.add_comm]

/-- The words are the digits of the number. -/
theorem value_eq_ofDigits (xs : List (BitVec w)) :
    value xs = Nat.ofDigits (2 ^ w) (xs.map BitVec.toNat) := by
  induction xs with
  | nil => rfl
  | cons x xs ih => rw [value, ih, List.map_cons, Nat.ofDigits_cons]

theorem words_lt (xs : List (BitVec w)) : ∀ d ∈ xs.map BitVec.toNat, d < 2 ^ w := by
  intro d hd
  obtain ⟨x, _, rfl⟩ := List.mem_map.mp hd
  exact x.isLt

theorem value_lt (hw : 0 < w) (xs : List (BitVec w)) : value xs < 2 ^ (w * xs.length) := by
  have h := Nat.ofDigits_lt_base_pow_length (Nat.one_lt_two_pow hw.ne') (words_lt xs)
  rw [← value_eq_ofDigits, List.length_map, ← Nat.pow_mul] at h
  exact h

theorem value_append (xs ys : List (BitVec w)) :
    value (xs ++ ys) = value xs + 2 ^ (w * xs.length) * value ys := by
  rw [value_eq_ofDigits, List.map_append, Nat.ofDigits_append, List.length_map, ← Nat.pow_mul,
    value_eq_ofDigits, value_eq_ofDigits]

theorem value_replicate_zero (n : ℕ) : value (List.replicate n (0 : BitVec w)) = 0 := by
  induction n with
  | zero => rfl
  | succ n ih =>
      rw [List.replicate_succ, value, ih]
      simp

/-- Lists of one length with one value are equal. -/
theorem value_inj (hw : 0 < w) {xs ys : List (BitVec w)} (hlength : xs.length = ys.length)
    (h : value xs = value ys) : xs = ys := by
  rw [value_eq_ofDigits, value_eq_ofDigits] at h
  have hwords := Nat.ofDigits_inj_of_len_eq (Nat.one_lt_two_pow hw.ne')
    (by rw [List.length_map, List.length_map, hlength]) (words_lt xs) (words_lt ys) h
  exact (List.map_inj_right fun _ _ => BitVec.eq_of_toNat_eq).mp hwords

/-- Bit `i` of word `j`. -/
theorem testBit_value (xs : List (BitVec w)) (j : ℕ) {i : ℕ} (hi : i < w) :
    (value xs).testBit (w * j + i) = (xs.getD j 0).getLsbD i := by
  induction xs generalizing j with
  | nil => simp [value]
  | cons x xs ih =>
      have hx : x.toNat < 2 ^ w := x.isLt
      rw [value, Nat.add_comm x.toNat]
      cases j with
      | zero =>
          rw [Nat.mul_zero, Nat.zero_add, Nat.testBit_two_pow_mul_add _ hx, if_pos hi]
          rfl
      | succ j =>
          have hbit : ¬ w * (j + 1) + i < w := by
            rw [Nat.mul_add, Nat.mul_one]
            omega
          have hsub : w * (j + 1) + i - w = w * j + i := by
            rw [Nat.mul_add, Nat.mul_one]
            omega
          rw [Nat.testBit_two_pow_mul_add _ hx, if_neg hbit, hsub, ih, List.getD_cons_succ]

/-- Every bit of a number is one of its words, or lies behind them. -/
theorem exists_bit (hw : 0 < w) (p : ℕ) : ∃ j i, p = w * j + i ∧ i < w :=
  ⟨p / w, p % w, (Nat.div_add_mod p w).symm, Nat.mod_lt p hw⟩

theorem getD_of_le {xs : List (BitVec w)} {j : ℕ} (h : xs.length ≤ j) : xs.getD j 0 = 0 :=
  List.getD_eq_default _ _ h

/-- An operation on the bits, word by word. -/
theorem value_zipWith {op : BitVec w → BitVec w → BitVec w} {f : Bool → Bool → Bool}
    {nop : ℕ → ℕ → ℕ} (hw : 0 < w)
    (hop : ∀ x y i, i < w → (op x y).getLsbD i = f (x.getLsbD i) (y.getLsbD i))
    (hnop : ∀ m n i, (nop m n).testBit i = f (m.testBit i) (n.testBit i))
    (hfalse : f false false = false) {xs ys : List (BitVec w)}
    (hlength : xs.length = ys.length) :
    value (List.zipWith op xs ys) = nop (value xs) (value ys) := by
  apply Nat.eq_of_testBit_eq
  intro p
  obtain ⟨j, i, rfl, hi⟩ := exists_bit hw p
  rw [hnop, testBit_value _ _ hi, testBit_value _ _ hi, testBit_value _ _ hi]
  by_cases hj : j < xs.length
  · have hzip : (List.zipWith op xs ys).getD j 0 = op (xs.getD j 0) (ys.getD j 0) := by
      rw [List.getD_eq_getElem _ _ (by rw [List.length_zipWith]; omega), List.getElem_zipWith,
        List.getD_eq_getElem _ _ hj, List.getD_eq_getElem _ _ (by omega)]
    rw [hzip, hop _ _ _ hi]
  · have hxs : xs.getD j 0 = 0 := getD_of_le (by omega)
    have hys : ys.getD j 0 = 0 := getD_of_le (by omega)
    rw [hxs, hys,
      getD_of_le (by rw [List.length_zipWith]; omega)]
    simp [hfalse]

/-- The complement of every word. -/
theorem value_complement (xs : List (BitVec w)) :
    value (xs.map fun x => ~~~x) + value xs + 1 = 2 ^ (w * xs.length) := by
  induction xs with
  | nil => rfl
  | cons x xs ih =>
      have hx : x.toNat < 2 ^ w := x.isLt
      have hmul := congrArg (2 ^ w * ·) ih
      rw [Nat.mul_add, Nat.mul_add, Nat.mul_one] at hmul
      rw [List.map_cons, value, value, List.length_cons, pow_succ_words, BitVec.toNat_not, ← hmul]
      omega

/-- A sum modulo a number of words, its lowest word first. -/
theorem add_digit_mod {n high : ℕ} (w k : ℕ) :
    (n + 2 ^ w * high) % 2 ^ (w * (k + 1)) =
      n % 2 ^ w + 2 ^ w * ((n / 2 ^ w + high) % 2 ^ (w * k)) := by
  rw [pow_succ_words, Nat.mod_mul, Nat.add_mul_mod_self_left,
    Nat.add_mul_div_left _ _ (Nat.two_pow_pos w)]

end Ziftrcoin.Lib.Limbs
