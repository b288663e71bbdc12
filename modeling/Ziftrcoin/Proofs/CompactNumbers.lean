/-
Module: Ziftrcoin.Proofs.CompactNumbers
Purpose: The two number codes of the coin database lose nothing: every VARINT byte
  string is the one that is written for its value, and an amount and its compressed
  form determine each other without an overflow on the way.
Trusted boundary: none
Main exports: varIntValue, amountCompression_bijective
-/
import Ziftrcoin.Proofs.CoinsRoundTrip
import Mathlib.Tactic.Ring

namespace Ziftrcoin.Spec

open Ziftrcoin.Lib

/-! ### VARINT -/

/-- The number a byte string encodes: one is added to every digit but the last. -/
def varIntValue : valtype → ℕ
  | [] => 0
  | [b] => b.toNat % 128
  | b :: bs => (b.toNat % 128 + 1) * 128 ^ bs.length + varIntValue bs

/-- Only the last byte is below 128. -/
def IsVarInt (bs : valtype) : Prop :=
  ∃ (init : valtype) (last : UInt8),
    bs = init ++ [last] ∧ (∀ b ∈ init, 0x80 ≤ b.toNat) ∧ last.toNat < 0x80

/-- What the decoder holds behind bytes of which none is the last. -/
def continuedValue (init : valtype) : ℕ :=
  init.foldl (fun n b => n * 128 + b.toNat % 128 + 1) 0

theorem continuedValue_concat (init : valtype) (b : UInt8) :
    continuedValue (init ++ [b]) = continuedValue init * 128 + b.toNat % 128 + 1 := by
  unfold continuedValue
  rw [List.foldl_append]
  rfl

theorem continuedValue_pos {init : valtype} (hne : init ≠ []) : 0 < continuedValue init := by
  induction init using List.reverseRecOn with
  | nil => exact absurd rfl hne
  | append_singleton init b _ =>
      rw [continuedValue_concat]
      exact Nat.succ_pos _

theorem foldl_varIntValue (init : valtype) (last : UInt8) (n : ℕ) :
    init.foldl (fun n b => n * 128 + b.toNat % 128 + 1) n * 128 + last.toNat % 128 =
      n * 128 ^ (init.length + 1) + varIntValue (init ++ [last]) := by
  induction init generalizing n with
  | nil => simp [varIntValue]
  | cons b init ih =>
      have hvalue : varIntValue (b :: init ++ [last]) =
          (b.toNat % 128 + 1) * 128 ^ (init.length + 1) + varIntValue (init ++ [last]) := by
        cases init with
        | nil => rfl
        | cons b' init => simp [varIntValue]
      rw [List.foldl_cons, ih, hvalue, List.length_cons, Nat.pow_succ 128 (init.length + 1)]
      ring

theorem varIntValue_concat (init : valtype) (last : UInt8) :
    varIntValue (init ++ [last]) = continuedValue init * 128 + last.toNat % 128 := by
  have h := foldl_varIntValue init last 0
  rw [Nat.zero_mul, Nat.zero_add] at h
  exact h.symm

/-- A byte with its top bit set is its lower seven bits and that bit. -/
theorem ofNat_low_add {b : UInt8} (hb : 0x80 ≤ b.toNat) :
    UInt8.ofNat (b.toNat % 128 + 0x80) = b := by
  have hlt : b.toNat < 256 := b.toNat_lt
  apply UInt8.toNat_inj.mp
  rw [UInt8.toNat_ofNat']
  omega

/-- The groups of one less than what the bytes come to are the bytes, last first. -/
theorem varIntGroups_continued (init : valtype) (hinit : ∀ b ∈ init, 0x80 ≤ b.toNat)
    (hne : init ≠ []) (len : ℕ) :
    varIntGroups ((continuedValue init - 1 : ℕ) : ℤ) (len + 1) = init.reverse := by
  induction init using List.reverseRecOn generalizing len with
  | nil => exact absurd rfl hne
  | append_singleton init b ih =>
      have hvalue :
          continuedValue (init ++ [b]) - 1 = continuedValue init * 128 + b.toNat % 128 := by
        rw [continuedValue_concat, Nat.add_sub_cancel]
      have hb : 0x80 ≤ b.toNat := hinit b (by simp)
      have hlow : (continuedValue init * 128 + b.toNat % 128) % 128 = b.toNat % 128 := by omega
      have hhigh : (continuedValue init * 128 + b.toNat % 128) / 128 = continuedValue init := by
        omega
      rw [hvalue, varIntGroups_natCast, hlow, hhigh, if_neg (Nat.succ_ne_zero len),
        ofNat_low_add hb, List.reverse_append]
      by_cases hnil : init = []
      · have hzero : continuedValue init = 0 := by rw [hnil]; rfl
        rw [if_pos (by omega), hnil]
        rfl
      · have hpos := continuedValue_pos hnil
        rw [if_neg (by omega), ih (fun c hc => hinit c (by simp [hc])) hnil (len + 1)]
        rfl

theorem writeVarInt_value {bs : valtype} (h : IsVarInt bs) : WriteVarInt (varIntValue bs) = bs := by
  obtain ⟨init, last, rfl, hinit, hlast⟩ := h
  have hlow : (continuedValue init * 128 + last.toNat % 128) % 128 = last.toNat := by omega
  have hhigh : (continuedValue init * 128 + last.toNat % 128) / 128 = continuedValue init := by
    omega
  unfold WriteVarInt
  rw [varIntValue_concat, varIntGroups_natCast, hlow, hhigh, if_pos rfl, Nat.add_zero,
    UInt8.ofNat_toNat]
  by_cases hnil : init = []
  · have hzero : continuedValue init = 0 := by rw [hnil]; rfl
    rw [if_pos (by omega), hnil]
    rfl
  · have hpos := continuedValue_pos hnil
    rw [if_neg (by omega), varIntGroups_continued init hinit hnil 0, List.reverse_cons,
      List.reverse_reverse]

theorem getSizeOfVarInt_natCast (n : ℕ) :
    GetSizeOfVarInt n =
      if n ≤ 0x7F then 1 else GetSizeOfVarInt ((n / 128 - 1 : ℕ) : ℤ) + 1 := by
  rw [GetSizeOfVarInt]
  by_cases hn : n ≤ 0x7F
  · rw [if_pos (by omega), if_pos hn]
  · have hrest : (n : ℤ) / 128 - 1 = ((n / 128 - 1 : ℕ) : ℤ) := by omega
    rw [if_neg (by omega), if_neg hn, hrest]

/-- Seven bits lie below each group but the first. -/
theorem pow_size_le (n : ℕ) : 2 ^ (7 * (GetSizeOfVarInt n - 1)) ≤ max 1 n := by
  induction n using Nat.strong_induction_on with
  | _ n ih =>
      rw [getSizeOfVarInt_natCast]
      by_cases hsmall : n ≤ 0x7F
      · rw [if_pos hsmall]
        exact Nat.le_max_left 1 n
      · have hrest := ih (n / 128 - 1) (by omega)
        rw [if_neg hsmall, Nat.add_sub_cancel]
        generalize GetSizeOfVarInt ((n / 128 - 1 : ℕ) : ℤ) = size at hrest ⊢
        cases size with
        | zero => omega
        | succ k =>
            rw [Nat.add_sub_cancel] at hrest
            rw [Nat.mul_add, Nat.mul_one, Nat.pow_add]
            omega

/-- The buffer of `WriteVarInt` is long enough. -/
theorem getSizeOfVarInt_le {bits n : ℕ} (hbits : 0 < bits) (hn : n < 2 ^ bits) :
    GetSizeOfVarInt n ≤ (bits + 6) / 7 := by
  by_contra hlong
  have hexp : 2 ^ bits ≤ 2 ^ (7 * (GetSizeOfVarInt n - 1)) :=
    Nat.pow_le_pow_right (by decide) (by omega)
  have hone : 1 < 2 ^ bits := Nat.one_lt_two_pow (by omega)
  have hle := hexp.trans (pow_size_le n)
  omega

/-- For each unsigned type, what is written and what is read determine each other. -/
theorem varInt_bijective {bits : ℕ} (hbits : bits = 8 ∨ bits = 16 ∨ bits = 32 ∨ bits = 64) :
    (∀ n : ℕ, n < 2 ^ bits →
      (WriteVarInt n).length = GetSizeOfVarInt n ∧ GetSizeOfVarInt n ≤ (bits + 6) / 7 ∧
        ∀ rest : valtype, ReadVarInt bits (WriteVarInt n ++ rest) = .ok (n, rest)) ∧
    (∀ n m : ℕ, n < 2 ^ bits → m < 2 ^ bits → n ≠ m → ¬ WriteVarInt n <+: WriteVarInt m) ∧
    (∀ bs : valtype, IsVarInt bs → varIntValue bs < 2 ^ bits →
      bs = WriteVarInt (varIntValue bs)) := by
  refine ⟨fun n hn => ?_, fun n m hn hm hne hpre => ?_, fun bs hbs _ => ?_⟩
  · exact ⟨length_writeVarInt n, getSizeOfVarInt_le (by omega) hn, readVarInt_write hn⟩
  · obtain ⟨rest, hrest⟩ := hpre
    have hread := readVarInt_write hn rest
    have hself := readVarInt_write hm []
    rw [hrest] at hread
    rw [List.append_nil, hread] at hself
    injection hself with hpair
    injection hpair with hsame
    exact hne hsame
  · exact (writeVarInt_value hbs).symm

theorem varInt_threeHundred :
    ReadVarInt 16 (WriteVarInt (300 : ℕ) ++ [7]) = .ok (300, [7]) ∧
      ¬ WriteVarInt (300 : ℕ) <+: WriteVarInt (301 : ℕ) ∧
      [0x81, 0x2c] = WriteVarInt (varIntValue [0x81, 0x2c]) :=
  have h := @varInt_bijective 16 (.inr (.inl rfl))
  ⟨(h.1 300 (by omega)).2.2 [7], h.2.1 300 301 (by omega) (by omega) (by omega),
    h.2.2 [0x81, 0x2c] ⟨[0x81], 0x2c, rfl, List.forall_mem_singleton.mpr (by decide), by decide⟩
      (by decide)⟩

/-! ### Amounts -/

/-- The result of an operation on `uint64_t` that does not overflow. -/
def exact64 (x : ℕ) : Option ℕ := if x < 2 ^ 64 then some x else none

/-- `CompressAmount`, stopped by an overflow and by its assertion. -/
def compressChecked (n : ℕ) : Option ℕ :=
  if n = 0 then some 0
  else
    let (n, e) := stripZeros 9 n
    if e < 9 then do
      let d := n % 10
      guard (1 ≤ d ∧ d ≤ 9)
      let x ← exact64 (n / 10 * 9)
      let x ← exact64 (x + d)
      let x ← exact64 ((x - 1) * 10)
      let x ← exact64 (1 + x)
      exact64 (x + e)
    else do
      guard (1 ≤ n)
      let x ← exact64 ((n - 1) * 10)
      let x ← exact64 (1 + x)
      exact64 (x + 9)

def timesTenChecked : (e n : ℕ) → Option ℕ
  | 0, n => some n
  | e + 1, n => (exact64 (n * 10)).bind (timesTenChecked e)

/-- `DecompressAmount`, stopped by an overflow. -/
def decompressChecked (x : ℕ) : Option ℕ :=
  if x = 0 then some 0
  else
    let x := x - 1
    let e := x % 10
    let x := x / 10
    if e < 9 then do
      let d := x % 9 + 1
      let n ← exact64 (x / 9 * 10)
      let n ← exact64 (n + d)
      timesTenChecked e n
    else do
      let n ← exact64 (x + 1)
      timesTenChecked e n

/-- The amount that `x` stands for, however large it is. -/
def decompressExact (x : ℕ) : ℕ :=
  if x = 0 then 0
  else
    let e := (x - 1) % 10
    let y := (x - 1) / 10
    if e < 9 then (y / 9 * 10 + (y % 9 + 1)) * 10 ^ e else (y + 1) * 10 ^ e

theorem exact64_eq {x : ℕ} (h : x < 2 ^ 64) : exact64 x = some x := if_pos h

theorem exact64_bind {x : ℕ} (h : x < 2 ^ 64) (f : ℕ → Option ℕ) : (exact64 x >>= f) = f x := by
  rw [exact64_eq h]
  rfl

theorem guard_bind {c : Prop} [Decidable c] (h : c) (f : Unit → Option ℕ) :
    ((guard c : Option Unit) >>= f) = f () := by
  rw [guard, if_pos h]
  rfl

theorem timesTenChecked_eq {e n : ℕ} (h : n * 10 ^ e < 2 ^ 64) :
    timesTenChecked e n = some (n * 10 ^ e) := by
  induction e generalizing n with
  | zero => simp [timesTenChecked]
  | succ e ih =>
      have hpow : n * 10 ^ (e + 1) = n * 10 * 10 ^ e := by
        rw [Nat.pow_succ, Nat.mul_comm (10 ^ e) 10, Nat.mul_assoc]
      have hone : n * 10 ≤ n * 10 * 10 ^ e := Nat.le_mul_of_pos_right _ (Nat.pow_pos (by decide))
      rw [timesTenChecked, exact64_eq (by omega), Option.bind_some, ih (by omega), hpow]

/-- The zeros that a power of ten put behind a number are taken off again. -/
theorem stripZeros_mul_pow (e fuel m : ℕ) :
    stripZeros (e + fuel) (m * 10 ^ e) =
      ((stripZeros fuel m).1, (stripZeros fuel m).2 + e) := by
  induction e with
  | zero => simp
  | succ e ih =>
      have hpow : m * 10 ^ (e + 1) = m * 10 ^ e * 10 := by rw [Nat.pow_succ, Nat.mul_assoc]
      rw [Nat.succ_add, hpow, stripZeros, if_pos (by omega), Nat.mul_div_cancel _ (by decide), ih]
      rfl

/-- The compressed form of an amount, which does not overflow. -/
theorem compressAmount_cases {n : ℕ} (hn : 9 * n < 2 ^ 63) (hzero : n ≠ 0) :
    ∃ m e, stripZeros 9 n = (m, e) ∧ n = m * 10 ^ e ∧ m ≠ 0 ∧ m ≤ n ∧
      ((e < 9 ∧ m % 10 ≠ 0 ∧ CompressAmount n = 1 + (m / 10 * 9 + m % 10 - 1) * 10 + e) ∨
        (e = 9 ∧ CompressAmount n = 1 + (m - 1) * 10 + 9)) := by
  obtain ⟨hvalue, hle, hdigit⟩ := stripZeros_spec 9 n
  cases hstrip : stripZeros 9 n with
  | mk m e =>
      rw [hstrip] at hvalue hle hdigit
      dsimp only at hvalue hle hdigit
      have hm : m ≤ n := hvalue ▸ Nat.le_mul_of_pos_right m (Nat.pow_pos (by decide))
      have hpos : m ≠ 0 := by
        rintro rfl
        exact hzero (by omega)
      refine ⟨m, e, rfl, hvalue, hpos, hm, ?_⟩
      unfold CompressAmount
      rw [if_neg hzero, hstrip]
      dsimp only
      by_cases he : e < 9
      · have hd := hdigit he
        refine .inl ⟨he, hd, ?_⟩
        rw [if_pos he]
        exact Nat.mod_eq_of_lt (by omega)
      · refine .inr ⟨by omega, ?_⟩
        rw [if_neg he]
        exact Nat.mod_eq_of_lt (by omega)

theorem compressChecked_eq {n : ℕ} (hn : 9 * n < 2 ^ 63) :
    compressChecked n = some (CompressAmount n) := by
  by_cases hzero : n = 0
  · rw [hzero]
    rfl
  · obtain ⟨m, e, hstrip, _, hpos, hm, hcases⟩ := compressAmount_cases hn hzero
    unfold compressChecked
    rw [if_neg hzero, hstrip]
    dsimp only
    obtain ⟨he, hd, hcode⟩ | ⟨rfl, hcode⟩ := hcases
    · rw [if_pos he, guard_bind (by omega), exact64_bind (by omega), exact64_bind (by omega),
        exact64_bind (by omega), exact64_bind (by omega), exact64_eq (by omega), hcode]
    · rw [if_neg (by decide), guard_bind (by omega), exact64_bind (by omega),
        exact64_bind (by omega), exact64_eq (by omega), hcode]

/-- No multiplication overflows where the exact amount fits. -/
theorem decompressAmount_exact {x : ℕ} (hfits : decompressExact x < 2 ^ 64) :
    DecompressAmount x = decompressExact x ∧ decompressChecked x = some (decompressExact x) := by
  unfold DecompressAmount decompressChecked
  unfold decompressExact at hfits ⊢
  by_cases hzero : x = 0
  · rw [if_pos hzero, if_pos hzero, if_pos hzero]
    exact ⟨rfl, rfl⟩
  · rw [if_neg hzero] at hfits
    rw [if_neg hzero, if_neg hzero, if_neg hzero]
    dsimp only at hfits ⊢
    by_cases he : (x - 1) % 10 < 9
    · rw [if_pos he] at hfits
      rw [if_pos he, if_pos he, if_pos he]
      have hone : (x - 1) / 10 / 9 * 10 + ((x - 1) / 10 % 9 + 1) ≤
          ((x - 1) / 10 / 9 * 10 + ((x - 1) / 10 % 9 + 1)) * 10 ^ ((x - 1) % 10) :=
        Nat.le_mul_of_pos_right _ (Nat.pow_pos (by decide))
      have hsmall : uint64 ((x - 1) / 10 / 9 * 10 + ((x - 1) / 10 % 9 + 1)) =
          (x - 1) / 10 / 9 * 10 + ((x - 1) / 10 % 9 + 1) := Nat.mod_eq_of_lt (by omega)
      rw [hsmall, exact64_bind (by omega), exact64_bind (by omega)]
      exact ⟨timesTen_eq hfits, timesTenChecked_eq hfits⟩
    · rw [if_neg he] at hfits
      rw [if_neg he, if_neg he, if_neg he]
      have hone : (x - 1) / 10 + 1 ≤ ((x - 1) / 10 + 1) * 10 ^ ((x - 1) % 10) :=
        Nat.le_mul_of_pos_right _ (Nat.pow_pos (by decide))
      rw [exact64_bind (by omega)]
      exact ⟨timesTen_eq hfits, timesTenChecked_eq hfits⟩

/-- Nine times the amount has to fit in 64 bits. -/
theorem compressAmount_decompress {x : ℕ} (hfits : decompressExact x < 2 ^ 60) :
    CompressAmount (DecompressAmount x) = x := by
  rw [(decompressAmount_exact (by omega)).1]
  unfold decompressExact at *
  dsimp only at hfits ⊢
  split_ifs at hfits ⊢ with hzero he
  · rw [hzero]
    rfl
  · generalize hm : (x - 1) / 10 / 9 * 10 + ((x - 1) / 10 % 9 + 1) = m at hfits ⊢
    generalize hk : (x - 1) % 10 = k at *
    have hone : m ≤ m * 10 ^ k := Nat.le_mul_of_pos_right _ (Nat.pow_pos (by decide))
    have hstrip : stripZeros 9 (m * 10 ^ k) = (m, k) := by
      obtain ⟨fuel, hfuel⟩ := Nat.exists_eq_add_of_lt he
      rw [hfuel, Nat.add_assoc, stripZeros_mul_pow, stripZeros, if_neg (by omega), Nat.zero_add]
    unfold CompressAmount
    rw [if_neg (by omega), hstrip]
    dsimp only
    have hback : m / 10 * 9 + m % 10 - 1 = (x - 1) / 10 := by omega
    rw [if_pos he, hback]
    unfold uint64
    omega
  · generalize hm : (x - 1) / 10 + 1 = m at hfits ⊢
    obtain hk : (x - 1) % 10 = 9 := by omega
    rw [hk] at hfits ⊢
    have hone : m ≤ m * 10 ^ 9 := Nat.le_mul_of_pos_right _ (Nat.pow_pos (by decide))
    have hstrip : stripZeros 9 (m * 10 ^ 9) = (m, 9) := by
      rw [← Nat.add_zero 9, stripZeros_mul_pow]
      rfl
    unfold CompressAmount
    rw [if_neg (by omega), hstrip]
    dsimp only
    rw [if_neg (by decide)]
    unfold uint64
    omega

/-- An amount is what its compressed form stands for. -/
theorem decompressExact_compress {n : ℕ} (hn : 9 * n < 2 ^ 63) :
    decompressExact (CompressAmount n) = n := by
  by_cases hzero : n = 0
  · rw [hzero]
    rfl
  · obtain ⟨m, e, _, hvalue, hpos, hm, hcases⟩ := compressAmount_cases hn hzero
    unfold decompressExact
    obtain ⟨he, hd, hcode⟩ | ⟨rfl, hcode⟩ := hcases
    · have hlow : (1 + (m / 10 * 9 + m % 10 - 1) * 10 + e - 1) % 10 = e := by omega
      have hback : (1 + (m / 10 * 9 + m % 10 - 1) * 10 + e - 1) / 10 / 9 * 10 +
          ((1 + (m / 10 * 9 + m % 10 - 1) * 10 + e - 1) / 10 % 9 + 1) = m := by omega
      rw [hcode, if_neg (by omega)]
      dsimp only
      rw [hlow, if_pos he, hback]
      exact hvalue.symm
    · have hlow : (1 + (m - 1) * 10 + 9 - 1) % 10 = 9 := by omega
      have hhigh : (1 + (m - 1) * 10 + 9 - 1) / 10 + 1 = m := by omega
      rw [hcode, if_neg (by omega)]
      dsimp only
      rw [hlow, if_neg (by decide), hhigh]
      exact hvalue.symm

/-- Amounts and their compressed forms determine each other, and neither direction
overflows. -/
theorem amountCompression_bijective :
    (∀ n : ℕ, n ≤ MAX_MONEY_SATOSHIS →
      DecompressAmount (CompressAmount n) = n ∧ compressChecked n = some (CompressAmount n) ∧
        decompressChecked (CompressAmount n) = some n) ∧
    (∀ x : ℕ, x < 2 ^ 64 → decompressExact x < 2 ^ 60 →
      CompressAmount (DecompressAmount x) = x) := by
  refine ⟨fun n hn => ?_, fun x _ hfits => compressAmount_decompress hfits⟩
  have hmax : 9 * n < 2 ^ 63 - 1 := by
    have hmoney : MAX_MONEY_SATOSHIS = 1200000000000000 := by decide
    omega
  have hexact := decompressExact_compress (n := n) (by omega)
  obtain ⟨hcode, hchecked⟩ := decompressAmount_exact (x := CompressAmount n) (by omega)
  rw [hexact] at hcode hchecked
  exact ⟨hcode, compressChecked_eq (by omega), hchecked⟩

theorem amountCompression_one :
    DecompressAmount (CompressAmount 123000) = 123000 ∧
      CompressAmount (DecompressAmount 4711) = 4711 :=
  ⟨(amountCompression_bijective.1 123000 (by decide)).1,
    amountCompression_bijective.2 4711 (by decide) (by decide)⟩

end Ziftrcoin.Spec
