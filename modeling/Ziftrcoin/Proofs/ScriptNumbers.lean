/-
Module: Ziftrcoin.Proofs.ScriptNumbers
Purpose: Which numbers a script number keeps.  Up to four bytes the format is an exact
  little-endian number with a sign bit; of five bytes only the positive ones are,
  because the mask of the sign bit is an `int`.
Trusted boundary: none
Main exports: signMagnitude, scriptNum_roundTrips
-/
import Ziftrcoin.Proofs.NetworkFormat
import Ziftrcoin.Proofs.Txids

namespace Ziftrcoin.Spec

/-- Little-endian value of a byte string whose top bit is its sign. -/
def signMagnitude (vch : valtype) : ℤ :=
  if 0x80 ≤ (vch.getLastD 0).toNat then
    Int.negOfNat (readLE vch - 2 ^ (8 * vch.length - 1))
  else readLE vch

/-! ### Reading -/

/-- A byte string by its last byte. -/
theorem readLE_concat (init : valtype) (last : UInt8) :
    readLE (init ++ [last]) = readLE init + 2 ^ (8 * init.length) * last.toNat := by
  have hpow : 256 ^ init.length = 2 ^ (8 * init.length) := by
    rw [Nat.pow_mul]
  rw [readLE_append, hpow]
  simp [readLE]

theorem readLE_lt_two_pow (bs : valtype) : readLE bs < 2 ^ (8 * bs.length) := by
  rw [Nat.pow_mul]
  exact readLE_lt bs

theorem getLastD_concat (init : valtype) (last : UInt8) : (init ++ [last]).getLastD 0 = last := by
  rw [List.getLastD_eq_getLast?, List.getLast?_concat, Option.getD_some]

theorem pow_top_bit (k : ℕ) : 2 ^ (8 * (k + 1) - 1) = 2 ^ (8 * k) * 128 := by
  have hexp : 8 * (k + 1) - 1 = 8 * k + 7 := by omega
  rw [hexp, Nat.pow_add]

/-- The sign bit is the top bit of a string that has it. -/
theorem readLE_negative (init : valtype) {last : UInt8} (hneg : 0x80 ≤ last.toNat) :
    ∃ low, readLE (init ++ [last]) = low + 2 ^ (8 * (init.length + 1) - 1) ∧
      low < 2 ^ (8 * (init.length + 1) - 1) := by
  have hlast : last.toNat < 256 := last.toNat_lt
  have hinit := readLE_lt_two_pow init
  obtain ⟨d, hd⟩ := Nat.exists_eq_add_of_le hneg
  refine ⟨readLE init + 2 ^ (8 * init.length) * d, ?_, ?_⟩
  · rw [readLE_concat, hd, pow_top_bit, Nat.mul_add]
    omega
  · have hmul : 2 ^ (8 * init.length) * d ≤ 2 ^ (8 * init.length) * 127 :=
      Nat.mul_le_mul_left _ (by omega)
    rw [pow_top_bit]
    omega

theorem signMagnitude_negative {init : valtype} {last : UInt8} (hneg : 0x80 ≤ last.toNat) :
    signMagnitude (init ++ [last]) =
      Int.negOfNat (readLE (init ++ [last]) - 2 ^ (8 * (init.length + 1) - 1)) := by
  unfold signMagnitude
  rw [getLastD_concat, if_pos hneg, List.length_append, List.length_singleton]

theorem signMagnitude_positive {init : valtype} {last : UInt8} (hpos : last.toNat < 0x80) :
    signMagnitude (init ++ [last]) = readLE (init ++ [last]) := by
  unfold signMagnitude
  rw [getLastD_concat, if_neg (by omega)]

/-- Any string is within the range of its length. -/
theorem natAbs_signMagnitude_lt {vch : valtype} (hne : vch ≠ []) :
    (signMagnitude vch).natAbs < 2 ^ (8 * vch.length - 1) := by
  obtain ⟨init, last, rfl⟩ := List.eq_nil_or_concat' vch |>.resolve_left hne
  rw [List.length_append, List.length_singleton]
  by_cases hneg : 0x80 ≤ last.toNat
  · obtain ⟨low, hlow, hlt⟩ := readLE_negative init hneg
    rw [signMagnitude_negative hneg, Int.natAbs_negOfNat, hlow]
    omega
  · have hinit := readLE_lt_two_pow init
    have hmul : 2 ^ (8 * init.length) * last.toNat ≤ 2 ^ (8 * init.length) * 127 :=
      Nat.mul_le_mul_left _ (by omega)
    rw [signMagnitude_positive (by omega), Int.natAbs_natCast, readLE_concat, pow_top_bit]
    omega

theorem setVch_concat (init : valtype) (last : UInt8) :
    CScriptNum.setVch (init ++ [last]) =
      if 0x80 ≤ last.toNat then
        Int.negOfNat (if (readLE (init ++ [last])).testBit (7 + 8 * init.length % 32) then
          readLE (init ++ [last]) - 2 ^ (7 + 8 * init.length % 32) else readLE (init ++ [last]))
      else readLE (init ++ [last]) := by
  unfold CScriptNum.setVch
  split
  · next h => exact absurd h (by simp)
  · rw [getLastD_concat, List.length_append, List.length_singleton, Nat.add_sub_cancel]

/-- Where the top bit is clear, nothing is masked. -/
theorem setVch_positive {init : valtype} {last : UInt8} (hpos : last.toNat < 0x80) :
    CScriptNum.setVch (init ++ [last]) = signMagnitude (init ++ [last]) := by
  rw [setVch_concat, if_neg (by omega), signMagnitude_positive hpos]

/-- Up to four bytes the mask clears the sign bit. -/
theorem setVch_eq {vch : valtype} (hlength : vch.length ≤ 4) :
    CScriptNum.setVch vch = signMagnitude vch := by
  by_cases hnil : vch = []
  · rw [hnil]
    rfl
  obtain ⟨init, last, rfl⟩ := List.eq_nil_or_concat' vch |>.resolve_left hnil
  rw [List.length_append, List.length_singleton] at hlength
  by_cases hneg : 0x80 ≤ last.toNat
  · obtain ⟨low, hlow, hlt⟩ := readLE_negative init hneg
    have hbit : 7 + 8 * init.length % 32 = 8 * (init.length + 1) - 1 := by omega
    have htop : (readLE (init ++ [last])).testBit (8 * (init.length + 1) - 1) = true := by
      rw [hlow, Nat.add_comm, Nat.testBit_two_pow_add_eq, Nat.testBit_lt_two_pow hlt]
      rfl
    rw [setVch_concat, if_pos hneg, hbit, if_pos htop, signMagnitude_negative hneg]
  · exact setVch_positive (by omega)

/-- Of five bytes the sign bit stays, whatever the mask clears instead. -/
theorem setVch_five_negative {init : valtype} {last : UInt8} (hlength : init.length = 4)
    (hneg : 0x80 ≤ last.toNat) : CScriptNum.setVch (init ++ [last]) ≤ -2 ^ 39 := by
  obtain ⟨low, hlow, hlt⟩ := readLE_negative init hneg
  rw [hlength] at hlow hlt
  have hexp : 7 + 8 * 4 % 32 = 7 := by decide
  rw [setVch_concat, if_pos hneg, hlength, hexp]
  split_ifs with hbit
  · -- bit 7 lies below bit 39
    rw [Nat.testBit_eq_decide_div_mod_eq, decide_eq_true_iff] at hbit
    rw [Int.negOfNat_eq]
    simp only [Int.ofNat_eq_natCast]
    omega
  · rw [Int.negOfNat_eq]
    simp only [Int.ofNat_eq_natCast]
    omega

/-- Equal numbers of one length are equal strings, zero apart. -/
theorem signMagnitude_inj {vch vch' : valtype} (hlength : vch.length = vch'.length)
    (hsame : signMagnitude vch = signMagnitude vch') (hne : signMagnitude vch ≠ 0) :
    vch = vch' := by
  have hnil : vch ≠ [] := by
    rintro rfl
    exact hne rfl
  have hnil' : vch' ≠ [] := by
    rintro rfl
    exact hnil (List.eq_nil_of_length_eq_zero hlength)
  obtain ⟨init, last, rfl⟩ := List.eq_nil_or_concat' vch |>.resolve_left hnil
  obtain ⟨init', last', rfl⟩ := List.eq_nil_or_concat' vch' |>.resolve_left hnil'
  have hinit : init.length = init'.length := by simpa using hlength
  have hread : readLE (init ++ [last]) = readLE (init' ++ [last']) := by
    by_cases hneg : 0x80 ≤ last.toNat
    · obtain ⟨low, hlow, -⟩ := readLE_negative init hneg
      rw [signMagnitude_negative hneg, Int.negOfNat_eq] at hsame hne
      by_cases hneg' : 0x80 ≤ last'.toNat
      · obtain ⟨low', hlow', -⟩ := readLE_negative init' hneg'
        rw [signMagnitude_negative hneg', Int.negOfNat_eq] at hsame
        simp only [Int.ofNat_eq_natCast] at hsame
        rw [hinit] at hlow hsame
        omega
      · rw [signMagnitude_positive (by omega)] at hsame
        simp only [Int.ofNat_eq_natCast] at hsame hne
        omega
    · rw [signMagnitude_positive (by omega)] at hsame hne
      by_cases hneg' : 0x80 ≤ last'.toNat
      · rw [signMagnitude_negative hneg', Int.negOfNat_eq] at hsame
        simp only [Int.ofNat_eq_natCast] at hsame
        omega
      · rw [signMagnitude_positive (by omega)] at hsame
        exact Int.ofNat.inj hsame
  rw [← leBytes_readLE (init ++ [last]), ← leBytes_readLE (init' ++ [last']), hlength, hread]

/-! ### Writing -/

/-- The magnitude is written without a leading zero. -/
theorem absBytes_concat {fuel a : ℕ} (hfuel : a < 256 ^ fuel) (hne : a ≠ 0) :
    ∃ (init : valtype) (last : UInt8),
      CScriptNum.absBytes fuel a = init ++ [last] ∧ last.toNat ≠ 0 := by
  induction fuel generalizing a with
  | zero => exact absurd (Nat.lt_one_iff.mp hfuel) hne
  | succ fuel ih =>
      obtain ⟨a, rfl⟩ := Nat.exists_eq_succ_of_ne_zero hne
      rw [Nat.succ_eq_add_one, CScriptNum.absBytes]
      by_cases hsmall : (a + 1) / 256 = 0
      · have hnil : CScriptNum.absBytes fuel 0 = [] := by
          cases fuel with
          | zero => rfl
          | succ fuel => rfl
        refine ⟨[], UInt8.ofNat (a + 1), by rw [hsmall, hnil]; rfl, ?_⟩
        rw [UInt8.toNat_ofNat']
        omega
      · have hrest : (a + 1) / 256 < 256 ^ fuel := by
          rw [Nat.pow_succ] at hfuel
          omega
        obtain ⟨init, last, hbytes, hlast⟩ := ih hrest hsmall
        exact ⟨UInt8.ofNat (a + 1) :: init, last, by rw [hbytes]; rfl, hlast⟩

/-- What is written has the value and the length of the number. -/
theorem serialize_parts {n : ℤ} (hne : n ≠ 0) (hn : n.natAbs < 2 ^ 64) :
    ∃ (init : valtype) (last : UInt8), CScriptNum.serialize n = init ++ [last] ∧
      signMagnitude (init ++ [last]) = n ∧ 2 ^ (8 * init.length - 1) ≤ n.natAbs := by
  have hread : readLE (CScriptNum.absBytes 8 n.natAbs) = n.natAbs := by
    rw [readLE_absBytes]
    exact Nat.mod_eq_of_lt hn
  have hfuel : n.natAbs < 256 ^ 8 := hn
  obtain ⟨init, last, hbytes, hlast⟩ := absBytes_concat hfuel (Int.natAbs_ne_zero.mpr hne)
  rw [hbytes] at hread
  unfold CScriptNum.serialize
  rw [if_neg hne, hbytes]
  dsimp only
  rw [getLastD_concat]
  by_cases htop : 0x80 ≤ last.toNat
  · obtain ⟨low, hlow, -⟩ := readLE_negative init htop
    have hlength : (init ++ [last]).length = init.length + 1 := by
      rw [List.length_append, List.length_singleton]
    have hbound : 2 ^ (8 * (init ++ [last]).length - 1) ≤ n.natAbs := by
      rw [hlength]
      omega
    rw [if_pos htop]
    by_cases hneg : n < 0
    · have hsign : (0x80 : UInt8).toNat = 128 := by decide
      rw [if_pos hneg]
      refine ⟨init ++ [last], 0x80, rfl, ?_, hbound⟩
      rw [signMagnitude_negative (by decide), readLE_concat, hread, pow_top_bit, hsign,
        Nat.add_sub_cancel, Int.negOfNat_eq]
      simp only [Int.ofNat_eq_natCast]
      omega
    · have hsign : (0 : UInt8).toNat = 0 := by decide
      rw [if_neg hneg]
      refine ⟨init ++ [last], 0, rfl, ?_, hbound⟩
      rw [signMagnitude_positive (by decide), readLE_concat, hread, hsign, Nat.mul_zero,
        Nat.add_zero]
      omega
  · have hbound : 2 ^ (8 * init.length - 1) ≤ n.natAbs := by
      have hpow : 2 ^ (8 * init.length - 1) ≤ 2 ^ (8 * init.length) :=
        Nat.pow_le_pow_right (by decide) (by omega)
      have hmul : 2 ^ (8 * init.length) * 1 ≤ 2 ^ (8 * init.length) * last.toNat :=
        Nat.mul_le_mul_left _ (by omega)
      rw [readLE_concat] at hread
      omega
    rw [if_neg htop]
    by_cases hneg : n < 0
    · have hbyte : (UInt8.ofNat (last.toNat + 0x80)).toNat = last.toNat + 0x80 := by
        rw [UInt8.toNat_ofNat']
        omega
      rw [if_pos hneg, List.dropLast_concat]
      refine ⟨init, UInt8.ofNat (last.toNat + 0x80), rfl, ?_, hbound⟩
      rw [readLE_concat] at hread
      rw [signMagnitude_negative (by omega), readLE_concat, hbyte, pow_top_bit, Nat.mul_add,
        ← Nat.add_assoc, Nat.add_sub_cancel, hread, Int.negOfNat_eq]
      simp only [Int.ofNat_eq_natCast]
      omega
    · rw [if_neg hneg]
      refine ⟨init, last, rfl, ?_, hbound⟩
      rw [signMagnitude_positive (by omega), hread]
      omega

/-! ### Both -/

/-- A number within the range of `k` bytes is written in at most `k`. -/
theorem length_serialize_le {n : ℤ} {k : ℕ} (hk : 0 < k) (hk8 : k ≤ 8)
    (hn : n.natAbs < 2 ^ (8 * k - 1)) : (CScriptNum.serialize n).length ≤ k := by
  by_cases hne : n = 0
  · rw [hne]
    exact Nat.zero_le k
  · have hmax : 2 ^ (8 * k - 1) ≤ 2 ^ 64 := Nat.pow_le_pow_right (by decide) (by omega)
    obtain ⟨init, last, hbytes, -, hbound⟩ := serialize_parts hne (by omega)
    rw [hbytes, List.length_append, List.length_singleton]
    have hexp := (Nat.pow_lt_pow_iff_right (by decide : 1 < 2)).mp (hbound.trans_lt hn)
    omega

theorem signMagnitude_serialize {n : ℤ} (hn : n.natAbs < 2 ^ 64) :
    signMagnitude (CScriptNum.serialize n) = n := by
  by_cases hne : n = 0
  · rw [hne]
    rfl
  · obtain ⟨init, last, hbytes, hvalue, -⟩ := serialize_parts hne hn
    rw [hbytes, hvalue]

/-- No other string of that length, and no shorter one, stands for the number. -/
theorem serialize_shortest {n : ℤ} (hn : n.natAbs < 2 ^ 64) {vch : valtype}
    (hvch : signMagnitude vch = n) :
    vch = CScriptNum.serialize n ∨ (CScriptNum.serialize n).length < vch.length := by
  by_cases hne : n = 0
  · rw [hne]
    cases vch with
    | nil => exact .inl rfl
    | cons b vch => exact .inr (Nat.succ_pos _)
  · have hnil : vch ≠ [] := by
      rintro rfl
      exact hne hvch.symm
    obtain ⟨init, last, hbytes, hvalue, hbound⟩ := serialize_parts hne hn
    have hrange := natAbs_signMagnitude_lt hnil
    rw [hvch] at hrange
    have hexp := (Nat.pow_lt_pow_iff_right (by decide : 1 < 2)).mp (hbound.trans_lt hrange)
    rw [hbytes, List.length_append, List.length_singleton]
    by_cases hlength : vch.length = init.length + 1
    · left
      apply signMagnitude_inj
      · rw [hlength, List.length_append, List.length_singleton]
      · rw [hvch, hvalue]
      · rw [hvch]
        exact hne
    · have hpos := List.length_pos_iff.mpr hnil
      omega

/-- `serialize n` is what an operand of at most `k` bytes has to be for `n`: it is
read as `n`, and every other operand that is read so is longer. -/
def ShortestForm (k : ℕ) (n : ℤ) : Prop :=
  CScriptNum.ofVch (CScriptNum.serialize n) k = some n ∧
    ∀ vch : valtype, CScriptNum.ofVch vch k = some n →
      vch = CScriptNum.serialize n ∨ (CScriptNum.serialize n).length < vch.length

theorem ofVch_eq_some {vch : valtype} {k : ℕ} {n : ℤ} :
    CScriptNum.ofVch vch k = some n ↔ vch.length ≤ k ∧ CScriptNum.setVch vch = n := by
  unfold CScriptNum.ofVch
  split_ifs with hlong
  · exact iff_of_false nofun fun h => by omega
  · rw [Option.some_inj]
    exact ⟨fun h => ⟨by omega, h⟩, And.right⟩

/-- Five bytes with the top bit set. -/
def FiveNegative (vch : valtype) : Prop := vch.length = 5 ∧ 0x80 ≤ (vch.getLastD 0).toNat

theorem setVch_fiveNegative {vch : valtype} (h : FiveNegative vch) :
    CScriptNum.setVch vch ≤ -2 ^ 39 := by
  obtain ⟨hlength, hneg⟩ := h
  obtain ⟨init, last, rfl⟩ := List.eq_nil_or_concat' vch |>.resolve_left (by
    rintro rfl
    cases hlength)
  rw [getLastD_concat] at hneg
  exact setVch_five_negative (by simpa using hlength) hneg

theorem setVch_not_fiveNegative {vch : valtype} (hlength : vch.length ≤ 5)
    (h : ¬ FiveNegative vch) : CScriptNum.setVch vch = signMagnitude vch := by
  by_cases hfour : vch.length ≤ 4
  · exact setVch_eq hfour
  · obtain ⟨init, last, rfl⟩ := List.eq_nil_or_concat' vch |>.resolve_left (by
      rintro rfl
      exact hfour (Nat.zero_le 4))
    unfold FiveNegative at h
    rw [getLastD_concat] at h
    exact setVch_positive (by omega)

/-- In the range of the operands, a number that no five negative bytes stand for is
written in its shortest form. -/
theorem shortestForm_serialize {n : ℤ} {k : ℕ} (hk : k ≤ 5) (hn : n.natAbs < 2 ^ 39)
    (hlength : (CScriptNum.serialize n).length ≤ k)
    (hserial : ¬ FiveNegative (CScriptNum.serialize n)) : ShortestForm k n := by
  have hvalue := signMagnitude_serialize (n := n) (by omega)
  refine ⟨ofVch_eq_some.mpr ⟨hlength, ?_⟩, fun vch hvch => ?_⟩
  · rw [setVch_not_fiveNegative (by omega) hserial, hvalue]
  · obtain ⟨hle, hset⟩ := ofVch_eq_some.mp hvch
    by_cases hfive : FiveNegative vch
    · have hfar := setVch_fiveNegative hfive
      omega
    · rw [setVch_not_fiveNegative (by omega) hfive] at hset
      exact serialize_shortest (by omega) hset

/-- Only numbers from `-2 ^ 31` down are written as five negative bytes. -/
theorem fiveNegative_serialize_iff {n : ℤ} (hn : n.natAbs < 2 ^ 39) :
    FiveNegative (CScriptNum.serialize n) ↔ n ≤ -2 ^ 31 := by
  by_cases hzero : n = 0
  · rw [hzero]
    exact iff_of_false (fun h => by cases h.1) (by decide)
  obtain ⟨init, last, hbytes, hvalue, hbound⟩ := serialize_parts hzero (by omega)
  unfold FiveNegative
  rw [hbytes, getLastD_concat, List.length_append, List.length_singleton]
  have hrange := natAbs_signMagnitude_lt (List.append_ne_nil_of_right_ne_nil init
    (List.cons_ne_nil last []))
  rw [hvalue, List.length_append, List.length_singleton] at hrange
  have hnegative : 0x80 ≤ last.toNat ↔ n < 0 := by
    constructor
    · intro hneg
      rw [signMagnitude_negative hneg, Int.negOfNat_eq] at hvalue
      simp only [Int.ofNat_eq_natCast] at hvalue
      omega
    · intro hneg
      by_contra hpos
      rw [signMagnitude_positive (by omega)] at hvalue
      omega
  rw [hnegative]
  constructor
  · rintro ⟨hfive, hneg⟩
    have hinit : init.length = 4 := by omega
    rw [hinit] at hbound
    omega
  · intro hn31
    have hlow : 4 ≤ init.length := by
      by_contra hshort
      have hpow : 2 ^ (8 * (init.length + 1) - 1) ≤ 2 ^ 31 :=
        Nat.pow_le_pow_right (by decide) (by omega)
      omega
    have hexp := (Nat.pow_lt_pow_iff_right (by decide : 1 < 2)).mp (hbound.trans_lt hn)
    omega

theorem natAbs_signMagnitude_lt_of_le {vch : valtype} {k : ℕ} (hk : 0 < k)
    (hlength : vch.length ≤ k) : (signMagnitude vch).natAbs < 2 ^ (8 * k - 1) := by
  by_cases hnil : vch = []
  · rw [hnil]
    exact Nat.two_pow_pos _
  · exact (natAbs_signMagnitude_lt hnil).trans_le
      (Nat.pow_le_pow_right (by decide) (by omega))

/-- Operands of four bytes are kept in every case, those of five bytes when they are
positive or of shorter form. -/
theorem scriptNum_roundTrips (n : ℤ) (vch : valtype) :
    (n.natAbs < 2 ^ 31 → ShortestForm 4 n) ∧
    (n.natAbs < 2 ^ 39 → (ShortestForm 5 n ↔ -2 ^ 31 < n)) ∧
    (vch.length ≤ 4 →
      CScriptNum.ofVch vch 4 = some (signMagnitude vch) ∧ (signMagnitude vch).natAbs < 2 ^ 31) ∧
    (vch.length ≤ 5 →
      (CScriptNum.ofVch vch 5 = some (signMagnitude vch) ↔ ¬ FiveNegative vch) ∧
      ((∃ m : ℤ, CScriptNum.ofVch vch 5 = some m ∧ m.natAbs < 2 ^ 39) ↔ ¬ FiveNegative vch)) := by
  refine ⟨fun hn => ?_, fun hn => ⟨fun h => ?_, fun h => ?_⟩, fun hvch => ?_,
    fun hvch => ⟨⟨fun h hfive => ?_, fun h => ?_⟩, fun ⟨m, h, hm⟩ hfive => ?_, fun h => ?_⟩⟩
  · refine shortestForm_serialize (by decide) (by omega)
      (length_serialize_le (by decide) (by decide) hn) fun hfive => ?_
    have hfar := (fiveNegative_serialize_iff (by omega)).mp hfive
    omega
  · by_contra hfar
    have hfive := (fiveNegative_serialize_iff hn).mpr (by omega)
    have hset := setVch_fiveNegative hfive
    rw [(ofVch_eq_some.mp h.1).2] at hset
    omega
  · refine shortestForm_serialize (by decide) hn
      (length_serialize_le (by decide) (by decide) hn) fun hfive => ?_
    have hfar := (fiveNegative_serialize_iff hn).mp hfive
    omega
  · exact ⟨ofVch_eq_some.mpr ⟨hvch, setVch_eq hvch⟩,
      natAbs_signMagnitude_lt_of_le (k := 4) (by decide) hvch⟩
  · have hset := setVch_fiveNegative hfive
    have hrange := natAbs_signMagnitude_lt_of_le (k := 5) (by decide) hvch
    rw [(ofVch_eq_some.mp h).2] at hset
    omega
  · exact ofVch_eq_some.mpr ⟨hvch, setVch_not_fiveNegative hvch h⟩
  · have hset := setVch_fiveNegative hfive
    rw [(ofVch_eq_some.mp h).2] at hset
    omega
  · exact ⟨_, ofVch_eq_some.mpr ⟨hvch, setVch_not_fiveNegative hvch h⟩,
      natAbs_signMagnitude_lt_of_le (k := 5) (by decide) hvch⟩

theorem scriptNum_roundTrips_some :
    ShortestForm 4 (-2147483647) ∧ ShortestForm 5 2147483648 ∧
      CScriptNum.ofVch [0xff, 0x80] 4 = some (signMagnitude [0xff, 0x80]) ∧
      ¬ ∃ n : ℤ, CScriptNum.ofVch [0, 0, 0, 0, 0x80] 5 = some n ∧ n.natAbs < 2 ^ 39 :=
  ⟨(scriptNum_roundTrips (-2147483647) []).1 (by decide),
    ((scriptNum_roundTrips 2147483648 []).2.1 (by decide)).mpr (by decide),
    ((scriptNum_roundTrips 0 [0xff, 0x80]).2.2.1 (by decide)).1,
    fun h => ((scriptNum_roundTrips 0 [0, 0, 0, 0, 0x80]).2.2.2 (by decide)).2.mp h
      ⟨rfl, by decide⟩⟩

/-- `-2 ^ 31` is written in five bytes and read as another number. -/
theorem scriptNum_five_bytes_lost :
    ¬ ∀ n : ℤ, n.natAbs < 2 ^ 39 → CScriptNum.ofVch (CScriptNum.serialize n) 5 = some n := by
  intro h
  have hsame := h (-2147483648) (by decide)
  revert hsame
  decide

end Ziftrcoin.Spec
