/-
Module: Ziftrcoin.Proofs.Money
Purpose: Amounts are parsed exactly, and what the printer writes denotes the amount and is
  parsed back.
Trusted boundary: none
Main exports: MoneyText, money_exact
-/
import Ziftrcoin.Spec.Money
import Ziftrcoin.Lib.Radix
import Mathlib.Algebra.Order.Ring.Rat
import Mathlib.Tactic.FieldSimp

namespace Ziftrcoin.Spec

open Ziftrcoin.Lib

/-! ### Decimal numbers -/

/-- Decimal digits and nothing else. -/
def Digits (s : CString) : Prop := ∀ c ∈ s, isdigit c = true

/-- The text behind the whole coins: nothing, or a point and the decimals. -/
def pointText : Option CString → CString
  | none => []
  | some decimals => 46 :: decimals

/-- White space, at most ten digits, optionally a point with at most five digits behind it,
and white space. -/
def MoneyText (psz whole : CString) (decimals? : Option CString) : Prop :=
  SpacesAround psz (whole ++ pointText decimals?) ∧ Digits whole ∧ whole.length ≤ 10 ∧
    ∀ decimals ∈ decimals?, Digits decimals ∧ decimals.length ≤ 5

/-- The number of coins that such a text denotes. -/
def denoted (whole : CString) (decimals? : Option CString) : ℚ :=
  decimalValue whole + decimalValue (decimals?.getD []) / 10 ^ (decimals?.getD []).length

/-- The same in the smallest unit. -/
def denotedUnits (whole decimals : CString) : ℕ :=
  decimalValue whole * 100000 + 10 ^ (5 - decimals.length) * decimalValue decimals

theorem digits_cons {c : UInt8} {s : CString} (h : Digits (c :: s)) : isdigit c = true ∧ Digits s :=
  ⟨h c List.mem_cons_self, fun d hd => h d (List.mem_cons_of_mem _ hd)⟩

theorem digits_append {s t : CString} (hs : Digits s) (ht : Digits t) : Digits (s ++ t) := by
  intro c hc
  obtain hc | hc := List.mem_append.mp hc
  · exact hs c hc
  · exact ht c hc

theorem digitValue_le {c : UInt8} (h : isdigit c = true) : digitValue c ≤ 9 := by
  unfold isdigit at h
  unfold digitValue
  simp only [Bool.and_eq_true, decide_eq_true_eq] at h
  omega

theorem not_isspace_of_isdigit {c : UInt8} (h : isdigit c = true) : isspace c = false := by
  unfold isdigit at h
  unfold isspace
  simp only [Bool.and_eq_true, decide_eq_true_eq] at h
  simp only [Bool.or_eq_false_iff, beq_eq_false_iff_ne, Bool.and_eq_false_iff,
    decide_eq_false_iff_not]
  omega

theorem decimalValue_eq (s : CString) : decimalValue s = Radix.read 10 (s.map digitValue) :=
  Radix.foldl_eq_read digitValue s

theorem decimalValue_append (s t : CString) :
    decimalValue (s ++ t) = 10 ^ t.length * decimalValue s + decimalValue t := by
  rw [decimalValue_eq, List.map_append, Radix.read_append, List.length_map, decimalValue_eq,
    decimalValue_eq]

theorem decimalValue_cons (c : UInt8) (s : CString) :
    decimalValue (c :: s) = 10 ^ s.length * digitValue c + decimalValue s := by
  rw [decimalValue_eq, List.map_cons, Radix.read_cons, List.length_map, decimalValue_eq]

theorem decimalValue_lt {s : CString} (h : Digits s) : decimalValue s < 10 ^ s.length := by
  have hdigits : ∀ d ∈ s.map digitValue, d < 10 := by
    intro d hd
    obtain ⟨c, hc, rfl⟩ := List.mem_map.mp hd
    exact Nat.lt_succ_of_le (digitValue_le (h c hc))
  have hlt := Radix.read_lt (by decide) hdigits
  rw [List.length_map] at hlt
  rw [decimalValue_eq]
  exact hlt

theorem decimalValue_zeros (k : ℕ) : decimalValue (List.replicate k 48) = 0 := by
  have h : Radix.read 10 (List.replicate k 0 ++ []) = Radix.read 10 [] :=
    Radix.read_replicate_zero k []
  rw [List.append_nil] at h
  rw [decimalValue_eq, List.map_replicate]
  exact h

/-- Nothing that is a digit comes first. -/
def StopsDigits (s : CString) : Prop := ∀ c ∈ s.head?, isdigit c = false

theorem stopsDigits_of_spaces {s : CString} (h : ∀ c ∈ s, isspace c = true) : StopsDigits s := by
  intro c hc
  have hspace := h c (List.mem_of_mem_head? hc)
  by_contra hdigit
  rw [not_isspace_of_isdigit (by simpa using hdigit)] at hspace
  cases hspace

/-! ### The loops of the parser -/

theorem int64_of_small {x : ℤ} (hlow : 0 ≤ x) (hhigh : x < 10 ^ 16) : int64 x = x := by
  unfold int64
  apply Int.bmod_eq_of_le <;> omega

/-- The multiplier with `m` digits to read. -/
theorem multiplier_succ (m : ℕ) : (10 : ℤ) ^ (m + 1) / 10 = 10 ^ m := by
  rw [pow_succ, Int.mul_ediv_cancel _ (by decide)]

/-- A digit more in front of `k` digits, where there is room for `m` of them. -/
theorem units_step {m k : ℕ} (h : k ≤ m) (u d v : ℕ) :
    u + 10 ^ m * d + 10 ^ (m - k) * v = u + 10 ^ (m + 1 - (k + 1)) * (10 ^ k * d + v) := by
  have hsplit : 10 ^ (m - k) * 10 ^ k = 10 ^ m := by
    rw [← Nat.pow_add, Nat.sub_add_cancel h]
  rw [Nat.add_sub_add_right, Nat.mul_add, ← Nat.mul_assoc, hsplit, Nat.add_assoc]

theorem unitsLoop_run {m : ℕ} (hm : m ≤ 5) {decimals rest : CString} (hdigits : Digits decimals)
    (hlength : decimals.length ≤ m) (hrest : StopsDigits rest ∨ decimals.length = m) {u : ℕ}
    (hu : u + 10 ^ m ≤ 100000) :
    unitsLoop ((10 ^ m : ℤ) / 10) u (decimals ++ rest) =
      (((u + 10 ^ (m - decimals.length) * decimalValue decimals : ℕ) : ℤ), rest) := by
  induction decimals generalizing m u with
  | nil =>
      have hvalue : u + 10 ^ (m - ([] : CString).length) * decimalValue [] = u := by
        simp [decimalValue]
      rw [hvalue, List.nil_append]
      cases rest with
      | nil => rw [unitsLoop]
      | cons c rest =>
          rw [unitsLoop, if_neg]
          rintro ⟨hdigit, hpos⟩
          obtain hstop | hzero := hrest
          · rw [hstop c rfl] at hdigit
            cases hdigit
          · subst hzero
            exact absurd hpos (by decide)
  | cons c decimals ih =>
      obtain ⟨hc, hdigits'⟩ := digits_cons hdigits
      obtain ⟨m, rfl⟩ : ∃ k, m = k + 1 := ⟨m - 1, by rw [List.length_cons] at hlength; omega⟩
      have hd := digitValue_le hc
      have hpow : 0 < 10 ^ m := Nat.pow_pos (by decide)
      have hstep : u + 10 ^ m * digitValue c + 10 ^ m ≤ 100000 := by
        have hmul : 10 ^ m * digitValue c ≤ 10 ^ m * 9 := Nat.mul_le_mul_left _ hd
        rw [pow_succ] at hu
        omega
      have hpos : (0 : ℤ) < 10 ^ m := Int.pow_pos (by decide)
      have hcast : (10 : ℤ) ^ m * (digitValue c : ℤ) = (10 ^ m * digitValue c : ℕ) := by
        push_cast
        rfl
      have hwrap : int64 (10 ^ m * (digitValue c : ℤ)) = (10 ^ m * digitValue c : ℕ) := by
        rw [hcast]
        exact int64_of_small (Int.natCast_nonneg _) (by omega)
      have hwrap' : int64 ((u : ℤ) + (10 ^ m * digitValue c : ℕ)) =
          (u + 10 ^ m * digitValue c : ℕ) := by
        rw [← Nat.cast_add]
        exact int64_of_small (Int.natCast_nonneg _) (by omega)
      have hnext : ((10 : ℤ) ^ m).tdiv 10 = 10 ^ m / 10 :=
        Int.tdiv_eq_ediv_of_nonneg hpos.le
      have hrest' : StopsDigits rest ∨ decimals.length = m :=
        hrest.imp_right fun h => Nat.succ.inj h
      have hlength' : decimals.length ≤ m := Nat.succ_le_succ_iff.mp hlength
      rw [multiplier_succ, List.cons_append, unitsLoop, if_pos ⟨hc, hpos⟩, hwrap, hwrap', hnext,
        ih (by omega) hdigits' hlength' hrest' hstep, units_step hlength', ← decimalValue_cons]
      rfl

theorem wholeLoop_run {whole : CString} (h : Digits whole) (strWhole rest : CString) :
    wholeLoop strWhole (whole ++ rest) = wholeLoop (strWhole ++ whole) rest := by
  induction whole generalizing strWhole with
  | nil => rw [List.nil_append, List.append_nil]
  | cons c whole ih =>
      obtain ⟨hc, hwhole⟩ := digits_cons h
      have hpoint : c ≠ 46 := by
        rintro rfl
        cases hc
      rw [List.cons_append, wholeLoop, if_neg hpoint, not_isspace_of_isdigit hc, hc]
      simp only [Bool.false_eq_true, if_false, Bool.not_true]
      rw [ih hwhole, List.append_assoc, List.singleton_append]

/-- White space ends the number, and so does the end of the string. -/
theorem wholeLoop_spaces (strWhole : CString) {behind : CString}
    (h : ∀ c ∈ behind, isspace c = true) :
    wholeLoop strWhole behind = some (strWhole, 0, behind) := by
  cases behind with
  | nil => rw [wholeLoop]
  | cons c behind =>
      have hc := h c List.mem_cons_self
      have hpoint : c ≠ 46 := by
        rintro rfl
        cases hc
      rw [wholeLoop, if_neg hpoint, if_pos hc]

theorem wholeLoop_text {whole behind : CString} {decimals? : Option CString} (hwhole : Digits whole)
    (hdecimals : ∀ decimals ∈ decimals?, Digits decimals ∧ decimals.length ≤ 5)
    (hbehind : ∀ c ∈ behind, isspace c = true) :
    wholeLoop [] (whole ++ pointText decimals? ++ behind) =
      some (whole, ((10 ^ (5 - (decimals?.getD []).length) *
        decimalValue (decimals?.getD []) : ℕ) : ℤ), behind) := by
  rw [List.append_assoc, wholeLoop_run hwhole, List.nil_append]
  cases decimals? with
  | none => exact wholeLoop_spaces whole hbehind
  | some decimals =>
      obtain ⟨hdigits, hlength⟩ := hdecimals decimals rfl
      have hrun := unitsLoop_run (le_refl 5) hdigits hlength
        (Or.inl (stopsDigits_of_spaces hbehind)) (u := 0) (by decide)
      rw [Nat.zero_add] at hrun
      change wholeLoop whole (46 :: (decimals ++ behind)) = _
      rw [wholeLoop, if_pos rfl]
      exact congrArg (fun result : ℤ × CString => some (whole, result.1, result.2)) hrun

/-- The number itself has no white space. -/
theorem text_spaceless {whole : CString} {decimals? : Option CString} (hwhole : Digits whole)
    (hdecimals : Digits (decimals?.getD [])) :
    ∀ c ∈ whole ++ pointText decimals?, isspace c = false := by
  intro c hc
  obtain hc | hc := List.mem_append.mp hc
  · exact not_isspace_of_isdigit (hwhole c hc)
  · cases decimals? with
    | none => cases hc
    | some decimals =>
        obtain rfl | hc := List.mem_cons.mp hc
        · decide
        · exact not_isspace_of_isdigit (hdecimals c hc)

theorem denotedUnits_lt {whole decimals : CString} (hwhole : Digits whole)
    (hten : whole.length ≤ 10) (hdecimals : Digits decimals) (hfive : decimals.length ≤ 5) :
    decimalValue whole < 10 ^ 10 ∧
      10 ^ (5 - decimals.length) * decimalValue decimals < 100000 := by
  constructor
  · exact Nat.lt_of_lt_of_le (decimalValue_lt hwhole) (Nat.pow_le_pow_right (by decide) hten)
  · have hpow : 10 ^ (5 - decimals.length) * 10 ^ decimals.length = 100000 := by
      rw [← Nat.pow_add, Nat.sub_add_cancel hfive]
    have hmul := Nat.mul_lt_mul_of_pos_left (decimalValue_lt hdecimals)
      (Nat.pow_pos (by decide : 0 < 10) (n := 5 - decimals.length))
    rw [hpow] at hmul
    exact hmul

/-- Every amount in the grammar is accepted with its exact value. -/
theorem parseMoney_run {psz whole : CString} {decimals? : Option CString}
    (h : MoneyText psz whole decimals?) (nRet : ℤ) :
    ParseMoney psz nRet = (true, (denotedUnits whole (decimals?.getD []) : ℤ)) := by
  obtain ⟨hspaces, hwhole, hten, hdecimals⟩ := h
  have hgrammar : Digits (decimals?.getD []) ∧ (decimals?.getD []).length ≤ 5 := by
    cases decimals? with
    | none => exact ⟨List.forall_mem_nil _, Nat.zero_le 5⟩
    | some decimals => exact hdecimals decimals rfl
  obtain ⟨behind, hbehind, hrest⟩ :=
    dropWhile_spacesAround hspaces (text_spaceless hwhole hgrammar.1)
  obtain ⟨hvalue, hunits⟩ := denotedUnits_lt hwhole hten hgrammar.1 hgrammar.2
  have hany : (behind.any fun c => !isspace c) = false := by
    rw [List.any_eq_false]
    intro c hc
    rw [hbehind c hc]
    exact Bool.false_ne_true
  have hatoi : atoi64 whole = decimalValue whole := by
    unfold atoi64
    omega
  have hcoin : COIN = 100000 := rfl
  unfold ParseMoney
  rw [hrest, wholeLoop_text hwhole hdecimals hbehind]
  simp only [hany, Bool.false_eq_true, if_false]
  rw [if_neg (by omega), if_neg (by omega), hatoi, hcoin]
  rw [int64_of_small (x := (decimalValue whole : ℤ) * 100000) (by omega) (by omega),
    int64_of_small (by omega) (by omega)]
  unfold denotedUnits
  push_cast
  rfl

/-! ### What is accepted -/

theorem unitsLoop_shape {m : ℕ} {u u' : ℤ} {p rest : CString}
    (h : unitsLoop ((10 ^ m : ℤ) / 10) u p = (u', rest)) :
    ∃ decimals, Digits decimals ∧ decimals.length ≤ m ∧ p = decimals ++ rest := by
  induction p generalizing m u with
  | nil =>
      rw [unitsLoop] at h
      obtain ⟨-, rfl⟩ := Prod.mk.inj h
      exact ⟨[], List.forall_mem_nil _, Nat.zero_le m, rfl⟩
  | cons c p ih =>
      rw [unitsLoop] at h
      split_ifs at h with hmore
      · obtain ⟨m, rfl⟩ : ∃ k, m = k + 1 := by
          cases m with
          | zero => exact absurd hmore.2 (by decide)
          | succ m => exact ⟨m, rfl⟩
        have hpos : (0 : ℤ) < 10 ^ m := Int.pow_pos (by decide)
        rw [multiplier_succ, Int.tdiv_eq_ediv_of_nonneg hpos.le] at h
        obtain ⟨decimals, hdigits, hlength, rfl⟩ := ih h
        refine ⟨c :: decimals, ?_, Nat.succ_le_succ hlength, rfl⟩
        exact List.forall_mem_cons.mpr ⟨hmore.1, hdigits⟩
      · obtain ⟨-, rfl⟩ := Prod.mk.inj h
        exact ⟨[], List.forall_mem_nil _, Nat.zero_le m, rfl⟩

theorem wholeLoop_shape {strWhole p strWhole' rest : CString} {nUnits : ℤ}
    (h : wholeLoop strWhole p = some (strWhole', nUnits, rest)) :
    ∃ whole decimals?, strWhole' = strWhole ++ whole ∧ Digits whole ∧
      (∀ decimals ∈ decimals?, Digits decimals ∧ decimals.length ≤ 5) ∧
      p = whole ++ pointText decimals? ++ rest := by
  induction p generalizing strWhole with
  | nil =>
      rw [wholeLoop, Option.some_inj, Prod.mk.injEq, Prod.mk.injEq] at h
      obtain ⟨rfl, -, rfl⟩ := h
      exact ⟨[], none, (List.append_nil _).symm, List.forall_mem_nil _, nofun,
        rfl⟩
  | cons c p ih =>
      rw [wholeLoop] at h
      split_ifs at h with hpoint hspace hdigit
      · -- the point
        rw [Option.some_inj, Prod.mk.injEq, Prod.mk.injEq] at h
        obtain ⟨rfl, hunits, hrest⟩ := h
        obtain ⟨decimals, hdigits, hlength, hp⟩ :=
          unitsLoop_shape (m := 5) (u := 0) (p := p) (Prod.mk.eta.symm : _ = (_, _))
        refine ⟨[], some decimals, (List.append_nil _).symm, List.forall_mem_nil _, ?_, ?_⟩
        · rintro _ ⟨⟩
          exact ⟨hdigits, hlength⟩
        · subst hpoint hrest
          exact congrArg (46 :: ·) hp
      · rw [Option.some_inj, Prod.mk.injEq, Prod.mk.injEq] at h
        obtain ⟨rfl, -, rfl⟩ := h
        exact ⟨[], none, (List.append_nil _).symm, List.forall_mem_nil _, nofun,
        rfl⟩
      · obtain ⟨whole, decimals?, rfl, hwhole, hdecimals, rfl⟩ := ih h
        refine ⟨c :: whole, decimals?, by simp, ?_, hdecimals, rfl⟩
        exact List.forall_mem_cons.mpr ⟨by simpa using hdigit, hwhole⟩

/-- What is accepted is in the grammar. -/
theorem moneyText_of_parseMoney {psz : CString} {nRet : ℤ} (h : (ParseMoney psz nRet).1 = true) :
    ∃ whole decimals?, MoneyText psz whole decimals? := by
  unfold ParseMoney at h
  cases hloop : wholeLoop [] (psz.dropWhile isspace) with
  | none =>
      rw [hloop] at h
      cases h
  | some result =>
      obtain ⟨strWhole, nUnits, p⟩ := result
      rw [hloop] at h
      dsimp only at h
      split_ifs at h with hspaces hten
      obtain ⟨whole, decimals?, hsame, hwhole, hdecimals, hp⟩ := wholeLoop_shape hloop
      rw [hsame, List.nil_append] at hten
      refine ⟨whole, decimals?, ?_, hwhole, by omega, hdecimals⟩
      refine ⟨psz.takeWhile isspace, p, ?_, fun c hc => List.mem_takeWhile_imp hc, ?_⟩
      · rw [List.append_assoc, ← hp, List.takeWhile_append_dropWhile]
      · simpa using hspaces

theorem parseMoney_failed {psz : CString} {nRet : ℤ} (h : (ParseMoney psz nRet).1 = false) :
    (ParseMoney psz nRet).2 = nRet := by
  unfold ParseMoney at h ⊢
  split
  · rfl
  · rename_i hloop
    rw [hloop] at h
    dsimp only at h ⊢
    split_ifs at h ⊢
    all_goals rfl

/-! ### The printer -/

/-- The character of a digit. -/
def digitChar (d : ℕ) : UInt8 := UInt8.ofNat (48 + d)

theorem digitChar_spec : ∀ d < 10, isdigit (digitChar d) = true ∧ digitValue (digitChar d) = d ∧
    chars [Nat.digitChar d] = [digitChar d] := by decide

theorem decimal_eq (n : ℕ) :
    decimal n = if n < 10 then [digitChar n] else decimal (n / 10) ++ [digitChar (n % 10)] := by
  unfold decimal
  rw [Nat.toDigits_eq_if (by decide)]
  split_ifs with h
  · exact (digitChar_spec n h).2.2
  · have hlast := (digitChar_spec (n % 10) (Nat.mod_lt n (by decide))).2.2
    rw [← hlast]
    exact List.map_append

theorem decimal_spec (n : ℕ) : Digits (decimal n) ∧ decimalValue (decimal n) = n := by
  induction n using Nat.strongRecOn with
  | ind n ih =>
      rw [decimal_eq]
      split_ifs with h
      · obtain ⟨hdigit, hvalue, -⟩ := digitChar_spec n h
        refine ⟨List.forall_mem_cons.mpr ⟨hdigit, List.forall_mem_nil _⟩, ?_⟩
        simp [decimalValue, hvalue]
      · obtain ⟨hdigit, hvalue, -⟩ := digitChar_spec (n % 10) (Nat.mod_lt n (by decide))
        obtain ⟨hdigits, hprevious⟩ := ih (n / 10) (by omega)
        have hlast : Digits [digitChar (n % 10)] :=
          List.forall_mem_cons.mpr ⟨hdigit, List.forall_mem_nil _⟩
        refine ⟨digits_append hdigits hlast, ?_⟩
        have hsingle : decimalValue [digitChar (n % 10)] = n % 10 := by
          rw [decimalValue_cons, hvalue]
          simp [decimalValue]
        rw [decimalValue_append, hprevious, hsingle, List.length_singleton]
        omega

theorem length_decimal_le {n k : ℕ} (hk : 0 < k) (h : n < 10 ^ k) : (decimal n).length ≤ k := by
  unfold decimal chars
  rw [List.length_map]
  exact (Nat.length_toDigits_le_iff (by decide) hk).mpr h

theorem printInt05_spec {r : ℕ} (hr : r < 100000) :
    Digits (printInt05 r) ∧ (printInt05 r).length = 5 ∧ decimalValue (printInt05 r) = r := by
  obtain ⟨hdigits, hvalue⟩ := decimal_spec r
  have hlength := length_decimal_le (k := 5) (by decide) hr
  unfold printInt05
  rw [if_neg (by omega), Int.natAbs_natCast]
  refine ⟨digits_append ?_ hdigits, ?_, ?_⟩
  · intro c hc
    rw [List.eq_of_mem_replicate hc]
    rfl
  · rw [List.length_append, List.length_replicate]
    omega
  · rw [decimalValue_append, decimalValue_zeros, hvalue, Nat.mul_zero, Nat.zero_add]

/-- What is printed before the zeros are trimmed: whole coins, a point, five decimals. -/
theorem moneyDigits_spec {n : ℤ} (hlow : -2 ^ 63 < n) (hhigh : n < 2 ^ 63) :
    ∃ decimals, moneyDigits n = decimal (n.natAbs / 100000) ++ 46 :: decimals ∧ Digits decimals ∧
      decimals.length = 5 ∧ decimalValue decimals = n.natAbs % 100000 := by
  have habs : (if n > 0 then n else int64 (-n)) = (n.natAbs : ℤ) := by
    split_ifs with h
    · omega
    · have hwrap : int64 (-n) = -n := by
        unfold int64
        apply Int.bmod_eq_of_le <;> omega
      rw [hwrap]
      omega
  have hr : n.natAbs % 100000 < 100000 := Nat.mod_lt _ (by decide)
  obtain ⟨hdigits, hlength, hvalue⟩ := printInt05_spec hr
  refine ⟨printInt05 (n.natAbs % 100000 : ℕ), ?_, hdigits, hlength, hvalue⟩
  have hquotient : (n.natAbs : ℤ).tdiv COIN = (n.natAbs / 100000 : ℕ) := rfl
  have hremainder : (n.natAbs : ℤ).tmod COIN = (n.natAbs % 100000 : ℕ) := rfl
  unfold moneyDigits printInt
  dsimp only
  rw [habs, hquotient, hremainder, if_neg (by omega), Int.natAbs_natCast]

/-! ### Trimming -/

/-- The zeros at the end of five decimals that are trimmed. -/
def trimmed (c d e : UInt8) : ℕ :=
  if e = 48 then if d = 48 then if c = 48 then 3 else 2 else 1 else 0

theorem trimLoop_succ {str : CString} {i : ℕ} {c d : UInt8} (hc : str[i + 2]? = some c)
    (hd : str[i]? = some d) :
    trimLoop str (i + 2) =
      if c = 48 then if isdigit d then (trimLoop str (i + 1)).map (· + 1) else some 0
      else some 0 := by
  rw [trimLoop, hc, hd]
  simp only [Option.bind_eq_bind, Option.bind_some]
  split_ifs
  · cases trimLoop str (i + 1) <;> rfl
  · rfl
  · rfl

theorem trimLoop_decimals (whole : CString) {a b c d e : UInt8} (ha : isdigit a = true)
    (hb : isdigit b = true) (hc : isdigit c = true) :
    trimLoop (whole ++ [46, a, b, c, d, e]) (whole.length + 5) = some (trimmed c d e) := by
  have hread : ∀ j, (whole ++ [46, a, b, c, d, e])[whole.length + j]? =
      [46, a, b, c, d, e][j]? := by
    intro j
    rw [List.getElem?_append_right (Nat.le_add_right _ j), Nat.add_sub_cancel_left]
  -- the point stands two places before the second decimal
  have hthree : trimLoop (whole ++ [46, a, b, c, d, e]) (whole.length + 2) = some 0 := by
    rw [trimLoop_succ (hread 2) (hread 0)]
    split_ifs with _ hpoint
    · cases hpoint
    · rfl
    · rfl
  rw [trimLoop_succ (hread 5) (hread 3), if_pos hc]
  rw [trimLoop_succ (hread 4) (hread 2), if_pos hb]
  rw [trimLoop_succ (hread 3) (hread 1), if_pos ha, hthree]
  unfold trimmed
  split_ifs <;> rfl

/-- The sign that is printed. -/
def signText (n : ℤ) (fPlus : Bool) : CString :=
  if n < 0 then [45] else if fPlus ∧ n > 0 then [43] else []

/-- Five decimals are trimmed to two at least, and what is cut off is zeros. -/
theorem trim_decimals (whole : CString) {decimals : CString} (hdigits : Digits decimals)
    (hlength : decimals.length = 5) :
    ∃ nTrim kept, trimLoop (whole ++ 46 :: decimals) (whole.length + 5) = some nTrim ∧
      (whole ++ 46 :: decimals).take (whole.length + 6 - nTrim) = whole ++ 46 :: kept ∧
      decimals = kept ++ List.replicate nTrim 48 ∧ 2 ≤ kept.length ∧ kept.length + nTrim = 5 := by
  match decimals, hlength with
  | [a, b, c, d, e], _ =>
      obtain ⟨ha, hdigits⟩ := digits_cons hdigits
      obtain ⟨hb, hdigits⟩ := digits_cons hdigits
      have hc := (digits_cons hdigits).1
      have htake : ∀ k, k ≤ 6 → (whole ++ [46, a, b, c, d, e]).take (whole.length + 6 - k) =
          whole ++ [46, a, b, c, d, e].take (6 - k) := by
        intro k hk
        rw [Nat.add_sub_assoc hk, List.take_length_add_append]
      refine ⟨trimmed c d e, [a, b, c, d, e].take (5 - trimmed c d e),
        trimLoop_decimals whole ha hb hc, ?_⟩
      unfold trimmed
      split_ifs with he hd hc
      · subst he hd hc
        exact ⟨htake 3 (by decide), rfl, le_refl 2, rfl⟩
      · subst he hd
        exact ⟨htake 2 (by decide), rfl, (by decide : 2 ≤ 3), rfl⟩
      · subst he
        exact ⟨htake 1 (by decide), rfl, (by decide : 2 ≤ 4), rfl⟩
      · exact ⟨htake 0 (by decide), rfl, (by decide : 2 ≤ 5), rfl⟩

/-- What is printed: the sign, the whole coins, and decimals up to the last digit that is not
zero, but two at least. -/
theorem formatMoney_eq {n : ℤ} (hlow : -2 ^ 63 < n) (hhigh : n < 2 ^ 63) (fPlus : Bool) :
    ∃ kept nTrim, FormatMoney n fPlus =
        some (signText n fPlus ++ (decimal (n.natAbs / 100000) ++ 46 :: kept)) ∧
      moneyDigits n = decimal (n.natAbs / 100000) ++ 46 :: kept ++ List.replicate nTrim 48 ∧
      Digits kept ∧ 2 ≤ kept.length ∧ kept.length ≤ 5 ∧
      denotedUnits (decimal (n.natAbs / 100000)) kept = n.natAbs := by
  obtain ⟨decimals, hstr, hdigits, hlength, hvalue⟩ := moneyDigits_spec hlow hhigh
  obtain ⟨nTrim, kept, hloop, htake, rfl, htwo, hfive⟩ :=
    trim_decimals (decimal (n.natAbs / 100000)) hdigits hlength
  refine ⟨kept, nTrim, ?_, ?_, ?_, htwo, by omega, ?_⟩
  · have hsize : (moneyDigits n).length = (decimal (n.natAbs / 100000)).length + 6 := by
      rw [hstr, List.length_append, List.length_cons, hlength]
    have hne : moneyDigits n ≠ [] := by
      intro hnil
      rw [hnil] at hsize
      cases hsize
    unfold FormatMoney signText
    dsimp only
    rw [if_neg hne, hsize, hstr]
    change (trimLoop _ (_ + 5)).bind _ = _
    rw [hloop, Option.bind_some, htake]
    split_ifs <;> rfl
  · rw [hstr, List.append_assoc, List.cons_append]
  · exact fun c hc => hdigits c (List.mem_append_left _ hc)
  · have hback : 5 - kept.length = nTrim := by omega
    rw [decimalValue_append, decimalValue_zeros, List.length_replicate, Nat.add_zero] at hvalue
    unfold denotedUnits
    rw [(decimal_spec _).2, hback, hvalue]
    omega

/-! ### Exactness -/

theorem denoted_mul (whole : CString) {decimals? : Option CString}
    (h : (decimals?.getD []).length ≤ 5) :
    denoted whole decimals? * (COIN : ℚ) = (denotedUnits whole (decimals?.getD []) : ℤ) := by
  have hpow : (10 : ℚ) ^ (5 - (decimals?.getD []).length) * 10 ^ (decimals?.getD []).length =
      100000 := by
    rw [← pow_add, Nat.sub_add_cancel h]
    norm_num
  have hpos : (10 : ℚ) ^ (decimals?.getD []).length ≠ 0 := pow_ne_zero _ (by norm_num)
  have hcoin : (COIN : ℚ) = 100000 := rfl
  unfold denoted denotedUnits
  push_cast
  rw [add_mul, hcoin]
  congr 1
  rw [← hpow]
  field_simp

/-- Amounts are parsed exactly: the accepted strings are those of the grammar, their value is
the number they denote, and on failure the output argument keeps its value.  What the printer
writes is read without a look before the string, denotes the amount, and is parsed back. -/
theorem money_exact (nRet : ℤ) :
    (∀ psz, (ParseMoney psz nRet).1 = true ↔ ∃ whole decimals?, MoneyText psz whole decimals?) ∧
    (∀ psz whole decimals?, MoneyText psz whole decimals? →
      ((ParseMoney psz nRet).2 : ℚ) = denoted whole decimals? * COIN) ∧
    (∀ psz, (ParseMoney psz nRet).1 = false → (ParseMoney psz nRet).2 = nRet) ∧
    (∀ n : ℤ, 0 ≤ n → n < 10 ^ 15 →
      ∃ str, FormatMoney n false = some str ∧ ParseMoney str nRet = (true, n)) ∧
    ∀ (n : ℤ) (fPlus : Bool), -2 ^ 63 < n → n < 2 ^ 63 → ∃ whole decimals nTrim,
      FormatMoney n fPlus = some (signText n fPlus ++ (whole ++ 46 :: decimals)) ∧
      moneyDigits n = whole ++ 46 :: decimals ++ List.replicate nTrim 48 ∧
      Digits whole ∧ Digits decimals ∧ 2 ≤ decimals.length ∧
      denoted whole (some decimals) * COIN = |(n : ℚ)| := by
  refine ⟨?_, ?_, ?_, ?_, ?_⟩
  · intro psz
    constructor
    · exact moneyText_of_parseMoney
    · rintro ⟨whole, decimals?, h⟩
      rw [parseMoney_run h]
  · intro psz whole decimals? h
    have hlength : (decimals?.getD []).length ≤ 5 := by
      cases decimals? with
      | none => exact Nat.zero_le 5
      | some decimals => exact (h.2.2.2 decimals rfl).2
    rw [parseMoney_run h, denoted_mul whole hlength]
  · intro psz h
    exact parseMoney_failed h
  · intro n hlow hhigh
    obtain ⟨kept, _, hformat, _, hdigits, _, hfive, hunits⟩ :=
      formatMoney_eq (n := n) (by omega) (by omega) false
    have hsign : signText n false = [] := by
      unfold signText
      rw [if_neg (by omega), if_neg (fun h => nomatch h.1)]
    have htext : MoneyText (decimal (n.natAbs / 100000) ++ 46 :: kept)
        (decimal (n.natAbs / 100000)) (some kept) := by
      refine ⟨⟨[], [], ?_, List.forall_mem_nil _, List.forall_mem_nil _⟩, (decimal_spec _).1,
        length_decimal_le (by decide) (by omega), ?_⟩
      · rw [List.nil_append, List.append_nil]
        rfl
      · rintro _ ⟨⟩
        exact ⟨hdigits, hfive⟩
    rw [hsign, List.nil_append] at hformat
    refine ⟨_, hformat, ?_⟩
    rw [parseMoney_run htext, Option.getD_some, hunits, Int.natAbs_of_nonneg hlow]
  · intro n fPlus hlow hhigh
    obtain ⟨kept, nTrim, hformat, hstr, hdigits, htwo, hfive, hunits⟩ :=
      formatMoney_eq hlow hhigh fPlus
    refine ⟨_, kept, nTrim, hformat, hstr, (decimal_spec _).1, hdigits, htwo, ?_⟩
    have hlength : ((some kept).getD []).length ≤ 5 := hfive
    rw [denoted_mul _ hlength, Option.getD_some, hunits, Int.natCast_natAbs, Int.cast_abs]

end Ziftrcoin.Spec
