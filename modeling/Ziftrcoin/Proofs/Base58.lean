/-
Module: Ziftrcoin.Proofs.Base58
Purpose: Text in base 58 and byte strings are the same positional numbers, and the buffers
  of the two conversions are large enough.
Trusted boundary: none
Main exports: multiplyAdd_spec, base58_inverse
-/
import Ziftrcoin.Spec.Base58
import Ziftrcoin.Lib.Radix

namespace Ziftrcoin.Spec

open Ziftrcoin.Lib

/-! ### Digits in memory -/

/-- The number in a vector of digits, the highest one first. -/
def vectorValue (base : ℕ) (b : valtype) : ℕ := Radix.read base (b.map UInt8.toNat)

/-- Every byte is a digit. -/
def DigitsBelow (base : ℕ) (b : valtype) : Prop := ∀ d ∈ b, d.toNat < base

/-- Digits as bytes. -/
def digitBytes (digits : List ℕ) : valtype := digits.map UInt8.ofNat

/-- Digits as characters. -/
def digitChars58 (digits : List ℕ) : CString := digits.map (charAt pszBase58)

theorem map_toNat_digitBytes {digits : List ℕ} (h : ∀ d ∈ digits, d < 256) :
    (digitBytes digits).map UInt8.toNat = digits := by
  unfold digitBytes
  rw [List.map_map]
  calc digits.map (UInt8.toNat ∘ UInt8.ofNat)
      = digits.map id := List.map_congr_left fun d hd => UInt8.toNat_ofNat_of_lt' (h d hd)
    _ = digits := List.map_id digits

theorem digitBytes_map_toNat (b : valtype) : digitBytes (b.map UInt8.toNat) = b := by
  unfold digitBytes
  rw [List.map_map]
  exact List.map_id'' (fun _ => UInt8.ofNat_toNat) b

/-- A digit of the carry loop: what the digits above it carry belongs to it. -/
theorem carry_step {n base high high' room carry' mul : ℕ}
    (h : high' + room * carry' = n / base + mul * high) :
    n % base + base * high' + base * room * carry' = n + mul * (base * high) := by
  have hdiv := Nat.mod_add_div n base
  calc n % base + base * high' + base * room * carry'
      = n % base + base * (high' + room * carry') := by ring
    _ = n % base + base * (n / base) + mul * (base * high) := by rw [h]; ring
    _ = n + mul * (base * high) := by rw [hdiv]

theorem carryLoop_spec {base : ℕ} (hbase : 1 < base) (hbyte : base ≤ 256) (mul carry : ℕ)
    (bs : valtype) :
    Nat.ofDigits base ((carryLoop mul base carry bs).1.map UInt8.toNat) +
        base ^ bs.length * (carryLoop mul base carry bs).2 =
      carry + mul * Nat.ofDigits base (bs.map UInt8.toNat) ∧
    (carryLoop mul base carry bs).1.length = bs.length ∧
    DigitsBelow base (carryLoop mul base carry bs).1 := by
  induction bs generalizing carry with
  | nil =>
      refine ⟨?_, rfl, List.forall_mem_nil _⟩
      simp [carryLoop]
  | cons b bs ih =>
      obtain ⟨hvalue, hlength, hdigits⟩ := ih ((carry + mul * b.toNat) / base)
      have hmod : (carry + mul * b.toNat) % base < base := Nat.mod_lt _ (by omega)
      have hhead : (UInt8.ofNat ((carry + mul * b.toNat) % base)).toNat =
          (carry + mul * b.toNat) % base := by
        rw [UInt8.toNat_ofNat', Nat.mod_eq_of_lt (by omega)]
      rw [carryLoop]
      dsimp only
      refine ⟨?_, by rw [List.length_cons, hlength, List.length_cons], ?_⟩
      · rw [List.map_cons, List.map_cons, Nat.ofDigits_cons, Nat.ofDigits_cons, hhead,
          List.length_cons, pow_succ', carry_step hvalue]
        ring
      · exact List.forall_mem_cons.mpr ⟨by rw [hhead]; exact hmod, hdigits⟩

/-- With room for the result nothing is carried out of the vector. -/
theorem multiplyAdd_spec {base : ℕ} (hbase : 1 < base) (hbyte : base ≤ 256) {mul carry : ℕ}
    {b : valtype} (hroom : mul * vectorValue base b + carry < base ^ b.length) :
    ∃ b', multiplyAdd mul base carry b = (b', 0) ∧
      vectorValue base b' = mul * vectorValue base b + carry ∧ b'.length = b.length ∧
      DigitsBelow base b' := by
  obtain ⟨hvalue, hlength, hdigits⟩ := carryLoop_spec hbase hbyte mul carry b.reverse
  rw [List.length_reverse] at hvalue hlength
  have hread : ∀ bs : valtype,
      vectorValue base bs.reverse = Nat.ofDigits base (bs.map UInt8.toNat) := by
    intro bs
    unfold vectorValue Radix.read
    rw [List.map_reverse, List.reverse_reverse]
  have hb := hread b.reverse
  rw [List.reverse_reverse] at hb
  rw [← hb, ← hread] at hvalue
  have hcarry : (carryLoop mul base carry b.reverse).2 = 0 := by
    by_contra hne
    have hmul := Nat.mul_le_mul_left (base ^ b.length) (Nat.one_le_iff_ne_zero.mpr hne)
    omega
  refine ⟨(carryLoop mul base carry b.reverse).1.reverse, ?_, ?_, ?_, ?_⟩
  · unfold multiplyAdd
    rw [← hcarry]
  · rw [hcarry, Nat.mul_zero, Nat.add_zero] at hvalue
    rw [hvalue, Nat.add_comm]
  · rw [List.length_reverse, hlength]
  · exact fun d hd => hdigits d (List.mem_reverse.mp hd)

theorem vectorValue_zeros (base k : ℕ) : vectorValue base (List.replicate k 0) = 0 := by
  have h : Radix.read base (List.replicate k 0 ++ []) = Radix.read base [] :=
    Radix.read_replicate_zero k []
  rw [List.append_nil, Radix.read_nil] at h
  unfold vectorValue
  rw [List.map_replicate]
  exact h

/-- What is left of a vector without the zeros in front. -/
theorem dropWhile_zeros {base : ℕ} (hbase : 1 < base) {b : valtype} (h : DigitsBelow base b) :
    b.dropWhile (· == 0) = digitBytes (Nat.digits base (vectorValue base b)).reverse := by
  have hdigits : ∀ d ∈ b.map UInt8.toNat, d < base := by
    intro d hd
    obtain ⟨c, hc, rfl⟩ := List.mem_map.mp hd
    exact h c hc
  have hexpand := congrArg (List.dropWhile (· == 0)) (Radix.eq_expand hbase hdigits)
  rw [Radix.dropWhile_expand] at hexpand
  have hmap : (b.map UInt8.toNat).dropWhile (· == 0) = (b.dropWhile (· == 0)).map UInt8.toNat := by
    rw [List.dropWhile_map]
    congr 2
    funext c
    exact Bool.eq_iff_iff.mpr (by simp [← UInt8.toNat_inj])
  have hfinal := congrArg digitBytes (hmap.symm.trans hexpand)
  rw [digitBytes_map_toNat] at hfinal
  exact hfinal

/-! ### Room -/

/-- There is room for `k` more digits of the base `mul`. -/
def Room (mul base k : ℕ) (b : valtype) : Prop :=
  mul ^ k * (vectorValue base b + 1) ≤ base ^ b.length

theorem room_zeros {mul base p q : ℕ} (hbase : 0 < base) (hq : 0 < q) (h : mul ^ q ≤ base ^ p)
    (k : ℕ) : Room mul base k (List.replicate (k * p / q + 1) 0) := by
  unfold Room
  rw [vectorValue_zeros, Nat.zero_add, Nat.mul_one, List.length_replicate]
  exact Radix.pow_le_pow_ratio hbase hq h k

/-- A digit takes its room and leaves the rest. -/
theorem multiplyAdd_room {mul base : ℕ} (hbase : 1 < base) (hbyte : base ≤ 256) {k carry : ℕ}
    {b : valtype} (hcarry : carry < mul) (h : Room mul base (k + 1) b) :
    ∃ b', multiplyAdd mul base carry b = (b', 0) ∧
      vectorValue base b' = mul * vectorValue base b + carry ∧ DigitsBelow base b' ∧
      Room mul base k b' := by
  unfold Room at h
  have hpos : 0 < mul ^ k := Nat.pow_pos (by omega)
  have hscaled : mul ^ k * (mul * vectorValue base b + carry + 1) ≤ base ^ b.length := by
    calc mul ^ k * (mul * vectorValue base b + carry + 1)
        ≤ mul ^ k * (mul * (vectorValue base b + 1)) := by
          apply Nat.mul_le_mul_left
          rw [Nat.mul_add, Nat.mul_one]
          omega
      _ = mul ^ (k + 1) * (vectorValue base b + 1) := by ring
      _ ≤ base ^ b.length := h
  have hroom : mul * vectorValue base b + carry < base ^ b.length :=
    Nat.lt_of_lt_of_le (Nat.lt_of_lt_of_le (Nat.lt_succ_self _) (Nat.le_mul_of_pos_left _ hpos))
      hscaled
  obtain ⟨b', hrun, hvalue, hlength, hdigits⟩ := multiplyAdd_spec hbase hbyte hroom
  refine ⟨b', hrun, hvalue, hdigits, ?_⟩
  unfold Room
  rw [hvalue, hlength]
  exact hscaled

/-! ### Encoding -/

theorem encodeLoop58_run {b58 bytes : valtype} (hb58 : DigitsBelow 58 b58)
    (hroom : Room 256 58 bytes.length b58) :
    ∃ b58', encodeLoop58 b58 bytes = some b58' ∧ DigitsBelow 58 b58' ∧
      vectorValue 58 b58' = 256 ^ bytes.length * vectorValue 58 b58 + vectorValue 256 bytes := by
  induction bytes generalizing b58 with
  | nil => exact ⟨b58, rfl, hb58, by simp [vectorValue, Radix.read_nil]⟩
  | cons byte bytes ih =>
      obtain ⟨b', hrun, hvalue, hdigits, hroom'⟩ :=
        multiplyAdd_room (by decide) (by decide) byte.toNat_lt hroom
      obtain ⟨b58', hloop, hdigits', hvalue'⟩ := ih hdigits hroom'
      refine ⟨b58', ?_, hdigits', ?_⟩
      · rw [encodeLoop58, hrun]
        exact hloop
      · have hcons : vectorValue 256 (byte :: bytes) =
            256 ^ bytes.length * byte.toNat + vectorValue 256 bytes := by
          unfold vectorValue
          rw [List.map_cons, Radix.read_cons, List.length_map]
        rw [hvalue', hvalue, hcons, List.length_cons]
        ring

/-- Eight bits a byte, and more than 5.797 bits a digit. -/
theorem room_for_bytes : 256 ^ 100 ≤ 58 ^ 138 := by decide +kernel

theorem room_for_digits : 58 ^ 1000 ≤ 256 ^ 733 := by decide +kernel

/-! ### Leading zeros -/

/-- Zeros in front of a number, written with the characters of its digits. -/
theorem leading_zeros {base : ℕ} (hbase : 1 < base) {f : ℕ → UInt8}
    (hf : ∀ d < base, f d = f 0 → d = 0) (zeroes n : ℕ) {rest : CString}
    (hrest : ∀ c ∈ rest.head?, c ≠ f 0) :
    ((Radix.expand base zeroes n).map f ++ rest).takeWhile (· == f 0) =
        List.replicate zeroes (f 0) ∧
      ((Radix.expand base zeroes n).map f ++ rest).dropWhile (· == f 0) =
        (Nat.digits base n).reverse.map f ++ rest := by
  have hsplit : (Radix.expand base zeroes n).map f ++ rest =
      List.replicate zeroes (f 0) ++ ((Nat.digits base n).reverse.map f ++ rest) := by
    unfold Radix.expand
    rw [List.map_append, List.map_replicate, List.append_assoc]
  have htail : ((Nat.digits base n).reverse.map f ++ rest).takeWhile (· == f 0) = [] := by
    cases hdigits : (Nat.digits base n).reverse with
    | nil =>
        cases rest with
        | nil => rfl
        | cons c rest => exact List.takeWhile_cons_of_neg (by simpa using hrest c rfl)
    | cons d digits =>
        have hhead : d ∈ (Nat.digits base n).reverse.head? := by
          rw [hdigits]
          rfl
        have hd : d ≠ 0 := Radix.head_ne_zero hhead
        have hlt : d < base := by
          apply Nat.digits_lt_base hbase (m := n)
          apply List.mem_reverse.mp
          rw [hdigits]
          exact List.mem_cons_self
        exact List.takeWhile_cons_of_neg (by simpa using fun h => hd (hf d hlt h))
  have htake : ((Radix.expand base zeroes n).map f ++ rest).takeWhile (· == f 0) =
      List.replicate zeroes (f 0) := by
    rw [hsplit, List.takeWhile_append_of_pos fun c hc => by
      rw [List.eq_of_mem_replicate hc]
      exact beq_self_eq_true _, htail, List.append_nil]
  refine ⟨htake, ?_⟩
  have hwhole := List.takeWhile_append_dropWhile (p := (· == f 0))
    (l := (Radix.expand base zeroes n).map f ++ rest)
  rw [htake] at hwhole
  exact List.append_cancel_left (hwhole.trans hsplit)

theorem digits_below {base n : ℕ} (hbase : 1 < base) :
    ∀ d ∈ (Nat.digits base n).reverse, d < base :=
  fun _ hd => Nat.digits_lt_base hbase (List.mem_reverse.mp hd)

theorem vectorValue_digits {base : ℕ} (hbase : 1 < base) (hbyte : base ≤ 256) (n : ℕ) :
    vectorValue base (digitBytes (Nat.digits base n).reverse) = n := by
  unfold vectorValue
  rw [map_toNat_digitBytes fun d hd => Nat.lt_of_lt_of_le (digits_below hbase d hd) hbyte]
  exact Radix.read_expand 0 n

/-! ### Characters -/

theorem base58_digit : ∀ d < 58, pszBase58.idxOf? (charAt pszBase58 d) = some d ∧
    isspace (charAt pszBase58 d) = false ∧ charAt pszBase58 d ∈ pszBase58 ∧
    (charAt pszBase58 d = charAt pszBase58 0 → d = 0) := by
  decide +kernel

theorem base58_length : pszBase58.length = 58 := by decide

theorem idxOf_eq_some {c : UInt8} {digit : ℕ} (h : pszBase58.idxOf? c = some digit) :
    digit < 58 ∧ charAt pszBase58 digit = c := by
  obtain ⟨hlt, hget, _⟩ := List.idxOf?_eq_some_iff.mp h
  refine ⟨Nat.lt_of_lt_of_eq hlt base58_length, ?_⟩
  unfold charAt
  rw [List.getD_eq_getElem _ _ hlt, hget]

/-- Text in base 58 is the characters of some digits. -/
theorem exists_digits {body : CString} (h : ∀ c ∈ body, c ∈ pszBase58) :
    ∃ digits, (∀ d ∈ digits, d < 58) ∧ body = digitChars58 digits := by
  induction body with
  | nil => exact ⟨[], List.forall_mem_nil _, rfl⟩
  | cons c body ih =>
      obtain ⟨digits, hdigits, rfl⟩ := ih fun d hd => h d (List.mem_cons_of_mem _ hd)
      cases hindex : pszBase58.idxOf? c with
      | none => exact absurd (h c List.mem_cons_self) (List.idxOf?_eq_none_iff.mp hindex)
      | some digit =>
          obtain ⟨hlt, rfl⟩ := idxOf_eq_some hindex
          exact ⟨digit :: digits, List.forall_mem_cons.mpr ⟨hlt, hdigits⟩, rfl⟩

theorem mem_digitChars58 {digits : List ℕ} (h : ∀ d ∈ digits, d < 58) {c : UInt8}
    (hc : c ∈ digitChars58 digits) : isspace c = false ∧ c ∈ pszBase58 := by
  obtain ⟨d, hd, rfl⟩ := List.mem_map.mp hc
  obtain ⟨_, hspace, hmem, _⟩ := base58_digit d (h d hd)
  exact ⟨hspace, hmem⟩

theorem expand_below {base : ℕ} (hbase : 1 < base) (zeroes n : ℕ) :
    ∀ d ∈ Radix.expand base zeroes n, d < base := by
  intro d hd
  obtain hd | hd := List.mem_append.mp hd
  · rw [List.eq_of_mem_replicate hd]
    omega
  · exact digits_below hbase d hd

theorem leading_bytes (zeroes n : ℕ) :
    (digitBytes (Radix.expand 256 zeroes n)).takeWhile (· == 0) = List.replicate zeroes 0 ∧
      (digitBytes (Radix.expand 256 zeroes n)).dropWhile (· == 0) =
        digitBytes (Nat.digits 256 n).reverse := by
  have hinj : ∀ d < 256, UInt8.ofNat d = UInt8.ofNat 0 → d = 0 := by
    intro d hd h
    have htoNat := congrArg UInt8.toNat h
    rw [UInt8.toNat_ofNat_of_lt' hd] at htoNat
    exact htoNat
  have hnil : ∀ c ∈ ([] : CString).head?, c ≠ UInt8.ofNat 0 := nofun
  have h := leading_zeros (by decide : 1 < 256) hinj zeroes n hnil
  rw [List.append_nil, List.append_nil] at h
  exact h

theorem base58_zero : charAt pszBase58 0 = 49 := by decide

theorem leading_chars (zeroes n : ℕ) {rest : CString} (hrest : ∀ c ∈ rest.head?, c ≠ 49) :
    (digitChars58 (Radix.expand 58 zeroes n) ++ rest).takeWhile (· == 49) =
        List.replicate zeroes 49 ∧
      (digitChars58 (Radix.expand 58 zeroes n) ++ rest).dropWhile (· == 49) =
        digitChars58 (Nat.digits 58 n).reverse ++ rest := by
  rw [← base58_zero] at hrest ⊢
  exact leading_zeros (by decide) (fun d hd => (base58_digit d hd).2.2.2) zeroes n hrest

theorem chars_of_bytes {digits : List ℕ} (h : ∀ d ∈ digits, d < 58) :
    (digitBytes digits).map (fun d => charAt pszBase58 d.toNat) = digitChars58 digits := by
  have hback := map_toNat_digitBytes fun d hd => Nat.lt_trans (h d hd) (by decide)
  unfold digitChars58
  conv_rhs => rw [← hback, List.map_map]
  rfl

/-- The text of zeros and a number. -/
theorem encodeBase58_expand (zeroes n : ℕ) :
    EncodeBase58 (digitBytes (Radix.expand 256 zeroes n)) =
      some (digitChars58 (Radix.expand 58 zeroes n)) := by
  obtain ⟨htake, hdrop⟩ := leading_bytes zeroes n
  have hroom := room_zeros (by decide) (by decide) room_for_bytes
    (digitBytes (Nat.digits 256 n).reverse).length
  obtain ⟨b58, hrun, hbelow, hvalue⟩ := encodeLoop58_run
    (fun d hd => by rw [List.eq_of_mem_replicate hd]; decide) hroom
  rw [vectorValue_zeros, Nat.mul_zero, Nat.zero_add, vectorValue_digits (by decide) (by decide)]
    at hvalue
  unfold EncodeBase58
  rw [htake, hdrop]
  dsimp only
  rw [hrun]
  dsimp only
  rw [dropWhile_zeros (by decide) hbelow, hvalue, chars_of_bytes (digits_below (by decide)),
    List.length_replicate]
  unfold Radix.expand digitChars58
  rw [List.map_append, List.map_replicate, base58_zero]

/-! ### Decoding -/

theorem decodeLoop58_run {b256 : valtype} {digits : List ℕ} {behind : CString}
    (hdigits : ∀ d ∈ digits, d < 58) (hbehind : ∀ c ∈ behind, isspace c = true)
    (hroom : Room 58 256 (digitChars58 digits ++ behind).length b256) :
    ∃ b256', decodeLoop58 b256 (digitChars58 digits ++ behind) = some (some (b256', behind)) ∧
      vectorValue 256 b256' =
        58 ^ digits.length * vectorValue 256 b256 + Radix.read 58 digits := by
  induction digits generalizing b256 with
  | nil =>
      refine ⟨b256, ?_, by simp [Radix.read_nil]⟩
      change decodeLoop58 b256 behind = _
      cases behind with
      | nil => rfl
      | cons c behind => rw [decodeLoop58, if_pos (hbehind c List.mem_cons_self)]
  | cons d digits ih =>
      obtain ⟨hd, hrest⟩ := List.forall_mem_cons.mp hdigits
      obtain ⟨hindex, hspace, _, _⟩ := base58_digit d hd
      obtain ⟨b', hrun, hvalue, _, hroom'⟩ := multiplyAdd_room (by decide) (by decide) hd hroom
      obtain ⟨b256', hloop, hvalue'⟩ := ih hrest hroom'
      refine ⟨b256', ?_, ?_⟩
      · change decodeLoop58 b256 (charAt pszBase58 d :: (digitChars58 digits ++ behind)) = _
        rw [decodeLoop58, hspace, hindex]
        simp only [Bool.false_eq_true, if_false, hrun, if_true]
        exact hloop
      · rw [hvalue', hvalue, Radix.read_cons, List.length_cons]
        ring

/-- The assertion of the decoder holds, whatever the characters are. -/
theorem decodeLoop58_ne_none {b256 : valtype} {psz : CString}
    (hroom : Room 58 256 psz.length b256) : decodeLoop58 b256 psz ≠ none := by
  induction psz generalizing b256 with
  | nil => exact Option.some_ne_none _
  | cons c psz ih =>
      rw [decodeLoop58]
      split_ifs with hspace
      · exact Option.some_ne_none _
      · cases hindex : pszBase58.idxOf? c with
        | none => exact Option.some_ne_none _
        | some digit =>
            obtain ⟨b', hrun, _, _, hroom'⟩ :=
              multiplyAdd_room (by decide) (by decide) (idxOf_eq_some hindex).1 hroom
            simp only [hrun, if_true]
            exact ih hroom'

/-- What the decoder takes is digits up to the end or to white space. -/
theorem decodeLoop58_shape {b256 b256' : valtype} {psz rest : CString}
    (h : decodeLoop58 b256 psz = some (some (b256', rest))) :
    ∃ digits, (∀ d ∈ digits, d < 58) ∧ psz = digitChars58 digits ++ rest := by
  induction psz generalizing b256 with
  | nil =>
      rw [decodeLoop58, Option.some_inj, Option.some_inj] at h
      obtain ⟨-, rfl⟩ := Prod.mk.inj h
      exact ⟨[], List.forall_mem_nil _, rfl⟩
  | cons c psz ih =>
      rw [decodeLoop58] at h
      split_ifs at h with hspace
      · rw [Option.some_inj, Option.some_inj] at h
        obtain ⟨-, rfl⟩ := Prod.mk.inj h
        exact ⟨[], List.forall_mem_nil _, rfl⟩
      · cases hindex : pszBase58.idxOf? c with
        | none =>
            rw [hindex] at h
            cases h
        | some digit =>
            obtain ⟨hlt, rfl⟩ := idxOf_eq_some hindex
            rw [hindex] at h
            dsimp only at h
            split_ifs at h with hcarry
            obtain ⟨digits, hdigits, rfl⟩ := ih h
            exact ⟨digit :: digits, List.forall_mem_cons.mpr ⟨hlt, hdigits⟩, rfl⟩

/-- The bytes of a text in base 58. -/
theorem decodeBase58_expand {psz : CString} {zeroes n : ℕ}
    (h : SpacesAround psz (digitChars58 (Radix.expand 58 zeroes n))) (vch : valtype) :
    DecodeBase58 psz vch = some (true, digitBytes (Radix.expand 256 zeroes n)) := by
  obtain ⟨behind, hbehind, hrest⟩ := dropWhile_spacesAround h fun c hc =>
    (mem_digitChars58 (expand_below (by decide) zeroes n) hc).1
  have hnot : ∀ c ∈ behind.head?, c ≠ 49 := by
    rintro _ hc rfl
    cases hbehind 49 (List.mem_of_mem_head? hc)
  obtain ⟨htake, hdrop⟩ := leading_chars zeroes n hnot
  have hroom := room_zeros (by decide) (by decide) room_for_digits
    (digitChars58 (Nat.digits 58 n).reverse ++ behind).length
  obtain ⟨b256, hrun, hvalue⟩ := decodeLoop58_run (digits_below (by decide)) hbehind hroom
  have hread : Radix.read 58 (Nat.digits 58 n).reverse = n := Radix.read_expand 0 n
  rw [vectorValue_zeros, Nat.mul_zero, Nat.zero_add, hread] at hvalue
  have hspaces := List.dropWhile_eq_nil_iff.mpr hbehind
  unfold DecodeBase58
  rw [hrest]
  dsimp only
  rw [htake, hdrop, hrun]
  dsimp only
  rw [hspaces, dropWhile_zeros (by decide) (fun d _ => d.toNat_lt), hvalue, List.length_replicate]
  unfold Radix.expand digitBytes
  rw [List.map_append, List.map_replicate]
  rfl

theorem decodeBase58_ne_none (psz : CString) (vch : valtype) : DecodeBase58 psz vch ≠ none := by
  have hroom := room_zeros (by decide) (by decide) room_for_digits
    ((psz.dropWhile isspace).dropWhile (· == 49)).length
  have hloop := decodeLoop58_ne_none hroom
  unfold DecodeBase58
  dsimp only
  split
  · rename_i hnone
    exact absurd hnone hloop
  · exact Option.some_ne_none _
  · split_ifs
    · exact Option.some_ne_none _
    · exact Option.some_ne_none _

/-- What is accepted is white space, digits, white space. -/
theorem spacesAround_of_decodeBase58 {psz : CString} {vch b : valtype}
    (h : DecodeBase58 psz vch = some (true, b)) :
    ∃ zeroes n, SpacesAround psz (digitChars58 (Radix.expand 58 zeroes n)) := by
  unfold DecodeBase58 at h
  dsimp only at h
  split at h
  · cases h
  · cases h
  · rename_i b256 rest hloop
    split_ifs at h with hrest
    · cases h
    · obtain ⟨digits, hdigits, hpsz⟩ := decodeLoop58_shape hloop
      have hones : (psz.dropWhile isspace).takeWhile (· == 49) =
          digitChars58 (List.replicate ((psz.dropWhile isspace).takeWhile (· == 49)).length 0) := by
        unfold digitChars58
        rw [List.map_replicate, base58_zero]
        apply List.eq_replicate_of_mem
        intro c hc
        exact beq_iff_eq.mp (List.mem_takeWhile_imp (p := (· == 49)) hc)
      generalize ((psz.dropWhile isspace).takeWhile (· == 49)).length = ones at hones
      have hall : ∀ d ∈ List.replicate ones 0 ++ digits, d < 58 := by
        intro d hd
        obtain hd | hd := List.mem_append.mp hd
        · rw [List.eq_of_mem_replicate hd]
          decide
        · exact hdigits d hd
      have hspaces : ∀ c ∈ rest, isspace c = true := by
        have hsplit := List.takeWhile_append_dropWhile (p := isspace) (l := rest)
        rw [not_not.mp hrest, List.append_nil] at hsplit
        intro c hc
        rw [← hsplit] at hc
        exact List.mem_takeWhile_imp hc
      suffices hbody : SpacesAround psz (digitChars58 (List.replicate ones 0 ++ digits)) by
        rw [Radix.eq_expand (by decide) hall] at hbody
        exact ⟨_, _, hbody⟩
      refine ⟨psz.takeWhile isspace, rest, ?_, fun c hc => List.mem_takeWhile_imp hc, hspaces⟩
      have hchars : digitChars58 (List.replicate ones 0 ++ digits) =
          digitChars58 (List.replicate ones 0) ++ digitChars58 digits := List.map_append
      rw [hchars, ← hones, List.append_assoc, List.append_assoc, ← hpsz,
        List.takeWhile_append_dropWhile, List.takeWhile_append_dropWhile]

/-! ### Inverses -/

theorem exists_bytes (b : valtype) : ∃ zeroes n, b = digitBytes (Radix.expand 256 zeroes n) := by
  have hbelow : ∀ d ∈ b.map UInt8.toNat, d < 256 := by
    intro d hd
    obtain ⟨c, _, rfl⟩ := List.mem_map.mp hd
    exact c.toNat_lt
  have hexpand := congrArg digitBytes (Radix.eq_expand (by decide) hbelow)
  rw [digitBytes_map_toNat] at hexpand
  exact ⟨_, _, hexpand⟩

theorem decodeBase58_encodeBase58 (b vch : valtype) :
    ∃ s, EncodeBase58 b = some s ∧ DecodeBase58 s vch = some (true, b) := by
  obtain ⟨zeroes, n, rfl⟩ := exists_bytes b
  refine ⟨_, encodeBase58_expand zeroes n, decodeBase58_expand ?_ vch⟩
  exact ⟨[], [], by rw [List.nil_append, List.append_nil], List.forall_mem_nil _,
    List.forall_mem_nil _⟩

theorem encodeBase58_of_decode {s : CString} {vch b : valtype}
    (h : DecodeBase58 s vch = some (true, b)) : EncodeBase58 b = some (stripSpaces s) := by
  obtain ⟨zeroes, n, hspaces⟩ := spacesAround_of_decodeBase58 h
  rw [decodeBase58_expand hspaces, Option.some_inj, Prod.mk.injEq] at h
  rw [← h.2, encodeBase58_expand, stripSpaces_eq hspaces fun c hc =>
    (mem_digitChars58 (expand_below (by decide) zeroes n) hc).1]

theorem decodeBase58_iff (s : CString) (vch : valtype) :
    (∃ b, DecodeBase58 s vch = some (true, b)) ↔
      ∃ body, SpacesAround s body ∧ ∀ c ∈ body, c ∈ pszBase58 := by
  constructor
  · rintro ⟨b, h⟩
    obtain ⟨zeroes, n, hspaces⟩ := spacesAround_of_decodeBase58 h
    exact ⟨_, hspaces, fun c hc => (mem_digitChars58 (expand_below (by decide) zeroes n) hc).2⟩
  · rintro ⟨body, hspaces, hbody⟩
    obtain ⟨digits, hdigits, rfl⟩ := exists_digits hbody
    rw [Radix.eq_expand (by decide) hdigits] at hspaces
    exact ⟨_, decodeBase58_expand hspaces vch⟩

section Check

variable (Hash : valtype → uint256)

theorem length_checksum58 (vch : valtype) : (checksum58 Hash vch).length = 4 := by
  unfold checksum58
  rw [List.length_take, leBytes_length]
  rfl

theorem decodeBase58Check_encode (b vch : valtype) :
    ∃ s, EncodeBase58Check Hash b = some s ∧ DecodeBase58Check Hash s vch = some (true, b) := by
  obtain ⟨s, hencode, hdecode⟩ := decodeBase58_encodeBase58 (b ++ checksum58 Hash b) vch
  refine ⟨s, hencode, ?_⟩
  have hlength : (b ++ checksum58 Hash b).length - 4 = b.length := by
    rw [List.length_append, length_checksum58]
    omega
  have hlong : ¬ (b ++ checksum58 Hash b).length < 4 := by
    rw [List.length_append, length_checksum58]
    omega
  unfold DecodeBase58Check
  rw [hdecode]
  dsimp only
  rw [hlength, if_neg (by simpa using hlong), List.take_left, List.drop_left,
    if_neg (not_not.mpr rfl)]

theorem encodeBase58Check_of_decode {s : CString} {vch b : valtype}
    (h : DecodeBase58Check Hash s vch = some (true, b)) :
    EncodeBase58Check Hash b = some (stripSpaces s) := by
  unfold DecodeBase58Check at h
  cases hdecode : DecodeBase58 s vch with
  | none =>
      rw [hdecode] at h
      cases h
  | some result =>
      obtain ⟨fDecoded, vchRet⟩ := result
      rw [hdecode] at h
      dsimp only at h
      split_ifs at h with hfailed hchecksum
      · cases h
      · cases h
      · have htrue : fDecoded = true := by
          by_contra hfalse
          exact hfailed (Or.inl hfalse)
        subst htrue
        rw [Option.some_inj, Prod.mk.injEq] at h
        unfold EncodeBase58Check
        rw [← h.2, not_not.mp hchecksum, List.take_append_drop]
        exact encodeBase58_of_decode hdecode

theorem decodeBase58Check_ne_none (s : CString) (vch : valtype) :
    DecodeBase58Check Hash s vch ≠ none := by
  unfold DecodeBase58Check
  split
  · rename_i hnone
    exact absurd hnone (decodeBase58_ne_none s vch)
  · dsimp only
    split_ifs
    all_goals exact Option.some_ne_none _

/-- The conversions to base 58 and back are inverses, with a checksum and without; what is
accepted is white space, digits, white space; and no assertion fails on any input. -/
theorem base58_inverse :
    (∀ b vch, ∃ s, EncodeBase58 b = some s ∧ DecodeBase58 s vch = some (true, b)) ∧
    (∀ b vch, ∃ s, EncodeBase58Check Hash b = some s ∧
      DecodeBase58Check Hash s vch = some (true, b)) ∧
    (∀ s vch b, DecodeBase58 s vch = some (true, b) → EncodeBase58 b = some (stripSpaces s)) ∧
    (∀ s vch b, DecodeBase58Check Hash s vch = some (true, b) →
      EncodeBase58Check Hash b = some (stripSpaces s)) ∧
    (∀ s vch, (∃ b, DecodeBase58 s vch = some (true, b)) ↔
      ∃ body, SpacesAround s body ∧ ∀ c ∈ body, c ∈ pszBase58) ∧
    (∀ s vch, DecodeBase58 s vch ≠ none ∧ DecodeBase58Check Hash s vch ≠ none) ∧
    ∀ b, EncodeBase58 b ≠ none ∧ EncodeBase58Check Hash b ≠ none := by
  refine ⟨decodeBase58_encodeBase58, decodeBase58Check_encode Hash, ?_, ?_, decodeBase58_iff,
    ?_, ?_⟩
  · intro s vch b h
    exact encodeBase58_of_decode h
  · intro s vch b h
    exact encodeBase58Check_of_decode Hash h
  · intro s vch
    exact ⟨decodeBase58_ne_none s vch, decodeBase58Check_ne_none Hash s vch⟩
  · intro b
    obtain ⟨s, hencode, _⟩ := decodeBase58_encodeBase58 b []
    obtain ⟨s', hencode', _⟩ := decodeBase58Check_encode Hash b []
    rw [hencode, hencode']
    exact ⟨Option.some_ne_none s, Option.some_ne_none s'⟩

end Check

end Ziftrcoin.Spec
