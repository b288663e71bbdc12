/-
Module: Ziftrcoin.Proofs.Base64
Purpose: The coders of base 64 and base 32 regroup the bits of their input, the decoders
  undo the encoders, and what a decoder accepts is what the encoder writes.
Trusted boundary: none
Main exports: encodeBase64_spec, base64_strict
-/
import Ziftrcoin.Spec.Base64
import Ziftrcoin.Lib.BitGroups

namespace Ziftrcoin.Spec

open Ziftrcoin.Lib BitGroups

/-! ### Alphabets -/

/-- A table gives the digit of each character of an alphabet of `2 ^ w` characters, which
`fold` takes the accepted characters to; the NUL and the padding are not among them. -/
structure TableOf (w : ℕ) (table : List ℤ) (alphabet : CString) (fold : UInt8 → UInt8) : Prop where
  digit : ∀ c : UInt8, table.getD c.toNat (-1) ≠ -1 →
    (table.getD c.toNat (-1)).toNat < 2 ^ w ∧
      charAt alphabet (table.getD c.toNat (-1)).toNat = fold c
  char : ∀ d < 2 ^ w, table.getD (charAt alphabet d).toNat (-1) = d
  accepted : ∀ c : UInt8, fold c ∈ alphabet ↔ table.getD c.toNat (-1) ≠ -1
  nul : table.getD (0 : UInt8).toNat (-1) = -1
  padding : table.getD (61 : UInt8).toNat (-1) = -1

/-- The characters of digits. -/
def digitText (alphabet : CString) (digits : List ℕ) : CString := digits.map (charAt alphabet)

/-- The characters that a table has a digit for. -/
def inTable (table : List ℤ) (c : UInt8) : Bool := table.getD c.toNat (-1) != -1

/-- The digits that a decoder reads before it stops. -/
def digitsOf (table : List ℤ) (p : CString) : List ℕ :=
  (p.takeWhile (inTable table)).map fun c => (table.getD c.toNat (-1)).toNat

/-- The facts about a table are checked on the codes of the characters. -/
theorem tableOf_of_codes {w : ℕ} {table : List ℤ} {alphabet : CString} {fold : UInt8 → UInt8}
    {codes : List ℕ} {foldCode : ℕ → ℕ} (hcodes : alphabet.map UInt8.toNat = codes)
    (hlength : codes.length = 2 ^ w) (hfold : ∀ c : UInt8, (fold c).toNat = foldCode c.toNat)
    (hdigit : ∀ n < 256, table.getD n (-1) ≠ -1 → (table.getD n (-1)).toNat < 2 ^ w ∧
      codes.getD (table.getD n (-1)).toNat 0 = foldCode n)
    (hchar : ∀ d < 2 ^ w, table.getD (codes.getD d 0) (-1) = d)
    (hsame : ∀ n < 256, table.getD (foldCode n) (-1) = table.getD n (-1))
    (hnul : table.getD 0 (-1) = -1) (hpadding : table.getD 61 (-1) = -1) :
    TableOf w table alphabet fold := by
  have hcode : ∀ d, (charAt alphabet d).toNat = codes.getD d 0 := by
    intro d
    rw [← hcodes]
    exact (List.getD_map _ _ UInt8.toNat).symm
  have hdigit' : ∀ c : UInt8, table.getD c.toNat (-1) ≠ -1 →
      (table.getD c.toNat (-1)).toNat < 2 ^ w ∧
        charAt alphabet (table.getD c.toNat (-1)).toNat = fold c := by
    intro c hc
    obtain ⟨hlt, hequal⟩ := hdigit c.toNat c.toNat_lt hc
    refine ⟨hlt, UInt8.toNat.inj ?_⟩
    rw [hcode, hequal, hfold]
  have hsize : alphabet.length = 2 ^ w := by
    rw [← hlength, ← hcodes, List.length_map]
  refine ⟨hdigit', ?_, ?_, hnul, hpadding⟩
  · intro d hd
    rw [hcode, hchar d hd]
  · intro c
    constructor
    · intro hmem
      obtain ⟨d, hd, hget⟩ := List.getElem_of_mem hmem
      have hchar' := hchar d (by omega)
      rw [← hcode, charAt, List.getD_eq_getElem _ _ hd, hget, hfold, hsame _ c.toNat_lt] at hchar'
      rw [hchar']
      exact nofun
    · intro hc
      obtain ⟨hlt, hequal⟩ := hdigit' c hc
      rw [← hequal, charAt, List.getD_eq_getElem _ _ (by omega)]
      exact List.getElem_mem _

theorem tableOf_base64 : TableOf 6 decode64_table pbase64 id := by
  have hcodes : pbase64.map UInt8.toNat = List.range' 65 26 ++ List.range' 97 26 ++
      List.range' 48 10 ++ [43, 47] := by decide +kernel
  apply tableOf_of_codes hcodes rfl (fun _ => (rfl : _ = id _))
  · decide +kernel
  · decide +kernel
  · exact fun _ _ => rfl
  · rfl
  · rfl

/-- `tolower` on the code of a character. -/
def lowerCode (n : ℕ) : ℕ := if 65 ≤ n ∧ n ≤ 90 then n + 32 else n

theorem toNat_tolower (c : UInt8) : (tolower c).toNat = lowerCode c.toNat := by
  unfold tolower lowerCode
  split_ifs with h
  · rw [UInt8.toNat_add]
    exact Nat.mod_eq_of_lt (by change c.toNat + 32 < 256; omega)
  · rfl

theorem tableOf_base32 : TableOf 5 decode32_table pbase32 tolower := by
  have hcodes : pbase32.map UInt8.toNat = List.range' 97 26 ++ List.range' 50 6 := by
    decide +kernel
  apply tableOf_of_codes hcodes rfl toNat_tolower
  · decide +kernel
  · decide +kernel
  · decide +kernel
  · rfl
  · rfl

/-! ### The loop of a decoder -/

section Table

variable {w : ℕ} {table : List ℤ} {alphabet : CString} {fold : UInt8 → UInt8}

/-- The loop stops at the first character without a digit, at the NUL at the latest. -/
theorem decodeLoop_eq (htable : TableOf w table alphabet fold)
    (phase : CoderState → ℕ → CoderState) (state : CoderState) (p : CString) :
    decodeLoop table phase state (p ++ [0]) =
      some ((digitsOf table p).foldl phase state, p.dropWhile (inTable table) ++ [0]) := by
  induction p generalizing state with
  | nil =>
      rw [List.nil_append, decodeLoop]
      exact if_pos htable.nul
  | cons c p ih =>
      rw [List.cons_append, decodeLoop]
      unfold digitsOf
      by_cases hc : table.getD c.toNat (-1) = -1
      · have hnot : ¬ inTable table c = true := fun hin => bne_iff_ne.mp hin hc
        rw [List.takeWhile_cons_of_neg hnot, List.dropWhile_cons_of_neg hnot]
        exact if_pos hc
      · have hin : inTable table c = true := bne_iff_ne.mpr hc
        rw [List.takeWhile_cons_of_pos hin, List.dropWhile_cons_of_pos hin]
        exact (if_neg hc).trans (ih _)

theorem badPadding_ne_none (table : List ℤ) (n : ℕ) (p : CString) :
    badPadding table n (p ++ [0]) ≠ none := by
  induction p generalizing n with
  | nil => cases n <;> exact Option.some_ne_none _
  | cons c p ih =>
      cases n with
      | zero => exact Option.some_ne_none _
      | succ n =>
          rw [List.cons_append, badPadding]
          split_ifs
          · exact Option.some_ne_none _
          · exact ih n

theorem badPadding_padding (htable : TableOf w table alphabet fold) (n : ℕ) :
    badPadding table n (List.replicate n 61 ++ [0]) = some false := by
  induction n with
  | zero =>
      rw [List.replicate_zero, List.nil_append, badPadding, htable.nul]
      rfl
  | succ n ih =>
      rw [List.replicate_succ, List.cons_append, badPadding, if_neg (not_not.mpr rfl), ih]

/-- A phase in which the flag depends on the bits left over and on the padding. -/
theorem flag_spec (htable : TableOf w table alphabet fold) (left n : ℕ) (rest : CString) :
    ∃ invalid, (if left ≠ 0 then some true else badPadding table n (rest ++ [0])) = some invalid ∧
      (invalid = false → left = 0) ∧
      (left = 0 → rest = List.replicate n 61 → invalid = false) := by
  by_cases hleft : left = 0
  · rw [if_neg (not_not.mpr hleft)]
    obtain ⟨invalid, hinvalid⟩ := Option.ne_none_iff_exists'.mp (badPadding_ne_none table n rest)
    refine ⟨invalid, hinvalid, fun _ => hleft, ?_⟩
    rintro - rfl
    rw [badPadding_padding htable, Option.some_inj] at hinvalid
    exact hinvalid.symm
  · exact ⟨true, if_pos hleft, nofun, fun h => absurd h hleft⟩

end Table

/-! ### Bits -/

theorem shl_or {x y i : ℕ} (hy : y < 2 ^ i) : x <<< i ||| y = x * 2 ^ i + y := by
  rw [← Nat.shiftLeft_add_eq_or_of_lt hy, Nat.shiftLeft_eq]

/-- The high bits of `w` bits `x` behind bits `v`, without the low `p` of them. -/
theorem split_high {w p v x : ℕ} (hp : p ≤ w) (hx : x < 2 ^ w) :
    v <<< (w - p) ||| x >>> p = (v * 2 ^ w + x) / 2 ^ p := by
  have hsplit : 2 ^ p * 2 ^ (w - p) = 2 ^ w := by
    rw [← Nat.pow_add, Nat.add_sub_cancel' hp]
  have hhigh : x / 2 ^ p < 2 ^ (w - p) := by
    apply Nat.div_lt_of_lt_mul
    rw [hsplit]
    exact hx
  have hmul : v * 2 ^ w = 2 ^ p * (v * 2 ^ (w - p)) := by
    rw [← hsplit]
    ring
  rw [Nat.shiftRight_eq_div_pow, shl_or hhigh, hmul, Nat.mul_add_div (Nat.two_pow_pos p)]

/-- The low `p` bits. -/
theorem split_low {w p v x : ℕ} (hp : p ≤ w) :
    x &&& (2 ^ p - 1) = (v * 2 ^ w + x) % 2 ^ p := by
  have hdvd : 2 ^ p ∣ v * 2 ^ w := Dvd.dvd.mul_left (Nat.pow_dvd_pow 2 hp) v
  rw [Nat.and_two_pow_sub_one_eq_mod, Nat.add_mod, Nat.mod_eq_zero_of_dvd hdvd, Nat.zero_add,
    Nat.mod_mod]

/-- The `q` bits in front of the low `p` bits. -/
theorem split_middle {w p q v x : ℕ} (h : p + q ≤ w) :
    x >>> p &&& (2 ^ q - 1) = (v * 2 ^ w + x) % 2 ^ (p + q) / 2 ^ p := by
  rw [← split_low h, Nat.and_two_pow_sub_one_eq_mod, Nat.and_two_pow_sub_one_eq_mod, Nat.pow_add,
    Nat.mod_mul_right_div_self, Nat.shiftRight_eq_div_pow]

/-- The low `p` bits behind those. -/
theorem split_last {w p q v x : ℕ} (h : p + q ≤ w) :
    x &&& (2 ^ p - 1) = (v * 2 ^ w + x) % 2 ^ (p + q) % 2 ^ p := by
  rw [Nat.mod_mod_of_dvd _ (Nat.pow_dvd_pow 2 (Nat.le_add_right p q))]
  exact split_low (Nat.le_trans (Nat.le_add_right p q) h)

/-- A byte that is written. -/
theorem map_toNat_append (ret : valtype) {x y : ℕ} (hx : x = y) (hy : y < 256) :
    (ret ++ [UInt8.ofNat x]).map UInt8.toNat = ret.map UInt8.toNat ++ [y] := by
  rw [List.map_append, List.map_singleton, hx, UInt8.toNat_ofNat_of_lt' hy]

/-! ### Phases -/

/-- What an encoder has done with the bytes so far: the digits it has written, the number of
bits that are left over in its phase, and those bits where the next digit has them. -/
def Encoding (w : ℕ) (alphabet : CString) (pendings bytes : List ℕ) (state : CoderState) : Prop :=
  ∃ digits v, state.ret = digitText alphabet digits ∧
    Regroups 8 w bytes digits (pendings.getD state.mode 0) v ∧
    (state.mode ≠ 0 → state.left = v <<< (w - pendings.getD state.mode 0)) ∧
    state.mode < pendings.length

/-- What a decoder has done with the digits so far. -/
def Decoding (w : ℕ) (pendings digits : List ℕ) (state : CoderState) : Prop :=
  ∃ v, Regroups w 8 digits (state.ret.map UInt8.toNat) (pendings.getD state.mode 0) v ∧
    (state.mode ≠ 0 → state.left = v) ∧ state.mode < pendings.length

theorem encoding_start (w : ℕ) (alphabet : CString) (pendings : List ℕ)
    (h : pendings.getD 0 0 = 0) (hlength : 0 < pendings.length) :
    Encoding w alphabet pendings [] ⟨0, 0, []⟩ := by
  refine ⟨[], 0, rfl, ?_, fun h => absurd rfl h, hlength⟩
  rw [h]
  exact Regroups.nil

theorem decoding_start (w : ℕ) (pendings : List ℕ) (h : pendings.getD 0 0 = 0)
    (hlength : 0 < pendings.length) : Decoding w pendings [] ⟨0, 0, []⟩ := by
  refine ⟨0, ?_, fun h => absurd rfl h, hlength⟩
  rw [h]
  exact Regroups.nil

theorem digitText_append (alphabet : CString) (digits digits' : List ℕ) :
    digitText alphabet (digits ++ digits') =
      digitText alphabet digits ++ digitText alphabet digits' :=
  List.map_append

/-- A phase of an encoder that writes one digit. -/
theorem encoding_write {w : ℕ} {alphabet : CString} {pendings bytes digits : List ℕ}
    {mode mode' left' v enc x : ℕ} {ret : CString} (hret : ret = digitText alphabet digits)
    (hbits : Regroups 8 w bytes digits (pendings.getD mode 0) v) (henc : enc < 256)
    (hpending : pendings.getD mode 0 + 8 = pendings.getD mode' 0 + w)
    (hmode' : mode' < pendings.length) (hx : x = (v * 2 ^ 8 + enc) / 2 ^ pendings.getD mode' 0)
    (hleft' : mode' ≠ 0 → left' =
      ((v * 2 ^ 8 + enc) % 2 ^ pendings.getD mode' 0) <<< (w - pendings.getD mode' 0)) :
    Encoding w alphabet pendings (bytes ++ [enc]) ⟨mode', left', ret ++ [charAt alphabet x]⟩ := by
  have htaken := hbits.take (x := enc) henc
  rw [hpending] at htaken
  refine ⟨_, _, ?_, htaken.emit, hleft', hmode'⟩
  rw [digitText_append, ← hret, ← hx]
  rfl

/-- A phase of an encoder that writes two digits. -/
theorem encoding_writeTwo {w : ℕ} {alphabet : CString} {pendings bytes digits : List ℕ}
    {mode mode' left' v enc x y : ℕ} {ret : CString} (hret : ret = digitText alphabet digits)
    (hbits : Regroups 8 w bytes digits (pendings.getD mode 0) v) (henc : enc < 256)
    (hpending : pendings.getD mode 0 + 8 = pendings.getD mode' 0 + w + w)
    (hmode' : mode' < pendings.length)
    (hx : x = (v * 2 ^ 8 + enc) / 2 ^ (pendings.getD mode' 0 + w))
    (hy : y = (v * 2 ^ 8 + enc) % 2 ^ (pendings.getD mode' 0 + w) / 2 ^ pendings.getD mode' 0)
    (hleft' : mode' ≠ 0 → left' = ((v * 2 ^ 8 + enc) % 2 ^ (pendings.getD mode' 0 + w) %
      2 ^ pendings.getD mode' 0) <<< (w - pendings.getD mode' 0)) :
    Encoding w alphabet pendings (bytes ++ [enc])
      ⟨mode', left', ret ++ [charAt alphabet x] ++ [charAt alphabet y]⟩ := by
  have htaken := hbits.take (x := enc) henc
  rw [hpending] at htaken
  refine ⟨_, _, ?_, htaken.emit.emit, hleft', hmode'⟩
  rw [digitText_append, digitText_append, ← hret, ← hx, ← hy]
  rfl

/-- A phase of a decoder that writes nothing. -/
theorem decoding_keep {w : ℕ} {pendings digits : List ℕ} {mode mode' left' v dec : ℕ}
    {ret : valtype}
    (hbits : Regroups w 8 digits (ret.map UInt8.toNat) (pendings.getD mode 0) v)
    (hdec : dec < 2 ^ w) (hpending : pendings.getD mode 0 + w = pendings.getD mode' 0)
    (hmode' : mode' < pendings.length) (hleft' : left' = v * 2 ^ w + dec) :
    Decoding w pendings (digits ++ [dec]) ⟨mode', left', ret⟩ := by
  have htaken := hbits.take hdec
  rw [hpending] at htaken
  exact ⟨_, htaken, fun _ => hleft', hmode'⟩

/-- A phase of a decoder that writes a byte. -/
theorem decoding_write {w : ℕ} {pendings digits : List ℕ} {mode mode' left' v dec x : ℕ}
    {ret : valtype}
    (hbits : Regroups w 8 digits (ret.map UInt8.toNat) (pendings.getD mode 0) v)
    (hdec : dec < 2 ^ w) (hpending : pendings.getD mode 0 + w = pendings.getD mode' 0 + 8)
    (hmode' : mode' < pendings.length) (hx : x = (v * 2 ^ w + dec) / 2 ^ pendings.getD mode' 0)
    (hleft' : mode' ≠ 0 → left' = (v * 2 ^ w + dec) % 2 ^ pendings.getD mode' 0) :
    Decoding w pendings (digits ++ [dec]) ⟨mode', left', ret ++ [UInt8.ofNat x]⟩ := by
  have htaken := hbits.take hdec
  rw [hpending] at htaken
  have hbyte := htaken.emit.below _ (List.mem_append_right _ List.mem_cons_self)
  refine ⟨_, ?_, hleft', hmode'⟩
  have hret : (ret ++ [UInt8.ofNat x]).map UInt8.toNat = ret.map UInt8.toNat ++ [_] :=
    map_toNat_append ret hx hbyte
  rw [hret]
  exact htaken.emit

/-! ### Coders -/

/-- How many padding characters stand behind `n` digits in groups of `group`. -/
def paddingOf (group n : ℕ) : ℕ := (group - n % group) % group

/-- An encoder writes the digits of the bytes, zeros in the bits that are missing, and the
padding. -/
def EncodesDigits (w group : ℕ) (alphabet : CString) (encode : valtype → CString) : Prop :=
  ∀ b, ∃ digits pending,
    encode b = digitText alphabet digits ++ List.replicate (paddingOf group digits.length) 61 ∧
      Regroups w 8 digits (b.map UInt8.toNat) pending 0 ∧ (∀ d ∈ digits, d < 2 ^ w) ∧ pending < w

/-- A decoder writes the bytes of the digits, and clears the flag where fewer bits than a
digit are left over, they are zeros, and the padding is there. -/
def DecodesDigits (w group : ℕ) (table : List ℤ)
    (decode : CString → Option (valtype × Bool)) : Prop :=
  ∀ p, ∃ b v pending invalid, decode p = some (b, invalid) ∧
    Regroups w 8 (digitsOf table p) (b.map UInt8.toNat) pending v ∧ pending < 8 ∧
    (invalid = false → pending < w ∧ v = 0) ∧
    (pending < w → v = 0 → p.dropWhile (inTable table) =
      List.replicate (paddingOf group (digitsOf table p).length) 61 → invalid = false)

theorem ne_of_mem_takeWhile {table : List ℤ} {p : CString} {c : UInt8}
    (hc : c ∈ p.takeWhile (inTable table)) : table.getD c.toNat (-1) ≠ -1 := by
  have hin : inTable table c = true := List.mem_takeWhile_imp hc
  exact bne_iff_ne.mp hin

theorem digits_lt {w : ℕ} {table : List ℤ} {alphabet : CString} {fold : UInt8 → UInt8}
    (htable : TableOf w table alphabet fold) (p : CString) : ∀ d ∈ digitsOf table p, d < 2 ^ w := by
  intro d hd
  obtain ⟨c, hc, rfl⟩ := List.mem_map.mp hd
  exact (htable.digit c (ne_of_mem_takeWhile hc)).1

theorem bytes_lt (b : valtype) : ∀ d ∈ b.map UInt8.toNat, d < 2 ^ 8 := by
  intro d hd
  obtain ⟨c, _, rfl⟩ := List.mem_map.mp hd
  exact c.toNat_lt

/-- The characters of digits and the padding, read back. -/
theorem digitsOf_text {w : ℕ} {table : List ℤ} {alphabet : CString} {fold : UInt8 → UInt8}
    (htable : TableOf w table alphabet fold) {digits : List ℕ} (h : ∀ d ∈ digits, d < 2 ^ w)
    (k : ℕ) :
    digitsOf table (digitText alphabet digits ++ List.replicate k 61) = digits ∧
      (digitText alphabet digits ++ List.replicate k 61).dropWhile (inTable table) =
        List.replicate k 61 := by
  have hin : ∀ c ∈ digitText alphabet digits, inTable table c = true := by
    intro c hc
    obtain ⟨d, hd, rfl⟩ := List.mem_map.mp hc
    apply bne_iff_ne.mpr
    rw [htable.char d (h d hd)]
    exact nofun
  have hpad : inTable table 61 = false := by
    unfold inTable
    rw [htable.padding]
    rfl
  have hnone : (List.replicate k 61).takeWhile (inTable table) = [] := by
    cases k with
    | zero => rfl
    | succ k =>
        rw [List.replicate_succ, List.takeWhile_cons_of_neg]
        rw [hpad]
        exact Bool.false_ne_true
  have htake : (digitText alphabet digits ++ List.replicate k 61).takeWhile (inTable table) =
      digitText alphabet digits := by
    rw [List.takeWhile_append_of_pos hin, hnone, List.append_nil]
  constructor
  · unfold digitsOf
    rw [htake]
    unfold digitText
    rw [List.map_map]
    calc digits.map ((fun c => (table.getD c.toNat (-1)).toNat) ∘ charAt alphabet)
        = digits.map id := List.map_congr_left fun d hd =>
          congrArg Int.toNat (htable.char d (h d hd))
      _ = digits := List.map_id digits
  · have hsplit := List.takeWhile_append_dropWhile (p := inTable table)
      (l := digitText alphabet digits ++ List.replicate k 61)
    rw [htake] at hsplit
    exact List.append_cancel_left hsplit

/-- The accepted characters, as the encoder writes them. -/
theorem digitText_digitsOf {w : ℕ} {table : List ℤ} {alphabet : CString} {fold : UInt8 → UInt8}
    (htable : TableOf w table alphabet fold) (p : CString) :
    digitText alphabet (digitsOf table p) =
      (p.takeWhile fun c => decide (fold c ∈ alphabet)).map fold := by
  have hsame : (fun c => decide (fold c ∈ alphabet)) = inTable table := by
    funext c
    exact Bool.eq_iff_iff.mpr (by rw [decide_eq_true_eq, htable.accepted, inTable, bne_iff_ne])
  unfold digitText digitsOf
  rw [hsame, List.map_map]
  apply List.map_congr_left
  intro c hc
  exact (htable.digit c (ne_of_mem_takeWhile hc)).2

/-- A decoder undoes its encoder, and accepts nothing but what the encoder writes. -/
theorem coder_strict {w group : ℕ} {table : List ℤ} {alphabet : CString} {fold : UInt8 → UInt8}
    {encode : valtype → CString} {decode : CString → Option (valtype × Bool)} (hw : w ≤ 8)
    (htable : TableOf w table alphabet fold) (hencode : EncodesDigits w group alphabet encode)
    (hdecode : DecodesDigits w group table decode) :
    (∀ b, decode (encode b) = some (b, false)) ∧
    (∀ p b, decode p = some (b, false) → encode b =
      (p.takeWhile fun c => decide (fold c ∈ alphabet)).map fold ++ List.replicate
        (paddingOf group (p.takeWhile fun c => decide (fold c ∈ alphabet)).length) 61) ∧
    ∀ p, decode p ≠ none := by
  refine ⟨?_, ?_, ?_⟩
  · intro b
    obtain ⟨digits, pending, htext, hbits, hdigits, hpending⟩ := hencode b
    obtain ⟨b', v, pending', invalid, hrun, hbits', hpending', _, hclear⟩ := hdecode (encode b)
    obtain ⟨hread, hrest⟩ := digitsOf_text htable hdigits (paddingOf group digits.length)
    rw [← htext] at hread hrest
    rw [hread] at hbits' hclear
    obtain ⟨hbytes, rfl, rfl⟩ := hbits.unique hbits' (by omega) hpending'
    have hsame : b = b' := List.map_injective_iff.mpr (fun _ _ => UInt8.toNat.inj) hbytes
    rw [hrun, hclear hpending rfl hrest, ← hsame]
  · intro p b h
    obtain ⟨b', v, pending, invalid, hrun, hbits, _, hvalid, _⟩ := hdecode p
    rw [hrun, Option.some_inj, Prod.mk.injEq] at h
    obtain ⟨rfl, rfl⟩ := h
    obtain ⟨hpending, rfl⟩ := hvalid rfl
    obtain ⟨digits, pending', htext, hbits', hdigits, hpending'⟩ := hencode b'
    have hsame := hbits'.unique_source hbits hdigits (digits_lt htable p) hpending' hpending
    have hchars := digitText_digitsOf htable p
    have hlength := congrArg List.length hchars
    rw [digitText, List.length_map, List.length_map] at hlength
    rw [htext, hsame, hchars, hlength]
  · intro p
    obtain ⟨_, _, _, _, hrun, _⟩ := hdecode p
    rw [hrun]
    exact Option.some_ne_none _

/-- The end of an encoder: the bits left over are written, and the padding. -/
theorem encodes_end {w group : ℕ} {alphabet : CString} {pendings bytes : List ℕ}
    {state : CoderState} (h : Encoding w alphabet pendings bytes state)
    (hbytes : ∀ d ∈ bytes, d < 2 ^ 8) {text : CString} (hzero : pendings.getD 0 0 = 0)
    (hpendings : ∀ mode < pendings.length, mode ≠ 0 →
      0 < pendings.getD mode 0 ∧ pendings.getD mode 0 < w) (hw : 0 < w)
    (htext : ∀ n, w * n = 8 * bytes.length + (if state.mode = 0 then 0 else
        w - pendings.getD state.mode 0) →
      text = state.ret ++ (if state.mode = 0 then [] else [charAt alphabet state.left]) ++
        List.replicate (paddingOf group n) 61) :
    ∃ digits pending,
      text = digitText alphabet digits ++ List.replicate (paddingOf group digits.length) 61 ∧
        Regroups w 8 digits bytes pending 0 ∧ (∀ d ∈ digits, d < 2 ^ w) ∧ pending < w := by
  obtain ⟨digits, v, hret, hbits, hleft, hmode⟩ := h
  by_cases hstart : state.mode = 0
  · rw [hstart, hzero] at hbits
    have hswap := hbits.swap hbytes
    have hlength := hbits.bits
    rw [if_pos hstart, if_pos hstart] at htext
    refine ⟨digits, 0, ?_, hswap, hbits.below, hw⟩
    rw [htext digits.length (by omega), List.append_nil, hret]
  · obtain ⟨hpos, hlt⟩ := hpendings _ hmode hstart
    have hpad := hbits.pad hbytes hlt.le
    have hlength := hpad.bits
    rw [if_neg hstart, if_neg hstart] at htext
    refine ⟨_, _, ?_, hpad, ?_, by omega⟩
    · rw [htext _ hlength.symm, hret, hleft hstart, Nat.shiftLeft_eq, digitText_append]
      rfl
    · intro d hd
      obtain hd | hd := List.mem_append.mp hd
      · exact hbits.below d hd
      · rw [List.mem_singleton.mp hd]
        calc v * 2 ^ (w - pendings.getD state.mode 0)
            < 2 ^ pendings.getD state.mode 0 * 2 ^ (w - pendings.getD state.mode 0) :=
              Nat.mul_lt_mul_of_pos_right hbits.left_lt (Nat.two_pow_pos _)
          _ = 2 ^ w := by rw [← Nat.pow_add, Nat.add_sub_cancel' hlt.le]

theorem decodeText_eq {w : ℕ} {table : List ℤ} {alphabet : CString} {fold : UInt8 → UInt8}
    (htable : TableOf w table alphabet fold) (phase : CoderState → ℕ → CoderState)
    (invalid : CoderState → List UInt8 → Option Bool) (p : CString) :
    decodeText table phase invalid p =
      (invalid ((digitsOf table p).foldl phase ⟨0, 0, []⟩)
        (p.dropWhile (inTable table) ++ [0])).map
          fun fInvalid => (((digitsOf table p).foldl phase ⟨0, 0, []⟩).ret, fInvalid) := by
  unfold decodeText
  rw [decodeLoop_eq htable]
  change (invalid _ _).bind _ = _
  cases invalid ((digitsOf table p).foldl phase ⟨0, 0, []⟩)
    (p.dropWhile (inTable table) ++ [0]) with
  | none => rfl
  | some fInvalid => rfl

/-- The end of a decoder where bits are left over but fewer than a digit. -/
theorem decodes_end {w group : ℕ} {table : List ℤ} {alphabet : CString} {fold : UInt8 → UInt8}
    (htable : TableOf w table alphabet fold) (hw : w ≤ 8) {digits : List ℕ} {ret : valtype}
    {pending left n : ℕ} (hbits : Regroups w 8 digits (ret.map UInt8.toNat) pending left)
    (hpending : pending < w) (hpad : paddingOf group digits.length = n) (rest : CString) :
    ∃ b v pending invalid,
      (if left ≠ 0 then some true else badPadding table n (rest ++ [0])).map
        (fun fInvalid => (ret, fInvalid)) = some (b, invalid) ∧
      Regroups w 8 digits (b.map UInt8.toNat) pending v ∧ pending < 8 ∧
      (invalid = false → pending < w ∧ v = 0) ∧
      (pending < w → v = 0 → rest = List.replicate (paddingOf group digits.length) 61 →
        invalid = false) := by
  obtain ⟨invalid, hflag, hleft, hclear⟩ := flag_spec htable left n rest
  refine ⟨ret, left, pending, invalid, ?_, hbits, by omega, fun h => ⟨hpending, hleft h⟩, ?_⟩
  · rw [hflag]
    rfl
  · intro _ hzero hrest
    rw [hpad] at hrest
    exact hclear hzero hrest

/-! ### Base 64 -/

/-- The bits left over in each phase of the coders of base 64. -/
def encodePending64 : List ℕ := [0, 2, 4]
def decodePending64 : List ℕ := [0, 6, 4, 2]

theorem encodePhase64_spec {bytes : List ℕ} {state : CoderState}
    (h : Encoding 6 pbase64 encodePending64 bytes state) {enc : ℕ} (henc : enc < 256) :
    Encoding 6 pbase64 encodePending64 (bytes ++ [enc]) (encodePhase64 state enc) := by
  obtain ⟨mode, left, ret⟩ := state
  obtain ⟨digits, v, hret, hbits, hleft, hmode⟩ := h
  match mode, hmode with
  | 0, _ =>
      obtain rfl : v = 0 := Nat.lt_one_iff.mp hbits.left_lt
      refine encoding_write hret hbits henc rfl (by decide) ?_ fun _ => ?_
      · rw [Nat.shiftRight_eq_div_pow, Nat.zero_mul, Nat.zero_add]
        rfl
      · exact congrArg (· <<< 4) (split_low (p := 2) (by decide))
  | 1, _ =>
      obtain rfl : left = v <<< 4 := hleft Nat.one_ne_zero
      refine encoding_write hret hbits henc rfl (by decide) ?_ fun _ => ?_
      · exact split_high (w := 8) (p := 4) (by decide) henc
      · exact congrArg (· <<< 2) (split_low (p := 4) (by decide))
  | 2, _ =>
      obtain rfl : left = v <<< 2 := hleft (Nat.succ_ne_zero 1)
      refine encoding_writeTwo hret hbits henc rfl (by decide) ?_ ?_ fun h => absurd rfl h
      · exact split_high (w := 8) (p := 6) (by decide) henc
      · exact split_middle (p := 0) (q := 6) (by decide)

theorem decodePhase64_spec {digits : List ℕ} {state : CoderState}
    (h : Decoding 6 decodePending64 digits state) {dec : ℕ} (hdec : dec < 2 ^ 6) :
    Decoding 6 decodePending64 (digits ++ [dec]) (decodePhase64 state dec) := by
  obtain ⟨mode, left, ret⟩ := state
  obtain ⟨v, hbits, hleft, hmode⟩ := h
  match mode, hmode with
  | 0, _ =>
      have hv : v < 2 ^ 0 := hbits.left_lt
      exact decoding_keep hbits hdec rfl (by decide) (by omega)
  | 1, _ =>
      obtain rfl : left = v := hleft Nat.one_ne_zero
      exact decoding_write hbits hdec rfl (by decide) (split_high (p := 4) (by decide) hdec)
        fun _ => split_low (p := 4) (by decide)
  | 2, _ =>
      obtain rfl : left = v := hleft (Nat.succ_ne_zero 1)
      exact decoding_write hbits hdec rfl (by decide) (split_high (p := 2) (by decide) hdec)
        fun _ => split_low (p := 2) (by decide)
  | 3, _ =>
      obtain rfl : left = v := hleft (Nat.succ_ne_zero 2)
      exact decoding_write hbits hdec rfl (by decide) (split_high (p := 0) (by decide) hdec)
        fun h => absurd rfl h

theorem encodeBase64_spec : EncodesDigits 6 4 pbase64 EncodeBase64 := by
  intro b
  have h := foldl_history (encoding_start 6 pbase64 encodePending64 rfl (by decide))
    (fun _ _ _ h henc => encodePhase64_spec h henc) (b.map UInt8.toNat) (bytes_lt b)
  refine encodes_end h (bytes_lt b) rfl (by decide) (by decide) fun n hn => ?_
  obtain ⟨_, _, _, _, _, hmode⟩ := h
  unfold EncodeBase64
  generalize (b.map UInt8.toNat).foldl encodePhase64 ⟨0, 0, []⟩ = state at *
  obtain ⟨mode, left, ret⟩ := state
  match mode, hmode with
  | 0, _ =>
      have hpad : paddingOf 4 n = 0 := by
        unfold paddingOf
        simp only [if_true] at hn
        omega
      rw [hpad]
      simp
  | 1, _ =>
      have hbits : 6 * n = 8 * (b.map UInt8.toNat).length + 4 := hn
      have hpad : paddingOf 4 n = 2 := by
        unfold paddingOf
        omega
      rw [hpad]
      simp
  | 2, _ =>
      have hbits : 6 * n = 8 * (b.map UInt8.toNat).length + 2 := hn
      have hpad : paddingOf 4 n = 1 := by
        unfold paddingOf
        omega
      rw [hpad]
      simp

theorem decodeBase64_spec : DecodesDigits 6 4 decode64_table DecodeBase64 := by
  intro p
  obtain ⟨v, hbits, hleft, hmode⟩ := foldl_history
    (decoding_start 6 decodePending64 rfl (by decide))
    (fun _ _ _ h hdec => decodePhase64_spec h hdec) _ (digits_lt tableOf_base64 p)
  unfold DecodeBase64
  rw [decodeText_eq tableOf_base64]
  generalize (digitsOf decode64_table p).foldl decodePhase64 ⟨0, 0, []⟩ = state at *
  obtain ⟨mode, left, ret⟩ := state
  have hlength := hbits.bits
  match mode, hmode with
  | 0, _ =>
      exact ⟨ret, v, 0, false, rfl, hbits, by decide,
        fun _ => ⟨by decide, Nat.lt_one_iff.mp hbits.left_lt⟩, fun _ _ _ => rfl⟩
  | 1, _ =>
      exact ⟨ret, v, 6, true, rfl, hbits, by decide, nofun, fun h => absurd h (by decide)⟩
  | 2, _ =>
      obtain rfl : left = v := hleft (Nat.succ_ne_zero 1)
      refine decodes_end tableOf_base64 (by decide) hbits (by decide : 4 < 6) ?_ _
      change 8 * (ret.map UInt8.toNat).length + 4 = 6 * _ at hlength
      unfold paddingOf
      omega
  | 3, _ =>
      obtain rfl : left = v := hleft (Nat.succ_ne_zero 2)
      refine decodes_end tableOf_base64 (by decide) hbits (by decide : 2 < 6) ?_ _
      change 8 * (ret.map UInt8.toNat).length + 2 = 6 * _ at hlength
      unfold paddingOf
      omega

/-! ### Base 32 -/

/-- The bits left over in each phase of the coders of base 32. -/
def encodePending32 : List ℕ := [0, 3, 1, 4, 2]
def decodePending32 : List ℕ := [0, 5, 2, 7, 4, 1, 6, 3]

theorem encodePhase32_spec {bytes : List ℕ} {state : CoderState}
    (h : Encoding 5 pbase32 encodePending32 bytes state) {enc : ℕ} (henc : enc < 256) :
    Encoding 5 pbase32 encodePending32 (bytes ++ [enc]) (encodePhase32 state enc) := by
  obtain ⟨mode, left, ret⟩ := state
  obtain ⟨digits, v, hret, hbits, hleft, hmode⟩ := h
  match mode, hmode with
  | 0, _ =>
      obtain rfl : v = 0 := Nat.lt_one_iff.mp hbits.left_lt
      refine encoding_write hret hbits henc rfl (by decide) ?_ fun _ => ?_
      · rw [Nat.shiftRight_eq_div_pow, Nat.zero_mul, Nat.zero_add]
        rfl
      · exact congrArg (· <<< 2) (split_low (p := 3) (by decide))
  | 1, _ =>
      obtain rfl : left = v <<< 2 := hleft Nat.one_ne_zero
      refine encoding_writeTwo hret hbits henc rfl (by decide) ?_ ?_ fun _ => ?_
      · exact split_high (w := 8) (p := 6) (by decide) henc
      · exact split_middle (p := 1) (q := 5) (by decide)
      · exact congrArg (· <<< 4) (split_last (p := 1) (q := 5) (by decide))
  | 2, _ =>
      obtain rfl : left = v <<< 4 := hleft (Nat.succ_ne_zero 1)
      refine encoding_write hret hbits henc rfl (by decide) ?_ fun _ => ?_
      · exact split_high (w := 8) (p := 4) (by decide) henc
      · exact congrArg (· <<< 1) (split_low (p := 4) (by decide))
  | 3, _ =>
      obtain rfl : left = v <<< 1 := hleft (Nat.succ_ne_zero 2)
      refine encoding_writeTwo hret hbits henc rfl (by decide) ?_ ?_ fun _ => ?_
      · exact split_high (w := 8) (p := 7) (by decide) henc
      · exact split_middle (p := 2) (q := 5) (by decide)
      · exact congrArg (· <<< 3) (split_last (p := 2) (q := 5) (by decide))
  | 4, _ =>
      obtain rfl : left = v <<< 3 := hleft (Nat.succ_ne_zero 3)
      refine encoding_writeTwo hret hbits henc rfl (by decide) ?_ ?_ fun h => absurd rfl h
      · exact split_high (w := 8) (p := 5) (by decide) henc
      · exact split_middle (p := 0) (q := 5) (by decide)

theorem decodePhase32_spec {digits : List ℕ} {state : CoderState}
    (h : Decoding 5 decodePending32 digits state) {dec : ℕ} (hdec : dec < 2 ^ 5) :
    Decoding 5 decodePending32 (digits ++ [dec]) (decodePhase32 state dec) := by
  obtain ⟨mode, left, ret⟩ := state
  obtain ⟨v, hbits, hleft, hmode⟩ := h
  match mode, hmode with
  | 0, _ =>
      have hv : v < 2 ^ 0 := hbits.left_lt
      exact decoding_keep hbits hdec rfl (by decide) (by omega)
  | 1, _ =>
      obtain rfl : left = v := hleft Nat.one_ne_zero
      exact decoding_write hbits hdec rfl (by decide) (split_high (p := 2) (by decide) hdec)
        fun _ => split_low (p := 2) (by decide)
  | 2, _ =>
      obtain rfl : left = v := hleft (Nat.succ_ne_zero 1)
      exact decoding_keep hbits hdec rfl (by decide) (shl_or hdec)
  | 3, _ =>
      obtain rfl : left = v := hleft (Nat.succ_ne_zero 2)
      exact decoding_write hbits hdec rfl (by decide) (split_high (p := 4) (by decide) hdec)
        fun _ => split_low (p := 4) (by decide)
  | 4, _ =>
      obtain rfl : left = v := hleft (Nat.succ_ne_zero 3)
      exact decoding_write hbits hdec rfl (by decide) (split_high (p := 1) (by decide) hdec)
        fun _ => split_low (p := 1) (by decide)
  | 5, _ =>
      obtain rfl : left = v := hleft (Nat.succ_ne_zero 4)
      exact decoding_keep hbits hdec rfl (by decide) (shl_or hdec)
  | 6, _ =>
      obtain rfl : left = v := hleft (Nat.succ_ne_zero 5)
      exact decoding_write hbits hdec rfl (by decide) (split_high (p := 3) (by decide) hdec)
        fun _ => split_low (p := 3) (by decide)
  | 7, _ =>
      obtain rfl : left = v := hleft (Nat.succ_ne_zero 6)
      exact decoding_write hbits hdec rfl (by decide) (split_high (p := 0) (by decide) hdec)
        fun h => absurd rfl h

theorem encodeBase32_spec : EncodesDigits 5 8 pbase32 EncodeBase32 := by
  intro b
  have h := foldl_history (encoding_start 5 pbase32 encodePending32 rfl (by decide))
    (fun _ _ _ h henc => encodePhase32_spec h henc) (b.map UInt8.toNat) (bytes_lt b)
  refine encodes_end h (bytes_lt b) rfl (by decide) (by decide) fun n hn => ?_
  obtain ⟨_, _, _, _, _, hmode⟩ := h
  unfold EncodeBase32
  generalize (b.map UInt8.toNat).foldl encodePhase32 ⟨0, 0, []⟩ = state at *
  obtain ⟨mode, left, ret⟩ := state
  match mode, hmode with
  | 0, _ =>
      have hpad : paddingOf 8 n = 0 := by
        unfold paddingOf
        simp only [if_true] at hn
        omega
      rw [hpad]
      simp
  | 1, _ =>
      have hbits : 5 * n = 8 * (b.map UInt8.toNat).length + 2 := hn
      have hpad : paddingOf 8 n = 6 := by
        unfold paddingOf
        omega
      rw [hpad]
      simp [nPadding]
  | 2, _ =>
      have hbits : 5 * n = 8 * (b.map UInt8.toNat).length + 4 := hn
      have hpad : paddingOf 8 n = 4 := by
        unfold paddingOf
        omega
      rw [hpad]
      simp [nPadding]
  | 3, _ =>
      have hbits : 5 * n = 8 * (b.map UInt8.toNat).length + 1 := hn
      have hpad : paddingOf 8 n = 3 := by
        unfold paddingOf
        omega
      rw [hpad]
      simp [nPadding]
  | 4, _ =>
      have hbits : 5 * n = 8 * (b.map UInt8.toNat).length + 3 := hn
      have hpad : paddingOf 8 n = 1 := by
        unfold paddingOf
        omega
      rw [hpad]
      simp [nPadding]

theorem decodeBase32_spec : DecodesDigits 5 8 decode32_table DecodeBase32 := by
  intro p
  obtain ⟨v, hbits, hleft, hmode⟩ := foldl_history
    (decoding_start 5 decodePending32 rfl (by decide))
    (fun _ _ _ h hdec => decodePhase32_spec h hdec) _ (digits_lt tableOf_base32 p)
  unfold DecodeBase32
  rw [decodeText_eq tableOf_base32]
  generalize (digitsOf decode32_table p).foldl decodePhase32 ⟨0, 0, []⟩ = state at *
  obtain ⟨mode, left, ret⟩ := state
  have hlength := hbits.bits
  match mode, hmode with
  | 0, _ =>
      exact ⟨ret, v, 0, false, rfl, hbits, by decide,
        fun _ => ⟨by decide, Nat.lt_one_iff.mp hbits.left_lt⟩, fun _ _ _ => rfl⟩
  | 1, _ =>
      exact ⟨ret, v, 5, true, rfl, hbits, by decide, nofun, fun h => absurd h (by decide)⟩
  | 2, _ =>
      obtain rfl : left = v := hleft (Nat.succ_ne_zero 1)
      refine decodes_end tableOf_base32 (by decide) hbits (by decide : 2 < 5) ?_ _
      change 8 * (ret.map UInt8.toNat).length + 2 = 5 * _ at hlength
      unfold paddingOf
      omega
  | 3, _ =>
      exact ⟨ret, v, 7, true, rfl, hbits, by decide, nofun, fun h => absurd h (by decide)⟩
  | 4, _ =>
      obtain rfl : left = v := hleft (Nat.succ_ne_zero 3)
      refine decodes_end tableOf_base32 (by decide) hbits (by decide : 4 < 5) ?_ _
      change 8 * (ret.map UInt8.toNat).length + 4 = 5 * _ at hlength
      unfold paddingOf
      omega
  | 5, _ =>
      obtain rfl : left = v := hleft (Nat.succ_ne_zero 4)
      refine decodes_end tableOf_base32 (by decide) hbits (by decide : 1 < 5) ?_ _
      change 8 * (ret.map UInt8.toNat).length + 1 = 5 * _ at hlength
      unfold paddingOf
      omega
  | 6, _ =>
      exact ⟨ret, v, 6, true, rfl, hbits, by decide, nofun, fun h => absurd h (by decide)⟩
  | 7, _ =>
      obtain rfl : left = v := hleft (Nat.succ_ne_zero 6)
      refine decodes_end tableOf_base32 (by decide) hbits (by decide : 3 < 5) ?_ _
      change 8 * (ret.map UInt8.toNat).length + 3 = 5 * _ at hlength
      unfold paddingOf
      omega

/-! ### Strictness -/

/-- The decoders undo the encoders with a cleared flag.  Where a flag is cleared, the encoder
gives back the characters of the alphabet that the text starts with, in lower case for base
32, and the padding for their number.  No decoder reads behind the terminating NUL. -/
theorem base64_strict :
    ((∀ b, DecodeBase64 (EncodeBase64 b) = some (b, false)) ∧
      (∀ p b, DecodeBase64 p = some (b, false) → EncodeBase64 b =
        (p.takeWhile fun c => decide (c ∈ pbase64)) ++
          List.replicate (paddingOf 4 (p.takeWhile fun c => decide (c ∈ pbase64)).length) 61) ∧
      ∀ p, DecodeBase64 p ≠ none) ∧
    (∀ b, DecodeBase32 (EncodeBase32 b) = some (b, false)) ∧
      (∀ p b, DecodeBase32 p = some (b, false) → EncodeBase32 b =
        (p.takeWhile fun c => decide (tolower c ∈ pbase32)).map tolower ++ List.replicate
          (paddingOf 8 (p.takeWhile fun c => decide (tolower c ∈ pbase32)).length) 61) ∧
      ∀ p, DecodeBase32 p ≠ none := by
  obtain ⟨hinverse, hstrict, hreads⟩ :=
    coder_strict (by decide) tableOf_base64 encodeBase64_spec decodeBase64_spec
  refine ⟨⟨hinverse, ?_, hreads⟩,
    coder_strict (by decide) tableOf_base32 encodeBase32_spec decodeBase32_spec⟩
  intro p b h
  have hencode := hstrict p b h
  rw [List.map_id] at hencode
  exact hencode

end Ziftrcoin.Spec
