/-
Module: Ziftrcoin.Proofs.CoinsRoundTrip
Purpose: Unspent outputs and undo records are read back from disk as they were
  written, every byte of them and no other.
Trusted boundary: none
Main exports: readVarInt_write, coinsFormat_roundTrips
-/
import Ziftrcoin.Spec.CoinsFormat

namespace Ziftrcoin.Spec

open Ziftrcoin.Lib

/-! ### VARINT -/

theorem varIntGroups_natCast (n len : ℕ) :
    varIntGroups n len =
      if n ≤ 0x7F then [UInt8.ofNat (n % 128 + if len = 0 then 0 else 0x80)]
      else UInt8.ofNat (n % 128 + if len = 0 then 0 else 0x80) ::
        varIntGroups ((n / 128 - 1 : ℕ) : ℤ) (len + 1) := by
  have hgroup : ((n : ℤ) % 128).toNat = n % 128 := by omega
  rw [varIntGroups, hgroup]
  by_cases hn : n ≤ 0x7F
  · rw [if_pos (by omega), if_pos hn]
  · have hrest : (n : ℤ) / 128 - 1 = ((n / 128 - 1 : ℕ) : ℤ) := by omega
    rw [if_neg (by omega), if_neg hn, hrest]

/-- A group is taken in, and one that is not the last adds one. -/
theorem readVarIntLoop_cons {bits acc n : ℕ} (len : ℕ) (hn : n < 2 ^ bits)
    (hacc : acc * 128 + n % 128 = n) (hmore : len = 0 ∨ n + 1 < 2 ^ bits) (rest : valtype) :
    readVarIntLoop bits acc (UInt8.ofNat (n % 128 + if len = 0 then 0 else 0x80) :: rest) =
      if len = 0 then .ok (n, rest) else readVarIntLoop bits (n + 1) rest := by
  have hgroup : (UInt8.ofNat (n % 128 + if len = 0 then 0 else 0x80)).toNat =
      n % 128 + if len = 0 then 0 else 0x80 := by
    rw [UInt8.toNat_ofNat']
    split_ifs
    · omega
    · omega
  rw [readVarIntLoop, hgroup]
  by_cases hlen : len = 0
  · rw [if_pos hlen, if_pos hlen, if_neg (by omega), Nat.add_zero, Nat.mod_mod, hacc,
      Nat.mod_eq_of_lt hn]
  · have hlow : (n % 128 + 0x80) % 128 = n % 128 := by omega
    rw [if_neg hlen, if_neg hlen, if_pos (by omega), hlow, hacc, Nat.mod_eq_of_lt hn,
      Nat.mod_eq_of_lt (hmore.resolve_left hlen)]

/-- The groups of a number behind its lowest are read as one more than it. -/
theorem readVarIntLoop_groups {bits : ℕ} (len : ℕ) (rest : valtype) (n : ℕ)
    (hn : n + 1 < 2 ^ bits) :
    readVarIntLoop bits 0 ((varIntGroups n (len + 1)).reverse ++ rest) =
      readVarIntLoop bits (n + 1) rest := by
  induction n using Nat.strong_induction_on generalizing len rest with
  | _ n ih =>
      rw [varIntGroups_natCast]
      by_cases hsmall : n ≤ 0x7F
      · rw [if_pos hsmall]
        exact readVarIntLoop_cons (len + 1) (by omega) (by omega) (.inr hn) rest
      · rw [if_neg hsmall, List.reverse_cons, List.append_assoc,
          ih (n / 128 - 1) (by omega) (len + 1) _ (by omega)]
        exact readVarIntLoop_cons (len + 1) (by omega) (by omega) (.inr hn) rest

theorem readVarInt_write {bits n : ℕ} (hn : n < 2 ^ bits) (rest : valtype) :
    ReadVarInt bits (WriteVarInt n ++ rest) = .ok (n, rest) := by
  unfold ReadVarInt WriteVarInt
  rw [varIntGroups_natCast]
  by_cases hsmall : n ≤ 0x7F
  · rw [if_pos hsmall]
    exact readVarIntLoop_cons 0 hn (by omega) (.inl rfl) rest
  · rw [if_neg hsmall, List.reverse_cons, List.append_assoc,
      readVarIntLoop_groups 0 _ (n / 128 - 1) (by omega)]
    exact readVarIntLoop_cons 0 hn (by omega) (.inl rfl) rest

/-- A number of type `int` that is not negative. -/
theorem roundTrips_varInt_int :
    RoundTrips (fun n : ℤ => 0 ≤ n ∧ n < 2 ^ 31) WriteVarInt ReadVarInt_int := by
  rintro n ⟨hnonneg, hn⟩ rest
  obtain ⟨m, rfl⟩ := Int.eq_ofNat_of_zero_le hnonneg
  unfold ReadVarInt_int
  rw [Reader.bind_run_ok (readVarInt_write (by omega : m < 2 ^ 32) rest), Reader.pure_run,
    Int.bmod_eq_of_le (by omega) (by omega)]

theorem length_varIntGroups (n : ℤ) (len : ℕ) :
    (varIntGroups n len).length = GetSizeOfVarInt n := by
  induction n, len using varIntGroups.induct with
  | case1 n len hn =>
      rw [varIntGroups, GetSizeOfVarInt, if_pos hn, if_pos hn]
      rfl
  | case2 n len hn ih =>
      rw [varIntGroups, GetSizeOfVarInt, if_neg hn, if_neg hn, List.length_cons, ih]

theorem length_writeVarInt (n : ℤ) : (WriteVarInt n).length = GetSizeOfVarInt n := by
  unfold WriteVarInt
  rw [List.length_reverse, length_varIntGroups]

/-! ### Amounts -/

/-- Zeros are taken off until there is none or they are as many as allowed. -/
theorem stripZeros_spec (fuel n : ℕ) :
    n = (stripZeros fuel n).1 * 10 ^ (stripZeros fuel n).2 ∧ (stripZeros fuel n).2 ≤ fuel ∧
      ((stripZeros fuel n).2 < fuel → (stripZeros fuel n).1 % 10 ≠ 0) := by
  induction fuel generalizing n with
  | zero => simp [stripZeros]
  | succ fuel ih =>
      rw [stripZeros]
      split_ifs with hzero
      · obtain ⟨hvalue, hle, hdigit⟩ := ih (n / 10)
        dsimp only
        refine ⟨?_, by omega, fun hless => hdigit (by omega)⟩
        rw [Nat.pow_succ, ← Nat.mul_assoc, ← hvalue]
        omega
      · exact ⟨by simp, by simp, fun _ => hzero⟩

theorem timesTen_eq {e n : ℕ} (h : n * 10 ^ e < 2 ^ 64) : timesTen e n = n * 10 ^ e := by
  induction e generalizing n with
  | zero => simp [timesTen]
  | succ e ih =>
      have hpow : n * 10 ^ (e + 1) = n * 10 * 10 ^ e := by
        rw [Nat.pow_succ, Nat.mul_comm (10 ^ e) 10, Nat.mul_assoc]
      have hone : n * 10 ≤ n * 10 * 10 ^ e := Nat.le_mul_of_pos_right _ (Nat.pow_pos (by decide))
      have hten : uint64 (n * 10) = n * 10 := Nat.mod_eq_of_lt (by omega)
      rw [timesTen, hten, ih (by omega), hpow]

/-- Nine times the amount has to fit in 64 bits. -/
theorem decompressAmount_compress {n : ℕ} (hn : n ≤ MAX_MONEY_SATOSHIS) :
    DecompressAmount (CompressAmount n) = n := by
  have hmax : n ≤ 10 ^ 18 := by
    have hmoney : MAX_MONEY_SATOSHIS ≤ 10 ^ 18 := by decide
    omega
  unfold CompressAmount
  split_ifs with hzero
  · rw [hzero]
    rfl
  · obtain ⟨hvalue, hle, hdigit⟩ := stripZeros_spec 9 n
    generalize stripZeros 9 n = stripped at hvalue hle hdigit
    obtain ⟨m, e⟩ := stripped
    dsimp only at hvalue hle hdigit ⊢
    have hm : m ≤ n := hvalue ▸ Nat.le_mul_of_pos_right m (Nat.pow_pos (by decide))
    have hpos : m ≠ 0 := by
      rintro rfl
      exact hzero (by omega)
    split_ifs with he
    · have hd := hdigit he
      have hsmall : uint64 (1 + (m / 10 * 9 + m % 10 - 1) * 10 + e) =
          1 + (m / 10 * 9 + m % 10 - 1) * 10 + e := Nat.mod_eq_of_lt (by omega)
      rw [hsmall]
      unfold DecompressAmount
      have hx : 1 + (m / 10 * 9 + m % 10 - 1) * 10 + e - 1 =
          (m / 10 * 9 + m % 10 - 1) * 10 + e := by omega
      have hlow : ((m / 10 * 9 + m % 10 - 1) * 10 + e) % 10 = e := by omega
      have hhigh : ((m / 10 * 9 + m % 10 - 1) * 10 + e) / 10 = m / 10 * 9 + m % 10 - 1 := by
        omega
      have hback : uint64 ((m / 10 * 9 + m % 10 - 1) / 9 * 10 +
          ((m / 10 * 9 + m % 10 - 1) % 9 + 1)) = m := by
        unfold uint64
        omega
      rw [if_neg (by omega), hx]
      dsimp only
      rw [hlow, hhigh, if_pos he, hback, timesTen_eq (by omega)]
      exact hvalue.symm
    · obtain rfl : e = 9 := by omega
      have hsmall : uint64 (1 + (m - 1) * 10 + 9) = 1 + (m - 1) * 10 + 9 :=
        Nat.mod_eq_of_lt (by omega)
      rw [hsmall]
      unfold DecompressAmount
      have hx : 1 + (m - 1) * 10 + 9 - 1 = (m - 1) * 10 + 9 := by omega
      have hlow : ((m - 1) * 10 + 9) % 10 = 9 := by omega
      have hhigh : ((m - 1) * 10 + 9) / 10 + 1 = m := by omega
      rw [if_neg (by omega), hx]
      dsimp only
      rw [hlow, if_neg (by decide), hhigh, timesTen_eq (by omega)]
      exact hvalue.symm

theorem compressAmount_lt (n : ℕ) : CompressAmount n < 2 ^ 64 := by
  unfold CompressAmount
  split_ifs
  · decide
  · dsimp only
    split_ifs
    · exact Nat.mod_lt _ (by decide)
    · exact Nat.mod_lt _ (by decide)

/-! ### Scripts -/

/-- Compressing and decompressing a fully valid public key are inverse to each
other. -/
def PointsRoundTrip (curve : KeyCurve) : Prop :=
  ∀ pubkey : valtype, pubkey.length = 65 → CScript.byteAt pubkey 0 = 0x04 →
    curve.IsFullyValid pubkey = true →
    curve.Decompress (UInt8.ofNat (2 + CScript.byteAt pubkey 64 % 2) ::
      CScript.bytesAt pubkey 1 32) = some pubkey

section Script

variable {curve : KeyCurve} {script : CScript}

theorem getD_of_byteAt {i v : ℕ} (h : script.byteAt i = v) : script.getD i 0 = UInt8.ofNat v := by
  rw [← h]
  exact UInt8.ofNat_toNat.symm

theorem length_bytesAt {i n : ℕ} (h : i + n ≤ script.length) : (script.bytesAt i n).length = n := by
  unfold CScript.bytesAt
  rw [List.length_take, List.length_drop]
  omega

theorem getElem?_bytesAt {i n k : ℕ} (hk : k < n) (h : i + n ≤ script.length) :
    (script.bytesAt i n)[k]? = some (script.getD (i + k) 0) := by
  unfold CScript.bytesAt
  rw [List.getElem?_take, if_pos hk, List.getElem?_drop, List.getD_eq_getElem?_getD,
    List.getElem?_eq_getElem (by omega : i + k < script.length), Option.getD_some]

theorem bytesAt_eq_map {i n : ℕ} (h : i + n ≤ script.length) :
    script.bytesAt i n = (List.range n).map fun k => script.getD (i + k) 0 := by
  refine List.ext_getElem? fun k => ?_
  by_cases hk : k < n
  · rw [getElem?_bytesAt hk h, List.getElem?_map, List.getElem?_range hk, Option.map_some]
  · rw [List.getElem?_eq_none (by rw [length_bytesAt h]; omega),
      List.getElem?_eq_none (by rw [List.length_map, List.length_range]; omega)]

/-- A script in three parts. -/
theorem bytesAt_append {i n k : ℕ} (h : script.length = i + n + k) :
    script.bytesAt 0 i ++ script.bytesAt i n ++ script.bytesAt (i + n) k = script := by
  unfold CScript.bytesAt
  have hlast : (script.drop (i + n)).take k = script.drop (i + n) :=
    List.take_of_length_le (by rw [List.length_drop]; omega)
  rw [hlast, List.drop_zero, ← List.take_add, List.take_append_drop]

/-- What reading a special script comes to. -/
def Decompresses (curve : KeyCurve) (nSize : ℕ) (vch : valtype) (script : CScript) : Prop :=
  nSize < 6 ∧ vch.length = CScript.GetSpecialSize nSize ∧
    ∀ (old : CScript) (rest : valtype),
      old.Decompress curve nSize vch rest = .ok (script, rest)

theorem decompresses_keyID {keyID : valtype} (h : script.IsToKeyID = some keyID) :
    Decompresses curve 0 keyID script := by
  unfold CScript.IsToKeyID at h
  split_ifs at h with hscript
  obtain ⟨hlength, h0, h1, h2, h23, h24⟩ := hscript
  obtain rfl := Option.some.inj h
  refine ⟨by decide, length_bytesAt (by omega), fun old rest => ?_⟩
  have hparts : script.length = 3 + 20 + 2 := hlength
  have hsplit := bytesAt_append hparts
  rw [bytesAt_eq_map (by omega : 0 + 3 ≤ script.length),
    bytesAt_eq_map (by omega : 3 + 20 + 2 ≤ script.length)] at hsplit
  simp only [List.range_succ, List.range_zero, List.nil_append, List.map_cons, List.map_nil,
    List.cons_append, Nat.zero_add, Nat.add_zero, Nat.reduceAdd, getD_of_byteAt h0,
    getD_of_byteAt h1, getD_of_byteAt h2, getD_of_byteAt h23, getD_of_byteAt h24] at hsplit
  unfold CScript.Decompress
  rw [if_pos rfl, Reader.pure_run]
  conv_rhs => rw [← hsplit]
  rfl

theorem decompresses_scriptID {scriptID : valtype} (h : script.IsToScriptID = some scriptID) :
    Decompresses curve 1 scriptID script := by
  unfold CScript.IsToScriptID at h
  split_ifs at h with hscript
  obtain ⟨hlength, h0, h1, h22⟩ := hscript
  obtain rfl := Option.some.inj h
  refine ⟨by decide, length_bytesAt (by omega), fun old rest => ?_⟩
  have hparts : script.length = 2 + 20 + 1 := hlength
  have hsplit := bytesAt_append hparts
  rw [bytesAt_eq_map (by omega : 0 + 2 ≤ script.length),
    bytesAt_eq_map (by omega : 2 + 20 + 1 ≤ script.length)] at hsplit
  simp only [List.range_succ, List.range_zero, List.nil_append, List.map_cons, List.map_nil,
    List.cons_append, Nat.zero_add, Nat.add_zero, Nat.reduceAdd, getD_of_byteAt h0,
    getD_of_byteAt h1, getD_of_byteAt h22] at hsplit
  unfold CScript.Decompress
  rw [if_neg (by decide), if_pos rfl, Reader.pure_run]
  conv_rhs => rw [← hsplit]
  rfl

/-- A script around a public key. -/
theorem payToPubKey_bytesAt {n : ℕ} (hlength : script.length = 1 + n + 1)
    (hfirst : script.byteAt 0 = n) (hlast : script.byteAt (1 + n) = OP_CHECKSIG) :
    CScript.payToPubKey (script.bytesAt 1 n) = script := by
  have hsplit := bytesAt_append hlength
  rw [bytesAt_eq_map (by omega : 0 + 1 ≤ script.length),
    bytesAt_eq_map (by omega : 1 + n + 1 ≤ script.length)] at hsplit
  simp only [List.range_one, List.map_cons, List.map_nil, Nat.add_zero, getD_of_byteAt hfirst,
    getD_of_byteAt hlast, List.cons_append, List.nil_append] at hsplit
  unfold CScript.payToPubKey
  rw [length_bytesAt (by omega)]
  exact hsplit

theorem byteAt_bytesAt {i n k : ℕ} (hk : k < n) (h : i + n ≤ script.length) :
    CScript.byteAt (script.bytesAt i n) k = script.byteAt (i + k) := by
  unfold CScript.byteAt
  rw [List.getD_eq_getElem?_getD, getElem?_bytesAt hk h, Option.getD_some]

/-- A public key is its first byte and the others. -/
theorem cons_bytesAt {pubkey : valtype} {n : ℕ} (h : pubkey.length = n + 1) :
    pubkey.getD 0 0 :: CScript.bytesAt pubkey 1 n = pubkey := by
  obtain ⟨first, rest, rfl⟩ := List.exists_cons_of_length_eq_add_one h
  unfold CScript.bytesAt
  simp only [List.length_cons, Nat.add_right_cancel_iff] at h
  rw [List.drop_one, List.tail_cons, ← h, List.take_length]
  rfl

/-- A compressed public key in a script. -/
theorem decompresses_compressed (hlength : script.length = 35) (h0 : script.byteAt 0 = 33)
    (h34 : script.byteAt 34 = OP_CHECKSIG) {n : ℕ} (hn : n = 2 ∨ n = 3)
    (h1 : CScript.byteAt (script.bytesAt 1 33) 0 = n) :
    Decompresses curve n (CScript.bytesAt (script.bytesAt 1 33) 1 32) script := by
  have hpubkey : (script.bytesAt 1 33).length = 33 := length_bytesAt (by omega)
  have hscript : CScript.payToPubKey (script.bytesAt 1 33) = script :=
    payToPubKey_bytesAt hlength h0 h34
  refine ⟨by omega, ?_, fun old rest => ?_⟩
  · rw [length_bytesAt (by omega)]
    rcases hn with rfl | rfl
    · rfl
    · rfl
  · unfold CScript.Decompress
    rw [if_neg (by omega), if_neg (by omega), if_pos hn, Reader.pure_run, ← getD_of_byteAt h1,
      cons_bytesAt (hpubkey : _ = 32 + 1), hscript]

/-- A public key that has to be decompressed again. -/
theorem decompresses_uncompressed (hcurve : PointsRoundTrip curve)
    (hlength : script.length = 67) (h0 : script.byteAt 0 = 65)
    (h66 : script.byteAt 66 = OP_CHECKSIG)
    (h1 : CScript.byteAt (script.bytesAt 1 65) 0 = 0x04)
    (hvalid : curve.IsFullyValid (script.bytesAt 1 65) = true) :
    Decompresses curve (0x04 + CScript.byteAt (script.bytesAt 1 65) 64 % 2)
      (CScript.bytesAt (script.bytesAt 1 65) 1 32) script := by
  have hpubkey : (script.bytesAt 1 65).length = 65 := length_bytesAt (by omega)
  have hscript : CScript.payToPubKey (script.bytesAt 1 65) = script :=
    payToPubKey_bytesAt hlength h0 h66
  have hpoint := hcurve _ hpubkey h1 hvalid
  generalize hparity : CScript.byteAt (script.bytesAt 1 65) 64 % 2 = parity at hpoint ⊢
  have hbit : parity = 0 ∨ parity = 1 := by omega
  refine ⟨by omega, ?_, fun old rest => ?_⟩
  · rw [length_bytesAt (by omega)]
    rcases hbit with rfl | rfl
    · rfl
    · rfl
  · have hheader : 0x04 + parity - 2 = 2 + parity := by omega
    unfold CScript.Decompress
    rw [if_neg (by omega), if_neg (by omega), if_neg (by omega), if_pos (by omega), hheader,
      hpoint]
    dsimp only
    rw [if_pos hpubkey, hscript]
    rfl

/-- What a script is compressed to, and that it is decompressed again. -/
theorem compress_spec (hcurve : PointsRoundTrip curve) {compr : valtype}
    (h : script.Compress curve = some compr) :
    ∃ n vch, compr = UInt8.ofNat n :: vch ∧ Decompresses curve n vch script := by
  unfold CScript.Compress at h
  cases hkeyID : script.IsToKeyID with
  | some keyID =>
      rw [hkeyID] at h
      obtain rfl := Option.some.inj h
      exact ⟨0, keyID, rfl, decompresses_keyID hkeyID⟩
  | none =>
      rw [hkeyID] at h
      cases hscriptID : script.IsToScriptID with
      | some scriptID =>
          rw [hscriptID] at h
          obtain rfl := Option.some.inj h
          exact ⟨1, scriptID, rfl, decompresses_scriptID hscriptID⟩
      | none =>
          rw [hscriptID] at h
          unfold CScript.IsToPubKey at h
          by_cases hshort : script.length = 35 ∧ script.byteAt 0 = 33 ∧
              script.byteAt 34 = OP_CHECKSIG ∧ (script.byteAt 1 = 0x02 ∨ script.byteAt 1 = 0x03)
          · obtain ⟨hlength, h0, h34, h1⟩ := hshort
            have hfirst : CScript.byteAt (script.bytesAt 1 33) 0 = script.byteAt 1 :=
              byteAt_bytesAt (by decide) (by omega)
            simp only [hlength, h0, h34, h1, and_self, if_true, hfirst] at h
            obtain rfl := Option.some.inj h
            refine ⟨script.byteAt 1, _, ?_, decompresses_compressed hlength h0 h34 h1 hfirst⟩
            rw [getD_of_byteAt hfirst]
          · rw [if_neg hshort] at h
            by_cases hlong : script.length = 67 ∧ script.byteAt 0 = 65 ∧
                script.byteAt 66 = OP_CHECKSIG ∧ script.byteAt 1 = 0x04
            · rw [if_pos hlong] at h
              obtain ⟨hlength, h0, h66, h1⟩ := hlong
              have hfirst : CScript.byteAt (script.bytesAt 1 65) 0 = 0x04 :=
                (byteAt_bytesAt (by decide) (by omega)).trans h1
              by_cases hvalid : curve.IsFullyValid (script.bytesAt 1 65) = true
              · rw [if_pos hvalid] at h
                dsimp only at h
                rw [hfirst, if_neg (by decide), if_pos rfl] at h
                obtain rfl := Option.some.inj h
                exact ⟨_, _, rfl,
                  decompresses_uncompressed hcurve hlength h0 h66 hfirst hvalid⟩
              · rw [if_neg hvalid] at h
                cases h
            · rw [if_neg hlong] at h
              cases h

theorem writeVarInt_small {n : ℕ} (hn : n ≤ 0x7F) : WriteVarInt n = [UInt8.ofNat n] := by
  have hgroup : n % 128 = n := by omega
  unfold WriteVarInt
  rw [varIntGroups_natCast, if_pos hn, if_pos rfl, Nat.add_zero, hgroup]
  rfl

/-- A script is read back from its own bytes, over whatever script was there. -/
theorem roundTrips_script (hcurve : PointsRoundTrip curve) (old : CScript) :
    RoundTrips (fun script : CScript => script.length + 7 < 2 ^ 32)
      (CScript.Serialize curve) (old.Unserialize curve) := by
  intro script hscript rest
  unfold CScript.Serialize CScript.Unserialize
  cases hcompr : script.Compress curve with
  | some compr =>
      obtain ⟨n, vch, rfl, hn, hlength, hread⟩ := compress_spec hcurve hcompr
      have hsize : ReadVarInt 32 (UInt8.ofNat n :: (vch ++ rest)) = .ok (n, vch ++ rest) := by
        have hwritten : ReadVarInt 32 (WriteVarInt n ++ (vch ++ rest)) = .ok (n, vch ++ rest) :=
          readVarInt_write (by omega) _
        rwa [writeVarInt_small (by omega)] at hwritten
      have hspecial : n < nSpecialScripts := by
        unfold nSpecialScripts
        omega
      dsimp only
      rw [List.cons_append, Reader.bind_run_ok hsize, if_pos hspecial, ← hlength, readData,
        Reader.bind_run_ok (Reader.take_run_append _ vch rest)]
      exact hread old rest
  | none =>
      have hsize : script.serialSize = script.length + 7 := Nat.mod_eq_of_lt hscript
      have hlength : script.length + 7 - nSpecialScripts = script.length := by
        unfold nSpecialScripts
        omega
      dsimp only
      rw [hsize, List.append_assoc, Reader.bind_run_ok (readVarInt_write hscript _),
        if_neg (by unfold nSpecialScripts; omega), hlength]
      exact Reader.take_run_append _ script rest

theorem length_serialize_script (script : CScript) :
    (script.Serialize curve).length = script.GetSerializeSize curve := by
  unfold CScript.Serialize CScript.GetSerializeSize
  cases script.Compress curve with
  | some compr => rfl
  | none =>
      dsimp only
      rw [List.length_append, length_writeVarInt, Nat.add_comm]

end Script

/-! ### Outputs and undo records -/

section Records

variable {curve : KeyCurve}

/-- An output whose value and whose script can be written. -/
structure CTxOut.Writable (txout : CTxOut) : Prop where
  money : 0 ≤ txout.nValue ∧ txout.nValue ≤ MAX_MONEY_SATOSHIS
  script : txout.scriptPubKey.length + 7 < 2 ^ 32

theorem roundTrips_txout (hcurve : PointsRoundTrip curve) (old : CTxOut) :
    RoundTrips CTxOut.Writable (CTxOutCompressor.Serialize curve)
      (CTxOutCompressor.Unserialize curve old) := by
  rintro ⟨nValue, scriptPubKey⟩ ⟨⟨hnonneg, hmoney⟩, hscript⟩ rest
  dsimp only at hnonneg hmoney hscript
  obtain ⟨n, rfl⟩ := Int.eq_ofNat_of_zero_le hnonneg
  have hmax : MAX_MONEY_SATOSHIS < 2 ^ 63 := by decide
  have hvalue : ((n : ℤ) % 2 ^ 64).toNat = n := by omega
  unfold CTxOutCompressor.Serialize CTxOutCompressor.Unserialize
  dsimp only
  rw [hvalue, List.append_assoc, Reader.bind_run_ok (readVarInt_write (compressAmount_lt n) _),
    Reader.bind_run_ok (roundTrips_script hcurve old.scriptPubKey scriptPubKey hscript rest),
    Reader.pure_run, decompressAmount_compress hmoney, Int.bmod_eq_of_le (by omega) (by omega)]

theorem length_serialize_txout (txout : CTxOut) :
    (CTxOutCompressor.Serialize curve txout).length =
      CTxOutCompressor.GetSerializeSize curve txout := by
  unfold CTxOutCompressor.Serialize CTxOutCompressor.GetSerializeSize
  rw [List.length_append, length_writeVarInt, length_serialize_script]

/-- An undo record that can be written; without a height there is no version. -/
structure CTxInUndo.Writable (undo : CTxInUndo) : Prop where
  txout : undo.txout.Writable
  height : undo.nHeight < 2 ^ 31
  version : 0 ≤ undo.nVersion ∧ undo.nVersion < 2 ^ 31

/-- An undo record is read back but for the version where there is no height. -/
theorem unserialize_undo (hcurve : PointsRoundTrip curve) {undo : CTxInUndo}
    (h : undo.Writable) (rest : valtype) :
    CTxInUndo.Unserialize curve .empty (undo.Serialize curve ++ rest) =
      .ok ({ undo with nVersion := if 0 < undo.nHeight then undo.nVersion else 0 }, rest) := by
  obtain ⟨txout, fCoinBase, nHeight, nVersion⟩ := undo
  obtain ⟨htxout, hheight, hversion⟩ := h
  dsimp only at htxout hheight hversion ⊢
  have hbit : fCoinBase.toNat < 2 := Bool.toNat_lt fCoinBase
  have hcode : CTxInUndo.heightCode ⟨txout, fCoinBase, nHeight, nVersion⟩ =
      nHeight * 2 + fCoinBase.toNat := Nat.mod_eq_of_lt (by dsimp only; omega)
  have hhalf : (nHeight * 2 + fCoinBase.toNat) / 2 = nHeight := by omega
  have hcoinbase : ((nHeight * 2 + fCoinBase.toNat) % 2 == 1) = fCoinBase := by
    have hlow : (nHeight * 2 + fCoinBase.toNat) % 2 = fCoinBase.toNat := by omega
    rw [hlow]
    cases fCoinBase with
    | true => rfl
    | false => rfl
  have htail := roundTrips_txout hcurve CTxOut.null txout htxout rest
  unfold CTxInUndo.Serialize CTxInUndo.Unserialize
  rw [hcode]
  dsimp only [CTxInUndo.empty]
  rw [List.append_assoc, List.append_assoc,
    Reader.bind_run_ok (readVarInt_write (by omega : _ < 2 ^ 32) _), hhalf, hcoinbase]
  by_cases hpos : 0 < nHeight
  · rw [if_pos hpos, if_pos hpos, if_pos hpos,
      Reader.bind_run_ok (roundTrips_varInt_int nVersion hversion _),
      Reader.bind_run_ok htail, Reader.pure_run]
  · rw [if_neg hpos, if_neg hpos, if_neg hpos, List.nil_append,
      Reader.bind_run_ok (Reader.pure_run _ _), Reader.bind_run_ok htail, Reader.pure_run]

theorem length_serialize_undo (undo : CTxInUndo)
    (h : (undo.Serialize curve).length < 2 ^ 32) :
    undo.GetSerializeSize curve = (undo.Serialize curve).length := by
  have hsum : (undo.Serialize curve).length = GetSizeOfVarInt undo.heightCode +
      (if 0 < undo.nHeight then GetSizeOfVarInt undo.nVersion else 0) +
      CTxOutCompressor.GetSerializeSize curve undo.txout := by
    unfold CTxInUndo.Serialize
    rw [List.length_append, List.length_append, length_writeVarInt, length_serialize_txout]
    split_ifs
    · rw [length_writeVarInt]
    · rfl
  unfold CTxInUndo.GetSerializeSize
  rw [← hsum]
  exact Nat.mod_eq_of_lt h

end Records

/-! ### The mask -/

theorem fromBits_lt (bs : List Bool) : fromBits bs < 2 ^ bs.length := by
  induction bs with
  | nil => decide
  | cons b bs ih =>
      have hb := Bool.toNat_lt b
      rw [fromBits, List.length_cons, Nat.pow_succ]
      omega

theorem testBit_fromBits (bs : List Bool) (p : ℕ) : (fromBits bs).testBit p = bs.getD p false := by
  induction bs generalizing p with
  | nil => simp [fromBits]
  | cons b bs ih =>
      have hb := Bool.toNat_lt b
      cases p with
      | zero =>
          have hlow : (b.toNat + 2 * fromBits bs) % 2 = b.toNat := by omega
          rw [fromBits, Nat.testBit_zero, hlow]
          cases b with
          | true => rfl
          | false => rfl
      | succ p =>
          have hhigh : (b.toNat + 2 * fromBits bs) / 2 = fromBits bs := by omega
          rw [fromBits, Nat.testBit_succ, hhigh, ih]
          rfl

theorem fromBits_eq_zero {bs : List Bool} : fromBits bs = 0 ↔ ∀ b ∈ bs, b = false := by
  induction bs with
  | nil => simp [fromBits]
  | cons b bs ih =>
      rw [fromBits, List.forall_mem_cons, ← ih]
      cases b with
      | true => simp
      | false => simp

/-- The byte of the mask for some outputs. -/
def byteOf (chunk : List CTxOut) : UInt8 :=
  UInt8.ofNat (fromBits (chunk.map fun txout => !txout.IsNull))

/-- The bits of a byte of the mask. -/
def bitsOf (chAvail : UInt8) : List Bool :=
  (List.range 8).map fun p => chAvail.toNat.testBit p

theorem toNat_byteOf {chunk : List CTxOut} (h : chunk.length ≤ 8) :
    (byteOf chunk).toNat = fromBits (chunk.map fun txout => !txout.IsNull) := by
  have hlt := fromBits_lt (chunk.map fun txout => !txout.IsNull)
  have hpow : 2 ^ chunk.length ≤ 2 ^ 8 := Nat.pow_le_pow_right (by decide) h
  rw [List.length_map] at hlt
  unfold byteOf
  rw [UInt8.toNat_ofNat', Nat.mod_eq_of_lt (by omega)]

theorem bitsOf_byteOf {chunk : List CTxOut} (h : chunk.length ≤ 8) :
    bitsOf (byteOf chunk) =
      (chunk.map fun txout => !txout.IsNull) ++ List.replicate (8 - chunk.length) false := by
  unfold bitsOf
  rw [toNat_byteOf h]
  refine List.ext_getElem? fun p => ?_
  rw [List.getElem?_map]
  by_cases hp : p < 8
  · rw [List.getElem?_range hp, Option.map_some, testBit_fromBits, List.getD_eq_getElem?_getD]
    by_cases hchunk : p < chunk.length
    · rw [List.getElem?_append_left (by simpa using hchunk), List.getElem?_map,
        List.getElem?_eq_getElem hchunk]
      rfl
    · rw [List.getElem?_append_right (by simpa using hchunk),
        List.getElem?_eq_none (by simpa using hchunk), List.length_map,
        List.getElem?_replicate, if_pos (by omega), Option.getD_none]
  · rw [List.getElem?_eq_none (by simpa using hp), List.getElem?_eq_none]
    · rfl
    · rw [List.length_append, List.length_map, List.length_replicate]
      omega

theorem byteOf_eq_zero {chunk : List CTxOut} (h : chunk.length ≤ 8) :
    byteOf chunk = 0 ↔ chunk.all CTxOut.IsNull = true := by
  rw [← UInt8.toNat_inj, toNat_byteOf h, UInt8.toNat_zero, fromBits_eq_zero, List.all_eq_true]
  simp

/-- The bytes of the mask for the outputs behind the first two. -/
def maskFrom (left : List CTxOut) (n : ℕ) : valtype :=
  (List.range n).map fun b => byteOf ((left.drop (b * 8)).take 8)

theorem maskFrom_succ (left : List CTxOut) (n : ℕ) :
    maskFrom left (n + 1) = byteOf (left.take 8) :: maskFrom (left.drop 8) n := by
  unfold maskFrom
  rw [List.range_succ_eq_map, List.map_cons, List.map_map, Nat.zero_mul, List.drop_zero]
  refine congrArg _ (List.map_congr_left fun b _ => ?_)
  rw [Function.comp_apply, List.drop_drop, Nat.succ_mul, Nat.add_comm (b * 8) 8]

/-- The number of bytes for some outputs. -/
def maskSize (left : List CTxOut) : ℕ := (left.length + 7) / 8

theorem maskSize_eq_succ {left : List CTxOut} (h : left ≠ []) :
    maskSize left = maskSize (left.drop 8) + 1 := by
  have hpos := List.length_pos_iff.mpr h
  unfold maskSize
  rw [List.length_drop]
  omega

/-- There is no spent output at the end. -/
def EndsUnspent (left : List CTxOut) : Prop :=
  ∀ h : left ≠ [], (left.getLast h).IsNull = false

theorem EndsUnspent.drop {left : List CTxOut} (h : EndsUnspent left) (n : ℕ) :
    EndsUnspent (left.drop n) := by
  intro hrest
  have hleft : left ≠ [] := by
    rintro rfl
    exact hrest List.drop_nil
  rw [List.getLast_drop hrest]
  exact h hleft

/-- The outputs of a last byte are not all spent. -/
theorem EndsUnspent.last_byte {left : List CTxOut} (h : EndsUnspent left) (hleft : left ≠ [])
    (hrest : left.drop 8 = []) : (left.take 8).all CTxOut.IsNull = false := by
  have htake : left.take 8 = left := by
    have hsplit := List.take_append_drop 8 left
    rwa [hrest, List.append_nil] at hsplit
  rw [htake, Bool.eq_false_iff]
  intro hall
  have hlast := List.all_eq_true.mp hall _ (List.getLast_mem hleft)
  rw [h hleft] at hlast
  cases hlast

theorem calcMaskLoop_eq {left : List CTxOut} (h : EndsUnspent left) (b nLast nNonzero : ℕ) :
    CCoins.calcMaskLoop left b nLast nNonzero =
      (if left = [] then nLast else b + maskSize left,
        nNonzero + (maskFrom left (maskSize left)).countP (· ≠ 0)) := by
  induction hlength : left.length using Nat.strong_induction_on
    generalizing left b nLast nNonzero with
  | _ len ih =>
      rw [CCoins.calcMaskLoop]
      by_cases hleft : left = []
      · subst hleft
        rfl
      · have hpos := List.length_pos_iff.mpr hleft
        have hshort : (left.take 8).length ≤ 8 := List.length_take_le 8 left
        have hsize := maskSize_eq_succ hleft
        have hrest := fun b' nLast' nNonzero' => ih (left.drop 8).length
          (by rw [List.length_drop]; omega) (h.drop 8) b' nLast' nNonzero' rfl
        rw [if_neg hleft, if_neg hleft, hsize, maskFrom_succ, List.countP_cons]
        by_cases hnull : (left.take 8).all CTxOut.IsNull = true
        · have hmore : left.drop 8 ≠ [] := fun hnil => by
            rw [h.last_byte hleft hnil] at hnull
            cases hnull
          have hzero := (byteOf_eq_zero hshort).mpr hnull
          rw [if_pos hnull, hrest, if_neg hmore, hzero]
          refine Prod.ext ?_ ?_
          · dsimp only
            omega
          · simp
        · have hbyte : byteOf (left.take 8) ≠ 0 := fun hzero =>
            hnull ((byteOf_eq_zero hshort).mp hzero)
          rw [if_neg hnull, hrest]
          refine Prod.ext ?_ ?_
          · dsimp only
            split_ifs with hnil
            · rw [hnil]
              rfl
            · omega
          · simp only [hbyte, ne_eq, not_false_eq_true, decide_true, if_true]
            omega

/-- The last byte is not zero. -/
theorem maskFrom_ends {left : List CTxOut} (h : EndsUnspent left) :
    ∀ hmask : maskFrom left (maskSize left) ≠ [],
      (maskFrom left (maskSize left)).getLast hmask ≠ 0 := by
  induction hlength : left.length using Nat.strong_induction_on generalizing left with
  | _ len ih =>
      by_cases hleft : left = []
      · subst hleft
        exact fun hmask => absurd rfl hmask
      · have hpos := List.length_pos_iff.mpr hleft
        have hshort : (left.take 8).length ≤ 8 := List.length_take_le 8 left
        rw [maskSize_eq_succ hleft, maskFrom_succ]
        intro hmask
        by_cases hnil : left.drop 8 = []
        · have hlast := h.last_byte hleft hnil
          simp only [hnil, maskSize, maskFrom, List.length_nil]
          intro hzero
          rw [(byteOf_eq_zero hshort).mp hzero] at hlast
          cases hlast
        · have hrest := ih (left.drop 8).length (by rw [List.length_drop]; omega) (h.drop 8) rfl
          have hmore : maskFrom (left.drop 8) (maskSize (left.drop 8)) ≠ [] := by
            rw [maskSize_eq_succ hnil, maskFrom_succ]
            exact List.cons_ne_nil _ _
          rw [List.getLast_cons hmore]
          exact hrest hmore

/-- The mask says which outputs are there, and fills up its last byte. -/
theorem bits_maskFrom (left : List CTxOut) :
    ∃ k, (maskFrom left (maskSize left)).flatMap bitsOf =
      (left.map fun txout => !txout.IsNull) ++ List.replicate k false := by
  induction hlength : left.length using Nat.strong_induction_on generalizing left with
  | _ len ih =>
      by_cases hleft : left = []
      · subst hleft
        exact ⟨0, rfl⟩
      · have hpos := List.length_pos_iff.mpr hleft
        have hshort : (left.take 8).length ≤ 8 := List.length_take_le 8 left
        rw [maskSize_eq_succ hleft, maskFrom_succ, List.flatMap_cons, bitsOf_byteOf hshort]
        by_cases hnil : left.drop 8 = []
        · have htake : left.take 8 = left := by
            have hsplit := List.take_append_drop 8 left
            rwa [hnil, List.append_nil] at hsplit
          refine ⟨8 - left.length, ?_⟩
          rw [hnil, htake]
          exact List.append_nil _
        · obtain ⟨k, hk⟩ := ih (left.drop 8).length (by rw [List.length_drop]; omega)
            (left.drop 8) rfl
          have hfull : (left.take 8).length = 8 := by
            have hmore := List.length_pos_iff.mpr hnil
            rw [List.length_drop] at hmore
            rw [List.length_take]
            omega
          refine ⟨k, ?_⟩
          rw [hk, hfull, Nat.sub_self, List.replicate_zero, List.append_nil, ← List.append_assoc,
            ← List.map_append, List.take_append_drop]

/-- The mask is read up to its last byte. -/
theorem readMask_append {mask : valtype} (h : ∀ hmask : mask ≠ [], mask.getLast hmask ≠ 0)
    (rest : valtype) :
    CCoins.readMask (mask.countP (· ≠ 0)) (mask ++ rest) = .ok (mask.flatMap bitsOf, rest) := by
  induction mask with
  | nil => cases rest <;> rfl
  | cons chAvail mask ih =>
      have hmore : ∀ hmask : mask ≠ [], mask.getLast hmask ≠ 0 := fun hmask => by
        have hlast := h (List.cons_ne_nil chAvail mask)
        rwa [List.getLast_cons hmask] at hlast
      rw [List.countP_cons]
      by_cases hzero : chAvail = 0
      · subst hzero
        have hmask : mask ≠ [] := by
          rintro rfl
          exact h (List.cons_ne_nil _ _) rfl
        have hcount : 0 < mask.countP (· ≠ 0) :=
          List.countP_pos_iff.mpr ⟨_, List.getLast_mem hmask, by simpa using hmore hmask⟩
        obtain ⟨k, hk⟩ := Nat.exists_eq_succ_of_ne_zero hcount.ne'
        have hread := ih hmore
        rw [hk] at hread
        simp only [ne_eq, not_true_eq_false, decide_false, Bool.false_eq_true, if_false,
          Nat.add_zero, List.cons_append, hk, CCoins.readMask, if_true, hread]
        rfl
      · have hread := ih hmore
        simp only [ne_eq, hzero, not_false_eq_true, decide_true, if_true, List.cons_append,
          CCoins.readMask, if_false]
        rw [hread]
        rfl

/-! ### Coins -/

/-- Coins that can be written: some output is unspent, the last one is, and every
number fits. -/
structure CCoins.Writable (coins : CCoins) : Prop where
  cleaned : coins.Cleanup = coins
  unspent : coins.IsPruned = false
  outputs : ∀ txout ∈ coins.vout, txout = CTxOut.null ∨ txout.Writable
  count : coins.vout.length + 5 < 2 ^ 32
  height : coins.nHeight < 2 ^ 31
  version : 0 ≤ coins.nVersion ∧ coins.nVersion < 2 ^ 31

section Coins

variable {curve : KeyCurve} {coins : CCoins}

theorem CTxOut.Writable.not_null {txout : CTxOut} (h : txout.Writable) : txout.IsNull = false := by
  have hmoney := h.money.1
  unfold CTxOut.IsNull
  rw [beq_eq_false_iff_ne]
  omega

theorem CCoins.Writable.nonempty (h : coins.Writable) : coins.vout ≠ [] := by
  intro hnil
  have hunspent := h.unspent
  unfold CCoins.IsPruned at hunspent
  rw [hnil] at hunspent
  cases hunspent

theorem CCoins.Writable.ends (h : coins.Writable) : EndsUnspent coins.vout := by
  intro hvout
  have hself : coins.vout.rdropWhile CTxOut.IsNull = coins.vout :=
    congrArg CCoins.vout h.cleaned
  exact Bool.eq_false_iff.mpr (List.rdropWhile_eq_self_iff.mp hself hvout)

theorem CCoins.Writable.mask_eq (h : coins.Writable) :
    coins.CalcMaskSize = (maskSize (coins.vout.drop 2),
      (maskFrom (coins.vout.drop 2) (maskSize (coins.vout.drop 2))).countP (· ≠ 0)) := by
  unfold CCoins.CalcMaskSize
  rw [calcMaskLoop_eq (h.ends.drop 2), Nat.zero_add, Nat.zero_add]
  split_ifs with hnil
  · rw [hnil]
    rfl
  · rfl

theorem map_maskByte (vout : List CTxOut) (n : ℕ) :
    (List.range n).map (CCoins.maskByte vout) = maskFrom (vout.drop 2) n := by
  unfold maskFrom
  refine List.map_congr_left fun b _ => ?_
  rw [List.drop_drop]
  rfl

/-- The assertion holds: one of the first two outputs is there, or the mask is not
empty. -/
theorem CCoins.Writable.maskAssert (h : coins.Writable) : coins.maskAssert = true := by
  have hends := h.ends h.nonempty
  unfold CCoins.maskAssert
  rw [Bool.or_eq_true, Bool.or_eq_true, bne_iff_ne, h.mask_eq]
  rcases hvout : coins.vout with _ | ⟨first, _ | ⟨second, _ | ⟨third, more⟩⟩⟩
  · exact absurd hvout h.nonempty
  · left; left
    simp only [hvout, List.getLast_singleton] at hends
    simp [CCoins.fFirst, CCoins.IsAvailable, hvout, hends]
  · left; right
    simp only [hvout, List.getLast_cons_cons, List.getLast_singleton] at hends
    simp [CCoins.fSecond, CCoins.IsAvailable, hvout, hends]
  · right
    have hdrop : (first :: second :: third :: more).drop 2 = third :: more := rfl
    have hmore : EndsUnspent (third :: more) := by
      have hlater := h.ends.drop 2
      rwa [hvout, hdrop] at hlater
    have hmask : maskFrom (third :: more) (maskSize (third :: more)) ≠ [] := by
      rw [maskSize_eq_succ (List.cons_ne_nil third more), maskFrom_succ]
      exact List.cons_ne_nil _ _
    rw [hdrop]
    refine (List.countP_pos_iff.mpr ⟨_, List.getLast_mem hmask, ?_⟩).ne'
    simpa using maskFrom_ends hmore hmask

/-- The mask has no more bytes than fit in the header code. -/
theorem countP_maskFrom_le (left : List CTxOut) (n : ℕ) :
    (maskFrom left n).countP (· ≠ 0) ≤ n := by
  have hle := List.countP_le_length (p := fun b : UInt8 => decide (b ≠ 0)) (l := maskFrom left n)
  unfold maskFrom at hle ⊢
  simpa using hle

/-- The header code gives back the coinbase flag, the first two outputs and the
number of mask bytes that are not zero. -/
theorem headerCode_parts {nMaskCode nCode : ℕ} {fCoinBase fFirst fSecond : Bool}
    (hassert : fFirst = true ∨ fSecond = true ∨ nMaskCode ≠ 0)
    (hcode : nCode = 8 * (nMaskCode - if fFirst || fSecond then 0 else 1) + fCoinBase.toNat +
      (if fFirst then 2 else 0) + if fSecond then 4 else 0) :
    (nCode % 2 == 1) = fCoinBase ∧ (nCode / 2 % 2 == 1) = fFirst ∧
      (nCode / 4 % 2 == 1) = fSecond ∧
      (nCode / 8 + if nCode / 2 % 4 ≠ 0 then 0 else 1) = nMaskCode := by
  cases fCoinBase <;> cases fFirst <;> cases fSecond <;>
    simp only [Bool.or_true, Bool.or_false, Bool.false_eq_true, if_true, if_false,
      Bool.toNat_true, Bool.toNat_false, false_or, true_or, beq_iff_eq,
      beq_eq_false_iff_ne] at hcode hassert ⊢ <;>
    refine ⟨by omega, by omega, by omega, ?_⟩ <;> split_ifs <;> omega

theorem readOutputs_cons {fAvail : Bool} {vAvail : List Bool} {bs mid rest : valtype}
    {txout : CTxOut} {vout : List CTxOut}
    (hfirst : CCoins.readOutput curve fAvail bs = .ok (txout, mid))
    (hrest : CCoins.readOutputs curve vAvail mid = .ok (vout, rest)) :
    CCoins.readOutputs curve (fAvail :: vAvail) bs = .ok (txout :: vout, rest) := by
  rw [CCoins.readOutputs, Reader.bind_run_ok hfirst]
  exact Reader.bind_run_ok hrest _

/-- Outputs are read where the mask says so; behind the last are null ones. -/
theorem readOutputs_append (hcurve : PointsRoundTrip curve) {vout : List CTxOut}
    (h : ∀ txout ∈ vout, txout = CTxOut.null ∨ txout.Writable) (k : ℕ) (rest : valtype) :
    CCoins.readOutputs curve
        ((vout.map fun txout => !txout.IsNull) ++ List.replicate k false)
        (CCoins.serializeOutputs curve vout ++ rest) =
      .ok (vout ++ List.replicate k CTxOut.null, rest) := by
  induction vout with
  | nil =>
      induction k with
      | zero => rfl
      | succ k ih => exact readOutputs_cons rfl ih
  | cons txout vout ih =>
      obtain ⟨htxout, hvout⟩ := List.forall_mem_cons.mp h
      refine readOutputs_cons ?_ (ih hvout)
      unfold CCoins.serializeOutputs
      rw [List.flatMap_cons]
      rcases htxout with rfl | hwritable
      · rfl
      · beta_reduce
        rw [hwritable.not_null, if_neg Bool.false_ne_true, List.append_assoc]
        exact roundTrips_txout hcurve CTxOut.null txout hwritable _

theorem rdropWhile_append_null (vout : List CTxOut) (k : ℕ) :
    (vout ++ List.replicate k CTxOut.null).rdropWhile CTxOut.IsNull =
      vout.rdropWhile CTxOut.IsNull := by
  induction k with
  | zero => rw [List.replicate_zero, List.append_nil]
  | succ k ih =>
      rw [List.replicate_succ', ← List.append_assoc, List.rdropWhile_concat_pos _ _ _ rfl, ih]

/-- The availability bits that are read are those of the outputs, filled up. -/
theorem availability (hvout : coins.vout ≠ []) :
    ∃ k, [coins.fFirst, coins.fSecond] ++
        (maskFrom (coins.vout.drop 2) (maskSize (coins.vout.drop 2))).flatMap bitsOf =
      (coins.vout.map fun txout => !txout.IsNull) ++ List.replicate k false := by
  obtain ⟨k, hk⟩ := bits_maskFrom (coins.vout.drop 2)
  obtain ⟨fCoinBase, vout, nHeight, nVersion⟩ := coins
  dsimp only at hvout hk ⊢
  rcases vout with _ | ⟨first, _ | ⟨second, more⟩⟩
  · exact absurd rfl hvout
  · refine ⟨1, ?_⟩
    simp [CCoins.fFirst, CCoins.fSecond, CCoins.IsAvailable, maskSize, maskFrom]
  · refine ⟨k, ?_⟩
    rw [hk]
    rfl

/-- Coins are written, and read back as they were. -/
theorem unserialize_coins (hcurve : PointsRoundTrip curve) (h : coins.Writable) :
    ∃ bytes, coins.Serialize curve = some bytes ∧
      ∀ rest, CCoins.Unserialize curve (bytes ++ rest) = .ok (coins, rest) := by
  refine ⟨_, if_pos h.maskAssert, fun rest => ?_⟩
  obtain ⟨k, hbits⟩ := availability h.nonempty
  have hmask := h.mask_eq
  have hends := maskFrom_ends (h.ends.drop 2)
  have hcount := countP_maskFrom_le (coins.vout.drop 2) (maskSize (coins.vout.drop 2))
  have hassert : coins.fFirst = true ∨ coins.fSecond = true ∨
      (maskFrom (coins.vout.drop 2) (maskSize (coins.vout.drop 2))).countP (· ≠ 0) ≠ 0 := by
    have hassert := h.maskAssert
    unfold CCoins.maskAssert at hassert
    rw [hmask, Bool.or_eq_true, Bool.or_eq_true, bne_iff_ne, or_assoc] at hassert
    exact hassert
  have hcode : coins.headerCode = 8 *
      ((maskFrom (coins.vout.drop 2) (maskSize (coins.vout.drop 2))).countP (· ≠ 0) -
        if coins.fFirst || coins.fSecond then 0 else 1) + coins.fCoinBase.toNat +
      (if coins.fFirst then 2 else 0) + if coins.fSecond then 4 else 0 := by
    have hbit := Bool.toNat_lt coins.fCoinBase
    have hsize := h.count
    unfold maskSize at hcount
    rw [List.length_drop] at hcount
    unfold CCoins.headerCode
    rw [hmask]
    refine Nat.mod_eq_of_lt ?_
    unfold maskSize
    rw [List.length_drop]
    dsimp only
    split_ifs <;> omega
  obtain ⟨hcoinbase, hfirst, hsecond, hmaskCode⟩ := headerCode_parts hassert hcode
  have hsmall : coins.headerCode < 2 ^ 32 := Nat.mod_lt _ (by decide)
  have hheight : 0 ≤ (coins.nHeight : ℤ) ∧ (coins.nHeight : ℤ) < 2 ^ 31 := by
    have hlt := h.height
    omega
  have hvout : (coins.vout ++ List.replicate k CTxOut.null).rdropWhile CTxOut.IsNull =
      coins.vout := (rdropWhile_append_null coins.vout k).trans (congrArg CCoins.vout h.cleaned)
  unfold CCoins.Unserialize
  rw [map_maskByte, hmask]
  simp only [List.append_assoc]
  rw [Reader.bind_run_ok (roundTrips_varInt_int coins.nVersion h.version _),
    Reader.bind_run_ok (readVarInt_write hsmall _), hmaskCode,
    Reader.bind_run_ok (readMask_append hends _), hfirst, hsecond, hbits,
    Reader.bind_run_ok (readOutputs_append hcurve h.outputs k _),
    Reader.bind_run_ok (roundTrips_varInt_int _ hheight rest), Reader.pure_run, hcoinbase]
  unfold CCoins.Cleanup
  rw [hvout, Int.toNat_natCast]

/-- The size that is computed beforehand is the number of bytes written. -/
theorem length_serialize_coins (h : coins.maskAssert = true) {bytes : valtype}
    (hbytes : coins.Serialize curve = some bytes) (hsize : bytes.length < 2 ^ 32) :
    coins.GetSerializeSize curve = some bytes.length := by
  unfold CCoins.Serialize at hbytes
  rw [if_pos h] at hbytes
  have houtputs : (CCoins.serializeOutputs curve coins.vout).length =
      (coins.vout.map fun txout => if txout.IsNull then 0
        else CTxOutCompressor.GetSerializeSize curve txout).sum := by
    unfold CCoins.serializeOutputs
    rw [List.length_flatMap]
    refine congrArg List.sum (List.map_congr_left fun txout _ => ?_)
    split_ifs
    · rfl
    · exact length_serialize_txout txout
  have hlength : bytes.length = GetSizeOfVarInt coins.nVersion +
      GetSizeOfVarInt coins.headerCode + coins.CalcMaskSize.1 +
      (coins.vout.map fun txout => if txout.IsNull then 0
        else CTxOutCompressor.GetSerializeSize curve txout).sum +
      GetSizeOfVarInt coins.nHeight := by
    rw [← Option.some.inj hbytes, ← houtputs]
    simp only [List.length_append, length_writeVarInt, List.length_map, List.length_range]
  unfold CCoins.GetSerializeSize
  rw [if_pos h, ← hlength]
  exact congrArg some (Nat.mod_eq_of_lt hsize)

end Coins

/-! ### The formats as they are -/

/-- Coins, undo records and outputs are written and read back, and the sizes that
are computed for them are those of what is written. -/
theorem coinsFormat_roundTrips {curve : KeyCurve} (hcurve : PointsRoundTrip curve) :
    (∀ coins : CCoins, coins.Writable → coins.maskAssert = true ∧
      ∃ bytes, coins.Serialize curve = some bytes ∧
        (∀ rest, CCoins.Unserialize curve (bytes ++ rest) = .ok (coins, rest)) ∧
        (bytes.length < 2 ^ 32 → coins.GetSerializeSize curve = some bytes.length)) ∧
    (∀ undo : CTxInUndo, undo.Writable →
      (∀ rest, CTxInUndo.Unserialize curve .empty (undo.Serialize curve ++ rest) =
        .ok ({ undo with nVersion := if 0 < undo.nHeight then undo.nVersion else 0 }, rest)) ∧
      ((undo.Serialize curve).length < 2 ^ 32 →
        undo.GetSerializeSize curve = (undo.Serialize curve).length)) ∧
    (∀ old txout : CTxOut, txout.Writable →
      (∀ rest, CTxOutCompressor.Unserialize curve old
        (CTxOutCompressor.Serialize curve txout ++ rest) = .ok (txout, rest)) ∧
      (CTxOutCompressor.Serialize curve txout).length =
        CTxOutCompressor.GetSerializeSize curve txout) := by
  refine ⟨fun coins hcoins => ⟨hcoins.maskAssert, ?_⟩, fun undo hundo => ?_,
    fun old txout htxout => ?_⟩
  · obtain ⟨bytes, hbytes, hread⟩ := unserialize_coins hcurve hcoins
    exact ⟨bytes, hbytes, hread, length_serialize_coins hcoins.maskAssert hbytes⟩
  · exact ⟨fun rest => unserialize_undo hcurve hundo rest, length_serialize_undo undo⟩
  · exact ⟨fun rest => roundTrips_txout hcurve old txout htxout rest,
      length_serialize_txout txout⟩

/-- No public key is fully valid. -/
def noCurve : KeyCurve := { IsFullyValid := fun _ => false, Decompress := fun _ => none }

/-- Coins with one output. -/
def oneCoin : CCoins :=
  { fCoinBase := true, vout := [{ nValue := 5, scriptPubKey := [0x51] }], nHeight := 7
    nVersion := 1 }

theorem coinsFormat_roundTrips_oneCoin :
    ∃ bytes, oneCoin.Serialize noCurve = some bytes ∧
      ∀ rest, CCoins.Unserialize noCurve (bytes ++ rest) = .ok (oneCoin, rest) := by
  have hcurve : PointsRoundTrip noCurve := fun _ _ _ hvalid => absurd hvalid Bool.false_ne_true
  have hcoin : oneCoin.Writable :=
    { cleaned := by decide
      unspent := by decide
      outputs := fun txout htxout => by
        obtain rfl := List.mem_singleton.mp htxout
        exact .inr ⟨by decide, by decide⟩
      count := by decide
      height := by decide
      version := by decide }
  obtain ⟨-, bytes, hbytes, hread, -⟩ := (coinsFormat_roundTrips hcurve).1 oneCoin hcoin
  exact ⟨bytes, hbytes, hread⟩

/-- The size of a script is kept in 32 bits, seven more than its length: a script
that is seven bytes too long is read as something of 25 bytes. -/
theorem unserialize_long_script (curve : KeyCurve) {script : CScript}
    (hlength : script.length = 2 ^ 32 - 7) (old : CScript) (rest : valtype) :
    old.Unserialize curve (script.Serialize curve ++ rest) ≠ .ok (script, rest) := by
  have hkeyID : script.IsToKeyID = none := if_neg fun h => by omega
  have hscriptID : script.IsToScriptID = none := if_neg fun h => by omega
  have hpubKey : script.IsToPubKey curve = none :=
    (if_neg fun h => by omega).trans (if_neg fun h => by omega)
  have hcompress : script.Compress curve = none := by
    unfold CScript.Compress
    rw [hkeyID, hscriptID, hpubKey]
  have hsize : script.serialSize = 0 := by
    unfold CScript.serialSize uint32 nSpecialScripts
    omega
  have hhead : script.take 20 ++ (script.drop 20 ++ rest) = script ++ rest := by
    rw [← List.append_assoc, List.take_append_drop]
  have htake : (script.take 20).length = CScript.GetSpecialSize 0 := by
    rw [List.length_take, Nat.min_eq_left (by omega)]
    rfl
  unfold CScript.Serialize CScript.Unserialize
  rw [hcompress]
  dsimp only
  rw [hsize, List.append_assoc, Reader.bind_run_ok (readVarInt_write (by decide : 0 < 2 ^ 32) _),
    if_pos (by decide), ← hhead, ← htake, readData,
    Reader.bind_run_ok (Reader.take_run_append _ _ _)]
  unfold CScript.Decompress
  rw [if_pos rfl, Reader.pure_run]
  intro hread
  have hwrong := congrArg (fun r => r.map fun p : CScript × valtype => p.1.length) hread
  simp only [Except.map, List.length_append, htake, hlength] at hwrong
  exact absurd (Except.ok.inj hwrong) (by decide)

/-- An output whose script has `2 ^ 32 - 7` bytes is not read back. -/
theorem coinsFormat_long_script :
    CTxOutCompressor.Unserialize noCurve CTxOut.null
        (CTxOutCompressor.Serialize noCurve
          { nValue := 0, scriptPubKey := List.replicate (2 ^ 32 - 7) 0 } ++ []) ≠
      .ok ({ nValue := 0, scriptPubKey := List.replicate (2 ^ 32 - 7) 0 }, []) := by
  have hlength : (List.replicate (2 ^ 32 - 7) (0 : UInt8)).length = 2 ^ 32 - 7 :=
    List.length_replicate
  generalize List.replicate (2 ^ 32 - 7) (0 : UInt8) = script at hlength ⊢
  have hscript := unserialize_long_script noCurve hlength CTxOut.null.scriptPubKey []
  intro hread
  unfold CTxOutCompressor.Serialize CTxOutCompressor.Unserialize at hread
  dsimp only at hread
  have hamount : CompressAmount ((0 : ℤ) % 2 ^ 64).toNat = 0 := by decide
  rw [hamount, List.append_assoc,
    Reader.bind_run_ok (readVarInt_write (by decide : 0 < 2 ^ 64) _)] at hread
  obtain ⟨script', mid, hread', hpure⟩ := Reader.bind_run_eq_ok.mp hread
  obtain ⟨hsame, rfl⟩ := Prod.mk.inj (Except.ok.inj hpure)
  obtain rfl := (CTxOut.mk.inj hsame).2
  exact hscript hread'

end Ziftrcoin.Spec
