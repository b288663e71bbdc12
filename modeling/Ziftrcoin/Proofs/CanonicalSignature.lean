/-
Module: Ziftrcoin.Proofs.CanonicalSignature
Purpose: `IsCanonicalSignature` accepts the signatures of its grammar and no others,
  and reads no byte outside the string whatever its length bytes say.
Trusted boundary: `canonicalSignatureReads` is human-reviewed against
  IsCanonicalSignature in src/script.cpp
Main exports: MinimalInteger, isCanonicalSignature_grammar
-/
import Ziftrcoin.Spec.Interpreter
import Mathlib.Data.List.GetD

namespace Ziftrcoin.Spec

/-! ### The reads -/

/-- `IsCanonicalSignature` read by read; `none` where a byte outside the string is
read. -/
def canonicalSignatureReads (vchSig : valtype) (flags : ScriptFlags) : Option Bool :=
  if flags.STRICTENC = false then some true
  else if vchSig.length < 9 then some false
  else if 73 < vchSig.length then some false
  else
    vchSig[0]?.bind fun b0 =>
    if b0.toNat ≠ 0x30 then some false
    else
      vchSig[1]?.bind fun b1 =>
      if b1.toNat ≠ vchSig.length - 3 then some false
      else
        vchSig[3]?.bind fun nLenR =>
        if vchSig.length ≤ 5 + nLenR.toNat then some false
        else
          vchSig[5 + nLenR.toNat]?.bind fun nLenS =>
          if nLenR.toNat + nLenS.toNat + 7 ≠ vchSig.length then some false
          else
            integerReads vchSig 4 nLenR.toNat <|
            integerReads vchSig (6 + nLenR.toNat) nLenS.toNat <|
            (if flags.EVEN_S = true then
              vchSig[6 + nLenR.toNat + (nLenS.toNat - 1)]?.bind fun b => some (b.toNat % 2 == 1)
            else some false).bind fun odd =>
            if odd then some false
            else
              vchSig[vchSig.length - 1]?.bind fun b =>
              some (decide (1 ≤ b.toNat % 0x80) && decide (b.toNat % 0x80 ≤ 3))
where
  /-- The checks of the integer at `start`; the bytes are read through a pointer. -/
  integerReads (vchSig : valtype) (start nLen : ℕ) (next : Option Bool) : Option Bool :=
    vchSig[start - 2]?.bind fun type =>
    if type.toNat ≠ 0x02 then some false
    else if nLen = 0 then some false
    else
      vchSig[start]?.bind fun first =>
      if 0x80 ≤ first.toNat then some false
      else if 1 < nLen then
        if first.toNat = 0x00 then
          vchSig[start + 1]?.bind fun second =>
          if second.toNat < 0x80 then some false else next
        else next
      else next

theorem read_eq {vchSig : valtype} {i : ℕ} (h : i < vchSig.length) :
    vchSig[i]? = some (vchSig.getD i 0) := by
  rw [List.getD_eq_getElem?_getD, List.getElem?_eq_getElem h, Option.getD_some]

theorem canonicalInteger_iff {vchSig : valtype} {start nLen : ℕ} :
    canonicalInteger vchSig start nLen = true ↔
      (vchSig.getD (start - 2) 0).toNat = 0x02 ∧ nLen ≠ 0 ∧ (vchSig.getD start 0).toNat < 0x80 ∧
        (1 < nLen → (vchSig.getD start 0).toNat = 0 →
          0x80 ≤ (vchSig.getD (start + 1) 0).toNat) := by
  unfold canonicalInteger
  dsimp only
  rw [Bool.and_eq_true, Bool.and_eq_true, Bool.and_eq_true, beq_iff_eq, bne_iff_ne,
    decide_eq_true_iff, Bool.not_eq_true', Bool.and_eq_false_imp, and_assoc, and_assoc]
  simp only [Bool.and_eq_true, decide_eq_true_eq, beq_iff_eq, decide_eq_false_iff_not, not_lt,
    and_imp]

/-- An integer inside the string is checked without a read outside it. -/
theorem integerReads_eq {vchSig : valtype} {start nLen : ℕ}
    (hin : start - 2 < vchSig.length) (hend : start + nLen ≤ vchSig.length)
    (next : Option Bool) :
    canonicalSignatureReads.integerReads vchSig start nLen next =
      if canonicalInteger vchSig start nLen = true then next else some false := by
  unfold canonicalSignatureReads.integerReads
  rw [read_eq hin, Option.bind_some]
  by_cases htype : (vchSig.getD (start - 2) 0).toNat = 0x02
  · by_cases hzero : nLen = 0
    · rw [if_neg (not_not.mpr htype), if_pos hzero,
        if_neg fun h => (canonicalInteger_iff.mp h).2.1 hzero]
    · rw [if_neg (not_not.mpr htype), if_neg hzero, read_eq (by omega : start < vchSig.length),
        Option.bind_some]
      by_cases hfirst : 0x80 ≤ (vchSig.getD start 0).toNat
      · rw [if_pos hfirst,
          if_neg fun h => Nat.not_lt.mpr hfirst (canonicalInteger_iff.mp h).2.2.1]
      · rw [if_neg hfirst]
        by_cases hlong : 1 < nLen
        · rw [if_pos hlong, read_eq (by omega : start + 1 < vchSig.length), Option.bind_some]
          by_cases hnull : (vchSig.getD start 0).toNat = 0x00
          · rw [if_pos hnull]
            by_cases hsecond : (vchSig.getD (start + 1) 0).toNat < 0x80
            · rw [if_pos hsecond, if_neg fun h =>
                Nat.not_lt.mpr ((canonicalInteger_iff.mp h).2.2.2 hlong hnull) hsecond]
            · rw [if_neg hsecond, if_pos (canonicalInteger_iff.mpr
                ⟨htype, hzero, Nat.not_le.mp hfirst, fun _ _ => Nat.not_lt.mp hsecond⟩)]
          · rw [if_neg hnull, if_pos (canonicalInteger_iff.mpr
              ⟨htype, hzero, Nat.not_le.mp hfirst, fun _ h => absurd h hnull⟩)]
        · rw [if_neg hlong, if_pos (canonicalInteger_iff.mpr
            ⟨htype, hzero, Nat.not_le.mp hfirst, fun h => absurd h hlong⟩)]
  · rw [if_pos htype, if_neg fun h => htype (canonicalInteger_iff.mp h).1]

/-- Every read is inside the string. -/
theorem canonicalSignatureReads_eq (vchSig : valtype) (flags : ScriptFlags) :
    canonicalSignatureReads vchSig flags = some (IsCanonicalSignature vchSig flags) := by
  unfold canonicalSignatureReads IsCanonicalSignature
  dsimp only
  by_cases hstrict : flags.STRICTENC = false
  · rw [if_pos hstrict, if_pos hstrict]
  rw [if_neg hstrict, if_neg hstrict]
  by_cases hshort : vchSig.length < 9
  · rw [if_pos hshort, if_pos (.inl hshort)]
  rw [if_neg hshort]
  by_cases hlong : 73 < vchSig.length
  · rw [if_pos hlong, if_pos (.inr hlong)]
  rw [if_neg hlong, if_neg (not_or.mpr ⟨hshort, hlong⟩), read_eq (by omega : 0 < vchSig.length),
    Option.bind_some, read_eq (by omega : 1 < vchSig.length), Option.bind_some,
    read_eq (by omega : 3 < vchSig.length), Option.bind_some]
  by_cases htype : (vchSig.getD 0 0).toNat ≠ 0x30
  · rw [if_pos htype, if_pos (.inl htype)]
  rw [if_neg htype]
  by_cases hmarker : (vchSig.getD 1 0).toNat ≠ vchSig.length - 3
  · rw [if_pos hmarker, if_pos (.inr hmarker)]
  rw [if_neg hmarker, if_neg (not_or.mpr ⟨htype, hmarker⟩)]
  obtain ⟨nLenR, hnLenR⟩ : ∃ nLenR, nLenR = (vchSig.getD 3 0).toNat := ⟨_, rfl⟩
  simp only [← hnLenR]
  by_cases hplace : vchSig.length ≤ 5 + nLenR
  · rw [if_pos hplace, if_pos hplace]
  rw [if_neg hplace, if_neg hplace, read_eq (by omega : 5 + nLenR < vchSig.length),
    Option.bind_some]
  obtain ⟨nLenS, hnLenS⟩ : ∃ nLenS, nLenS = (vchSig.getD (5 + nLenR) 0).toNat := ⟨_, rfl⟩
  simp only [← hnLenS]
  by_cases hsum : nLenR + nLenS + 7 ≠ vchSig.length
  · rw [if_pos hsum, if_pos hsum]
  rw [if_neg hsum, if_neg hsum, integerReads_eq (by omega) (by omega),
    integerReads_eq (by omega) (by omega),
    read_eq (by omega : vchSig.length - 1 < vchSig.length)]
  cases hR : canonicalInteger vchSig 4 nLenR with
  | false => simp
  | true =>
  cases hS : canonicalInteger vchSig (6 + nLenR) nLenS with
  | false => simp
  | true =>
  rw [if_pos rfl, if_pos rfl, if_neg (nofun : ¬ true = false),
    if_neg (nofun : ¬ true = false)]
  by_cases heven : flags.EVEN_S = true
  · rw [if_pos heven, read_eq (by omega : 6 + nLenR + (nLenS - 1) < vchSig.length),
      Option.bind_some, Option.bind_some]
    by_cases hodd : (vchSig.getD (6 + nLenR + (nLenS - 1)) 0).toNat % 2 = 1
    · rw [beq_iff_eq.mpr hodd, if_pos rfl, if_pos ⟨heven, hodd⟩]
    · rw [beq_eq_false_iff_ne.mpr hodd, if_neg (nofun : ¬ false = true),
        if_neg fun h => hodd h.2]
      rfl
  · rw [if_neg heven, if_neg fun h => heven h.1]
    rfl

/-! ### The grammar -/

/-- A non-negative big-endian integer with no byte that it does not need: a leading
zero stands only before a byte with its top bit set. -/
structure MinimalInteger (X : valtype) : Prop where
  nonempty : X ≠ []
  nonneg : (X.getD 0 0).toNat < 0x80
  minimal : 1 < X.length → (X.getD 0 0).toNat = 0 → 0x80 ≤ (X.getD 1 0).toNat

/-- Value of a byte string, most significant byte first. -/
def readBE (X : valtype) : ℕ := X.foldl (fun n b => n * 256 + b.toNat) 0

/-- The parts of a signature, with the bytes that announce them. -/
structure SignatureParts where
  tag : UInt8
  L : UInt8
  tagR : UInt8
  lenR : UInt8
  R : valtype
  tagS : UInt8
  lenS : UInt8
  S : valtype
  hashtype : UInt8

namespace SignatureParts

def bytes (p : SignatureParts) : valtype :=
  p.tag :: p.L :: p.tagR :: p.lenR :: (p.R ++ p.tagS :: p.lenS :: (p.S ++ [p.hashtype]))

/-- `30 L 02 lenR R 02 lenS S hashtype`. -/
structure Grammar (flags : ScriptFlags) (p : SignatureParts) : Prop where
  size : 9 ≤ p.bytes.length ∧ p.bytes.length ≤ 73
  tag : p.tag = 0x30
  total : p.L.toNat = p.bytes.length - 3
  tagR : p.tagR = 0x02
  lenR : p.lenR.toNat = p.R.length
  minimalR : MinimalInteger p.R
  tagS : p.tagS = 0x02
  lenS : p.lenS.toNat = p.S.length
  minimalS : MinimalInteger p.S
  hashtype : 1 ≤ p.hashtype.toNat % 0x80 ∧ p.hashtype.toNat % 0x80 ≤ 3
  even : flags.EVEN_S = true → readBE p.S % 2 = 0

variable {p : SignatureParts} {flags : ScriptFlags}

theorem length_bytes : p.bytes.length = p.R.length + p.S.length + 7 := by
  simp [bytes]
  omega

theorem getD_R {i : ℕ} (hi : i < p.R.length) : p.bytes.getD (4 + i) 0 = p.R.getD i 0 := by
  have hbytes : p.bytes = [p.tag, p.L, p.tagR, p.lenR] ++
      (p.R ++ p.tagS :: p.lenS :: (p.S ++ [p.hashtype])) := rfl
  rw [hbytes, List.getD_append_right _ _ _ _ (by simp),
    List.getD_append _ _ _ _ (by simpa using hi)]
  simp

/-- Behind the first integer. -/
theorem getD_behind (i : ℕ) : p.bytes.getD (4 + p.R.length + i) 0 =
    (p.tagS :: p.lenS :: (p.S ++ [p.hashtype])).getD i 0 := by
  have hbytes : p.bytes = [p.tag, p.L, p.tagR, p.lenR] ++ p.R ++
      (p.tagS :: p.lenS :: (p.S ++ [p.hashtype])) := by simp [bytes]
  rw [hbytes, List.getD_append_right _ _ _ _ (by simp; omega)]
  congr 1
  simp
  omega

theorem getD_S {i : ℕ} (hi : i < p.S.length) :
    p.bytes.getD (6 + p.R.length + i) 0 = p.S.getD i 0 := by
  have hindex : 6 + p.R.length + i = 4 + p.R.length + (i + 2) := by omega
  rw [hindex, getD_behind, List.getD_cons_succ, List.getD_cons_succ, List.getD_append _ _ _ _ hi]

theorem getD_last : p.bytes.getD (p.bytes.length - 1) 0 = p.hashtype := by
  have hindex : p.bytes.length - 1 = 4 + p.R.length + (p.S.length + 2) := by
    rw [length_bytes]
    omega
  rw [hindex, getD_behind, List.getD_cons_succ, List.getD_cons_succ,
    List.getD_append_right _ _ _ _ (Nat.le_refl _), Nat.sub_self]
  rfl

end SignatureParts

theorem minimalInteger_iff {vchSig X : valtype} {start : ℕ}
    (hX : ∀ i < X.length, vchSig.getD (start + i) 0 = X.getD i 0) :
    canonicalInteger vchSig start X.length = true ↔
      (vchSig.getD (start - 2) 0).toNat = 0x02 ∧ MinimalInteger X := by
  rw [canonicalInteger_iff]
  constructor
  · rintro ⟨htype, hne, hfirst, hsecond⟩
    have h0 := hX 0 (by omega)
    rw [Nat.add_zero] at h0
    rw [h0] at hfirst hsecond
    refine ⟨htype, ⟨fun h => hne (by rw [h]; rfl), hfirst, fun hlong hzero => ?_⟩⟩
    rw [← hX 1 hlong]
    exact hsecond hlong hzero
  · rintro ⟨htype, hmin⟩
    have hne : X.length ≠ 0 := fun h => hmin.nonempty (List.eq_nil_of_length_eq_zero h)
    have h0 := hX 0 (by omega)
    rw [Nat.add_zero] at h0
    rw [h0]
    refine ⟨htype, hne, hmin.nonneg, fun hlong hzero => ?_⟩
    rw [hX 1 hlong]
    exact hmin.minimal hlong hzero

/-- Only the last byte decides whether an integer is even. -/
theorem readBE_mod_two {X : valtype} (hX : X ≠ []) :
    readBE X % 2 = (X.getD (X.length - 1) 0).toNat % 2 := by
  obtain ⟨init, last, rfl⟩ := List.eq_nil_or_concat' X |>.resolve_left hX
  unfold readBE
  rw [List.foldl_append, List.length_append, List.length_singleton, Nat.add_sub_cancel,
    List.getD_append_right _ _ _ _ (Nat.le_refl _), Nat.sub_self]
  simp only [List.foldl_cons, List.foldl_nil, List.getD_cons_zero]
  omega

theorem toNat_eq_iff {b : UInt8} {n : ℕ} (hn : n < 256) : b.toNat = n ↔ b = UInt8.ofNat n := by
  constructor
  · rintro rfl
    exact UInt8.ofNat_toNat.symm
  · rintro rfl
    rw [UInt8.toNat_ofNat', Nat.mod_eq_of_lt hn]

/-- Every check of the string, in their order. -/
theorem isCanonicalSignature_iff {vchSig : valtype} {flags : ScriptFlags} {nLenR nLenS : ℕ}
    (hstrict : flags.STRICTENC = true) (hnLenR : (vchSig.getD 3 0).toNat = nLenR)
    (hnLenS : (vchSig.getD (5 + nLenR) 0).toNat = nLenS) :
    IsCanonicalSignature vchSig flags = true ↔
      9 ≤ vchSig.length ∧ vchSig.length ≤ 73 ∧ (vchSig.getD 0 0).toNat = 0x30 ∧
      (vchSig.getD 1 0).toNat = vchSig.length - 3 ∧ nLenR + nLenS + 7 = vchSig.length ∧
      canonicalInteger vchSig 4 nLenR = true ∧ canonicalInteger vchSig (6 + nLenR) nLenS = true ∧
      (flags.EVEN_S = true → (vchSig.getD (6 + nLenR + (nLenS - 1)) 0).toNat % 2 = 0) ∧
      1 ≤ (vchSig.getD (vchSig.length - 1) 0).toNat % 0x80 ∧
      (vchSig.getD (vchSig.length - 1) 0).toNat % 0x80 ≤ 3 := by
  unfold IsCanonicalSignature
  dsimp only
  rw [if_neg (by rw [hstrict]; nofun)]
  simp only [hnLenR, hnLenS]
  split_ifs with hsize htype hplace hsum hR hS heven
  · exact iff_of_false nofun fun h => by omega
  · exact iff_of_false nofun fun h => by omega
  · exact iff_of_false nofun fun h => by omega
  · exact iff_of_false nofun fun h => by omega
  · exact iff_of_false nofun fun h => by rw [h.2.2.2.2.2.1] at hR; cases hR
  · exact iff_of_false nofun fun h => by rw [h.2.2.2.2.2.2.1] at hS; cases hS
  · exact iff_of_false nofun fun h => by have hz := h.2.2.2.2.2.2.2.1 heven.1; omega
  · rw [Bool.and_eq_true, decide_eq_true_iff, decide_eq_true_iff]
    constructor
    · rintro ⟨hlow, hhigh⟩
      refine ⟨by omega, by omega, by omega, by omega, by omega, Bool.eq_true_of_not_eq_false hR,
        Bool.eq_true_of_not_eq_false hS, fun hflag => ?_, hlow, hhigh⟩
      have hodd := not_and.mp heven hflag
      omega
    · intro h
      exact ⟨h.2.2.2.2.2.2.2.2.1, h.2.2.2.2.2.2.2.2.2⟩

/-- The answer on the parts of a signature whose lengths agree with their bytes. -/
theorem isCanonicalSignature_layout {p : SignatureParts} {flags : ScriptFlags}
    (hstrict : flags.STRICTENC = true) (hlenR : p.lenR.toNat = p.R.length)
    (hlenS : p.lenS.toNat = p.S.length) :
    IsCanonicalSignature p.bytes flags = true ↔ p.Grammar flags := by
  have hR3 : (p.bytes.getD 3 0).toNat = p.R.length := hlenR
  have hS5 : (p.bytes.getD (5 + p.R.length) 0).toNat = p.S.length := by
    have hindex : 5 + p.R.length = 4 + p.R.length + 1 := by omega
    rw [hindex, SignatureParts.getD_behind]
    exact hlenS
  have htagS : p.bytes.getD (6 + p.R.length - 2) 0 = p.tagS := by
    have hindex : 6 + p.R.length - 2 = 4 + p.R.length + 0 := by omega
    rw [hindex, SignatureParts.getD_behind]
    rfl
  have hlength := SignatureParts.length_bytes (p := p)
  rw [isCanonicalSignature_iff hstrict hR3 hS5,
    minimalInteger_iff fun i hi => SignatureParts.getD_R hi,
    minimalInteger_iff fun i hi => SignatureParts.getD_S hi, htagS, SignatureParts.getD_last,
    toNat_eq_iff (by decide : 0x02 < 256)]
  constructor
  · rintro ⟨hlow, hhigh, htag, htotal, _, ⟨htagR, hminR⟩, ⟨htagS, hminS⟩, heven, hhash⟩
    refine ⟨⟨hlow, hhigh⟩, (toNat_eq_iff (by decide : 0x30 < 256)).mp htag, htotal,
      htagR, hlenR, hminR, (toNat_eq_iff (by decide : 0x02 < 256)).mp htagS, hlenS, hminS, hhash,
      fun hflag => ?_⟩
    have hpos : 0 < p.S.length := List.length_pos_iff.mpr hminS.nonempty
    have hlast := heven hflag
    rw [SignatureParts.getD_S (by omega)] at hlast
    rw [readBE_mod_two hminS.nonempty]
    exact hlast
  · intro h
    have hpos : 0 < p.S.length := List.length_pos_iff.mpr h.minimalS.nonempty
    refine ⟨h.size.1, h.size.2, (toNat_eq_iff (by decide : 0x30 < 256)).mpr h.tag, h.total,
      by omega, ⟨h.tagR, h.minimalR⟩,
      ⟨(toNat_eq_iff (by decide : 0x02 < 256)).mpr h.tagS, h.minimalS⟩, fun hflag => ?_, h.hashtype⟩
    rw [SignatureParts.getD_S (by omega), ← readBE_mod_two h.minimalS.nonempty]
    exact h.even hflag

/-- A string whose length bytes add up consists of parts. -/
theorem exists_layout {vchSig : valtype}
    (hsum : (vchSig.getD 3 0).toNat + (vchSig.getD (5 + (vchSig.getD 3 0).toNat) 0).toNat + 7 =
      vchSig.length) :
    ∃ p : SignatureParts, p.bytes = vchSig ∧ p.lenR.toNat = p.R.length ∧
      p.lenS.toNat = p.S.length := by
  match vchSig, hsum with
  | tag :: L :: tagR :: lenR :: rest, hsum =>
      simp only [List.getD_cons_succ, List.getD_cons_zero, List.length_cons] at hsum
      obtain ⟨R, behind, rfl, hR⟩ :
          ∃ R behind : valtype, rest = R ++ behind ∧ R.length = lenR.toNat :=
        ⟨rest.take lenR.toNat, rest.drop lenR.toNat, (List.take_append_drop _ _).symm,
          List.length_take_of_le (by omega)⟩
      match behind, hsum with
      | tagS :: lenS :: behind, hsum =>
          have hlenS : (R ++ tagS :: lenS :: behind).getD (lenR.toNat + 1) 0 = lenS := by
            rw [List.getD_append_right _ _ _ _ (by omega), ← hR, Nat.add_sub_cancel_left]
            rfl
          have hindex : 5 + lenR.toNat = lenR.toNat + 1 + 4 := by omega
          rw [hindex] at hsum
          simp only [List.getD_cons_succ, hlenS, List.length_append, List.length_cons] at hsum
          obtain ⟨S, hashtype, rfl⟩ := List.eq_nil_or_concat' behind |>.resolve_left (by
            rintro rfl
            simp only [List.length_nil] at hsum
            omega)
          rw [List.length_append, List.length_singleton] at hsum
          have hS : lenS.toNat = S.length := by omega
          exact ⟨⟨tag, L, tagR, lenR, R, tagS, lenS, S, hashtype⟩, rfl, hR.symm, hS⟩
      | [tagS], hsum =>
          simp only [List.length_append, List.length_singleton] at hsum
          omega
      | [], hsum =>
          simp only [List.length_append, List.length_nil] at hsum
          omega
  | [], hsum => simp at hsum
  | [_], hsum => simp at hsum
  | [_, _], hsum => simp at hsum
  | [_, _, _], hsum => simp at hsum

/-- The signatures that are accepted are those of the grammar, and no read leaves the
string. -/
theorem isCanonicalSignature_grammar (vchSig : valtype) {flags : ScriptFlags}
    (hstrict : flags.STRICTENC = true) :
    (IsCanonicalSignature vchSig flags = true ↔
      ∃ p : SignatureParts, p.bytes = vchSig ∧ p.Grammar flags) ∧
    canonicalSignatureReads vchSig flags = some (IsCanonicalSignature vchSig flags) := by
  refine ⟨⟨fun h => ?_, ?_⟩, canonicalSignatureReads_eq vchSig flags⟩
  · have hsum := ((isCanonicalSignature_iff hstrict rfl rfl).mp h).2.2.2.2.1
    obtain ⟨p, rfl, hlenR, hlenS⟩ := exists_layout hsum
    exact ⟨p, rfl, (isCanonicalSignature_layout hstrict hlenR hlenS).mp h⟩
  · rintro ⟨p, rfl, hp⟩
    exact (isCanonicalSignature_layout hstrict hp.lenR hp.lenS).mpr hp

theorem isCanonicalSignature_grammar_one :
    (IsCanonicalSignature [0x30, 6, 2, 1, 5, 2, 1, 8, 1] ⟨true, true, true⟩ = true ↔
      ∃ p : SignatureParts, p.bytes = [0x30, 6, 2, 1, 5, 2, 1, 8, 1] ∧
        p.Grammar ⟨true, true, true⟩) ∧
    canonicalSignatureReads [0x30, 6, 2, 1, 5, 2, 1, 8, 1] ⟨true, true, true⟩ = some true :=
  @isCanonicalSignature_grammar [0x30, 6, 2, 1, 5, 2, 1, 8, 1] ⟨true, true, true⟩ rfl

end Ziftrcoin.Spec
