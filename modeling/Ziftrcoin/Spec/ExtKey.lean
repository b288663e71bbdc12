/-
Module: Ziftrcoin.Spec.ExtKey
Purpose: Extended keys: deriving children of private and of public keys, and the 74 bytes
  that a key is written as.
Trusted boundary: human-reviewed model of BIP32Hash, CECKey::TweakSecret, CECKey::TweakPublic,
  CKey::GetPubKey, CKey::Derive, CPubKey::Derive, CExtKey and CExtPubKey in src/key.cpp; the
  points of the curve, their bytes and the hashes are parameters
Main exports: KeyGroup, CKey.Derive, PubKeyDerive
-/
import Mathlib.Algebra.Group.Basic
import Ziftrcoin.Spec.Interpreter
import Ziftrcoin.Spec.WalletCrypt

namespace Ziftrcoin.Spec

/-! ### Numbers with their highest byte first -/

def beBytes (width n : Nat) : valtype := (leBytes width n).reverse

def readBigEndian (bs : valtype) : Nat := readLE bs.reverse

theorem readBigEndian_cons (b : UInt8) (bs : valtype) :
    readBigEndian (b :: bs) = b.toNat * 256 ^ bs.length + readBigEndian bs := by
  simp only [readBigEndian, List.reverse_cons, readLE_append, List.length_reverse, readLE]
  rw [Nat.mul_zero, Nat.add_zero, Nat.mul_comm, Nat.add_comm]

theorem readBigEndian_lt (bs : valtype) : readBigEndian bs < 256 ^ bs.length := by
  induction bs with
  | nil => exact Nat.one_pos
  | cons b bs ih =>
      have hb := Nat.mul_le_mul_right (256 ^ bs.length) (Nat.succ_le_of_lt b.toNat_lt)
      rw [Nat.succ_mul] at hb
      rw [readBigEndian_cons, List.length_cons, Nat.pow_succ']
      omega

theorem readBigEndian_beBytes {width n : Nat} (h : n < 256 ^ width) :
    readBigEndian (beBytes width n) = n := by
  rw [readBigEndian, beBytes, List.reverse_reverse, readLE_leBytes, Nat.mod_eq_of_lt h]

@[simp] theorem length_beBytes (width n : Nat) : (beBytes width n).length = width := by
  simp [beBytes]

/-! ### The range of private keys -/

/-- The order of the curve's group. -/
def curveOrder : Nat := 0xFFFFFFFFFFFFFFFFFFFFFFFFFFFFFFFEBAAEDCE6AF48A03BBFD25E8CD0364141

theorem curveOrder_eq : curveOrder = readBigEndian vchMax + 1 := by decide +kernel

theorem checkLoop_iff : ∀ {vch max : valtype}, vch.length = max.length →
    (checkLoop vch max = true ↔ readBigEndian vch ≤ readBigEndian max)
  | [], [], _ => by simp [checkLoop]
  | v :: vch, m :: max, h => by
      have hlength : vch.length = max.length := Nat.succ.inj h
      have hvch := readBigEndian_lt vch
      have hmax := readBigEndian_lt max
      rw [readBigEndian_cons, readBigEndian_cons, hlength]
      rw [hlength] at hvch
      have hlt : v < m ↔ v.toNat < m.toNat := UInt8.lt_iff_toNat_lt
      have hgt : m < v ↔ m.toNat < v.toNat := UInt8.lt_iff_toNat_lt
      unfold checkLoop
      split
      · next hless =>
          rw [hlt] at hless
          have := Nat.mul_le_mul_right (256 ^ max.length) (Nat.succ_le_of_lt hless)
          rw [Nat.succ_mul] at this
          simp only [true_iff]
          omega
      · next hless =>
          split
          · next hmore =>
              rw [hgt] at hmore
              have := Nat.mul_le_mul_right (256 ^ max.length) (Nat.succ_le_of_lt hmore)
              rw [Nat.succ_mul] at this
              simp only [Bool.false_eq_true, false_iff]
              omega
          · next hmore =>
              rw [hlt] at hless
              rw [hgt] at hmore
              have heq : v.toNat = m.toNat := by omega
              rw [checkLoop_iff hlength, heq]
              omega

theorem readBigEndian_eq_zero_iff (bs : valtype) :
    readBigEndian bs = 0 ↔ bs.any (· != 0) = false := by
  induction bs with
  | nil => simp [readBigEndian, readLE]
  | cons b bs ih =>
      rw [readBigEndian_cons, Nat.add_eq_zero_iff, ih, Nat.mul_eq_zero]
      have hb : b.toNat = 0 ↔ b = 0 := by
        rw [← UInt8.toNat_inj]
        rfl
      simp [hb]

/-- `CKey::Check` asks for a number between zero and the order of the curve. -/
theorem checkKey_iff {vch : valtype} (h : vch.length = 32) :
    CheckKey vch = true ↔ 0 < readBigEndian vch ∧ readBigEndian vch < curveOrder := by
  have hzero := readBigEndian_eq_zero_iff vch
  rw [CheckKey, Bool.and_eq_true, checkLoop_iff h, curveOrder_eq, Nat.lt_succ_iff,
    Nat.pos_iff_ne_zero, ne_eq, hzero, Bool.not_eq_false]

theorem curveOrder_lt : curveOrder < 256 ^ 32 := by decide +kernel

/-! ### The curve -/

/-- An array of `n` bytes. -/
abbrev ByteArrayOf (n : Nat) := { bs : valtype // bs.length = n }

/-- `memcpy` of the first `k` bytes. -/
def ByteArrayOf.first {n : Nat} (k : Nat) (h : k ≤ n) (bs : ByteArrayOf n) : ByteArrayOf k :=
  ⟨bs.1.take k, by rw [List.length_take, bs.2, Nat.min_eq_left h]⟩

/-- `memcpy` of what follows the first `k` bytes. -/
def ByteArrayOf.behind {n : Nat} (k : Nat) (bs : ByteArrayOf (k + n)) : ByteArrayOf n :=
  ⟨bs.1.drop k, by rw [List.length_drop, bs.2, Nat.add_sub_cancel_left]⟩

/-- What OpenSSL and the hashes do for extended keys. -/
structure KeyGroup (P : Type) where
  generator : P
  /-- `CECKey::GetPubKey`: the bytes of a point, compressed or not. -/
  toBytes : (fCompressed : Bool) → P → valtype
  /-- `CECKey::SetPubKey`. -/
  ofBytes : valtype → Option P
  HMAC_SHA512 : (key message : valtype) → ByteArrayOf (32 + 32)
  /-- `CPubKey::GetID`. -/
  GetID : valtype → ByteArrayOf 20

section

variable {P : Type} [AddCommGroup P] [DecidableEq P]

/-- The number of a private key. -/
def CKey.secret (key : CKey) : Nat := readBigEndian key.vch

/-- The compressed key with a number. -/
def CKey.ofSecret (n : Nat) (h : 0 < n ∧ n < curveOrder) : CKey :=
  have hsmall : n < 256 ^ 32 := h.2.trans curveOrder_lt
  { vch := beBytes 32 n
    fCompressed := true
    size := length_beBytes 32 n
    valid := (checkKey_iff (length_beBytes 32 n)).mpr (by rwa [readBigEndian_beBytes hsmall]) }

/-- `CKey::GetPubKey`. -/
def CKey.GetPubKey (E : KeyGroup P) (key : CKey) : valtype :=
  E.toBytes key.fCompressed (key.secret • E.generator)

/-- `BIP32Hash`. -/
def BIP32Hash (E : KeyGroup P) (chainCode : ByteArrayOf 32) (nChild : UInt32)
    (header : UInt8) (data : valtype) : ByteArrayOf (32 + 32) :=
  E.HMAC_SHA512 chainCode.1 (header :: data ++ beBytes 4 nChild.toNat)

/-- `CECKey::TweakSecret`: the number of the child, if it is one. -/
def TweakSecret (nSecret nTweak : Nat) : Option { n : Nat // 0 < n ∧ n < curveOrder } :=
  if h : nTweak < curveOrder ∧ (nSecret + nTweak) % curveOrder ≠ 0 then
    some ⟨(nSecret + nTweak) % curveOrder, Nat.pos_of_ne_zero h.2,
      Nat.mod_lt _ (by decide)⟩
  else none

/-- `CECKey::TweakPublic`. -/
def TweakPublic (E : KeyGroup P) (point : P) (nTweak : Nat) : P × Bool :=
  let point := nTweak • E.generator + point
  (point, decide (nTweak < curveOrder) && decide (point ≠ 0))

/-- The child is derived from the public key of its parent. -/
def IsPublicChild (nChild : UInt32) : Bool := nChild.toNat / 2 ^ 31 == 0

/-- The part of `CKey::Derive` after the hash: the child, which is `none` when it is not
valid, and its chain code. -/
def CKey.tweaked (key : CKey) (out : ByteArrayOf (32 + 32)) :
    Option CKey × ByteArrayOf 32 :=
  ((TweakSecret key.secret (readBigEndian (out.1.take 32))).map fun n => .ofSecret n.1 n.2,
    out.behind 32)

/-- `CKey::Derive`; `none` when an assertion fails. -/
def CKey.Derive (E : KeyGroup P) (key : CKey) (nChild : UInt32) (cc : ByteArrayOf 32) :
    Option (Option CKey × ByteArrayOf 32) :=
  if key.fCompressed = false then none
  else if IsPublicChild nChild then
    match key.GetPubKey E with
    | [] => none
    | header :: data =>
        if data.length = 32 then some (key.tweaked (BIP32Hash E cc nChild header data))
        else none
  else some (key.tweaked (BIP32Hash E cc nChild 0 key.vch))

/-- `CPubKey::Derive`: the child, its chain code and what the call returns.  The call is
`none` when an assertion fails, and when the bytes are no point, where the code goes on with
a null pointer. -/
def PubKeyDerive (E : KeyGroup P) (pubkey : valtype) (nChild : UInt32) (cc : ByteArrayOf 32) :
    Option (valtype × ByteArrayOf 32 × Bool) :=
  if pubKeyIsValid pubkey = false ∨ IsPublicChild nChild = false then none
  else
    match pubkey with
    | [] => none
    | header :: data =>
        if data.length = 32 then
          let out := BIP32Hash E cc nChild header data
          match E.ofBytes pubkey with
          | none => none
          | some point =>
              let tweaked := TweakPublic E point (readBigEndian (out.1.take 32))
              some (E.toBytes true tweaked.1, out.behind 32, tweaked.2)
        else none

/-! ### Extended keys -/

/-- What extended keys have besides the key. -/
structure ExtKeyData where
  nDepth : UInt8
  vchFingerprint : ByteArrayOf 4
  nChild : UInt32
  vchChainCode : ByteArrayOf 32
deriving DecidableEq

/-- An extended private key; the key is `none` when it is not valid. -/
structure CExtKey extends ExtKeyData where
  key : Option CKey
deriving DecidableEq

/-- An extended public key. -/
structure CExtPubKey extends ExtKeyData where
  pubkey : valtype
deriving DecidableEq

/-- The data of a child.  The depth is one byte. -/
def ExtKeyData.child (E : KeyGroup P) (parent : ExtKeyData) (pubkey : valtype)
    (nChild : UInt32) (ccChild : ByteArrayOf 32) : ExtKeyData :=
  { nDepth := parent.nDepth + 1
    vchFingerprint := (E.GetID pubkey).first 4 (by decide)
    nChild
    vchChainCode := ccChild }

/-- `CExtKey::Neuter`; `none` when an assertion fails, as for a key that is not valid. -/
def CExtKey.Neuter (E : KeyGroup P) (k : CExtKey) : Option CExtPubKey :=
  k.key.map fun key => ⟨k.toExtKeyData, key.GetPubKey E⟩

/-- `CExtKey::Derive` and what it returns. -/
def CExtKey.Derive (E : KeyGroup P) (k : CExtKey) (nChild : UInt32) :
    Option (CExtKey × Bool) := do
  let key ← k.key
  let (keyChild, ccChild) ← key.Derive E nChild k.vchChainCode
  return (⟨k.toExtKeyData.child E (key.GetPubKey E) nChild ccChild, keyChild⟩, keyChild.isSome)

/-- `CExtPubKey::Derive` and what it returns. -/
def CExtPubKey.Derive (E : KeyGroup P) (k : CExtPubKey) (nChild : UInt32) :
    Option (CExtPubKey × Bool) := do
  let (pubkeyChild, ccChild, ret) ← PubKeyDerive E k.pubkey nChild k.vchChainCode
  return (⟨k.toExtKeyData.child E k.pubkey nChild ccChild, pubkeyChild⟩, ret)

/-- The master key of a seed, from `HMAC_SHA512` with the key "Bitcoin seed". -/
def CExtKey.SetMaster (E : KeyGroup P) (seed : valtype) : CExtKey :=
  let out := E.HMAC_SHA512
    [0x42, 0x69, 0x74, 0x63, 0x6f, 0x69, 0x6e, 0x20, 0x73, 0x65, 0x65, 0x64] seed
  { nDepth := 0
    vchFingerprint := ⟨[0, 0, 0, 0], rfl⟩
    nChild := 0
    vchChainCode := out.behind 32
    key := CKey.Set (out.1.take 32) true }

end

/-- Derive one child after the other, as long as the calls return true.  The result is
`none` when an assertion fails. -/
def deriveAll {K : Type} (Derive : K → UInt32 → Option (K × Bool)) :
    K → List UInt32 → Option (Option K)
  | k, [] => some (some k)
  | k, nChild :: path =>
      match Derive k nChild with
      | none => none
      | some (_, false) => some none
      | some (child, true) => deriveAll Derive child path

/-! ### Seventy-four bytes -/

def ExtKeyData.encode (data : ExtKeyData) : valtype :=
  data.nDepth :: data.vchFingerprint.1 ++ beBytes 4 data.nChild.toNat ++ data.vchChainCode.1

def ExtKeyData.decode (code : ByteArrayOf 74) : ExtKeyData :=
  { nDepth := code.1.headD 0
    vchFingerprint := ⟨(code.1.drop 1).take 4, by simp [code.2]⟩
    nChild := UInt32.ofNat (readBigEndian ((code.1.drop 5).take 4))
    vchChainCode := ⟨(code.1.drop 9).take 32, by simp [code.2]⟩ }

/-- `CExtKey::Encode`; `none` when an assertion fails, as for a key that is not valid. -/
def CExtKey.Encode (k : CExtKey) : Option valtype :=
  k.key.map fun key => k.toExtKeyData.encode ++ 0 :: key.vch

/-- `CExtKey::Decode`. -/
def CExtKey.Decode (code : ByteArrayOf 74) : CExtKey :=
  ⟨ExtKeyData.decode code, CKey.Set (code.1.drop 42) true⟩

/-- `CExtPubKey::Encode`; `none` when an assertion fails, as for a key of another size. -/
def CExtPubKey.Encode (k : CExtPubKey) : Option valtype :=
  if pubKeyIsValid k.pubkey = true ∧ k.pubkey.length = 33 then
    some (k.toExtKeyData.encode ++ k.pubkey)
  else none

/-- `CExtPubKey::Decode`; an invalid key has no bytes. -/
def CExtPubKey.Decode (code : ByteArrayOf 74) : CExtPubKey :=
  ⟨ExtKeyData.decode code, if pubKeyIsValid (code.1.drop 41) then code.1.drop 41 else []⟩

end Ziftrcoin.Spec
