/-
Module: Ziftrcoin.Spec.CoinsFormat
Purpose: How unspent outputs and undo records are written to disk and read back.
Trusted boundary: human-reviewed model of VARINT in src/serialize.h, of
  CScriptCompressor in src/script.h and src/script.cpp, of CTxOutCompressor and
  CTxInUndo in src/core.h and src/core.cpp, and of the serialisation of CCoins in
  src/coins.h and src/coins.cpp; the curve of the public keys is a parameter
Main exports: WriteVarInt, ReadVarInt, CompressAmount
-/
import Ziftrcoin.Spec.Coins
import Ziftrcoin.Spec.Serialize

namespace Ziftrcoin.Spec

open Ziftrcoin.Lib

/-! ### VARINT -/

/-- The bytes in `tmp`, lowest group first.  A negative number stops at once. -/
def varIntGroups (n : Int) (len : Nat) : valtype :=
  let group := UInt8.ofNat ((n % 128).toNat + if len = 0 then 0 else 0x80)
  if n ≤ 0x7F then [group] else group :: varIntGroups (n / 128 - 1) (len + 1)
termination_by n.toNat
decreasing_by omega

def WriteVarInt (n : Int) : valtype := (varIntGroups n 0).reverse

def GetSizeOfVarInt (n : Int) : Nat :=
  if n ≤ 0x7F then 1 else GetSizeOfVarInt (n / 128 - 1) + 1
termination_by n.toNat
decreasing_by omega

/-- The loop of `ReadVarInt` for an unsigned type of `bits` bits. -/
def readVarIntLoop (bits : Nat) : (n : Nat) → valtype → Except String (Nat × valtype)
  | _, [] => .error "CDataStream::read() : end of data"
  | n, chData :: rest =>
      let n := (n * 128 + chData.toNat % 128) % 2 ^ bits
      if 0x80 ≤ chData.toNat then readVarIntLoop bits ((n + 1) % 2 ^ bits) rest
      else .ok (n, rest)

def ReadVarInt (bits : Nat) : Stream Nat := readVarIntLoop bits 0

/-- `ReadVarInt<int>`. -/
def ReadVarInt_int : Stream Int := do
  return Int.bmod (← ReadVarInt 32) (2 ^ 32)

/-! ### Amounts -/

def uint64 (n : Nat) : Nat := n % 2 ^ 64

/-- The loop of `CompressAmount`: at most `fuel` zeros are taken off. -/
def stripZeros : (fuel n : Nat) → Nat × Nat
  | 0, n => (n, 0)
  | fuel + 1, n =>
      if n % 10 = 0 then
        let (n, e) := stripZeros fuel (n / 10)
        (n, e + 1)
      else (n, 0)

def CompressAmount (n : Nat) : Nat :=
  if n = 0 then 0
  else
    let (n, e) := stripZeros 9 n
    if e < 9 then
      let d := n % 10
      uint64 (1 + (n / 10 * 9 + d - 1) * 10 + e)
    else uint64 (1 + (n - 1) * 10 + 9)

/-- `while (e) { n *= 10; e--; }`. -/
def timesTen : (e n : Nat) → Nat
  | 0, n => n
  | e + 1, n => timesTen e (uint64 (n * 10))

def DecompressAmount (x : Nat) : Nat :=
  if x = 0 then 0
  else
    let x := x - 1
    let e := x % 10
    let x := x / 10
    if e < 9 then
      let d := x % 9 + 1
      timesTen e (uint64 (x / 9 * 10 + d))
    else timesTen e (x + 1)

/-! ### Scripts -/

/-- Points of the curve as public keys. -/
structure KeyCurve where
  /-- `CPubKey::IsFullyValid`. -/
  IsFullyValid : valtype → Bool
  /-- `CPubKey::Decompress`. -/
  Decompress : valtype → Option valtype

/-- There are six special scripts; one more number is kept for them. -/
def nSpecialScripts : Nat := 7

namespace CScript

/-- The byte at a position. -/
def byteAt (script : CScript) (i : Nat) : Nat := (script.getD i 0).toNat

/-- `memcpy` of `n` bytes from a position. -/
def bytesAt (script : CScript) (i n : Nat) : valtype := (script.drop i).take n

def IsToKeyID (script : CScript) : Option valtype :=
  if script.length = 25 ∧ script.byteAt 0 = OP_DUP ∧ script.byteAt 1 = OP_HASH160 ∧
      script.byteAt 2 = 20 ∧ script.byteAt 23 = OP_EQUALVERIFY ∧
      script.byteAt 24 = OP_CHECKSIG then
    some (script.bytesAt 3 20)
  else none

def IsToScriptID (script : CScript) : Option valtype :=
  if script.length = 23 ∧ script.byteAt 0 = OP_HASH160 ∧ script.byteAt 1 = 20 ∧
      script.byteAt 22 = OP_EQUAL then
    some (script.bytesAt 2 20)
  else none

section Curve

variable (curve : KeyCurve)

def IsToPubKey (script : CScript) : Option valtype :=
  if script.length = 35 ∧ script.byteAt 0 = 33 ∧ script.byteAt 34 = OP_CHECKSIG ∧
      (script.byteAt 1 = 0x02 ∨ script.byteAt 1 = 0x03) then
    some (script.bytesAt 1 33)
  else if script.length = 67 ∧ script.byteAt 0 = 65 ∧ script.byteAt 66 = OP_CHECKSIG ∧
      script.byteAt 1 = 0x04 then
    -- if not fully valid, a case that would not be compressible
    if curve.IsFullyValid (script.bytesAt 1 65) then some (script.bytesAt 1 65) else none
  else none

/-- `none` where it returns false. -/
def Compress (script : CScript) : Option valtype :=
  match script.IsToKeyID with
  | some keyID => some (0x00 :: keyID)
  | none =>
      match script.IsToScriptID with
      | some scriptID => some (0x01 :: scriptID)
      | none =>
          match script.IsToPubKey curve with
          | some pubkey =>
              if byteAt pubkey 0 = 0x02 ∨ byteAt pubkey 0 = 0x03 then
                some (pubkey.getD 0 0 :: bytesAt pubkey 1 32)
              else if byteAt pubkey 0 = 0x04 then
                some (UInt8.ofNat (0x04 + byteAt pubkey 64 % 2) :: bytesAt pubkey 1 32)
              else none
          | none => none

def GetSpecialSize (nSize : Nat) : Nat :=
  if nSize = 0 ∨ nSize = 1 then 20
  else if nSize = 2 ∨ nSize = 3 ∨ nSize = 4 ∨ nSize = 5 then 32
  else 0

/-- A pay-to-pubkey script. -/
def payToPubKey (pubkey : valtype) : CScript :=
  UInt8.ofNat pubkey.length :: (pubkey ++ [UInt8.ofNat OP_CHECKSIG])

/-- `Decompress` of a script object: where it returns false, the script stays as it
was. -/
def Decompress (script : CScript) (nSize : Nat) (vch : valtype) : Stream CScript :=
  if nSize = 0 then
    return [UInt8.ofNat OP_DUP, UInt8.ofNat OP_HASH160, 20] ++ vch ++
      [UInt8.ofNat OP_EQUALVERIFY, UInt8.ofNat OP_CHECKSIG]
  else if nSize = 1 then
    return [UInt8.ofNat OP_HASH160, 20] ++ vch ++ [UInt8.ofNat OP_EQUAL]
  else if nSize = 2 ∨ nSize = 3 then
    return payToPubKey (UInt8.ofNat nSize :: vch)
  else if nSize = 4 ∨ nSize = 5 then
    match curve.Decompress (UInt8.ofNat (nSize - 2) :: vch) with
    | none => return script
    | some pubkey =>
        if pubkey.length = 65 then return payToPubKey pubkey
        else Reader.fail "assert(pubkey.size() == 65)"
  else return script

/-- `nSize`, an `unsigned int`. -/
def serialSize (script : CScript) : Nat := uint32 (script.length + nSpecialScripts)

def GetSerializeSize (script : CScript) : Nat :=
  match script.Compress curve with
  | some compr => compr.length
  | none => script.length + GetSizeOfVarInt script.serialSize

def Serialize (script : CScript) : valtype :=
  match script.Compress curve with
  | some compr => compr
  | none => WriteVarInt script.serialSize ++ script

/-- Read over the script object `script`. -/
def Unserialize (script : CScript) : Stream CScript := do
  let nSize ← ReadVarInt 32
  if nSize < nSpecialScripts then
    let vch ← readData (GetSpecialSize nSize)
    script.Decompress curve nSize vch
  else readData (nSize - nSpecialScripts)

end Curve
end CScript

/-! ### Outputs and undo records -/

section Curve

variable (curve : KeyCurve)

namespace CTxOutCompressor

def Serialize (txout : CTxOut) : valtype :=
  WriteVarInt (CompressAmount (txout.nValue % 2 ^ 64).toNat) ++
    txout.scriptPubKey.Serialize curve

def GetSerializeSize (txout : CTxOut) : Nat :=
  GetSizeOfVarInt (CompressAmount (txout.nValue % 2 ^ 64).toNat) +
    txout.scriptPubKey.GetSerializeSize curve

/-- Read over the output `txout`. -/
def Unserialize (txout : CTxOut) : Stream CTxOut := do
  let nVal ← ReadVarInt 64
  let scriptPubKey ← txout.scriptPubKey.Unserialize curve
  return { nValue := Int.bmod (DecompressAmount nVal) (2 ^ 64), scriptPubKey }

end CTxOutCompressor

namespace CTxInUndo

/-- The empty constructor. -/
def empty : CTxInUndo := { txout := CTxOut.null, fCoinBase := false, nHeight := 0, nVersion := 0 }

/-- `nHeight*2+(fCoinBase ? 1 : 0)`, an `unsigned int`. -/
def heightCode (undo : CTxInUndo) : Nat := uint32 (undo.nHeight * 2 + undo.fCoinBase.toNat)

def Serialize (undo : CTxInUndo) : valtype :=
  WriteVarInt undo.heightCode ++ (if 0 < undo.nHeight then WriteVarInt undo.nVersion else []) ++
    CTxOutCompressor.Serialize curve undo.txout

def GetSerializeSize (undo : CTxInUndo) : Nat :=
  uint32 (GetSizeOfVarInt undo.heightCode +
    (if 0 < undo.nHeight then GetSizeOfVarInt undo.nVersion else 0) +
    CTxOutCompressor.GetSerializeSize curve undo.txout)

/-- Read over the record `undo`. -/
def Unserialize (undo : CTxInUndo) : Stream CTxInUndo := do
  let nCode ← ReadVarInt 32
  let nHeight := nCode / 2
  let fCoinBase := nCode % 2 == 1
  let nVersion ← if 0 < nHeight then ReadVarInt_int else pure undo.nVersion
  let txout ← CTxOutCompressor.Unserialize curve undo.txout
  return { txout, fCoinBase, nHeight, nVersion }

end CTxInUndo

/-! ### Coins -/

/-- The bits of a number, lowest first. -/
def fromBits : List Bool → Nat
  | [] => 0
  | b :: bs => b.toNat + 2 * fromBits bs

namespace CCoins

/-- The eight outputs, or fewer at the end, that a byte of the mask is about. -/
def inMaskByte (vout : List CTxOut) (b : Nat) : List CTxOut := (vout.drop (2 + b * 8)).take 8

/-- The loop of `CalcMaskSize`; `left` is what is left of the outputs. -/
def calcMaskLoop (left : List CTxOut) (b nLastUsedByte nNonzeroBytes : Nat) : Nat × Nat :=
  if left = [] then (nLastUsedByte, nNonzeroBytes)
  else if (left.take 8).all CTxOut.IsNull then
    calcMaskLoop (left.drop 8) (b + 1) nLastUsedByte nNonzeroBytes
  else calcMaskLoop (left.drop 8) (b + 1) (b + 1) (nNonzeroBytes + 1)
termination_by left.length
decreasing_by
  all_goals
    have := List.length_pos_iff.mpr ‹¬ left = []›
    rw [List.length_drop]
    omega

/-- The number of bytes of the mask, and of those among them that are not zero. -/
def CalcMaskSize (coins : CCoins) : Nat × Nat := calcMaskLoop (coins.vout.drop 2) 0 0 0

def fFirst (coins : CCoins) : Bool := coins.IsAvailable 0

def fSecond (coins : CCoins) : Bool := coins.IsAvailable 1

/-- The assertion of `Serialize` and `GetSerializeSize`. -/
def maskAssert (coins : CCoins) : Bool :=
  coins.fFirst || coins.fSecond || coins.CalcMaskSize.2 != 0

/-- `nCode`, an `unsigned int`. -/
def headerCode (coins : CCoins) : Nat :=
  uint32 (8 * (coins.CalcMaskSize.2 - if coins.fFirst || coins.fSecond then 0 else 1) +
    coins.fCoinBase.toNat + (if coins.fFirst then 2 else 0) + if coins.fSecond then 4 else 0)

/-- `chAvail` of a byte of the mask. -/
def maskByte (vout : List CTxOut) (b : Nat) : UInt8 :=
  UInt8.ofNat (fromBits ((inMaskByte vout b).map fun txout => !txout.IsNull))

/-- The outputs that are there, one after the other. -/
def serializeOutputs (vout : List CTxOut) : valtype :=
  vout.flatMap fun txout => if txout.IsNull then [] else CTxOutCompressor.Serialize curve txout

/-- `none`: the assertion fails. -/
def Serialize (coins : CCoins) : Option valtype :=
  if coins.maskAssert then
    some (WriteVarInt coins.nVersion ++ WriteVarInt coins.headerCode ++
      (List.range coins.CalcMaskSize.1).map (maskByte coins.vout) ++
      serializeOutputs curve coins.vout ++ WriteVarInt coins.nHeight)
  else none

def GetSerializeSize (coins : CCoins) : Option Nat :=
  if coins.maskAssert then
    some (uint32 (GetSizeOfVarInt coins.nVersion + GetSizeOfVarInt coins.headerCode +
      coins.CalcMaskSize.1 +
      (coins.vout.map fun txout => if txout.IsNull then 0
        else CTxOutCompressor.GetSerializeSize curve txout).sum +
      GetSizeOfVarInt coins.nHeight))
  else none

/-- The loop that reads the mask: the bits of the bytes up to the last that is not
zero. -/
def readMask : (nMaskCode : Nat) → valtype → Except String (List Bool × valtype)
  | 0, bs => .ok ([], bs)
  | _ + 1, [] => .error "CDataStream::read() : end of data"
  | nMaskCode + 1, chAvail :: rest => do
      let (vAvail, rest) ← readMask (if chAvail = 0 then nMaskCode + 1 else nMaskCode) rest
      return ((List.range 8).map (fun p => chAvail.toNat.testBit p) ++ vAvail, rest)

/-- An output of `vout.assign(vAvail.size(), CTxOut())`, read over where it is
there. -/
def readOutput (fAvail : Bool) : Stream CTxOut :=
  if fAvail then CTxOutCompressor.Unserialize curve CTxOut.null else return CTxOut.null

def readOutputs : List Bool → Stream (List CTxOut)
  | [] => return []
  | fAvail :: vAvail => do
      let txout ← readOutput curve fAvail
      let vout ← readOutputs vAvail
      return txout :: vout

def Unserialize : Stream CCoins := do
  let nVersion ← ReadVarInt_int
  let nCode ← ReadVarInt 32
  let nMaskCode := nCode / 8 + if nCode / 2 % 4 ≠ 0 then 0 else 1
  let vAvail ← readMask nMaskCode
  let vout ← readOutputs curve
    ([nCode / 2 % 2 == 1, nCode / 4 % 2 == 1] ++ vAvail)
  let nHeight ← ReadVarInt_int
  return Cleanup { fCoinBase := nCode % 2 == 1, vout, nHeight := nHeight.toNat, nVersion }

end CCoins
end Curve

end Ziftrcoin.Spec
