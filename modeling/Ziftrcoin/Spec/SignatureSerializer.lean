/-
Module: Ziftrcoin.Spec.SignatureSerializer
Purpose: The bytes that a signature commits to, written in place, and the reference of
  the tests that changes a copy of the transaction and serialises it.
Trusted boundary: human-reviewed model of CTransactionSignatureSerializer and
  SignatureHash in src/script.cpp and of SignatureHashOld in
  src/test/sighash_tests.cpp
Main exports: CTransactionSignatureSerializer, signatureMessage, referenceMessage
-/
import Ziftrcoin.Spec.Interpreter

namespace Ziftrcoin.Spec

/-! ### In place -/

/-- `nHashType & 0x1f`. -/
def baseHashType (nHashType : UInt32) : UInt32 := nHashType &&& 0x1f

/-- `nHashType & SIGHASH_ANYONECANPAY`. -/
def anyoneCanPay (nHashType : UInt32) : Bool := nHashType &&& 0x80 != 0

structure CTransactionSignatureSerializer where
  txTo : CTransaction
  scriptCode : CScript
  nIn : Nat
  fAnyoneCanPay : Bool
  fHashSingle : Bool
  fHashNone : Bool

namespace CTransactionSignatureSerializer

/-- The constructor. -/
def new (txTo : CTransaction) (scriptCode : CScript) (nIn : Nat) (nHashType : UInt32) :
    CTransactionSignatureSerializer where
  txTo := txTo
  scriptCode := scriptCode
  nIn := nIn
  fAnyoneCanPay := anyoneCanPay nHashType
  fHashSingle := (baseHashType nHashType).toNat == SIGHASH_SINGLE
  fHashNone := (baseHashType nHashType).toNat == SIGHASH_NONE

/-- The first loop of `SerializeScriptCode`. -/
def countSeparators : (fuel : Nat) → (it : CScript) → Nat
  | 0, _ => 0
  | fuel + 1, it =>
      match getOp2 it with
      | (none, _) => 0
      | (some (opcode, _), it) =>
          (if opcode = OP_CODESEPARATOR then 1 else 0) + countSeparators fuel it

/-- The bytes from `itBegin` to `it`, where `it` is further on in the same script. -/
def between (itBegin it : CScript) : valtype := itBegin.take (itBegin.length - it.length)

/-- The second loop of `SerializeScriptCode`, with the write behind it: a separator ends
a piece that is written without it. -/
def writePieces : (fuel : Nat) → (itBegin it : CScript) → valtype
  | 0, itBegin, it => between itBegin it
  | fuel + 1, itBegin, it =>
      match getOp2 it with
      | (none, it) => between itBegin it
      | (some (opcode, _), it) =>
          if opcode = OP_CODESEPARATOR then
            (between itBegin it).dropLast ++ writePieces fuel it it
          else writePieces fuel itBegin it

/-- The length that `SerializeScriptCode` announces. -/
def announcedSize (scriptCode : CScript) : Nat :=
  scriptCode.length - countSeparators (scriptCode.length + 1) scriptCode

/-- The bytes that `SerializeScriptCode` writes behind the length. -/
def writtenPieces (scriptCode : CScript) : valtype :=
  writePieces (scriptCode.length + 1) scriptCode scriptCode

def SerializeScriptCode (scriptCode : CScript) : valtype :=
  writeCompactSize (announcedSize scriptCode) ++ writtenPieces scriptCode

variable (t : CTransactionSignatureSerializer)

def SerializeInput (nInput : Nat) : valtype :=
  let nInput := if t.fAnyoneCanPay then t.nIn else nInput
  let txin := t.txTo.vin.getD nInput default
  txin.prevout.serialize ++
    (if nInput ≠ t.nIn then serializeBytes [] else SerializeScriptCode t.scriptCode) ++
    (if nInput ≠ t.nIn ∧ (t.fHashSingle || t.fHashNone) then leInt32 0
      else leBytes 4 txin.nSequence)

def SerializeOutput (nOutput : Nat) : valtype :=
  if t.fHashSingle ∧ nOutput ≠ t.nIn then CTxOut.null.serialize
  else (t.txTo.vout.getD nOutput default).serialize

def Serialize : valtype :=
  let nInputs := if t.fAnyoneCanPay then 1 else t.txTo.vin.length
  let nOutputs := if t.fHashNone then 0
    else if t.fHashSingle then t.nIn + 1 else t.txTo.vout.length
  leInt32 t.txTo.nVersion ++
    (writeCompactSize nInputs ++ (List.range nInputs).flatMap t.SerializeInput) ++
    (writeCompactSize nOutputs ++ (List.range nOutputs).flatMap t.SerializeOutput) ++
    leBytes 4 t.txTo.nLockTime

end CTransactionSignatureSerializer

/-- The bytes that `SignatureHash` hashes, or `none` where it returns 1. -/
def signatureMessage (scriptCode : CScript) (txTo : CTransaction) (nIn : Nat)
    (nHashType : UInt32) : Option valtype :=
  if txTo.vin.length ≤ nIn then none
  else if (baseHashType nHashType).toNat = SIGHASH_SINGLE ∧ txTo.vout.length ≤ nIn then none
  else
    some ((CTransactionSignatureSerializer.new txTo scriptCode nIn nHashType).Serialize ++
      leBytes 4 nHashType.toNat)

/-- `SignatureHash` with any hash type. -/
def SignatureHashOf (crypto : Crypto) (scriptCode : CScript) (txTo : CTransaction)
    (nIn : Nat) (nHashType : UInt32) : uint256 :=
  match signatureMessage scriptCode txTo nIn nHashType with
  | none => 1
  | some message => crypto.Hash message

/-! ### The reference -/

/-- Let the other inputs be updated at will. -/
def clearSequences (nIn : Nat) (vin : List CTxIn) : List CTxIn :=
  vin.mapIdx fun i txin => if i ≠ nIn then { txin with nSequence := 0 } else txin

/-- The outputs of the copy; `none` where the reference returns 1. -/
def referenceOutputs (nIn : Nat) (nHashType : UInt32) (vout : List CTxOut) :
    Option (List CTxOut) :=
  if (baseHashType nHashType).toNat = SIGHASH_NONE then some []
  else if (baseHashType nHashType).toNat = SIGHASH_SINGLE then
    if vout.length ≤ nIn then none
    else
      some ((vout.take (nIn + 1)).mapIdx fun i txout => if i < nIn then CTxOut.null else txout)
  else some vout

/-- The inputs of the copy. -/
def referenceInputs (scriptCode : CScript) (nIn : Nat) (nHashType : UInt32)
    (vin : List CTxIn) : List CTxIn :=
  let vin := vin.map fun txin => { txin with scriptSig := [] }
  let vin := vin.modify nIn fun txin => { txin with scriptSig := scriptCode }
  let vin :=
    if (baseHashType nHashType).toNat = SIGHASH_NONE ∨
        (baseHashType nHashType).toNat = SIGHASH_SINGLE then clearSequences nIn vin
    else vin
  if anyoneCanPay nHashType then (vin.set 0 (vin.getD nIn default)).take 1 else vin

/-- The bytes that `SignatureHashOld` hashes, or `none` where it returns 1. -/
def referenceMessage (scriptCode : CScript) (txTo : CTransaction) (nIn : Nat)
    (nHashType : UInt32) : Option valtype :=
  if txTo.vin.length ≤ nIn then none
  else
    let scriptCode := scriptCode.FindAndDelete [UInt8.ofNat OP_CODESEPARATOR]
    match referenceOutputs nIn nHashType txTo.vout with
    | none => none
    | some vout =>
        let txTmp := { txTo with vin := referenceInputs scriptCode nIn nHashType txTo.vin, vout }
        some (txTmp.serialize ++ leBytes 4 nHashType.toNat)

def SignatureHashOld (crypto : Crypto) (scriptCode : CScript) (txTo : CTransaction)
    (nIn : Nat) (nHashType : UInt32) : uint256 :=
  match referenceMessage scriptCode txTo nIn nHashType with
  | none => 1
  | some message => crypto.Hash message

end Ziftrcoin.Spec
