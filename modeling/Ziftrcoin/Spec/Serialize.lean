/-
Module: Ziftrcoin.Spec.Serialize
Purpose: Reading transactions and blocks from a stream, and the sizes that are
  computed without writing.
Trusted boundary: human-reviewed model of the Unserialize and GetSerializeSize
  templates of src/serialize.h and of IMPLEMENT_SERIALIZE in src/core.h
Main exports: Stream, ReadCompactSize, unserializeBytes
-/
import Ziftrcoin.Lib.Codec
import Ziftrcoin.Spec.Block

namespace Ziftrcoin.Spec

open Ziftrcoin.Lib

/-! ### Streams -/

/-- A reading function of `serialize.h`: it takes what it reads off the front
of the stream, or throws `std::ios_base::failure` with a text. -/
abbrev Stream (α : Type) := Reader String UInt8 α

/-- `READDATA`. -/
def readData (nSize : Nat) : Stream valtype :=
  Reader.take "CDataStream::read() : end of data" nSize

/-- An unsigned integer of `width` bytes. -/
def readUInt (width : Nat) : Stream Nat := do
  return readLE (← readData width)

def readInt32 : Stream Int := do
  return Int.bmod (← readUInt 4) (2 ^ 32)

def readInt64 : Stream Int := do
  return Int.bmod (← readUInt 8) (2 ^ 64)

/-! ### Vectors -/

/-- A size that does not fit in one byte: it must not fit in the next shorter
form either. -/
def readWideSize (width least : Nat) : Stream Nat := do
  let xSize ← readUInt width
  if xSize < least then Reader.fail "non-canonical ReadCompactSize()"
  else return xSize

/-- The size that the first byte announces. -/
def readSizeFrom (chSize : Nat) : Stream Nat :=
  if chSize < 253 then return chSize
  else if chSize = 253 then readWideSize 2 253
  else if chSize = 254 then readWideSize 4 0x10000
  else readWideSize 8 0x100000000

def ReadCompactSize : Stream Nat := do
  let chSize ← readUInt 1
  let nSizeRet ← readSizeFrom chSize
  if MAX_SIZE < nSizeRet then
    Reader.fail "ReadCompactSize() : size too large"
  else return nSizeRet

/-- `Unserialize_impl` for a vector of a fundamental type, here of bytes: read
in blocks, so that a wrong size does not make the node run out of memory. -/
def unserializeBytes : Stream valtype := do
  let nSize ← ReadCompactSize
  Reader.inBlocks readData (1 + 4999999 / 1) (by decide) nSize 0 []

/-- `Unserialize_impl` for a vector of other values; `nMid` grows by
`5000000 / sizeof(T)` elements at a time. -/
def unserializeVector {α : Type} (sizeofT : Nat)
    (hpos : 0 < 5000000 / sizeofT) (unserialize : Stream α) :
    Stream (List α) := do
  let nSize ← ReadCompactSize
  Reader.inBlocks (Reader.many unserialize) (5000000 / sizeofT) hpos nSize 0 []

/-! ### Transactions -/

def COutPoint.Unserialize : Stream COutPoint := do
  let hash ← readUInt 32
  let n ← readUInt 4
  return { hash, n }

def CTxIn.Unserialize : Stream CTxIn := do
  let prevout ← COutPoint.Unserialize
  let scriptSig ← unserializeBytes
  let nSequence ← readUInt 4
  return { prevout, scriptSig, nSequence }

def CTxOut.Unserialize : Stream CTxOut := do
  let nValue ← readInt64
  let scriptPubKey ← unserializeBytes
  return { nValue, scriptPubKey }

/-- `sizeof` on a machine with 64-bit pointers. -/
def sizeofCTxIn : Nat := 72

def sizeofCTxOut : Nat := 32

def sizeofCTransaction : Nat := 64

def CTransaction.Unserialize : Stream CTransaction := do
  let nVersion ← readInt32
  let vin ← unserializeVector sizeofCTxIn (by decide) CTxIn.Unserialize
  let vout ← unserializeVector sizeofCTxOut (by decide) CTxOut.Unserialize
  let nLockTime ← readUInt 4
  return { nVersion, vin, vout, nLockTime }

/-! ### Blocks -/

def CBlockHeader.Unserialize : Stream CBlockHeader := do
  let nVersion ← readUInt 4
  let hashPrevBlock ← readUInt 32
  let hashMerkleRoot ← readUInt 32
  let nTime ← readUInt 4
  let nBits ← readUInt 4
  let nNonce ← readUInt 4
  return { nVersion := BitVec.ofNat 32 nVersion, hashPrevBlock, hashMerkleRoot,
           nTime, nBits, nNonce }

/-- Read into a new block, whose Merkle tree is empty. -/
def CBlock.Unserialize : Stream CBlock := do
  let header ← CBlockHeader.Unserialize
  let vtx ← unserializeVector sizeofCTransaction (by decide)
    CTransaction.Unserialize
  return { toCBlockHeader := header, vtx, vMerkleTree := [] }

/-! ### Sizes

`GetSerializeSize` adds up the sizes of the fields as `unsigned int`. -/

def GetSizeOfCompactSize (nSize : Nat) : Nat :=
  if nSize < 253 then 1
  else if nSize ≤ 0xffff then 3
  else if nSize ≤ 0xffffffff then 5
  else 9

def sizeOfBytes (v : valtype) : Nat :=
  uint32 (GetSizeOfCompactSize v.length + v.length)

def sizeOfVector {α : Type} (size : α → Nat) (v : List α) : Nat :=
  v.foldl (fun nSize a => uint32 (nSize + size a))
    (GetSizeOfCompactSize v.length)

def COutPoint.sumSerializeSize (_ : COutPoint) : Nat := 36

def CTxIn.sumSerializeSize (txin : CTxIn) : Nat :=
  uint32 (uint32 (txin.prevout.sumSerializeSize + sizeOfBytes txin.scriptSig)
    + 4)

def CTxOut.sumSerializeSize (txout : CTxOut) : Nat :=
  uint32 (8 + sizeOfBytes txout.scriptPubKey)

def CTransaction.sumSerializeSize (tx : CTransaction) : Nat :=
  uint32 (uint32 (uint32 (4 + sizeOfVector CTxIn.sumSerializeSize tx.vin) +
    sizeOfVector CTxOut.sumSerializeSize tx.vout) + 4)

def CBlockHeader.sumSerializeSize (_ : CBlockHeader) : Nat :=
  4 + 32 + 32 + 4 + 4 + 4

def CBlock.sumSerializeSize (block : CBlock) : Nat :=
  uint32 (block.toCBlockHeader.sumSerializeSize +
    sizeOfVector CTransaction.sumSerializeSize block.vtx)

/-! ### Ranges

The values that the members of the classes can take. -/

def COutPoint.InRange (outpoint : COutPoint) : Prop :=
  outpoint.hash < 2 ^ 256 ∧ outpoint.n < 2 ^ 32

/-- The script is no longer than a vector may be. -/
def CTxIn.InRange (txin : CTxIn) : Prop :=
  txin.prevout.InRange ∧ txin.scriptSig.length ≤ MAX_SIZE ∧
    txin.nSequence < 2 ^ 32

def CTxOut.InRange (txout : CTxOut) : Prop :=
  (-2 ^ 63 ≤ txout.nValue ∧ txout.nValue < 2 ^ 63) ∧
    txout.scriptPubKey.length ≤ MAX_SIZE

def CTransaction.InRange (tx : CTransaction) : Prop :=
  (-2 ^ 31 ≤ tx.nVersion ∧ tx.nVersion < 2 ^ 31) ∧
    (tx.vin.length ≤ MAX_SIZE ∧ ∀ txin ∈ tx.vin, txin.InRange) ∧
    (tx.vout.length ≤ MAX_SIZE ∧ ∀ txout ∈ tx.vout, txout.InRange) ∧
    tx.nLockTime < 2 ^ 32

def CBlockHeader.InRange (header : CBlockHeader) : Prop :=
  header.hashPrevBlock < 2 ^ 256 ∧ header.hashMerkleRoot < 2 ^ 256 ∧
    header.nTime < 2 ^ 32 ∧ header.nBits < 2 ^ 32 ∧ header.nNonce < 2 ^ 32

def CBlock.InRange (block : CBlock) : Prop :=
  block.toCBlockHeader.InRange ∧ block.vtx.length ≤ MAX_SIZE ∧
    ∀ tx ∈ block.vtx, tx.InRange

end Ziftrcoin.Spec
