/-
Module: Ziftrcoin.Spec.Block
Purpose: Block headers and blocks: compact difficulty, proof of work, proof of
  knowledge and Merkle trees.
Trusted boundary: human-reviewed model of CBlockHeader and CBlock in
  src/core.h, src/core.cpp and of the compact form in src/bignum.h
Main exports: CBlockHeader, CBlock, SetCompact
-/
import Ziftrcoin.Spec.Transaction

namespace Ziftrcoin.Spec

/-! ### Compact difficulty -/

/-- `CBigNum::SetCompact`: three bytes of mantissa with a sign bit, and a
length in bytes. -/
def SetCompact (nCompact : Nat) : Int :=
  let nSize := nCompact / 2 ^ 24
  let fNegative := nCompact.testBit 23
  let nWord := nCompact % 2 ^ 23
  let bn := if nSize ≤ 3 then nWord / 2 ^ (8 * (3 - nSize))
    else nWord * 2 ^ (8 * (nSize - 3))
  if fNegative then Int.negOfNat bn else bn

/-- `BN_num_bytes`. -/
def numBytes (n : Nat) : Nat := if n = 0 then 0 else n.log2 / 8 + 1

/-- `CBigNum::GetCompact`. -/
def GetCompact (bn : Int) : Nat :=
  let nSize := numBytes bn.natAbs
  let nCompact := if nSize ≤ 3 then bn.natAbs * 2 ^ (8 * (3 - nSize))
    else bn.natAbs / 2 ^ (8 * (nSize - 3))
  let (nCompact, nSize) :=
    if nCompact.testBit 23 then (nCompact / 2 ^ 8, nSize + 1)
    else (nCompact, nSize)
  nCompact + nSize * 2 ^ 24 + (if bn < 0 then 2 ^ 23 else 0)

/-! ### Headers -/

def POK_BOOL_MASK : BitVec 32 := 0x00008000
def POK_DATA_MASK : BitVec 32 := 0xFFFF0000

structure CBlockHeader where
  nVersion : BitVec 32
  hashPrevBlock : uint256
  hashMerkleRoot : uint256
  nTime : Nat
  nBits : Nat
  nNonce : Nat
deriving Repr, DecidableEq, Inhabited

namespace CBlockHeader

def serialize (header : CBlockHeader) : valtype :=
  leBytes 4 header.nVersion.toNat ++ leBytes 32 header.hashPrevBlock ++
    leBytes 32 header.hashMerkleRoot ++ leBytes 4 header.nTime ++
    leBytes 4 header.nBits ++ leBytes 4 header.nNonce

/-- The block hash is the low half of the proof-of-work hash. -/
def GetHash (crypto : Crypto) (header : CBlockHeader) : uint256 :=
  crypto.HashZR5 header.serialize % 2 ^ 256

def IsPoKBlock (header : CBlockHeader) : Bool :=
  header.nVersion &&& POK_BOOL_MASK != 0

def GetPoK (header : CBlockHeader) : BitVec 32 :=
  header.nVersion &&& POK_DATA_MASK

def SetPoK (header : CBlockHeader) (nPoK : BitVec 32) : CBlockHeader :=
  { header with
    nVersion := (header.nVersion &&& ~~~POK_DATA_MASK) |||
      (POK_DATA_MASK &&& nPoK) }

/-- `CBlockHeader::CheckProofOfWork`: the target is in range and the hash
meets it. -/
def CheckProofOfWork (crypto : Crypto) (ProofOfWorkLimit : Int)
    (header : CBlockHeader) : Bool :=
  let bnTarget := SetCompact header.nBits
  if bnTarget ≤ 0 ∨ ProofOfWorkLimit < bnTarget then false
  else decide ((header.GetHash crypto : Int) ≤ bnTarget)

/-- `CBlockIndex::GetBlockWork`, which reads only the difficulty. -/
def GetBlockWork (header : CBlockHeader) : Nat :=
  let bnTarget := SetCompact header.nBits
  if bnTarget ≤ 0 then 0 else 2 ^ 256 / (bnTarget.toNat + 1)

end CBlockHeader

/-! ### Blocks -/

/-- A block.  `vMerkleTree` is memory only: it is empty after a block has been
read, and filled by `BuildMerkleTree`. -/
structure CBlock extends CBlockHeader where
  vtx : List CTransaction
  vMerkleTree : List uint256
deriving Repr, DecidableEq, Inhabited

namespace CBlock

def serialize (block : CBlock) : valtype :=
  block.toCBlockHeader.serialize ++
    serializeVector CTransaction.serialize block.vtx

def GetSerializeSize (block : CBlock) : Nat := block.serialize.length

def GetHash (crypto : Crypto) (block : CBlock) : uint256 :=
  block.toCBlockHeader.GetHash crypto

def SetPoK (block : CBlock) (nPoK : BitVec 32) : CBlock :=
  { block with toCBlockHeader := block.toCBlockHeader.SetPoK nPoK }

/-- Writing a block and reading it back loses the Merkle tree only. -/
def readBack (block : CBlock) : CBlock := { block with vMerkleTree := [] }

/-- The `i`-th 32-bit word of the 512-bit hash. -/
def getinnerint (hash i : Nat) : Nat := hash / 2 ^ (32 * i) % 2 ^ 32

/-- `CBlock::CalculatePoK` without a cache of serialised transactions: the
four bytes of transaction data that the header without its proof of knowledge
points to. -/
def CalculatePoK (crypto : Crypto) (block : CBlock) : Run (BitVec 32) := do
  let header :=
    { block.toCBlockHeader with
      nVersion := block.nVersion &&& ~~~POK_DATA_MASK }
  let hashTxChooser := crypto.HashZR5 header.serialize
  let nDeterRand1 := getinnerint hashTxChooser 0
  if block.IsPoKBlock = false then
    return BitVec.ofNat 32 nDeterRand1 &&& POK_DATA_MASK
  Run.assert .CalculatePoK_vtx (0 < block.vtx.length)
  let nDeterRand2 := getinnerint hashTxChooser 1
  let nDeterRand3 := getinnerint hashTxChooser 2
  let tx ← Run.get .CalculatePoK_vtx block.vtx
    (nDeterRand1 % block.vtx.length)
  let vTxData := tx.serialize
  Run.assert .CalculatePoK_data (4 ≤ vTxData.length)
  let nDeterRandIndex := nDeterRand2 % (vTxData.length - 3)
  let nRandTxData := readLE ((vTxData.drop nDeterRandIndex).take 4)
  return (BitVec.ofNat 32 nRandTxData ^^^ BitVec.ofNat 32 nDeterRand3) &&&
    POK_DATA_MASK

/-- `CBlock::CheckProofOfWork`, which hides the one of the header: the hash
meets the target and the proof of knowledge is the calculated one. -/
def CheckProofOfWork (crypto : Crypto) (ProofOfWorkLimit : Int)
    (block : CBlock) : Run Bool :=
  if block.toCBlockHeader.CheckProofOfWork crypto ProofOfWorkLimit = false then
    .ok false
  else do
    let nPoK ← block.CalculatePoK crypto
    return block.GetPoK == nPoK

end CBlock

/-! ### Merkle trees -/

/-- `Hash` of two hashes. -/
def merkleNode (crypto : Crypto) (left right : uint256) : uint256 :=
  crypto.Hash (leBytes 32 left ++ leBytes 32 right)

/-- One level up: an odd last node is paired with itself. -/
def merkleLevel (crypto : Crypto) : List uint256 → List uint256
  | [] => []
  | [left] => [merkleNode crypto left left]
  | left :: right :: rest =>
      merkleNode crypto left right :: merkleLevel crypto rest

/-- All levels one behind the other, leaves first.  A level above the first
has fewer nodes than the one below, so the number of leaves is enough fuel. -/
def merkleTree (crypto : Crypto) : (fuel : Nat) → List uint256 → List uint256
  | 0, level => level
  | fuel + 1, level =>
      if level.length ≤ 1 then level
      else level ++ merkleTree crypto fuel (merkleLevel crypto level)

namespace CBlock

def BuildMerkleTree (crypto : Crypto) (block : CBlock) : CBlock :=
  { block with
    vMerkleTree := merkleTree crypto block.vtx.length
      (block.vtx.map (CTransaction.GetHash crypto)) }

def GetTxHash (block : CBlock) (nIndex : Nat) : Run uint256 := do
  Run.assert .GetTxHash_tree (0 < block.vMerkleTree.length)
  Run.assert .GetTxHash_index (nIndex < block.vtx.length)
  Run.get .GetTxHash_index block.vMerkleTree nIndex

end CBlock

/-- The leaves are the front of the tree. -/
theorem merkleTree_prefix (crypto : Crypto) (fuel : Nat)
    (leaves : List uint256) :
    ∃ upper, merkleTree crypto fuel leaves = leaves ++ upper := by
  cases fuel with
  | zero => exact ⟨[], (List.append_nil leaves).symm⟩
  | succ fuel =>
      rw [merkleTree]
      split
      · exact ⟨[], (List.append_nil leaves).symm⟩
      · exact ⟨_, rfl⟩

/-- Once the tree is built, a transaction's hash is read off it. -/
theorem getTxHash_buildMerkleTree {crypto : Crypto} {block : CBlock}
    {nIndex : Nat} {tx : CTransaction} (h : block.vtx[nIndex]? = some tx) :
    (block.BuildMerkleTree crypto).GetTxHash nIndex =
      .ok (tx.GetHash crypto) := by
  have hlt : nIndex < block.vtx.length := (List.getElem?_eq_some_iff.mp h).1
  obtain ⟨upper, hupper⟩ := merkleTree_prefix crypto block.vtx.length
    (block.vtx.map (CTransaction.GetHash crypto))
  have hpos : 0 < block.vtx.length + upper.length := by omega
  have hget : (block.vtx.map (CTransaction.GetHash crypto) ++ upper)[nIndex]? =
      some (tx.GetHash crypto) := by
    rw [List.getElem?_append_left (by simpa using hlt)]
    simp [h]
  simp [CBlock.GetTxHash, CBlock.BuildMerkleTree, Run.assert, Run.get, hupper,
    hpos, hlt, hget]

end Ziftrcoin.Spec
