/-
Module: Ziftrcoin.Spec.MerkleBlock
Purpose: Merkle branches and partial Merkle trees: what a node tells another
  about some of the transactions of a block, and how the other checks it.
Trusted boundary: human-reviewed model of GetMerkleBranch and CheckMerkleBranch
  in src/core.cpp and of CPartialMerkleTree in src/main.h and src/main.cpp;
  sizes of containers are natural numbers
Main exports: CBlock.merkleTreeRoot, CBlock.GetMerkleBranch, CheckMerkleBranch
-/
import Ziftrcoin.Spec.Serialize

namespace Ziftrcoin.Spec

open Ziftrcoin.Lib

/-! ### Merkle branches -/

/-- What `BuildMerkleTree` returns for a list of transaction hashes. -/
def merkleTreeRoot (crypto : Crypto) (vTxid : List uint256) : uint256 :=
  ((merkleTree crypto vTxid.length vTxid).getLast?).getD 0

/-- The loop of `GetMerkleBranch`; `none` is an access outside `vMerkleTree`.
The number of leaves is enough fuel. -/
def merkleBranchFrom (vMerkleTree : List uint256) :
    (fuel j nSize nIndex : Nat) → Option (List uint256)
  | 0, _, _, _ => some []
  | fuel + 1, j, nSize, nIndex =>
      if nSize ≤ 1 then some []
      else do
        let otherside ← vMerkleTree[j + min (nIndex ^^^ 1) (nSize - 1)]?
        let vMerkleBranch ←
          merkleBranchFrom vMerkleTree fuel (j + nSize) ((nSize + 1) / 2)
            (nIndex / 2)
        return otherside :: vMerkleBranch

def CBlock.GetMerkleBranch (crypto : Crypto) (block : CBlock) (nIndex : Nat) :
    Option (List uint256) :=
  let block := if block.vMerkleTree = [] then block.BuildMerkleTree crypto
    else block
  merkleBranchFrom block.vMerkleTree block.vtx.length 0 block.vtx.length nIndex

/-- The loop of `CheckMerkleBranch`. -/
def checkBranchFrom (crypto : Crypto) :
    (hash : uint256) → (vMerkleBranch : List uint256) → (nIndex : Int) → uint256
  | hash, [], _ => hash
  | hash, otherside :: rest, nIndex =>
      let hash := if nIndex % 2 = 1 then merkleNode crypto otherside hash
        else merkleNode crypto hash otherside
      checkBranchFrom crypto hash rest (nIndex / 2)

def CheckMerkleBranch (crypto : Crypto) (hash : uint256)
    (vMerkleBranch : List uint256) (nIndex : Int) : uint256 :=
  if nIndex = -1 then 0 else checkBranchFrom crypto hash vMerkleBranch nIndex

/-! ### Partial Merkle trees -/

structure CPartialMerkleTree where
  nTransactions : Nat
  vBits : List Bool
  vHash : List uint256
  fBad : Bool
deriving Repr, DecidableEq, Inhabited

/-- `CalcTreeWidth` for a tree over `nTransactions` leaves.  The sum does not
overflow: `ExtractMatches` first bounds the number of transactions. -/
def CalcTreeWidth (nTransactions height : Nat) : Nat :=
  (nTransactions + 2 ^ height - 1) / 2 ^ height

/-- The loop that finds the height of a tree; a tree is not higher than the
number of its leaves. -/
def heightFrom (nTransactions : Nat) : (fuel nHeight : Nat) → Nat
  | 0, nHeight => nHeight
  | fuel + 1, nHeight =>
      if CalcTreeWidth nTransactions nHeight ≤ 1 then nHeight
      else heightFrom nTransactions fuel (nHeight + 1)

def treeHeight (nTransactions : Nat) : Nat :=
  heightFrom nTransactions nTransactions 0

/-- `CPartialMerkleTree::CalcHash`; `none` is an access outside `vTxid`. -/
def CalcHash (crypto : Crypto) (vTxid : List uint256) :
    (height pos : Nat) → Option uint256
  | 0, pos => vTxid[pos]?
  | height + 1, pos => do
      let left ← CalcHash crypto vTxid height (pos * 2)
      if pos * 2 + 1 < CalcTreeWidth vTxid.length height then
        let right ← CalcHash crypto vTxid height (pos * 2 + 1)
        return merkleNode crypto left right
      else return merkleNode crypto left left

namespace CPartialMerkleTree

end CPartialMerkleTree

/-- The variables of a traversal. -/
structure Extraction where
  nBitsUsed : Nat
  nHashUsed : Nat
  vMatch : List uint256
  fBad : Bool
deriving Repr, DecidableEq, Inhabited

/-- The value of up to eight bits, least significant first. -/
def bitsValue : List Bool → Nat
  | [] => 0
  | bit :: bits => bit.toNat + 2 * bitsValue bits

/-- `vBytes`: eight bits to a byte, the last byte filled up with zeros. -/
def packBits (vBits : List Bool) : valtype :=
  (List.range ((vBits.length + 7) / 8)).map fun i =>
    UInt8.ofNat (bitsValue ((vBits.drop (8 * i)).take 8))

def unpackBits (vBytes : valtype) : List Bool :=
  (List.range (8 * vBytes.length)).map fun p =>
    (vBytes.getD (p / 8) 0).toNat.testBit (p % 8)

namespace CPartialMerkleTree

def serialize (tree : CPartialMerkleTree) : valtype :=
  leBytes 4 tree.nTransactions ++ serializeVector (leBytes 32) tree.vHash ++
    serializeBytes (packBits tree.vBits)

def sizeofUint256 : Nat := 32

def Unserialize : Stream CPartialMerkleTree := do
  let nTransactions ← readUInt 4
  let vHash ← unserializeVector sizeofUint256 (by decide) (readUInt 32)
  let vBytes ← unserializeBytes
  return { nTransactions, vBits := unpackBits vBytes, vHash, fBad := false }

end CPartialMerkleTree

end Ziftrcoin.Spec
