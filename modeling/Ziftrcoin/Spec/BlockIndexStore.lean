/-
Module: Ziftrcoin.Spec.BlockIndexStore
Purpose: The entries of the block index as they are built, written to the database
  and loaded again.
Trusted boundary: human-reviewed model of CBlockIndex and CDiskBlockIndex in
  src/main.h, of LoadBlockIndexGuts in src/txdb.cpp and of AddToBlockIndex,
  ConnectBlock, InsertBlockIndex and LoadBlockIndexDB in src/main.cpp, as far as they
  touch these entries; the addresses of the entries are a parameter
Main exports: IndexStore.CBlockIndex, IndexStore.AddToBlockIndex, IndexStore.ConnectBlock
-/
import Mathlib.Data.List.Sort
import Mathlib.Tactic.Linarith.Parsing
import Ziftrcoin.Spec.CoinsFormat

namespace Ziftrcoin.Spec.IndexStore

open Ziftrcoin.Lib

/-! ### Entries -/

def BLOCK_VALID_TRANSACTIONS : BitVec 32 := 3

def BLOCK_VALID_SCRIPTS : BitVec 32 := 5

def BLOCK_VALID_MASK : BitVec 32 := 7

def BLOCK_HAVE_DATA : BitVec 32 := 8

def BLOCK_HAVE_UNDO : BitVec 32 := 16

def BLOCK_FAILED_VALID : BitVec 32 := 32

def BLOCK_FAILED_CHILD : BitVec 32 := 64

def BLOCK_FAILED_MASK : BitVec 32 := 96

/-- An entry lives under its hash in `mapBlockIndex`, so a pointer to an entry is the
hash, which is also what `phashBlock` points at. -/
structure CBlockIndex where
  pprev : Option uint256
  nHeight : Int
  nSize : Nat
  nChainSize : Nat
  nFile : Int
  nDataPos : Nat
  nUndoPos : Nat
  nChainWork : uint256
  nTx : Nat
  nChainTx : Nat
  nStatus : BitVec 32
  nVersion : BitVec 32
  hashMerkleRoot : uint256
  nTime : Nat
  nBits : Nat
  nNonce : Nat
deriving Repr, DecidableEq

namespace CBlockIndex

/-- `CBlockIndex()`. -/
def empty : CBlockIndex :=
  { pprev := none, nHeight := 0, nSize := 0, nChainSize := 0, nFile := 0, nDataPos := 0
    nUndoPos := 0, nChainWork := 0, nTx := 0, nChainTx := 0, nStatus := 0, nVersion := 0
    hashMerkleRoot := 0, nTime := 0, nBits := 0, nNonce := 0 }

def GetBlockHeader (pindex : CBlockIndex) : CBlockHeader :=
  { nVersion := pindex.nVersion, hashPrevBlock := pindex.pprev.getD 0
    hashMerkleRoot := pindex.hashMerkleRoot, nTime := pindex.nTime, nBits := pindex.nBits
    nNonce := pindex.nNonce }

/-- The file and the position in it; `none` is the null position. -/
def GetUndoPos (pindex : CBlockIndex) : Option (Int × Nat) :=
  if pindex.nStatus &&& BLOCK_HAVE_UNDO ≠ 0 then some (pindex.nFile, pindex.nUndoPos) else none

def GetBlockWork (pindex : CBlockIndex) : Nat := pindex.GetBlockHeader.GetBlockWork

/-- `CheckIndex`. -/
def CheckIndex (crypto : Crypto) (ProofOfWorkLimit : Int) (pindex : CBlockIndex) : Bool :=
  pindex.GetBlockHeader.CheckProofOfWork crypto ProofOfWorkLimit

/-- The sums over the chain up to an entry, from those of its predecessor. -/
def addToChain (prev : Option CBlockIndex) (pindex : CBlockIndex) : CBlockIndex :=
  { pindex with
    nChainSize := ((prev.map CBlockIndex.nChainSize).getD 0 + pindex.nSize) % 2 ^ 64
    nChainWork := ((prev.map CBlockIndex.nChainWork).getD 0 + pindex.GetBlockWork) % 2 ^ 256
    nChainTx := uint32 ((prev.map CBlockIndex.nChainTx).getD 0 + pindex.nTx) }

end CBlockIndex

abbrev BlockMap := Std.TreeMap uint256 CBlockIndex

/-! ### Building the tree -/

/-- `AddToBlockIndex`: the entry of a block whose data is in a file; `none` where there is
one already. -/
def AddToBlockIndex (crypto : Crypto) (block : CBlock) (nFile : Int) (nPos : Nat)
    (mapBlockIndex : BlockMap) : Option BlockMap :=
  let hash := block.GetHash crypto
  if mapBlockIndex.contains hash then none
  else
    let prev := mapBlockIndex[block.hashPrevBlock]?
    let pindexNew : CBlockIndex := { CBlockIndex.empty with
      pprev := prev.map fun _ => block.hashPrevBlock
      nHeight := (prev.map fun q => q.nHeight + 1).getD 0
      nSize := uint32 block.GetSerializeSize
      nTx := uint32 block.vtx.length
      nFile, nDataPos := nPos
      nStatus := BLOCK_VALID_TRANSACTIONS ||| BLOCK_HAVE_DATA
      nVersion := block.nVersion
      hashMerkleRoot := block.hashMerkleRoot
      nTime := block.nTime, nBits := block.nBits, nNonce := block.nNonce }
    some (mapBlockIndex.insert hash (pindexNew.addToChain prev))

/-- What `ConnectBlock` notes in an entry, with the position of the undo data that it
wrote, if it wrote some. -/
def CBlockIndex.ConnectBlock (nUndoPos : Nat) (pindex : CBlockIndex) : CBlockIndex :=
  if pindex.GetUndoPos = none ∨
      (pindex.nStatus &&& BLOCK_VALID_MASK).toNat < BLOCK_VALID_SCRIPTS.toNat then
    let pindex :=
      if pindex.GetUndoPos = none then
        { pindex with nUndoPos, nStatus := pindex.nStatus ||| BLOCK_HAVE_UNDO }
      else pindex
    { pindex with nStatus := (pindex.nStatus &&& ~~~BLOCK_VALID_MASK) ||| BLOCK_VALID_SCRIPTS }
  else pindex

/-- Flag an entry as failed: `BLOCK_FAILED_VALID` or `BLOCK_FAILED_CHILD`. -/
def CBlockIndex.setFailed (fChild : Bool) (pindex : CBlockIndex) : CBlockIndex :=
  { pindex with
    nStatus := pindex.nStatus ||| if fChild then BLOCK_FAILED_CHILD else BLOCK_FAILED_VALID }

/-! ### The format -/

def CLIENT_VERSION : Nat := 93100

/-- `CDiskBlockIndex`: an entry with the hash of its predecessor in place of the
pointer. -/
structure CDiskBlockIndex where
  pindex : CBlockIndex
  hashPrev : uint256
deriving Repr, DecidableEq

namespace CDiskBlockIndex

/-- `CDiskBlockIndex(pindex)`. -/
def make (pindex : CBlockIndex) : CDiskBlockIndex := { pindex, hashPrev := pindex.pprev.getD 0 }

def GetBlockHash (crypto : Crypto) (diskindex : CDiskBlockIndex) : uint256 :=
  ({ diskindex.pindex.GetBlockHeader with hashPrevBlock := diskindex.hashPrev }).GetHash crypto

/-- The version in front is that of the stream. -/
def Serialize (diskindex : CDiskBlockIndex) : valtype :=
  let pindex := diskindex.pindex
  WriteVarInt CLIENT_VERSION ++ (WriteVarInt pindex.nHeight ++ (WriteVarInt pindex.nSize ++
  (WriteVarInt pindex.nStatus.toNat ++ (WriteVarInt pindex.nTx ++
  ((if pindex.nStatus &&& (BLOCK_HAVE_DATA ||| BLOCK_HAVE_UNDO) ≠ 0
    then WriteVarInt pindex.nFile else []) ++
  ((if pindex.nStatus &&& BLOCK_HAVE_DATA ≠ 0 then WriteVarInt pindex.nDataPos else []) ++
  ((if pindex.nStatus &&& BLOCK_HAVE_UNDO ≠ 0 then WriteVarInt pindex.nUndoPos else []) ++
  (leBytes 4 pindex.nVersion.toNat ++ (leBytes 32 diskindex.hashPrev ++
  (leBytes 32 pindex.hashMerkleRoot ++ (leBytes 4 pindex.nNonce ++
  (leBytes 4 pindex.nTime ++ leBytes 4 pindex.nBits))))))))))))

/-- A field that is there only if the status says so. -/
def readIf {α : Type} (present : Bool) (read : Stream α) (absent : α) : Stream α :=
  if present then read else pure absent

/-- Reading into a `CDiskBlockIndex()`. -/
def Unserialize : Stream CDiskBlockIndex := do
  let _ ← ReadVarInt_int
  let nHeight ← ReadVarInt_int
  let nSize ← ReadVarInt 32
  let status ← ReadVarInt 32
  let nStatus := BitVec.ofNat 32 status
  let nTx ← ReadVarInt 32
  let nFile ← readIf (nStatus &&& (BLOCK_HAVE_DATA ||| BLOCK_HAVE_UNDO) != 0) ReadVarInt_int 0
  let nDataPos ← readIf (nStatus &&& BLOCK_HAVE_DATA != 0) (ReadVarInt 32) 0
  let nUndoPos ← readIf (nStatus &&& BLOCK_HAVE_UNDO != 0) (ReadVarInt 32) 0
  let nVersion ← readUInt 4
  let hashPrev ← readUInt 32
  let hashMerkleRoot ← readUInt 32
  let nNonce ← readUInt 4
  let nTime ← readUInt 4
  let nBits ← readUInt 4
  return { hashPrev
           pindex := { CBlockIndex.empty with
             nHeight, nSize, nStatus, nTx, nFile, nDataPos, nUndoPos
             nVersion := BitVec.ofNat 32 nVersion
             hashMerkleRoot, nNonce, nTime, nBits } }

end CDiskBlockIndex

/-- The values that `WriteBlockIndex` writes for some entries. -/
def writtenIndex (items : List (uint256 × CBlockIndex)) : List valtype :=
  items.map fun item => (CDiskBlockIndex.make item.2).Serialize

/-! ### Loading -/

/-- The pointer to the entry of a hash, which is made where there is none; `none` is the
null pointer. -/
def InsertBlockIndex (hash : uint256) (mapBlockIndex : BlockMap) : BlockMap × Option uint256 :=
  if hash = 0 then (mapBlockIndex, none)
  else if mapBlockIndex.contains hash then (mapBlockIndex, some hash)
  else (mapBlockIndex.insert hash CBlockIndex.empty, some hash)

/-- The loading of one value; `none`: it cannot be read, fails its check, or has the null
hash, whose pointer cannot be used. -/
def loadValue (crypto : Crypto) (ProofOfWorkLimit : Int) (mapBlockIndex : BlockMap)
    (slValue : valtype) : Option BlockMap :=
  match CDiskBlockIndex.Unserialize slValue with
  | .error _ => none
  | .ok (diskindex, _) =>
      let (mapBlockIndex, pointer) :=
        InsertBlockIndex (diskindex.GetBlockHash crypto) mapBlockIndex
      pointer.bind fun hash =>
        let (mapBlockIndex, pprev) := InsertBlockIndex diskindex.hashPrev mapBlockIndex
        mapBlockIndex[hash]?.bind fun old =>
          let pindexNew : CBlockIndex :=
            { pprev
              nHeight := diskindex.pindex.nHeight
              nSize := diskindex.pindex.nSize
              nChainSize := old.nChainSize
              nFile := diskindex.pindex.nFile
              nDataPos := diskindex.pindex.nDataPos
              nUndoPos := diskindex.pindex.nUndoPos
              nChainWork := old.nChainWork
              nVersion := diskindex.pindex.nVersion
              hashMerkleRoot := diskindex.pindex.hashMerkleRoot
              nTime := diskindex.pindex.nTime
              nBits := diskindex.pindex.nBits
              nNonce := diskindex.pindex.nNonce
              nStatus := diskindex.pindex.nStatus
              nTx := diskindex.pindex.nTx
              nChainTx := old.nChainTx }
          if pindexNew.CheckIndex crypto ProofOfWorkLimit then
            some (mapBlockIndex.insert hash pindexNew)
          else none

/-- `LoadBlockIndexGuts`, over the values that the cursor shows. -/
def LoadBlockIndexGuts (crypto : Crypto) (ProofOfWorkLimit : Int) (values : List valtype) :
    Option BlockMap :=
  values.foldlM (loadValue crypto ProofOfWorkLimit) ∅

/-- The order of the pairs of a height and a pointer. -/
def sortedBefore (address : uint256 → Nat) (item other : Int × uint256) : Bool :=
  item.1 < other.1 || (item.1 == other.1 && address item.2 ≤ address other.2)

/-- A round of the loop over `vSortedByHeight`, with the members of `setBlockIndexValid`. -/
def chainRound (state : BlockMap × List uint256) (item : Int × uint256) :
    BlockMap × List uint256 :=
  match state.1[item.2]? with
  | none => state
  | some pindex =>
      let pindex := pindex.addToChain (pindex.pprev.bind fun prev => state.1[prev]?)
      (state.1.insert item.2 pindex,
        if BLOCK_VALID_TRANSACTIONS.toNat ≤ (pindex.nStatus &&& BLOCK_VALID_MASK).toNat ∧
            pindex.nStatus &&& BLOCK_FAILED_MASK = 0 then item.2 :: state.2
        else state.2)

/-- `LoadBlockIndexDB` up to the files: the map and the members of
`setBlockIndexValid`. -/
def LoadBlockIndexDB (crypto : Crypto) (ProofOfWorkLimit : Int) (address : uint256 → Nat)
    (values : List valtype) : Option (BlockMap × List uint256) :=
  (LoadBlockIndexGuts crypto ProofOfWorkLimit values).map fun mapBlockIndex =>
    let vSortedByHeight :=
      (mapBlockIndex.toList.map fun item => (item.2.nHeight, item.1)).mergeSort
        (sortedBefore address)
    vSortedByHeight.foldl chainRound (mapBlockIndex, [])

end Ziftrcoin.Spec.IndexStore
