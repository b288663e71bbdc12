/-
Module: Ziftrcoin.Spec.BlockFiles
Purpose: Where blocks and undo data are put into the block files.
Trusted boundary: human-reviewed model of CBlockFileInfo in src/main.h and of
  FindBlockPos, FindUndoPos, the storing half of AcceptBlock and the loading of
  the file information by LoadBlockIndexDB in src/main.cpp
Main exports: CBlockFileInfo, BlockFiles, FindBlockPos
-/
import Ziftrcoin.Lib.Machine
import Ziftrcoin.Lib.Regions
import Ziftrcoin.Spec.Bytes

namespace Ziftrcoin.Spec

open Ziftrcoin.Lib

/-- A block file is left before it gets as large as this. -/
def MAX_BLOCKFILE_SIZE : Nat := 0x10000000
/-- Block files are extended in pieces of this size. -/
def BLOCKFILE_CHUNK_SIZE : Nat := 0x1000000
/-- Undo files are extended in pieces of this size. -/
def UNDOFILE_CHUNK_SIZE : Nat := 0x100000

/-! ### File information -/

structure CBlockFileInfo where
  nBlocks : Nat
  /-- The number of used bytes of the block file. -/
  nSize : Nat
  /-- The number of used bytes of the undo file. -/
  nUndoSize : Nat
  nHeightFirst : Nat
  nHeightLast : Nat
  nTimeFirst : Nat
  nTimeLast : Nat
deriving Repr, DecidableEq

namespace CBlockFileInfo

/-- `SetNull`. -/
def null : CBlockFileInfo :=
  { nBlocks := 0, nSize := 0, nUndoSize := 0, nHeightFirst := 0, nHeightLast := 0
    nTimeFirst := 0, nTimeLast := 0 }

/-- `AddBlock`, which does not update `nSize`. -/
def AddBlock (info : CBlockFileInfo) (nHeightIn nTimeIn : Nat) : CBlockFileInfo :=
  { info with
    nHeightFirst :=
      if info.nBlocks = 0 ∨ nHeightIn < info.nHeightFirst then nHeightIn
      else info.nHeightFirst
    nTimeFirst :=
      if info.nBlocks = 0 ∨ nTimeIn < info.nTimeFirst then nTimeIn
      else info.nTimeFirst
    nBlocks := uint32 (info.nBlocks + 1)
    nHeightLast :=
      if info.nHeightLast < nHeightIn then nHeightIn else info.nHeightLast
    nTimeLast := if info.nTimeLast < nTimeIn then nTimeIn else info.nTimeLast }

end CBlockFileInfo

structure CDiskBlockPos where
  nFile : Int
  nPos : Nat
deriving Repr, DecidableEq

/-- The last block file with its information, the records about files in the
block database, and the regions that are in use. -/
structure BlockFiles where
  nLastBlockFile : Int
  infoLastBlockFile : CBlockFileInfo
  /-- The records 'f' of the database. -/
  fileInfo : Int → Option CBlockFileInfo
  /-- The record 'l' of the database. -/
  lastBlockFile : Option Int
  /-- The regions of the blocks that were accepted, headers included. -/
  accepted : List (Region Int)
  /-- The regions of the undo data. -/
  undone : List (Region Int)

namespace BlockFiles

/-- A node that has no block files, or that rebuilds its database. -/
def new : BlockFiles :=
  { nLastBlockFile := 0, infoLastBlockFile := .null, fileInfo := fun _ => none
    lastBlockFile := none, accepted := [], undone := [] }

/-- `ReadBlockFileInfo` into an object that was set to null. -/
def read (s : BlockFiles) (nFile : Int) : CBlockFileInfo :=
  (s.fileInfo nFile).getD .null

/-- Another file becomes the last one. -/
def goTo (s : BlockFiles) (nFile : Int) : BlockFiles :=
  { s with nLastBlockFile := nFile, infoLastBlockFile := s.read nFile }

/-- `WriteBlockFileInfo`. -/
def write (s : BlockFiles) (nFile : Int) (info : CBlockFileInfo) : BlockFiles :=
  { s with fileInfo := Function.update s.fileInfo nFile (some info) }

end BlockFiles

/-! ### Finding positions -/

/-- How the disk answers during one call. -/
structure DiskAnswers where
  /-- `CheckDiskSpace`. -/
  fSpace : Bool
  /-- `WriteBlockFileInfo`. -/
  fInfoWritten : Bool
  /-- `WriteBlockToDisk`. -/
  fBlockWritten : Bool
  /-- `AddToBlockIndex`. -/
  fAdded : Bool
deriving Repr, DecidableEq

inductive FileError where
  /-- `out of disk space`. -/
  | outOfDiskSpace
  /-- `Failed to write file info` and `Failed to write block info`. -/
  | writeInfo
  /-- `Failed to read block info`. -/
  | readInfo
  /-- `Failed to write block`. -/
  | writeBlock
  /-- `AcceptBlock() : AddToBlockIndex failed`. -/
  | addToBlockIndex
deriving Repr, DecidableEq

/-- The loop of `FindBlockPos` has not come to its end. -/
inductive FileLoop where
  | running
deriving Repr, DecidableEq

abbrev BlockFileCall := Machine BlockFiles FileError FileLoop

/-- The loop that leaves full files.  The sum is unsigned. -/
def leaveFullFiles (nAddSize : Nat) : (rounds : Nat) → BlockFileCall Bool
  | 0 => Machine.fault .running
  | rounds + 1 => do
      let s ← Machine.get
      if MAX_BLOCKFILE_SIZE ≤ uint32 (s.infoLastBlockFile.nSize + nAddSize) then
        Machine.modify fun s => s.goTo (s.nLastBlockFile + 1)
        let _ ← leaveFullFiles nAddSize rounds
        return true
      else
        return false

/-- The first half of `FindBlockPos`, with whether the last file is another. -/
def chooseBlockFile (rounds : Nat) (dbp : Option CDiskBlockPos) (nAddSize : Nat) :
    BlockFileCall (CDiskBlockPos × Bool) := do
  match dbp with
  | some pos => do
      let s ← Machine.get
      Machine.modify fun s =>
        if s.nLastBlockFile ≠ pos.nFile then s.goTo pos.nFile else s
      return (pos, decide (s.nLastBlockFile ≠ pos.nFile))
  | none => do
      let fUpdatedLast ← leaveFullFiles nAddSize rounds
      let s ← Machine.get
      return ({ nFile := s.nLastBlockFile, nPos := s.infoLastBlockFile.nSize },
        fUpdatedLast)

/-- The number of pieces that hold so many bytes. -/
def chunks (nSize nChunkSize : Nat) : Nat :=
  uint32 (nSize + nChunkSize - 1) / nChunkSize

/-- A file needs another piece and there is no space for it. -/
def lacksSpace (answers : DiskAnswers) (nChunkSize nPos nNewSize : Nat) : Bool :=
  decide (chunks nPos nChunkSize < chunks nNewSize nChunkSize) && !answers.fSpace

/-- `FindBlockPos`; the position is known when one is given. -/
def FindBlockPos (answers : DiskAnswers) (rounds : Nat) (dbp : Option CDiskBlockPos)
    (nAddSize nHeight nTime : Nat) : BlockFileCall CDiskBlockPos := do
  let (pos, fUpdatedLast) ← chooseBlockFile rounds dbp nAddSize
  Machine.modify fun s =>
    { s with
      infoLastBlockFile :=
        { s.infoLastBlockFile with
          nSize := uint32 (s.infoLastBlockFile.nSize + nAddSize) }.AddBlock
            nHeight nTime }
  let s ← Machine.get
  if dbp.isNone ∧ lacksSpace answers BLOCKFILE_CHUNK_SIZE pos.nPos
      s.infoLastBlockFile.nSize then
    Machine.refuse .outOfDiskSpace
  else if !answers.fInfoWritten then
    Machine.refuse .writeInfo
  else
    Machine.modify fun s => s.write s.nLastBlockFile s.infoLastBlockFile
    Machine.modify fun s =>
      if fUpdatedLast then { s with lastBlockFile := some s.nLastBlockFile } else s
    return pos

/-- `FindUndoPos` writes the information of a file with more undo data in it. -/
def growUndo (answers : DiskAnswers) (nFile : Int) (nAddSize : Nat)
    (info : CBlockFileInfo) : BlockFileCall CDiskBlockPos := do
  let grown := { info with nUndoSize := uint32 (info.nUndoSize + nAddSize) }
  Machine.modify fun s =>
    if nFile = s.nLastBlockFile then { s with infoLastBlockFile := grown } else s
  if !answers.fInfoWritten then
    Machine.refuse .writeInfo
  else
    Machine.modify fun s => s.write nFile grown
    if lacksSpace answers UNDOFILE_CHUNK_SIZE info.nUndoSize grown.nUndoSize then
      Machine.refuse .outOfDiskSpace
    else
      return { nFile, nPos := info.nUndoSize }

/-- `FindUndoPos`. -/
def FindUndoPos (answers : DiskAnswers) (nFile : Int) (nAddSize : Nat) :
    BlockFileCall CDiskBlockPos := do
  let s ← Machine.get
  if nFile = s.nLastBlockFile then
    growUndo answers nFile nAddSize s.infoLastBlockFile
  else
    match s.fileInfo nFile with
    | none => Machine.refuse .readInfo
    | some info => growUndo answers nFile nAddSize info

/-- The position of a block after `WriteBlockToDisk`, which puts the four bytes
of the message start and the four of the size before it. -/
def WriteBlockToDisk_pos (pos : CDiskBlockPos) : CDiskBlockPos :=
  { pos with nPos := uint32 (pos.nPos + 8) }

/-- Where the block is: a known position is one after `WriteBlockToDisk`. -/
def storedPos (dbp : Option CDiskBlockPos) (pos : CDiskBlockPos) : CDiskBlockPos :=
  if dbp.isNone then WriteBlockToDisk_pos pos else pos

/-- The bytes of a block at a position, from its header on. -/
def blockRegion (pos : CDiskBlockPos) (nAddSize : Nat) : Region Int :=
  { medium := pos.nFile, start := pos.nPos - 8, size := nAddSize }

def undoRegion (pos : CDiskBlockPos) (nAddSize : Nat) : Region Int :=
  { medium := pos.nFile, start := pos.nPos, size := nAddSize }

/-- The storing half of `AcceptBlock`. -/
def AcceptBlock_store (answers : DiskAnswers) (rounds : Nat)
    (dbp : Option CDiskBlockPos) (nBlockSize nHeight nTime : Nat) :
    BlockFileCall Unit := do
  let nAddSize := uint32 (nBlockSize + 8)
  let pos ← FindBlockPos answers rounds dbp nAddSize nHeight nTime
  if dbp.isNone ∧ !answers.fBlockWritten then
    Machine.refuse .writeBlock
  else if !answers.fAdded then
    Machine.refuse .addToBlockIndex
  else
    Machine.modify fun s =>
      { s with accepted := blockRegion (storedPos dbp pos) nAddSize :: s.accepted }

/-- `ConnectBlock` writes undo data. -/
def ConnectBlock_undo (answers : DiskAnswers) (nFile : Int) (nAddSize : Nat) :
    BlockFileCall Unit := do
  let pos ← FindUndoPos answers nFile nAddSize
  Machine.modify fun s => { s with undone := undoRegion pos nAddSize :: s.undone }

/-- The node is started again: `LoadBlockIndexDB` reads what the database says
about the last file. -/
def BlockFiles.restart (s : BlockFiles) : BlockFiles := s.goTo (s.lastBlockFile.getD 0)

/-! ### Runs -/

inductive FileCall where
  | acceptBlock (answers : DiskAnswers) (rounds : Nat) (dbp : Option CDiskBlockPos)
      (nBlockSize nHeight nTime : Nat)
  | connectBlock (answers : DiskAnswers) (nFile : Int) (nAddSize : Nat)
  | restart

def FileCall.run : FileCall → BlockFileCall Unit
  | .acceptBlock answers rounds dbp nBlockSize nHeight nTime =>
      AcceptBlock_store answers rounds dbp nBlockSize nHeight nTime
  | .connectBlock answers nFile nAddSize => ConnectBlock_undo answers nFile nAddSize
  | .restart => Machine.modify BlockFiles.restart

/-- The call came back and left this state. -/
def FileCall.Leaves (call : FileCall) (s s' : BlockFiles) : Prop :=
  call.run s = .done () s' ∨ ∃ e, call.run s = .refused e s'

end Ziftrcoin.Spec
