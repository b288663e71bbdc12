/-
Module: Ziftrcoin.Spec.AddrManFile
Purpose: How an address manager is saved and loaded.
Trusted boundary: human-reviewed model of the serialisation of CAddrMan and CAddrInfo in
  src/addrman.h, of CAddress in src/protocol.h and of CService in src/netbase.h, with the
  flag SER_DISK.  The version that addresses are written with is the version byte of the
  manager.  Indexes of entries are read as unsigned numbers; negative ones are not written.
Main exports: CAddrInfo.Serialize, CAddrInfo.Unserialize, CAddrMan.Serialize
-/
import Ziftrcoin.Spec.AddrMan
import Ziftrcoin.Spec.Serialize

namespace Ziftrcoin.Spec

open Ziftrcoin.Lib

/-! ### Entries -/

/-- `htons`, on a machine with the low byte first. -/
def portBytes (port : UInt16) : valtype :=
  [UInt8.ofNat (port.toNat / 0x100), UInt8.ofNat port.toNat]

/-- The address in a block of 16 bytes. -/
def ipOfBytes (bs : valtype) : CNetAddr := ⟨Vector.ofFn fun i => bs.getD i 0⟩

/-- `ntohs`. -/
def portOfBytes (bs : valtype) : UInt16 :=
  UInt16.ofNat ((bs.getD 0 0).toNat * 0x100 + (bs.getD 1 0).toNat)

namespace CAddrInfo

/-- The address with its version, its source, and what is known of attempts. -/
def Serialize (info : CAddrInfo) : valtype :=
  leBytes 4 0 ++ (leBytes 4 info.nTime ++ (leBytes 8 info.nServices.toNat ++
    (info.ip.toList ++ (portBytes info.port ++ (info.source.ip.toList ++
      (leInt64 info.nLastSuccess ++ leInt32 info.nAttempts))))))

/-- Read into a new entry. -/
def Unserialize : Stream CAddrInfo := do
  let _nVersion ← readUInt 4
  let nTime ← readUInt 4
  let nServices ← readUInt 8
  let ip ← readData 16
  let portN ← readData 2
  let source ← readData 16
  let nLastSuccess ← readInt64
  let nAttempts ← readInt32
  return { toCNetAddr := ipOfBytes ip, port := portOfBytes portN,
           nServices := UInt64.ofNat nServices, nTime, nLastTry := 0,
           source := ipOfBytes source, nLastSuccess, nAttempts, nRefCount := 0,
           fInTried := false, nRandomPos := -1 }

end CAddrInfo

/-! ### Saving -/

/-- The loop over the new entries: the numbers that ids get, and what is written.  Entries
that are not new get the number of the next new one. -/
def writeNewInfos (nNew : Int) : (nIds : Nat) → List (Nat × CAddrInfo) →
    List (Nat × Nat) × valtype
  | _, [] => ([], [])
  | nIds, (nId, info) :: infos =>
      if (nIds : Int) = nNew then ([], [])
      else if info.nRefCount ≠ 0 then
        let later := writeNewInfos nNew (nIds + 1) infos
        ((nId, nIds) :: later.1, info.Serialize ++ later.2)
      else
        let later := writeNewInfos nNew nIds infos
        ((nId, nIds) :: later.1, later.2)

/-- The loop over the tried entries. -/
def writeTriedInfos (nTried : Int) : (nIds : Nat) → List (Nat × CAddrInfo) → valtype
  | _, [] => []
  | nIds, (_, info) :: infos =>
      if (nIds : Int) = nTried then []
      else if info.fInTried then info.Serialize ++ writeTriedInfos nTried (nIds + 1) infos
      else writeTriedInfos nTried nIds infos

/-- The ids of a bucket, by their numbers. -/
def writeBucket (mapUnkIds : List (Nat × Nat)) (vNew : Std.TreeSet Nat) : valtype :=
  leInt32 vNew.size ++ vNew.toList.flatMap fun nId =>
    leBytes 4 ((mapUnkIds.lookup nId).getD 0)

def CAddrMan.Serialize (m : CAddrMan) : valtype :=
  let newInfos := writeNewInfos m.nNew 0 m.mapInfo.toList
  leBytes 1 0 ++ (serializeBytes m.nKey ++ (leInt32 m.nNew ++ (leInt32 m.nTried ++
    (leInt32 ADDRMAN_NEW_BUCKET_COUNT ++ (newInfos.2 ++
      (writeTriedInfos m.nTried 0 m.mapInfo.toList ++
        m.vvNew.flatMap (writeBucket newInfos.1)))))))

/-! ### Loading -/

namespace CAddrMan

/-- The manager as it is when the numbers have been read. -/
def cleared (m : CAddrMan) (nKey : valtype) (nNew nTried : Int) : CAddrMan :=
  { m with
    nKey, nNew, nTried, nIdCount := 0, mapInfo := ∅, mapAddr := fun _ => none, vRandom := []
    vvTried := List.replicate ADDRMAN_TRIED_BUCKET_COUNT []
    vvNew := List.replicate ADDRMAN_NEW_BUCKET_COUNT ∅ }

/-- An entry with an id, at the end of the random order. -/
def append (m : CAddrMan) (nId : Nat) (info : CAddrInfo) : CAddrMan :=
  { m with
    mapInfo := m.mapInfo.insert nId { info with nRandomPos := m.vRandom.length }
    mapAddr := Function.update m.mapAddr info.toCNetAddr (some nId)
    vRandom := m.vRandom ++ [nId] }

/-- A new entry.  If the number of buckets has changed it is put in the one of its source. -/
def loadNew (crypto : Crypto) (nUBuckets : Int) (m : CAddrMan) (nId : Nat)
    (info : CAddrInfo) : CAddrMan :=
  if nUBuckets ≠ ADDRMAN_NEW_BUCKET_COUNT then
    (m.append nId { info with nRefCount := info.nRefCount + 1 }).insertNew
      (info.GetNewBucket crypto m.nKey info.source) nId
  else m.append nId info

def readNewInfos (crypto : Crypto) (nUBuckets : Int) :
    (left n : Nat) → CAddrMan → Stream CAddrMan
  | 0, _, m => return m
  | left + 1, n, m => do
      let info ← CAddrInfo.Unserialize
      readNewInfos crypto nUBuckets left (n + 1) (m.loadNew crypto nUBuckets n info)

/-- A tried entry, which is lost if its bucket is full. -/
def loadTried (crypto : Crypto) (m : CAddrMan) (nLost : Nat) (info : CAddrInfo) :
    CAddrMan × Nat :=
  let nKBucket := info.GetTriedBucket crypto m.nKey
  let vTried := m.vvTried.getD nKBucket []
  if vTried.length < ADDRMAN_TRIED_BUCKET_SIZE then
    ({ m.append m.nIdCount { info with fInTried := true } with
        vvTried := m.vvTried.set nKBucket (vTried ++ [m.nIdCount])
        nIdCount := m.nIdCount + 1 }, nLost)
  else (m, nLost + 1)

def readTriedInfos (crypto : Crypto) : (left nLost : Nat) → CAddrMan → Stream CAddrMan
  | 0, nLost, m => return { m with nTried := m.nTried - nLost }
  | left + 1, nLost, m => do
      let info ← CAddrInfo.Unserialize
      let loaded := m.loadTried crypto nLost info
      readTriedInfos crypto left loaded.2 loaded.1

/-- An index of a bucket.  An entry that is not there is made. -/
def loadIndex (nUBuckets : Int) (m : CAddrMan) (b nIndex : Nat) : CAddrMan :=
  let info := (m.mapInfo[nIndex]?).getD
    { toCNetAddr := ipOfBytes [], port := 0, nServices := 1, nTime := 100000000, nLastTry := 0,
      source := ipOfBytes [], nLastSuccess := 0, nAttempts := 0, nRefCount := 0,
      fInTried := false, nRandomPos := -1 }
  if nUBuckets = ADDRMAN_NEW_BUCKET_COUNT ∧ info.nRefCount < ADDRMAN_NEW_BUCKETS_PER_ADDRESS then
    (m.setInfo nIndex { info with nRefCount := info.nRefCount + 1 }).insertNew b nIndex
  else m.setInfo nIndex info

def readIndexes (nUBuckets : Int) (b : Nat) : (left : Nat) → CAddrMan → Stream CAddrMan
  | 0, m => return m
  | left + 1, m => do
      let nIndex ← readUInt 4
      readIndexes nUBuckets b left (m.loadIndex nUBuckets b nIndex)

def readBuckets (nUBuckets : Int) : (left b : Nat) → CAddrMan → Stream CAddrMan
  | 0, _, m => return m
  | left + 1, b, m => do
      let nSize ← readInt32
      let m ← readIndexes nUBuckets b nSize.toNat m
      readBuckets nUBuckets left (b + 1) m

/-- Read into a manager. -/
def Unserialize (crypto : Crypto) (m : CAddrMan) : Stream CAddrMan := do
  let _nVersion ← readUInt 1
  let nKey ← unserializeBytes
  let nNew ← readInt32
  let nTried ← readInt32
  let nUBuckets ← readInt32
  let m ← readNewInfos crypto nUBuckets nNew.toNat 0 (m.cleared nKey nNew nTried)
  let m ← readTriedInfos crypto nTried.toNat 0 { m with nIdCount := nNew.toNat }
  readBuckets nUBuckets nUBuckets.toNat 0 m

end CAddrMan

end Ziftrcoin.Spec
