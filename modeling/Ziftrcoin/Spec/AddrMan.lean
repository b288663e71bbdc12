/-
Module: Ziftrcoin.Spec.AddrMan
Purpose: The address manager: addresses in buckets of new and of tried ones,
  with the indexes over them, and its consistency check.
Trusted boundary: human-reviewed model of src/addrman.h and src/addrman.cpp
Main exports: CAddrInfo, CAddrMan, CAddrMan.Add_
-/
import Mathlib.Tactic.Linarith.Parsing
import Ziftrcoin.Spec.NetAddr
import Ziftrcoin.Spec.Transaction

namespace Ziftrcoin.Spec

def ADDRMAN_TRIED_BUCKET_COUNT : Nat := 64
def ADDRMAN_TRIED_BUCKET_SIZE : Nat := 64
def ADDRMAN_NEW_BUCKET_COUNT : Nat := 256
def ADDRMAN_NEW_BUCKET_SIZE : Nat := 64
def ADDRMAN_TRIED_BUCKETS_PER_GROUP : Nat := 4
def ADDRMAN_NEW_BUCKETS_PER_SOURCE_GROUP : Nat := 32
def ADDRMAN_NEW_BUCKETS_PER_ADDRESS : Int := 4
def ADDRMAN_TRIED_ENTRIES_INSPECT_ON_EVICT : Nat := 4
def ADDRMAN_HORIZON_DAYS : Int := 30
def ADDRMAN_RETRIES : Int := 3
def ADDRMAN_MAX_FAILURES : Int := 10
def ADDRMAN_MIN_FAIL_DAYS : Int := 7
def ADDRMAN_GETADDR_MAX_PCT : Nat := 23
def ADDRMAN_GETADDR_MAX : Nat := 2500

/-- `GetRandInt`, for a random number `r`. -/
def GetRandInt (r nMax : Nat) : Nat := if nMax = 0 then 0 else r % nMax

/-- A number that is stored in an `unsigned int`. -/
def unsignedInt (n : Int) : Nat := (n % 2 ^ 32).toNat

/-! ### Entries -/

/-- An address with what is known about it. -/
structure CAddrInfo extends CAddress where
  nLastTry : Int
  source : CNetAddr
  nLastSuccess : Int
  nAttempts : Int
  nRefCount : Int
  fInTried : Bool
  nRandomPos : Int

namespace CAddrInfo

/-- The constructor, with `Init`. -/
def new (addr : CAddress) (addrSource : CNetAddr) : CAddrInfo :=
  { toCAddress := addr, nLastTry := 0, source := addrSource, nLastSuccess := 0,
    nAttempts := 0, nRefCount := 0, fInTried := false, nRandomPos := -1 }

variable (crypto : Crypto) (info : CAddrInfo)

/-- `GetLow64` of a hash. -/
def hash64 (ss : valtype) : Nat := crypto.Hash ss % 2 ^ 64

def GetTriedBucket (nKey : valtype) : Nat :=
  let hash1 := hash64 crypto (serializeBytes nKey ++ serializeBytes info.GetKey)
  let hash2 := hash64 crypto
    (serializeBytes nKey ++ serializeBytes info.GetGroup ++
      leBytes 8 (hash1 % ADDRMAN_TRIED_BUCKETS_PER_GROUP))
  hash2 % ADDRMAN_TRIED_BUCKET_COUNT

def GetNewBucket (nKey : valtype) (src : CNetAddr) : Nat :=
  let hash1 := hash64 crypto
    (serializeBytes nKey ++ serializeBytes info.GetGroup ++ serializeBytes src.GetGroup)
  let hash2 := hash64 crypto
    (serializeBytes nKey ++ serializeBytes src.GetGroup ++
      leBytes 8 (hash1 % ADDRMAN_NEW_BUCKETS_PER_SOURCE_GROUP))
  hash2 % ADDRMAN_NEW_BUCKET_COUNT

def IsTerrible (nNow : Int) : Bool :=
  if info.nLastTry ≠ 0 ∧ info.nLastTry ≥ nNow - 60 then false
  else if (info.nTime : Int) > nNow + 10 * 60 then true
  else if info.nTime = 0 ∨ nNow - info.nTime > ADDRMAN_HORIZON_DAYS * 86400 then true
  else if info.nLastSuccess = 0 ∧ info.nAttempts ≥ ADDRMAN_RETRIES then true
  else if nNow - info.nLastSuccess > ADDRMAN_MIN_FAIL_DAYS * 86400 ∧
      info.nAttempts ≥ ADDRMAN_MAX_FAILURES then true
  else false

/-- `nRandomPos` as an index; a negative one is past every end. -/
def position : Option Nat :=
  if 0 ≤ info.nRandomPos then some info.nRandomPos.toNat else none

end CAddrInfo

/-! ### The manager -/

/-- `CAddrMan`.  The map by address is never walked through. -/
structure CAddrMan where
  nKey : valtype
  nIdCount : Nat
  mapInfo : Std.TreeMap Nat CAddrInfo
  mapAddr : CNetAddr → Option Nat
  vRandom : List Nat
  nTried : Int
  vvTried : List (List Nat)
  nNew : Int
  vvNew : List (Std.TreeSet Nat)

namespace CAddrMan

/-- An empty manager with a secret key. -/
def new (nKey : valtype) : CAddrMan :=
  { nKey, nIdCount := 0, mapInfo := ∅, mapAddr := fun _ => none, vRandom := [],
    nTried := 0, vvTried := List.replicate ADDRMAN_TRIED_BUCKET_COUNT [],
    nNew := 0, vvNew := List.replicate ADDRMAN_NEW_BUCKET_COUNT ∅ }

/-- The entry of an id is written. -/
def setInfo (m : CAddrMan) (nId : Nat) (info : CAddrInfo) : CAddrMan :=
  { m with mapInfo := m.mapInfo.insert nId info }

/-- An id goes into a bucket of new addresses. -/
def insertNew (m : CAddrMan) (nUBucket nId : Nat) : CAddrMan :=
  { m with vvNew := m.vvNew.modify nUBucket fun vNew => vNew.insert nId }

def eraseNew (m : CAddrMan) (nUBucket nId : Nat) : CAddrMan :=
  { m with vvNew := m.vvNew.modify nUBucket fun vNew => vNew.erase nId }

/-- `Find`: the id and its entry. -/
def Find (m : CAddrMan) (addr : CNetAddr) : Option (Nat × CAddrInfo) :=
  match m.mapAddr addr with
  | none => none
  | some nId => (m.mapInfo[nId]?).map fun info => (nId, info)

/-- `Create`, which returns the id as well. -/
def Create (m : CAddrMan) (addr : CAddress) (addrSource : CNetAddr) :
    CAddrMan × Nat × CAddrInfo :=
  let nId := m.nIdCount
  let info := { CAddrInfo.new addr addrSource with nRandomPos := m.vRandom.length }
  ({ m with
      nIdCount := m.nIdCount + 1
      mapInfo := m.mapInfo.insert nId info
      mapAddr := Function.update m.mapAddr addr.toCNetAddr (some nId)
      vRandom := m.vRandom ++ [nId] }, nId, info)

/-!
The calls below return nothing where an assertion fails, an index is out of
range, or an entry is used that is not there.
-/

def SwapRandom (m : CAddrMan) (nRndPos1 nRndPos2 : Nat) : Option CAddrMan :=
  if nRndPos1 = nRndPos2 then some m
  else do
    let nId1 ← m.vRandom[nRndPos1]?
    let nId2 ← m.vRandom[nRndPos2]?
    let info1 ← m.mapInfo[nId1]?
    let m := m.setInfo nId1 { info1 with nRandomPos := nRndPos2 }
    let info2 ← m.mapInfo[nId2]?
    let m := m.setInfo nId2 { info2 with nRandomPos := nRndPos1 }
    some { m with vRandom := (m.vRandom.set nRndPos1 nId2).set nRndPos2 nId1 }

/-- The swaps of `SelectTried`, from position `i` on: the bucket, and the least
recently tried id so far with its position. -/
def inspectTried (m : CAddrMan) (rnd : Nat → Nat) :
    (k i : Nat) → List Nat → Option (Nat × Nat) → Option (List Nat × Option (Nat × Nat))
  | 0, _, vTried, oldest => some (vTried, oldest)
  | k + 1, i, vTried, oldest =>
      if i < vTried.length then do
        let nPos := GetRandInt (rnd i) (vTried.length - i) + i
        let nTemp ← vTried[nPos]?
        let first ← vTried[i]?
        let vTried := (vTried.set nPos first).set i nTemp
        match oldest with
        | none => m.inspectTried rnd k (i + 1) vTried (some (nTemp, nPos))
        | some (nOldest, nOldestPos) =>
            let infoTemp ← m.mapInfo[nTemp]?
            let infoOldest ← m.mapInfo[nOldest]?
            m.inspectTried rnd k (i + 1) vTried
              (some (if infoTemp.nLastSuccess < infoOldest.nLastSuccess then (nTemp, nPos)
                else (nOldest, nOldestPos)))
      else some (vTried, oldest)

/-- `SelectTried`: the position of the entry to evict. -/
def SelectTried (m : CAddrMan) (rnd : Nat → Nat) (nKBucket : Nat) :
    Option (CAddrMan × Nat) := do
  let vTried ← m.vvTried[nKBucket]?
  let (vTried, oldest) ←
    m.inspectTried rnd ADDRMAN_TRIED_ENTRIES_INSPECT_ON_EVICT 0 vTried none
  let (_, nOldestPos) ← oldest
  some ({ m with vvTried := m.vvTried.set nKBucket vTried }, nOldestPos)

/-- A reference to an entry is given up, and the entry with the last one. -/
def dropRef (m : CAddrMan) (nId : Nat) : Option CAddrMan := do
  let info ← m.mapInfo[nId]?
  let m := m.setInfo nId { info with nRefCount := info.nRefCount - 1 }
  if info.nRefCount - 1 = 0 then
    let nRandomPos ← info.position
    let m ← m.SwapRandom nRandomPos (m.vRandom.length - 1)
    some
      { m with
        vRandom := m.vRandom.dropLast
        mapAddr := Function.update m.mapAddr info.toCNetAddr none
        mapInfo := m.mapInfo.erase nId
        nNew := m.nNew - 1 }
  else some m

/-- The first loop of `ShrinkNew`: the first entry that can be deleted, at the
times that the clock shows. -/
def findTerrible (m : CAddrMan) (now : Nat → Int) : (i : Nat) → List Nat → Option (Option Nat)
  | _, [] => some none
  | i, nId :: vNew => do
      let info ← m.mapInfo[nId]?
      if info.IsTerrible (now i) then some (some nId) else m.findTerrible now (i + 1) vNew

/-- The second loop of `ShrinkNew`: the oldest of the entries at the positions
`n`. -/
def oldestOf (m : CAddrMan) (n : List Nat) :
    (nI : Nat) → List Nat → Option Nat → Option (Option Nat)
  | _, [], nOldest => some nOldest
  | nI, nId :: vNew, nOldest =>
      if nI ∈ n then
        match nOldest with
        | none => m.oldestOf n (nI + 1) vNew (some nId)
        | some old => do
            let info ← m.mapInfo[nId]?
            let infoOld ← m.mapInfo[old]?
            m.oldestOf n (nI + 1) vNew (some (if info.nTime < infoOld.nTime then nId else old))
      else m.oldestOf n (nI + 1) vNew nOldest

def ShrinkNew (m : CAddrMan) (rnd : Nat → Nat) (now : Nat → Int) (nUBucket : Nat) :
    Option (CAddrMan × Int) := do
  let vNew ← m.vvNew[nUBucket]?
  match ← m.findTerrible now 0 vNew.toList with
  | some nId =>
      let m ← m.dropRef nId
      some (m.eraseNew nUBucket nId, 0)
  | none =>
      let n := (List.range 4).map fun i => GetRandInt (rnd i) vNew.size
      let nOldest ← (← m.oldestOf n 0 vNew.toList none)
      let m ← m.dropRef nOldest
      some (m.eraseNew nUBucket nOldest, 1)

/-- The loop of `MakeTried` that takes an id out of all buckets of new
addresses; the reference count goes down by one for each. -/
def eraseAll (nId : Nat) : List (Std.TreeSet Nat) → Int → List (Std.TreeSet Nat) × Int
  | [], nRefCount => ([], nRefCount)
  | vNew :: vvNew, nRefCount =>
      let (rest, nRefCount) :=
        eraseAll nId vvNew (if vNew.contains nId then nRefCount - 1 else nRefCount)
      (vNew.erase nId :: rest, nRefCount)

/-- The part of `MakeTried` that evicts an entry of a full bucket, for `nId`
to take its place. -/
def replaceTried (crypto : Crypto) (m : CAddrMan) (rnd : Nat → Nat)
    (nId nKBucket nOrigin : Nat) : Option CAddrMan := do
  let (m, nPos) ← m.SelectTried rnd nKBucket
  let vTried ← m.vvTried[nKBucket]?
  let nOld ← vTried[nPos]?
  let infoOld ← m.mapInfo[nOld]?
  let nUBucket := infoOld.GetNewBucket crypto m.nKey infoOld.source
  let vNew ← m.vvNew[nUBucket]?
  let m := m.setInfo nOld { infoOld with fInTried := false, nRefCount := 1 }
  let m := m.insertNew (if vNew.size < ADDRMAN_NEW_BUCKET_SIZE then nUBucket else nOrigin) nOld
  some
    { m with
      nNew := m.nNew + 1
      vvTried := m.vvTried.set nKBucket (vTried.set nPos nId) }

/-- The id of an address goes into its bucket of tried ones, in the place of
another one if the bucket is full. -/
def placeTried (crypto : Crypto) (m : CAddrMan) (rnd : Nat → Nat)
    (nId nKBucket nOrigin : Nat) : Option CAddrMan := do
  let vTried ← m.vvTried[nKBucket]?
  if vTried.length < ADDRMAN_TRIED_BUCKET_SIZE then
    some
      { m with
        vvTried := m.vvTried.set nKBucket (vTried ++ [nId])
        nTried := m.nTried + 1 }
  else m.replaceTried crypto rnd nId nKBucket nOrigin

def MakeTried (crypto : Crypto) (m : CAddrMan) (rnd : Nat → Nat) (info : CAddrInfo)
    (nId nOrigin : Nat) : Option CAddrMan := do
  let origin ← m.vvNew[nOrigin]?
  guard (origin.contains nId)
  let (vvNew, nRefCount) := eraseAll nId m.vvNew info.nRefCount
  guard (nRefCount = 0)
  let m := { m with vvNew, nNew := m.nNew - 1 }
  let m := m.setInfo nId { info with nRefCount }
  let m ← m.placeTried crypto rnd nId (info.GetTriedBucket crypto m.nKey) nOrigin
  some (m.setInfo nId { info with nRefCount, fInTried := true })

/-- The loop of `Good_`: a bucket that the id is in, from a random one on. -/
def bucketOf (m : CAddrMan) (nRnd nId : Nat) : Option Nat :=
  ((List.range m.vvNew.length).map fun n => (n + nRnd) % m.vvNew.length).find? fun nB =>
    (m.vvNew[nB]?).any fun vNew => vNew.contains nId

def Good_ (crypto : Crypto) (m : CAddrMan) (rnd : Nat → Nat) (addr : CService) (nTime : Int) :
    Option CAddrMan :=
  match m.Find addr.toCNetAddr with
  | none => some m
  | some (nId, info) =>
      if info.toCService ≠ addr then some m
      else
        let info :=
          { info with
            nLastSuccess := nTime, nLastTry := nTime, nTime := unsignedInt nTime, nAttempts := 0 }
        let m := m.setInfo nId info
        if info.fInTried then some m
        else
          match m.bucketOf (GetRandInt (rnd 0) m.vvNew.length) nId with
          | none => some m
          | some nUBucket => m.MakeTried crypto (fun i => rnd (i + 1)) info nId nUBucket

/-- The end of `Add_`: a reference in the bucket of the source. -/
def addRef (crypto : Crypto) (m : CAddrMan) (rnd : Nat → Nat) (now : Nat → Int)
    (nId : Nat) (info : CAddrInfo) (source : CNetAddr) : Option CAddrMan := do
  let nUBucket := info.GetNewBucket crypto m.nKey source
  let vNew ← m.vvNew[nUBucket]?
  if vNew.contains nId then some m
  else
    let m := m.setInfo nId { info with nRefCount := info.nRefCount + 1 }
    let m ←
      if vNew.size = ADDRMAN_NEW_BUCKET_SIZE then
        (m.ShrinkNew rnd now nUBucket).map Prod.fst
      else some m
    some (m.insertNew nUBucket nId)

/-- `nTime` and `nServices` of an address that is added again. -/
def refresh (info : CAddrInfo) (addr : CAddress) (nTimePenalty nNow : Int) : CAddrInfo :=
  let fCurrentlyOnline := nNow - addr.nTime < 24 * 60 * 60
  let nUpdateInterval : Int := if fCurrentlyOnline then 60 * 60 else 24 * 60 * 60
  let nTime :=
    if addr.nTime ≠ 0 ∧
        (info.nTime = 0 ∨ (info.nTime : Int) < addr.nTime - nUpdateInterval - nTimePenalty) then
      unsignedInt (max 0 (addr.nTime - nTimePenalty))
    else info.nTime
  { info with nTime, nServices := info.nServices ||| addr.nServices }

/-- The address of `Add_` is known already, and stays where it is. -/
def keepsRefs (info : CAddrInfo) (addr : CAddress) (r : Nat) : Bool :=
  decide (addr.nTime = 0 ∨ (info.nTime ≠ 0 ∧ addr.nTime ≤ info.nTime)) ||
    info.fInTried ||
    info.nRefCount == ADDRMAN_NEW_BUCKETS_PER_ADDRESS ||
    (decide (1 < 2 ^ info.nRefCount.toNat) &&
      GetRandInt r (2 ^ info.nRefCount.toNat) != 0)

def Add_ (crypto : Crypto) (m : CAddrMan) (rnd : Nat → Nat) (now : Nat → Int)
    (addr : CAddress) (source : CNetAddr) (nTimePenalty : Int) : Option (CAddrMan × Bool) :=
  if !addr.IsRoutable then some (m, false)
  else
    match m.Find addr.toCNetAddr with
    | some (nId, info) =>
        let info := refresh info addr nTimePenalty (now 0)
        let m := m.setInfo nId info
        if keepsRefs info addr (rnd 0) then some (m, false)
        else
          (m.addRef crypto (fun i => rnd (i + 1)) (fun i => now (i + 1)) nId info source).map
            fun m => (m, false)
    | none =>
        let (m, nId, info) := m.Create addr source
        let info :=
          { info with nTime := unsignedInt (max 0 ((info.nTime : Int) - nTimePenalty)) }
        let m := { m.setInfo nId info with nNew := m.nNew + 1 }
        (m.addRef crypto rnd now nId info source).map fun m => (m, true)

def Attempt_ (m : CAddrMan) (addr : CService) (nTime : Int) : CAddrMan :=
  match m.Find addr.toCNetAddr with
  | none => m
  | some (nId, info) =>
      if info.toCService ≠ addr then m
      else m.setInfo nId { info with nLastTry := nTime, nAttempts := info.nAttempts + 1 }

def Connected_ (m : CAddrMan) (addr : CService) (nTime : Int) : CAddrMan :=
  match m.Find addr.toCNetAddr with
  | none => m
  | some (nId, info) =>
      if info.toCService ≠ addr then m
      else if nTime - info.nTime > 20 * 60 then
        m.setInfo nId { info with nTime := unsignedInt nTime }
      else m

/-- The loop of `GetAddr_`. -/
def shuffle (m : CAddrMan) (rnd : Nat → Nat) :
    (k n : Nat) → Option (CAddrMan × List CAddress)
  | 0, _ => some (m, [])
  | k + 1, n => do
      let nRndPos := GetRandInt (rnd n) (m.vRandom.length - n) + n
      let m ← m.SwapRandom n nRndPos
      let nId ← m.vRandom[n]?
      let info ← m.mapInfo[nId]?
      let (m, vAddr) ← shuffle m rnd k (n + 1)
      some (m, info.toCAddress :: vAddr)

def GetAddr_ (m : CAddrMan) (rnd : Nat → Nat) : Option (CAddrMan × List CAddress) :=
  m.shuffle rnd
    (min (ADDRMAN_GETADDR_MAX_PCT * m.vRandom.length / 100) ADDRMAN_GETADDR_MAX) 0

/-! ### The consistency check -/

/-- The loop of `Check_` over the entries: which are tried, and the reference
counts of the others. -/
def checkInfos (m : CAddrMan) :
    List (Nat × CAddrInfo) → Std.TreeSet Nat → Std.TreeMap Nat Int →
      Except Int (Std.TreeSet Nat × Std.TreeMap Nat Int)
  | [], setTried, mapNew => .ok (setTried, mapNew)
  | (n, info) :: infos, setTried, mapNew => do
      if info.fInTried then
        if info.nLastSuccess = 0 then throw (-1)
        if info.nRefCount ≠ 0 then throw (-2)
      else
        if info.nRefCount < 0 ∨ info.nRefCount > ADDRMAN_NEW_BUCKETS_PER_ADDRESS then throw (-3)
        if info.nRefCount = 0 then throw (-4)
      if (m.mapAddr info.toCNetAddr).getD 0 ≠ n then throw (-5)
      if info.position.bind (fun pos => m.vRandom[pos]?) ≠ some n then throw (-14)
      if info.nLastTry < 0 then throw (-6)
      if info.nLastSuccess < 0 then throw (-8)
      if info.fInTried then m.checkInfos infos (setTried.insert n) mapNew
      else m.checkInfos infos setTried (mapNew.insert n info.nRefCount)

/-- The loop over the buckets of tried addresses. -/
def checkTried : List Nat → Std.TreeSet Nat → Except Int (Std.TreeSet Nat)
  | [], setTried => .ok setTried
  | n :: ns, setTried =>
      if setTried.contains n then checkTried ns (setTried.erase n) else .error (-11)

/-- The loop over the buckets of new addresses. -/
def checkNew : List Nat → Std.TreeMap Nat Int → Except Int (Std.TreeMap Nat Int)
  | [], mapNew => .ok mapNew
  | n :: ns, mapNew =>
      match mapNew[n]? with
      | none => .error (-12)
      | some count =>
          checkNew ns (if count - 1 = 0 then mapNew.erase n else mapNew.insert n (count - 1))

def checkAll (m : CAddrMan) : Except Int Unit := do
  if (m.vRandom.length : Int) ≠ m.nTried + m.nNew then throw (-7)
  let (setTried, mapNew) ← m.checkInfos m.mapInfo.toList ∅ ∅
  if (setTried.size : Int) ≠ m.nTried then throw (-9)
  if (mapNew.size : Int) ≠ m.nNew then throw (-10)
  let setTried ← checkTried m.vvTried.flatten setTried
  let mapNew ← checkNew (m.vvNew.flatMap Std.TreeSet.toList) mapNew
  if setTried.size ≠ 0 then throw (-13)
  if mapNew.size ≠ 0 then throw (-15)

/-- `Check_`: zero, or the number of what is wrong. -/
def Check_ (m : CAddrMan) : Int :=
  match m.checkAll with
  | .ok () => 0
  | .error err => err

end CAddrMan

/-! ### Calls -/

/-- A call, with the random numbers that it draws and the times that it reads. -/
inductive AddrManCall where
  | Add (rnd : Nat → Nat) (now : Nat → Int) (addr : CAddress) (source : CNetAddr)
      (nTimePenalty : Int)
  | Good (rnd : Nat → Nat) (addr : CService) (nTime : Int)
  | Attempt (addr : CService) (nTime : Int)
  | Connected (addr : CService) (nTime : Int)
  | GetAddr (rnd : Nat → Nat)

def AddrManCall.run (crypto : Crypto) (m : CAddrMan) : AddrManCall → Option CAddrMan
  | .Add rnd now addr source nTimePenalty =>
      (m.Add_ crypto rnd now addr source nTimePenalty).map Prod.fst
  | .Good rnd addr nTime => m.Good_ crypto rnd addr nTime
  | .Attempt addr nTime => some (m.Attempt_ addr nTime)
  | .Connected addr nTime => some (m.Connected_ addr nTime)
  | .GetAddr rnd => (m.GetAddr_ rnd).map Prod.fst

end Ziftrcoin.Spec
