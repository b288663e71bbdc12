/-
Module: Ziftrcoin.Spec.Chain
Purpose: The block index, chains of index entries with their block size
  limits and their locators, the order of candidates, and the difficulty rules.
Trusted boundary: human-reviewed model of CBlockIndex and CChain in src/main.h
  and of CBlockIndexWorkComparator, CChain::SetTip, CChain::GetLocator, CChain::FindFork,
  ComputeMinWork and GetNextWorkRequired in src/main.cpp
Main exports: CBlockIndex, BlockTree, CBlockIndexWorkComparator
-/
import Mathlib.Data.List.Sort
import Ziftrcoin.Spec.Validation

namespace Ziftrcoin.Spec

/-! ### Index entries -/

/-- Address of an index entry.  Entries are never freed, so the address is the
position in the list of all entries. -/
abbrev Ptr := Nat

/-- `nStatus`: the reached level of validity and the flags. -/
structure BlockStatus where
  valid : Nat
  haveData : Bool
  haveUndo : Bool
  failedValid : Bool
  failedChild : Bool
deriving Repr, DecidableEq, Inhabited

def BLOCK_VALID_TRANSACTIONS : Nat := 3
def BLOCK_VALID_SCRIPTS : Nat := 5

/-- `nStatus & BLOCK_FAILED_MASK`. -/
def BlockStatus.failed (nStatus : BlockStatus) : Bool :=
  nStatus.failedValid || nStatus.failedChild

/-- A block index entry with its hash.  The positions in the block files and
the transaction counts are left out. -/
structure CBlockIndex where
  hash : uint256
  pprev : Option Ptr
  nHeight : Nat
  nSize : Nat
  nChainSize : Nat
  nMatureCoinsSpent : Int
  nChainWork : Nat
  nStatus : BlockStatus
  nVersion : BitVec 32
  hashMerkleRoot : uint256
  nTime : Nat
  nBits : Nat
  nNonce : Nat
  nSequenceId : Nat
  nTimeReceived : Int
deriving Repr, DecidableEq, Inhabited

def CBlockIndex.IsPoKBlock (pindex : CBlockIndex) : Bool :=
  pindex.nVersion &&& POK_BOOL_MASK != 0

/-- All entries, oldest first. -/
abbrev BlockTree := List CBlockIndex

namespace BlockTree

/-- `mapBlockIndex.find`. -/
def find (tree : BlockTree) (hash : uint256) : Option Ptr :=
  tree.findIdx? fun pindex => pindex.hash == hash

/-- The entry behind a pointer that may be null. -/
def deref (tree : BlockTree) (pindex : Option Ptr) : Option CBlockIndex :=
  pindex.bind fun p => tree[p]?

/-- The predecessor of an entry. -/
def pprev (tree : BlockTree) (p : Ptr) : Option Ptr :=
  tree[p]?.bind CBlockIndex.pprev

/-- Hash of the predecessor, unless that is null. -/
def prevHash (tree : BlockTree) (pindex : CBlockIndex) : Option uint256 :=
  (tree.deref pindex.pprev).map CBlockIndex.hash

/-- The height of the entry for a hash, as `CheckInputs` reads it. -/
def heightOf (tree : BlockTree) (hash : uint256) : Option Nat :=
  (tree.deref (tree.find hash)).map CBlockIndex.nHeight

end BlockTree

/-! ### The order of candidates -/

def MATURE_COINS_TIEBREAKER_TIME_LIMIT : Int := 13000

/-- What the comparator reads of an entry. -/
structure WorkKey where
  nChainWork : Nat
  nHeight : Nat
  nTimeReceived : Int
  /-- Hash of `pprev`, unless that is null. -/
  prevHash : Option uint256
  nMatureCoinsSpent : Int
  nSequenceId : Nat
  address : Ptr
deriving Repr, DecidableEq, Inhabited

/-- Both blocks have the same predecessor and were received while mature coins
count. -/
def matureCoinsApply (mapFirstTimeSeen : Nat → Int) (a b : WorkKey) : Bool :=
  let nFirstSeen := mapFirstTimeSeen a.nHeight
  nFirstSeen != 0 && a.nTimeReceived != 0 && b.nTimeReceived != 0 &&
    a.prevHash.isSome && b.prevHash.isSome && a.prevHash == b.prevHash &&
    decide (int64 (a.nTimeReceived - nFirstSeen) <
      MATURE_COINS_TIEBREAKER_TIME_LIMIT) &&
    decide (int64 (b.nTimeReceived - nFirstSeen) <
      MATURE_COINS_TIEBREAKER_TIME_LIMIT)

/-- The last tie breakers: time of arrival, then address. -/
def compareArrival (a b : WorkKey) : Bool :=
  if a.nSequenceId < b.nSequenceId then false
  else if b.nSequenceId < a.nSequenceId then true
  else if a.address < b.address then false
  else if b.address < a.address then true
  else false

/-- `CBlockIndexWorkComparator`: `a` is a worse candidate than `b`. -/
def CBlockIndexWorkComparator (mapFirstTimeSeen : Nat → Int) (a b : WorkKey) :
    Bool :=
  if b.nChainWork < a.nChainWork then false
  else if a.nChainWork < b.nChainWork then true
  else if b.nHeight < a.nHeight then false
  else if a.nHeight < b.nHeight then true
  else if matureCoinsApply mapFirstTimeSeen a b then
    if b.nMatureCoinsSpent < a.nMatureCoinsSpent then false
    else if a.nMatureCoinsSpent < b.nMatureCoinsSpent then true
    else compareArrival a b
  else compareArrival a b

/-- The key of the entry at an address. -/
def BlockTree.workKey (tree : BlockTree) (p : Ptr) : WorkKey :=
  match tree[p]? with
  | none => { (default : WorkKey) with address := p }
  | some pindex =>
      { nChainWork := pindex.nChainWork, nHeight := pindex.nHeight,
        nTimeReceived := pindex.nTimeReceived,
        prevHash := tree.prevHash pindex,
        nMatureCoinsSpent := pindex.nMatureCoinsSpent,
        nSequenceId := pindex.nSequenceId, address := p }

/-! ### Chains -/

def MAX_BLOCK_SIZE_RECALC_PERIOD : Nat := 60 * 24 * 365 / 4

/-- `CChain`.  `vChain` has null pointers only while `SetTip` fills it. -/
structure CChain where
  vChain : List (Option Ptr)
  mapBlockSizeLimits : Nat → Option Nat
  nTotalCoinsCreated : Int

namespace CChain

/-- The limits before any period is over. -/
def initialLimits : Nat → Option Nat :=
  fun nHeight => if nHeight = 0 then some MIN_MAX_BLOCK_SIZE else none

def empty : CChain :=
  { vChain := [], mapBlockSizeLimits := initialLimits, nTotalCoinsCreated := 0 }

def Tip (chain : CChain) : Option Ptr := (chain.vChain.getLast?).join

/-- `operator[]`. -/
def atHeight (chain : CChain) (nHeight : Nat) : Option Ptr :=
  (chain.vChain[nHeight]?).join

def Contains (tree : BlockTree) (chain : CChain) (p : Ptr) : Bool :=
  match tree[p]? with
  | none => false
  | some pindex => chain.atHeight pindex.nHeight == some p

/-- `Height()`, which is -1 for an empty chain. -/
def Height (chain : CChain) : Int := (chain.vChain.length : Int) - 1

def MaxBlockSize (chain : CChain) (nHeight : Nat) : Nat :=
  (chain.mapBlockSizeLimits
    (nHeight - nHeight % MAX_BLOCK_SIZE_RECALC_PERIOD)).getD MIN_MAX_BLOCK_SIZE

def TipMaxBlockSize (chain : CChain) : Nat :=
  chain.MaxBlockSize chain.vChain.length

/-- `vChain.resize`. -/
def resize (vChain : List (Option Ptr)) (n : Nat) : List (Option Ptr) :=
  vChain.take n ++ List.replicate (n - vChain.length) none

/-- `GetBlockValue` of an entry without fees. -/
def coinsCreated (cfg : Config) (tree : BlockTree) (p : Ptr) : Int :=
  match tree[p]? with
  | none => 0
  | some pindex => cfg.GetBlockValue pindex.nHeight 0 pindex.IsPoKBlock

/-- The loop of `SetTip` that fills the vector downwards until it meets the
old chain, and keeps the total of coins. -/
def fillDown (cfg : Config) (tree : BlockTree) : (fuel : Nat) → Option Ptr →
    List (Option Ptr) → Int → List (Option Ptr) × Int
  | 0, _, vChain, nTotal => (vChain, nTotal)
  | _ + 1, none, vChain, nTotal => (vChain, nTotal)
  | fuel + 1, some p, vChain, nTotal =>
      match tree[p]? with
      | none => (vChain, nTotal)
      | some pindex =>
          if vChain[pindex.nHeight]? = some (some p) then (vChain, nTotal)
          else
            let nTotal := match vChain[pindex.nHeight]? with
              | some (some q) =>
                  -- The block that is replaced, valued at the height of the new one.
                  int64 (nTotal - cfg.GetBlockValue pindex.nHeight 0
                    ((tree[q]?.map CBlockIndex.IsPoKBlock).getD false))
              | _ => nTotal
            let nTotal := int64 (nTotal + coinsCreated cfg tree p)
            fillDown cfg tree fuel pindex.pprev
              (vChain.set pindex.nHeight (some p)) nTotal

/-- Sizes of the blocks of a period. -/
def blockSizes (tree : BlockTree) (chain : CChain) (nFirstHeight : Nat) :
    List Nat :=
  (List.range MAX_BLOCK_SIZE_RECALC_PERIOD).map fun i =>
    ((tree.deref (chain.atHeight (nFirstHeight + i))).map CBlockIndex.nSize).getD 0

/-- The limit for the period after the one that ends with `pStart`. -/
def nextLimit (tree : BlockTree) (chain : CChain) (pStart : CBlockIndex) :
    Nat :=
  let nFirstHeight :=
    pStart.nHeight - pStart.nHeight % MAX_BLOCK_SIZE_RECALC_PERIOD
  let begin := (tree.deref (chain.atHeight nFirstHeight)).getD default
  let nPrevLimit := chain.MaxBlockSize pStart.nHeight
  let nAverageSize := uint32 ((pStart.nChainSize - begin.nChainSize +
    begin.nSize) / MAX_BLOCK_SIZE_RECALC_PERIOD)
  let nNewLimit :=
    if uint32 (2 * nPrevLimit) < uint32 (3 * nAverageSize) then
      let sizes := (blockSizes tree chain nFirstHeight).insertionSort (· ≤ ·)
      let nMedianSize := sizes.getD (MAX_BLOCK_SIZE_RECALC_PERIOD / 2) 0
      -- At most ten per cent more every three months.
      if nPrevLimit < uint32 (nMedianSize * 2) then
        uint32 (11 * nPrevLimit) / 10
      else nPrevLimit
    else nPrevLimit
  max (max nNewLimit nPrevLimit) MIN_MAX_BLOCK_SIZE

/-- The loop of `SetTip` over the ends of periods, from the height `nStart`. -/
def updateLimits (tree : BlockTree) (nTipHeight : Nat) : (fuel : Nat) →
    (nStart : Nat) → CChain → CChain
  | 0, _, chain => chain
  | fuel + 1, nStart, chain =>
      match tree.deref (chain.atHeight nStart) with
      | none => chain
      | some pStart =>
          let fNew := (pStart.nHeight + 1) % MAX_BLOCK_SIZE_RECALC_PERIOD == 0 &&
            (chain.mapBlockSizeLimits (pStart.nHeight + 1)).getD 0 == 0
          let chain := if fNew then
              { chain with
                mapBlockSizeLimits := Function.update chain.mapBlockSizeLimits
                  (pStart.nHeight + 1) (some (nextLimit tree chain pStart)) }
            else chain
          let nNext := min (pStart.nHeight + MAX_BLOCK_SIZE_RECALC_PERIOD)
            nTipHeight
          if nNext = nStart then chain
          else updateLimits tree nTipHeight fuel nNext chain

/-- `SetTip`.  The limits are kept for the active chain only. -/
def SetTip (cfg : Config) (tree : BlockTree) (fActive : Bool) (chain : CChain)
    (pindex : Option Ptr) : CChain :=
  match pindex, tree.deref pindex with
  | some p, some tip =>
      let (vChain, nTotalCoinsCreated) := fillDown cfg tree (tip.nHeight + 1)
        (some p) (resize chain.vChain (tip.nHeight + 1))
        chain.nTotalCoinsCreated
      let chain := { chain with vChain, nTotalCoinsCreated }
      if fActive then
        let chain :=
          { chain with
            mapBlockSizeLimits := fun nHeight =>
              if 1 + tip.nHeight < nHeight then none
              else chain.mapBlockSizeLimits nHeight }
        updateLimits tree tip.nHeight
          (tip.nHeight / MAX_BLOCK_SIZE_RECALC_PERIOD + 2)
          (min tip.nHeight (MAX_BLOCK_SIZE_RECALC_PERIOD - 1)) chain
      else chain
  | _, _ => empty

end CChain

/-! ### Times and difficulty -/

def nMedianTimeSpan : Nat := 11

/-- Times of an entry and its predecessors, at most `fuel` of them. -/
def pastTimes (tree : BlockTree) : (fuel : Nat) → Option Ptr → List Nat
  | 0, _ => []
  | fuel + 1, pindex =>
      match tree.deref pindex with
      | none => []
      | some entry => entry.nTime :: pastTimes tree fuel entry.pprev

def GetMedianTimePast (tree : BlockTree) (p : Ptr) : Nat :=
  let times := (pastTimes tree nMedianTimeSpan (some p)).insertionSort (· ≤ ·)
  times.getD (times.length / 2) 0

def RETARGET_INTERVAL : Nat := 4
def TARGET_SPACING : Int := 60
def TARGET_TIMESPAN : Int := 240

namespace Config

def TestNet (cfg : Config) : Bool := cfg.NetworkID == .TESTNET

/-- `GetLastCheckpoint`: the latest checkpoint that is in the index. -/
def GetLastCheckpoint (cfg : Config) (tree : BlockTree) : Option CBlockIndex :=
  if cfg.fCheckpoints = false then none
  else cfg.mapCheckpoints.reverse.findSome? fun i => tree.deref (tree.find i.2)

end Config

/-- The loop of `ComputeMinWork`; it ends because the time runs out. -/
def minWorkLoop (bnLimit : Int) : (fuel : Nat) → (nTime bnResult : Int) → Int
  | 0, _, bnResult => bnResult
  | fuel + 1, nTime, bnResult =>
      if 0 < nTime ∧ bnResult < bnLimit then
        minWorkLoop bnLimit fuel (nTime - 360)
          ((bnResult * 360).tdiv TARGET_TIMESPAN)
      else bnResult

def ComputeMinWork (cfg : Config) (nBase : Nat) (nTime : Int) : Nat :=
  if cfg.TestNet ∧ TARGET_SPACING * 2 < nTime then
    GetCompact cfg.ProofOfWorkLimit
  else
    let bnResult := minWorkLoop cfg.ProofOfWorkLimit nTime.toNat nTime
      (SetCompact nBase)
    GetCompact (if cfg.ProofOfWorkLimit < bnResult then cfg.ProofOfWorkLimit
      else bnResult)

/-- The entry `n` steps back. -/
def stepsBack (tree : BlockTree) : (n : Nat) → Option Ptr → Option Ptr
  | 0, pindex => pindex
  | n + 1, pindex => stepsBack tree n (pindex.bind tree.pprev)

/-- The search for the last block without the special rule of the test
network. -/
def lastNormalBits (tree : BlockTree) (nProofOfWorkLimit : Nat) :
    (fuel : Nat) → CBlockIndex → Nat
  | 0, pindex => pindex.nBits
  | fuel + 1, pindex =>
      match tree.deref pindex.pprev with
      | none => pindex.nBits
      | some prev =>
          if pindex.nHeight % RETARGET_INTERVAL ≠ 1 ∧
              pindex.nBits = nProofOfWorkLimit then
            lastNormalBits tree nProofOfWorkLimit fuel prev
          else pindex.nBits

/-- `GetNextWorkRequired` after the entry `pindexLast`. -/
def GetNextWorkRequired (cfg : Config) (tree : BlockTree) (pLast : Ptr)
    (nBlockTime : Int) : Run Nat :=
  let nProofOfWorkLimit := GetCompact cfg.ProofOfWorkLimit
  match tree[pLast]? with
  | none => .ok nProofOfWorkLimit
  | some pindexLast =>
      if pindexLast.nHeight = 0 then .ok nProofOfWorkLimit
      else if pindexLast.nHeight % RETARGET_INTERVAL ≠ 0 then
        if cfg.TestNet then
          if (pindexLast.nTime : Int) + TARGET_SPACING * 2 < nBlockTime then
            .ok nProofOfWorkLimit
          else
            .ok (lastNormalBits tree nProofOfWorkLimit
              (pindexLast.nHeight + 1) pindexLast)
        else .ok pindexLast.nBits
      else
        match tree.deref (stepsBack tree RETARGET_INTERVAL (some pLast)) with
        | none => Run.crash .blockIndex
        | some pindexFirst =>
            let nActualTimespan : Int :=
              (pindexLast.nTime : Int) - (pindexFirst.nTime : Int)
            let nActualTimespan := max nActualTimespan 180
            let nActualTimespan := min nActualTimespan 360
            let bnNew := (SetCompact pindexLast.nBits * nActualTimespan).tdiv
              TARGET_TIMESPAN
            .ok (GetCompact (if cfg.ProofOfWorkLimit < bnNew
              then cfg.ProofOfWorkLimit else bnNew))

/-! ### Locators -/

namespace CChain

/-- The inner loop of `GetLocator`: go back to the height, or until the block is
in the chain.  `none` is a null pointer that is dereferenced. -/
def walkBack (tree : BlockTree) (chain : CChain) (nHeight : Int) :
    (fuel : Nat) → Option Ptr → Option Ptr
  | 0, _ => none
  | _ + 1, none => none
  | fuel + 1, some p =>
      match tree[p]? with
      | none => none
      | some pindex =>
          if nHeight < pindex.nHeight ∧ chain.Contains tree p = false then
            walkBack tree chain nHeight fuel pindex.pprev
          else some p

/-- The next block of the locator, after the inner loop: in this chain by its
height.  The inner `none` is a null pointer, which ends the outer loop. -/
def locatorStep (tree : BlockTree) (chain : CChain) (nHeight : Int) (p : Ptr)
    (fuel : Nat) : Option (Option Ptr) :=
  match walkBack tree chain nHeight fuel (some p) with
  | none => none
  | some p =>
      match tree[p]? with
      | none => none
      | some pindex =>
          if nHeight < pindex.nHeight then some (chain.atHeight nHeight.toNat)
          else some (some p)

/-- The outer loop of `GetLocator`. -/
def locatorLoop (tree : BlockTree) (chain : CChain) : (fuel : Nat) →
    Option Ptr → (nStep : Int) → (vHave : List uint256) → Option (List uint256)
  | 0, _, _, _ => none
  | _ + 1, none, _, vHave => some vHave
  | fuel + 1, some p, nStep, vHave =>
      match tree[p]? with
      | none => none
      | some pindex =>
          let vHave := vHave ++ [pindex.hash]
          if pindex.nHeight = 0 then some vHave
          else
            let nHeight := max (int32 (pindex.nHeight - nStep)) 0
            match locatorStep tree chain nHeight p (fuel + 1) with
            | none => none
            | some p =>
                locatorLoop tree chain fuel p
                  (if 10 < vHave.length then int32 (nStep * 2) else nStep) vHave

/-- `GetLocator`, by default from the tip. -/
def GetLocator (fuel : Nat) (tree : BlockTree) (chain : CChain)
    (pindex : Option Ptr) : Option (List uint256) :=
  locatorLoop tree chain fuel (pindex.or chain.Tip) 1 []

/-- `FindFork`: the first block of the locator that is in this chain. -/
def FindFork (tree : BlockTree) (chain : CChain) : (locator : List uint256) →
    Option Ptr
  | [] => chain.atHeight 0
  | hash :: vHave =>
      match tree.find hash with
      | none => FindFork tree chain vHave
      | some p =>
          if chain.Contains tree p then some p else FindFork tree chain vHave

end CChain

end Ziftrcoin.Spec
