/-
Module: Ziftrcoin.Spec.Node
Purpose: The state of a node and what changes it: connecting and disconnecting
  the tip, choosing and activating the best chain, and receiving blocks and
  transactions.
Trusted boundary: human-reviewed model of DisconnectTip, ConnectTip,
  FindMostWorkChain, ActivateBestChain, CountMatureCoins, AddToBlockIndex,
  AcceptBlock, ProcessBlock and InitBlockIndex in src/main.cpp
Main exports: NodeState, Node, DisconnectTip
-/
import Ziftrcoin.Lib.Machine
import Ziftrcoin.Lib.Ranking
import Ziftrcoin.Spec.Chain
import Ziftrcoin.Spec.MemPool

namespace Ziftrcoin.Spec

open Ziftrcoin.Lib

/-! ### The state -/

/-- What one look at the world outside shows. -/
structure Tick where
  /-- `GetAdjustedTime()`. -/
  nAdjustedTime : Int
  /-- `GetTimeMillis()`. -/
  nTimeMillis : Int
  /-- `WriteChainState` finds it time to flush the coins. -/
  fFlush : Bool
  /-- The rate limiter for free transactions is exhausted. -/
  fRateLimited : Bool
  /-- `insecure_rand()`. -/
  nRand : Nat
deriving Repr, DecidableEq, Inhabited

/-- A block whose predecessor is not known. -/
structure COrphanBlock where
  hashBlock : uint256
  hashPrev : uint256
  block : CBlock
deriving Repr, DecidableEq, Inhabited

/-- The globals of `main.cpp`.  Writing to disk and reading back succeeds, so
the files are part of the state. -/
structure NodeState where
  mapBlockIndex : BlockTree
  /-- The block files: the block of each entry. -/
  blockFiles : List CBlock
  /-- The undo files: the record of each entry that has one. -/
  undoFiles : Ptr → Option CBlockUndo
  chainActive : CChain
  chainMostWork : CChain
  /-- The members in no particular order. -/
  setBlockIndexValid : List Ptr
  pindexBestInvalid : Option Ptr
  mapFirstTimeSeen : Nat → Int
  nBlockSequenceId : Nat
  pcoinsTip : CCoinsViewCache
  mempool : CTxMemPool
  mapOrphanBlocks : List COrphanBlock
  /-- What the world outside will show, the next look first. -/
  ticks : Nat → Tick

/-- The state after a look at the world outside. -/
def NodeState.ticked (s : NodeState) : NodeState :=
  { s with ticks := fun n => s.ticks (n + 1) }

abbrev Node := Machine NodeState CValidationState Fault

namespace Node

/-- A look at the world outside. -/
def tick : Node Tick := fun s => .done (s.ticks 0) s.ticked

/-- A call that does not change the state. -/
def ofRun {α : Type} : Run α → Node α
  | .ok a => pure a
  | .error (.reject state) => Machine.refuse state
  | .error (.fault e) => Machine.fault e

def crash {α : Type} (site : Site) : Node α := Machine.fault (.crash site)

/-- A pointer that is read without a check. -/
def deref (pindex : Option Ptr) : Node CBlockIndex := do
  let s ← Machine.get
  match s.mapBlockIndex.deref pindex with
  | none => crash .blockIndex
  | some entry => pure entry

end Node

namespace NodeState

/-- The comparator on addresses. -/
def worse (s : NodeState) (p q : Ptr) : Bool :=
  CBlockIndexWorkComparator s.mapFirstTimeSeen (s.mapBlockIndex.workKey p)
    (s.mapBlockIndex.workKey q)

/-- `setBlockIndexValid.rbegin()`. -/
def rbegin (s : NodeState) : Option Ptr := best s.worse s.setBlockIndexValid

def erase (s : NodeState) (p : Ptr) : NodeState :=
  { s with setBlockIndexValid := s.setBlockIndexValid.erase p }

/-- Change the flags of an entry. -/
def setStatus (s : NodeState) (p : Ptr) (f : BlockStatus → BlockStatus) :
    NodeState :=
  { s with
    mapBlockIndex := s.mapBlockIndex.modify p fun pindex =>
      { pindex with nStatus := f pindex.nStatus } }

/-- `ReadBlockFromDisk`. -/
def readBlock (s : NodeState) (p : Ptr) : CBlock := s.blockFiles.getD p default

/-- What connecting or disconnecting an entry reads. -/
def blockContext (s : NodeState) (pindex : CBlockIndex) (nAdjustedTime : Int) :
    BlockContext :=
  { hash := pindex.hash
    hashPrev := s.mapBlockIndex.prevHash pindex
    nHeight := pindex.nHeight
    nMaxBlockSize := s.chainActive.MaxBlockSize pindex.nHeight
    prevHeight := s.mapBlockIndex.heightOf
    nAdjustedTime }

/-- What accepting a loose transaction reads. -/
def poolContext (s : NodeState) (t : Tick) : PoolContext :=
  { chainHeight := s.chainActive.Height
    nAdjustedTime := t.nAdjustedTime
    prevHeight := s.mapBlockIndex.heightOf
    coinsTip := s.pcoinsTip
    fRateLimited := t.fRateLimited }

end NodeState

/-! ### Loose transactions -/

/-- `AcceptToMemoryPool` on the node's own pool. -/
def acceptTransaction (cfg : Config) (tx : CTransaction)
    (fLimitFree fRejectInsaneFee : Bool) : Node Unit := do
  let t ← Node.tick
  let s ← Machine.get
  let pool ← Node.ofRun (AcceptToMemoryPool cfg (s.poolContext t) s.mempool tx
    fLimitFree fRejectInsaneFee)
  Machine.modify fun s => { s with mempool := pool }

/-- `mempool.remove`, without the list of what was removed. -/
def removeTransaction (cfg : Config) (tx : CTransaction) (fRecursive : Bool) :
    Node Unit := do
  let s ← Machine.get
  let acc ← Node.ofRun (CTxMemPool.remove cfg.crypto s.mempool.removeFuel tx
    fRecursive (s.mempool, []))
  Machine.modify fun s => { s with mempool := acc.1 }

/-- `mempool.removeConflicts`. -/
def removeConflicting (cfg : Config) (tx : CTransaction) : Node Unit := do
  let s ← Machine.get
  let acc ← Node.ofRun (CTxMemPool.removeConflicts cfg.crypto tx (s.mempool, []))
  Machine.modify fun s => { s with mempool := acc.1 }

/-! ### The tip of the active chain -/

/-- `WriteChainState`. -/
def WriteChainState : Node Unit := do
  let t ← Node.tick
  if t.fFlush then
    Machine.modify fun s => { s with pcoinsTip := s.pcoinsTip.Flush }

/-- `UpdateTip`. -/
def UpdateTip (cfg : Config) (pindexNew : Option Ptr) : Node Unit :=
  Machine.modify fun s =>
    { s with
      chainActive := s.chainActive.SetTip cfg s.mapBlockIndex true pindexNew }

/-- A transaction of a disconnected block goes back to the pool, or takes what
depends on it out of the pool. -/
def resurrect (cfg : Config) (tx : CTransaction) : Node Unit := do
  if tx.IsCoinBase = false then
    let accepted ← Machine.attempt (acceptTransaction cfg tx false false)
    match accepted with
    | .ok () => pure ()
    | .error _ => removeTransaction cfg tx true

/-- `DisconnectTip`. -/
def DisconnectTip (cfg : Config) : Node Unit := do
  let s ← Machine.get
  match s.chainActive.Tip with
  | none => Node.crash .DisconnectTip_tip
  | some p =>
      let pindexDelete ← Node.deref (some p)
      let block := s.readBlock p
      let (view, fClean) ← Node.ofRun (DisconnectBlock cfg.crypto
        (s.blockContext pindexDelete 0) block (s.undoFiles p) s.pcoinsTip)
      if fClean = false then
        Machine.refuse .initial
      Machine.modify fun s => { s with pcoinsTip := view }
      WriteChainState
      block.vtx.forM (resurrect cfg)
      UpdateTip cfg pindexDelete.pprev

/-- `InvalidChainFound`.  The log names the tip of the active chain. -/
def InvalidChainFound (p : Ptr) : Node Unit := do
  let s ← Machine.get
  let pindexNew ← Node.deref (some p)
  let best := s.mapBlockIndex.deref s.pindexBestInvalid
  if best.all fun b => b.nChainWork < pindexNew.nChainWork then
    Machine.modify fun s => { s with pindexBestInvalid := some p }
  let _ ← Node.deref s.chainActive.Tip

/-- `InvalidBlockFound`. -/
def InvalidBlockFound (p : Ptr) (state : CValidationState) : Node Unit := do
  if state.CorruptionPossible = false then
    Machine.modify fun s =>
      (s.setStatus p fun nStatus => { nStatus with failedValid := true }).erase p
    InvalidChainFound p

/-- The part of `ConnectBlock` that writes: an entry gets an undo record the
first time it is connected; the genesis block has none. -/
def writeUndo (cfg : Config) (p : Ptr) (pindex : CBlockIndex)
    (vtxundo : CBlockUndo) : Node Unit := do
  let s ← Machine.get
  if ((s.undoFiles p).isNone ∨ pindex.nStatus.valid < BLOCK_VALID_SCRIPTS) ∧
      (s.readBlock p).GetHash cfg.crypto ≠ cfg.HashGenesisBlock then
    Machine.modify fun s =>
      if (s.undoFiles p).isNone then
        { s.setStatus p fun nStatus => { nStatus with haveUndo := true } with
          undoFiles := Function.update s.undoFiles p
            (some (vtxundo.map fun txundo => txundo.map CTxInUndo.readBack)) }
      else s
    Machine.modify fun s =>
      s.setStatus p fun nStatus => { nStatus with valid := BLOCK_VALID_SCRIPTS }

/-- `ConnectTip`. -/
def ConnectTip (cfg : Config) (p : Ptr) : Node Unit := do
  let s ← Machine.get
  let pindexNew ← Node.deref (some p)
  if pindexNew.pprev ≠ s.chainActive.Tip then
    Node.crash .ConnectTip_prev
  let block := s.readBlock p
  let t ← Node.tick
  match ConnectBlock cfg (s.blockContext pindexNew t.nAdjustedTime) block
      s.pcoinsTip false with
  | .error (.fault e) => Machine.fault e
  | .error (.reject state) =>
      if state.IsInvalid then
        InvalidBlockFound p state
      Machine.refuse state
  | .ok (view, vtxundo) =>
      writeUndo cfg p pindexNew vtxundo
      Machine.modify fun s => { s with pcoinsTip := view }
      WriteChainState
      block.vtx.forM fun tx => do
        removeTransaction cfg tx false
        removeConflicting cfg tx
      UpdateTip cfg (some p)

/-! ### Choosing the chain -/

/-- `chainMostWork.SetTip`. -/
def setMostWork (cfg : Config) (pindexNew : Option Ptr) : Node Unit :=
  Machine.modify fun s =>
    { s with
      chainMostWork := s.chainMostWork.SetTip cfg s.mapBlockIndex false pindexNew }

/-- The first loop of `FindMostWorkChain`: leave the tip of `chainMostWork`
while it is marked as failed. -/
def dropFailedTips (cfg : Config) : (fuel : Nat) → Node Unit
  | 0 => Machine.fault .outOfFuel
  | fuel + 1 => do
      let s ← Machine.get
      match s.chainMostWork.Tip, s.mapBlockIndex.deref s.chainMostWork.Tip with
      | some p, some tip =>
          if tip.nStatus.failed then
            Machine.modify fun s => s.erase p
            setMostWork cfg tip.pprev
            dropFailedTips cfg fuel
      | _, _ => pure ()

/-- The failed entry that a walk down from `pindexTest` to the active chain
meets first. -/
def findFailed (s : NodeState) : (fuel : Nat) → (pindexTest : Option Ptr) →
    Run (Option Ptr)
  | 0, _ => Run.outOfFuel
  | fuel + 1, pindexTest =>
      match pindexTest, s.mapBlockIndex.deref pindexTest with
      | some p, some entry =>
          if s.chainActive.Contains s.mapBlockIndex p then .ok none
          else if entry.nStatus.failed then .ok (some p)
          else findFailed s fuel entry.pprev
      | _, _ => .ok none

/-- Mark the entries from `pindexFailed` down to `pindexTest` as failed, the
last one excepted, and take them out of the set. -/
def markFailedChildren (pindexTest : Ptr) : (fuel : Nat) →
    (pindexFailed : Option Ptr) → Node Unit
  | 0, _ => Machine.fault .outOfFuel
  | fuel + 1, pindexFailed => do
      if pindexFailed = some pindexTest then
        pure ()
      else
        match pindexFailed with
        | none => Node.crash .blockIndex
        | some p =>
            let entry ← Node.deref (some p)
            Machine.modify fun s =>
              (s.setStatus p fun nStatus =>
                { nStatus with failedChild := true }).erase p
            markFailedChildren pindexTest fuel entry.pprev

/-- The second loop of `FindMostWorkChain`: the best candidate without a failed
predecessor above the active chain, if there is one. -/
def findCandidate : (fuel : Nat) → Node (Option Ptr)
  | 0 => Machine.fault .outOfFuel
  | fuel + 1 => do
      let s ← Machine.get
      match s.rbegin with
      | none => pure none
      | some pindexNew =>
          let entry ← Node.deref (some pindexNew)
          let failed ← Node.ofRun (findFailed s (entry.nHeight + 2)
            (some pindexNew))
          match failed with
          | none => pure (some pindexNew)
          | some pindexTest =>
              let best := s.mapBlockIndex.deref s.pindexBestInvalid
              if best.all fun b => b.nChainWork < entry.nChainWork then
                Machine.modify fun s =>
                  { s with pindexBestInvalid := some pindexNew }
              markFailedChildren pindexTest (entry.nHeight + 2) (some pindexNew)
              findCandidate fuel

/-- `FindMostWorkChain`. -/
def FindMostWorkChain (cfg : Config) : Node Unit := do
  let s ← Machine.get
  dropFailedTips cfg (s.chainMostWork.vChain.length + 1)
  let s ← Machine.get
  let candidate ← findCandidate (s.setBlockIndexValid.length + 1)
  match candidate with
  | none => pure ()
  | some pindexNew =>
      let s ← Machine.get
      -- Check whether it is actually an improvement.
      match s.chainMostWork.Tip with
      | none => setMostWork cfg (some pindexNew)
      | some tip =>
          if s.worse tip pindexNew then
            setMostWork cfg (some pindexNew)

/-- Disconnect active blocks which are no longer in the best chain. -/
def disconnectLoop (cfg : Config) : (fuel : Nat) → Node Unit
  | 0 => Machine.fault .outOfFuel
  | fuel + 1 => do
      let s ← Machine.get
      match s.chainActive.Tip with
      | none => pure ()
      | some tip =>
          if s.chainMostWork.Contains s.mapBlockIndex tip = false then
            DisconnectTip cfg
            disconnectLoop cfg fuel

/-- Connect new blocks; the result is `fComplete`. -/
def connectLoop (cfg : Config) (tip : Ptr) : (fuel : Nat) → Node Bool
  | 0 => Machine.fault .outOfFuel
  | fuel + 1 => do
      let s ← Machine.get
      if s.chainActive.Contains s.mapBlockIndex tip then
        return true
      match s.chainMostWork.atHeight s.chainActive.vChain.length with
      | none => Node.crash .chainMostWork
      | some pindexConnect =>
          let connected ← Machine.attempt (ConnectTip cfg pindexConnect)
          match connected with
          | .ok () => connectLoop cfg tip fuel
          | .error state =>
              if state.IsInvalid then
                if state.CorruptionPossible = false then
                  InvalidChainFound tip
                return false
              else
                Machine.refuse state

/-- One round of the loop of `ActivateBestChain`; the result is
`fComplete`. -/
def activateRound (cfg : Config) : Node Bool := do
  FindMostWorkChain cfg
  let s ← Machine.get
  match s.chainMostWork.Tip with
  | none => return true
  | some tip =>
      disconnectLoop cfg (s.chainActive.vChain.length + 1)
      connectLoop cfg tip (s.chainMostWork.vChain.length + 1)

/-- `ActivateBestChain`, for at most `fuel` rounds. -/
def ActivateBestChain (cfg : Config) : (fuel : Nat) → Node Unit
  | 0 => Machine.fault .outOfFuel
  | fuel + 1 => do
      let fComplete ← activateRound cfg
      if fComplete = false then
        ActivateBestChain cfg fuel

/-! ### New blocks -/

def TRANSACTION_MATURITY_DEPTH : Int := 720

/-- The loop of `CountMatureCoins` over the inputs.  The output is read
without a check. -/
def matureCoinsFrom (view : CCoinsViewCache) (nHeight : Nat) :
    (nMatureCoinsSpent : Int) → List CTxIn → Run Int
  | nMatureCoinsSpent, [] => .ok nMatureCoinsSpent
  | nMatureCoinsSpent, txin :: rest =>
      match view.coins txin.prevout.hash with
      | none => matureCoinsFrom view nHeight nMatureCoinsSpent rest
      | some coins =>
          let nConf : Int := (nHeight : Int) - coins.nHeight + 1
          if TRANSACTION_MATURITY_DEPTH ≤ nConf then do
            let txout ← Run.get .CountMatureCoins_vout coins.vout txin.prevout.n
            matureCoinsFrom view nHeight
              (int64 (nMatureCoinsSpent + txout.nValue)) rest
          else matureCoinsFrom view nHeight nMatureCoinsSpent rest

/-- The inputs that `CountMatureCoins` goes through. -/
def inputsAfterFirst (block : CBlock) : List CTxIn :=
  block.vtx.tail.flatMap CTransaction.vin

/-- The coins are counted only for a block on the tip of the active chain or
on the one before it. -/
def nearTip (s : NodeState) (hashPrevBlock : uint256) : Bool :=
  let tip := s.mapBlockIndex.deref s.chainActive.Tip
  let tipprev := s.mapBlockIndex.deref (tip.bind CBlockIndex.pprev)
  (tip.any fun t => t.hash == hashPrevBlock) ||
    tipprev.any fun t => t.hash == hashPrevBlock

/-- `CountMatureCoins` for an entry at height `nHeight` after `pprev`: the
value that `nMatureCoinsSpent` gets. -/
def CountMatureCoins (s : NodeState) (block : CBlock) (pprev : Option Ptr)
    (nHeight : Nat) : Run Int :=
  let hashPrevBlock :=
    ((s.mapBlockIndex.deref pprev).map CBlockIndex.hash).getD 0
  if nearTip s hashPrevBlock then
    matureCoinsFrom s.pcoinsTip nHeight 0 (inputsAfterFirst block)
  else .ok 0

/-- The entry that `AddToBlockIndex` makes of a block. -/
def newEntry (cfg : Config) (s : NodeState) (block : CBlock)
    (nTimeReceived nMatureCoinsSpent : Int) : CBlockIndex :=
  let pprev := s.mapBlockIndex.find block.hashPrevBlock
  let prev := s.mapBlockIndex.deref pprev
  let nSize := block.GetSerializeSize
  { hash := block.GetHash cfg.crypto
    pprev
    nHeight := (prev.map fun q => q.nHeight + 1).getD 0
    nSize
    nChainSize := (prev.map CBlockIndex.nChainSize).getD 0 + nSize
    nMatureCoinsSpent
    nChainWork := ((prev.map CBlockIndex.nChainWork).getD 0 +
      block.GetBlockWork) % 2 ^ 256
    nStatus :=
      { valid := BLOCK_VALID_TRANSACTIONS, haveData := true, haveUndo := false,
        failedValid := false, failedChild := false }
    nVersion := block.nVersion
    hashMerkleRoot := block.hashMerkleRoot
    nTime := block.nTime
    nBits := block.nBits
    nNonce := block.nNonce
    nSequenceId := s.nBlockSequenceId
    nTimeReceived }

/-- The state with a new entry. -/
def addEntry (s : NodeState) (block : CBlock) (pindexNew : CBlockIndex) :
    NodeState :=
  { s with
    mapBlockIndex := s.mapBlockIndex ++ [pindexNew]
    blockFiles := s.blockFiles ++ [block.readBack]
    nBlockSequenceId := uint32 (s.nBlockSequenceId + 1)
    mapFirstTimeSeen :=
      if s.mapFirstTimeSeen pindexNew.nHeight = 0 then
        Function.update s.mapFirstTimeSeen pindexNew.nHeight
          pindexNew.nTimeReceived
      else s.mapFirstTimeSeen
    setBlockIndexValid := s.mapBlockIndex.length :: s.setBlockIndexValid }

/-- `AddToBlockIndex`. -/
def AddToBlockIndex (cfg : Config) (fuel : Nat) (block : CBlock) :
    Node Unit := do
  let s ← Machine.get
  if (s.mapBlockIndex.find (block.GetHash cfg.crypto)).isSome then
    Machine.refuse (.Invalid .none "duplicate")
  let t ← Node.tick
  let s ← Machine.get
  let pprev := s.mapBlockIndex.find block.hashPrevBlock
  let nHeight := (newEntry cfg s block 0 0).nHeight
  let nMatureCoinsSpent ← Node.ofRun (CountMatureCoins s block pprev nHeight)
  Machine.modify fun s =>
    addEntry s block (newEntry cfg s block t.nTimeMillis nMatureCoinsSpent)
  ActivateBestChain cfg fuel
  let s' ← Machine.get
  if s'.chainActive.Tip = some s.mapBlockIndex.length then
    -- The user interface hears of the coinbase.
    let _ ← Node.ofRun (block.GetTxHash 0)

/-- The coinbase starts with the height of the block. -/
def coinbaseHeightOk (block : CBlock) (nHeight : Nat) : Run Bool := do
  let coinbase ← Run.get .AcceptBlock_scriptSig block.vtx 0
  let txin ← Run.get .AcceptBlock_scriptSig coinbase.vin 0
  return (pushScriptNum nHeight).isPrefixOf txin.scriptSig

/-- The checks of `AcceptBlock` on a block that is not the genesis block. -/
def acceptChecks (cfg : Config) (s : NodeState) (nAdjustedTime : Int)
    (block : CBlock) : Run Unit := do
  match s.mapBlockIndex.find block.hashPrevBlock with
  | none => Run.DoS 10 .none "bad-prevblk" false
  | some pPrev =>
      let nHeight : Nat := ((s.mapBlockIndex.deref (some pPrev)).map
        fun q => q.nHeight + 1).getD 0
      let nBits ← GetNextWorkRequired cfg s.mapBlockIndex pPrev block.nTime
      if block.nBits ≠ nBits then
        Run.DoS 100 .REJECT_INVALID "bad-diffbits" false
      if block.nTime ≤ GetMedianTimePast s.mapBlockIndex pPrev then
        Run.Invalid .REJECT_INVALID "time-too-old"
      if block.vtx.any fun tx => !IsFinalTx s.chainActive.Height nAdjustedTime tx
          nHeight block.nTime then
        Run.DoS 10 .REJECT_INVALID "bad-txns-nonfinal" false
      if cfg.checkpointOk nHeight (block.GetHash cfg.crypto) = false then
        Run.DoS 100 .REJECT_CHECKPOINT "checkpoint mismatch" false
      if (cfg.GetLastCheckpoint s.mapBlockIndex).any
          fun pcheckpoint => nHeight < pcheckpoint.nHeight then
        Run.DoS 100 .none "" false
      let fHeight ← coinbaseHeightOk block nHeight
      if fHeight = false then
        Run.DoS 100 .REJECT_INVALID "bad-cb-height" false

/-- `AcceptBlock`. -/
def AcceptBlock (cfg : Config) (fuel : Nat) (block : CBlock) : Node Unit := do
  let s ← Machine.get
  let hash := block.GetHash cfg.crypto
  if (s.mapBlockIndex.find hash).isSome then
    Machine.refuse (.Invalid .none "duplicate")
  if hash ≠ cfg.HashGenesisBlock then
    let t ← Node.tick
    Node.ofRun (acceptChecks cfg s t.nAdjustedTime block)
  AddToBlockIndex cfg fuel block
  let s ← Machine.get
  let _ ← Node.deref s.chainActive.Tip

/-- The last orphan of a chain of orphans that starts with `orphan`. -/
def orphanLeaf (orphans : List COrphanBlock) : (fuel : Nat) → COrphanBlock →
    COrphanBlock
  | 0, orphan => orphan
  | fuel + 1, orphan =>
      match orphans.find? fun o => o.hashPrev == orphan.hashBlock with
      | none => orphan
      | some next => orphanLeaf orphans fuel next

/-- `PruneOrphanBlocks`. -/
def PruneOrphanBlocks (cfg : Config) : Node Unit := do
  let s ← Machine.get
  if cfg.maxOrphanBlocks < s.mapOrphanBlocks.length then
    let t ← Node.tick
    match s.mapOrphanBlocks[t.nRand % s.mapOrphanBlocks.length]? with
    | none => pure ()
    | some orphan =>
        let leaf := orphanLeaf s.mapOrphanBlocks s.mapOrphanBlocks.length orphan
        Machine.modify fun s =>
          { s with mapOrphanBlocks := s.mapOrphanBlocks.erase leaf }

/-- Accept the orphans whose predecessor has just been accepted; the result
are the hashes of those that were. -/
def acceptOrphans (cfg : Config) (fuel : Nat) : List COrphanBlock →
    Node (List uint256)
  | [] => return []
  | orphan :: rest => do
      let accepted ← Machine.attempt (AcceptBlock cfg fuel
        (orphan.block.BuildMerkleTree cfg.crypto))
      let hashes ← acceptOrphans cfg fuel rest
      match accepted with
      | .ok () => return orphan.hashBlock :: hashes
      | .error _ => return hashes

/-- The loop of `ProcessBlock` over its work queue. -/
def processOrphans (cfg : Config) (fuel : Nat) : (rounds : Nat) →
    (vWorkQueue : List uint256) → Node Unit
  | _, [] => pure ()
  | 0, _ :: _ => Machine.fault .outOfFuel
  | rounds + 1, hashPrev :: vWorkQueue => do
      let s ← Machine.get
      let hashes ← acceptOrphans cfg fuel
        (s.mapOrphanBlocks.filter fun o => o.hashPrev == hashPrev)
      Machine.modify fun s =>
        { s with
          mapOrphanBlocks :=
            s.mapOrphanBlocks.filter fun o => o.hashPrev != hashPrev }
      processOrphans cfg fuel rounds (vWorkQueue ++ hashes)

/-- The checks of `ProcessBlock` that only apply once a checkpoint is known
and the block does not extend the active chain. -/
def checkpointChecks (cfg : Config) (s : NodeState) (block : CBlock) :
    Run Unit :=
  match cfg.GetLastCheckpoint s.mapBlockIndex with
  | none => .ok ()
  | some pcheckpoint =>
      let hashTip := ((s.mapBlockIndex.deref s.chainActive.Tip).map
        CBlockIndex.hash).getD 0
      if block.hashPrevBlock ≠ hashTip then do
        let deltaTime : Int := (block.nTime : Int) - pcheckpoint.nTime
        if deltaTime < 0 then
          Run.DoS 100 .REJECT_CHECKPOINT "time-too-old" false
        let bnRequired :=
          SetCompact (ComputeMinWork cfg pcheckpoint.nBits deltaTime)
        if bnRequired < SetCompact block.nBits then
          Run.DoS 100 .REJECT_INVALID "bad-diffbits" false
      else .ok ()

/-- What `ProcessBlock` does before it stores the block: the block with its
proof of knowledge and its Merkle tree. -/
def preliminaryChecks (cfg : Config) (s : NodeState) (nAdjustedTime : Int)
    (block : CBlock) : Run CBlock := do
  let nPoK ← block.CalculatePoK cfg.crypto
  let block := block.SetPoK nPoK
  let hash := block.GetHash cfg.crypto
  if (s.mapBlockIndex.find hash).isSome then
    Run.Invalid .none "duplicate"
  if s.mapOrphanBlocks.any fun o => o.hashBlock == hash then
    Run.Invalid .none "duplicate"
  let block ← CheckBlock cfg nAdjustedTime block s.chainActive.TipMaxBlockSize
    true true
  checkpointChecks cfg s block
  return block

/-- Keep a block until its predecessor is known. -/
def addOrphan (cfg : Config) (block : CBlock) : Node Unit := do
  PruneOrphanBlocks cfg
  Machine.modify fun s =>
    { s with
      mapOrphanBlocks := s.mapOrphanBlocks ++
        [{ hashBlock := block.GetHash cfg.crypto, hashPrev := block.hashPrevBlock,
           block := block.readBack }] }

/-- `ProcessBlock`.  `fFrom` says that the block came from a peer. -/
def ProcessBlock (cfg : Config) (fuel : Nat) (fFrom : Bool) (block : CBlock) :
    Node Unit := do
  let t ← Node.tick
  let s ← Machine.get
  let block ← Node.ofRun (preliminaryChecks cfg s t.nAdjustedTime block)
  if block.hashPrevBlock ≠ 0 ∧
      (s.mapBlockIndex.find block.hashPrevBlock).isNone then
    if fFrom then
      addOrphan cfg block
  else
    AcceptBlock cfg fuel block
    let s ← Machine.get
    processOrphans cfg fuel (s.mapOrphanBlocks.length + 1)
      [block.GetHash cfg.crypto]

/-! ### Runs -/

/-- A node before `InitBlockIndex`, on empty databases. -/
def NodeState.initial (ticks : Nat → Tick) : NodeState :=
  { mapBlockIndex := []
    blockFiles := []
    undoFiles := fun _ => none
    chainActive := .empty
    chainMostWork := .empty
    setBlockIndexValid := []
    pindexBestInvalid := none
    mapFirstTimeSeen := fun _ => 0
    nBlockSequenceId := 1
    pcoinsTip := .empty
    mempool := .empty
    mapOrphanBlocks := []
    ticks }

/-- `InitBlockIndex`. -/
def InitBlockIndex (cfg : Config) (fuel : Nat) : Node Unit :=
  AddToBlockIndex cfg fuel cfg.GenesisBlock

/-- What can come to a node from outside. -/
inductive Event where
  | block (fuel : Nat) (fFrom : Bool) (block : CBlock)
  | transaction (tx : CTransaction) (fLimitFree fRejectInsaneFee : Bool)

/-- A message carries a block without a Merkle tree. -/
def handle (cfg : Config) : Event → Node Unit
  | .block fuel fFrom block => ProcessBlock cfg fuel fFrom block.readBack
  | .transaction tx fLimitFree fRejectInsaneFee =>
      acceptTransaction cfg tx fLimitFree fRejectInsaneFee

/-- The state that a call left, whether it returned true or false. -/
inductive Leaves {α : Type} (x : Node α) (s s' : NodeState) : Prop where
  | done {a : α} (h : x s = .done a s')
  | refused {state : CValidationState} (h : x s = .refused state s')

/-- The states a node can be in between two events. -/
inductive Reachable (cfg : Config) : NodeState → Prop where
  | init {ticks : Nat → Tick} {fuel : Nat} {s : NodeState}
      (h : InitBlockIndex cfg fuel (.initial ticks) = .done () s) :
      Reachable cfg s
  | step {s s' : NodeState} {event : Event} (reachable : Reachable cfg s)
      (h : Leaves (handle cfg event) s s') : Reachable cfg s'

end Ziftrcoin.Spec
