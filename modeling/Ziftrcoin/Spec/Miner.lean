/-
Module: Ziftrcoin.Spec.Miner
Purpose: What a miner does to a block: the flag and the data of the proof of knowledge, the
  cache of serialised transactions, and the extra nonce; and the calls of miners: the
  templates that getwork keeps, the work it hands out and the block it puts together from a
  solution, and what getblocktemplate tells an external miner about the next block.
Trusted boundary: human-reviewed model of CBlockHeader in src/core.h, of
  CBlock::CalculatePoK in src/core.cpp, of IncrementExtraNonce, ScanHash and the end of
  CreateNewBlock in src/miner.cpp, of getwork and getblocktemplate in src/rpcmining.cpp, of
  UpdateTime in src/main.cpp and of TipMaxBlockSigOps in src/main.h
Main exports: CalculatePoKWith, IncrementExtraNonce, MinerStep, getwork, getblocktemplate
-/
import Ziftrcoin.Spec.Chain

namespace Ziftrcoin.Spec

/-! ### The version field -/

def VERSION_MASK : BitVec 32 := 0x00007FFF

namespace CBlockHeader

def GetVersion (header : CBlockHeader) : BitVec 32 :=
  header.nVersion &&& VERSION_MASK

def SetPoKFlag (header : CBlockHeader) (fPoK : Bool) : CBlockHeader :=
  let nVersion := header.nVersion &&& ~~~POK_BOOL_MASK
  { header with nVersion := if fPoK then nVersion ||| POK_BOOL_MASK else nVersion }

end CBlockHeader

/-! ### The cache of serialised transactions -/

/-- Serialised transactions by Merkle root and index. -/
abbrev MapTxSerialized := uint256 × Nat → Option valtype

namespace CBlock

def SetPoKFlag (block : CBlock) (fPoK : Bool) : CBlock :=
  { block with toCBlockHeader := block.toCBlockHeader.SetPoKFlag fPoK }

/-- The hash of the header without its proof of knowledge. -/
def hashTxChooser (crypto : Crypto) (block : CBlock) : Nat :=
  crypto.HashZR5 ({ block.toCBlockHeader with
    nVersion := block.nVersion &&& ~~~POK_DATA_MASK }).serialize

/-- The serialised transaction at `nTxIndex`, from the cache if it is there, and
the cache with it. -/
def txData (block : CBlock) (nTxIndex : Nat) (mapTxSerialized : MapTxSerialized) :
    Run (valtype × MapTxSerialized) :=
  match mapTxSerialized (block.hashMerkleRoot, nTxIndex) with
  | some vTxData => .ok (vTxData, mapTxSerialized)
  | none => do
      let tx ← Run.get .CalculatePoK_vtx block.vtx nTxIndex
      return (tx.serialize, Function.update mapTxSerialized
        (block.hashMerkleRoot, nTxIndex) (some tx.serialize))

/-- `CBlock::CalculatePoK` with a cache of serialised transactions. -/
def CalculatePoKWith (crypto : Crypto) (block : CBlock)
    (mapTxSerialized : MapTxSerialized) : Run (BitVec 32 × MapTxSerialized) := do
  let hashTxChooser := block.hashTxChooser crypto
  let nDeterRand1 := getinnerint hashTxChooser 0
  if block.IsPoKBlock = false then
    return (BitVec.ofNat 32 nDeterRand1 &&& POK_DATA_MASK, mapTxSerialized)
  Run.assert .CalculatePoK_vtx (0 < block.vtx.length)
  let nDeterRand2 := getinnerint hashTxChooser 1
  let nDeterRand3 := getinnerint hashTxChooser 2
  let (vTxData, mapTxSerialized) ← block.txData (nDeterRand1 % block.vtx.length)
    mapTxSerialized
  Run.assert .CalculatePoK_data (4 ≤ vTxData.length)
  let nDeterRandIndex := nDeterRand2 % (vTxData.length - 3)
  let nRandTxData := readLE ((vTxData.drop nDeterRandIndex).take 4)
  return ((BitVec.ofNat 32 nRandTxData ^^^ BitVec.ofNat 32 nDeterRand3) &&&
    POK_DATA_MASK, mapTxSerialized)

/-! ### The extra nonce -/

/-- The last hash of the Merkle tree, which `BuildMerkleTree` returns; null for
a block without transactions. -/
def merkleRootOf (crypto : Crypto) (vtx : List CTransaction) : uint256 :=
  (merkleTree crypto vtx.length (vtx.map (CTransaction.GetHash crypto))).getLastD 0

/-- `pblock->vtx[0].vin[0].scriptSig = scriptSig`.  A template has a coinbase
with one input. -/
def setCoinbaseScript (block : CBlock) (scriptSig : CScript) : CBlock :=
  { block with
    vtx := block.vtx.modifyHead fun tx =>
      { tx with vin := tx.vin.modifyHead fun txin => { txin with scriptSig } } }

/-- `pblock->hashMerkleRoot = pblock->BuildMerkleTree()`. -/
def withMerkleRoot (crypto : Crypto) (block : CBlock) : CBlock :=
  { block.BuildMerkleTree crypto with
    hashMerkleRoot := merkleRootOf crypto block.vtx }

end CBlock

/-- A miner at work on a block: the block, the cache, the extra nonce and the
static `hashPrevBlock` of `IncrementExtraNonce`. -/
structure Miner where
  block : CBlock
  mapTxSerialized : MapTxSerialized
  nExtraNonce : Nat
  hashPrevBlock : uint256

/-- `IncrementExtraNonce` for a block at height `nHeight`. -/
def IncrementExtraNonce (crypto : Crypto) (nHeight : Nat) (m : Miner) : Miner :=
  let nExtraNonce := if m.hashPrevBlock ≠ m.block.hashPrevBlock then 0
    else m.nExtraNonce
  let nExtraNonce := uint32 (nExtraNonce + 1)
  { m with
    block := (m.block.setCoinbaseScript
      (pushScriptNum nHeight ++ pushScriptNum nExtraNonce)).withMerkleRoot crypto
    nExtraNonce
    hashPrevBlock := m.block.hashPrevBlock }

/-- One round of `ScanHash` up to the comparison with the target. -/
def scanRound (crypto : Crypto) (m : Miner) : Run Miner := do
  let block := { m.block with nNonce := uint32 (m.block.nNonce + 1) }
  let (nPoK, mapTxSerialized) ← block.CalculatePoKWith crypto m.mapTxSerialized
  return { m with block := block.SetPoK nPoK, mapTxSerialized }

/-- What can happen to a miner: a round of the search, another nonce or time,
another extra nonce, or another template, which gets an extra nonce at once. -/
inductive MinerStep (crypto : Crypto) : Miner → Miner → Prop where
  | scan {m m' : Miner} (h : scanRound crypto m = .ok m') : MinerStep crypto m m'
  | header (m : Miner) (nVersion : BitVec 32) (nTime nNonce : Nat) :
      MinerStep crypto m
        { m with block := { m.block with nVersion, nTime, nNonce } }
  | extraNonce (m : Miner) (nHeight : Nat) :
      MinerStep crypto m (IncrementExtraNonce crypto nHeight m)
  | template (m : Miner) (block : CBlock) (nHeight : Nat) :
      MinerStep crypto m (IncrementExtraNonce crypto nHeight { m with block })

/-! ### Templates -/

/-- The block that work is handed out for: `pindexPrev` and its place in the
index. -/
structure MiningTip where
  tree : BlockTree
  p : Ptr
  pindexPrev : CBlockIndex

/-- A template with the value that `-usepok` had when it was made. -/
structure CBlockTemplate where
  block : CBlock
  fUsePoK : Bool

/-- `UpdateTime`. -/
def UpdateTime (cfg : Config) (tip : MiningTip) (nAdjustedTime : Int) (block : CBlock) :
    Run CBlock := do
  let nTime := uint32 (max ((GetMedianTimePast tip.tree tip.p : Int) + 1)
    nAdjustedTime).toNat
  -- Another time can change the work required on the test network.
  if cfg.TestNet then
    let nBits ← GetNextWorkRequired cfg tip.tree tip.p nTime
    return { block with nTime, nBits }
  else
    return { block with nTime }

/-- The coinbase of a template. -/
def templateCoinbase (scriptPubKey : CScript) (nValue : Int) : CTransaction :=
  { nVersion := CTransaction.CURRENT_VERSION
    vin := [{ prevout := ⟨0, UINT_MAX⟩, scriptSig := [0, 0], nSequence := UINT_MAX }]
    vout := [⟨nValue, scriptPubKey⟩]
    nLockTime := 0 }

/-- The end of `CreateNewBlock`, for transactions that have been collected from
the pool and pay `nFees`: the reward and the header. -/
def newTemplate (cfg : Config) (tip : MiningTip) (nAdjustedTime : Int)
    (scriptPubKey : CScript) (vtx : List CTransaction) (nFees : Int) (fUsePoK : Bool) :
    Run CBlockTemplate := do
  let nValue := cfg.GetBlockValue (tip.pindexPrev.nHeight + 1) nFees fUsePoK
  let block : CBlock :=
    { nVersion := 1
      hashPrevBlock := tip.pindexPrev.hash
      hashMerkleRoot := 0
      nTime := 0
      nBits := 0
      nNonce := 0
      vtx := templateCoinbase scriptPubKey nValue :: vtx
      vMerkleTree := [] }
  let block ← UpdateTime cfg tip nAdjustedTime (block.SetPoKFlag fUsePoK)
  let nBits ← GetNextWorkRequired cfg tip.tree tip.p block.nTime
  return { block := { block with nBits }, fUsePoK }

/-! ### The call -/

/-- The static variables of `getwork`, that of `IncrementExtraNonce`, and the
argument `-usepok`.  The template in use is the last one of the vector. -/
structure GetworkState where
  fUsePoK : Bool
  pindexPrev : Option Ptr
  nTransactionsUpdatedLast : Nat
  nStart : Int
  vNewBlockTemplate : List CBlockTemplate
  /-- The template and the coinbase script for a Merkle root. -/
  mapNewBlock : uint256 → Option (Nat × CScript)
  nExtraNonce : Nat
  hashPrevBlock : uint256

/-- A request for work, and what the call finds when it comes. -/
structure WorkRequest where
  /-- The argument: absent, `true` or `false`. -/
  arg : Option Bool
  /-- `mempool.GetTransactionsUpdated()`. -/
  nTransactionsUpdated : Nat
  /-- `GetTime()`. -/
  nTime : Int
  nAdjustedTime : Int
  scriptPubKey : CScript
  /-- What `CreateNewBlock` collects from the pool, unless it throws. -/
  collected : Option (List CTransaction)

/-- `fGetPoKWork`. -/
def WorkRequest.fGetPoKWork (r : WorkRequest) (st : GetworkState) : Bool :=
  r.arg.getD st.fUsePoK

/-- The template is out of date. -/
def needsTemplate (tip : MiningTip) (r : WorkRequest) (st : GetworkState) : Bool :=
  st.pindexPrev != some tip.p ||
    (r.nTransactionsUpdated != st.nTransactionsUpdatedLast &&
      decide (10 < r.nTime - st.nStart))

/-- Forget the work for another tip. -/
def dropObsolete (tip : MiningTip) (st : GetworkState) : GetworkState :=
  if st.pindexPrev ≠ some tip.p then
    { st with mapNewBlock := fun _ => none, vNewBlockTemplate := [] }
  else st

/-- Make a new template if it is time to; `none` is an exception, after which
the next request will try again, with `-usepok` still set for this one. -/
def refreshTemplate (cfg : Config) (tip : MiningTip) (fees : List CTransaction → Int)
    (r : WorkRequest) (st : GetworkState) : Run (Bool × GetworkState) :=
  if needsTemplate tip r st then
    let fGetPoKWork := r.fGetPoKWork st
    let st := { dropObsolete tip st with
      pindexPrev := none
      nTransactionsUpdatedLast := r.nTransactionsUpdated
      nStart := r.nTime }
    match r.collected with
    | none => .ok (false, { st with fUsePoK := fGetPoKWork })
    | some vtx => do
        let pblocktemplate ← newTemplate cfg tip r.nAdjustedTime r.scriptPubKey vtx
          (fees vtx) fGetPoKWork
        return (true, { st with
          vNewBlockTemplate := st.vNewBlockTemplate ++ [pblocktemplate]
          pindexPrev := some tip.p })
  else .ok (true, st)

/-- A block to start the search with, in one of the modes. -/
def startOver (fGetPoKWork : Bool) (block : CBlock) : CBlock :=
  { (block.SetPoK 0).SetPoKFlag fGetPoKWork with nNonce := 0 }

/-- Bring the template in use up to date and hand it out. -/
def handOut (cfg : Config) (tip : MiningTip) (fGetPoKWork : Bool) (nAdjustedTime : Int)
    (st : GetworkState) : Run (Option CBlock × GetworkState) :=
  match st.vNewBlockTemplate.getLast? with
  | none => .ok (none, st)
  | some pblocktemplate => do
      let block ← UpdateTime cfg tip nAdjustedTime pblocktemplate.block
      let m := IncrementExtraNonce cfg.crypto (tip.pindexPrev.nHeight + 1)
        { block := startOver fGetPoKWork block, mapTxSerialized := fun _ => none,
          nExtraNonce := st.nExtraNonce, hashPrevBlock := st.hashPrevBlock }
      let i := st.vNewBlockTemplate.length - 1
      let scriptSig := ((m.block.vtx.headD default).vin.headD default).scriptSig
      return (some m.block, { st with
        vNewBlockTemplate := st.vNewBlockTemplate.set i
          { pblocktemplate with block := m.block }
        mapNewBlock := Function.update st.mapNewBlock m.block.hashMerkleRoot
          (some (i, scriptSig))
        nExtraNonce := m.nExtraNonce
        hashPrevBlock := m.hashPrevBlock })

/-- `getwork` without data: the block whose header is handed out, unless the
call throws. -/
def getwork (cfg : Config) (tip : MiningTip) (fees : List CTransaction → Int)
    (r : WorkRequest) (st : GetworkState) : Run (Option CBlock × GetworkState) := do
  let fGetPoKWork := r.fGetPoKWork st
  let (fReady, st) ← refreshTemplate cfg tip fees r st
  if fReady then handOut cfg tip fGetPoKWork r.nAdjustedTime st
  else return (none, st)

/-- `getwork` with a solved header: the block that is put together for
`CheckWork`, unless the Merkle root is not known.  `CheckWork` then calculates
the proof of knowledge of that block; the next request clears it. -/
def submitWork (crypto : Crypto) (data : CBlockHeader) (st : GetworkState) :
    Option CBlock × GetworkState :=
  match st.mapNewBlock data.hashMerkleRoot with
  | none => (none, st)
  | some (i, scriptSig) =>
      match st.vNewBlockTemplate[i]? with
      | none => (none, st)
      | some pblocktemplate =>
          let block := { pblocktemplate.block.SetPoKFlag data.IsPoKBlock with
            nNonce := data.nNonce, nTime := data.nTime }
          let block := (block.setCoinbaseScript scriptSig).withMerkleRoot crypto
          let block := block.SetPoK block.GetPoK
          (some block, { st with
            vNewBlockTemplate := st.vNewBlockTemplate.set i
              { pblocktemplate with block } })

/-! ### The getblocktemplate call -/

def CChain.TipMaxBlockSigOps (chain : CChain) : Nat :=
  MaxBlockSizeToSigOps chain.TipMaxBlockSize

/-- What `CreateNewBlock` notes of the transactions of a template besides the
block itself, the coinbase first. -/
structure TemplateCosts where
  vTxFees : List Int
  vTxSigOps : List Int
deriving Repr, DecidableEq, Inhabited

/-- An entry of the array `transactions`. -/
structure TemplateEntry where
  data : valtype
  hash : uint256
  depends : List Nat
  fee : Int
  sigops : Int
deriving Repr, DecidableEq, Inhabited

/-- The reply, without the fields that are the same in every one. -/
structure BlockTemplateReply where
  version : BitVec 32
  previousblockhash : uint256
  transactions : List TemplateEntry
  coinbasevalue : Int
  target : uint256
  mintime : Int
  sigoplimit : Nat
  sizelimit : Nat
  curtime : Nat
  bits : Nat
  height : Nat
deriving Repr, DecidableEq, Inhabited

/-- The loop over the transactions of the template, from the index `i`.  The
coinbase is counted but not listed. -/
def describeTxs (crypto : Crypto) (costs : TemplateCosts) : (i : Nat) →
    (setTxIndex : uint256 → Option Nat) → List CTransaction → List TemplateEntry
  | _, _, [] => []
  | i, setTxIndex, tx :: vtx =>
      let txHash := tx.GetHash crypto
      let setTxIndex := Function.update setTxIndex txHash (some i)
      if tx.IsCoinBase then describeTxs crypto costs (i + 1) setTxIndex vtx
      else
        { data := tx.serialize
          hash := txHash
          depends := tx.vin.filterMap fun txin => setTxIndex txin.prevout.hash
          fee := costs.vTxFees.getD i 0
          sigops := costs.vTxSigOps.getD i 0 } ::
        describeTxs crypto costs (i + 1) setTxIndex vtx

/-- `getblocktemplate`, once there is a template for the tip of the chain. -/
def getblocktemplate (cfg : Config) (chainActive : CChain) (tip : MiningTip)
    (nAdjustedTime : Int) (pblocktemplate : CBlockTemplate)
    (costs : TemplateCosts) : Run BlockTemplateReply := do
  let block ← UpdateTime cfg tip nAdjustedTime pblocktemplate.block
  let block := { block.SetPoK 0 with nNonce := 0 }
  return {
    version := block.toCBlockHeader.GetVersion
    previousblockhash := block.hashPrevBlock
    transactions := describeTxs cfg.crypto costs 0 (fun _ => none) block.vtx
    coinbasevalue := ((block.vtx.head?.bind fun tx => tx.vout.head?).map
      CTxOut.nValue).getD 0
    target := (SetCompact block.nBits).natAbs % 2 ^ 256
    mintime := (GetMedianTimePast tip.tree tip.p : Int) + 1
    sigoplimit := chainActive.TipMaxBlockSize
    sizelimit := chainActive.TipMaxBlockSigOps
    curtime := block.nTime
    bits := block.nBits
    height := tip.pindexPrev.nHeight + 1 }

end Ziftrcoin.Spec
