/-
Module: Ziftrcoin.Spec.Validation
Purpose: Checking a block on its own, connecting it to a view of the unspent
  outputs and disconnecting it again.
Trusted boundary: human-reviewed model of CheckBlock, CheckInputs,
  UpdateCoins, ConnectBlock and DisconnectBlock in src/main.cpp and of
  src/checkpoints.cpp
Main exports: Config, BlockContext, CheckBlock
-/
import Ziftrcoin.Spec.Block
import Ziftrcoin.Spec.Coins
import Ziftrcoin.Spec.Interpreter

namespace Ziftrcoin.Spec

/-! ### Parameters -/

inductive Network where
  | MAIN
  | TESTNET
  | REGTEST
deriving Repr, DecidableEq, Inhabited

/-- Chain parameters and command line options, fixed while a node runs. -/
structure Config where
  crypto : Crypto
  NetworkID : Network
  GenesisBlock : CBlock
  ProofOfWorkLimit : Int
  GetGenesisTotal : Int
  /-- The reward of a block above the genesis block without its fees.  The
  source computes it in floating point. -/
  GetBlockReward : Nat → Bool → Int
  /-- `Checkpoints::fEnabled`. -/
  fCheckpoints : Bool
  /-- Checkpoints in ascending order of height. -/
  mapCheckpoints : List (Nat × uint256)
  nScriptCheckThreads : Nat
  nMinRelayTxFee : Int
  maxOrphanBlocks : Nat

namespace Config

def HashGenesisBlock (cfg : Config) : uint256 :=
  cfg.GenesisBlock.GetHash cfg.crypto

/-- `GetBlockValue`. -/
def GetBlockValue (cfg : Config) (nHeight : Nat) (nFees : Int)
    (fUsesPoK : Bool) : Int :=
  if nHeight = 0 then cfg.GetGenesisTotal
  else int64 (cfg.GetBlockReward nHeight fUsesPoK + nFees)

/-- `Checkpoints::CheckBlock`. -/
def checkpointOk (cfg : Config) (nHeight : Nat) (hash : uint256) : Bool :=
  if cfg.fCheckpoints = false then true
  else
    match cfg.mapCheckpoints.find? fun i => i.1 == nHeight with
    | none => true
    | some i => hash == i.2

def GetTotalBlocksEstimate (cfg : Config) : Nat :=
  if cfg.fCheckpoints = false then 0
  else
    match cfg.mapCheckpoints.getLast? with
    | none => 0
    | some i => i.1

end Config

def COINBASE_MATURITY : Int := 120
def MAX_BLOCK_TIME_OFFSET : Int := 3600

def MaxBlockSizeToSigOps (nMaxBlockSize : Nat) : Nat := nMaxBlockSize / 50

/-! ### Blocks on their own -/

/-- The hashes of all transactions of a block, one `GetTxHash` after the
other. -/
def txHashes (block : CBlock) : Run (List uint256) :=
  (List.range block.vtx.length).mapM block.GetTxHash

/-- The proof-of-work check of `CheckBlock`, true where it is left out. -/
def checkPOW (cfg : Config) (block : CBlock) (fCheckPOW : Bool) : Run Bool :=
  if fCheckPOW then block.CheckProofOfWork cfg.crypto cfg.ProofOfWorkLimit
  else .ok true

/-- `CheckBlock`.  The block is returned with the Merkle tree it builds. -/
def CheckBlock (cfg : Config) (nAdjustedTime : Int) (block : CBlock)
    (nMaxBlockSize : Nat) (fCheckPOW fCheckMerkleRoot : Bool) :
    Run CBlock := do
  if block.vtx = [] then
    Run.DoS 100 .REJECT_INVALID "bad-blk-empty" false
  if nMaxBlockSize < block.vtx.length ∨
      nMaxBlockSize < block.GetSerializeSize then
    Run.DoS 100 .REJECT_INVALID "bad-blk-length" false
  let powOk ← checkPOW cfg block fCheckPOW
  if powOk = false then
    Run.DoS 50 .REJECT_INVALID "high-hash" false
  if nAdjustedTime + MAX_BLOCK_TIME_OFFSET < block.nTime ∧
      block.GetHash cfg.crypto ≠ cfg.HashGenesisBlock then
    Run.Invalid .REJECT_INVALID "time-too-new"
  if (block.vtx.head?.map CTransaction.IsCoinBase) ≠ some true then
    Run.DoS 100 .REJECT_INVALID "bad-cb-missing" false
  if block.vtx.tail.any CTransaction.IsCoinBase then
    Run.DoS 100 .REJECT_INVALID "bad-cb-multiple" false
  block.vtx.forM CheckTransaction
  let block := block.BuildMerkleTree cfg.crypto
  let uniqueTx ← txHashes block
  if ¬ uniqueTx.Nodup then
    Run.DoS 100 .REJECT_INVALID "bad-txns-duplicate" true
  if MaxBlockSizeToSigOps nMaxBlockSize < (block.vtx.map GetSigOpCount).sum then
    Run.DoS 100 .REJECT_INVALID "bad-blk-sigops" true
  if fCheckMerkleRoot ∧
      block.vMerkleTree.getLast? ≠ some block.hashMerkleRoot then
    Run.DoS 100 .REJECT_INVALID "bad-txnmrklroot" true
  return block

/-! ### Inputs -/

/-- The `GetP2SHSigOpCount` of a list of inputs. -/
def p2shSigOpsFrom (view : CCoinsViewCache) : (nSigOps : Nat) → List CTxIn →
    Run Nat
  | nSigOps, [] => .ok nSigOps
  | nSigOps, txin :: rest => do
      let prevout ← view.GetOutputFor txin
      let n := if prevout.scriptPubKey.IsPayToScriptHash then
        prevout.scriptPubKey.GetP2SHSigOpCount txin.scriptSig else 0
      p2shSigOpsFrom view (nSigOps + n) rest

def GetP2SHSigOpCount (tx : CTransaction) (view : CCoinsViewCache) : Run Nat :=
  if tx.IsCoinBase then .ok 0 else p2shSigOpsFrom view 0 tx.vin

/-- `GetValueOut` where an exception ends the call: `AcceptBlock` turns it
into a system error. -/
def valueOut (tx : CTransaction) : Run Int :=
  match tx.GetValueOut with
  | none => Run.Abort
  | some nValueOut => .ok nValueOut

/-- A script check that has been set up and not yet run. -/
structure CScriptCheck where
  scriptPubKey : CScript
  txTo : CTransaction
  nIn : Nat
  nFlags : ScriptFlags
deriving Repr, DecidableEq, Inhabited

/-- `CScriptCheck::operator()`. -/
def CScriptCheck.run (crypto : Crypto) (check : CScriptCheck) : Run Bool :=
  VerifyScript
    { crypto, txTo := check.txTo, nIn := check.nIn, flags := check.nFlags }
    (check.txTo.vin.getD check.nIn default).scriptSig check.scriptPubKey

/-- The cheap checks of `CheckInputs` on each input: coinbase maturity and
values in range. -/
def checkInputValues (inputs : CCoinsViewCache) (nSpendHeight : Int) :
    (nValueIn : Int) → List CTxIn → Run Int
  | nValueIn, [] => .ok nValueIn
  | nValueIn, txin :: rest => do
      let coins ← inputs.GetCoins txin.prevout.hash
      let txout ← Run.get .CheckInputs_vout coins.vout txin.prevout.n
      if coins.fCoinBase ∧ nSpendHeight - coins.nHeight < COINBASE_MATURITY ∧
          txout.nValue ≠ 0 then
        Run.Invalid .REJECT_INVALID "bad-txns-premature-spend-of-coinbase"
      let nValueIn := int64 (nValueIn + txout.nValue)
      if MoneyRange txout.nValue = false ∨ MoneyRange nValueIn = false then
        Run.DoS 100 .REJECT_INVALID "bad-txns-inputvalues-outofrange" false
      checkInputValues inputs nSpendHeight nValueIn rest

/-- The script check of input `i`. -/
def scriptCheckOf (inputs : CCoinsViewCache) (tx : CTransaction)
    (flags : ScriptFlags) (txin : CTxIn) (i : Nat) : Run CScriptCheck := do
  let coins ← inputs.GetCoins txin.prevout.hash
  let txout ← Run.get .CheckInputs_vout coins.vout txin.prevout.n
  return {
    scriptPubKey := txout.scriptPubKey, txTo := tx, nIn := i, nFlags := flags }

/-- Run a script check at once.  A failure that only strict encoding explains
does not count as misbehaviour. -/
def runCheckNow (crypto : Crypto) (check : CScriptCheck) : Run Unit := do
  let ok ← check.run crypto
  if ok = false then
    if check.nFlags.STRICTENC then
      let ok ← CScriptCheck.run crypto
        { check with nFlags := { check.nFlags with STRICTENC := false } }
      if ok then
        Run.Invalid .REJECT_NONSTANDARD "non-canonical"
    Run.DoS 100 .REJECT_NONSTANDARD "non-canonical" false

/-- The height of the block that is being checked: one above the view's best
block in `mapBlockIndex`. -/
def spendHeight (prevHeight : uint256 → Option Nat)
    (inputs : CCoinsViewCache) : Run Int :=
  match prevHeight inputs.hashBlock with
  | none => Run.crash .CheckInputs_prev
  | some nHeight => .ok (nHeight + 1)

/-- `CheckInputs`.  `prevHeight` gives the heights of the entries of
`mapBlockIndex`; `fDefer` stands for a `pvChecks` that collects the script
checks instead of running them. -/
def CheckInputs (crypto : Crypto) (prevHeight : uint256 → Option Nat)
    (tx : CTransaction) (inputs : CCoinsViewCache) (fScriptChecks : Bool)
    (flags : ScriptFlags) (fDefer : Bool) : Run (List CScriptCheck) := do
  if tx.IsCoinBase then
    return []
  if inputs.HaveInputs tx = false then
    Run.Invalid .none ""
  let nSpendHeight ← spendHeight prevHeight inputs
  let nValueIn ← checkInputValues inputs nSpendHeight 0 tx.vin
  let nValueOut ← valueOut tx
  if nValueIn < nValueOut then
    Run.DoS 100 .REJECT_INVALID "bad-txns-in-belowout" false
  let nTxFee := int64 (nValueIn - nValueOut)
  if nTxFee < 0 then
    Run.DoS 100 .REJECT_INVALID "bad-txns-fee-negative" false
  if MoneyRange nTxFee = false then
    Run.DoS 100 .REJECT_INVALID "bad-txns-fee-outofrange" false
  if fScriptChecks = false then
    return []
  let vChecks ← (tx.vin.zipIdx).mapM fun (txin, i) =>
    scriptCheckOf inputs tx flags txin i
  if fDefer then
    return vChecks
  vChecks.forM (runCheckNow crypto)
  return []

/-! ### Updating a view -/

/-- Spend one input, as `UpdateCoins` does. -/
def spendInput (view : CCoinsViewCache) (txin : CTxIn) :
    Run (CCoinsViewCache × CTxInUndo) := do
  let coins ← view.GetCoins txin.prevout.hash
  match coins.Spend txin.prevout.n with
  | none => Run.crash .UpdateCoins_Spend
  | some (left, undo) => return (view.SetCoins txin.prevout.hash left, undo)

/-- Spend a list of inputs from first to last. -/
def spendInputs : CCoinsViewCache → List CTxIn →
    Run (CCoinsViewCache × CTxUndo)
  | view, [] => .ok (view, [])
  | view, txin :: rest => do
      let (view, undo) ← spendInput view txin
      let (view, undos) ← spendInputs view rest
      return (view, undo :: undos)

/-- Mark the inputs spent; a coinbase has none. -/
def markSpent (tx : CTransaction) (inputs : CCoinsViewCache) :
    Run (CCoinsViewCache × CTxUndo) :=
  if tx.IsCoinBase then .ok (inputs, []) else spendInputs inputs tx.vin

/-- `UpdateCoins`. -/
def UpdateCoins (tx : CTransaction) (inputs : CCoinsViewCache) (nHeight : Nat)
    (txhash : uint256) : Run (CCoinsViewCache × CTxUndo) := do
  let (inputs, txundo) ← markSpent tx inputs
  return (inputs.SetCoins txhash (CCoins.ofTx tx nHeight), txundo)

/-! ### Connecting -/

/-- What connecting and disconnecting read of the block index entry and of
the globals. -/
structure BlockContext where
  /-- `pindex->GetBlockHash()`. -/
  hash : uint256
  /-- The hash of `pindex->pprev`, unless that is null. -/
  hashPrev : Option uint256
  nHeight : Nat
  /-- `chainActive.MaxBlockSize(pindex->nHeight)`. -/
  nMaxBlockSize : Nat
  /-- Heights of the entries of `mapBlockIndex`. -/
  prevHeight : uint256 → Option Nat
  nAdjustedTime : Int

/-- What the loop of `ConnectBlock` over the transactions carries. -/
structure ConnectState where
  view : CCoinsViewCache
  nFees : Int
  nSigOps : Nat
  vtxundo : CBlockUndo
  vChecks : List CScriptCheck

/-- The part of a round that a coinbase does not go through. -/
def connectInputs (cfg : Config) (ctx : BlockContext) (fScriptChecks : Bool)
    (acc : ConnectState) (tx : CTransaction) : Run ConnectState := do
  if tx.IsCoinBase then
    return acc
  if acc.view.HaveInputs tx = false then
    Run.DoS 100 .REJECT_INVALID "bad-txns-inputs-missingorspent" false
  let nP2SH ← GetP2SHSigOpCount tx acc.view
  let nSigOps := acc.nSigOps + nP2SH
  if MaxBlockSizeToSigOps ctx.nMaxBlockSize < nSigOps then
    Run.DoS 100 .REJECT_INVALID "bad-blk-sigops" false
  let nValueIn ← acc.view.GetValueIn tx
  let nValueOut ← valueOut tx
  let nFees := int64 (acc.nFees + int64 (nValueIn - nValueOut))
  let vChecks ← CheckInputs cfg.crypto ctx.prevHeight tx acc.view
    fScriptChecks SCRIPT_VERIFY_P2SH_STRICTENC
    (decide (cfg.nScriptCheckThreads ≠ 0))
  return { acc with nFees, nSigOps, vChecks := acc.vChecks ++ vChecks }

/-- One round of the loop of `ConnectBlock`. -/
def connectTx (cfg : Config) (ctx : BlockContext) (fScriptChecks : Bool)
    (block : CBlock) (acc : ConnectState) (txi : CTransaction × Nat) :
    Run ConnectState := do
  let (tx, i) := txi
  let acc := { acc with nSigOps := acc.nSigOps + GetSigOpCount tx }
  if MaxBlockSizeToSigOps ctx.nMaxBlockSize < acc.nSigOps then
    Run.DoS 100 .REJECT_INVALID "bad-blk-sigops" false
  let acc ← connectInputs cfg ctx fScriptChecks acc tx
  let txhash ← block.GetTxHash i
  let (view, txundo) ← UpdateCoins tx acc.view ctx.nHeight txhash
  let vtxundo := if tx.IsCoinBase then acc.vtxundo
    else acc.vtxundo ++ [txundo]
  return { acc with view, vtxundo }

/-- No transaction of the block may have coins in the view already, not even
pruned ones. -/
def checkOverwrite (view : CCoinsViewCache) (block : CBlock) : Run Unit := do
  let hashes ← txHashes block
  if hashes.any view.HaveCoins then
    Run.DoS 100 .REJECT_INVALID "bad-txns-BIP30" false

/-- `ConnectBlock`: the view with the block connected and the undo record.
Whether the record is written is up to the caller, who knows the entry's
status. -/
def ConnectBlock (cfg : Config) (ctx : BlockContext) (block : CBlock)
    (view : CCoinsViewCache) (fJustCheck : Bool) :
    Run (CCoinsViewCache × CBlockUndo) := do
  let block ← CheckBlock cfg ctx.nAdjustedTime block ctx.nMaxBlockSize
    (!fJustCheck) (!fJustCheck)
  Run.assert .ConnectBlock_prev (ctx.hashPrev.getD 0 = view.hashBlock)
  let fScriptChecks := decide (cfg.GetTotalBlocksEstimate ≤ ctx.nHeight)
  checkOverwrite view block
  let acc ← block.vtx.zipIdx.foldlM (connectTx cfg ctx fScriptChecks block)
    { view, nFees := 0, nSigOps := 0, vtxundo := [], vChecks := [] }
  let coinbase ← Run.get .ConnectBlock_vtx block.vtx 0
  let nValueOut ← valueOut coinbase
  if cfg.GetBlockValue ctx.nHeight acc.nFees block.IsPoKBlock < nValueOut ∧
      block.GetHash cfg.crypto ≠ cfg.HashGenesisBlock then
    Run.DoS 100 .REJECT_INVALID "bad-cb-amount" false
  let checks ← acc.vChecks.mapM (CScriptCheck.run cfg.crypto)
  if checks.all id = false then
    Run.DoS 100 .none "" false
  if fJustCheck then
    return (acc.view, acc.vtxundo)
  return (acc.view.SetBestBlock ctx.hash, acc.vtxundo)

/-! ### Disconnecting -/

/-- A view and whether everything found in it was as expected. -/
structure DisconnectState where
  view : CCoinsViewCache
  fClean : Bool

/-- Restore one spent output. -/
def restoreInput (acc : DisconnectState) (txin : CTxIn) (undo : CTxInUndo) :
    DisconnectState :=
  let coins := (acc.view.coins txin.prevout.hash).getD CCoins.empty
  let fClean := acc.fClean &&
    -- A height in the record means that the output was the last one.
    if undo.nHeight ≠ 0 then coins.IsPruned else !coins.IsPruned
  let coins := if undo.nHeight ≠ 0 then
      { CCoins.empty with
        fCoinBase := undo.fCoinBase, nHeight := undo.nHeight,
        nVersion := undo.nVersion }
    else coins
  let fClean := fClean && !coins.IsAvailable txin.prevout.n
  let vout := if coins.vout.length < txin.prevout.n + 1 then
      coins.vout ++
        List.replicate (txin.prevout.n + 1 - coins.vout.length) CTxOut.null
    else coins.vout
  { view := acc.view.SetCoins txin.prevout.hash
      { coins with vout := vout.set txin.prevout.n undo.txout },
    fClean }

/-- Restore the inputs of a transaction, the last one first. -/
def restoreInputs : DisconnectState → List (CTxIn × CTxInUndo) →
    DisconnectState
  | acc, [] => acc
  | acc, (txin, undo) :: rest => restoreInput (restoreInputs acc rest) txin undo

/-- Compare the outputs of a transaction with those of the block, and remove
them. -/
def removeOutputs (crypto : Crypto) (nHeight : Nat) (acc : DisconnectState)
    (tx : CTransaction) : DisconnectState :=
  let hash := tx.GetHash crypto
  let outs := ((acc.view.coins hash).getD CCoins.empty).ClearUnspendable
  let outsBlock := CCoins.ofTx tx nHeight
  let outs := if outsBlock.nVersion < 0 then
    { outs with nVersion := outsBlock.nVersion } else outs
  { view := if acc.view.HaveCoins hash then
      acc.view.SetCoins hash CCoins.empty else acc.view,
    fClean := acc.fClean && outs.beq outsBlock }

/-- One round of `DisconnectBlock`.  The coinbase has no undo record. -/
def disconnectTx (crypto : Crypto) (nHeight : Nat) (acc : DisconnectState)
    (tx : CTransaction) (txundo : Option CTxUndo) : Run DisconnectState :=
  let acc := removeOutputs crypto nHeight acc tx
  match txundo with
  | none => .ok acc
  | some vprevout =>
      if vprevout.length ≠ tx.vin.length then Run.fail
      else .ok (restoreInputs acc (tx.vin.zip vprevout))

/-- The loop of `DisconnectBlock`, the last transaction first. -/
def disconnectTxs (crypto : Crypto) (nHeight : Nat) : DisconnectState →
    List (CTransaction × Option CTxUndo) → Run DisconnectState
  | acc, [] => .ok acc
  | acc, (tx, txundo) :: rest => do
      let acc ← disconnectTxs crypto nHeight acc rest
      disconnectTx crypto nHeight acc tx txundo

/-- `DisconnectBlock` with the undo record read from disk, `none` when there
is none or it cannot be read.  The second component of the result is
`fClean`, which a caller without `pfClean` gets as the return value. -/
def DisconnectBlock (crypto : Crypto) (ctx : BlockContext) (block : CBlock)
    (blockUndo : Option CBlockUndo) (view : CCoinsViewCache) :
    Run (CCoinsViewCache × Bool) := do
  Run.assert .DisconnectBlock_best (ctx.hash = view.hashBlock)
  match blockUndo with
  | none => Run.fail
  | some vtxundo =>
      match ctx.hashPrev with
      | none => Run.crash .DisconnectBlock_pprev
      | some hashPrev =>
          if vtxundo.length + 1 ≠ block.vtx.length then Run.fail
          else do
            let acc ← disconnectTxs crypto ctx.nHeight ⟨view, true⟩
              (block.vtx.zip (none :: vtxundo.map some))
            return (acc.view.SetBestBlock hashPrev, acc.fClean)

end Ziftrcoin.Spec
