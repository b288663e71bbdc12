/-
Module: Ziftrcoin.Spec.MemPool
Purpose: The memory pool: adding and removing transactions, the sanity check,
  and the acceptance of loose transactions.
Trusted boundary: human-reviewed model of src/txmempool.cpp and of
  AcceptToMemoryPool and AreInputsStandard in src/main.cpp
Main exports: CTxMemPool, addUnchecked, remove
-/
import Mathlib.Data.List.AList
import Ziftrcoin.Spec.Validation

namespace Ziftrcoin.Spec

/-- An input of a transaction in the pool.  The pointer to the transaction is
represented by the key under which `mapTx` holds it. -/
structure CInPoint where
  ptx : uint256
  n : Nat
deriving Repr, DecidableEq, Inhabited

/-- The pool.  Entry times, fees and priorities are left out. -/
structure CTxMemPool where
  mapTx : AList fun _ : uint256 => CTransaction
  mapNextTx : AList fun _ : COutPoint => CInPoint

namespace CTxMemPool

def empty : CTxMemPool := { mapTx := ∅, mapNextTx := ∅ }

def exists? (pool : CTxMemPool) (hash : uint256) : Bool :=
  (pool.mapTx.lookup hash).isSome

/-- Enter the inputs of the transaction at `ptx`, counting from `i`. -/
def addInputs (ptx : uint256) : (i : Nat) → List CTxIn →
    (AList fun _ : COutPoint => CInPoint) → AList fun _ : COutPoint => CInPoint
  | _, [], mapNextTx => mapNextTx
  | i, txin :: rest, mapNextTx =>
      addInputs ptx (i + 1) rest (mapNextTx.insert txin.prevout ⟨ptx, i⟩)

def addUnchecked (hash : uint256) (tx : CTransaction) (pool : CTxMemPool) :
    CTxMemPool :=
  { mapTx := pool.mapTx.insert hash tx,
    mapNextTx := addInputs hash 0 tx.vin pool.mapNextTx }

/-- The part of `remove` that takes out the transaction itself. -/
def erase (hash : uint256) (tx : CTransaction)
    (acc : CTxMemPool × List CTransaction) : CTxMemPool × List CTransaction :=
  if acc.1.exists? hash then
    ({ mapTx := acc.1.mapTx.erase hash,
       mapNextTx := tx.vin.foldl (fun mapNextTx txin =>
         mapNextTx.erase txin.prevout) acc.1.mapNextTx },
      tx :: acc.2)
  else acc

/-- `CTxMemPool::remove`.  The transactions that spend its outputs go first
when it is recursive. -/
def remove (crypto : Crypto) : (fuel : Nat) → CTransaction → Bool →
    CTxMemPool × List CTransaction → Run (CTxMemPool × List CTransaction)
  | 0, _, _, _ => Run.outOfFuel
  | fuel + 1, tx, fRecursive, acc => do
      let hash := tx.GetHash crypto
      let acc ← (if fRecursive then List.range tx.vout.length else []).foldlM
        (fun acc i =>
          match acc.1.mapNextTx.lookup ⟨hash, i⟩ with
          | none => .ok acc
          | some it =>
              match acc.1.mapTx.lookup it.ptx with
              | none => Run.crash .mempoolRemove
              | some child => remove crypto fuel child true acc) acc
      return erase hash tx acc

/-- A chain of spends in the pool visits each entry once. -/
def removeFuel (pool : CTxMemPool) : Nat := pool.mapTx.entries.length + 2

/-- `CTxMemPool::removeConflicts`. -/
def removeConflicts (crypto : Crypto) (tx : CTransaction)
    (acc : CTxMemPool × List CTransaction) :
    Run (CTxMemPool × List CTransaction) :=
  tx.vin.foldlM (fun acc txin =>
    match acc.1.mapNextTx.lookup txin.prevout with
    | none => .ok acc
    | some it =>
        match acc.1.mapTx.lookup it.ptx with
        | none => Run.crash .mempoolRemove
        | some txConflict =>
            if txConflict ≠ tx then
              remove crypto acc.1.removeFuel txConflict true acc
            else .ok acc) acc

/-- The assertions of `CTxMemPool::check` on one input of a pool
transaction. -/
def checkInput (pool : CTxMemPool) (coins : CCoinsViewCache) (ptx : uint256)
    (txin : CTxIn) (i : Nat) : Bool :=
  (match pool.mapTx.lookup txin.prevout.hash with
    | some tx2 =>
        match tx2.vout[txin.prevout.n]? with
        | none => false
        | some txout => !txout.IsNull
    | none => coins.available txin.prevout) &&
  pool.mapNextTx.lookup txin.prevout == some ⟨ptx, i⟩

/-- The assertions on one entry of `mapNextTx`. -/
def checkNext (crypto : Crypto) (pool : CTxMemPool) (o : COutPoint)
    (it : CInPoint) : Bool :=
  match pool.mapTx.lookup it.ptx with
  | none => false
  | some tx =>
      tx.GetHash crypto == it.ptx &&
        match tx.vin[it.n]? with
        | none => false
        | some txin => txin.prevout == o

/-- `CTxMemPool::check`: no assertion fails. -/
def check (crypto : Crypto) (pool : CTxMemPool) (coins : CCoinsViewCache) :
    Bool :=
  (pool.mapTx.entries.all fun entry =>
    entry.2.vin.zipIdx.all fun p => pool.checkInput coins entry.1 p.1 p.2) &&
  pool.mapNextTx.entries.all fun entry => pool.checkNext crypto entry.1 entry.2

end CTxMemPool

/-! ### Accepting loose transactions -/

/-- Fake height of coins that are in the pool. -/
def MEMPOOL_HEIGHT : Nat := 0x7FFFFFFF

/-- `CCoinsViewMemPool` on top of a view: the pool only answers for what the
view does not have. -/
def CTxMemPool.view (pool : CTxMemPool) (base : CCoinsViewCache) :
    CCoinsViewCache :=
  { base with
    coins := fun txid =>
      match base.coins txid with
      | some coins => some coins
      | none => (pool.mapTx.lookup txid).map fun tx =>
          CCoins.ofTx tx MEMPOOL_HEIGHT }

/-- The stack size that `AreInputsStandard` expects of an input. -/
def expectedArgs (scriptPubKey : CScript) (stack : List valtype) :
    Option Nat := do
  let (whichType, vSolutions) ← Solver scriptPubKey
  let nArgsExpected ← ScriptSigArgsExpected whichType vSolutions
  if whichType.undelayed = .TX_SCRIPTHASH then
    let subscript ← stack.head?
    let (whichType2, vSolutions2) ← Solver subscript
    if whichType2.undelayed = .TX_SCRIPTHASH then none
    else
      let tmpExpected ← ScriptSigArgsExpected whichType2 vSolutions2
      return nArgsExpected + tmpExpected
  else
    return nArgsExpected

/-- `AreInputsStandard` on one input. -/
def inputStandard (crypto : Crypto) (tx : CTransaction)
    (mapInputs : CCoinsViewCache) (txin : CTxIn) (i : Nat) : Run Bool := do
  let prev ← mapInputs.GetOutputFor txin
  match EvalScript { crypto, txTo := tx, nIn := i, flags := SCRIPT_VERIFY_NONE }
      [] txin.scriptSig with
  | none => return false
  | some stack =>
      return expectedArgs prev.scriptPubKey stack == some stack.length

def AreInputsStandard (crypto : Crypto) (tx : CTransaction)
    (mapInputs : CCoinsViewCache) : Run Bool := do
  if tx.IsCoinBase then
    return true
  let standard ← tx.vin.zipIdx.mapM fun (txin, i) =>
    inputStandard crypto tx mapInputs txin i
  return standard.all id

/-- What `AcceptToMemoryPool` reads of the node. -/
structure PoolContext where
  /-- `chainActive.Height()`. -/
  chainHeight : Int
  nAdjustedTime : Int
  /-- Heights of the entries of `mapBlockIndex`. -/
  prevHeight : uint256 → Option Nat
  coinsTip : CCoinsViewCache
  /-- The rate limiter for free transactions is exhausted. -/
  fRateLimited : Bool

/-- The standardness check, which only the main network makes. -/
def standardTxOk (cfg : Config) (tx : CTransaction) : Run Unit :=
  if cfg.NetworkID = .MAIN then
    match IsStandardTx cfg.nMinRelayTxFee tx with
    | .ok () => .ok ()
    | .error reason => Run.DoS 0 .REJECT_NONSTANDARD reason false
  else .ok ()

def standardInputsOk (cfg : Config) (tx : CTransaction)
    (view : CCoinsViewCache) : Run Bool :=
  if cfg.NetworkID = .MAIN then AreInputsStandard cfg.crypto tx view
  else .ok true

/-- `AcceptToMemoryPool`: the pool with the transaction added.  Its report of
missing inputs only goes to the sender. -/
def AcceptToMemoryPool (cfg : Config) (ctx : PoolContext) (pool : CTxMemPool)
    (tx : CTransaction) (fLimitFree fRejectInsaneFee : Bool) :
    Run CTxMemPool := do
  CheckTransaction tx
  if tx.IsCoinBase then
    Run.DoS 100 .REJECT_INVALID "coinbase" false
  standardTxOk cfg tx
  if IsFinalTx ctx.chainHeight ctx.nAdjustedTime tx (ctx.chainHeight + 1) 0
      = false then
    Run.DoS 0 .REJECT_NONSTANDARD "non-final" false
  let hash := tx.GetHash cfg.crypto
  if pool.exists? hash then
    Run.fail
  if tx.vin.any fun txin => (pool.mapNextTx.lookup txin.prevout).isSome then
    Run.fail
  let view := pool.view ctx.coinsTip
  if view.HaveCoins hash then
    Run.fail
  if tx.vin.any fun txin => !view.HaveCoins txin.prevout.hash then
    Run.fail
  if view.HaveInputs tx = false then
    Run.Invalid .REJECT_DUPLICATE "bad-txns-inputs-spent"
  let fStandard ← standardInputsOk cfg tx view
  if fStandard = false then
    Run.fail
  let nValueIn ← view.GetValueIn tx
  let nValueOut ← valueOut tx
  let nFees := int64 (nValueIn - nValueOut)
  let txMinFee := GetMinFee cfg.nMinRelayTxFee tx.GetSerializeSize
  if fLimitFree ∧ nFees < txMinFee then
    Run.DoS 0 .REJECT_INSUFFICIENTFEE "insufficient fee" false
  if fLimitFree ∧ nFees < cfg.nMinRelayTxFee ∧ ctx.fRateLimited then
    Run.DoS 0 .REJECT_INSUFFICIENTFEE "insufficient priority" false
  if fRejectInsaneFee ∧ int64 (cfg.nMinRelayTxFee * 10000) < nFees then
    Run.fail
  let _ ← CheckInputs cfg.crypto ctx.prevHeight tx view true
    SCRIPT_VERIFY_P2SH_STRICTENC false
  return pool.addUnchecked hash tx

end Ziftrcoin.Spec
