/-
Module: Ziftrcoin.Spec.OrphanTx
Purpose: The pool of transactions whose inputs are not known yet, and the handler
  of tx messages, which resolves them.
Trusted boundary: human-reviewed model of AddOrphanTx, EraseOrphanTx,
  EraseOrphansFor, LimitOrphanTxSize and of the tx message in src/main.cpp; the
  verdicts of AcceptToMemoryPool and the random numbers are parameters
Main exports: OrphanPool, AddOrphanTx, EraseOrphanTx
-/
import Ziftrcoin.Lib.InvertedIndex
import Ziftrcoin.Lib.Worklist
import Ziftrcoin.Spec.Download

namespace Ziftrcoin.Spec

open Ziftrcoin.Lib

structure COrphanTx where
  tx : CTransaction
  fromPeer : NodeId
deriving Repr, DecidableEq, Inhabited

/-- `mapOrphanTransactions` and `mapOrphanTransactionsByPrev`. -/
structure OrphanPool where
  mapOrphanTransactions : Std.TreeMap uint256 COrphanTx
  mapOrphanTransactionsByPrev : InvertedIndex uint256 uint256

namespace OrphanPool

def empty : OrphanPool := { mapOrphanTransactions := ∅, mapOrphanTransactionsByPrev := ∅ }

def size (pool : OrphanPool) : Nat := pool.mapOrphanTransactions.size

/-- `mapOrphanTransactions[orphanHash]`, which makes an entry where there is
none. -/
def lookup (pool : OrphanPool) (orphanHash : uint256) : COrphanTx × OrphanPool :=
  match pool.mapOrphanTransactions[orphanHash]? with
  | some orphan => (orphan, pool)
  | none =>
      (default, { pool with
        mapOrphanTransactions := pool.mapOrphanTransactions.insert orphanHash default })

end OrphanPool

/-- The hashes a transaction's inputs refer to. -/
def prevHashes (tx : CTransaction) : List uint256 := tx.vin.map fun txin => txin.prevout.hash

/-- No larger transaction is kept as an orphan. -/
def MAX_ORPHAN_TX_SIZE : Nat := 5000

section Pool

variable (crypto : Crypto)

def AddOrphanTx (pool : OrphanPool) (tx : CTransaction) (peer : NodeId) : OrphanPool :=
  let hash := tx.GetHash crypto
  if pool.mapOrphanTransactions.contains hash then pool
  else if MAX_ORPHAN_TX_SIZE < tx.GetSerializeSize then pool
  else
    { mapOrphanTransactions := pool.mapOrphanTransactions.insert hash { tx, fromPeer := peer }
      mapOrphanTransactionsByPrev :=
        (prevHashes tx).foldl (fun index prev => index.add prev hash)
          pool.mapOrphanTransactionsByPrev }

def EraseOrphanTx (pool : OrphanPool) (hash : uint256) : OrphanPool :=
  match pool.mapOrphanTransactions[hash]? with
  | none => pool
  | some orphan =>
      { mapOrphanTransactions := pool.mapOrphanTransactions.erase hash
        mapOrphanTransactionsByPrev :=
          (prevHashes orphan.tx).foldl (fun index prev => index.drop prev hash)
            pool.mapOrphanTransactionsByPrev }

/-- The entries of a peer are erased.  The iterator has moved on before an entry
is erased, so the loop is over the entries that were there at its start. -/
def EraseOrphansFor (pool : OrphanPool) (peer : NodeId) : OrphanPool :=
  pool.mapOrphanTransactions.toList.foldl (fun pool entry =>
    if entry.2.fromPeer = peer then EraseOrphanTx pool (entry.2.tx.GetHash crypto)
    else pool) pool

/-- `lower_bound`, or the first entry where there is none. -/
def randomOrphan (pool : OrphanPool) (randomhash : uint256) : Option uint256 :=
  (pool.mapOrphanTransactions.keys.find? fun hash => randomhash ≤ hash).or
    pool.mapOrphanTransactions.keys.head?

/-- The loop of `LimitOrphanTxSize`; every round erases an entry, so the number
of entries is enough fuel. -/
def limitLoop (GetRandHash : Nat → uint256) (nMaxOrphans : Nat) :
    (fuel nEvicted : Nat) → OrphanPool → OrphanPool
  | 0, _, pool => pool
  | fuel + 1, nEvicted, pool =>
      if pool.size ≤ nMaxOrphans then pool
      else
        match randomOrphan pool (GetRandHash nEvicted) with
        | none => pool
        | some hash =>
            limitLoop GetRandHash nMaxOrphans fuel (nEvicted + 1) (EraseOrphanTx pool hash)

def LimitOrphanTxSize (GetRandHash : Nat → uint256) (pool : OrphanPool) (nMaxOrphans : Nat) :
    OrphanPool :=
  limitLoop GetRandHash nMaxOrphans pool.size 0 pool

end Pool

/-! ### The tx message -/

/-- What `AcceptToMemoryPool` says of a transaction; `nDoS` is the level of an
invalid one. -/
inductive Verdict where
  | accepted
  | rejected (fMissingInputs : Bool) (nDoS : Nat)
deriving Repr, DecidableEq, Inhabited

section Message

variable (crypto : Crypto) {Env : Type}
  (AcceptToMemoryPool : Env → CTransaction → Verdict × Env)

/-- The variables of the loop over `vWorkQueue`, the queue apart. -/
structure Resolving (Env : Type) where
  pool : OrphanPool
  env : Env
  vEraseQueue : List uint256
  setMisbehaving : List NodeId

/-- The body of the inner loop: an orphan that waited for an accepted
transaction.  The second result is what is pushed to `vWorkQueue`. -/
def resolveOrphan (s : Resolving Env) (orphanHash : uint256) :
    Resolving Env × List uint256 :=
  let (orphan, pool) := s.pool.lookup orphanHash
  let s := { s with pool, vEraseQueue := s.vEraseQueue ++ [orphanHash] }
  if orphan.fromPeer ∈ s.setMisbehaving then (s, [])
  else
    match AcceptToMemoryPool s.env orphan.tx with
    | (.accepted, env) => ({ s with env }, [orphanHash])
    | (.rejected true _, env) => ({ s with env }, [])
    | (.rejected false nDoS, env) =>
        ({ s with env, setMisbehaving :=
            if 0 < nDoS then orphan.fromPeer :: s.setMisbehaving else s.setMisbehaving }, [])

/-- The inner loop over a set. -/
def resolveAll : Resolving Env → List uint256 → Resolving Env × List uint256
  | s, [] => (s, [])
  | s, orphanHash :: rest =>
      let (s, pushed) := resolveOrphan AcceptToMemoryPool s orphanHash
      let (s, more) := resolveAll s rest
      (s, pushed ++ more)

/-- One round of the loop over `vWorkQueue`. -/
def resolveRound (s : Resolving Env) (hash : uint256) : Resolving Env × List uint256 :=
  match s.pool.mapOrphanTransactionsByPrev[hash]? with
  | none => (s, [])
  | some orphans => resolveAll AcceptToMemoryPool s orphans.toList

/-- The loop over `vWorkQueue`, with the transactions accepted in it; `none`
means that the fuel did not suffice. -/
def resolveOrphans (fuel : Nat) (s : Resolving Env) (vWorkQueue : List uint256) :
    Option (Resolving Env × List uint256) :=
  Worklist.run (resolveRound AcceptToMemoryPool) fuel s vWorkQueue

/-- `(unsigned int)std::max((int64_t)0, GetArg("-maxorphantx", ...))`. -/
def maxOrphanTx (maxorphantx : Int) : Nat := uint32 (max 0 maxorphantx).toNat

/-- The handler of a tx message, with the hashes of the transactions it
accepted. -/
def txMessage (maxorphantx : Int) (GetRandHash : Nat → uint256) (fuel : Nat)
    (pool : OrphanPool) (env : Env) (tx : CTransaction) (peer : NodeId) :
    Option (OrphanPool × Env × List uint256) :=
  match AcceptToMemoryPool env tx with
  | (.accepted, env) => do
      let hash := tx.GetHash crypto
      let (s, vWorkQueue) ← resolveOrphans AcceptToMemoryPool fuel
        { pool, env, vEraseQueue := [hash], setMisbehaving := [] } [hash]
      return (s.vEraseQueue.foldl EraseOrphanTx s.pool, s.env, vWorkQueue)
  | (.rejected true _, env) =>
      some (LimitOrphanTxSize GetRandHash (AddOrphanTx crypto pool tx peer)
        (maxOrphanTx maxorphantx), env, [])
  | (.rejected false _, env) => some (pool, env, [])

/-! ### Runs -/

/-- The calls that change the pool. -/
inductive OrphanCall where
  | txMessage (tx : CTransaction) (peer : NodeId) (GetRandHash : Nat → uint256)
  | AddOrphanTx (tx : CTransaction) (peer : NodeId)
  | EraseOrphanTx (hash : uint256)
  | EraseOrphansFor (peer : NodeId)
  | LimitOrphanTxSize (nMaxOrphans : Nat) (GetRandHash : Nat → uint256)

/-- The transaction that a call brings. -/
def OrphanCall.tx? : OrphanCall → Option CTransaction
  | .txMessage tx _ _ => some tx
  | .AddOrphanTx tx _ => some tx
  | _ => none

def runCall (maxorphantx : Int) (fuel : Nat) (state : OrphanPool × Env) :
    OrphanCall → Option (OrphanPool × Env)
  | .txMessage tx peer GetRandHash => do
      let (pool, env, _) ← txMessage crypto AcceptToMemoryPool maxorphantx GetRandHash fuel
        state.1 state.2 tx peer
      return (pool, env)
  | .AddOrphanTx tx peer => some (AddOrphanTx crypto state.1 tx peer, state.2)
  | .EraseOrphanTx hash => some (EraseOrphanTx state.1 hash, state.2)
  | .EraseOrphansFor peer => some (EraseOrphansFor crypto state.1 peer, state.2)
  | .LimitOrphanTxSize nMaxOrphans GetRandHash =>
      some (LimitOrphanTxSize GetRandHash state.1 nMaxOrphans, state.2)

/-- A sequence of calls, each with as much fuel. -/
def runCalls (maxorphantx : Int) (fuel : Nat) (state : OrphanPool × Env)
    (calls : List OrphanCall) : Option (OrphanPool × Env) :=
  calls.foldlM (runCall crypto AcceptToMemoryPool maxorphantx fuel) state

end Message

end Ziftrcoin.Spec
