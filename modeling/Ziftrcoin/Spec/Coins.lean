/-
Module: Ziftrcoin.Spec.Coins
Purpose: The unspent outputs of transactions, their undo records, and views
  on the set of all of them.
Trusted boundary: human-reviewed model of src/coins.h, src/coins.cpp and the
  undo records of src/core.h
Main exports: CCoins, CCoins.Spend, CTxInUndo
-/
import Mathlib.Data.List.DropRight
import Ziftrcoin.Spec.Transaction

namespace Ziftrcoin.Spec

/-- Undo information for an input: the output that was spent and, if it was
the last one of its transaction, the metadata. -/
structure CTxInUndo where
  txout : CTxOut
  fCoinBase : Bool
  nHeight : Nat
  nVersion : Int
deriving Repr, DecidableEq, Inhabited

/-- Undo information for the inputs of a transaction. -/
abbrev CTxUndo := List CTxInUndo

/-- Undo information for the transactions of a block but the first. -/
abbrev CBlockUndo := List CTxUndo

/-- A transaction reduced to its unspent outputs. -/
structure CCoins where
  fCoinBase : Bool
  vout : List CTxOut
  nHeight : Nat
  nVersion : Int
deriving Repr, DecidableEq, Inhabited

namespace CCoins

/-- The empty constructor. -/
def empty : CCoins :=
  { fCoinBase := false, vout := [], nHeight := 0, nVersion := 0 }

/-- Remove spent outputs at the end of `vout`. -/
def Cleanup (coins : CCoins) : CCoins :=
  { coins with vout := coins.vout.rdropWhile CTxOut.IsNull }

def clearUnspendable (txout : CTxOut) : CTxOut :=
  if txout.scriptPubKey.IsUnspendable then CTxOut.null else txout

def ClearUnspendable (coins : CCoins) : CCoins :=
  Cleanup { coins with vout := coins.vout.map clearUnspendable }

/-- `CCoins(tx, nHeight)`. -/
def ofTx (tx : CTransaction) (nHeight : Nat) : CCoins :=
  ClearUnspendable
    { fCoinBase := tx.IsCoinBase, vout := tx.vout, nHeight,
      nVersion := tx.nVersion }

def IsAvailable (coins : CCoins) (nPos : Nat) : Bool :=
  match coins.vout[nPos]? with
  | none => false
  | some txout => !txout.IsNull

def IsPruned (coins : CCoins) : Bool := coins.vout.all CTxOut.IsNull

/-- `operator==`: pruned coins are all equal. -/
def beq (a b : CCoins) : Bool :=
  (a.IsPruned && b.IsPruned) ||
    (a.fCoinBase == b.fCoinBase && a.nHeight == b.nHeight &&
      a.nVersion == b.nVersion && a.vout == b.vout)

/-- `CCoins::Spend`: the coins that are left and the undo record, or `none`
where it returns false. -/
def Spend (coins : CCoins) (n : Nat) : Option (CCoins × CTxInUndo) :=
  match coins.vout[n]? with
  | none => none
  | some txout =>
      if txout.IsNull then none
      else
        let left := Cleanup { coins with vout := coins.vout.set n CTxOut.null }
        if left.vout = [] then
          some (left,
            { txout, fCoinBase := coins.fCoinBase, nHeight := coins.nHeight,
              nVersion := coins.nVersion })
        else
          some (left,
            { txout, fCoinBase := false, nHeight := 0, nVersion := 0 })

end CCoins

/-! ### Reading back from disk -/

/-- A signed number written and read as `VARINT`.  Only the low seven bits of
a negative number are written. -/
def varInt (n : Int) : Int := if 0 ≤ n then n else n % 128

/-- Coins written to the database and read back.  The compressed forms of
amounts and scripts return what they were given; null outputs are not
written. -/
def CCoins.readBack (coins : CCoins) : CCoins :=
  CCoins.Cleanup
    { coins with
      vout := coins.vout.map fun txout =>
        if txout.IsNull then CTxOut.null else txout
      nVersion := varInt coins.nVersion }

/-- An undo record written and read back.  The version is written only when
the height is not 0. -/
def CTxInUndo.readBack (undo : CTxInUndo) : CTxInUndo :=
  { undo with
    nVersion := if 0 < undo.nHeight then varInt undo.nVersion else 0 }

/-! ### Views -/

/-- A view as its reader sees it: the best block, and for each transaction
what `GetCoins` finds in the cache or in the views below it.  Reading only
copies an entry up into the cache, so it leaves this unchanged. -/
structure CCoinsViewCache where
  hashBlock : uint256
  coins : uint256 → Option CCoins

namespace CCoinsViewCache

/-- The view of an empty database. -/
def empty : CCoinsViewCache := { hashBlock := 0, coins := fun _ => none }

/-- True also for a pruned entry that is still in the cache. -/
def HaveCoins (view : CCoinsViewCache) (txid : uint256) : Bool :=
  (view.coins txid).isSome

/-- The `GetCoins` that returns a reference and asserts that it found one. -/
def GetCoins (view : CCoinsViewCache) (txid : uint256) : Run CCoins :=
  match view.coins txid with
  | some coins => .ok coins
  | none => Run.crash .GetCoins

def SetCoins (view : CCoinsViewCache) (txid : uint256) (coins : CCoins) :
    CCoinsViewCache :=
  { view with coins := Function.update view.coins txid (some coins) }

def SetBestBlock (view : CCoinsViewCache) (hashBlock : uint256) :
    CCoinsViewCache :=
  { view with hashBlock }

def GetOutputFor (view : CCoinsViewCache) (input : CTxIn) : Run CTxOut := do
  let coins ← view.GetCoins input.prevout.hash
  Run.assert .GetOutputFor (coins.IsAvailable input.prevout.n = true)
  Run.get .GetOutputFor coins.vout input.prevout.n

/-- The sum of `GetValueIn` over a list of inputs. -/
def valueInFrom (view : CCoinsViewCache) : (nResult : Int) → List CTxIn →
    Run Int
  | nResult, [] => .ok nResult
  | nResult, txin :: rest => do
      let txout ← view.GetOutputFor txin
      valueInFrom view (int64 (nResult + txout.nValue)) rest

def GetValueIn (view : CCoinsViewCache) (tx : CTransaction) : Run Int :=
  if tx.IsCoinBase then .ok 0 else valueInFrom view 0 tx.vin

/-- An output that is there and not spent. -/
def available (view : CCoinsViewCache) (prevout : COutPoint) : Bool :=
  match view.coins prevout.hash with
  | none => false
  | some coins => coins.IsAvailable prevout.n

def HaveInputs (view : CCoinsViewCache) (tx : CTransaction) : Bool :=
  tx.IsCoinBase ||
    ((tx.vin.all fun txin => view.HaveCoins txin.prevout.hash) &&
      tx.vin.all fun txin => view.available txin.prevout)

/-- `Flush` into the database: pruned entries are erased there, all others
are written and read back when they are next needed. -/
def Flush (view : CCoinsViewCache) : CCoinsViewCache :=
  { view with
    coins := fun txid =>
      match view.coins txid with
      | none => none
      | some coins => if coins.IsPruned then none else some coins.readBack }

end CCoinsViewCache

end Ziftrcoin.Spec
