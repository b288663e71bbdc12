/-
Module: Ziftrcoin.Spec.Rescan
Purpose: How the wallet finds its transactions in the blocks of the active chain.
Trusted boundary: human-reviewed model of AddToWallet, AddToWalletIfInvolvingMe,
  SyncTransaction and ScanForWalletTransactions in src/wallet.cpp, with blocks that can
  be read and a wallet that can be written.  Times, positions, Merkle branches and caches
  of the wallet's transactions and the progress shown to the user are not modelled.
Main exports: ScanBlock, ScanWallet, AddToWallet
-/
import Ziftrcoin.Spec.Groupings

namespace Ziftrcoin.Spec

/-- A block of the active chain.  Hash 0 stands for no block. -/
structure ScanBlock where
  hash : uint256
  hash_ne : hash ≠ 0
  nTime : Nat
  vtx : List CTransaction

/-- The wallet, with the `hashBlock` of its transactions. -/
structure ScanWallet where
  book : WalletBook
  hashBlock : uint256 → uint256

namespace WalletBook

variable (wallet : WalletBook)

/-- `IsMine` for an input. -/
def IsMineIn (txin : CTxIn) : Bool :=
  match wallet.spentOutput txin with
  | none => false
  | some txout => wallet.IsMine txout

/-- `IsMine` for a transaction. -/
def IsMineTx (tx : CTransaction) : Bool := tx.vout.any wallet.IsMine

/-- `IsFromMe`; `none` where `GetDebit` throws. -/
def IsFromMe (tx : CTransaction) : Option Bool :=
  (wallet.GetDebit tx).map fun nDebit => decide (0 < nDebit)

end WalletBook

namespace ScanWallet

/-- `AddToWallet` for a transaction that is found in a block: inserted only if not already
there, or else merged. -/
def AddToWallet (wallet : ScanWallet) (hash : uint256) (tx : CTransaction)
    (hashBlock : uint256) : ScanWallet :=
  match wallet.book.mapWallet hash with
  | none =>
      { book := { wallet.book with
          mapWallet := Function.update wallet.book.mapWallet hash (some tx) }
        hashBlock := Function.update wallet.hashBlock hash hashBlock }
  | some _ =>
      if hashBlock ≠ 0 ∧ hashBlock ≠ wallet.hashBlock hash then
        { wallet with hashBlock := Function.update wallet.hashBlock hash hashBlock }
      else wallet

/-- `AddToWalletIfInvolvingMe`; `none` where `IsFromMe` throws. -/
def AddToWalletIfInvolvingMe (wallet : ScanWallet) (hash : uint256) (tx : CTransaction)
    (hashBlock : uint256) (fUpdate : Bool) : Option (ScanWallet × Bool) :=
  let fExisted := (wallet.book.mapWallet hash).isSome
  if fExisted = true ∧ fUpdate = false then some (wallet, false)
  else if fExisted = true ∨ wallet.book.IsMineTx tx = true then
    some (wallet.AddToWallet hash tx hashBlock, true)
  else
    match wallet.book.IsFromMe tx with
    | none => none
    | some true => some (wallet.AddToWallet hash tx hashBlock, true)
    | some false => some (wallet, false)

/-- `SyncTransaction` for a transaction of a block. -/
def SyncTransaction (wallet : ScanWallet) (hashBlock : uint256) (tx : CTransaction) :
    Option ScanWallet :=
  (wallet.AddToWalletIfInvolvingMe (tx.GetHash wallet.book.crypto) tx hashBlock true).map
    Prod.fst

/-- The loop over the transactions of a block, with the number of those that were added or
updated. -/
def scanBlock (fUpdate : Bool) (hashBlock : uint256) : List CTransaction →
    ScanWallet × Nat → Option (ScanWallet × Nat)
  | [], s => some s
  | tx :: vtx, (wallet, ret) =>
      match wallet.AddToWalletIfInvolvingMe (tx.GetHash wallet.book.crypto) tx hashBlock
        fUpdate with
      | none => none
      | some (wallet, fAdded) =>
          scanBlock fUpdate hashBlock vtx (wallet, if fAdded then ret + 1 else ret)

/-- Why a scan does not return. -/
inductive ScanFault where
  /-- `pindex->nHeight` where `pindex` is null. -/
  | nullDereference
  /-- An exception. -/
  | thrown
deriving Repr, DecidableEq

/-- The loop of `ScanForWalletTransactions`, over the blocks from `pindex` on.  The clock
has been read `tick` times. -/
def scanLoop (clock : Nat → Int) (fUpdate : Bool) : List ScanBlock → (tick : Nat) →
    (nNow : Int) → ScanWallet × Nat → Except ScanFault (ScanWallet × Nat)
  | [], _, _, s => .ok s
  | block :: rest, tick, nNow, s =>
      match scanBlock fUpdate block.hash block.vtx s with
      | none => .error .thrown
      | some s =>
          -- `pindex` has moved on when its height is written to the log
          if nNow + 60 ≤ clock tick then
            if rest.isEmpty then .error .nullDereference
            else scanLoop clock fUpdate rest (tick + 2) (clock (tick + 1)) s
          else scanLoop clock fUpdate rest (tick + 1) nNow s

/-- The blocks that are scanned: those before the wallet's birthday are passed over. -/
def scanned (nTimeFirstKey : Int) (chain : List ScanBlock) : List ScanBlock :=
  chain.dropWhile fun block =>
    decide (nTimeFirstKey ≠ 0) &&
      decide ((block.nTime : Int) < nTimeFirstKey - MAX_BLOCK_TIME_OFFSET)

/-- `ScanForWalletTransactions`, for the active chain from `pindexStart` on: the wallet and
the number of transactions found. -/
def ScanForWalletTransactions (wallet : ScanWallet) (nTimeFirstKey : Int) (clock : Nat → Int)
    (vChain : List ScanBlock) (nStart : Nat) (fUpdate : Bool) :
    Except ScanFault (ScanWallet × Nat) :=
  scanLoop clock fUpdate (scanned nTimeFirstKey (vChain.drop nStart)) 1 (clock 0) (wallet, 0)

end ScanWallet

end Ziftrcoin.Spec
