/-
Module: Ziftrcoin.Spec.WalletOrder
Purpose: The positions of wallet transactions and accounting entries in the order
  in which the wallet shows them, and how old wallets get them.
Trusted boundary: human-reviewed model of ListAccountCreditDebit and
  ReorderTransactions of CWalletDB in src/walletdb.cpp
Main exports: CAccountingEntry, TxPair, txByTime
-/
import Mathlib.Data.List.Sort
import Ziftrcoin.Spec.Bytes

namespace Ziftrcoin.Spec

/-- A transaction of `mapWallet`, with what its order is made from. -/
structure ReceivedTx where
  hash : uint256
  nTimeReceived : Nat
  nOrderPos : Int
deriving Repr, DecidableEq

structure CAccountingEntry where
  strAccount : String
  nEntryNo : Nat
  nTime : Int
  nOrderPos : Int
deriving Repr, DecidableEq

/-- An item of the order; one of the two pointers of `TxPair` is null. -/
inductive TxPair where
  | wtx (pwtx : ReceivedTx)
  | acentry (pacentry : CAccountingEntry)
deriving Repr, DecidableEq

namespace TxPair

/-- The key in `txByTime`. -/
def time : TxPair → Int
  | .wtx pwtx => pwtx.nTimeReceived
  | .acentry pacentry => pacentry.nTime

def nOrderPos : TxPair → Int
  | .wtx pwtx => pwtx.nOrderPos
  | .acentry pacentry => pacentry.nOrderPos

def setOrderPos : TxPair → Int → TxPair
  | .wtx pwtx, nOrderPos => .wtx { pwtx with nOrderPos }
  | .acentry pacentry, nOrderPos => .acentry { pacentry with nOrderPos }

def isAccounting : TxPair → Bool
  | .wtx _ => false
  | .acentry _ => true

end TxPair

/-- `ListAccountCreditDebit`: the entries of an account, or all of them. -/
def ListAccountCreditDebit (entries : List CAccountingEntry) (strAccount : String) :
    List CAccountingEntry :=
  if strAccount = "*" then entries
  else entries.filter fun acentry => acentry.strAccount = strAccount

/-- Items in the order of their times; items of one time stay in the order in which they
were inserted. -/
def sortByTime (items : List TxPair) : List TxPair :=
  items.insertionSort fun a b => a.time ≤ b.time

/-- The multimap of `ReorderTransactions`. -/
def txByTime (mapWallet : List ReceivedTx) (entries : List CAccountingEntry) : List TxPair :=
  sortByTime (mapWallet.map .wtx ++ (ListAccountCreditDebit entries "").map .acentry)

inductive DBErrors where
  | DB_LOAD_OK
  | DB_LOAD_FAIL
deriving Repr, DecidableEq

/-- The variables of the loop. -/
structure ReorderState where
  nOrderPosNext : Int
  nOrderPosOffsets : List Int
deriving Repr, DecidableEq

namespace ReorderState

def start : ReorderState := { nOrderPosNext := 0, nOrderPosOffsets := [] }

/-- `nOrderPosOff`: how many insertion points lie at or below a position. -/
def nOrderPosOff (st : ReorderState) (nOrderPos : Int) : Nat :=
  st.nOrderPosOffsets.countP fun nOffsetStart => nOffsetStart ≤ nOrderPos

/-- The new position of an item. -/
def newPos (st : ReorderState) (item : TxPair) : Int :=
  if item.nOrderPos = -1 then st.nOrderPosNext
  else int64 (item.nOrderPos + st.nOrderPosOff item.nOrderPos)

/-- The variables after an item. -/
def next (st : ReorderState) (item : TxPair) : ReorderState :=
  if item.nOrderPos = -1 then
    { nOrderPosNext := int64 (st.nOrderPosNext + 1)
      nOrderPosOffsets := st.nOrderPosOffsets ++ [st.nOrderPosNext] }
  else
    { st with nOrderPosNext := max st.nOrderPosNext (int64 (st.newPos item + 1)) }

/-- The item has to be written back. -/
def mustWrite (st : ReorderState) (item : TxPair) : Bool :=
  if item.nOrderPos = -1 then item.isAccounting else st.nOrderPosOff item.nOrderPos != 0

end ReorderState

/-- The loop of `ReorderTransactions`, where `fWritten` tells which writes succeed: the
items, those that were not reached unchanged, `nOrderPosNext` and the result. -/
def reorderItems (fWritten : TxPair → Bool) : ReorderState → List TxPair →
    List TxPair × Int × DBErrors
  | st, [] => ([], st.nOrderPosNext, .DB_LOAD_OK)
  | st, item :: items =>
      let moved := item.setOrderPos (st.newPos item)
      if st.mustWrite item && !fWritten moved then
        (moved :: items, (st.next item).nOrderPosNext, .DB_LOAD_FAIL)
      else
        let (rest, nOrderPosNext, result) := reorderItems fWritten (st.next item) items
        (moved :: rest, nOrderPosNext, result)

def ReorderTransactions (fWritten : TxPair → Bool) (mapWallet : List ReceivedTx)
    (entries : List CAccountingEntry) : List TxPair × Int × DBErrors :=
  reorderItems fWritten .start (txByTime mapWallet entries)

end Ziftrcoin.Spec
