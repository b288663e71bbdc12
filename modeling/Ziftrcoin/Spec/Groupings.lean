/-
Module: Ziftrcoin.Spec.Groupings
Purpose: Which addresses of the wallet have come together in transactions.
Trusted boundary: human-reviewed model of GetAddressGroupings in src/wallet.cpp.
  Groups that are made with `new` live in a heap, at the address that an
  allocator chooses; sets of pointers are in the order of the addresses.
Main exports: initialGroupings, VisitOrder, Allocator
-/
import Mathlib.Data.Finset.Option
import Mathlib.Data.Finset.Sort
import Mathlib.Data.Finset.Union
import Ziftrcoin.Spec.WalletAmounts

namespace Ziftrcoin.Spec

/-- `set<CTxDestination>`. -/
abbrev Grouping := Finset CTxDestination

namespace WalletBook

variable (wallet : WalletBook)

/-! ### The groups to begin with -/

/-- `mapWallet[txin.prevout.hash].vout[txin.prevout.n]`, if it is there. -/
def spentOutput (txin : CTxIn) : Option CTxOut :=
  (wallet.mapWallet txin.prevout.hash).bind fun prev => prev.vout[txin.prevout.n]?

/-- The address of an input, which is ignored if it is not mine. -/
def inputAddress (txin : CTxIn) : Option CTxDestination :=
  match wallet.spentOutput txin with
  | none => none
  | some txout => if wallet.IsMine txout then wallet.destination txout else none

/-- The address of an output that is change. -/
def changeAddress (txout : CTxOut) : Option CTxDestination :=
  if wallet.IsChange txout then wallet.destination txout else none

/-- The address of an own output. -/
def ownAddress (txout : CTxOut) : Option CTxDestination :=
  if wallet.IsMine txout then wallet.destination txout else none

/-- All input addresses with each other, and change with them. -/
def txGrouping (tx : CTransaction) : Grouping :=
  let inputs := tx.vin.filterMap wallet.inputAddress
  if inputs = [] then ∅
  else (inputs ++ tx.vout.filterMap wallet.changeAddress).toFinset

/-- The groups of a transaction: its own one, and the addresses that it pays to by
themselves. -/
def groupingsOf (tx : CTransaction) : List Grouping :=
  (if 0 < (wallet.txGrouping tx).card then [wallet.txGrouping tx] else []) ++
    (tx.vout.filterMap wallet.ownAddress).map fun address => {address}

/-- The first loop of `GetAddressGroupings`. -/
def initialGroupings (mapWallet : List CTransaction) : List Grouping :=
  mapWallet.flatMap wallet.groupingsOf

end WalletBook

/-! ### The groups on the heap -/

/-- The order in which a set of sets is visited. -/
structure VisitOrder where
  visit : List Grouping → List Grouping
  mem_iff : ∀ gs g, g ∈ visit gs ↔ g ∈ gs

/-- The groups in memory that are not deleted yet. -/
abbrev GroupHeap := Nat → Option Grouping

/-- Where `new` puts a group: at an address that is free, as long as there is one. -/
structure Allocator where
  next : GroupHeap → Nat
  free : ∀ heap : GroupHeap, (∃ p, heap p = none) → heap (next heap) = none

structure GroupState where
  heap : GroupHeap
  /-- A set of pointers to groups of addresses. -/
  uniqueGroupings : Finset Nat
  /-- Addresses to the group that contains them. -/
  setmap : CTxDestination → Option Nat

namespace GroupState

def start : GroupState where
  heap _ := none
  uniqueGroupings := ∅
  setmap _ := none

def put (s : GroupState) (p : Nat) (group : Option Grouping) : GroupState :=
  { s with heap := fun q => if q = p then group else s.heap q }

/-- The groups hit by a new group. -/
def hits (s : GroupState) (grouping : Grouping) : Finset Nat :=
  grouping.biUnion fun address => (s.setmap address).toFinset

/-- The loop over the groups that are hit: each one is merged and deleted.  `none` where
a group is read or deleted that has been deleted before. -/
def absorb (merged : Nat) : List Nat → GroupState → Option GroupState
  | [], s => some s
  | hit :: hits, s =>
      match s.heap merged, s.heap hit with
      | some group, some others =>
          let s := s.put merged (some (group ∪ others))
          let s := { s with uniqueGroupings := s.uniqueGroupings.erase hit }
          absorb merged hits (s.put hit none)
      | _, _ => none

/-- One round of the loop over the groups. -/
def mergeGrouping (alloc : Allocator) (s : GroupState) (grouping : Grouping) :
    Option GroupState :=
  let hits := (s.hits grouping).sort (· ≤ ·)
  let merged := alloc.next s.heap
  match absorb merged hits (s.put merged (some grouping)) with
  | none => none
  | some s =>
      match s.heap merged with
      | none => none
      | some group =>
          some
            { s with
              uniqueGroupings := insert merged s.uniqueGroupings
              setmap := fun element => if element ∈ group then some merged
                else s.setmap element }

def mergeAll (alloc : Allocator) : List Grouping → GroupState → Option GroupState
  | [], s => some s
  | grouping :: groupings, s => (s.mergeGrouping alloc grouping).bind (mergeAll alloc groupings)

/-- The last loop: the groups are copied and deleted. -/
def release : List Nat → Finset Grouping → GroupState → Option (Finset Grouping)
  | [], ret, _ => some ret
  | p :: ps, ret, s =>
      match s.heap p with
      | none => none
      | some group => release ps (insert group ret) (s.put p none)

end GroupState

/-- `GetAddressGroupings`. -/
def GetAddressGroupings (wallet : WalletBook) (order : VisitOrder) (alloc : Allocator)
    (mapWallet : List CTransaction) : Option (Finset Grouping) :=
  match GroupState.start.mergeAll alloc (order.visit (wallet.initialGroupings mapWallet)) with
  | none => none
  | some s => GroupState.release (s.uniqueGroupings.sort (· ≤ ·)) ∅ s

end Ziftrcoin.Spec
