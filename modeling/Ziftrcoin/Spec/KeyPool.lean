/-
Module: Ziftrcoin.Spec.KeyPool
Purpose: The pool of unused keys of a wallet, and what takes keys out of it.
Trusted boundary: human-reviewed model of NewKeyPool, TopUpKeyPool,
  ReserveKeyFromKeyPool, KeepKey, ReturnKey, GetKeyFromPool and
  GetOldestKeyPoolTime of CWallet and of CReserveKey in src/wallet.cpp
Main exports: CKeyPool, KeyWallet, TopUpKeyPool
-/
import Ziftrcoin.Lib.Machine
import Ziftrcoin.Spec.Bytes
import Mathlib.Data.Finset.Max
import Mathlib.Data.Int.Order.Basic

namespace Ziftrcoin.Spec

open Ziftrcoin.Lib

/-! ### The wallet -/

/-- Public keys are told apart by the order in which they were generated:
`GenerateNewKey` does not give a key twice. -/
abbrev CPubKey := Nat

/-- A record of the pool.  `vchPubKey` is not valid in a new one. -/
structure CKeyPool where
  nTime : Int
  vchPubKey : Option CPubKey
deriving Repr, DecidableEq, Inhabited

/-- The part of a wallet that its key pool is about.  Writing to the database
succeeds. -/
structure KeyWallet where
  setKeyPool : Finset Int
  /-- The records "pool" of the wallet database. -/
  pool : Int → Option CKeyPool
  /-- The key that was generated last for an index. -/
  generated : Int → Option CPubKey
  /-- The next key that `GenerateNewKey` gives. -/
  nextKey : CPubKey
  vchDefaultKey : Option CPubKey
  fLocked : Bool
  /-- What `GetTime` will show, the next look first. -/
  times : Nat → Int

/-- What must not happen. -/
inductive KeyPoolFault where
  /-- `ReserveKeyFromKeyPool() : read failed`. -/
  | readFailed
  /-- The assertion that a public key is valid. -/
  | invalidKey
deriving Repr, DecidableEq

namespace KeyWallet

/-- The last index of the pool, zero when it is empty. -/
def last (w : KeyWallet) : Int := w.setKeyPool.max.unbotD 0

/-- A new key is written to the database under an index, and the index put
into the pool. -/
def generate (w : KeyWallet) (nIndex : Int) : KeyWallet :=
  { w with
    pool := Function.update w.pool nIndex
      (some { nTime := w.times 0, vchPubKey := some w.nextKey })
    generated := Function.update w.generated nIndex (some w.nextKey)
    nextKey := w.nextKey + 1
    times := fun n => w.times (n + 1)
    setKeyPool := insert nIndex w.setKeyPool }

/-- The loop of `TopUpKeyPool`.  Every round adds an index, so `nTargetSize`
rounds are enough. -/
def topUp (nTargetSize : Nat) : (rounds : Nat) → KeyWallet → KeyWallet
  | 0, w => w
  | rounds + 1, w =>
      if w.setKeyPool.card < nTargetSize then
        topUp nTargetSize rounds (w.generate (w.last + 1))
      else w

end KeyWallet

/-- The size up to which `TopUpKeyPool` fills the pool.  `keypool` is the option
of that name; `nTargetSize + 1` is an unsigned sum. -/
def targetSize (keypool : Int) (kpSize : Nat) : Nat :=
  let nTargetSize := if 0 < kpSize then kpSize else uint32 (max keypool 0).toNat
  uint32 (nTargetSize + 1)

/-- `TopUpKeyPool`. -/
def TopUpKeyPool (keypool : Int) (kpSize : Nat) (w : KeyWallet) : KeyWallet :=
  if w.fLocked then w
  else w.topUp (targetSize keypool kpSize) (targetSize keypool kpSize)

/-- `NewKeyPool`. -/
def NewKeyPool (keypool : Int) (w : KeyWallet) : KeyWallet :=
  let cleared :=
    { w with
      pool := fun nIndex => if nIndex ∈ w.setKeyPool then none else w.pool nIndex
      setKeyPool := ∅ }
  if w.fLocked then cleared
  else (List.range (max keypool 0).toNat).foldl
    (fun w (i : Nat) => w.generate ((i : Int) + 1)) cleared

/-- A call about the pool. -/
abbrev KeyPool := Machine KeyWallet Empty KeyPoolFault

/-- `ReserveKeyFromKeyPool`. -/
def ReserveKeyFromKeyPool (keypool : Int) : KeyPool (Int × CKeyPool) := do
  Machine.modify fun w => if w.fLocked then w else TopUpKeyPool keypool 0 w
  let w ← Machine.get
  -- Get the oldest key.
  match w.setKeyPool.min with
  | none => return (-1, { nTime := 0, vchPubKey := none })
  | some nIndex =>
      Machine.modify fun w => { w with setKeyPool := w.setKeyPool.erase nIndex }
      match w.pool nIndex with
      | none => Machine.fault .readFailed
      | some record =>
          if record.vchPubKey.isNone then
            Machine.fault .invalidKey
          return (nIndex, record)

/-- `CWallet::KeepKey`. -/
def KeyWallet.KeepKey (nIndex : Int) (w : KeyWallet) : KeyWallet :=
  { w with pool := Function.update w.pool nIndex none }

/-- `CWallet::ReturnKey`. -/
def KeyWallet.ReturnKey (nIndex : Int) (w : KeyWallet) : KeyWallet :=
  { w with setKeyPool := insert nIndex w.setKeyPool }

/-! ### Holders of keys -/

structure CReserveKey where
  nIndex : Int
  vchPubKey : Option CPubKey
deriving Repr, DecidableEq, Inhabited

/-- The constructor of `CReserveKey`, and what is left of one after a key has
been kept or returned. -/
def CReserveKey.empty : CReserveKey := { nIndex := -1, vchPubKey := none }

/-- A wallet with the objects that hold keys of its pool. -/
structure KeyPoolState where
  wallet : KeyWallet
  /-- The `CReserveKey` objects, and the variables of the calls of
  `GetOldestKeyPoolTime` that have not come to their end. -/
  reserveKeys : Nat → CReserveKey
  /-- The keys of the pool that somebody was given and has kept. -/
  kept : List CPubKey

abbrev KeyPoolUser := Machine KeyPoolState Empty KeyPoolFault

namespace KeyPoolUser

/-- A call of the wallet. -/
def call {α : Type} (x : KeyPool α) : KeyPoolUser α := fun s =>
  match x s.wallet with
  | .done a wallet => .done a { s with wallet }
  | .refused r _ => r.elim
  | .faulted e => .faulted e

def set (k : Nat) (key : CReserveKey) : KeyPoolUser Unit :=
  Machine.modify fun s =>
    { s with reserveKeys := Function.update s.reserveKeys k key }

end KeyPoolUser

/-- `CReserveKey::GetReservedKey`. -/
def GetReservedKey (keypool : Int) (k : Nat) : KeyPoolUser (Option CPubKey) := do
  let s ← Machine.get
  if (s.reserveKeys k).nIndex = -1 then
    let (nIndex, record) ← KeyPoolUser.call (ReserveKeyFromKeyPool keypool)
    if nIndex ≠ -1 then
      KeyPoolUser.set k { nIndex, vchPubKey := record.vchPubKey }
      return record.vchPubKey
    else
      match s.wallet.vchDefaultKey with
      | none => return none
      | some vchDefaultKey =>
          KeyPoolUser.set k { nIndex, vchPubKey := some vchDefaultKey }
          return some vchDefaultKey
  else
    if (s.reserveKeys k).vchPubKey.isNone then
      Machine.fault .invalidKey
    return (s.reserveKeys k).vchPubKey

/-- `CReserveKey::KeepKey`. -/
def CReserveKey_KeepKey (k : Nat) : KeyPoolUser Unit :=
  Machine.modify fun s =>
    let key := s.reserveKeys k
    { s with
      wallet := if key.nIndex ≠ -1 then s.wallet.KeepKey key.nIndex else s.wallet
      kept := if key.nIndex ≠ -1 then key.vchPubKey.toList ++ s.kept else s.kept
      reserveKeys := Function.update s.reserveKeys k .empty }

/-- `CReserveKey::ReturnKey`, which the destructor calls too. -/
def CReserveKey_ReturnKey (k : Nat) : KeyPoolUser Unit :=
  Machine.modify fun s =>
    let key := s.reserveKeys k
    { s with
      wallet := if key.nIndex ≠ -1 then s.wallet.ReturnKey key.nIndex else s.wallet
      reserveKeys := Function.update s.reserveKeys k .empty }

/-- `GetKeyFromPool`, which holds the lock of the wallet throughout. -/
def GetKeyFromPool (keypool : Int) : KeyPoolUser (Option CPubKey) := do
  let (nIndex, record) ← KeyPoolUser.call (ReserveKeyFromKeyPool keypool)
  let s ← Machine.get
  if nIndex = -1 then
    if s.wallet.fLocked then
      return none
    else
      Machine.modify fun s =>
        { s with wallet := { s.wallet with nextKey := s.wallet.nextKey + 1 } }
      return some s.wallet.nextKey
  else
    Machine.modify fun s =>
      { s with
        wallet := s.wallet.KeepKey nIndex
        kept := record.vchPubKey.toList ++ s.kept }
    return record.vchPubKey

/-- The first half of `GetOldestKeyPoolTime`.  The lock of the wallet is not
held between the halves. -/
def GetOldestKeyPoolTime_reserve (keypool : Int) (k : Nat) : KeyPoolUser Unit := do
  let (nIndex, record) ← KeyPoolUser.call (ReserveKeyFromKeyPool keypool)
  KeyPoolUser.set k { nIndex, vchPubKey := record.vchPubKey }

/-! ### Runs -/

/-- What the users of a wallet can do. -/
inductive KeyPoolCall where
  | getReservedKey (k : Nat)
  | keepKey (k : Nat)
  | returnKey (k : Nat)
  | topUpKeyPool (kpSize : Nat)
  | newKeyPool
  | getKeyFromPool
  /-- The halves of `GetOldestKeyPoolTime`; the second returns the key. -/
  | oldestReserve (k : Nat)
  | oldestReturn (k : Nat)
deriving Repr, DecidableEq

def KeyPoolCall.run (keypool : Int) : KeyPoolCall → KeyPoolUser Unit
  | .getReservedKey k => do
      let _ ← GetReservedKey keypool k
  | .keepKey k => CReserveKey_KeepKey k
  | .returnKey k => CReserveKey_ReturnKey k
  | .topUpKeyPool kpSize => Machine.modify fun s =>
      { s with wallet := TopUpKeyPool keypool kpSize s.wallet }
  | .newKeyPool => Machine.modify fun s =>
      { s with wallet := NewKeyPool keypool s.wallet }
  | .getKeyFromPool => do
      let _ ← GetKeyFromPool keypool
  | .oldestReserve k => GetOldestKeyPoolTime_reserve keypool k
  | .oldestReturn k => CReserveKey_ReturnKey k

/-- The variable of a new call of `GetOldestKeyPoolTime` holds no key yet. -/
def KeyPoolCall.Starts (s : KeyPoolState) : KeyPoolCall → Prop
  | .oldestReserve k => (s.reserveKeys k).nIndex = -1
  | _ => True

/-- A wallet that has been loaded: its pool are the records of its database. -/
structure KeyPoolState.Loaded (s : KeyPoolState) : Prop where
  unlocked : s.wallet.fLocked = false
  pool : ∀ nIndex, nIndex ∈ s.wallet.setKeyPool ↔ (s.wallet.pool nIndex).isSome
  records : ∀ {nIndex record}, s.wallet.pool nIndex = some record →
    1 ≤ nIndex ∧ ∃ key < s.wallet.nextKey, record.vchPubKey = some key ∧
      s.wallet.generated nIndex = some key
  keys : ∀ {i j record record'}, s.wallet.pool i = some record →
    s.wallet.pool j = some record' → record.vchPubKey = record'.vchPubKey → i = j
  reserveKeys : ∀ k, s.reserveKeys k = .empty
  kept : s.kept = []

/-- A new wallet. -/
def KeyPoolState.new (times : Nat → Int) : KeyPoolState :=
  { wallet :=
      { setKeyPool := ∅
        pool := fun _ => none
        generated := fun _ => none
        nextKey := 0
        vchDefaultKey := none
        fLocked := false
        times }
    reserveKeys := fun _ => .empty
    kept := [] }

end Ziftrcoin.Spec
