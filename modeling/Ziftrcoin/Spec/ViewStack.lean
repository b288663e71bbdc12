/-
Module: Ziftrcoin.Spec.ViewStack
Purpose: Caches of coins on top of each other, with the coin database below.
Trusted boundary: human-reviewed model of CCoinsViewCache in src/coins.cpp and
  of CCoinsViewDB in src/txdb.cpp
Main exports: CacheLayer, CoinsDatabase, ViewStack
-/
import Ziftrcoin.Spec.Coins

namespace Ziftrcoin.Spec

/-! ### Views -/

/-- The members of a `CCoinsViewCache`. -/
structure CacheLayer where
  /-- Zero when the best block has to be asked for below. -/
  hashBlock : uint256
  cacheCoins : uint256 → Option CCoins
  /-- `SetBestBlock` or `GetBestBlock` was called. -/
  fAsked : Bool

/-- A `CCoinsViewCache` that was just made. -/
def CacheLayer.new : CacheLayer :=
  { hashBlock := 0, cacheCoins := fun _ => none, fAsked := false }

/-- `CCoinsViewDB`: the records 'c' and 'B' of the database. -/
structure CoinsDatabase where
  coins : uint256 → Option CCoins
  hashBestChain : Option uint256

/-- Caches over caches over the database. -/
inductive ViewStack where
  | db (base : CoinsDatabase)
  | cache (layer : CacheLayer) (base : ViewStack)

/-- `BatchWriteCoins`: pruned entries are erased, all others written, to be read
back when they are next needed. -/
def CoinsDatabase.writeCoins (d : CoinsDatabase) (mapCoins : uint256 → Option CCoins) :
    uint256 → Option CCoins := fun txid =>
  match mapCoins txid with
  | none => d.coins txid
  | some coins => if coins.IsPruned then none else some coins.readBack

namespace ViewStack

/-- `GetCoins` in both its forms, and `FetchCoins`: what is found below is copied
into every cache that was asked. -/
def GetCoins : ViewStack → uint256 → Option CCoins × ViewStack
  | .db base, txid => (base.coins txid, .db base)
  | .cache layer base, txid =>
      match layer.cacheCoins txid with
      | some coins => (some coins, .cache layer base)
      | none =>
          let (found, base) := base.GetCoins txid
          match found with
          | none => (none, .cache layer base)
          | some coins =>
              (some coins, .cache
                { layer with
                  cacheCoins := Function.update layer.cacheCoins txid (some coins) } base)

def HaveCoins (view : ViewStack) (txid : uint256) : Bool × ViewStack :=
  let (found, view) := view.GetCoins txid
  (found.isSome, view)

/-- The first loop of `HaveInputs`: coins are there for every input. -/
def haveAllCoins : ViewStack → List CTxIn → Bool × ViewStack
  | view, [] => (true, view)
  | view, txin :: vin =>
      let (have_, view) := view.HaveCoins txin.prevout.hash
      if have_ then view.haveAllCoins vin else (false, view)

/-- The second loop: the outputs themselves are available. -/
def haveAllOutputs : ViewStack → List CTxIn → Bool × ViewStack
  | view, [] => (true, view)
  | view, txin :: vin =>
      let (found, view) := view.GetCoins txin.prevout.hash
      if found.any fun coins => coins.IsAvailable txin.prevout.n then
        view.haveAllOutputs vin
      else (false, view)

def HaveInputs (view : ViewStack) (tx : CTransaction) : Bool × ViewStack :=
  if tx.IsCoinBase then (true, view)
  else
    let (have_, view) := view.haveAllCoins tx.vin
    if have_ then view.haveAllOutputs tx.vin else (false, view)

def GetBestBlock : ViewStack → uint256 × ViewStack
  | .db base => (base.hashBestChain.getD 0, .db base)
  | .cache layer base =>
      if layer.hashBlock = 0 then
        let (hashBlock, base) := base.GetBestBlock
        (hashBlock, .cache { layer with hashBlock, fAsked := true } base)
      else (layer.hashBlock, .cache { layer with fAsked := true } base)

/-- `SetCoins` of a cache. -/
def SetCoins (txid : uint256) (coins : CCoins) : ViewStack → Option ViewStack
  | .db _ => none
  | .cache layer base =>
      some (.cache
        { layer with
          cacheCoins := Function.update layer.cacheCoins txid (some coins) } base)

/-- A change through the reference that `GetCoins` of a cache returns. -/
def mutate (txid : uint256) (change : CCoins → CCoins) (view : ViewStack) :
    Option ViewStack :=
  match view.GetCoins txid with
  | (some coins, .cache layer base) => SetCoins txid (change coins) (.cache layer base)
  | _ => none

/-- `SetBestBlock` of a cache. -/
def SetBestBlock (hashBlock : uint256) : ViewStack → Option ViewStack
  | .db _ => none
  | .cache layer base => some (.cache { layer with hashBlock, fAsked := true } base)

/-- `BatchWrite`, which the database does in one piece. -/
def BatchWrite (mapCoins : uint256 → Option CCoins) (hashBlock : uint256) :
    ViewStack → ViewStack
  | .db base => .db
      { coins := base.writeCoins mapCoins
        hashBestChain := if hashBlock ≠ 0 then some hashBlock else base.hashBestChain }
  | .cache layer base => .cache
      { layer with
        cacheCoins := fun txid => (mapCoins txid).or (layer.cacheCoins txid)
        hashBlock } base

/-- `Flush` of a cache. -/
def Flush : ViewStack → Option ViewStack
  | .db _ => none
  | .cache layer base =>
      some (.cache { layer with cacheCoins := fun _ => none }
        (base.BatchWrite layer.cacheCoins layer.hashBlock))

/-- A call of the view that has `k` caches above it. -/
def atDepth (call : ViewStack → Option ViewStack) : (k : Nat) → ViewStack → Option ViewStack
  | 0, view => call view
  | _ + 1, .db _ => none
  | k + 1, .cache layer base => (atDepth call k base).map (.cache layer)

/-- The view that has `k` caches above it. -/
def under : (k : Nat) → ViewStack → Option ViewStack
  | 0, view => some view
  | _ + 1, .db _ => none
  | k + 1, .cache _ base => base.under k

/-- A cache that is destroyed. -/
def drop : ViewStack → Option ViewStack
  | .db _ => none
  | .cache _ base => some base

/-- The number of views. -/
def height : ViewStack → Nat
  | .db _ => 1
  | .cache _ base => base.height + 1

/-- `SetBestBlock` or `GetBestBlock` was called for the cache. -/
def asked : ViewStack → Bool
  | .db _ => false
  | .cache layer _ => layer.fAsked

end ViewStack

/-! ### Runs -/

/-- What can be done with a stack of views; `k` is the depth of the view that it
is done with. -/
inductive CoinsOp where
  | getCoins (k : Nat) (txid : uint256)
  | haveCoins (k : Nat) (txid : uint256)
  | haveInputs (k : Nat) (tx : CTransaction)
  | getBestBlock (k : Nat)
  | setCoins (k : Nat) (txid : uint256) (coins : CCoins)
  | mutate (k : Nat) (txid : uint256) (change : CCoins → CCoins)
  | setBestBlock (k : Nat) (hashBlock : uint256)
  | flush (k : Nat)
  /-- A new cache on top. -/
  | push
  /-- The cache on top is destroyed. -/
  | drop

/-- The stack after an operation, unless an assertion fails. -/
def CoinsOp.run : CoinsOp → ViewStack → Option ViewStack
  | .getCoins k txid => ViewStack.atDepth (fun view => some (view.GetCoins txid).2) k
  | .haveCoins k txid => ViewStack.atDepth (fun view => some (view.HaveCoins txid).2) k
  | .haveInputs k tx => ViewStack.atDepth (fun view => some (view.HaveInputs tx).2) k
  | .getBestBlock k => ViewStack.atDepth (fun view => some view.GetBestBlock.2) k
  | .setCoins k txid coins => ViewStack.atDepth (ViewStack.SetCoins txid coins) k
  | .mutate k txid change => ViewStack.atDepth (ViewStack.mutate txid change) k
  | .setBestBlock k hashBlock => ViewStack.atDepth (ViewStack.SetBestBlock hashBlock) k
  | .flush k => ViewStack.atDepth ViewStack.Flush k
  | .push => fun view => some (.cache .new view)
  | .drop => ViewStack.drop

/-- A cache is flushed only after its best block was set or asked for. -/
def CoinsOp.Prepared (view : ViewStack) : CoinsOp → Prop
  | .flush k => ∃ flushed, view.under k = some flushed ∧ flushed.asked = true
  | _ => True

/-- Operations one after another, all of which meet a condition. -/
inductive CoinsRun (P : ViewStack → CoinsOp → Prop) :
    ViewStack → List CoinsOp → ViewStack → Prop where
  | nil (view : ViewStack) : CoinsRun P view [] view
  | cons {view view' view'' : ViewStack} {op : CoinsOp} {ops : List CoinsOp}
      (hop : P view op) (hprepared : op.Prepared view) (hrun : op.run view = some view')
      (hrest : CoinsRun P view' ops view'') : CoinsRun P view (op :: ops) view''

/-! ### Flat maps -/

/-- An update that is applied to a single map directly; everything else changes
nothing. -/
def CCoinsViewCache.apply (flat : CCoinsViewCache) : CoinsOp → CCoinsViewCache
  | .setCoins _ txid coins => flat.SetCoins txid coins
  | .mutate _ txid change =>
      { flat with
        coins := Function.update flat.coins txid ((flat.coins txid).map change) }
  | .setBestBlock _ hashBlock => flat.SetBestBlock hashBlock
  | _ => flat

/-- The depth of the view that is updated. -/
def CoinsOp.depth : CoinsOp → Nat
  | .setCoins k _ _ => k
  | .mutate k _ _ => k
  | .setBestBlock k _ => k
  | _ => 0

/-- What is done to a view is done to the maps of all views above it as well. -/
def applyTo (op : CoinsOp) : (k : Nat) → List CCoinsViewCache → List CCoinsViewCache
  | _, [] => []
  | 0, flat :: flats => flat.apply op :: flats
  | k + 1, flat :: flats => flat.apply op :: applyTo op k flats

/-- Flat maps for the views of a stack, the one on top first. -/
def applyAll : List CCoinsViewCache → CoinsOp → List CCoinsViewCache
  | flats, .flush k =>
      match flats[k]? with
      | none => flats
      | some flat => flats.set (k + 1) flat
  | flats, .drop => flats.tail
  | flat :: flats, .push => flat :: flat :: flats
  | flats, op => applyTo op op.depth flats

end Ziftrcoin.Spec
