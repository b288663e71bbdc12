/-
Module: Ziftrcoin.Spec.OrphanBlocks
Purpose: The blocks whose predecessor is not known: the objects that hold them and
  the two maps of pointers to these objects.
Trusted boundary: human-reviewed model of GetOrphanRoot, PruneOrphanBlocks and
  ProcessBlock in src/main.cpp; the checks of a block, AcceptBlock and the block
  index are parameters
Main exports: BlockPool, BlockPool.GetOrphanRoot, BlockPool.PruneOrphanBlocks
-/
import Mathlib.Tactic.Linarith.Parsing
import Ziftrcoin.Lib.Worklist
import Ziftrcoin.Spec.Node

namespace Ziftrcoin.Spec

open Ziftrcoin.Lib

/-- The orphan blocks.  A pointer is a number; using one that points at no object
is an error. -/
structure BlockPool (Env : Type) where
  /-- The objects that are allocated. -/
  objects : Std.TreeMap Nat COrphanBlock
  /-- No object was ever allocated from here on. -/
  nNext : Nat
  mapOrphanBlocks : Std.TreeMap uint256 Nat
  /-- A multimap: its pairs in order, each key with a pointer. -/
  mapOrphanBlocksByPrev : List (uint256 × Nat)
  env : Env

/-- A call of `ProcessBlock` with a block whose proof of knowledge is set. -/
structure BlockCall where
  block : CBlock
  /-- The block came from a peer. -/
  fFrom : Bool
  /-- `insecure_rand()`. -/
  nRand : Nat

/-- Insert into a multimap: behind the pairs with the same key. -/
def insertPair (pairs : List (uint256 × Nat)) (key : uint256) (p : Nat) :
    List (uint256 × Nat) :=
  pairs.takeWhile (fun pair => pair.1 ≤ key) ++
    (key, p) :: pairs.dropWhile fun pair => pair.1 ≤ key

namespace BlockPool

variable {Env : Type}

/-- No orphan yet. -/
def start (env : Env) : BlockPool Env :=
  { objects := ∅, nNext := 0, mapOrphanBlocks := ∅, mapOrphanBlocksByPrev := [], env }

/-! ### Walking from orphan to orphan -/

/-- From a pair of `mapOrphanBlocks` to the one of its predecessor. -/
def rootNext (pool : BlockPool Env) (it : uint256 × Nat) : Option (Option (uint256 × Nat)) :=
  pool.objects[it.2]?.map fun orphan =>
    pool.mapOrphanBlocks[orphan.hashPrev]?.map fun p => (orphan.hashPrev, p)

def GetOrphanRoot (fuel : Nat) (pool : BlockPool Env) (hash : uint256) : Option uint256 :=
  match pool.mapOrphanBlocks[hash]? with
  | none => some hash
  | some p => (Walk.run pool.rootNext fuel (hash, p)).map Prod.fst

/-- From a pair of `mapOrphanBlocksByPrev` to the first of those that depend on
it. -/
def leafNext (pool : BlockPool Env) (it : uint256 × Nat) : Option (Option (uint256 × Nat)) :=
  pool.objects[it.2]?.map fun orphan =>
    pool.mapOrphanBlocksByPrev.find? fun pair => pair.1 == orphan.hashBlock

/-- Delete an orphan and take it out of both maps. -/
def remove (pool : BlockPool Env) (it : uint256 × Nat) (orphan : COrphanBlock) :
    BlockPool Env :=
  { pool with
    objects := pool.objects.erase it.2
    mapOrphanBlocksByPrev := pool.mapOrphanBlocksByPrev.erase it
    mapOrphanBlocks := pool.mapOrphanBlocks.erase orphan.hashBlock }

/-- `std::max((int64_t)0, GetArg("-maxorphanblocks", ...))`. -/
def maxOrphanBlocks (maxorphanblocks : Int) : Nat := (max 0 maxorphanblocks).toNat

def PruneOrphanBlocks (fuel : Nat) (maxorphanblocks : Int) (nRand : Nat)
    (pool : BlockPool Env) : Option (BlockPool Env) :=
  if pool.mapOrphanBlocksByPrev.length ≤ maxOrphanBlocks maxorphanblocks then some pool
  else
    pool.mapOrphanBlocksByPrev[nRand % pool.mapOrphanBlocksByPrev.length]?.bind fun it =>
      (Walk.run pool.leafNext fuel it).bind fun it =>
        pool.objects[it.2]?.map fun orphan => pool.remove it orphan

/-- A new object for a block, in both maps. -/
def addOrphan (crypto : Crypto) (pool : BlockPool Env) (block : CBlock) : BlockPool Env :=
  let hash := block.GetHash crypto
  { pool with
    objects := pool.objects.insert pool.nNext
      { hashBlock := hash, hashPrev := block.hashPrevBlock, block := block.readBack }
    nNext := pool.nNext + 1
    mapOrphanBlocks := pool.mapOrphanBlocks.insert hash pool.nNext
    mapOrphanBlocksByPrev :=
      insertPair pool.mapOrphanBlocksByPrev block.hashPrevBlock pool.nNext }

/-! ### ProcessBlock -/

section Process

variable (crypto : Crypto) (CheckBlock : Env → CBlock → Bool)
  (AcceptBlock : Env → CBlock → Bool × Env) (mapBlockIndex : Env → uint256 → Bool)

/-- The inner loop over the orphans that wait for one block, with the hashes of
those that are accepted.  The pairs stay in the multimap. -/
def acceptWaiting : List (uint256 × Nat) → BlockPool Env →
    Option (BlockPool Env × List uint256)
  | [], pool => some (pool, [])
  | (_, p) :: rest, pool =>
      pool.objects[p]?.bind fun orphan =>
        let (accepted, env) := AcceptBlock pool.env (orphan.block.BuildMerkleTree crypto)
        (acceptWaiting rest { pool with
          env
          mapOrphanBlocks := pool.mapOrphanBlocks.erase orphan.hashBlock
          objects := pool.objects.erase p }).map fun (pool, pushed) =>
            (pool, if accepted then orphan.hashBlock :: pushed else pushed)

/-- A round of the loop over `vWorkQueue`; `none`: a pointer was used that points at
no object. -/
def workRound (pool : Option (BlockPool Env)) (hashPrev : uint256) :
    Option (BlockPool Env) × List uint256 :=
  match pool.bind fun pool => acceptWaiting crypto AcceptBlock
      (pool.mapOrphanBlocksByPrev.filter fun pair => pair.1 == hashPrev) pool with
  | none => (none, [])
  | some (pool, pushed) =>
      (some { pool with
        mapOrphanBlocksByPrev :=
          pool.mapOrphanBlocksByPrev.filter fun pair => pair.1 != hashPrev }, pushed)

/-- The result is what it returns, and the orphans afterwards; `none`: a pointer was
used that points at no object, or the fuel did not suffice. -/
def ProcessBlock (maxorphanblocks : Int) (fuel : Nat) (call : BlockCall)
    (pool : BlockPool Env) : Option (Bool × BlockPool Env) :=
  let hash := call.block.GetHash crypto
  if mapBlockIndex pool.env hash then some (false, pool)
  else if pool.mapOrphanBlocks.contains hash then some (false, pool)
  else if !CheckBlock pool.env call.block then some (false, pool)
  else if call.block.hashPrevBlock ≠ 0 ∧
      mapBlockIndex pool.env call.block.hashPrevBlock = false then
    if call.fFrom then
      (PruneOrphanBlocks fuel maxorphanblocks call.nRand pool).bind fun pool =>
        let pool := pool.addOrphan crypto call.block
        (GetOrphanRoot fuel pool hash).map fun _ => (true, pool)
    else some (true, pool)
  else
    match AcceptBlock pool.env call.block with
    | (false, env) => some (false, { pool with env })
    | (true, env) =>
        (Worklist.run (workRound crypto AcceptBlock) fuel (some { pool with env })
          [hash]).bind fun result => result.1.map fun pool => (true, pool)

end Process
end BlockPool

end Ziftrcoin.Spec
