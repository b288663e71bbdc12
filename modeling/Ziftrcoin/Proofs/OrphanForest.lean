/-
Module: Ziftrcoin.Proofs.OrphanForest
Purpose: The orphan blocks are a forest that both maps describe in the same way.
  Walks over it end, the pool keeps its bound, and no orphan whose predecessor is
  in the block index is left.
Trusted boundary: none
Main exports: Forest, orphanBlocks_consistent
-/
import Ziftrcoin.Proofs.OrphanPool
import Ziftrcoin.Spec.OrphanBlocks

namespace Ziftrcoin.Spec

open Ziftrcoin.Lib

/-! ### Invariants -/

/-- No chain of blocks, each the predecessor of the next, leads back to its
first. -/
def AcyclicBlocks (crypto : Crypto) (blocks : List CBlock) : Prop :=
  ∀ hash, ¬ Relation.TransGen (fun child parent =>
    ∃ block ∈ blocks, block.GetHash crypto = child ∧ block.hashPrevBlock = parent) hash hash

/-- Both maps point at exactly the objects that are allocated, one by their own
hashes and the other by those of their predecessors; and every object is of a block
among some. -/
structure Forest {Env : Type} (crypto : Crypto) (blocks : List CBlock) (pool : BlockPool Env) :
    Prop where
  byHash : ∀ (hash : uint256) (p : ℕ), pool.mapOrphanBlocks[hash]? = some p ↔
    ∃ orphan, pool.objects[p]? = some orphan ∧ orphan.hashBlock = hash
  byPrev : ∀ (hashPrev : uint256) (p : ℕ), (hashPrev, p) ∈ pool.mapOrphanBlocksByPrev ↔
    ∃ orphan, pool.objects[p]? = some orphan ∧ orphan.hashPrev = hashPrev
  nodup : pool.mapOrphanBlocksByPrev.Nodup
  allocated : ∀ (p : ℕ) (orphan : COrphanBlock), pool.objects[p]? = some orphan → p < pool.nNext
  block : ∀ (p : ℕ) (orphan : COrphanBlock), pool.objects[p]? = some orphan →
    ∃ block ∈ blocks, orphan = { hashBlock := block.GetHash crypto
                                 hashPrev := block.hashPrevBlock
                                 block := block.readBack }

/-- What the block index does: accepting a block adds it, and refusing one leaves
the index as it is. -/
structure Tracks {Env : Type} (crypto : Crypto) (AcceptBlock : Env → CBlock → Bool × Env)
    (mapBlockIndex : Env → uint256 → Bool) : Prop where
  accepted : ∀ env block, (AcceptBlock env block).1 = true → ∀ hash,
    mapBlockIndex (AcceptBlock env block).2 hash =
      (mapBlockIndex env hash || hash == block.GetHash crypto)
  refused : ∀ env block, (AcceptBlock env block).1 = false → ∀ hash,
    mapBlockIndex (AcceptBlock env block).2 hash = mapBlockIndex env hash

section Pool

variable {Env : Type} {crypto : Crypto} {blocks : List CBlock} {pool : BlockPool Env}

theorem forest_start (env : Env) : Forest crypto blocks (.start env) := by
  have hnone : ∀ (p : ℕ) (orphan : COrphanBlock),
      (BlockPool.start env).objects[p]? ≠ some orphan := lookup_empty_ne
  refine ⟨fun hash p => iff_of_false (lookup_empty_ne hash p) ?_,
    fun hashPrev p => iff_of_false List.not_mem_nil ?_, List.nodup_nil,
    fun p orphan h => absurd h (hnone p orphan), fun p orphan h => absurd h (hnone p orphan)⟩
  · rintro ⟨orphan, horphan, -⟩
    exact hnone p orphan horphan
  · rintro ⟨orphan, horphan, -⟩
    exact hnone p orphan horphan

/-- The environment does not matter. -/
theorem Forest.withEnv (h : Forest crypto blocks pool) (env : Env) :
    Forest crypto blocks { pool with env } :=
  { byHash := h.byHash, byPrev := h.byPrev, nodup := h.nodup, allocated := h.allocated
    block := h.block }

theorem insertPair_perm (pairs : List (uint256 × ℕ)) (key : uint256) (p : ℕ) :
    (insertPair pairs key p).Perm ((key, p) :: pairs) := by
  unfold insertPair
  refine List.perm_middle.trans ?_
  rw [List.takeWhile_append_dropWhile]

/-! ### Adding and removing an orphan -/

theorem Forest.addOrphan (h : Forest crypto blocks pool) {block : CBlock} (hblock : block ∈ blocks)
    (hnew : pool.mapOrphanBlocks[block.GetHash crypto]? = none) :
    Forest crypto blocks (pool.addOrphan crypto block) := by
  have hfree : pool.objects[pool.nNext]? = none := by
    cases hobject : pool.objects[pool.nNext]? with
    | none => rfl
    | some orphan => exact absurd (h.allocated _ orphan hobject) (lt_irrefl _)
  have hobjects : ∀ (p : ℕ) (orphan : COrphanBlock),
      (pool.addOrphan crypto block).objects[p]? = some orphan ↔
        (p = pool.nNext ∧ orphan = { hashBlock := block.GetHash crypto
                                     hashPrev := block.hashPrevBlock
                                     block := block.readBack }) ∨
          pool.objects[p]? = some orphan := by
    intro p orphan
    unfold BlockPool.addOrphan
    rw [lookup_insert_iff]
    refine or_congr_right (and_iff_right_of_imp fun horphan => ?_)
    exact Nat.ne_of_lt (h.allocated p orphan horphan)
  refine ⟨fun hash p => ?_, fun hashPrev p => ?_, ?_, fun p orphan horphan => ?_,
    fun p orphan horphan => ?_⟩
  · simp only [hobjects, or_and_right, exists_or]
    rw [← h.byHash]
    unfold BlockPool.addOrphan
    rw [lookup_insert_iff]
    refine or_congr ⟨?_, ?_⟩ (and_iff_right_of_imp fun hp => ?_)
    · rintro ⟨rfl, rfl⟩
      exact ⟨_, ⟨rfl, rfl⟩, rfl⟩
    · rintro ⟨orphan, ⟨rfl, rfl⟩, rfl⟩
      exact ⟨rfl, rfl⟩
    · rintro rfl
      rw [hnew] at hp
      cases hp
  · simp only [hobjects, or_and_right, exists_or]
    rw [← h.byPrev]
    unfold BlockPool.addOrphan
    dsimp only
    rw [(insertPair_perm _ _ _).mem_iff, List.mem_cons, Prod.mk.injEq]
    refine or_congr_left ⟨?_, ?_⟩
    · rintro ⟨rfl, rfl⟩
      exact ⟨_, ⟨rfl, rfl⟩, rfl⟩
    · rintro ⟨orphan, ⟨rfl, rfl⟩, rfl⟩
      exact ⟨rfl, rfl⟩
  · unfold BlockPool.addOrphan
    dsimp only
    rw [(insertPair_perm _ _ _).nodup_iff, List.nodup_cons]
    refine ⟨fun hmem => ?_, h.nodup⟩
    obtain ⟨orphan, horphan, -⟩ := (h.byPrev _ _).mp hmem
    rw [hfree] at horphan
    cases horphan
  · unfold BlockPool.addOrphan
    dsimp only
    rcases (hobjects p orphan).mp horphan with ⟨rfl, -⟩ | horphan
    · exact Nat.lt_succ_self _
    · exact Nat.lt_succ_of_lt (h.allocated p orphan horphan)
  · rcases (hobjects p orphan).mp horphan with ⟨-, rfl⟩ | horphan
    · exact ⟨block, hblock, rfl⟩
    · exact h.block p orphan horphan

theorem length_addOrphan (block : CBlock) :
    (pool.addOrphan crypto block).mapOrphanBlocksByPrev.length =
      pool.mapOrphanBlocksByPrev.length + 1 :=
  (insertPair_perm _ _ _).length_eq

/-- Two objects have different hashes. -/
theorem Forest.eq_of_hashBlock (h : Forest crypto blocks pool) {p p' : ℕ}
    {orphan orphan' : COrphanBlock} (horphan : pool.objects[p]? = some orphan)
    (horphan' : pool.objects[p']? = some orphan')
    (hhash : orphan.hashBlock = orphan'.hashBlock) : p = p' := by
  have hp := (h.byHash _ _).mpr ⟨orphan, horphan, hhash⟩
  have hp' := (h.byHash _ _).mpr ⟨orphan', horphan', rfl⟩
  exact Option.some.inj (hp.symm.trans hp')

/-- Freeing some of the objects and taking them out of both maps. -/
theorem Forest.restrict {pool' : BlockPool Env} (h : Forest crypto blocks pool)
    (gone : ℕ → COrphanBlock → Prop)
    (hobjects : ∀ (p : ℕ) (orphan : COrphanBlock), pool'.objects[p]? = some orphan ↔
      pool.objects[p]? = some orphan ∧ ¬ gone p orphan)
    (hbyHash : ∀ (p : ℕ) (orphan : COrphanBlock), pool.objects[p]? = some orphan →
      (pool'.mapOrphanBlocks[orphan.hashBlock]? = some p ↔ ¬ gone p orphan))
    (hless : ∀ (hash : uint256) (p : ℕ), pool'.mapOrphanBlocks[hash]? = some p →
      pool.mapOrphanBlocks[hash]? = some p)
    (hbyPrev : ∀ (p : ℕ) (orphan : COrphanBlock), pool.objects[p]? = some orphan →
      ((orphan.hashPrev, p) ∈ pool'.mapOrphanBlocksByPrev ↔ ¬ gone p orphan))
    (hsub : pool'.mapOrphanBlocksByPrev.Sublist pool.mapOrphanBlocksByPrev)
    (hnext : pool'.nNext = pool.nNext) : Forest crypto blocks pool' := by
  refine ⟨fun hash p => ⟨fun hp => ?_, ?_⟩, fun hashPrev p => ⟨fun hp => ?_, ?_⟩,
    h.nodup.sublist hsub, fun p orphan horphan => ?_, fun p orphan horphan => ?_⟩
  · obtain ⟨orphan, horphan, rfl⟩ := (h.byHash hash p).mp (hless hash p hp)
    exact ⟨orphan, (hobjects p orphan).mpr ⟨horphan, (hbyHash p orphan horphan).mp hp⟩, rfl⟩
  · rintro ⟨orphan, horphan, rfl⟩
    obtain ⟨hstored, hkept⟩ := (hobjects p orphan).mp horphan
    exact (hbyHash p orphan hstored).mpr hkept
  · obtain ⟨orphan, horphan, rfl⟩ := (h.byPrev hashPrev p).mp (hsub.subset hp)
    exact ⟨orphan, (hobjects p orphan).mpr ⟨horphan, (hbyPrev p orphan horphan).mp hp⟩, rfl⟩
  · rintro ⟨orphan, horphan, rfl⟩
    obtain ⟨hstored, hkept⟩ := (hobjects p orphan).mp horphan
    exact (hbyPrev p orphan hstored).mpr hkept
  · rw [hnext]
    exact h.allocated p orphan ((hobjects p orphan).mp horphan).1
  · exact h.block p orphan ((hobjects p orphan).mp horphan).1

theorem Forest.remove (h : Forest crypto blocks pool) {it : uint256 × ℕ} {orphan : COrphanBlock}
    (hit : it ∈ pool.mapOrphanBlocksByPrev) (horphan : pool.objects[it.2]? = some orphan) :
    Forest crypto blocks (pool.remove it orphan) := by
  have hkey : orphan.hashPrev = it.1 := by
    obtain ⟨own, hown, hkey⟩ := (h.byPrev it.1 it.2).mp hit
    obtain rfl := Option.some.inj (hown.symm.trans horphan)
    exact hkey
  unfold BlockPool.remove
  apply h.restrict fun p _ => p = it.2
  · intro p other
    rw [lookup_erase_iff, and_comm]
  · intro p other hother
    rw [lookup_erase_iff, and_iff_left ((h.byHash _ _).mpr ⟨other, hother, rfl⟩)]
    refine not_congr ⟨h.eq_of_hashBlock hother horphan, ?_⟩
    rintro rfl
    rw [Option.some.inj (hother.symm.trans horphan)]
  · exact fun hash p hp => (lookup_erase_iff.mp hp).2
  · intro p other hother
    rw [h.nodup.mem_erase_iff, and_iff_left ((h.byPrev _ _).mpr ⟨other, hother, rfl⟩)]
    refine not_congr ⟨congrArg Prod.snd, ?_⟩
    rintro rfl
    rw [Option.some.inj (hother.symm.trans horphan), hkey]
  · exact List.erase_sublist
  · rfl

/-! ### Walks -/

theorem wellFounded_children (hblocks : AcyclicBlocks crypto blocks) :
    WellFounded fun child parent : uint256 =>
      ∃ block ∈ blocks, block.GetHash crypto = child ∧ block.hashPrevBlock = parent := by
  have hkeys : ∀ child parent : uint256,
      (∃ block ∈ blocks, block.GetHash crypto = child ∧ block.hashPrevBlock = parent) →
        child ∈ (blocks.map fun block => block.GetHash crypto).toFinset := by
    rintro _ parent ⟨block, hblock, rfl, -⟩
    exact List.mem_toFinset.mpr (List.mem_map_of_mem hblock)
  exact wellFounded_of_acyclic hkeys hblocks

theorem wellFounded_parents (hblocks : AcyclicBlocks crypto blocks) :
    WellFounded fun parent child : uint256 =>
      ∃ block ∈ blocks, block.GetHash crypto = child ∧ block.hashPrevBlock = parent := by
  have hkeys : ∀ parent child : uint256,
      (∃ block ∈ blocks, block.GetHash crypto = child ∧ block.hashPrevBlock = parent) →
        parent ∈ (blocks.map fun block => block.hashPrevBlock).toFinset := by
    rintro _ child ⟨block, hblock, -, rfl⟩
    exact List.mem_toFinset.mpr (List.mem_map_of_mem hblock)
  exact wellFounded_of_acyclic hkeys fun hash hchain =>
    hblocks hash (Relation.transGen_swap.mp hchain)

theorem Forest.link (h : Forest crypto blocks pool) {p : ℕ} {orphan : COrphanBlock}
    (horphan : pool.objects[p]? = some orphan) :
    ∃ block ∈ blocks, block.GetHash crypto = orphan.hashBlock ∧
      block.hashPrevBlock = orphan.hashPrev := by
  obtain ⟨block, hblock, rfl⟩ := h.block p orphan horphan
  exact ⟨block, hblock, rfl, rfl⟩

/-- `GetOrphanRoot` ends. -/
theorem getOrphanRoot_terminates (h : Forest crypto blocks pool)
    (hblocks : AcyclicBlocks crypto blocks) (hash : uint256) :
    ∃ root enough, ∀ fuel, enough ≤ fuel → pool.GetOrphanRoot fuel hash = some root := by
  unfold BlockPool.GetOrphanRoot
  cases hfirst : pool.mapOrphanBlocks[hash]? with
  | none => exact ⟨hash, 0, fun _ _ => rfl⟩
  | some p =>
      have hnext : ∀ it : uint256 × ℕ, pool.mapOrphanBlocks[it.1]? = some it.2 →
          ∃ next, pool.rootNext it = some next ∧ ∀ it', next = some it' →
            pool.mapOrphanBlocks[it'.1]? = some it'.2 ∧
            ∃ block ∈ blocks, block.GetHash crypto = it.1 ∧ block.hashPrevBlock = it'.1 := by
        intro it hit
        obtain ⟨orphan, horphan, hhash⟩ := (h.byHash _ _).mp hit
        refine ⟨pool.mapOrphanBlocks[orphan.hashPrev]?.map fun q => (orphan.hashPrev, q), ?_, ?_⟩
        · unfold BlockPool.rootNext
          rw [horphan]
          rfl
        · intro it' hit'
          obtain ⟨q, hq, rfl⟩ := Option.map_eq_some_iff.mp hit'
          obtain ⟨block, hblock, hown, hprev⟩ := h.link horphan
          exact ⟨hq, block, hblock, hown.trans hhash, hprev⟩
      obtain ⟨last, enough, -, -, hrun⟩ := Walk.run_terminates
        (InvImage.wf Prod.fst (wellFounded_parents hblocks)) hnext
        (show pool.mapOrphanBlocks[(hash, p).1]? = some (hash, p).2 from hfirst)
      exact ⟨last.1, enough, fun fuel hfuel => congrArg (Option.map Prod.fst) (hrun fuel hfuel)⟩

/-- The walk of `PruneOrphanBlocks` ends, at an orphan that no other depends on. -/
theorem leafWalk_terminates (h : Forest crypto blocks pool)
    (hblocks : AcyclicBlocks crypto blocks) {it : uint256 × ℕ}
    (hit : it ∈ pool.mapOrphanBlocksByPrev) :
    ∃ last orphan enough, last ∈ pool.mapOrphanBlocksByPrev ∧
      pool.objects[last.2]? = some orphan ∧
      (∀ (p : ℕ) (other : COrphanBlock), pool.objects[p]? = some other →
        other.hashPrev ≠ orphan.hashBlock) ∧
      ∀ fuel, enough ≤ fuel → Walk.run pool.leafNext fuel it = some last := by
  have hnext : ∀ it : uint256 × ℕ, it ∈ pool.mapOrphanBlocksByPrev →
      ∃ next, pool.leafNext it = some next ∧ ∀ it', next = some it' →
        it' ∈ pool.mapOrphanBlocksByPrev ∧
        ∃ block ∈ blocks, block.GetHash crypto = it'.1 ∧ block.hashPrevBlock = it.1 := by
    intro it hit
    obtain ⟨orphan, horphan, hprev⟩ := (h.byPrev it.1 it.2).mp hit
    refine ⟨pool.mapOrphanBlocksByPrev.find? fun pair => pair.1 == orphan.hashBlock, ?_, ?_⟩
    · unfold BlockPool.leafNext
      rw [horphan]
      rfl
    · intro it' hit'
      obtain ⟨block, hblock, hown, hparent⟩ := h.link horphan
      have hkey : it'.1 = orphan.hashBlock := by simpa using List.find?_some hit'
      exact ⟨List.mem_of_find?_eq_some hit', block, hblock, hown.trans hkey.symm,
        hparent.trans hprev⟩
  obtain ⟨last, enough, hlast, hend, hrun⟩ := Walk.run_terminates
    (InvImage.wf Prod.fst (wellFounded_children hblocks)) hnext hit
  obtain ⟨orphan, horphan, -⟩ := (h.byPrev last.1 last.2).mp hlast
  refine ⟨last, orphan, enough, hlast, horphan, fun p other hother hdepends => ?_, hrun⟩
  unfold BlockPool.leafNext at hend
  rw [horphan] at hend
  have hnone := List.find?_eq_none.mp (Option.some.inj hend)
  exact hnone _ ((h.byPrev _ p).mpr ⟨other, hother, rfl⟩) (by simpa using hdepends)

/-! ### Pruning -/

/-- Nothing was removed, or one orphan that no stored orphan depends on. -/
def LeafRemoved (pool pool' : BlockPool Env) : Prop :=
  pool' = pool ∨ ∃ it orphan, it ∈ pool.mapOrphanBlocksByPrev ∧
    pool.objects[it.2]? = some orphan ∧
    (∀ (p : ℕ) (other : COrphanBlock), pool.objects[p]? = some other →
      other.hashPrev ≠ orphan.hashBlock) ∧
    pool' = pool.remove it orphan

theorem pruneOrphanBlocks_spec (h : Forest crypto blocks pool)
    (hblocks : AcyclicBlocks crypto blocks) (maxorphanblocks : ℤ) (nRand : ℕ) :
    ∃ pool' enough,
      (∀ fuel, enough ≤ fuel →
        BlockPool.PruneOrphanBlocks fuel maxorphanblocks nRand pool = some pool') ∧
      LeafRemoved pool pool' ∧
      (pool.mapOrphanBlocksByPrev.length ≤ BlockPool.maxOrphanBlocks maxorphanblocks + 1 →
        pool'.mapOrphanBlocksByPrev.length ≤ BlockPool.maxOrphanBlocks maxorphanblocks) := by
  unfold BlockPool.PruneOrphanBlocks
  by_cases hroom :
      pool.mapOrphanBlocksByPrev.length ≤ BlockPool.maxOrphanBlocks maxorphanblocks
  · exact ⟨pool, 0, fun fuel _ => if_pos hroom, .inl rfl, fun _ => hroom⟩
  · have hpos : nRand % pool.mapOrphanBlocksByPrev.length < pool.mapOrphanBlocksByPrev.length :=
      Nat.mod_lt _ (by omega)
    obtain ⟨last, orphan, enough, hlast, horphan, hleaf, hrun⟩ :=
      leafWalk_terminates h hblocks (List.getElem_mem hpos)
    refine ⟨pool.remove last orphan, enough, fun fuel hfuel => ?_,
      .inr ⟨last, orphan, hlast, horphan, hleaf, rfl⟩, fun hlength => ?_⟩
    · rw [if_neg hroom, List.getElem?_eq_getElem hpos, Option.bind_some, hrun fuel hfuel,
        Option.bind_some, horphan, Option.map_some]
    · have herase : (pool.remove last orphan).mapOrphanBlocksByPrev.length =
          pool.mapOrphanBlocksByPrev.length - 1 := List.length_erase_of_mem hlast
      omega

theorem LeafRemoved.forest {pool' : BlockPool Env} (hremoved : LeafRemoved pool pool')
    (h : Forest crypto blocks pool) : Forest crypto blocks pool' := by
  rcases hremoved with rfl | ⟨it, orphan, hit, horphan, -, rfl⟩
  · exact h
  · exact h.remove hit horphan

theorem LeafRemoved.env {pool' : BlockPool Env} (hremoved : LeafRemoved pool pool') :
    pool'.env = pool.env := by
  rcases hremoved with rfl | ⟨it, orphan, -, -, -, rfl⟩ <;> rfl

/-- Removing an orphan adds no object. -/
theorem LeafRemoved.objects {pool' : BlockPool Env} (hremoved : LeafRemoved pool pool') {p : ℕ}
    {orphan : COrphanBlock} (horphan : pool'.objects[p]? = some orphan) :
    pool.objects[p]? = some orphan := by
  rcases hremoved with rfl | ⟨it, own, -, -, -, rfl⟩
  · exact horphan
  · exact (lookup_erase_iff.mp horphan).2

theorem LeafRemoved.byHash {pool' : BlockPool Env} (hremoved : LeafRemoved pool pool')
    {hash : uint256} (hnone : pool.mapOrphanBlocks[hash]? = none) :
    pool'.mapOrphanBlocks[hash]? = none := by
  rcases hremoved with rfl | ⟨it, own, -, -, -, rfl⟩
  · exact hnone
  · refine Option.eq_none_iff_forall_ne_some.mpr fun p hp => ?_
    rw [(lookup_erase_iff.mp hp).2] at hnone
    cases hnone

/-! ### A round of the work queue -/

section Work

variable {AcceptBlock : Env → CBlock → Bool × Env} {mapBlockIndex : Env → uint256 → Bool}

/-- What the inner loop leaves of the orphans: all but those it went over. -/
structure Freed (entries : List (uint256 × ℕ)) (pool pool' : BlockPool Env) : Prop where
  objects : ∀ (p : ℕ) (orphan : COrphanBlock), pool'.objects[p]? = some orphan ↔
    pool.objects[p]? = some orphan ∧ p ∉ entries.map Prod.snd
  byHash : ∀ (hash : uint256) (p : ℕ), pool'.mapOrphanBlocks[hash]? = some p ↔
    pool.mapOrphanBlocks[hash]? = some p ∧ ∀ q ∈ entries.map Prod.snd,
      ∀ orphan : COrphanBlock, pool.objects[q]? = some orphan → orphan.hashBlock ≠ hash
  byPrev : pool'.mapOrphanBlocksByPrev = pool.mapOrphanBlocksByPrev
  nNext : pool'.nNext = pool.nNext

/-- The hashes that the inner loop pushes: of orphans it went over, and they are what it
adds to the block index. -/
structure Pushed (crypto : Crypto) (AcceptBlock : Env → CBlock → Bool × Env)
    (mapBlockIndex : Env → uint256 → Bool) (entries : List (uint256 × ℕ))
    (pool pool' : BlockPool Env) (pushed : List uint256) : Prop where
  waited : ∀ hash ∈ pushed, ∃ q ∈ entries.map Prod.snd, ∃ orphan : COrphanBlock,
    pool.objects[q]? = some orphan ∧ orphan.hashBlock = hash
  index : Tracks crypto AcceptBlock mapBlockIndex → ∀ hash,
    mapBlockIndex pool'.env hash = (mapBlockIndex pool.env hash || pushed.contains hash)

variable (AcceptBlock mapBlockIndex) in
theorem acceptWaiting_spec : ∀ (entries : List (uint256 × ℕ)) (pool : BlockPool Env),
    (∀ pair ∈ entries, ∃ orphan : COrphanBlock, pool.objects[pair.2]? = some orphan ∧
      orphan.block.GetHash crypto = orphan.hashBlock) →
    (entries.map Prod.snd).Nodup →
    ∃ pool' pushed, BlockPool.acceptWaiting crypto AcceptBlock entries pool =
        some (pool', pushed) ∧ Freed entries pool pool' ∧
      Pushed crypto AcceptBlock mapBlockIndex entries pool pool' pushed
  | [], pool => by
      rintro - -
      refine ⟨pool, [], rfl, ⟨fun p orphan => ?_, fun hash p => ?_, rfl, rfl⟩,
        ⟨fun hash h => absurd h List.not_mem_nil, fun _ hash => ?_⟩⟩
      · simp
      · simp
      · simp
  | (key, p) :: rest, pool => by
      intro halive hdistinct
      obtain ⟨orphan, horphan, hown⟩ := halive (key, p) List.mem_cons_self
      rw [List.map_cons, List.nodup_cons] at hdistinct
      let mid : BlockPool Env := { pool with
        env := (AcceptBlock pool.env (orphan.block.BuildMerkleTree crypto)).2
        mapOrphanBlocks := pool.mapOrphanBlocks.erase orphan.hashBlock
        objects := pool.objects.erase p }
      have hobjects : ∀ (q : ℕ) (other : COrphanBlock), mid.objects[q]? = some other ↔
          pool.objects[q]? = some other ∧ q ≠ p := by
        intro q other
        rw [lookup_erase_iff, and_comm]
      have hbyHash : ∀ (hash : uint256) (q : ℕ), mid.mapOrphanBlocks[hash]? = some q ↔
          pool.mapOrphanBlocks[hash]? = some q ∧ orphan.hashBlock ≠ hash := by
        intro hash q
        rw [lookup_erase_iff, and_comm, ne_comm]
      have halive' : ∀ pair ∈ rest, ∃ other : COrphanBlock,
          mid.objects[pair.2]? = some other ∧
            other.block.GetHash crypto = other.hashBlock := by
        intro pair hpair
        obtain ⟨other, hother, hhash⟩ := halive pair (List.mem_cons_of_mem _ hpair)
        refine ⟨other, (hobjects _ _).mpr ⟨hother, fun hsame => ?_⟩, hhash⟩
        exact hdistinct.1 (List.mem_map.mpr ⟨pair, hpair, hsame⟩)
      obtain ⟨pool', pushed, hrest, hfreed, hpushed⟩ :=
        acceptWaiting_spec rest mid halive' hdistinct.2
      refine ⟨pool', if (AcceptBlock pool.env (orphan.block.BuildMerkleTree crypto)).1
        then orphan.hashBlock :: pushed else pushed, ?_, ⟨fun q other => ?_, fun hash q => ?_,
          hfreed.byPrev, hfreed.nNext⟩, ⟨fun hash hmem => ?_, fun htracks hash => ?_⟩⟩
      · rw [BlockPool.acceptWaiting, horphan, Option.bind_some]
        exact congrArg (Option.map _) hrest
      · rw [hfreed.objects, hobjects, List.map_cons, List.mem_cons, not_or, and_assoc]
      · rw [hfreed.byHash, hbyHash, List.map_cons, List.forall_mem_cons, and_assoc]
        refine and_congr_right fun _ => ⟨?_, ?_⟩
        · rintro ⟨hne, hothers⟩
          refine ⟨fun other hother => ?_, fun r hr other hother => ?_⟩
          · obtain rfl := Option.some.inj (horphan.symm.trans hother)
            exact hne
          · exact hothers r hr other ((hobjects _ _).mpr
              ⟨hother, fun hsame => hdistinct.1 (hsame ▸ hr)⟩)
        · rintro ⟨hfirst, hothers⟩
          exact ⟨hfirst orphan horphan, fun r hr other hother =>
            hothers r hr other ((hobjects _ _).mp hother).1⟩
      · have hcases : hash = orphan.hashBlock ∨ hash ∈ pushed := by
          split at hmem
          · exact List.mem_cons.mp hmem
          · exact .inr hmem
        rcases hcases with rfl | hmem
        · exact ⟨p, List.mem_cons_self, orphan, horphan, rfl⟩
        · obtain ⟨q, hq, other, hother, hhash⟩ := hpushed.waited hash hmem
          exact ⟨q, List.mem_cons_of_mem p hq, other, ((hobjects _ _).mp hother).1, hhash⟩
      · rw [hpushed.index htracks]
        have hblock : (orphan.block.BuildMerkleTree crypto).GetHash crypto =
            orphan.hashBlock := hown
        cases haccept : (AcceptBlock pool.env (orphan.block.BuildMerkleTree crypto)).1 with
        | true =>
            have hindex := htracks.accepted _ _ haccept hash
            rw [hblock] at hindex
            dsimp only [mid]
            rw [hindex, if_pos rfl, List.contains_cons, Bool.or_assoc]
        | false =>
            have hindex := htracks.refused _ _ haccept hash
            dsimp only [mid]
            rw [hindex, if_neg Bool.false_ne_true]

/-- The orphans that wait for a block are freed and are no longer in either map. -/
theorem Freed.forest {pool' : BlockPool Env} {hashPrev : uint256}
    (h : Forest crypto blocks pool)
    (hfreed : Freed (pool.mapOrphanBlocksByPrev.filter fun pair => pair.1 == hashPrev) pool
      pool') :
    (∀ (p : ℕ) (orphan : COrphanBlock), pool'.objects[p]? = some orphan ↔
      pool.objects[p]? = some orphan ∧ orphan.hashPrev ≠ hashPrev) ∧
    Forest crypto blocks { pool' with
      mapOrphanBlocksByPrev :=
        pool'.mapOrphanBlocksByPrev.filter fun pair => pair.1 != hashPrev } := by
  have hpointers : ∀ (p : ℕ) (orphan : COrphanBlock), pool.objects[p]? = some orphan →
      (p ∈ (pool.mapOrphanBlocksByPrev.filter fun pair => pair.1 == hashPrev).map Prod.snd ↔
        orphan.hashPrev = hashPrev) := by
    intro p orphan horphan
    constructor
    · intro hp
      obtain ⟨⟨key, q⟩, hpair, rfl⟩ := List.mem_map.mp hp
      obtain ⟨hmem, hkey⟩ := List.mem_filter.mp hpair
      obtain ⟨own, hown, hprev⟩ := (h.byPrev key q).mp hmem
      obtain rfl := Option.some.inj (hown.symm.trans horphan)
      exact hprev.trans (eq_of_beq hkey)
    · rintro rfl
      exact List.mem_map.mpr ⟨(orphan.hashPrev, p), List.mem_filter.mpr
        ⟨(h.byPrev _ _).mpr ⟨orphan, horphan, rfl⟩, beq_self_eq_true _⟩, rfl⟩
  have hobjects : ∀ (p : ℕ) (orphan : COrphanBlock), pool'.objects[p]? = some orphan ↔
      pool.objects[p]? = some orphan ∧ orphan.hashPrev ≠ hashPrev := by
    intro p orphan
    rw [hfreed.objects]
    exact and_congr_right fun horphan => not_congr (hpointers p orphan horphan)
  refine ⟨hobjects, ?_⟩
  refine h.restrict (fun _ orphan => orphan.hashPrev = hashPrev) hobjects ?_ ?_ ?_ ?_ hfreed.nNext
  · intro p orphan horphan
    dsimp only
    rw [hfreed.byHash, and_iff_right ((h.byHash _ _).mpr ⟨orphan, horphan, rfl⟩)]
    constructor
    · intro hfree hprev
      exact hfree p ((hpointers p orphan horphan).mpr hprev) orphan horphan rfl
    · intro hprev q hq other hother hsame
      obtain rfl := h.eq_of_hashBlock hother horphan hsame
      exact hprev ((hpointers q orphan horphan).mp hq)
  · exact fun hash p hp => ((hfreed.byHash hash p).mp hp).1
  · intro p orphan horphan
    dsimp only
    rw [hfreed.byPrev, List.mem_filter, bne_iff_ne,
      and_iff_right ((h.byPrev _ _).mpr ⟨orphan, horphan, rfl⟩)]
  · dsimp only
    rw [hfreed.byPrev]
    exact List.filter_sublist

variable (AcceptBlock mapBlockIndex) in
theorem workRound_spec (h : Forest crypto blocks pool) (hashPrev : uint256) :
    ∃ pool' pushed,
      BlockPool.workRound crypto AcceptBlock (some pool) hashPrev = (some pool', pushed) ∧
      Forest crypto blocks pool' ∧
      (∀ (p : ℕ) (orphan : COrphanBlock), pool'.objects[p]? = some orphan ↔
        pool.objects[p]? = some orphan ∧ orphan.hashPrev ≠ hashPrev) ∧
      pool'.mapOrphanBlocksByPrev.length ≤ pool.mapOrphanBlocksByPrev.length ∧
      (∀ hash ∈ pushed, ∃ block ∈ blocks, block.GetHash crypto = hash ∧
        block.hashPrevBlock = hashPrev) ∧
      (Tracks crypto AcceptBlock mapBlockIndex → ∀ hash, mapBlockIndex pool'.env hash =
        (mapBlockIndex pool.env hash || pushed.contains hash)) := by
  let entries := pool.mapOrphanBlocksByPrev.filter fun pair => pair.1 == hashPrev
  have hentry : ∀ pair ∈ entries, pair.1 = hashPrev ∧ ∃ orphan : COrphanBlock,
      pool.objects[pair.2]? = some orphan ∧ orphan.hashPrev = hashPrev ∧
        orphan.block.GetHash crypto = orphan.hashBlock := by
    intro pair hpair
    obtain ⟨hmem, hkey⟩ := List.mem_filter.mp hpair
    obtain ⟨orphan, horphan, hprev⟩ := (h.byPrev pair.1 pair.2).mp hmem
    obtain ⟨block, -, rfl⟩ := h.block _ orphan horphan
    exact ⟨eq_of_beq hkey, _, horphan, hprev.trans (eq_of_beq hkey), rfl⟩
  have hdistinct : (entries.map Prod.snd).Nodup := by
    refine (h.nodup.filter _).map_on ?_
    intro pair hpair pair' hpair' hsame
    exact Prod.ext ((hentry pair hpair).1.trans (hentry pair' hpair').1.symm) hsame
  have halive : ∀ pair ∈ entries, ∃ orphan : COrphanBlock,
      pool.objects[pair.2]? = some orphan ∧
        orphan.block.GetHash crypto = orphan.hashBlock := by
    intro pair hpair
    obtain ⟨-, orphan, horphan, -, hown⟩ := hentry pair hpair
    exact ⟨orphan, horphan, hown⟩
  obtain ⟨pool', pushed, hrun, hfreed, hpushed⟩ := acceptWaiting_spec AcceptBlock
    mapBlockIndex entries pool halive hdistinct
  obtain ⟨hobjects, hforest⟩ := hfreed.forest h
  refine ⟨_, pushed, ?_, hforest, hobjects, ?_, fun hash hmem => ?_, hpushed.index⟩
  · unfold BlockPool.workRound
    rw [Option.bind_some, hrun]
  · dsimp only
    rw [hfreed.byPrev]
    exact List.length_filter_le _ _
  · obtain ⟨q, hq, orphan, horphan, rfl⟩ := hpushed.waited hash hmem
    obtain ⟨pair, hpair, rfl⟩ := List.mem_map.mp hq
    obtain ⟨-, own, hown, hprev, -⟩ := hentry pair hpair
    obtain rfl := Option.some.inj (hown.symm.trans horphan)
    rw [← hprev]
    exact h.link horphan

end Work

/-! ### Counting -/

/-- The pairs of a map whose pointers are those of the objects are as many as the
objects. -/
theorem length_of_pointers {objects : Std.TreeMap ℕ COrphanBlock} {pairs : List (uint256 × ℕ)}
    (hnodup : pairs.Nodup) (key : COrphanBlock → uint256)
    (hpairs : ∀ (hash : uint256) (p : ℕ), (hash, p) ∈ pairs ↔
      ∃ orphan, objects[p]? = some orphan ∧ key orphan = hash) :
    pairs.length = objects.size := by
  have hdistinct : (objects.toList.map fun entry => (key entry.2, entry.1)).Nodup := by
    apply List.Nodup.of_map Prod.snd
    rw [List.map_map]
    exact nodup_keys objects
  have hperm : pairs.Perm (objects.toList.map fun entry => (key entry.2, entry.1)) := by
    refine (List.perm_ext_iff_of_nodup hnodup hdistinct).mpr ?_
    rintro ⟨hash, p⟩
    rw [hpairs, List.mem_map]
    constructor
    · rintro ⟨orphan, horphan, rfl⟩
      exact ⟨(p, orphan), Std.TreeMap.mem_toList_iff_getElem?_eq_some.mpr horphan, rfl⟩
    · rintro ⟨⟨q, orphan⟩, hentry, hsame⟩
      obtain ⟨rfl, rfl⟩ := Prod.mk.inj hsame
      exact ⟨orphan, Std.TreeMap.mem_toList_iff_getElem?_eq_some.mp hentry, rfl⟩
  rw [hperm.length_eq, List.length_map, Std.TreeMap.length_toList]

theorem Forest.length_byPrev (h : Forest crypto blocks pool) :
    pool.mapOrphanBlocksByPrev.length = pool.objects.size :=
  length_of_pointers h.nodup COrphanBlock.hashPrev h.byPrev

theorem Forest.size_byHash (h : Forest crypto blocks pool) :
    pool.mapOrphanBlocks.size = pool.objects.size := by
  rw [← Std.TreeMap.length_toList]
  refine length_of_pointers (nodup_keys _).of_map COrphanBlock.hashBlock fun hash p => ?_
  rw [Std.TreeMap.mem_toList_iff_getElem?_eq_some, h.byHash]

/-! ### ProcessBlock -/

section Process

variable {CheckBlock : Env → CBlock → Bool} {AcceptBlock : Env → CBlock → Bool × Env}
  {mapBlockIndex : Env → uint256 → Bool}

/-- No orphan is left whose predecessor is in the block index. -/
def NoneWaits (mapBlockIndex : Env → uint256 → Bool) (pool : BlockPool Env) : Prop :=
  ∀ (p : ℕ) (orphan : COrphanBlock), pool.objects[p]? = some orphan →
    mapBlockIndex pool.env orphan.hashPrev = false

variable (AcceptBlock mapBlockIndex) in
/-- The loop over the work queue ends.  When it starts behind a block that was
accepted, no orphan is left whose predecessor is indexed. -/
theorem workQueue_spec (h : Forest crypto blocks pool) (hblocks : AcyclicBlocks crypto blocks)
    (queue : List uint256)
    (hwaits : Tracks crypto AcceptBlock mapBlockIndex →
      ∀ (p : ℕ) (orphan : COrphanBlock), pool.objects[p]? = some orphan →
        mapBlockIndex pool.env orphan.hashPrev = true → orphan.hashPrev ∈ queue) :
    ∃ pool' done enough,
      (∀ fuel, enough ≤ fuel →
        Worklist.run (BlockPool.workRound crypto AcceptBlock) fuel (some pool) queue =
          some (some pool', done)) ∧
      Forest crypto blocks pool' ∧
      pool'.mapOrphanBlocksByPrev.length ≤ pool.mapOrphanBlocksByPrev.length ∧
      (Tracks crypto AcceptBlock mapBlockIndex → NoneWaits mapBlockIndex pool') := by
  -- One round keeps this of the orphans and the queue.
  let J : Option (BlockPool Env) → List uint256 → Prop := fun state queue =>
    ∃ now, state = some now ∧ Forest crypto blocks now ∧
      now.mapOrphanBlocksByPrev.length ≤ pool.mapOrphanBlocksByPrev.length ∧
      (Tracks crypto AcceptBlock mapBlockIndex →
        ∀ (p : ℕ) (orphan : COrphanBlock), now.objects[p]? = some orphan →
          mapBlockIndex now.env orphan.hashPrev = true → orphan.hashPrev ∈ queue)
  have hround : ∀ state hash rest, J state (hash :: rest) →
      J (BlockPool.workRound crypto AcceptBlock state hash).1
        (rest ++ (BlockPool.workRound crypto AcceptBlock state hash).2) := by
    rintro _ hash rest ⟨now, rfl, hforest, hlength, hqueue⟩
    obtain ⟨next, pushed, hrun, hnext, hobjects, hshorter, -, hindex⟩ := workRound_spec AcceptBlock
      mapBlockIndex hforest hash
    rw [hrun]
    refine ⟨next, rfl, hnext, hshorter.trans hlength, fun htracks p orphan horphan hin => ?_⟩
    obtain ⟨hbefore, hother⟩ := (hobjects p orphan).mp horphan
    rw [hindex htracks, Bool.or_eq_true] at hin
    rcases hin with hin | hin
    · rcases List.mem_cons.mp (hqueue htracks p orphan hbefore hin) with hfirst | hrest
      · exact absurd hfirst hother
      · exact List.mem_append_left _ hrest
    · exact List.mem_append_right _ (List.contains_iff_mem.mp hin)
  have hprocess : ∀ state hash, (∃ now, state = some now ∧ Forest crypto blocks now) →
      (∃ now, (BlockPool.workRound crypto AcceptBlock state hash).1 = some now ∧
        Forest crypto blocks now) ∧
      ∀ next ∈ (BlockPool.workRound crypto AcceptBlock state hash).2,
        ∃ block ∈ blocks, block.GetHash crypto = next ∧ block.hashPrevBlock = hash := by
    rintro _ hash ⟨now, rfl, hforest⟩
    obtain ⟨next, pushed, hrun, hnext, -, -, hpushed, -⟩ := workRound_spec AcceptBlock
      mapBlockIndex hforest hash
    rw [hrun]
    exact ⟨⟨next, rfl, hnext⟩, hpushed⟩
  obtain ⟨⟨state, done⟩, enough, hrun⟩ := Worklist.run_terminates
    (wellFounded_children hblocks) hprocess ⟨pool, rfl, h⟩ queue
  obtain ⟨pool', rfl, hforest, hlength, hnone⟩ :=
    Worklist.run_queue hround (hrun enough le_rfl) ⟨pool, rfl, h, le_rfl, hwaits⟩
  refine ⟨pool', done, enough, hrun, hforest, hlength, fun htracks p orphan horphan => ?_⟩
  by_contra hindexed
  exact List.not_mem_nil (hnone htracks p orphan horphan (Bool.eq_true_of_not_eq_false hindexed))

/-- What a call of `ProcessBlock` relies on and keeps. -/
structure InOrder (crypto : Crypto) (AcceptBlock : Env → CBlock → Bool × Env)
    (mapBlockIndex : Env → uint256 → Bool) (blocks : List CBlock) (maxorphanblocks : ℤ)
    (pool : BlockPool Env) : Prop where
  forest : Forest crypto blocks pool
  bound : pool.mapOrphanBlocksByPrev.length ≤ BlockPool.maxOrphanBlocks maxorphanblocks + 1
  none : Tracks crypto AcceptBlock mapBlockIndex → NoneWaits mapBlockIndex pool

theorem addOrphan_noneWaits {block : CBlock} (hnone : NoneWaits mapBlockIndex pool)
    (hprev : mapBlockIndex pool.env block.hashPrevBlock = false) :
    NoneWaits mapBlockIndex (pool.addOrphan crypto block) := by
  intro p orphan horphan
  rcases lookup_insert_iff.mp horphan with ⟨-, rfl⟩ | ⟨-, horphan⟩
  · exact hprev
  · exact hnone p orphan horphan

variable (CheckBlock) in
/-- A call of `ProcessBlock` ends, and keeps the orphans in order. -/
theorem processBlock_spec (hblocks : AcyclicBlocks crypto blocks) {maxorphanblocks : ℤ}
    (h : InOrder crypto AcceptBlock mapBlockIndex blocks maxorphanblocks pool) {call : BlockCall}
    (hcall : call.block ∈ blocks) :
    ∃ result pool' enough,
      (∀ fuel, enough ≤ fuel → BlockPool.ProcessBlock crypto CheckBlock AcceptBlock mapBlockIndex
        maxorphanblocks fuel call pool = some (result, pool')) ∧
      InOrder crypto AcceptBlock mapBlockIndex blocks maxorphanblocks pool' := by
  unfold BlockPool.ProcessBlock
  dsimp only
  by_cases hknown : mapBlockIndex pool.env (call.block.GetHash crypto) = true
  · exact ⟨false, pool, 0, fun _ _ => if_pos hknown, h⟩
  simp only [if_neg hknown]
  by_cases horphan : pool.mapOrphanBlocks.contains (call.block.GetHash crypto) = true
  · exact ⟨false, pool, 0, fun _ _ => if_pos horphan, h⟩
  simp only [if_neg horphan]
  by_cases hcheck : (!CheckBlock pool.env call.block) = true
  · exact ⟨false, pool, 0, fun _ _ => if_pos hcheck, h⟩
  simp only [if_neg hcheck]
  have hnew : pool.mapOrphanBlocks[call.block.GetHash crypto]? = none :=
    Std.TreeMap.getElem?_eq_none_of_contains_eq_false (Bool.eq_false_iff.mpr horphan)
  by_cases hparent : call.block.hashPrevBlock ≠ 0 ∧
      mapBlockIndex pool.env call.block.hashPrevBlock = false
  · simp only [if_pos hparent]
    cases call.fFrom with
    | false => exact ⟨true, pool, 0, fun _ _ => rfl, h⟩
    | true =>
        obtain ⟨pruned, enough, hprune, hremoved, hlength⟩ :=
          pruneOrphanBlocks_spec h.forest hblocks maxorphanblocks call.nRand
        have hforest : Forest crypto blocks (pruned.addOrphan crypto call.block) :=
          (hremoved.forest h.forest).addOrphan hcall (hremoved.byHash hnew)
        obtain ⟨root, enough', hroot⟩ :=
          getOrphanRoot_terminates hforest hblocks (call.block.GetHash crypto)
        refine ⟨true, pruned.addOrphan crypto call.block, max enough enough',
          fun fuel hfuel => ?_, hforest, ?_, fun htracks => ?_⟩
        · rw [if_pos rfl, hprune fuel (le_of_max_le_left hfuel), Option.bind_some,
            hroot fuel (le_of_max_le_right hfuel), Option.map_some]
        · rw [length_addOrphan]
          exact Nat.succ_le_succ (hlength h.bound)
        · apply addOrphan_noneWaits
          · intro p other hother
            rw [hremoved.env]
            exact h.none htracks p other (hremoved.objects hother)
          · rw [hremoved.env]
            exact hparent.2
  · simp only [if_neg hparent]
    cases haccept : (AcceptBlock pool.env call.block).1 with
    | false =>
        refine ⟨false, { pool with env := (AcceptBlock pool.env call.block).2 }, 0,
          fun fuel _ => ?_, h.forest.withEnv _, h.bound, fun htracks p other hother => ?_⟩
        · rw [show AcceptBlock pool.env call.block =
            (false, (AcceptBlock pool.env call.block).2) from Prod.ext haccept rfl]
        · exact (htracks.refused _ _ haccept _).trans (h.none htracks p other hother)
    | true =>
        obtain ⟨pool', done, enough, hrun, hforest, hlength, hnone⟩ := workQueue_spec AcceptBlock
          mapBlockIndex (h.forest.withEnv (AcceptBlock pool.env call.block).2) hblocks
          [call.block.GetHash crypto] (by
            intro htracks p other hother hin
            dsimp only at hother hin
            rw [htracks.accepted _ _ haccept, h.none htracks p other hother,
              Bool.false_or] at hin
            exact List.mem_singleton.mpr (eq_of_beq hin))
        refine ⟨true, pool', enough, fun fuel hfuel => ?_, hforest, hlength.trans h.bound, hnone⟩
        rw [show AcceptBlock pool.env call.block =
          (true, (AcceptBlock pool.env call.block).2) from Prod.ext haccept rfl]
        dsimp only
        rw [hrun fuel hfuel, Option.bind_some, Option.map_some]

end Process

end Pool

/-! ### Runs -/

section Runs

variable {Env : Type} (crypto : Crypto) (CheckBlock : Env → CBlock → Bool)
  (AcceptBlock : Env → CBlock → Bool × Env) (mapBlockIndex : Env → uint256 → Bool)
  (maxorphanblocks : ℤ) (blocks : List CBlock)

/-- The states of the orphans: calls of `ProcessBlock` with some blocks, in any order
and as often as one likes, and whatever else happens that leaves the block index as it is. -/
inductive PoolReached : BlockPool Env → Prop
  | start (env : Env) : PoolReached (.start env)
  | process {pool pool' : BlockPool Env} {call : BlockCall} {fuel : ℕ} {result : Bool} :
      PoolReached pool → call.block ∈ blocks →
      BlockPool.ProcessBlock crypto CheckBlock AcceptBlock mapBlockIndex maxorphanblocks fuel
        call pool = some (result, pool') →
      PoolReached pool'
  | other {pool : BlockPool Env} {env : Env} : PoolReached pool →
      (∀ hash, mapBlockIndex env hash = mapBlockIndex pool.env hash) →
      PoolReached { pool with env }

variable {crypto CheckBlock AcceptBlock mapBlockIndex maxorphanblocks blocks}

/-- More fuel gives the same result. -/
theorem processBlock_mono {pool : BlockPool Env} {call : BlockCall} {fuel fuel' : ℕ}
    (hfuel : fuel ≤ fuel') {result : Bool × BlockPool Env}
    (h : BlockPool.ProcessBlock crypto CheckBlock AcceptBlock mapBlockIndex maxorphanblocks fuel
      call pool = some result) :
    BlockPool.ProcessBlock crypto CheckBlock AcceptBlock mapBlockIndex maxorphanblocks fuel'
      call pool = some result := by
  have hprune : ∀ pruned, BlockPool.PruneOrphanBlocks fuel maxorphanblocks call.nRand pool =
      some pruned → BlockPool.PruneOrphanBlocks fuel' maxorphanblocks call.nRand pool =
        some pruned := by
    intro pruned hpruned
    unfold BlockPool.PruneOrphanBlocks at hpruned ⊢
    split_ifs at hpruned ⊢
    · exact hpruned
    · obtain ⟨it, hit, hpruned⟩ := Option.bind_eq_some_iff.mp hpruned
      obtain ⟨last, hwalk, hpruned⟩ := Option.bind_eq_some_iff.mp hpruned
      rw [hit, Option.bind_some, Walk.run_mono hfuel hwalk]
      exact hpruned
  have hroot : ∀ (pool : BlockPool Env) hash root, pool.GetOrphanRoot fuel hash = some root →
      pool.GetOrphanRoot fuel' hash = some root := by
    intro pool hash root hroot
    unfold BlockPool.GetOrphanRoot at hroot ⊢
    cases hfirst : pool.mapOrphanBlocks[hash]? with
    | none =>
        rw [hfirst] at hroot
        exact hroot
    | some p =>
        rw [hfirst] at hroot
        obtain ⟨last, hwalk, hlast⟩ := Option.map_eq_some_iff.mp hroot
        exact Option.map_eq_some_iff.mpr ⟨last, Walk.run_mono hfuel hwalk, hlast⟩
  unfold BlockPool.ProcessBlock at h ⊢
  dsimp only at h ⊢
  split_ifs at h ⊢
  · exact h
  · exact h
  · exact h
  · obtain ⟨pruned, hpruned, h⟩ := Option.bind_eq_some_iff.mp h
    obtain ⟨root, hwalk, h⟩ := Option.map_eq_some_iff.mp h
    rw [hprune pruned hpruned, Option.bind_some, hroot _ _ root hwalk]
    exact congrArg some h
  · exact h
  · split at h
    · exact h
    · obtain ⟨last, hrun, h⟩ := Option.bind_eq_some_iff.mp h
      rw [Worklist.run_mono hfuel hrun]
      exact h

theorem processBlock_orderly {pool : BlockPool Env} (hblocks : AcyclicBlocks crypto blocks)
    (h : InOrder crypto AcceptBlock mapBlockIndex blocks maxorphanblocks pool) {call : BlockCall}
    (hcall : call.block ∈ blocks) {fuel : ℕ} {result : Bool} {pool' : BlockPool Env}
    (hrun : BlockPool.ProcessBlock crypto CheckBlock AcceptBlock mapBlockIndex maxorphanblocks
      fuel call pool = some (result, pool')) :
    InOrder crypto AcceptBlock mapBlockIndex blocks maxorphanblocks pool' := by
  obtain ⟨result', other, enough, henough, hother⟩ :=
    processBlock_spec CheckBlock hblocks h hcall
  have hmore := processBlock_mono (le_max_left fuel enough) hrun
  obtain ⟨-, rfl⟩ := Prod.mk.inj
    (Option.some.inj (hmore.symm.trans (henough _ (le_max_right fuel enough))))
  exact hother

theorem PoolReached.orderly {pool : BlockPool Env} (hblocks : AcyclicBlocks crypto blocks)
    (h : PoolReached crypto CheckBlock AcceptBlock mapBlockIndex maxorphanblocks blocks pool) :
    InOrder crypto AcceptBlock mapBlockIndex blocks maxorphanblocks pool := by
  induction h with
  | start env =>
      have hstart : Forest crypto blocks (BlockPool.start env) := forest_start env
      exact ⟨hstart, Nat.zero_le _, fun _ p orphan horphan =>
        absurd horphan (lookup_empty_ne p orphan)⟩
  | process _ hcall hrun ih => exact processBlock_orderly hblocks ih hcall hrun
  | other _ hsame ih =>
      exact ⟨ih.forest.withEnv _, ih.bound, fun htracks p orphan horphan =>
        (hsame _).trans (ih.none htracks p orphan horphan)⟩

variable (crypto CheckBlock AcceptBlock mapBlockIndex maxorphanblocks blocks)

/-- Whatever blocks arrive, in whatever order, as long as none of them is its own
ancestor: both maps hold exactly the orphans that are allocated, at most one more than
the limit, where a negative limit counts as zero.  The walks of `GetOrphanRoot` and
`PruneOrphanBlocks` and the loop of `ProcessBlock` end.  Pruning removes an orphan that
none depends on.  And when the block index has exactly the blocks that are accepted, no
orphan is left whose predecessor is in it. -/
theorem orphanBlocks_consistent (hblocks : AcyclicBlocks crypto blocks) {pool : BlockPool Env}
    (hpool : PoolReached crypto CheckBlock AcceptBlock mapBlockIndex maxorphanblocks blocks
      pool) :
    Forest crypto blocks pool ∧
    (pool.mapOrphanBlocks.size = pool.objects.size ∧
      pool.mapOrphanBlocksByPrev.length = pool.objects.size ∧
      (pool.objects.size : ℤ) ≤ max 0 maxorphanblocks + 1) ∧
    (∀ hash, ∃ root enough, ∀ fuel, enough ≤ fuel →
      pool.GetOrphanRoot fuel hash = some root) ∧
    (∀ nRand, ∃ pruned enough,
      (∀ fuel, enough ≤ fuel →
        BlockPool.PruneOrphanBlocks fuel maxorphanblocks nRand pool = some pruned) ∧
      LeafRemoved pool pruned) ∧
    (∀ call : BlockCall, call.block ∈ blocks → ∃ result enough, ∀ fuel, enough ≤ fuel →
      BlockPool.ProcessBlock crypto CheckBlock AcceptBlock mapBlockIndex maxorphanblocks fuel call
        pool = some result) ∧
    (Tracks crypto AcceptBlock mapBlockIndex → NoneWaits mapBlockIndex pool) := by
  have h := hpool.orderly hblocks
  refine ⟨h.forest, ⟨h.forest.size_byHash, h.forest.length_byPrev, ?_⟩,
    getOrphanRoot_terminates h.forest hblocks, fun nRand => ?_, fun call hcall => ?_, h.none⟩
  · have hbound := h.bound
    rw [h.forest.length_byPrev] at hbound
    unfold BlockPool.maxOrphanBlocks at hbound
    omega
  · obtain ⟨pruned, enough, hprune, hremoved, -⟩ :=
      pruneOrphanBlocks_spec h.forest hblocks maxorphanblocks nRand
    exact ⟨pruned, enough, hprune, hremoved⟩
  · obtain ⟨result, pool', enough, hrun, -⟩ :=
      processBlock_spec CheckBlock hblocks h hcall
    exact ⟨(result, pool'), enough, hrun⟩

end Runs

/-! ### Blocks in reverse order -/

/-- A block behind another, whose hash is above that of the other. -/
def laterBlock (prev : uint256) : CBlock :=
  { nVersion := 1, hashPrevBlock := prev, hashMerkleRoot := 0, nTime := 0, nBits := 0
    nNonce := 0, vtx := [], vMerkleTree := [] }

/-- An index that accepts everything. -/
def acceptAll (env : List uint256) (block : CBlock) : Bool × List uint256 :=
  (true, block.GetHash readingCrypto :: env)

theorem tracks_acceptAll :
    Tracks readingCrypto acceptAll fun env hash => env.contains hash := by
  refine ⟨fun env block _ hash => ?_, fun env block h => by cases h⟩
  dsimp only [acceptAll]
  rw [List.contains_cons, Bool.or_comm]

theorem acyclicBlocks_of_lt {crypto : Crypto} {blocks : List CBlock}
    (h : ∀ block ∈ blocks, block.hashPrevBlock < block.GetHash crypto) :
    AcyclicBlocks crypto blocks := by
  refine not_transGen_of_lt ?_
  rintro child parent ⟨block, hblock, rfl, rfl⟩
  exact h block hblock

/-- Three blocks, the last first, behind one that is indexed. -/
def reversed : List CBlock := [laterBlock (2 ^ 64 + 2 ^ 32 + 1), laterBlock (2 ^ 32 + 1),
  laterBlock 1]

/-- The orphans after the blocks arrived one by one from peers. -/
def receive (maxorphanblocks : ℤ) : List CBlock → Option (BlockPool (List uint256))
  | [] => some (.start [1])
  | block :: before => (receive maxorphanblocks before).bind fun pool =>
      (BlockPool.ProcessBlock readingCrypto (fun _ _ => true) acceptAll
        (fun env hash => env.contains hash) maxorphanblocks 9 ⟨block, true, 0⟩ pool).map
          Prod.snd

theorem receive_reached {maxorphanblocks : ℤ} {blocks : List CBlock} :
    ∀ {arrived : List CBlock} {pool : BlockPool (List uint256)}, (∀ b ∈ arrived, b ∈ blocks) →
      receive maxorphanblocks arrived = some pool →
      PoolReached readingCrypto (fun _ _ => true) acceptAll (fun env hash => env.contains hash)
        maxorphanblocks blocks pool
  | [], pool, _, h => by
      obtain rfl := Option.some.inj h
      exact .start [1]
  | block :: before, pool, hmem, h => by
      obtain ⟨earlier, hearlier, h⟩ := Option.bind_eq_some_iff.mp h
      obtain ⟨⟨result, pool'⟩, hrun, rfl⟩ := Option.map_eq_some_iff.mp h
      exact .process (receive_reached (fun b hb => hmem b (List.mem_cons_of_mem _ hb)) hearlier)
        (hmem block List.mem_cons_self) hrun

theorem orphanBlocks_consistent_reversed :
    ∃ pool, receive 1 reversed.reverse = some pool ∧
      pool.env = (reversed.map fun block => block.GetHash readingCrypto) ++ [1] ∧
      pool.objects.size = 0 ∧ Forest readingCrypto reversed pool ∧
      NoneWaits (fun env hash => env.contains hash) pool := by
  have hrun : ((receive 1 reversed.reverse).map fun pool => (pool.env, pool.objects.size)) =
      some ((reversed.map fun block => block.GetHash readingCrypto) ++ [1], 0) := by
    decide +kernel
  obtain ⟨pool, hpool, hresult⟩ := Option.map_eq_some_iff.mp hrun
  obtain ⟨henv, hsize⟩ := Prod.mk.inj hresult
  have hreached := receive_reached (fun b hb => List.mem_reverse.mp hb) hpool
  obtain ⟨hforest, -, -, -, -, hnone⟩ := orphanBlocks_consistent readingCrypto (fun _ _ => true)
    acceptAll (fun env hash => env.contains hash) 1 reversed
    (acyclicBlocks_of_lt (by decide +kernel)) hreached
  exact ⟨pool, hpool, henv, hsize, hforest, hnone tracks_acceptAll⟩

/-- A negative limit counts as zero, so one orphan is kept. -/
theorem orphanBlocks_exceed_negative_limit :
    ¬ ∀ (maxorphanblocks : ℤ) (blocks : List CBlock) (pool : BlockPool (List uint256)),
      AcyclicBlocks readingCrypto blocks →
      PoolReached readingCrypto (fun _ _ => true) acceptAll (fun env hash => env.contains hash)
        maxorphanblocks blocks pool →
      (pool.objects.size : ℤ) ≤ maxorphanblocks + 1 := by
  intro h
  have hrun : ((receive (-5) [laterBlock 5]).map fun pool => pool.objects.size) = some 1 := by
    decide +kernel
  obtain ⟨pool, hpool, hsize⟩ := Option.map_eq_some_iff.mp hrun
  have hbound := h (-5) [laterBlock 5] pool (acyclicBlocks_of_lt (by decide +kernel))
    (receive_reached (fun b hb => hb) hpool)
  rw [hsize] at hbound
  exact absurd hbound (by decide)

end Ziftrcoin.Spec
