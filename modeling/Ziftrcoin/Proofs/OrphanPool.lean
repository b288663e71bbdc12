/-
Module: Ziftrcoin.Proofs.OrphanPool
Purpose: The two maps of the orphan transactions agree whatever is done to them,
  the loop that resolves orphans ends without changing what it iterates over, and
  the handler of tx messages keeps the pool within its limit.
Trusted boundary: none
Main exports: Exact, orphanPool_consistent
-/
import Ziftrcoin.Lib.Maps
import Ziftrcoin.Spec.OrphanTx

namespace Ziftrcoin.Spec

open Ziftrcoin.Lib

/-- The second map is the index of the first, without empty sets, and every
orphan is kept under its own hash. -/
structure Exact (crypto : Crypto) (pool : OrphanPool) : Prop where
  ownHash : ∀ (hash : uint256) (orphan : COrphanTx),
    pool.mapOrphanTransactions[hash]? = some orphan → orphan.tx.GetHash crypto = hash
  index : ∀ prev hash : uint256, pool.mapOrphanTransactionsByPrev.Has prev hash ↔
    ∃ orphan, pool.mapOrphanTransactions[hash]? = some orphan ∧ prev ∈ prevHashes orphan.tx
  tidy : pool.mapOrphanTransactionsByPrev.Tidy

/-- Besides, every orphan is one of some transactions. -/
structure Sound (crypto : Crypto) (txs : List CTransaction) (pool : OrphanPool) : Prop
    extends Exact crypto pool where
  brought : ∀ (hash : uint256) (orphan : COrphanTx),
    pool.mapOrphanTransactions[hash]? = some orphan → orphan.tx ∈ txs

section Pool

variable {crypto : Crypto} {txs : List CTransaction} {pool : OrphanPool}

/-! ### The operations on the pool -/

theorem sound_empty : Sound crypto txs .empty := by
  refine ⟨⟨?_, ?_, InvertedIndex.tidy_empty⟩, ?_⟩
  · intro hash orphan horphan
    simp [OrphanPool.empty] at horphan
  · intro prev hash
    refine ⟨fun h => absurd h (InvertedIndex.has_empty prev hash), ?_⟩
    rintro ⟨orphan, horphan, -⟩
    simp [OrphanPool.empty] at horphan
  · intro hash orphan horphan
    simp [OrphanPool.empty] at horphan

theorem addOrphanTx_sound (h : Sound crypto txs pool) {tx : CTransaction} (htx : tx ∈ txs)
    (peer : NodeId) : Sound crypto txs (AddOrphanTx crypto pool tx peer) := by
  unfold AddOrphanTx
  dsimp only
  split_ifs with hknown
  · exact h
  · exact h
  · have hnew : pool.mapOrphanTransactions[tx.GetHash crypto]? = none :=
      Std.TreeMap.getElem?_eq_none fun h => hknown (Std.TreeMap.contains_iff_mem.mpr h)
    have hentry : ∀ (hash : uint256) (orphan : COrphanTx),
        (pool.mapOrphanTransactions.insert (tx.GetHash crypto)
          { tx, fromPeer := peer })[hash]? = some orphan ↔
        (hash = tx.GetHash crypto ∧ orphan = { tx, fromPeer := peer }) ∨
          pool.mapOrphanTransactions[hash]? = some orphan := by
      intro hash orphan
      rw [lookup_insert_iff]
      refine or_congr_right (and_iff_right_of_imp fun hentry => ?_)
      rintro rfl
      rw [hnew] at hentry
      cases hentry
    refine ⟨⟨?_, ?_, InvertedIndex.tidy_foldl_add _ h.tidy⟩, ?_⟩
    · intro hash orphan horphan
      rcases (hentry hash orphan).mp horphan with ⟨rfl, rfl⟩ | horphan
      · rfl
      · exact h.ownHash hash orphan horphan
    · intro prev hash
      rw [InvertedIndex.has_foldl_add, h.index]
      simp only [hentry, or_and_right, exists_or]
      rw [or_comm]
      refine or_congr_left ⟨?_, ?_⟩
      · rintro ⟨hprev, rfl⟩
        exact ⟨_, ⟨rfl, rfl⟩, hprev⟩
      · rintro ⟨orphan, ⟨rfl, rfl⟩, hprev⟩
        exact ⟨hprev, rfl⟩
    · intro hash orphan horphan
      rcases (hentry hash orphan).mp horphan with ⟨rfl, rfl⟩ | horphan
      · exact htx
      · exact h.brought hash orphan horphan

theorem eraseOrphanTx_getElem? (hash other : uint256) :
    (EraseOrphanTx pool hash).mapOrphanTransactions[other]? =
      if other = hash then none else pool.mapOrphanTransactions[other]? := by
  unfold EraseOrphanTx
  cases horphan : pool.mapOrphanTransactions[hash]? with
  | none =>
      split_ifs with hother
      · rw [hother, horphan]
      · rfl
  | some orphan =>
      dsimp only
      rw [Std.TreeMap.getElem?_erase]
      by_cases hother : other = hash
      · simp [hother]
      · simp [hother, Ne.symm hother]

theorem eraseOrphanTx_sound (h : Sound crypto txs pool) (hash : uint256) :
    Sound crypto txs (EraseOrphanTx pool hash) := by
  have hentry : ∀ (other : uint256) (orphan : COrphanTx),
      (EraseOrphanTx pool hash).mapOrphanTransactions[other]? = some orphan ↔
        other ≠ hash ∧ pool.mapOrphanTransactions[other]? = some orphan := by
    intro other orphan
    rw [eraseOrphanTx_getElem?]
    split_ifs with hother
    · simp [hother]
    · simp [hother]
  refine ⟨⟨?_, ?_, ?_⟩, ?_⟩
  · intro other orphan horphan
    exact h.ownHash other orphan ((hentry other orphan).mp horphan).2
  · intro prev other
    simp only [hentry]
    unfold EraseOrphanTx
    cases horphan : pool.mapOrphanTransactions[hash]? with
    | none =>
        dsimp only
        rw [h.index]
        refine exists_congr fun entry => ?_
        constructor
        · rintro ⟨hstored, hprev⟩
          refine ⟨⟨?_, hstored⟩, hprev⟩
          rintro rfl
          rw [horphan] at hstored
          cases hstored
        · rintro ⟨⟨-, hstored⟩, hprev⟩
          exact ⟨hstored, hprev⟩
    | some orphan =>
        dsimp only
        rw [InvertedIndex.has_foldl_drop, h.index]
        constructor
        · rintro ⟨⟨entry, hstored, hprev⟩, hdropped⟩
          refine ⟨entry, ⟨?_, hstored⟩, hprev⟩
          rintro rfl
          obtain rfl := Option.some.inj (horphan.symm.trans hstored)
          exact hdropped ⟨hprev, rfl⟩
        · rintro ⟨entry, ⟨hother, hstored⟩, hprev⟩
          exact ⟨⟨entry, hstored, hprev⟩, fun hdropped => hother hdropped.2⟩
  · unfold EraseOrphanTx
    cases pool.mapOrphanTransactions[hash]? with
    | none => exact h.tidy
    | some orphan => exact InvertedIndex.tidy_foldl_drop _ h.tidy
  · intro other orphan horphan
    exact h.brought other orphan ((hentry other orphan).mp horphan).2

theorem eraseOrphanTx_size_le (hash : uint256) : (EraseOrphanTx pool hash).size ≤ pool.size := by
  unfold EraseOrphanTx OrphanPool.size
  cases pool.mapOrphanTransactions[hash]? with
  | none => rfl
  | some orphan => exact Std.TreeMap.size_erase_le

theorem eraseOrphanTx_size {hash : uint256} (h : hash ∈ pool.mapOrphanTransactions) :
    (EraseOrphanTx pool hash).size = pool.size - 1 := by
  obtain ⟨orphan, horphan⟩ := Option.isSome_iff_exists.mp
    (Std.TreeMap.isSome_getElem?_iff_mem.mpr h)
  unfold EraseOrphanTx OrphanPool.size
  rw [horphan]
  dsimp only
  rw [Std.TreeMap.size_erase, if_pos (Std.TreeMap.contains_iff_mem.mpr h)]

/-- What is erased is not there any more, whatever else is erased. -/
theorem foldl_erase_getElem? (hashes : List uint256) {hash : uint256}
    (h : hash ∈ hashes ∨ pool.mapOrphanTransactions[hash]? = none) :
    (hashes.foldl EraseOrphanTx pool).mapOrphanTransactions[hash]? = none := by
  induction hashes generalizing pool with
  | nil => exact h.resolve_left List.not_mem_nil
  | cons first hashes ih =>
      refine ih ?_
      rcases h with h | h
      · rcases List.mem_cons.mp h with rfl | h
        · exact .inr (by rw [eraseOrphanTx_getElem?, if_pos rfl])
        · exact .inl h
      · refine .inr ?_
        rw [eraseOrphanTx_getElem?, h, ite_self]

/-! ### What erasing orphans keeps -/

section Erasing

variable {I : OrphanPool → Prop} (herase : ∀ pool hash, I pool → I (EraseOrphanTx pool hash))
include herase

theorem foldl_erase_keeps (hashes : List uint256) (h : I pool) :
    I (hashes.foldl EraseOrphanTx pool) := by
  induction hashes generalizing pool with
  | nil => exact h
  | cons hash hashes ih => exact ih (herase pool hash h)

theorem eraseOrphansFor_keeps (peer : NodeId) (h : I pool) :
    I (EraseOrphansFor crypto pool peer) := by
  unfold EraseOrphansFor
  induction pool.mapOrphanTransactions.toList generalizing pool with
  | nil => exact h
  | cons entry entries ih =>
      rw [List.foldl_cons]
      split_ifs
      · exact ih (herase pool _ h)
      · exact ih h

theorem limitLoop_keeps (GetRandHash : ℕ → uint256) (nMaxOrphans fuel nEvicted : ℕ)
    (h : I pool) : I (limitLoop GetRandHash nMaxOrphans fuel nEvicted pool) := by
  induction fuel generalizing pool nEvicted with
  | zero => exact h
  | succ fuel ih =>
      unfold limitLoop
      split_ifs
      · exact h
      · cases randomOrphan pool (GetRandHash nEvicted) with
        | none => exact h
        | some hash => exact ih (nEvicted + 1) (herase pool hash h)

end Erasing

/-! ### The limit -/

theorem randomOrphan_mem {randomhash hash : uint256}
    (h : randomOrphan pool randomhash = some hash) : hash ∈ pool.mapOrphanTransactions := by
  unfold randomOrphan at h
  rw [Option.or_eq_some_iff] at h
  rcases h with h | ⟨-, h⟩
  · exact Std.TreeMap.mem_of_mem_keys (List.mem_of_find?_eq_some h)
  · exact Std.TreeMap.mem_of_mem_keys (List.mem_of_mem_head? h)

theorem randomOrphan_isSome (h : 0 < pool.size) (randomhash : uint256) :
    (randomOrphan pool randomhash).isSome = true := by
  unfold randomOrphan
  have hkeys : pool.mapOrphanTransactions.keys ≠ [] := by
    intro hnil
    have hlength := Std.TreeMap.length_keys (t := pool.mapOrphanTransactions)
    rw [hnil] at hlength
    unfold OrphanPool.size at h
    simp only [List.length_nil] at hlength
    omega
  rw [Option.isSome_or, Bool.or_eq_true]
  exact .inr (List.isSome_head?.mpr hkeys)

theorem limitLoop_size (GetRandHash : ℕ → uint256) (nMaxOrphans nEvicted : ℕ) {fuel : ℕ}
    (hfuel : pool.size ≤ fuel) :
    (limitLoop GetRandHash nMaxOrphans fuel nEvicted pool).size ≤ nMaxOrphans := by
  induction fuel generalizing pool nEvicted with
  | zero =>
      unfold limitLoop
      omega
  | succ fuel ih =>
      unfold limitLoop
      split_ifs with hsize
      · exact hsize
      · obtain ⟨hash, hhash⟩ := Option.isSome_iff_exists.mp
          (randomOrphan_isSome (by omega : 0 < pool.size) (GetRandHash nEvicted))
        rw [hhash]
        refine ih (nEvicted + 1) ?_
        rw [eraseOrphanTx_size (randomOrphan_mem hhash)]
        omega

theorem limitOrphanTxSize_size (GetRandHash : ℕ → uint256) (nMaxOrphans : ℕ) :
    (LimitOrphanTxSize GetRandHash pool nMaxOrphans).size ≤ nMaxOrphans :=
  limitLoop_size GetRandHash nMaxOrphans 0 le_rfl

theorem maxOrphanTx_le (maxorphantx : ℤ) : (maxOrphanTx maxorphantx : ℤ) ≤ max 0 maxorphantx := by
  have hmod : maxOrphanTx maxorphantx ≤ (max 0 maxorphantx).toNat := Nat.mod_le _ _
  omega

end Pool

/-! ### The loop over the accepted transactions -/

/-- No chain of transactions, each spending from the one before, leads back to
its first. -/
def Acyclic (crypto : Crypto) (txs : List CTransaction) : Prop :=
  ∀ hash, ¬ Relation.TransGen
    (fun child parent => ∃ tx ∈ txs, tx.GetHash crypto = child ∧ parent ∈ prevHashes tx) hash hash

section Resolve

variable {crypto : Crypto} {txs : List CTransaction} {pool : OrphanPool} {Env : Type}
  (AcceptToMemoryPool : Env → CTransaction → Verdict × Env) {s : Resolving Env}

theorem lookup_of_getElem? {hash : uint256} {orphan : COrphanTx}
    (h : pool.mapOrphanTransactions[hash]? = some orphan) : pool.lookup hash = (orphan, pool) := by
  unfold OrphanPool.lookup
  rw [h]

/-- An orphan that is there: the maps stay as they are, its hash is noted for
erasing, and nothing else is pushed to the queue. -/
theorem resolveOrphan_spec {hash : uint256} {orphan : COrphanTx}
    (h : s.pool.mapOrphanTransactions[hash]? = some orphan) :
    (resolveOrphan AcceptToMemoryPool s hash).1.pool = s.pool ∧
      (resolveOrphan AcceptToMemoryPool s hash).1.vEraseQueue = s.vEraseQueue ++ [hash] ∧
      ∀ pushed ∈ (resolveOrphan AcceptToMemoryPool s hash).2, pushed = hash := by
  unfold resolveOrphan
  rw [lookup_of_getElem? h]
  dsimp only
  split_ifs
  · simp
  · rcases AcceptToMemoryPool s.env orphan.tx with ⟨_ | ⟨_ | _, nDoS⟩, env⟩
    · simp
    · simp
    · simp

/-- Any part of a set of orphans. -/
theorem resolveAll_spec {hashes : List uint256}
    (h : ∀ hash ∈ hashes, ∃ orphan, s.pool.mapOrphanTransactions[hash]? = some orphan) :
    (resolveAll AcceptToMemoryPool s hashes).1.pool = s.pool ∧
      (resolveAll AcceptToMemoryPool s hashes).1.vEraseQueue = s.vEraseQueue ++ hashes ∧
      ∀ pushed ∈ (resolveAll AcceptToMemoryPool s hashes).2, pushed ∈ hashes := by
  induction hashes generalizing s with
  | nil => simp [resolveAll]
  | cons hash hashes ih =>
      obtain ⟨⟨orphan, horphan⟩, hrest⟩ := List.forall_mem_cons.mp h
      obtain ⟨hpool, herase, hpushed⟩ :=
        resolveOrphan_spec AcceptToMemoryPool horphan
      obtain ⟨hpool', herase', hpushed'⟩ :=
        ih (s := (resolveOrphan AcceptToMemoryPool s hash).1) (by rwa [hpool])
      rw [resolveAll]
      dsimp only
      refine ⟨hpool'.trans hpool, ?_, ?_⟩
      · rw [herase', herase, List.append_assoc]
        rfl
      · intro pushed hmem
        rcases List.mem_append.mp hmem with hmem | hmem
        · exact List.mem_cons.mpr (.inl (hpushed pushed hmem))
        · exact List.mem_cons_of_mem hash (hpushed' pushed hmem)

/-- The orphans in the set of a hash are in the pool and wait for that hash. -/
theorem Exact.mem_orphans (h : Exact crypto pool) {prev hash : uint256}
    {orphans : Std.TreeSet uint256}
    (horphans : pool.mapOrphanTransactionsByPrev[prev]? = some orphans)
    (hhash : hash ∈ orphans.toList) :
    ∃ orphan, pool.mapOrphanTransactions[hash]? = some orphan ∧ prev ∈ prevHashes orphan.tx :=
  (h.index prev hash).mp ⟨orphans, horphans, Std.TreeSet.mem_toList.mp hhash⟩

theorem resolveRound_spec (h : Exact crypto s.pool) (hash : uint256) :
    (resolveRound AcceptToMemoryPool s hash).1.pool = s.pool ∧
      (∀ other ∈ s.vEraseQueue,
        other ∈ (resolveRound AcceptToMemoryPool s hash).1.vEraseQueue) ∧
      ∀ pushed ∈ (resolveRound AcceptToMemoryPool s hash).2,
        pushed ∈ (resolveRound AcceptToMemoryPool s hash).1.vEraseQueue ∧
        ∃ orphan, s.pool.mapOrphanTransactions[pushed]? = some orphan ∧
          hash ∈ prevHashes orphan.tx := by
  unfold resolveRound
  cases horphans : s.pool.mapOrphanTransactionsByPrev[hash]? with
  | none => simp
  | some orphans =>
      dsimp only
      obtain ⟨hpool, herase, hpushed⟩ :=
        resolveAll_spec AcceptToMemoryPool (s := s)
          fun other hother => (h.mem_orphans horphans hother).imp fun _ horphan => horphan.1
      refine ⟨hpool, ?_, ?_⟩
      · intro other hother
        rw [herase]
        exact List.mem_append_left _ hother
      · intro pushed hmem
        rw [herase]
        exact ⟨List.mem_append_right _ (hpushed pushed hmem),
          h.mem_orphans horphans (hpushed pushed hmem)⟩

/-- The loop leaves the maps as they are, and every transaction accepted in it is
noted for erasing. -/
theorem resolveOrphans_spec (h : Exact crypto s.pool) {fuel : ℕ} {vWorkQueue : List uint256}
    {s' : Resolving Env} {accepted : List uint256}
    (hrun : resolveOrphans AcceptToMemoryPool fuel s vWorkQueue = some (s', accepted))
    (hqueue : ∀ hash ∈ vWorkQueue, hash ∈ s.vEraseQueue) :
    s'.pool = s.pool ∧ ∀ hash ∈ accepted, hash ∈ s'.vEraseQueue := by
  have hround : ∀ (t : Resolving Env) (hash : uint256), t.pool = s.pool →
      hash ∈ t.vEraseQueue →
      (resolveRound AcceptToMemoryPool t hash).1.pool = s.pool ∧
        (∀ other ∈ t.vEraseQueue,
          other ∈ (resolveRound AcceptToMemoryPool t hash).1.vEraseQueue) ∧
        ∀ pushed ∈ (resolveRound AcceptToMemoryPool t hash).2,
          pushed ∈ (resolveRound AcceptToMemoryPool t hash).1.vEraseQueue := by
    intro t hash hpool _
    obtain ⟨hkept, herase, hpushed⟩ := resolveRound_spec AcceptToMemoryPool
      (s := t) (hpool ▸ h) hash
    exact ⟨hkept.trans hpool, herase, fun pushed hmem => (hpushed pushed hmem).1⟩
  obtain ⟨hpool, -, haccepted⟩ := Worklist.run_invariant
    (I := fun t : Resolving Env => t.pool = s.pool)
    (P := fun t hash => hash ∈ t.vEraseQueue) hround hrun rfl hqueue
  exact ⟨hpool, haccepted⟩

theorem resolveOrphans_terminates (h : Sound crypto txs s.pool) (htxs : Acyclic crypto txs)
    (vWorkQueue : List uint256) :
    ∃ result enough, ∀ fuel, enough ≤ fuel →
      resolveOrphans AcceptToMemoryPool fuel s vWorkQueue = some result := by
  have hkeys : ∀ child parent : uint256,
      (∃ tx ∈ txs, tx.GetHash crypto = child ∧ parent ∈ prevHashes tx) →
        child ∈ (txs.map fun tx => tx.GetHash crypto).toFinset := by
    rintro _ parent ⟨tx, htx, rfl, -⟩
    exact List.mem_toFinset.mpr (List.mem_map_of_mem htx)
  have hwf := wellFounded_of_acyclic hkeys htxs
  refine Worklist.run_terminates hwf (I := fun t : Resolving Env => t.pool = s.pool) ?_ rfl
    vWorkQueue
  intro t hash hpool
  obtain ⟨hkept, -, hpushed⟩ := resolveRound_spec AcceptToMemoryPool
    (s := t) (hpool ▸ h.toExact) hash
  refine ⟨hkept.trans hpool, fun pushed hmem => ?_⟩
  obtain ⟨-, orphan, horphan, hprev⟩ := hpushed pushed hmem
  rw [hpool] at horphan
  exact ⟨orphan.tx, h.brought pushed orphan horphan, h.ownHash pushed orphan horphan, hprev⟩

end Resolve

/-! ### The tx message -/

section Message

variable {crypto : Crypto} {txs : List CTransaction} {pool : OrphanPool} {Env : Type}
  {AcceptToMemoryPool : Env → CTransaction → Verdict × Env} {maxorphantx : ℤ}
  {GetRandHash : ℕ → uint256} {env : Env} {tx : CTransaction} {peer : NodeId}

/-- What a tx message does to the pool: it erases orphans, among them all that
were accepted, or it stores the transaction and keeps the limit, or it does
nothing. -/
theorem txMessage_cases (h : Exact crypto pool) {fuel : ℕ} {pool' : OrphanPool} {env' : Env}
    {accepted : List uint256}
    (hmessage : txMessage crypto AcceptToMemoryPool maxorphantx GetRandHash fuel pool env tx peer =
      some (pool', env', accepted)) :
    ((AcceptToMemoryPool env tx).1 = .accepted ∧ tx.GetHash crypto ∈ accepted ∧
      ∃ vEraseQueue : List uint256, pool' = vEraseQueue.foldl EraseOrphanTx pool ∧
        ∀ hash ∈ accepted, hash ∈ vEraseQueue) ∨
    ((∃ nDoS, (AcceptToMemoryPool env tx).1 = .rejected true nDoS) ∧ accepted = [] ∧
      pool' = LimitOrphanTxSize GetRandHash (AddOrphanTx crypto pool tx peer)
        (maxOrphanTx maxorphantx)) ∨
    ((∃ nDoS, (AcceptToMemoryPool env tx).1 = .rejected false nDoS) ∧ accepted = [] ∧
      pool' = pool) := by
  unfold txMessage at hmessage
  rcases hverdict : AcceptToMemoryPool env tx with ⟨_ | ⟨_ | _, nDoS⟩, later⟩
  · simp only [hverdict, Option.bind_eq_bind, Option.bind_eq_some_iff, Option.pure_def,
      Option.some.injEq, Prod.mk.injEq] at hmessage
    obtain ⟨⟨s, vWorkQueue⟩, hrun, rfl, rfl, rfl⟩ := hmessage
    obtain ⟨hpool, haccepted⟩ := resolveOrphans_spec AcceptToMemoryPool
      (s := { pool, env := later, vEraseQueue := [tx.GetHash crypto], setMisbehaving := [] })
      h hrun (fun hash hhash => hhash)
    refine .inl ⟨rfl, ?_, s.vEraseQueue, by rw [hpool], haccepted⟩
    exact Worklist.mem_of_mem_queue hrun _ List.mem_cons_self
  · simp only [hverdict, Option.some.injEq, Prod.mk.injEq] at hmessage
    obtain ⟨rfl, -, rfl⟩ := hmessage
    exact .inr (.inr ⟨⟨nDoS, rfl⟩, rfl, rfl⟩)
  · simp only [hverdict, Option.some.injEq, Prod.mk.injEq] at hmessage
    obtain ⟨rfl, -, rfl⟩ := hmessage
    exact .inr (.inl ⟨⟨nDoS, rfl⟩, rfl, rfl⟩)

variable (AcceptToMemoryPool maxorphantx GetRandHash env tx peer) in
theorem txMessage_terminates (h : Sound crypto txs pool) (htxs : Acyclic crypto txs) :
    ∃ result enough, ∀ fuel, enough ≤ fuel →
      txMessage crypto AcceptToMemoryPool maxorphantx GetRandHash fuel pool env tx peer =
        some result := by
  unfold txMessage
  rcases hverdict : AcceptToMemoryPool env tx with ⟨_ | ⟨_ | _, nDoS⟩, later⟩
  · obtain ⟨⟨s, vWorkQueue⟩, enough, henough⟩ := resolveOrphans_terminates AcceptToMemoryPool
      (s := { pool, env := later, vEraseQueue := [tx.GetHash crypto], setMisbehaving := [] })
      h htxs [tx.GetHash crypto]
    refine ⟨(s.vEraseQueue.foldl EraseOrphanTx s.pool, s.env, vWorkQueue), enough,
      fun fuel hfuel => ?_⟩
    simp only [henough fuel hfuel, Option.bind_eq_bind, Option.bind_some, Option.pure_def]
  · exact ⟨_, 0, fun _ _ => rfl⟩
  · exact ⟨_, 0, fun _ _ => rfl⟩

/-- No transaction that a message accepts is left in the pool. -/
theorem txMessage_accepted (h : Exact crypto pool) {fuel : ℕ} {pool' : OrphanPool} {env' : Env}
    {accepted : List uint256}
    (hmessage : txMessage crypto AcceptToMemoryPool maxorphantx GetRandHash fuel pool env tx peer =
      some (pool', env', accepted)) {hash : uint256} (hhash : hash ∈ accepted) :
    pool'.mapOrphanTransactions[hash]? = none := by
  rcases txMessage_cases h hmessage with
    ⟨-, -, vEraseQueue, rfl, hqueued⟩ | ⟨-, rfl, -⟩ | ⟨-, rfl, -⟩
  · exact foldl_erase_getElem? vEraseQueue (.inl (hqueued hash hhash))
  · cases hhash
  · cases hhash

/-- A message leaves at most the limit, or no more than there was. -/
theorem txMessage_size (h : Exact crypto pool) {fuel : ℕ} {pool' : OrphanPool} {env' : Env}
    {accepted : List uint256}
    (hmessage : txMessage crypto AcceptToMemoryPool maxorphantx GetRandHash fuel pool env tx peer =
      some (pool', env', accepted)) :
    pool'.size ≤ max pool.size (maxOrphanTx maxorphantx) := by
  rcases txMessage_cases h hmessage with
    ⟨-, -, vEraseQueue, rfl, -⟩ | ⟨-, -, rfl⟩ | ⟨-, -, rfl⟩
  · have hless : (vEraseQueue.foldl EraseOrphanTx pool).size ≤ pool.size :=
      foldl_erase_keeps (I := fun p => p.size ≤ pool.size)
        (fun p hash hp => (eraseOrphanTx_size_le hash).trans hp) vEraseQueue le_rfl
    exact hless.trans (le_max_left _ _)
  · exact (limitOrphanTxSize_size GetRandHash _).trans (le_max_right _ _)
  · exact le_max_left _ _

/-- A message that stores its transaction leaves at most the limit. -/
theorem txMessage_missing (h : Exact crypto pool) {fuel : ℕ} {pool' : OrphanPool} {env' : Env}
    {accepted : List uint256}
    (hmessage : txMessage crypto AcceptToMemoryPool maxorphantx GetRandHash fuel pool env tx peer =
      some (pool', env', accepted)) {nDoS : ℕ}
    (hverdict : (AcceptToMemoryPool env tx).1 = .rejected true nDoS) :
    pool'.size ≤ maxOrphanTx maxorphantx := by
  rcases txMessage_cases h hmessage with ⟨hother, -⟩ | ⟨-, -, rfl⟩ | ⟨⟨n, hother⟩, -⟩
  · rw [hother] at hverdict
    cases hverdict
  · exact limitOrphanTxSize_size GetRandHash _
  · rw [hother] at hverdict
    cases hverdict

theorem txMessage_sound (h : Sound crypto txs pool) (htx : tx ∈ txs) {fuel : ℕ}
    {pool' : OrphanPool} {env' : Env} {accepted : List uint256}
    (hmessage : txMessage crypto AcceptToMemoryPool maxorphantx GetRandHash fuel pool env tx peer =
      some (pool', env', accepted)) : Sound crypto txs pool' := by
  have herase : ∀ p hash, Sound crypto txs p → Sound crypto txs (EraseOrphanTx p hash) :=
    fun p hash hp => eraseOrphanTx_sound hp hash
  rcases txMessage_cases h.toExact hmessage with
    ⟨-, -, vEraseQueue, rfl, -⟩ | ⟨-, -, rfl⟩ | ⟨-, -, rfl⟩
  · exact foldl_erase_keeps herase vEraseQueue h
  · exact limitLoop_keeps herase GetRandHash _ _ 0 (addOrphanTx_sound h htx peer)
  · exact h

/-! ### Runs -/

theorem runCall_sound (h : Sound crypto txs pool) {call : OrphanCall}
    (hcall : ∀ tx, call.tx? = some tx → tx ∈ txs) {fuel : ℕ} {state' : OrphanPool × Env}
    (hrun : runCall crypto AcceptToMemoryPool maxorphantx fuel (pool, env) call = some state') :
    Sound crypto txs state'.1 := by
  have herase : ∀ p hash, Sound crypto txs p → Sound crypto txs (EraseOrphanTx p hash) :=
    fun p hash hp => eraseOrphanTx_sound hp hash
  cases call with
  | txMessage tx peer GetRandHash =>
      simp only [runCall, Option.bind_eq_bind, Option.bind_eq_some_iff, Option.pure_def,
        Option.some.injEq] at hrun
      obtain ⟨⟨pool', env', accepted⟩, hmessage, rfl⟩ := hrun
      exact txMessage_sound h (hcall tx rfl) hmessage
  | AddOrphanTx tx peer =>
      obtain rfl := Option.some.inj hrun
      exact addOrphanTx_sound h (hcall tx rfl) peer
  | EraseOrphanTx hash =>
      obtain rfl := Option.some.inj hrun
      exact eraseOrphanTx_sound h hash
  | EraseOrphansFor peer =>
      obtain rfl := Option.some.inj hrun
      exact eraseOrphansFor_keeps herase peer h
  | LimitOrphanTxSize nMaxOrphans GetRandHash =>
      obtain rfl := Option.some.inj hrun
      exact limitLoop_keeps herase GetRandHash nMaxOrphans _ 0 h

/-- Apart from the handler only `AddOrphanTx` makes the pool grow. -/
theorem runCall_size (h : Exact crypto pool) {call : OrphanCall}
    (hcall : ∀ tx peer, call ≠ .AddOrphanTx tx peer) {fuel : ℕ} {state' : OrphanPool × Env}
    (hrun : runCall crypto AcceptToMemoryPool maxorphantx fuel (pool, env) call = some state') :
    state'.1.size ≤ max pool.size (maxOrphanTx maxorphantx) := by
  have herase : ∀ (p : OrphanPool) hash, p.size ≤ pool.size →
      (EraseOrphanTx p hash).size ≤ pool.size :=
    fun p hash hp => (eraseOrphanTx_size_le hash).trans hp
  cases call with
  | txMessage tx peer GetRandHash =>
      simp only [runCall, Option.bind_eq_bind, Option.bind_eq_some_iff, Option.pure_def,
        Option.some.injEq] at hrun
      obtain ⟨⟨pool', env', accepted⟩, hmessage, rfl⟩ := hrun
      exact txMessage_size h hmessage
  | AddOrphanTx tx peer => exact absurd rfl (hcall tx peer)
  | EraseOrphanTx hash =>
      obtain rfl := Option.some.inj hrun
      exact (eraseOrphanTx_size_le hash).trans (le_max_left _ _)
  | EraseOrphansFor peer =>
      obtain rfl := Option.some.inj hrun
      exact (eraseOrphansFor_keeps (I := fun p => p.size ≤ pool.size) herase peer le_rfl).trans
        (le_max_left _ _)
  | LimitOrphanTxSize nMaxOrphans GetRandHash =>
      obtain rfl := Option.some.inj hrun
      exact (limitLoop_keeps (I := fun p => p.size ≤ pool.size) herase GetRandHash nMaxOrphans
        _ 0 le_rfl).trans (le_max_left _ _)

variable (AcceptToMemoryPool maxorphantx env) in
theorem runCall_terminates (h : Sound crypto txs pool) (htxs : Acyclic crypto txs)
    (call : OrphanCall) :
    ∃ state' enough, ∀ fuel, enough ≤ fuel →
      runCall crypto AcceptToMemoryPool maxorphantx fuel (pool, env) call = some state' := by
  cases call with
  | txMessage tx peer GetRandHash =>
      obtain ⟨result, enough, henough⟩ :=
        txMessage_terminates AcceptToMemoryPool maxorphantx GetRandHash env tx peer h htxs
      refine ⟨(result.1, result.2.1), enough, fun fuel hfuel => ?_⟩
      simp only [runCall, henough fuel hfuel, Option.bind_eq_bind, Option.bind_some,
        Option.pure_def]
  | AddOrphanTx tx peer => exact ⟨_, 0, fun _ _ => rfl⟩
  | EraseOrphanTx hash => exact ⟨_, 0, fun _ _ => rfl⟩
  | EraseOrphansFor peer => exact ⟨_, 0, fun _ _ => rfl⟩
  | LimitOrphanTxSize nMaxOrphans GetRandHash => exact ⟨_, 0, fun _ _ => rfl⟩

variable (AcceptToMemoryPool maxorphantx env) in
/-- Every run comes to an end, with the maps in agreement, and within the limit
where only the handler adds to the pool. -/
theorem runCalls_sound (htxs : Acyclic crypto txs) {calls : List OrphanCall}
    (hcalls : ∀ call ∈ calls, ∀ tx, call.tx? = some tx → tx ∈ txs) (h : Sound crypto txs pool) :
    ∃ state' enough, (∀ fuel, enough ≤ fuel →
        runCalls crypto AcceptToMemoryPool maxorphantx fuel (pool, env) calls = some state') ∧
      Sound crypto txs state'.1 ∧
      ((∀ tx peer, .AddOrphanTx tx peer ∉ calls) →
        state'.1.size ≤ max pool.size (maxOrphanTx maxorphantx)) := by
  induction calls generalizing pool env with
  | nil => exact ⟨(pool, env), 0, fun _ _ => rfl, h, fun _ => le_max_left _ _⟩
  | cons call calls ih =>
      obtain ⟨hcall, hrest⟩ := List.forall_mem_cons.mp hcalls
      obtain ⟨⟨pool₁, env₁⟩, enough₁, hfirst⟩ :=
        runCall_terminates AcceptToMemoryPool maxorphantx env h htxs call
      have hsound : Sound crypto txs pool₁ := runCall_sound h hcall (hfirst enough₁ le_rfl)
      obtain ⟨state', enough₂, hlast, hsound', hsize⟩ := ih env₁ hrest hsound
      refine ⟨state', max enough₁ enough₂, fun fuel hfuel => ?_, hsound', fun hnone => ?_⟩
      · unfold runCalls at hlast ⊢
        rw [List.foldlM_cons, hfirst fuel ((le_max_left _ _).trans hfuel)]
        exact hlast fuel ((le_max_right _ _).trans hfuel)
      · have hgrow : pool₁.size ≤ max pool.size (maxOrphanTx maxorphantx) :=
          runCall_size h.toExact (fun tx peer heq => hnone tx peer (heq ▸ List.mem_cons_self))
            (hfirst enough₁ le_rfl)
        have hlater := hsize fun tx peer hmem => hnone tx peer (List.mem_cons_of_mem call hmem)
        exact hlater.trans (max_le hgrow (le_max_right _ _))

/-- The orphan transactions after any calls, and after one more tx message. -/
theorem orphanPool_consistent (crypto : Crypto) {Env : Type}
    (AcceptToMemoryPool : Env → CTransaction → Verdict × Env) (maxorphantx : ℤ) (env : Env)
    (calls : List OrphanCall) (tx : CTransaction) (peer : NodeId) (GetRandHash : ℕ → uint256)
    (htxs : Acyclic crypto (tx :: calls.filterMap OrphanCall.tx?)) :
    ∃ state enough, (∀ fuel, enough ≤ fuel →
        runCalls crypto AcceptToMemoryPool maxorphantx fuel (.empty, env) calls = some state) ∧
      Exact crypto state.1 ∧
      -- the loop, in a round that finds a set of orphans, after any part of the set
      (∀ s : Resolving Env, s.pool = state.1 → ∀ hash : uint256,
        (resolveRound AcceptToMemoryPool s hash).1.pool = state.1 ∧
        ∀ orphans, s.pool.mapOrphanTransactionsByPrev[hash]? = some orphans →
        ∀ front orphanHash back, orphans.toList = front ++ orphanHash :: back →
          (resolveAll AcceptToMemoryPool s front).1.pool = state.1 ∧
          ∃ orphan, state.1.lookup orphanHash = (orphan, state.1)) ∧
      ∃ pool' env' accepted enough', (∀ fuel, enough' ≤ fuel →
          txMessage crypto AcceptToMemoryPool maxorphantx GetRandHash fuel state.1 state.2 tx
            peer = some (pool', env', accepted)) ∧
        Exact crypto pool' ∧
        ((AcceptToMemoryPool state.2 tx).1 = .accepted → tx.GetHash crypto ∈ accepted) ∧
        (∀ hash ∈ accepted, pool'.mapOrphanTransactions[hash]? = none) ∧
        ((∀ other from', .AddOrphanTx other from' ∉ calls) ∨
            (∃ nDoS, (AcceptToMemoryPool state.2 tx).1 = .rejected true nDoS) →
          (pool'.size : ℤ) ≤ max 0 maxorphantx) := by
  have hbrought : ∀ call ∈ calls, ∀ other, call.tx? = some other →
      other ∈ tx :: calls.filterMap OrphanCall.tx? := fun call hcall other hother =>
    List.mem_cons_of_mem tx (List.mem_filterMap.mpr ⟨call, hcall, hother⟩)
  obtain ⟨state, enough, hrun, hsound, hsize⟩ :=
    runCalls_sound AcceptToMemoryPool maxorphantx env htxs hbrought sound_empty
  obtain ⟨⟨pool', env', accepted⟩, enough', hmessage⟩ :=
    txMessage_terminates AcceptToMemoryPool maxorphantx GetRandHash state.2 tx peer hsound htxs
  have hresult := hmessage enough' le_rfl
  refine ⟨state, enough, hrun, hsound.toExact, ?_, pool', env', accepted, enough', hmessage,
    (txMessage_sound hsound List.mem_cons_self hresult).toExact, ?_,
    fun hash hhash => txMessage_accepted hsound.toExact hresult hhash, ?_⟩
  · intro s hs hash
    have hexact : Exact crypto s.pool := hs ▸ hsound.toExact
    refine ⟨(resolveRound_spec AcceptToMemoryPool hexact hash).1.trans hs, ?_⟩
    intro orphans horphans front orphanHash back hsplit
    have hstored : ∀ other ∈ front ++ orphanHash :: back,
        ∃ orphan, s.pool.mapOrphanTransactions[other]? = some orphan := fun other hother =>
      (hexact.mem_orphans horphans (hsplit ▸ hother)).imp fun _ horphan => horphan.1
    obtain ⟨orphan, horphan⟩ := hstored orphanHash (by simp)
    refine ⟨(resolveAll_spec AcceptToMemoryPool fun other hother =>
      hstored other (List.mem_append_left _ hother)).1.trans hs, orphan, ?_⟩
    rw [hs] at horphan
    exact lookup_of_getElem? horphan
  · intro hverdict
    rcases txMessage_cases hsound.toExact hresult with
      ⟨-, hown, -⟩ | ⟨⟨n, hother⟩, -⟩ | ⟨⟨n, hother⟩, -⟩
    · exact hown
    · rw [hother] at hverdict
      cases hverdict
    · rw [hother] at hverdict
      cases hverdict
  · rintro (hnone | ⟨nDoS, hmissing⟩)
    · have hstate : state.1.size ≤ maxOrphanTx maxorphantx := by
        simpa [OrphanPool.empty, OrphanPool.size] using hsize hnone
      have hless := (txMessage_size hsound.toExact hresult).trans (max_le hstate le_rfl)
      exact (Int.ofNat_le.mpr hless).trans (maxOrphanTx_le maxorphantx)
    · have hless := txMessage_missing hsound.toExact hresult hmissing
      exact (Int.ofNat_le.mpr hless).trans (maxOrphanTx_le maxorphantx)

end Message

/-! ### Two orphans and a limit of one -/

/-- A transaction that spends one output. -/
def spending (prev : uint256) : CTransaction :=
  { nVersion := 1, vin := [{ prevout := ⟨prev, 0⟩, scriptSig := [], nSequence := 0 }], vout := [],
    nLockTime := 0 }

/-- A hash function that has no collision and no cycle. -/
def readingCrypto : Crypto :=
  { Hash := readLE
    HashZR5 := readLE
    Hash160 := fun bs => bs
    RIPEMD160 := fun bs => bs
    SHA1 := fun bs => bs
    SHA256 := fun bs => bs
    Verify := fun _ _ _ => true }

/-- No chain leads back where every transaction's hash is above those it refers to. -/
theorem acyclic_of_lt {crypto : Crypto} {txs : List CTransaction}
    (h : ∀ tx ∈ txs, ∀ prev ∈ prevHashes tx, prev < tx.GetHash crypto) : Acyclic crypto txs := by
  refine not_transGen_of_lt ?_
  rintro child parent ⟨tx, htx, rfl, hprev⟩
  exact h tx htx parent hprev

theorem orphanPool_consistent_spending :
    ∃ state enough, (∀ fuel, enough ≤ fuel →
        runCalls readingCrypto (fun env _ => (.rejected true 0, env)) 1 fuel (.empty, ())
          [.txMessage (spending 1) 0 fun _ => 0, .EraseOrphansFor 3] = some state) ∧
      Exact readingCrypto state.1 ∧
      ∃ pool' env' accepted enough', (∀ fuel, enough' ≤ fuel →
          txMessage readingCrypto (fun env _ => (.rejected true 0, env)) 1 (fun _ => 0) fuel
            state.1 state.2 (spending 2) 0 = some (pool', env', accepted)) ∧
        (pool'.size : ℤ) ≤ 1 := by
  obtain ⟨state, enough, hrun, hexact, -, pool', env', accepted, enough', hmessage, -, -, -,
      hsize⟩ :=
    orphanPool_consistent readingCrypto (fun (env : Unit) _ => (.rejected true 0, env)) 1 ()
      [.txMessage (spending 1) 0 fun _ => 0, .EraseOrphansFor 3] (spending 2) 0 (fun _ => 0)
      (acyclic_of_lt (by decide +kernel))
  refine ⟨state, enough, hrun, hexact, pool', env', accepted, enough', hmessage, ?_⟩
  exact hsize (.inl fun other from' => by simp)

/-- With a limit of one orphan: two are added without the handler, which then
accepts a transaction none of them waits for. -/
theorem orphanPool_exceeds_limit :
    ((runCalls readingCrypto (fun env _ => (.accepted, env)) 1 5 (.empty, ())
        [.AddOrphanTx (spending 1) 0, .AddOrphanTx (spending 2) 0]).bind fun state =>
      (txMessage readingCrypto (fun env _ => (.accepted, env)) 1 (fun _ => 0) 5 state.1 state.2
        (spending 3) 0).map fun result => (result.1.size, decide (2 ≤ max 0 1))) =
    some (2, false) := by
  decide +kernel

end Ziftrcoin.Spec
