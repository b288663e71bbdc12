/-
Module: Ziftrcoin.Proofs.Runs
Purpose: The rule for invariants of a node: what the arrival of a transaction,
  a new entry and the activation of the best chain keep holds in every
  reachable state.
Trusted boundary: none
Main exports: CheckedBlock, Reachable.settled
-/
import Ziftrcoin.Proofs.NodeFrame

namespace Ziftrcoin.Spec

open Ziftrcoin.Lib
open Ziftrcoin.Lib.Outcome

/-! ### What is known of a block that arrives -/

/-- The block has passed the preliminary checks with the size limit of the time
when it arrived. -/
def CheckedBlock (cfg : Config) (block : CBlock) : Prop :=
  ∃ nAdjustedTime nMaxBlockSize block', CheckBlock cfg nAdjustedTime block
    nMaxBlockSize true true = .ok block'

theorem CheckedBlock.vtx_ne_nil {cfg : Config} {block : CBlock}
    (h : CheckedBlock cfg block) : block.vtx ≠ [] := by
  obtain ⟨_, _, _, hcheck⟩ := h
  obtain ⟨-, coinbase, txs, hblock⟩ := checkBlock_ok hcheck
  rw [hblock.vtx_eq]
  exact List.cons_ne_nil coinbase txs

/-- `CheckBlock` builds the tree itself, whatever the block comes with. -/
theorem checkBlock_withTree (cfg : Config) (nAdjustedTime : Int) (block : CBlock)
    (tree : List uint256) (nMaxBlockSize : Nat) (fCheckPOW fCheckMerkleRoot : Bool) :
    CheckBlock cfg nAdjustedTime { block with vMerkleTree := tree } nMaxBlockSize
      fCheckPOW fCheckMerkleRoot =
    CheckBlock cfg nAdjustedTime block nMaxBlockSize fCheckPOW
      fCheckMerkleRoot := rfl

theorem CheckedBlock.withTree {cfg : Config} {block : CBlock}
    (h : CheckedBlock cfg block) (tree : List uint256) :
    CheckedBlock cfg { block with vMerkleTree := tree } := by
  obtain ⟨nAdjustedTime, nMaxBlockSize, block', hcheck⟩ := h
  exact ⟨nAdjustedTime, nMaxBlockSize, block',
    (checkBlock_withTree ..).trans hcheck⟩

/-- What is known of a block after the preliminary checks. -/
theorem preliminaryChecks_ok {cfg : Config} {s : NodeState} {nAdjustedTime : Int}
    {block block' : CBlock}
    (h : preliminaryChecks cfg s nAdjustedTime block = .ok block') :
    ∃ nPoK, block.CalculatePoK cfg.crypto = .ok nPoK ∧
      block' = (block.SetPoK nPoK).BuildMerkleTree cfg.crypto ∧
      CheckBlock cfg nAdjustedTime (block.SetPoK nPoK)
        s.chainActive.TipMaxBlockSize true true = .ok block' := by
  unfold preliminaryChecks at h
  simp only [Run.Invalid, guard_eq_ok, error_bind, bind_eq_ok, pure_eq_ok,
    Except.ok.injEq] at h
  obtain ⟨nPoK, hpok, _, _, checked, hcheck, ⟨⟩, _, rfl⟩ := h
  exact ⟨nPoK, hpok, (checkBlock_ok hcheck).1, hcheck⟩

/-- A block that `AcceptBlock` puts into the index. -/
structure NewBlock (cfg : Config) (s : NodeState) (block : CBlock) : Prop where
  fresh : s.mapBlockIndex.find (block.GetHash cfg.crypto) = none
  notGenesis : block.GetHash cfg.crypto ≠ cfg.HashGenesisBlock
  checked : CheckedBlock cfg block
  accepted : ∃ nAdjustedTime, acceptChecks cfg s nAdjustedTime block = .ok ()

/-- The genesis block is in the index, and every orphan has been checked. -/
structure Settled (cfg : Config) (s : NodeState) : Prop where
  genesis : (s.mapBlockIndex.find cfg.HashGenesisBlock).isSome = true
  orphans : ∀ o ∈ s.mapOrphanBlocks, CheckedBlock cfg o.block

/-! ### Checks of a new block -/

theorem crashesAt_matureCoinsFrom {view : CCoinsViewCache} {nHeight : Nat} :
    ∀ {vin : List CTxIn} {nMatureCoinsSpent : Int},
      Errs (CrashesAt .CountMatureCoins_vout)
        (matureCoinsFrom view nHeight nMatureCoinsSpent vin)
  | [], nMatureCoinsSpent => Errs.ok nMatureCoinsSpent
  | txin :: _, _ => by
      unfold matureCoinsFrom
      cases view.coins txin.prevout.hash with
      | none => exact crashesAt_matureCoinsFrom
      | some coins =>
          refine Errs.ite (fun _ => ?_) fun _ => crashesAt_matureCoinsFrom
          exact (crashesAt_get _ _ _).bind fun _ _ => crashesAt_matureCoinsFrom

theorem crashesAt_countMatureCoins (s : NodeState) (block : CBlock) (pprev : Option Ptr)
    (nHeight : Nat) :
    Errs (CrashesAt .CountMatureCoins_vout) (CountMatureCoins s block pprev nHeight) :=
  Errs.ite (fun _ => crashesAt_matureCoinsFrom) fun _ => Errs.ok 0

theorem errs_countMatureCoins (s : NodeState) (block : CBlock) (pprev : Option Ptr)
    (nHeight : Nat) : Errs OtherStop (CountMatureCoins s block pprev nHeight) :=
  (crashesAt_countMatureCoins s block pprev nHeight).mono fun _ h => h.otherStop (by decide)

/-- A block whose tree is built and that is not empty can be asked for the
hash of its coinbase. -/
theorem errs_getTxHash_zero (crypto : Crypto) {block : CBlock}
    (h : block.vtx ≠ []) :
    Errs OtherStop ((block.BuildMerkleTree crypto).GetTxHash 0) := by
  obtain ⟨tx, txs, hvtx⟩ := List.exists_cons_of_ne_nil h
  have hzero : block.vtx[0]? = some tx := by rw [hvtx, List.getElem?_cons_zero]
  rw [getTxHash_buildMerkleTree hzero]
  exact Errs.ok _

theorem crashesAt_coinbaseHeightOk (block : CBlock) (nHeight : Nat) :
    Errs (CrashesAt .AcceptBlock_scriptSig) (coinbaseHeightOk block nHeight) := by
  refine (crashesAt_get _ _ _).bind fun coinbase _ => ?_
  exact (crashesAt_get _ _ _).bind fun _ _ => Errs.ok _

theorem crashesAt_getNextWorkRequired (cfg : Config) (tree : BlockTree) (pLast : Ptr)
    (nBlockTime : Int) :
    Errs (CrashesAt .blockIndex) (GetNextWorkRequired cfg tree pLast nBlockTime) := by
  unfold GetNextWorkRequired
  dsimp only
  cases tree[pLast]? with
  | none => exact Errs.ok _
  | some pindexLast =>
      refine Errs.ite (fun _ => Errs.ok _) fun _ => ?_
      refine Errs.ite (fun _ => ?_) fun _ => ?_
      · refine Errs.ite (fun _ => ?_) fun _ => Errs.ok _
        exact Errs.ite (fun _ => Errs.ok _) fun _ => Errs.ok _
      · cases tree.deref (stepsBack tree RETARGET_INTERVAL (some pLast)) with
        | none => exact Errs.error rfl
        | some pindexFirst => exact Errs.ok _

theorem errs_acceptChecks (cfg : Config) (s : NodeState) (nAdjustedTime : Int)
    (block : CBlock) : Errs OtherStop (acceptChecks cfg s nAdjustedTime block) := by
  unfold acceptChecks
  cases s.mapBlockIndex.find block.hashPrevBlock with
  | none => exact errs_reject _
  | some pPrev =>
      refine Errs.bind ((crashesAt_getNextWorkRequired _ _ _ _).mono
        fun _ h => h.otherStop (by decide)) fun nBits _ => ?_
      refine errs_guard fun _ => ?_
      refine errs_guard fun _ => ?_
      refine errs_guard fun _ => ?_
      refine errs_guard fun _ => ?_
      refine errs_guard fun _ => ?_
      refine Errs.bind ((crashesAt_coinbaseHeightOk block _).mono
        fun _ h => h.otherStop (by decide)) fun fHeight _ => ?_
      exact errs_guard fun _ => Errs.ok ()

/-- What the checks in context say of a block: its parent is known, and its bits, its
time, its transactions and its height are right for it. -/
structure FitsParent (cfg : Config) (s : NodeState) (nAdjustedTime : Int) (block : CBlock)
    (pPrev : Ptr) : Prop where
  found : s.mapBlockIndex.find block.hashPrevBlock = some pPrev
  known : pPrev < s.mapBlockIndex.length
  bits : GetNextWorkRequired cfg s.mapBlockIndex pPrev block.nTime = .ok block.nBits
  time : GetMedianTimePast s.mapBlockIndex pPrev < block.nTime
  final : ∀ tx ∈ block.vtx, IsFinalTx s.chainActive.Height nAdjustedTime tx
    (newEntry cfg s block 0 0).nHeight block.nTime = true
  checkpoint : cfg.checkpointOk (newEntry cfg s block 0 0).nHeight
    (block.GetHash cfg.crypto) = true
  afterCheckpoint : ∀ pcheckpoint, cfg.GetLastCheckpoint s.mapBlockIndex = some pcheckpoint →
    pcheckpoint.nHeight ≤ (newEntry cfg s block 0 0).nHeight
  coinbase : coinbaseHeightOk block (newEntry cfg s block 0 0).nHeight = .ok true

theorem acceptChecks_ok {cfg : Config} {s : NodeState} {nAdjustedTime : Int} {block : CBlock}
    (h : acceptChecks cfg s nAdjustedTime block = .ok ()) :
    ∃ pPrev, FitsParent cfg s nAdjustedTime block pPrev := by
  unfold acceptChecks at h
  cases hprev : s.mapBlockIndex.find block.hashPrevBlock with
  | none => simp [hprev, Run.DoS] at h
  | some pPrev =>
      simp only [hprev, Run.DoS, Run.Invalid, guard_eq_ok, error_bind, bind_eq_ok] at h
      have hheight : (newEntry cfg s block 0 0).nHeight =
          ((s.mapBlockIndex.deref (some pPrev)).map fun q => q.nHeight + 1).getD 0 := by
        simp [newEntry, hprev]
      rw [← hheight] at h
      obtain ⟨nBits, hbits, hsame, htime, hfinal, hcheckpoint, hlast, fHeight, hcoinbase,
        hok⟩ := h
      obtain ⟨hlt, _⟩ := List.findIdx?_eq_some_iff_getElem.mp hprev
      obtain rfl := not_not.mp hsame
      refine ⟨pPrev, hprev, hlt, hbits, by omega, ?_, ?_, ?_, ?_⟩
      · intro tx hmem
        by_contra hnot
        refine hfinal (List.any_eq_true.mpr ⟨tx, hmem, ?_⟩)
        simpa using hnot
      · exact Bool.not_eq_false _ ▸ hcheckpoint
      · intro pcheckpoint hsome
        by_contra hbelow
        refine hlast ?_
        rw [hsome]
        simpa using hbelow
      · rw [hcoinbase]
        cases fHeight with
        | false => exact absurd rfl hok.1
        | true => rfl

theorem FitsParent.one_le_nHeight {cfg : Config} {s : NodeState} {nAdjustedTime : Int}
    {block : CBlock} {pPrev : Ptr} (h : FitsParent cfg s nAdjustedTime block pPrev) :
    1 ≤ (newEntry cfg s block 0 0).nHeight := by
  simp [newEntry, h.found, BlockTree.deref, h.known]

/-! ### Growing -/

theorem find_isSome_iff {tree : BlockTree} {hash : uint256} :
    (tree.find hash).isSome = true ↔
      hash ∈ (tree.map CBlockIndex.fixed).map CBlockIndex.hash := by
  simp [BlockTree.find, CBlockIndex.fixed, List.findIdx?_isSome]

theorem Frame.find_isSome {s s' : NodeState} (h : Frame s s') {hash : uint256}
    (hfind : (s.mapBlockIndex.find hash).isSome = true) :
    (s'.mapBlockIndex.find hash).isSome = true := by
  rw [find_isSome_iff] at hfind ⊢
  rw [h.index]
  exact hfind

theorem Frame.settled {cfg : Config} {s s' : NodeState} (h : Frame s s')
    (hs : Settled cfg s) : Settled cfg s' := by
  refine ⟨h.find_isSome hs.genesis, ?_⟩
  rw [h.mapOrphanBlocks]
  exact hs.orphans

theorem find_addEntry {s : NodeState} {block : CBlock} {pindexNew : CBlockIndex}
    {hash : uint256} (h : (s.mapBlockIndex.find hash).isSome = true ∨
      pindexNew.hash = hash) :
    ((addEntry s block pindexNew).mapBlockIndex.find hash).isSome = true := by
  rw [find_isSome_iff] at h ⊢
  simp only [addEntry, List.map_append, List.mem_append, List.map_cons,
    List.map_nil, List.mem_singleton]
  rcases h with h | h
  · exact .inl h
  · exact .inr h.symm

theorem Settled.addEntry {cfg : Config} {s : NodeState} (hs : Settled cfg s)
    (block : CBlock) (pindexNew : CBlockIndex) :
    Settled cfg (addEntry s block pindexNew) :=
  ⟨find_addEntry (.inl hs.genesis), hs.orphans⟩

/-! ### The rule -/

/-- `I` is kept by whatever happens to a node, which faults only with `F`. -/
structure NodeInvariant (cfg : Config) (I : NodeState → Prop)
    (F : Fault → Prop) : Prop where
  other : ∀ e, OtherFault e → F e
  world : ∀ {s : NodeState} (ticks : Nat → Tick) (orphans : List COrphanBlock),
    I s → I { s with ticks := ticks, mapOrphanBlocks := orphans }
  transaction : ∀ {s : NodeState} {t : Tick} {tx : CTransaction}
    {fLimitFree fRejectInsaneFee : Bool} {pool : CTxMemPool}, I s →
    AcceptToMemoryPool cfg (s.poolContext t) s.mempool tx fLimitFree
      fRejectInsaneFee = .ok pool →
    I { s with mempool := pool }
  entry : ∀ {s : NodeState} {block : CBlock} {nMatureCoinsSpent : Int}
    (nTimeReceived : Int), I s → NewBlock cfg s block →
    CountMatureCoins s block (s.mapBlockIndex.find block.hashPrevBlock)
      (newEntry cfg s block 0 0).nHeight = .ok nMatureCoinsSpent →
    I (addEntry s block (newEntry cfg s block nTimeReceived nMatureCoinsSpent))
  activate : ∀ {s : NodeState} (fuel : Nat), I s →
    (ActivateBestChain cfg fuel s).Meets (fun _ => I) (fun _ => I) F

namespace NodeInvariant

variable {cfg : Config} {I : NodeState → Prop} {F : Fault → Prop}

theorem tick (h : NodeInvariant cfg I F) {s : NodeState} (hI : I s) :
    I s.ticked :=
  h.world _ s.mapOrphanBlocks hI

/-- Activating the best chain keeps what the rule keeps. -/
theorem activate_settled (h : NodeInvariant cfg I F) {s : NodeState}
    (hI : I s) (hs : Settled cfg s) (fuel : Nat) :
    (ActivateBestChain cfg fuel s).Meets (fun _ s' => Frame s s' ∧ I s' ∧ Settled cfg s')
      (fun _ s' => I s' ∧ Settled cfg s') F :=
  Meets.mono (Meets.and (framed_activateBestChain cfg fuel s) (h.activate fuel hI))
    (fun _ _ hr => ⟨hr.1, hr.2, hr.1.settled hs⟩)
    (fun _ _ hr => ⟨hr.2, hr.1.settled hs⟩) fun _ hr => hr.2

/-- The rest of `AddToBlockIndex` once the entry has been made. -/
theorem afterEntry (h : NodeInvariant cfg I F) {s : NodeState} (fuel : Nat)
    {block : CBlock} {pindexNew : CBlockIndex} {p : Ptr}
    (hI : I (addEntry s block pindexNew))
    (hs : Settled cfg (addEntry s block pindexNew))
    (hhash : pindexNew.hash = block.GetHash cfg.crypto)
    (htree : Errs OtherStop (block.GetTxHash 0)) :
    ((do
      ActivateBestChain cfg fuel
      let s' ← Machine.get
      if s'.chainActive.Tip = some p then
        let _ ← Node.ofRun (block.GetTxHash 0) : Node Unit)
        (addEntry s block pindexNew)).Meets
      (fun _ s' => (I s' ∧ Settled cfg s') ∧
        (s'.mapBlockIndex.find (block.GetHash cfg.crypto)).isSome = true)
      (fun _ s' => I s' ∧ Settled cfg s') F := by
  refine Meets.bind (h.activate_settled hI hs fuel) fun _ s' hs' => ?_
  have hadded : ((addEntry s block pindexNew).mapBlockIndex.find
      (block.GetHash cfg.crypto)).isSome = true := find_addEntry (.inr hhash)
  have hfind := hs'.1.find_isSome hadded
  rw [Machine.get_bind_run]
  refine Meets.ite (fun _ => ?_) fun _ => ⟨hs'.2, hfind⟩
  cases hget : block.GetTxHash 0 with
  | ok hash => exact ⟨hs'.2, hfind⟩
  | error e =>
      cases e with
      | reject state => exact hs'.2
      | fault e => exact h.other _ (htree _ hget)

theorem addToBlockIndex (h : NodeInvariant cfg I F) {s : NodeState} (fuel : Nat)
    {block : CBlock} (hI : I s) (hs : Settled cfg s)
    (hnew : NewBlock cfg s (block.BuildMerkleTree cfg.crypto)) :
    (AddToBlockIndex cfg fuel (block.BuildMerkleTree cfg.crypto) s).Meets
      (fun _ s' => (I s' ∧ Settled cfg s') ∧
        (s'.mapBlockIndex.find (block.GetHash cfg.crypto)).isSome = true)
      (fun _ s' => I s' ∧ Settled cfg s') F := by
  refine Meets.ite (fun _ => ⟨hI, hs⟩) fun _ => ?_
  have hI' := h.tick hI
  have hs' : Settled cfg s.ticked := ⟨hs.genesis, hs.orphans⟩
  rw [tick_bind_run, Machine.get_bind_run]
  cases hmature : CountMatureCoins s.ticked (block.BuildMerkleTree cfg.crypto)
      (s.ticked.mapBlockIndex.find
        (block.BuildMerkleTree cfg.crypto).hashPrevBlock)
      (newEntry cfg s.ticked (block.BuildMerkleTree cfg.crypto) 0 0).nHeight with
  | error e =>
      cases e with
      | reject state => exact ⟨hI', hs'⟩
      | fault e => exact h.other _ (errs_countMatureCoins _ _ _ _ _ hmature)
  | ok nMature =>
      have hnew' : NewBlock cfg s.ticked (block.BuildMerkleTree cfg.crypto) :=
        ⟨hnew.fresh, hnew.notGenesis, hnew.checked, hnew.accepted⟩
      rw [ofRun_ok_bind_run, Machine.modify_bind_run]
      exact h.afterEntry fuel (h.entry (s.ticks 0).nTimeMillis hI' hnew' hmature)
        (hs'.addEntry _ _) rfl
        (errs_getTxHash_zero cfg.crypto hnew.checked.vtx_ne_nil)

theorem acceptBlock (h : NodeInvariant cfg I F) {s : NodeState} (fuel : Nat)
    {block : CBlock} (hI : I s) (hs : Settled cfg s)
    (hchecked : CheckedBlock cfg block) :
    (AcceptBlock cfg fuel (block.BuildMerkleTree cfg.crypto) s).Meets
      (fun _ s' => (I s' ∧ Settled cfg s') ∧
        (s'.mapBlockIndex.find (block.GetHash cfg.crypto)).isSome = true)
      (fun _ s' => I s' ∧ Settled cfg s') F := by
  have hchecked' : CheckedBlock cfg (block.BuildMerkleTree cfg.crypto) :=
    hchecked.withTree _
  refine Meets.ite (fun _ => ⟨hI, hs⟩) fun hfresh => ?_
  have hfresh' : s.mapBlockIndex.find ((block.BuildMerkleTree cfg.crypto).GetHash
      cfg.crypto) = none := by simpa using hfresh
  have hgenesis : (block.BuildMerkleTree cfg.crypto).GetHash cfg.crypto ≠
      cfg.HashGenesisBlock := by
    intro heq
    have hsome := hs.genesis
    rw [← heq, hfresh'] at hsome
    cases hsome
  rw [if_pos hgenesis]
  have hI' := h.tick hI
  have hs' : Settled cfg s.ticked := ⟨hs.genesis, hs.orphans⟩
  rw [tick_bind_run]
  cases haccept : acceptChecks cfg s (s.ticks 0).nAdjustedTime
      (block.BuildMerkleTree cfg.crypto) with
  | error e =>
      cases e with
      | reject state => exact ⟨hI', hs'⟩
      | fault e => exact h.other _ (errs_acceptChecks _ _ _ _ _ haccept)
  | ok _ =>
      rw [ofRun_ok_bind_run]
      refine Meets.bind (h.addToBlockIndex fuel hI' hs'
        ⟨hfresh', hgenesis, hchecked', (s.ticks 0).nAdjustedTime, haccept⟩)
        fun _ s₂ hs₂ => ?_
      rw [Machine.get_bind_run]
      unfold Node.deref
      rw [Machine.bind_run, Machine.get_bind_run]
      cases s₂.mapBlockIndex.deref s₂.chainActive.Tip with
      | none => exact h.other _ (otherFault_crash (by decide))
      | some entry => exact hs₂

theorem acceptOrphans (h : NodeInvariant cfg I F) (fuel : Nat) :
    ∀ {orphans : List COrphanBlock} {s : NodeState},
      (∀ o ∈ orphans, CheckedBlock cfg o.block) → I s → Settled cfg s →
      (acceptOrphans cfg fuel orphans s).Meets (fun _ s' => I s' ∧ Settled cfg s')
        (fun _ s' => I s' ∧ Settled cfg s') F
  | [], _, _, hI, hs => ⟨hI, hs⟩
  | orphan :: rest, s, horphans, hI, hs => by
      have hfirst := h.acceptBlock fuel hI hs (horphans orphan List.mem_cons_self)
      refine Meets.bind (D := fun _ s' => I s' ∧ Settled cfg s') (Meets.attempt
        (Meets.mono hfirst (fun _ _ hr => hr.1) (fun _ _ hr => hr) fun _ hr => hr))
        fun accepted s₁ hs₁ => ?_
      refine Meets.bind (acceptOrphans h fuel (fun o ho => horphans o
        (List.mem_cons_of_mem orphan ho)) hs₁.1 hs₁.2) fun hashes s₂ hs₂ => ?_
      cases accepted with
      | ok _ => exact hs₂
      | error _ => exact hs₂

theorem processOrphans (h : NodeInvariant cfg I F) (fuel : Nat) :
    ∀ (rounds : Nat) (vWorkQueue : List uint256) {s : NodeState}, I s →
      Settled cfg s → (processOrphans cfg fuel rounds vWorkQueue s).Meets
        (fun _ s' => I s' ∧ Settled cfg s') (fun _ s' => I s' ∧ Settled cfg s') F
  | 0, [], _, hI, hs => ⟨hI, hs⟩
  | _ + 1, [], _, hI, hs => ⟨hI, hs⟩
  | 0, _ :: _, _, _, _ => h.other _ otherFault_outOfFuel
  | rounds + 1, hashPrev :: vWorkQueue, s, hI, hs => by
      have hready : ∀ o ∈ s.mapOrphanBlocks.filter
          (fun o => o.hashPrev == hashPrev), CheckedBlock cfg o.block :=
        fun o ho => hs.orphans o (List.mem_of_mem_filter ho)
      refine Meets.bind (x := Spec.acceptOrphans cfg fuel _)
        (h.acceptOrphans fuel hready hI hs) fun hashes s₁ hs₁ => ?_
      rw [Machine.modify_bind_run]
      refine processOrphans h fuel rounds (vWorkQueue ++ hashes)
        (h.world s₁.ticks _ hs₁.1) ⟨hs₁.2.genesis, fun o ho => ?_⟩
      exact hs₁.2.orphans o (List.mem_of_mem_filter ho)

theorem pruneOrphanBlocks (h : NodeInvariant cfg I F) {s : NodeState} (hI : I s)
    (hs : Settled cfg s) :
    (PruneOrphanBlocks cfg s).Meets (fun _ s' => I s' ∧ Settled cfg s')
      (fun _ s' => I s' ∧ Settled cfg s') F := by
  refine Meets.ite (fun _ => ?_) fun _ => ⟨hI, hs⟩
  rw [tick_bind_run]
  cases s.mapOrphanBlocks[(s.ticks 0).nRand % s.mapOrphanBlocks.length]? with
  | none => exact ⟨h.tick hI, hs.genesis, hs.orphans⟩
  | some orphan =>
      refine ⟨h.world _ _ (h.tick hI), hs.genesis, fun o ho => ?_⟩
      exact hs.orphans o (List.mem_of_mem_erase ho)

/-- A block that is kept as an orphan is known afterwards. -/
theorem addOrphan (h : NodeInvariant cfg I F) {s : NodeState} {block : CBlock}
    (hI : I s) (hs : Settled cfg s) (hchecked : CheckedBlock cfg block) :
    (addOrphan cfg block s).Meets
      (fun _ s' => (I s' ∧ Settled cfg s') ∧
        ∃ o ∈ s'.mapOrphanBlocks, o.hashBlock = block.GetHash cfg.crypto)
      (fun _ s' => I s' ∧ Settled cfg s') F := by
  refine Meets.bind (x := PruneOrphanBlocks cfg) (h.pruneOrphanBlocks hI hs)
    fun _ s₁ hs₁ => ?_
  refine ⟨⟨h.world s₁.ticks _ hs₁.1, hs₁.2.genesis, fun o ho => ?_⟩, _,
    List.mem_append_right _ List.mem_cons_self, rfl⟩
  rcases List.mem_append.mp ho with ho | ho
  · exact hs₁.2.orphans o ho
  · rw [List.mem_singleton.mp ho]
    exact hchecked.withTree []

/-- What the invariant says of a block that arrives: afterwards it is known,
unless it was an orphan that nobody sent. -/
theorem processBlock (h : NodeInvariant cfg I F) {s : NodeState} (fuel : Nat)
    (fFrom : Bool) {block : CBlock} (hI : I s) (hs : Settled cfg s)
    (hsafe : ∀ nAdjustedTime, Errs (fun e => ∀ f, e = .fault f → F f)
      (preliminaryChecks cfg s.ticked nAdjustedTime block)) :
    (ProcessBlock cfg fuel fFrom block s).Meets
      (fun _ s' => I s' ∧ Settled cfg s')
      (fun _ s' => I s' ∧ Settled cfg s') F := by
  have hI' := h.tick hI
  have hs' : Settled cfg s.ticked := ⟨hs.genesis, hs.orphans⟩
  unfold ProcessBlock
  rw [tick_bind_run, Machine.get_bind_run]
  cases hblock : preliminaryChecks cfg s.ticked (s.ticks 0).nAdjustedTime block with
  | error e =>
      cases e with
      | reject state => exact ⟨hI', hs'⟩
      | fault e => exact hsafe _ _ hblock e rfl
  | ok block' =>
      obtain ⟨nPoK, hpok, rfl, hcheck⟩ := preliminaryChecks_ok hblock
      have hchecked : CheckedBlock cfg (block.SetPoK nPoK) := ⟨_, _, _, hcheck⟩
      rw [ofRun_ok_bind_run]
      refine Meets.ite (fun _ => ?_) fun _ => ?_
      · refine Meets.ite (fun _ => ?_) fun _ => ⟨hI', hs'⟩
        exact Meets.mono (h.addOrphan hI' hs' (hchecked.withTree _))
          (fun _ _ hr => hr.1) (fun _ _ hr => hr) fun _ hr => hr
      · refine Meets.bind (h.acceptBlock fuel hI' hs' hchecked) fun _ s₁ hs₁ => ?_
        rw [Machine.get_bind_run]
        exact h.processOrphans fuel _ _ hs₁.1.1 hs₁.1.2

theorem acceptTransaction (h : NodeInvariant cfg I F) {s : NodeState}
    (tx : CTransaction) (fLimitFree fRejectInsaneFee : Bool) (hI : I s)
    (hs : Settled cfg s) :
    (acceptTransaction cfg tx fLimitFree fRejectInsaneFee s).Meets
      (fun _ s' => I s' ∧ Settled cfg s') (fun _ s' => I s' ∧ Settled cfg s') F := by
  have hI' := h.tick hI
  unfold Spec.acceptTransaction
  rw [tick_bind_run, Machine.get_bind_run]
  cases hpool : AcceptToMemoryPool cfg (s.ticked.poolContext (s.ticks 0))
      s.ticked.mempool tx fLimitFree fRejectInsaneFee with
  | error e =>
      cases e with
      | reject state => exact ⟨hI', hs.genesis, hs.orphans⟩
      | fault e => exact h.other _ (errs_acceptToMemoryPool _ _ _ _ _ _ _ hpool)
  | ok pool => exact ⟨h.transaction hI' hpool, hs.genesis, hs.orphans⟩

theorem of_leaves {x : Node Unit} {s s' : NodeState} {P : NodeState → Prop}
    {F : Fault → Prop} (h : Leaves x s s')
    (hx : (x s).Meets (fun _ => P) (fun _ => P) F) : P s' := by
  cases h with
  | done h =>
      rw [h] at hx
      exact hx
  | refused h =>
      rw [h] at hx
      exact hx

/-- Every reachable state satisfies what holds once the genesis block has its
entry and is kept from then on. -/
theorem reachable (h : NodeInvariant cfg I fun _ => True)
    (hinit : ∀ ticks nTimeReceived, I (addEntry (.initial ticks) cfg.GenesisBlock
      (newEntry cfg (.initial ticks) cfg.GenesisBlock nTimeReceived 0)))
    {s : NodeState} (hs : Reachable cfg s) : I s ∧ Settled cfg s := by
  induction hs with
  | init hrun =>
      rename_i ticks fuel s
      have hsettled : ∀ u nTimeReceived, Settled cfg (addEntry (.initial u)
          cfg.GenesisBlock (newEntry cfg (.initial u) cfg.GenesisBlock
            nTimeReceived 0)) := by
        intro u nTimeReceived
        refine ⟨find_addEntry (.inr rfl), fun o ho => ?_⟩
        simp [addEntry, NodeState.initial] at ho
      have hactivate := h.activate_settled (hinit (fun n => ticks (n + 1))
        (ticks 0).nTimeMillis) (hsettled _ _) fuel
      have hrun' : (InitBlockIndex cfg fuel (.initial ticks)).Meets
          (fun _ s' => I s' ∧ Settled cfg s') (fun _ _ => True) fun _ => True := by
        -- The index is empty, so there is no duplicate and nothing to count.
        change ((ActivateBestChain cfg fuel >>= _) _).Meets _ _ _
        refine Meets.bind (Meets.mono hactivate (fun _ _ hr => hr.2)
          (fun _ _ _ => trivial) fun _ hr => hr) fun _ s' hs' => ?_
        rw [Machine.get_bind_run]
        refine Meets.ite (fun _ => ?_) fun _ => hs'
        cases cfg.GenesisBlock.GetTxHash 0 with
        | ok hash => exact hs'
        | error e =>
            cases e with
            | reject state => trivial
            | fault e => trivial
      exact Meets.of_done (D := fun _ s' => I s' ∧ Settled cfg s') hrun' hrun
  | step hreach hstep ih =>
      rename_i event
      cases event with
      | block fuel fFrom block =>
          exact of_leaves hstep (h.processBlock fuel fFrom ih.1 ih.2
            fun _ _ _ _ _ => trivial)
      | transaction tx fLimitFree fRejectInsaneFee =>
          exact of_leaves hstep (h.acceptTransaction tx fLimitFree fRejectInsaneFee
            ih.1 ih.2)

end NodeInvariant

/-- The genesis block of a reachable state is in the index, and its orphans are
checked. -/
theorem Reachable.settled {cfg : Config} {s : NodeState} (hs : Reachable cfg s) :
    Settled cfg s := by
  have hinv : NodeInvariant cfg (fun _ => True) fun _ => True :=
    { other := fun _ _ => trivial
      world := fun _ _ _ => trivial
      transaction := fun _ _ => trivial
      entry := fun _ _ _ _ => trivial
      activate := fun fuel _ => Meets.mono (framed_activateBestChain cfg fuel _)
        (fun _ _ _ => trivial) (fun _ _ _ => trivial) fun _ _ => trivial }
  exact (hinv.reachable (fun _ _ => trivial) hs).2

end Ziftrcoin.Spec
