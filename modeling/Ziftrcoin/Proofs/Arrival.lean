/-
Module: Ziftrcoin.Proofs.Arrival
Purpose: A block of the small network that arrives at an idle node: from its
  checks to the entry that the index gets for it.
Trusted boundary: none
Main exports: Idle, processBlock_smallBlock
-/
import Ziftrcoin.Proofs.Extending
import Ziftrcoin.Proofs.OwnLimit

namespace Ziftrcoin.Spec

open Ziftrcoin.Lib
open Ziftrcoin.Lib.Outcome

/-! ### An idle node -/

/-- The world outside always shows the same, and nothing waits at the node. -/
structure Idle (s : NodeState) (t : Tick) : Prop where
  ticks : s.ticks = fun _ => t
  orphans : s.mapOrphanBlocks = []
  mempool : s.mempool = .empty

theorem Idle.ticked_eq {s : NodeState} {t : Tick} (h : Idle s t) : s.ticked = s := by
  have hticks : (fun n => s.ticks (n + 1)) = s.ticks := by
    rw [h.ticks]
  unfold NodeState.ticked
  rw [hticks]

theorem Idle.tick_bind {α : Type} {s : NodeState} {t : Tick} (h : Idle s t)
    (f : Tick → Node α) : (Node.tick >>= f) s = f t s := by
  rw [tick_bind_run, h.ticked_eq, h.ticks]

theorem Idle.addEntry {s : NodeState} {t : Tick} (h : Idle s t) (block : CBlock)
    (pindexNew : CBlockIndex) : Idle (addEntry s block pindexNew) t :=
  ⟨h.ticks, h.orphans, h.mempool⟩

/-- A new entry leaves a node at rest. -/
theorem AtRest.addEntry {s : NodeState} {xs : List Ptr} (h : AtRest s xs)
    (block : CBlock) {pindexNew : CBlockIndex}
    (hnew : match pindexNew.pprev with
      | none => s.mapBlockIndex = [] ∧ pindexNew.nHeight = 0
      | some q => ∃ prev, s.mapBlockIndex[q]? = some prev ∧
          pindexNew.nHeight = prev.nHeight + 1) :
    AtRest (addEntry s block pindexNew) xs where
  linked := h.linked.append hnew
  active := h.active.append pindexNew
  mostWork := h.mostWork.append pindexNew
  sound := by
    intro tip pindex htip hp
    have hold : (Spec.addEntry s block pindexNew).mapBlockIndex[tip]? =
        s.mapBlockIndex[tip]? :=
      List.getElem?_append_left (h.active.known tip (List.mem_of_getLast? htip))
    exact h.sound htip (hold.symm.trans hp)

/-! ### A new entry -/

section NewEntry

variable {cfg : Config} {s s' : NodeState} {t : Tick} {block : CBlock} {fuel : ℕ}

/-- The block gets its entry, and the best chain is activated. -/
theorem addToBlockIndex_run {nMatureCoinsSpent : ℤ} {txid : uint256} (h : Idle s t)
    (hnew : s.mapBlockIndex.find (block.GetHash cfg.crypto) = none)
    (hcount : CountMatureCoins s block (s.mapBlockIndex.find block.hashPrevBlock)
      (newEntry cfg s block 0 0).nHeight = .ok nMatureCoinsSpent)
    (hactivate : ActivateBestChain cfg fuel
      (addEntry s block (newEntry cfg s block t.nTimeMillis nMatureCoinsSpent)) =
        .done () s')
    (htxid : block.GetTxHash 0 = .ok txid) :
    AddToBlockIndex cfg fuel block s = .done () s' := by
  have hfresh : ¬(s.mapBlockIndex.find (block.GetHash cfg.crypto)).isSome = true := by
    rw [hnew]
    exact Bool.false_ne_true
  unfold AddToBlockIndex
  rw [Machine.get_bind_run, if_neg hfresh]
  change (Node.tick >>= _) s = _
  rw [h.tick_bind, Machine.get_bind_run, hcount, ofRun_ok_bind_run, Machine.modify_bind_run,
    Machine.bind_run_done hactivate, Machine.get_bind_run, htxid]
  split
  · rfl
  · rfl

/-- A count that reads beyond the end of a vector ends the call. -/
theorem addToBlockIndex_fault {e : Fault} (h : Idle s t)
    (hnew : s.mapBlockIndex.find (block.GetHash cfg.crypto) = none)
    (hcount : CountMatureCoins s block (s.mapBlockIndex.find block.hashPrevBlock)
      (newEntry cfg s block 0 0).nHeight = .error (.fault e)) :
    AddToBlockIndex cfg fuel block s = .faulted e := by
  have hfresh : ¬(s.mapBlockIndex.find (block.GetHash cfg.crypto)).isSome = true := by
    rw [hnew]
    exact Bool.false_ne_true
  unfold AddToBlockIndex
  rw [Machine.get_bind_run, if_neg hfresh]
  change (Node.tick >>= _) s = _
  rw [h.tick_bind, Machine.get_bind_run, hcount, ofRun_fault_bind_run]

/-! ### Receiving -/

/-- A block that passes the checks is added to the index; whatever happens there
happens to the call. -/
theorem processBlock_received {block' : CBlock} (fuel : ℕ) (fFrom : Bool) (h : Idle s t)
    (hchecks : preliminaryChecks cfg s t.nAdjustedTime block = .ok block')
    (hparent : (s.mapBlockIndex.find block'.hashPrevBlock).isSome = true)
    (hnew : s.mapBlockIndex.find (block'.GetHash cfg.crypto) = none)
    (haccept : acceptChecks cfg s t.nAdjustedTime block' = .ok ()) :
    (∀ e, AddToBlockIndex cfg fuel block' s = .faulted e →
      ProcessBlock cfg fuel fFrom block s = .faulted e) ∧
    ∀ s', AddToBlockIndex cfg fuel block' s = .done () s' → s'.mapOrphanBlocks = [] →
      (s'.mapBlockIndex.deref s'.chainActive.Tip).isSome = true →
      ProcessBlock cfg fuel fFrom block s = .done () s' := by
  have hfresh : ¬(s.mapBlockIndex.find (block'.GetHash cfg.crypto)).isSome = true := by
    rw [hnew]
    exact Bool.false_ne_true
  have hknown : ¬(block'.hashPrevBlock ≠ 0 ∧
      (s.mapBlockIndex.find block'.hashPrevBlock).isNone = true) := by
    rw [← Option.not_isSome, hparent]
    exact fun hnone => Bool.false_ne_true hnone.2
  -- Accepting comes down to the entry.
  have hblock : AcceptBlock cfg fuel block' s = (do
      AddToBlockIndex cfg fuel block'
      let s ← Machine.get
      let _ ← Node.deref s.chainActive.Tip : Node Unit) s := by
    unfold AcceptBlock
    rw [Machine.get_bind_run]
    dsimp only
    rw [if_neg hfresh]
    split
    · rw [h.tick_bind, haccept, ofRun_ok_bind_run]
    · rfl
  unfold ProcessBlock
  rw [h.tick_bind, Machine.get_bind_run, hchecks, ofRun_ok_bind_run, if_neg hknown]
  constructor
  · intro e hadd
    rw [Machine.bind_run, hblock, Machine.bind_run, hadd]
  · intro s' hadd horphans htip
    obtain ⟨entry, hentry⟩ := Option.isSome_iff_exists.mp htip
    have hdone : AcceptBlock cfg fuel block' s = .done () s' := by
      rw [hblock, Machine.bind_run_done hadd, Machine.get_bind_run, deref_bind_run hentry]
      rfl
    rw [Machine.bind_run_done hdone, Machine.get_bind_run, horphans]
    have hsame : { s' with
        mapOrphanBlocks := s'.mapOrphanBlocks.filter
          fun o => o.hashPrev != block'.GetHash cfg.crypto } = s' := by
      rw [horphans, List.filter_nil, ← horphans]
    rw [List.length_nil, processOrphans, Machine.get_bind_run, horphans]
    exact congrArg (Result.done ()) hsame

end NewEntry

/-! ### The small network -/

/-- The entry below a new block, and what the rules say of its successors. -/
structure Parent (genesis : CBlock) (s : NodeState) (hashPrev : uint256) (p : Ptr)
    (nHeight : ℕ) : Prop where
  found : s.mapBlockIndex.find hashPrev = some p
  height : (s.mapBlockIndex[p]?.map fun prev => prev.nHeight + 1) = some nHeight
  bits : GetNextWorkRequired (smallNet genesis) s.mapBlockIndex p
    ((1400000000 + 60 * nHeight : ℕ) : ℤ) = .ok (GetCompact smallLimit)
  median : GetMedianTimePast s.mapBlockIndex p < 1400000000 + 60 * nHeight

section SmallNetwork

variable {genesis : CBlock} {s : NodeState} {t : Tick} {hashPrev : uint256} {p : Ptr}
  {nHeight nNonce : ℕ} {nVersion : ℤ} {vout : List CTxOut} {txs : List CTransaction}

theorem acceptChecks_smallBlock (h : Parent genesis s hashPrev p nHeight)
    (hfinal : ∀ tx ∈ txs, tx.nLockTime = 0) (nAdjustedTime : ℤ) :
    acceptChecks (smallNet genesis) s nAdjustedTime
        ((smallBlock nNonce nHeight hashPrev
          (coinbaseTx nVersion nHeight vout :: txs)).BuildMerkleTree smallCrypto) =
      .ok () := by
  have hheight : ((s.mapBlockIndex.deref (some p)).map fun q => q.nHeight + 1).getD 0 =
      nHeight := by
    have hderef : s.mapBlockIndex.deref (some p) = s.mapBlockIndex[p]? := rfl
    rw [hderef, h.height]
    rfl
  have hnotFinal : ∀ chainHeight blockHeight blockTime : ℤ,
      ((coinbaseTx nVersion nHeight vout :: txs).any fun tx =>
        !IsFinalTx chainHeight nAdjustedTime tx blockHeight blockTime) = false := by
    intro chainHeight blockHeight blockTime
    rw [List.any_eq_false]
    intro tx htx
    have hzero : tx.nLockTime = 0 := by
      rcases List.mem_cons.mp htx with rfl | htx
      · rfl
      · exact hfinal tx htx
    unfold IsFinalTx
    rw [if_pos hzero]
    decide
  have hprefix : (pushScriptNum (nHeight : ℤ)).isPrefixOf
      (pushScriptNum (nHeight : ℤ) ++ [0]) = true :=
    List.isPrefixOf_iff_prefix.mpr (List.prefix_append _ _)
  have hcb : coinbaseHeightOk ((smallBlock nNonce nHeight hashPrev
      (coinbaseTx nVersion nHeight vout :: txs)).BuildMerkleTree smallCrypto) nHeight =
      .ok true := congrArg Except.ok hprefix
  have hblockPrev : ((smallBlock nNonce nHeight hashPrev
      (coinbaseTx nVersion nHeight vout :: txs)).BuildMerkleTree smallCrypto).hashPrevBlock =
      hashPrev := rfl
  have htime : ((smallBlock nNonce nHeight hashPrev
      (coinbaseTx nVersion nHeight vout :: txs)).BuildMerkleTree smallCrypto).nTime =
      1400000000 + 60 * nHeight := rfl
  have hnBits : ((smallBlock nNonce nHeight hashPrev
      (coinbaseTx nVersion nHeight vout :: txs)).BuildMerkleTree smallCrypto).nBits =
      GetCompact smallLimit := rfl
  have hvtx : ((smallBlock nNonce nHeight hashPrev
      (coinbaseTx nVersion nHeight vout :: txs)).BuildMerkleTree smallCrypto).vtx =
      coinbaseTx nVersion nHeight vout :: txs := rfl
  have hcheckpoint : ∀ hash, (smallNet genesis).checkpointOk nHeight hash = true :=
    fun _ => rfl
  have hlast : (smallNet genesis).GetLastCheckpoint s.mapBlockIndex = none := rfl
  unfold acceptChecks
  rw [hblockPrev, h.found]
  dsimp only
  rw [hheight, htime, h.bits, ok_bind, hnBits, if_neg (not_not.mpr rfl),
    if_neg (Nat.not_le.mpr h.median), hvtx, hnotFinal, if_neg Bool.false_ne_true,
    hcheckpoint, if_neg (by decide), hlast, hcb]
  rfl

theorem preliminaryChecks_smallBlock {vtx : List CTransaction} (hnonce : nNonce < 2 ^ 32)
    (h : Idle s t) (hnew : s.mapBlockIndex.find (hashOfNonce nNonce) = none)
    (hcheck : CheckBlock (smallNet genesis) t.nAdjustedTime
      (smallBlock nNonce nHeight hashPrev vtx) s.chainActive.TipMaxBlockSize true true =
        .ok ((smallBlock nNonce nHeight hashPrev vtx).BuildMerkleTree smallCrypto)) :
    preliminaryChecks (smallNet genesis) s t.nAdjustedTime
        (smallBlock nNonce nHeight hashPrev vtx) =
      .ok ((smallBlock nNonce nHeight hashPrev vtx).BuildMerkleTree smallCrypto) := by
  have hpok : (smallBlock nNonce nHeight hashPrev vtx).CalculatePoK
      (smallNet genesis).crypto = .ok 0 :=
    calculatePoK_small (isPoKBlock_smallBlock _ _ _ _)
  have hset := setPoK_smallBlock nNonce nHeight hashPrev vtx
  have hhash : (smallBlock nNonce nHeight hashPrev vtx).GetHash (smallNet genesis).crypto =
      hashOfNonce nNonce := getHash_smallBlock hnonce _ _ _
  rw [preliminaryChecks_fresh t.nAdjustedTime hpok, hset, hcheck, ok_bind]
  · rfl
  · rw [hset, hhash]
    rintro (hknown | ⟨o, ho, _⟩)
    · rw [hnew] at hknown
      cases hknown
    · rw [h.orphans] at ho
      exact absurd ho List.not_mem_nil

/-- A block of the small network on a known parent gets an entry. -/
theorem processBlock_smallBlock (fuel : ℕ) (fFrom : Bool) (hidle : Idle s t)
    (hparent : Parent genesis s hashPrev p nHeight) (hnonce : nNonce < 2 ^ 32)
    (hnew : s.mapBlockIndex.find (hashOfNonce nNonce) = none)
    (hfinal : ∀ tx ∈ txs, tx.nLockTime = 0) {block : CBlock}
    (hblock : block = smallBlock nNonce nHeight hashPrev
      (coinbaseTx nVersion nHeight vout :: txs))
    (hcheck : CheckBlock (smallNet genesis) t.nAdjustedTime block
      s.chainActive.TipMaxBlockSize true true = .ok (block.BuildMerkleTree smallCrypto)) :
    (∀ e, CountMatureCoins s block (some p) nHeight = .error (.fault e) →
      ProcessBlock (smallNet genesis) fuel fFrom block s = .faulted e) ∧
    ∀ nMatureCoinsSpent s', CountMatureCoins s block (some p) nHeight =
        .ok nMatureCoinsSpent →
      ActivateBestChain (smallNet genesis) fuel
        (addEntry s (block.BuildMerkleTree smallCrypto) (newEntry (smallNet genesis) s
          (block.BuildMerkleTree smallCrypto) t.nTimeMillis nMatureCoinsSpent)) =
        .done () s' →
      s'.mapOrphanBlocks = [] →
      (s'.mapBlockIndex.deref s'.chainActive.Tip).isSome = true →
      ProcessBlock (smallNet genesis) fuel fFrom block s = .done () s' := by
  subst hblock
  have hhash : ((smallBlock nNonce nHeight hashPrev
      (coinbaseTx nVersion nHeight vout :: txs)).BuildMerkleTree smallCrypto).GetHash
        (smallNet genesis).crypto = hashOfNonce nNonce := getHash_smallBlock hnonce _ _ _
  have hfound : s.mapBlockIndex.find ((smallBlock nNonce nHeight hashPrev
      (coinbaseTx nVersion nHeight vout :: txs)).BuildMerkleTree smallCrypto).hashPrevBlock =
      some p := hparent.found
  have hnewHash := hnew
  rw [← hhash] at hnewHash
  obtain ⟨hfault, hdone⟩ := processBlock_received fuel fFrom hidle
    (preliminaryChecks_smallBlock hnonce hidle hnew hcheck)
    (by rw [hfound]; rfl) hnewHash (acceptChecks_smallBlock hparent hfinal _)
  have hheight : (newEntry (smallNet genesis) s ((smallBlock nNonce nHeight hashPrev
      (coinbaseTx nVersion nHeight vout :: txs)).BuildMerkleTree smallCrypto) 0 0).nHeight =
      nHeight := by
    have hderef : s.mapBlockIndex.deref (some p) = s.mapBlockIndex[p]? := rfl
    unfold newEntry
    dsimp only
    rw [hfound, hderef, hparent.height]
    rfl
  have htxid : ((smallBlock nNonce nHeight hashPrev
      (coinbaseTx nVersion nHeight vout :: txs)).BuildMerkleTree smallCrypto).GetTxHash 0 =
      .ok ((coinbaseTx nVersion nHeight vout).GetHash smallCrypto) :=
    getTxHash_buildMerkleTree rfl
  constructor
  · intro e hcount
    apply hfault
    apply addToBlockIndex_fault hidle hnewHash
    rw [hfound, hheight]
    exact hcount
  · intro nMatureCoinsSpent s' hcount hactivate
    apply hdone
    apply addToBlockIndex_run hidle hnewHash _ hactivate htxid
    rw [hfound, hheight]
    exact hcount

end SmallNetwork

end Ziftrcoin.Spec
