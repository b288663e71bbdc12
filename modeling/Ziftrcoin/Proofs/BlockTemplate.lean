/-
Module: Ziftrcoin.Proofs.BlockTemplate
Purpose: What getblocktemplate says about the next block: the dependencies are
  right, the two limits have changed places.
Trusted boundary: none
-/
import Ziftrcoin.Spec.Miner
import Ziftrcoin.Proofs.OwnLimit

namespace Ziftrcoin.Spec

/-! ### The limits -/

/-- `GetSigOpCount` of all transactions of a block. -/
def CBlock.sigOpTotal (block : CBlock) : ℕ := (block.vtx.map GetSigOpCount).sum

/-- The limits on size and signature operations that `CheckBlock` enforces. -/
structure WithinLimits (nMaxBlockSize : ℕ) (block : CBlock) : Prop where
  count : block.vtx.length ≤ nMaxBlockSize
  size : block.GetSerializeSize ≤ nMaxBlockSize
  sigOps : block.sigOpTotal ≤ MaxBlockSizeToSigOps nMaxBlockSize

/-- Blocks on the tip that keep to the two numbers are within the limits. -/
def SoundLimits (hashPrev : uint256) (nMaxBlockSize sizelimit sigoplimit : ℕ) : Prop :=
  ∀ block : CBlock, block.hashPrevBlock = hashPrev → block.GetSerializeSize ≤ sizelimit →
    block.sigOpTotal ≤ sigoplimit → WithinLimits nMaxBlockSize block

/-- The two numbers describe the limits: neither can be larger. -/
structure TightLimits (hashPrev : uint256) (nMaxBlockSize sizelimit sigoplimit : ℕ) : Prop where
  sound : SoundLimits hashPrev nMaxBlockSize sizelimit sigoplimit
  size : ∀ n, SoundLimits hashPrev nMaxBlockSize n sigoplimit → n ≤ sizelimit
  sigOps : ∀ n, SoundLimits hashPrev nMaxBlockSize sizelimit n → n ≤ sigoplimit

/-- A block with twenty signature operations to a byte of its one script. -/
def denseBlock (hashPrevBlock : uint256) (n : ℕ) : CBlock :=
  { nVersion := 0
    hashPrevBlock
    hashMerkleRoot := 0
    nTime := 0
    nBits := 0
    nNonce := 0
    vtx := [{ nVersion := 1, vin := [], vout := [⟨0, multisigScript n⟩], nLockTime := 0 }]
    vMerkleTree := [] }

theorem sigOpTotal_denseBlock (hashPrevBlock : uint256) (n : ℕ) :
    (denseBlock hashPrevBlock n).sigOpTotal = 20 * n := by
  have hcoinbase : CTransaction.IsCoinBase
      { nVersion := 1, vin := [], vout := [⟨0, multisigScript n⟩], nLockTime := 0 } = false := rfl
  unfold CBlock.sigOpTotal denseBlock
  rw [List.map_singleton, List.sum_singleton]
  unfold GetSigOpCount
  rw [hcoinbase, List.map_nil, List.sum_nil, sigOps_singleton, sigOpCount_multisigScript]
  rw [if_neg Bool.false_ne_true]
  omega

theorem writeCompactSize_length_le (n : ℕ) : (writeCompactSize n).length ≤ 9 := by
  unfold writeCompactSize
  split_ifs
  · rw [leBytes_length]; omega
  · rw [List.length_cons, leBytes_length]; omega
  · rw [List.length_cons, leBytes_length]; omega
  · rw [List.length_cons, leBytes_length]

theorem size_denseBlock_le (hashPrevBlock : uint256) (n : ℕ) :
    (denseBlock hashPrevBlock n).GetSerializeSize ≤ n + 200 := by
  have hlen : (multisigScript n).length = n := List.length_replicate
  have hsize := writeCompactSize_length_le n
  have hzero : (writeCompactSize 0).length = 1 := rfl
  have hone : (writeCompactSize 1).length = 1 := rfl
  unfold CBlock.GetSerializeSize denseBlock CBlock.serialize CBlockHeader.serialize
    serializeVector
  rw [List.flatMap_singleton]
  unfold CTransaction.serialize serializeVector leInt32
  rw [List.flatMap_singleton, List.flatMap_nil]
  unfold CTxOut.serialize leInt64 serializeBytes
  simp only [List.length_append, leBytes_length, List.length_singleton, List.length_nil, hzero,
    hone, hlen]
  omega

/-- With the size limit in place of the limit on signature operations and the other way round,
some block is let through that has too many operations. -/
theorem not_soundLimits_swapped {hashPrev : uint256} {nMaxBlockSize : ℕ}
    (h : MIN_MAX_BLOCK_SIZE ≤ nMaxBlockSize) :
    ¬ SoundLimits hashPrev nMaxBlockSize (MaxBlockSizeToSigOps nMaxBlockSize) nMaxBlockSize := by
  intro hsound
  have hsize := size_denseBlock_le hashPrev (nMaxBlockSize / 50 / 20 + 1)
  have hdense := hsound (denseBlock hashPrev (nMaxBlockSize / 50 / 20 + 1)) rfl
  rw [sigOpTotal_denseBlock] at hdense
  unfold MIN_MAX_BLOCK_SIZE at h
  unfold MaxBlockSizeToSigOps at hdense
  have hover := (hdense (by omega) (by omega)).sigOps
  rw [sigOpTotal_denseBlock, MaxBlockSizeToSigOps] at hover
  omega

/-! ### The dependencies -/

/-- The entries list the transactions, and each names the places of the earlier ones that it
spends from, counted from one. -/
structure DependsExact (crypto : Crypto) (txs : List CTransaction)
    (entries : List TemplateEntry) : Prop where
  hashes : entries.map TemplateEntry.hash = txs.map (CTransaction.GetHash crypto)
  depends : ∀ k tx entry, txs[k]? = some tx → entries[k]? = some entry → ∀ d,
    d ∈ entry.depends ↔ ∃ j prev, d = j + 1 ∧ j < k ∧ txs[j]? = some prev ∧
      ∃ txin ∈ tx.vin, txin.prevout.hash = prev.GetHash crypto

/-- The index knows the transactions of a list by their hashes. -/
def IndexOf (crypto : Crypto) (setTxIndex : uint256 → Option ℕ) (vtx : List CTransaction) : Prop :=
  ∀ hash d, setTxIndex hash = some d ↔ ∃ tx, vtx[d]? = some tx ∧ tx.GetHash crypto = hash

variable {crypto : Crypto} {costs : TemplateCosts}

theorem IndexOf.concat {setTxIndex : uint256 → Option ℕ} {front : List CTransaction}
    (h : IndexOf crypto setTxIndex front) {tx : CTransaction}
    (hnew : ∀ other ∈ front, other.GetHash crypto ≠ tx.GetHash crypto) :
    IndexOf crypto (Function.update setTxIndex (tx.GetHash crypto) (some front.length))
      (front ++ [tx]) := by
  intro hash d
  by_cases hhash : hash = tx.GetHash crypto
  · rw [hhash, Function.update_self, Option.some.injEq]
    constructor
    · rintro rfl
      exact ⟨tx, List.getElem?_concat_length, rfl⟩
    · rintro ⟨other, hother, hsame⟩
      rcases Nat.lt_or_ge d front.length with hlt | hge
      · rw [List.getElem?_append_left hlt] at hother
        exact absurd hsame (hnew other (List.mem_of_getElem? hother))
      · have hle := (List.getElem?_eq_some_iff.mp hother).1
        rw [List.length_append, List.length_singleton] at hle
        omega
  · rw [Function.update_of_ne hhash, h hash d]
    constructor
    · rintro ⟨other, hother, hsame⟩
      have hlt := (List.getElem?_eq_some_iff.mp hother).1
      exact ⟨other, by rw [List.getElem?_append_left hlt, hother], hsame⟩
    · rintro ⟨other, hother, hsame⟩
      rcases Nat.lt_or_ge d front.length with hlt | hge
      · rw [List.getElem?_append_left hlt] at hother
        exact ⟨other, hother, hsame⟩
      · rw [List.getElem?_append_right hge, List.getElem?_singleton] at hother
        obtain rfl := Option.some.inj (Option.ite_none_right_eq_some.mp hother).2
        exact absurd hsame.symm hhash

/-- The loop lists the transactions behind the front with what it has indexed so far. -/
theorem describeTxs_spec : ∀ (vtx front : List CTransaction) {setTxIndex : uint256 → Option ℕ},
    IndexOf crypto setTxIndex front →
    ((front ++ vtx).map (CTransaction.GetHash crypto)).Nodup →
    (∀ tx ∈ vtx, tx.IsCoinBase = false) →
    (describeTxs crypto costs front.length setTxIndex vtx).map TemplateEntry.hash =
        vtx.map (CTransaction.GetHash crypto) ∧
      ∀ k tx entry, vtx[k]? = some tx →
        (describeTxs crypto costs front.length setTxIndex vtx)[k]? = some entry → ∀ d,
        d ∈ entry.depends ↔ d ≤ front.length + k ∧ ∃ prev, (front ++ vtx)[d]? = some prev ∧
          ∃ txin ∈ tx.vin, txin.prevout.hash = prev.GetHash crypto
  | [], _, _, _, _, _ => ⟨rfl, fun _ _ _ htx => (nomatch htx)⟩
  | tx :: vtx, front, setTxIndex, hindex, hnodup, hplain => by
      have hnew : ∀ other ∈ front, other.GetHash crypto ≠ tx.GetHash crypto := by
        rw [List.map_append, List.map_cons] at hnodup
        intro other hmem heq
        exact List.disjoint_of_nodup_append hnodup (List.mem_map_of_mem hmem)
          (heq ▸ List.mem_cons_self)
      have hindex' := hindex.concat hnew
      have happend : front ++ tx :: vtx = front ++ [tx] ++ vtx := List.append_cons _ _ _
      have hlength : (front ++ [tx]).length = front.length + 1 := List.length_append
      obtain ⟨hhashes, hdepends⟩ := describeTxs_spec vtx (front ++ [tx]) hindex'
        (happend ▸ hnodup) fun other hmem => hplain other (List.mem_cons_of_mem _ hmem)
      rw [hlength] at hhashes hdepends
      rw [describeTxs, if_neg (ne_true_of_eq_false (hplain tx List.mem_cons_self))]
      refine ⟨by rw [List.map_cons, List.map_cons, hhashes], ?_⟩
      intro k tx' entry htx' hentry d
      cases k with
      | zero =>
          obtain rfl := Option.some.inj htx'
          obtain rfl := Option.some.inj hentry
          rw [List.mem_filterMap, happend]
          constructor
          · rintro ⟨txin, hin, hknown⟩
            obtain ⟨prev, hprev, hhash⟩ := (hindex' _ d).mp hknown
            have hlt := (List.getElem?_eq_some_iff.mp hprev).1
            refine ⟨by omega, prev, ?_, txin, hin, hhash.symm⟩
            rw [List.getElem?_append_left hlt, hprev]
          · rintro ⟨hle, prev, hprev, txin, hin, hhash⟩
            rw [List.getElem?_append_left (by omega)] at hprev
            exact ⟨txin, hin, (hindex' _ d).mpr ⟨prev, hprev, hhash.symm⟩⟩
      | succ k =>
          rw [List.getElem?_cons_succ] at htx' hentry
          rw [hdepends k tx' entry htx' hentry d, happend]
          have hsum : front.length + 1 + k = front.length + (k + 1) := by omega
          rw [hsum]

/-- **The dependencies of a template are exact**, since no transaction spends from itself or from
the coinbase of the block it is in. -/
theorem dependsExact_describeTxs {coinbase : CTransaction} {txs : List CTransaction}
    (hcoinbase : coinbase.IsCoinBase = true) (hplain : ∀ tx ∈ txs, tx.IsCoinBase = false)
    (hnodup : ((coinbase :: txs).map (CTransaction.GetHash crypto)).Nodup)
    (hspends : ∀ tx ∈ txs, ∀ txin ∈ tx.vin, txin.prevout.hash ≠ tx.GetHash crypto ∧
      txin.prevout.hash ≠ coinbase.GetHash crypto) :
    DependsExact crypto txs
      (describeTxs crypto costs 0 (fun _ => none) (coinbase :: txs)) := by
  have hnone : IndexOf crypto (fun _ => none) [] := fun hash d =>
    ⟨fun h => (nomatch h), fun ⟨_, h, _⟩ => (nomatch h)⟩
  have hindex := @IndexOf.concat _ _ _ hnone coinbase fun _ hmem => (nomatch hmem)
  obtain ⟨hhashes, hdepends⟩ :=
    @describeTxs_spec _ costs txs [coinbase] _ hindex hnodup hplain
  rw [describeTxs, if_pos hcoinbase]
  refine ⟨hhashes, fun k tx entry htx hentry d => ?_⟩
  rw [hdepends k tx entry htx hentry d]
  have hmem := List.mem_of_getElem? htx
  constructor
  · rintro ⟨hle, prev, hprev, txin, hin, hhash⟩
    cases d with
    | zero =>
        obtain rfl := Option.some.inj hprev
        exact absurd hhash (hspends tx hmem txin hin).2
    | succ j =>
        refine ⟨j, prev, rfl, ?_, hprev, txin, hin, hhash⟩
        have hne : j ≠ k := by
          rintro rfl
          obtain rfl := Option.some.inj (htx.symm.trans hprev)
          exact (hspends tx hmem txin hin).1 hhash
        rw [List.length_singleton] at hle
        omega
  · rintro ⟨j, prev, rfl, hlt, hprev, hin⟩
    exact ⟨by rw [List.length_singleton]; omega, prev, hprev, hin⟩

/-- A transaction that spends the first output of another. -/
def spendingTx (hash : uint256) : CTransaction :=
  { nVersion := 1, vin := [⟨⟨hash, 0⟩, [], 0⟩], vout := [⟨1, []⟩], nLockTime := 0 }

/-- The second transaction behind the coinbase spends from the first. -/
theorem dependsExact_describeTxs_spending :
    DependsExact movingNet.crypto
      [spendingTx 7, spendingTx ((spendingTx 7).GetHash movingNet.crypto)]
      (describeTxs movingNet.crypto ⟨[], []⟩ 0 (fun _ => none)
        [templateCoinbase [0x51] 50, spendingTx 7,
          spendingTx ((spendingTx 7).GetHash movingNet.crypto)]) :=
  dependsExact_describeTxs (by decide) (by decide) (by decide +kernel) (by decide +kernel)

/-! ### The reply -/

theorem getblocktemplate_limits {cfg : Config} {chainActive : CChain} {tip : MiningTip}
    {nAdjustedTime : ℤ} {pblocktemplate : CBlockTemplate} {reply : BlockTemplateReply}
    (h : getblocktemplate cfg chainActive tip nAdjustedTime pblocktemplate costs = .ok reply) :
    reply.sizelimit = MaxBlockSizeToSigOps chainActive.TipMaxBlockSize ∧
      reply.sigoplimit = chainActive.TipMaxBlockSize := by
  obtain ⟨block, -, hreply⟩ := Lib.Outcome.bind_eq_ok.mp h
  obtain rfl := Except.ok.inj hreply
  exact ⟨rfl, rfl⟩

/-- The limits of an active chain are no smaller than the first one. -/
theorem LimitRun.le_tipMaxBlockSize {cfg : Config} {tree : BlockTree} {chain : CChain}
    (h : LimitRun cfg tree chain) : MIN_MAX_BLOCK_SIZE ≤ chain.TipMaxBlockSize := by
  obtain ⟨xs, hxs⟩ := h.limitsRight
  unfold CChain.TipMaxBlockSize
  rw [hxs.path.length_eq, LimitsUpTo.maxBlockSize_eq hxs (Nat.le_refl _)]
  exact min_le_limitOfPeriod _ _

/-- Whatever the chain and the template: the limits of the reply do not describe the next
block, because each stands in the field of the other. -/
theorem getblocktemplate_never_describes {cfg : Config} {tree : BlockTree} {chainActive : CChain}
    (h : LimitRun cfg tree chainActive) {tip : MiningTip} {nAdjustedTime : ℤ}
    {pblocktemplate : CBlockTemplate} {costs : TemplateCosts} {reply : BlockTemplateReply}
    (hreply : getblocktemplate cfg chainActive tip nAdjustedTime pblocktemplate costs =
      .ok reply) :
    ¬ (TightLimits reply.previousblockhash chainActive.TipMaxBlockSize reply.sizelimit
        reply.sigoplimit ∧
      DependsExact cfg.crypto pblocktemplate.block.vtx.tail reply.transactions) := by
  rintro ⟨htight, -⟩
  have hsound := htight.sound
  rw [(getblocktemplate_limits hreply).1, (getblocktemplate_limits hreply).2] at hsound
  exact not_soundLimits_swapped h.le_tipMaxBlockSize hsound

/-- A template for the block behind the moved chain. -/
def movedTip : MiningTip := ⟨forkedIndex, 2, sizedEntry (some 0) 1 300 500⟩

def movedTemplate : CBlockTemplate :=
  { block := { (default : CBlock) with vtx := [templateCoinbase [0x51] 50] }, fUsePoK := false }

def movedReply : BlockTemplateReply :=
  ((getblocktemplate movingNet movedChain movedTip 5 movedTemplate ⟨[-50], [1]⟩).toOption).getD
    default

theorem getblocktemplate_moved :
    getblocktemplate movingNet movedChain movedTip 5 movedTemplate ⟨[-50], [1]⟩ =
      .ok movedReply := rfl

theorem getblocktemplate_never_describes_moved :
    ¬ (TightLimits movedReply.previousblockhash movedChain.TipMaxBlockSize movedReply.sizelimit
        movedReply.sigoplimit ∧
      DependsExact movingNet.crypto movedTemplate.block.vtx.tail movedReply.transactions) :=
  getblocktemplate_never_describes limitRun_movedChain getblocktemplate_moved

/-- On that chain, a block of 1201 bytes at most keeps to both numbers of the reply and has 20020
signature operations, where 20000 are allowed. -/
theorem movedReply_lets_dense_block_through :
    (denseBlock movedReply.previousblockhash 1001).GetSerializeSize ≤ movedReply.sizelimit ∧
      (denseBlock movedReply.previousblockhash 1001).sigOpTotal ≤ movedReply.sigoplimit ∧
      ¬ WithinLimits movedChain.TipMaxBlockSize (denseBlock movedReply.previousblockhash 1001) ∧
      ¬ (TightLimits movedReply.previousblockhash movedChain.TipMaxBlockSize movedReply.sizelimit
          movedReply.sigoplimit ∧
        DependsExact movingNet.crypto movedTemplate.block.vtx.tail movedReply.transactions) := by
  have hlimit : movedChain.TipMaxBlockSize = 1000000 := by decide +kernel
  have hlimits := getblocktemplate_limits getblocktemplate_moved
  have hsize := size_denseBlock_le movedReply.previousblockhash 1001
  rw [hlimits.1, hlimits.2, hlimit, MaxBlockSizeToSigOps]
  have hops : (denseBlock movedReply.previousblockhash 1001).sigOpTotal ≤ 1000000 := by
    rw [sigOpTotal_denseBlock]
    decide
  have hover : ¬ WithinLimits 1000000 (denseBlock movedReply.previousblockhash 1001) := by
    intro hwithin
    have hmany := hwithin.sigOps
    rw [sigOpTotal_denseBlock, MaxBlockSizeToSigOps] at hmany
    omega
  exact ⟨by omega, hops, hover, fun htight => hover (htight.1.sound _ rfl (by omega) hops)⟩

end Ziftrcoin.Spec
