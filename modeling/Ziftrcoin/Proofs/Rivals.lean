/-
Module: Ziftrcoin.Proofs.Rivals
Purpose: Runs of a node of the small network on which siblings compete: the
  comparator goes round in a circle, spent outputs are counted, and outputs that do
  not exist are read.
Trusted boundary: none
Main exports: rivals_start, countMatureCoins_crashes
-/
import Ziftrcoin.Proofs.Siblings

namespace Ziftrcoin.Spec

open Ziftrcoin.Lib
open Ziftrcoin.Lib.Outcome

/-! ### The chain below -/

/-- A script that nobody can satisfy. -/
def burnt : CScript := [UInt8.ofNat OP_RETURN]

/-- Three outputs that everyone can spend. -/
def rivalOuts : List CTxOut :=
  [⟨25, anyoneCanSpend⟩, ⟨25, anyoneCanSpend⟩, ⟨25, anyoneCanSpend⟩]

/-- A moment at which the coins are written out. -/
def flushing : Tick := { quiet with fFlush := true }

theorem minedOutputs_rivalOuts : MinedOutputs rivalOuts 75 where
  plain := ⟨List.cons_ne_nil _ _, by decide, by decide +kernel⟩
  ops := by decide +kernel
  value := by decide

theorem minedOutputs_burnt : MinedOutputs (deadOuts burnt) 0 where
  plain := ⟨List.cons_ne_nil _ _, by decide, by decide +kernel⟩
  ops := by decide +kernel
  value := by decide

/-- A node on a chain that nobody has spent anything on. -/
theorem rivals_start {n : ℕ} (hn : n ≤ 1000) :
    ∃ s, Reachable (smallNet (smallGenesis rivalOuts)) s ∧
      HasReceived (deadLine rivalOuts burnt) s flushing n ∧
      s.pcoinsTip = deadView rivalOuts n := by
  have htime : flushing.nAdjustedTime = 2000000000 := rfl
  exact reachable_deadLine minedOutputs_rivalOuts minedOutputs_burnt (by decide)
    rfl n (by omega) (by rw [htime]; omega)

/-! ### Blocks that spend the outputs of the first one -/

/-- A block on the height 718 with one transaction. -/
def rivalBlock (nNonce : ℕ) (tx : CTransaction) : CBlock :=
  smallBlock nNonce 719 (hashOfNonce 719) [coinbaseTx nNonce 719 (deadOuts burnt), tx]

/-- A transaction that spends one of the three outputs of the first block. -/
def firstSpend : CTransaction := spendTx 900 [⟨1 + 2 ^ 32, 0⟩] [⟨25, anyoneCanSpend⟩]

/-- The outputs after the coinbase of a rival block. -/
def rivalView (nNonce : ℕ) : CCoinsViewCache :=
  (deadView rivalOuts 718).SetCoins
    ((coinbaseTx nNonce 719 (deadOuts burnt)).GetHash smallCrypto)
    (CCoins.ofTx (coinbaseTx nNonce 719 (deadOuts burnt)) 719)

/-- A rival block on its own. -/
structure RivalChecked (nNonce : ℕ) (tx : CTransaction) : Prop where
  nonce : nNonce < 2 ^ 32
  size : (rivalBlock nNonce tx).GetSerializeSize ≤ MIN_MAX_BLOCK_SIZE
  ops : ((rivalBlock nNonce tx).vtx.map GetSigOpCount).sum ≤ 20000
  notCoinBase : tx.IsCoinBase = false
  checked : CheckTransaction tx = .ok ()
  different : (coinbaseTx nNonce 719 (deadOuts burnt)).GetHash smallCrypto ≠
    tx.GetHash smallCrypto

/-- What is found out about a rival block before it is connected. -/
structure RivalSpend (nNonce : ℕ) (tx : CTransaction) (nValue : ℤ) : Prop
    extends RivalChecked nNonce tx where
  fresh : ∀ t ∈ (rivalBlock nNonce tx).vtx,
    (deadView rivalOuts 718).HaveCoins (t.GetHash smallCrypto) = false
  inputs : (rivalView nNonce).HaveInputs tx = true
  p2sh : GetP2SHSigOpCount tx (rivalView nNonce) = .ok 0
  valueIn : (rivalView nNonce).GetValueIn tx = .ok nValue
  valueOut : Spec.valueOut tx = .ok nValue
  checkInputs : CheckInputs smallCrypto (fun _ => some 718) tx (rivalView nNonce) true
    SCRIPT_VERIFY_P2SH_STRICTENC false = .ok []

theorem firstSpend_rival {nNonce : ℕ} (h : nNonce = 720 ∨ nNonce = 723) :
    RivalSpend nNonce firstSpend 25 := by
  rcases h with rfl | rfl
  all_goals
    constructor
    · constructor
      all_goals decide +kernel
    all_goals decide +kernel

namespace RivalChecked

variable {nNonce : ℕ} {tx : CTransaction}

theorem blockChecked (h : RivalChecked nNonce tx) :
    BlockChecked (smallNet (smallGenesis rivalOuts)) (rivalBlock nNonce tx)
      (coinbaseTx nNonce 719 (deadOuts burnt)) [tx] where
  vtx_eq := rfl
  isCoinBase := isCoinBase_coinbaseTx _ _ _
  notCoinBase := by
    intro tx' htx'
    rw [List.mem_singleton.mp htx']
    exact h.notCoinBase
  checked := by
    have hcoinbase := blockChecked_coinbase (smallGenesis rivalOuts)
      minedOutputs_burnt.plain nNonce 719 (hashOfNonce 719) nNonce
    intro tx' htx'
    rcases List.mem_cons.mp htx' with rfl | htx'
    · exact hcoinbase.checked _ List.mem_cons_self
    · rw [List.mem_singleton.mp htx']
      exact h.checked
  nodup := List.nodup_cons.mpr
    ⟨fun hmem => h.different (List.mem_singleton.mp hmem), List.nodup_singleton _⟩

theorem checkBlock (h : RivalChecked nNonce tx) {nAdjustedTime : ℤ} {nMaxBlockSize : ℕ}
    (htime : (1400000000 + 60 * 719 : ℤ) ≤ nAdjustedTime)
    (hlimit : MIN_MAX_BLOCK_SIZE ≤ nMaxBlockSize) :
    CheckBlock (smallNet (smallGenesis rivalOuts)) nAdjustedTime (rivalBlock nNonce tx)
        nMaxBlockSize true true =
      .ok ((rivalBlock nNonce tx).BuildMerkleTree smallCrypto) := by
  have hcount : (rivalBlock nNonce tx).vtx.length ≤ MIN_MAX_BLOCK_SIZE := by
    have hlength : (rivalBlock nNonce tx).vtx.length = 2 := rfl
    rw [hlength]
    decide
  exact checkBlock_small (smallGenesis rivalOuts) rfl h.blockChecked h.nonce hcount h.size
    h.ops htime hlimit

end RivalChecked

namespace RivalSpend

variable {nNonce : ℕ} {tx : CTransaction} {nValue : ℤ}

theorem connectBlock (h : RivalSpend nNonce tx nValue) {ctx : BlockContext}
    (hheight : ctx.nHeight = 719) (hhash : ctx.hashPrev = some (hashOfNonce 719))
    (hprev : ctx.prevHeight (hashOfNonce 719) = some 718)
    (hlimit : MIN_MAX_BLOCK_SIZE ≤ ctx.nMaxBlockSize)
    (htime : (1400000000 + 60 * 719 : ℤ) ≤ ctx.nAdjustedTime) {view : CCoinsViewCache}
    {txundo : CTxUndo} (hupdate : UpdateCoins tx (rivalView nNonce) 719
      (tx.GetHash smallCrypto) = .ok (view, txundo)) :
    ConnectBlock (smallNet (smallGenesis rivalOuts)) ctx (rivalBlock nNonce tx)
      (deadView rivalOuts 718) false = .ok (view.SetBestBlock ctx.hash, [txundo]) := by
  have hops : GetSigOpCount (coinbaseTx nNonce 719 (deadOuts burnt)) + GetSigOpCount tx + 0 ≤
      MaxBlockSizeToSigOps ctx.nMaxBlockSize := by
    have hsum := h.ops
    have hvtx : (rivalBlock nNonce tx).vtx =
        [coinbaseTx nNonce 719 (deadOuts burnt), tx] := rfl
    have hmax := sigOps_le_of_limit hlimit
    rw [hvtx, List.map_cons, List.map_cons, List.sum_cons, List.sum_cons] at hsum
    simp only [List.map_nil, List.sum_nil] at hsum
    omega
  have hchecks : CheckInputs smallCrypto ctx.prevHeight tx (rivalView nNonce) true
      SCRIPT_VERIFY_P2SH_STRICTENC false = .ok [] := by
    rw [← h.checkInputs]
    apply checkInputs_congr
    exact hprev
  have hvalue : Spec.valueOut (coinbaseTx nNonce 719 (deadOuts burnt)) = .ok 0 := rfl
  have hamount : 0 ≤ (smallNet (smallGenesis rivalOuts)).GetBlockValue ctx.nHeight
      (int64 (0 + int64 (nValue - nValue))) (rivalBlock nNonce tx).IsPoKBlock := by
    have hreward : ∀ fPoK, 0 ≤ (smallNet (smallGenesis rivalOuts)).GetBlockValue 719
        (int64 (0 + int64 0)) fPoK := by decide
    rw [hheight, sub_self]
    exact hreward _
  rw [← hheight] at hupdate
  exact connectBlock_pair (h.checkBlock htime hlimit) rfl (isCoinBase_coinbaseTx _ _ _)
    h.notCoinBase (by rw [hhash]; rfl) h.fresh (by rw [hheight]; rfl) h.inputs h.p2sh hops
    h.valueIn h.valueOut hchecks hupdate hvalue hamount

end RivalSpend

/-! ### A circle of candidates -/

/-- The parent of a stranger to the tip, beside the chain. -/
def strangerParent : CBlock :=
  smallBlock 721 718 (hashOfNonce 718) [coinbaseTx 721 718 (deadOuts burnt)]

/-- A block at the height of the tip that is no sibling of it. -/
def stranger : CBlock :=
  smallBlock 722 719 (hashOfNonce 721) [coinbaseTx 722 719 (deadOuts burnt)]

/-- A node receives the parent of a stranger, the stranger and a richer sibling of its
tip: each of the three at the height of the tip is worse than another one. -/
theorem comparator_circle :
    ∃ s, Reachable (smallNet (smallGenesis rivalOuts)) s ∧
      719 ∈ s.setBlockIndexValid ∧ 721 ∈ s.setBlockIndexValid ∧ 722 ∈ s.setBlockIndexValid ∧
      s.worse 719 722 = true ∧ s.worse 722 721 = true ∧ s.worse 721 719 = true ∧
      ¬CandidatesOrdered s := by
  obtain ⟨s, hreach, hline, hcoins⟩ := rivals_start (n := 719) (by decide)
  have hlimit : MIN_MAX_BLOCK_SIZE ≤ s.chainActive.TipMaxBlockSize := by
    rw [hline.tipMaxBlockSize_eq]
    exact hline.maxBlockSize_ge
  have htime : (1400000000 + 60 * 719 : ℤ) ≤ flushing.nAdjustedTime := by decide
  obtain ⟨below, hbelow, hlineBelow⟩ := hline.line 717 (by decide)
  obtain ⟨prev, hprev, hlinePrev⟩ := hline.line 718 (by decide)
  obtain ⟨tip, htip, hlineTip⟩ := hline.line 719 (by decide)
  have hbeside := hline.beside
  -- The parent of the stranger has less work than the tip.
  obtain ⟨s₁, e₁, hprocess₁, hbeside₁, htree₁, hentry₁, _, hactive₁, hcoins₁⟩ :=
    hbeside.receive (hline.line.parent (i := 717) (by decide))
      hbelow hlineBelow (by decide) (by decide) (Eq.refl strangerParent)
      (fun tx htx => absurd htx List.not_mem_nil)
      (checkBlock_coinbase (smallGenesis rivalOuts) minedOutputs_burnt.plain (by decide) 718
        (hashOfNonce 718) 721 hlimit (by omega)
        (minedOutputs_burnt.ops.trans (sigOps_le_of_limit hlimit)))
      (countMatureCoins_coinbase s rfl _ _) (fun s' e hs' htree hentry _ => by
        have hnew := getElem?_concat_new htree hbeside.length
        have htip' := getElem?_concat_old htree htip
        have hworse := Beside.worse_of_height hnew hentry htip' hlineTip (by decide)
        apply hs'.rbegin_eq
        exact (best_cons_cons _ _ _ _).trans (if_pos hworse.1)) 0 true
  have hnew₁ := getElem?_concat_new htree₁ hbeside.length
  have hbelow₁ := getElem?_concat_old htree₁ hbelow
  have hprev₁ := getElem?_concat_old htree₁ hprev
  have htip₁ := getElem?_concat_old htree₁ htip
  have hfound₁ : s₁.mapBlockIndex.find (hashOfNonce 721) = some 720 := by
    have hfound := find_concat hbeside.find_new hentry₁.hash
    rw [hbeside.length] at hfound
    rw [htree₁]
    exact hfound
  rw [← hactive₁] at hlimit
  -- The stranger came later than the tip.
  obtain ⟨s₂, e₂, hprocess₂, hbeside₂, htree₂, hentry₂, _, hactive₂, hcoins₂⟩ :=
    hbeside₁.receive
      (hbeside₁.parent hnew₁ hentry₁ hfound₁ (by decide) rfl (by decide) _)
      hnew₁ hentry₁ (by decide) (by decide) (Eq.refl stranger)
      (fun tx htx => absurd htx List.not_mem_nil)
      (checkBlock_coinbase (smallGenesis rivalOuts) minedOutputs_burnt.plain (by decide) 719
        (hashOfNonce 721) 722 hlimit htime
        (minedOutputs_burnt.ops.trans (sigOps_le_of_limit hlimit)))
      (countMatureCoins_coinbase s₁ rfl _ _) (fun s' e hs' htree hentry _ => by
        have hnew := getElem?_concat_new htree hbeside₁.length
        have hparent := getElem?_concat_old htree hnew₁
        have hprev' := getElem?_concat_old htree hprev₁
        have htip' := getElem?_concat_old htree htip₁
        have hworse := Beside.worse_of_height hparent hentry₁ hnew hentry (by decide)
        have hlater := hs'.worse_of_strangers hnew hentry hparent hentry₁.hash htip' hlineTip
          hprev' hlinePrev.hash (by decide) (by decide)
        apply hs'.rbegin_eq
        exact ((best_cons_cons _ _ _ _).trans (if_neg (ne_true_of_eq_false hworse.2))).trans
          ((best_cons_cons _ _ _ _).trans (if_pos hlater))) 0 true
  have hnew₂ := getElem?_concat_new htree₂ hbeside₁.length
  have hparent₂ := getElem?_concat_old htree₂ hnew₁
  have hprev₂ := getElem?_concat_old htree₂ hprev₁
  have htip₂ := getElem?_concat_old htree₂ htip₁
  rw [← hactive₂] at hlimit
  have hcount : CountMatureCoins s₂ (rivalBlock 723 firstSpend) (some 718) (718 + 1) = .ok 25 := by
    rw [hbeside₂.countMatureCoins_eq (.inr rfl), hcoins₂, hcoins₁, hcoins]
    decide +kernel
  have hparentOf : ∀ {s' : NodeState} {e : CBlockIndex},
      s'.mapBlockIndex = s₂.mapBlockIndex ++ [e] →
      s'.mapBlockIndex[719 + 1 + (0 + 1)]? = some e₂ ∧
      s'.mapBlockIndex[719 + 1 + 0]? = some e₁ ∧ s'.mapBlockIndex[718]? = some prev ∧
      s'.mapBlockIndex[719]? = some tip := fun htree =>
    ⟨getElem?_concat_old htree hnew₂, getElem?_concat_old htree hparent₂,
      getElem?_concat_old htree hprev₂, getElem?_concat_old htree htip₂⟩
  -- How the four rank once the sibling is there, whatever its coins are.
  have hranks : ∀ {s' : NodeState} {e : CBlockIndex}, Beside s' flushing 719 3 →
      s'.mapBlockIndex = s₂.mapBlockIndex ++ [e] →
      SmallEntry 723 (some 718) 719 723 e →
      s'.worse 722 721 = true ∧ s'.worse 721 719 = true ∧ s'.worse 721 720 = false := by
    intro s' e hs' htree hentry
    obtain ⟨hstranger, hparent, hprev', htip'⟩ := hparentOf htree
    have hnew := getElem?_concat_new htree hbeside₂.length
    refine ⟨?_, ?_, ?_⟩
    · exact hs'.worse_of_strangers hnew hentry hprev' hlinePrev.hash hstranger hentry₂ hparent
        hentry₁.hash (by decide) (by decide)
    · exact hs'.worse_of_strangers hstranger hentry₂ hparent hentry₁.hash htip' hlineTip hprev'
        hlinePrev.hash (by decide) (by decide)
    · exact (Beside.worse_of_height hparent hentry₁ hstranger hentry₂ (by decide)).2
  obtain ⟨s₃, e₃, hprocess₃, hbeside₃, htree₃, hentry₃, hmature₃, _, _⟩ :=
    hbeside₂.receive (hbeside₂.line.parent (i := 718) (by decide))
      hprev₂ hlinePrev (by decide) (by decide) (Eq.refl (rivalBlock 723 firstSpend)) (by decide)
      ((firstSpend_rival (.inr rfl)).checkBlock htime hlimit)
      hcount (fun s' e hs' htree hentry _ => by
        obtain ⟨hsibling, hlater, hparent⟩ := hranks hs' htree hentry
        apply hs'.rbegin_eq
        exact ((best_cons_cons _ _ _ _).trans (if_pos hsibling)).trans
          (((best_cons_cons _ _ _ _).trans (if_neg (ne_true_of_eq_false hparent))).trans
            ((best_cons_cons _ _ _ _).trans (if_pos hlater)))) 0 true
  obtain ⟨_, _, hprev₃, htip₃⟩ := hparentOf htree₃
  obtain ⟨hsibling, hlater, _⟩ := hranks hbeside₃ htree₃ hentry₃
  have hmem : ∀ {p : ℕ}, p < 723 → p ∈ s₃.setBlockIndexValid := by
    intro p hp
    rw [hbeside₃.valid, List.mem_reverse, List.mem_range]
    exact hp
  have hpoor : tip.nMatureCoinsSpent < e₃.nMatureCoinsSpent := by
    rw [hmature₃, hline.mature tip (List.mem_of_getElem? htip)]
    decide
  have hnew₃ := getElem?_concat_new htree₃ hbeside₂.length
  have hricher := (hbeside₃.worse_of_siblings (by decide) htip₃ hlineTip hprev₃ hlinePrev.hash
    hnew₃ hentry₃ (by decide) hpoor).2
  refine ⟨s₃, ?_, hmem (by decide), hmem (by decide), hmem (by decide), hricher, hsibling,
    hlater, ?_⟩
  · exact ((hreach.received rfl hprocess₁).received rfl hprocess₂).received rfl hprocess₃
  · intro hordered
    have htrans := hordered.order.trans 719 (hmem (by decide)) 722 (hmem (by decide)) 721
      (hmem (by decide)) hricher hsibling
    exact hordered.order.asymm (hmem (by decide)) (hmem (by decide)) htrans hlater

/-! ### Siblings that spend the same output -/

/-- A transaction that names a sixth output of the coinbase of the first block. -/
def sixthSpend : CTransaction := spendTx 902 [⟨1 + 2 ^ 32, 5⟩] [⟨0, anyoneCanSpend⟩]

theorem sixthSpend_rival : RivalChecked 720 sixthSpend := by
  constructor
  all_goals decide +kernel

/-- A block passes `CheckBlock` and the checks of `AcceptBlock`; then the count reads
beyond the end of the outputs of a transaction. -/
theorem countMatureCoins_crashes :
    ∃ s, Reachable (smallNet (smallGenesis rivalOuts)) s ∧
      CheckBlock (smallNet (smallGenesis rivalOuts)) flushing.nAdjustedTime
        (rivalBlock 720 sixthSpend) s.chainActive.TipMaxBlockSize true true =
        .ok ((rivalBlock 720 sixthSpend).BuildMerkleTree smallCrypto) ∧
      acceptChecks (smallNet (smallGenesis rivalOuts)) s flushing.nAdjustedTime
        ((rivalBlock 720 sixthSpend).BuildMerkleTree smallCrypto) = .ok () ∧
      CountMatureCoins s (rivalBlock 720 sixthSpend) (some 718) 719 =
        Run.crash .CountMatureCoins_vout ∧
      ProcessBlock (smallNet (smallGenesis rivalOuts)) 1 true (rivalBlock 720 sixthSpend) s =
        .faulted (.crash .CountMatureCoins_vout) := by
  obtain ⟨s, hreach, hline, hcoins⟩ := rivals_start (n := 718) (by decide)
  have htime : (1400000000 + 60 * 719 : ℤ) ≤ flushing.nAdjustedTime := by decide
  have hlimit := hline.maxBlockSize_ge
  rw [← hline.tipMaxBlockSize_eq] at hlimit
  have hcheck := sixthSpend_rival.checkBlock htime hlimit
  have hparent : Parent (smallGenesis rivalOuts) s (hashOfNonce 719) 718 719 :=
    hline.line.parent (by decide)
  have hfinal : ∀ tx ∈ [sixthSpend], tx.nLockTime = 0 := by decide
  have hcount : CountMatureCoins s (rivalBlock 720 sixthSpend) (some 718) 719 =
      Run.crash .CountMatureCoins_vout := by
    rw [hline.beside.countMatureCoins_eq (.inl rfl), hcoins]
    decide +kernel
  obtain ⟨hfault, _⟩ := processBlock_smallBlock 1 true hline.idle hparent (by decide)
    hline.beside.find_new hfinal (Eq.refl (rivalBlock 720 sixthSpend)) hcheck
  exact ⟨s, hreach, hcheck, acceptChecks_smallBlock hparent hfinal _, hcount,
    hfault _ hcount⟩

end Ziftrcoin.Spec
