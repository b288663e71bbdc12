/-
Module: Ziftrcoin.Proofs.Connecting
Purpose: What is known of a block that has been checked and connected: the
  shape of the block, the values of its transactions and the sequence of view
  updates.
Trusted boundary: none
Main exports: checkTransaction_ok, connectBlock_ok
-/
import Ziftrcoin.Proofs.UnspentOutputs
import Ziftrcoin.Spec.Validation

namespace Ziftrcoin.Spec

open Ziftrcoin.Lib.Outcome

/-! ### Reading -/

theorem getCoins_eq_ok {view : CCoinsViewCache} {txid : uint256} {coins : CCoins} :
    view.GetCoins txid = .ok coins ↔ view.coins txid = some coins := by
  unfold CCoinsViewCache.GetCoins
  cases view.coins txid with
  | none => simp [Run.crash]
  | some coins' => simp

theorem get_eq_ok {α : Type} {site : Site} {xs : List α} {i : Nat} {x : α} :
    Run.get site xs i = .ok x ↔ xs[i]? = some x := by
  unfold Run.get
  cases xs[i]? with
  | none => simp [Run.crash]
  | some y => simp

/-! ### Transactions -/

/-- The outputs of a checked transaction are amounts. -/
theorem checkOutputs_range :
    ∀ {vout : List CTxOut} {nValueOut : Int},
      checkOutputs nValueOut vout = .ok () →
      ∀ txout ∈ vout, 0 ≤ txout.nValue ∧ txout.nValue ≤ MAX_MONEY_SATOSHIS
  | [], _, _, _, hmem => by simp at hmem
  | txout :: rest, nValueOut, h, o, hmem => by
      simp only [checkOutputs, Run.DoS, guard_eq_ok] at h
      obtain ⟨hneg, hlarge, _, h⟩ := h
      rcases List.mem_cons.mp hmem with rfl | hmem
      · exact ⟨by omega, by omega⟩
      · exact checkOutputs_range h o hmem

/-- The inputs of a checked transaction that is no coinbase are distinct. -/
theorem checkTxIns_nodup :
    ∀ {vin : List CTxIn} {vInOutPoints : List COutPoint},
      checkTxIns false vInOutPoints vin = .ok () →
      (vin.map CTxIn.prevout).Nodup ∧
        (∀ txin ∈ vin, txin.prevout ∉ vInOutPoints) ∧
        ∀ txin ∈ vin, txin.prevout.IsNull = false
  | [], _, _ => by simp
  | txin :: rest, vInOutPoints, h => by
      simp only [checkTxIns, Bool.false_eq_true, if_false, Run.DoS,
        guard_eq_ok] at h
      obtain ⟨hnull, hfresh, h⟩ := h
      obtain ⟨hnodup, hnew, hnulls⟩ := checkTxIns_nodup h
      refine ⟨?_, ?_, ?_⟩
      · rw [List.map_cons, List.nodup_cons]
        refine ⟨fun hmem => ?_, hnodup⟩
        obtain ⟨txin', hmem', heq⟩ := List.mem_map.mp hmem
        exact hnew txin' hmem' (heq ▸ List.mem_cons_self)
      · intro txin' hmem
        rcases List.mem_cons.mp hmem with rfl | hmem
        · exact hfresh
        · exact fun hin => hnew txin' hmem (List.mem_cons_of_mem _ hin)
      · intro txin' hmem
        rcases List.mem_cons.mp hmem with rfl | hmem
        · simpa using hnull
        · exact hnulls txin' hmem

/-- What `CheckTransaction` lets through. -/
theorem checkTransaction_ok {tx : CTransaction}
    (h : CheckTransaction tx = .ok ()) :
    tx.vin ≠ [] ∧ tx.vout ≠ [] ∧ checkOutputs 0 tx.vout = .ok () ∧
      checkTxIns tx.IsCoinBase [] tx.vin = .ok () := by
  unfold CheckTransaction at h
  simp only [Run.DoS, guard_eq_ok, error_bind, bind_eq_ok] at h
  obtain ⟨hvin, hvout, _, ⟨⟩, hout, hin⟩ := h
  exact ⟨hvin, hvout, hout, hin⟩

/-! ### Blocks -/

/-- A loop whose rounds all succeed returns their results. -/
theorem mapM_eq_ok {ε α β : Type} {f : α → Except ε β} {g : α → β} :
    ∀ {xs : List α}, (∀ x ∈ xs, f x = .ok (g x)) →
      xs.mapM f = .ok (xs.map g)
  | [], _ => rfl
  | x :: xs, h => by
      rw [List.mapM_cons, h x List.mem_cons_self, ok_bind,
        mapM_eq_ok fun y hy => h y (List.mem_cons_of_mem x hy)]
      rfl

/-- The hashes that a built tree hands out are those of the transactions. -/
theorem txHashes_buildMerkleTree (crypto : Crypto) (block : CBlock) :
    txHashes (block.BuildMerkleTree crypto) =
      .ok (block.vtx.map (CTransaction.GetHash crypto)) := by
  have hget : ∀ i ∈ List.range block.vtx.length,
      (block.BuildMerkleTree crypto).GetTxHash i =
        .ok ((block.vtx.map (CTransaction.GetHash crypto)).getD i 0) := by
    intro i hi
    have hlt : i < block.vtx.length := List.mem_range.mp hi
    rw [getTxHash_buildMerkleTree (List.getElem?_eq_getElem hlt)]
    simp [List.getD_eq_getElem?_getD, hlt]
  refine (mapM_eq_ok hget).trans (congrArg Except.ok ?_)
  refine List.ext_getElem (by simp) fun i hi hi' => ?_
  have hlt : i < block.vtx.length := by simpa using hi
  simp [hlt]

theorem forM_eq_ok {ε α : Type} {f : α → Except ε Unit} :
    ∀ {xs : List α}, xs.forM f = .ok () → ∀ x ∈ xs, f x = .ok ()
  | [], _, _, hmem => by simp at hmem
  | x :: xs, h, y, hmem => by
      rw [List.forM_eq_forM, List.forM_cons, bind_eq_ok] at h
      obtain ⟨⟨⟩, hx, h⟩ := h
      rcases List.mem_cons.mp hmem with rfl | hmem
      · exact hx
      · exact forM_eq_ok h y hmem

theorem forM_eq_ok_of {ε α : Type} {f : α → Except ε Unit} :
    ∀ {xs : List α}, (∀ x ∈ xs, f x = .ok ()) → xs.forM f = .ok ()
  | [], _ => rfl
  | x :: xs, h => by
      rw [List.forM_eq_forM, List.forM_cons, h x List.mem_cons_self, ok_bind]
      exact forM_eq_ok_of fun y hy => h y (List.mem_cons_of_mem x hy)

/-- What `CheckBlock` lets through: a coinbase in front, no other one behind
it, checked transactions, and hashes that are all different. -/
structure BlockChecked (cfg : Config) (block : CBlock) (coinbase : CTransaction)
    (txs : List CTransaction) : Prop where
  vtx_eq : block.vtx = coinbase :: txs
  isCoinBase : coinbase.IsCoinBase = true
  notCoinBase : ∀ tx ∈ txs, tx.IsCoinBase = false
  checked : ∀ tx ∈ block.vtx, CheckTransaction tx = .ok ()
  nodup : (block.vtx.map (CTransaction.GetHash cfg.crypto)).Nodup

theorem checkBlock_ok {cfg : Config} {nAdjustedTime : Int}
    {block block' : CBlock} {nMaxBlockSize : Nat}
    {fCheckPOW fCheckMerkleRoot : Bool}
    (h : CheckBlock cfg nAdjustedTime block nMaxBlockSize fCheckPOW
      fCheckMerkleRoot = .ok block') :
    block' = block.BuildMerkleTree cfg.crypto ∧
      ∃ coinbase txs, BlockChecked cfg block coinbase txs := by
  unfold CheckBlock at h
  simp only [Run.DoS, Run.Invalid, guard_eq_ok, error_bind, bind_eq_ok] at h
  obtain ⟨hvtx, _, powOk, _, _, _, hfirst, hothers, ⟨⟩, htxs, hashes, hhashes,
    hnodup, _, _, hret⟩ := h
  simp only [pure_eq_ok, Except.ok.injEq] at hret
  rw [txHashes_buildMerkleTree, Except.ok.injEq] at hhashes
  refine ⟨hret.symm, ?_⟩
  cases hcons : block.vtx with
  | nil => exact absurd hcons hvtx
  | cons coinbase txs =>
      refine ⟨coinbase, txs, hcons, ?_, ?_, ?_, ?_⟩
      · simpa [hcons] using hfirst
      · intro tx hmem
        simp only [hcons, List.tail_cons, List.any_eq_true, not_exists,
          not_and, Bool.not_eq_true] at hothers
        exact hothers tx hmem
      · exact forM_eq_ok htxs
      · rw [← hhashes] at hnodup
        exact not_not.mp hnodup

/-- What a block needs to pass `CheckBlock`. -/
theorem checkBlock_eq_ok {cfg : Config} {nAdjustedTime : Int} {block : CBlock}
    {nMaxBlockSize : Nat} {fCheckPOW fCheckMerkleRoot : Bool}
    {coinbase : CTransaction} {txs : List CTransaction}
    (hchecked : BlockChecked cfg block coinbase txs)
    (hcount : block.vtx.length ≤ nMaxBlockSize)
    (hsize : block.GetSerializeSize ≤ nMaxBlockSize)
    (hpow : checkPOW cfg block fCheckPOW = .ok true)
    (htime : (block.nTime : Int) ≤ nAdjustedTime + MAX_BLOCK_TIME_OFFSET)
    (hops : (block.vtx.map GetSigOpCount).sum ≤ MaxBlockSizeToSigOps nMaxBlockSize)
    (hroot : (block.BuildMerkleTree cfg.crypto).vMerkleTree.getLast? =
      some block.hashMerkleRoot) :
    CheckBlock cfg nAdjustedTime block nMaxBlockSize fCheckPOW fCheckMerkleRoot =
      .ok (block.BuildMerkleTree cfg.crypto) := by
  have hne : block.vtx ≠ [] := by simp [hchecked.vtx_eq]
  have hlength : ¬ (nMaxBlockSize < block.vtx.length ∨
      nMaxBlockSize < block.GetSerializeSize) := by omega
  have hfirst : block.vtx.head?.map CTransaction.IsCoinBase = some true := by
    simp [hchecked.vtx_eq, hchecked.isCoinBase]
  have hothers : block.vtx.tail.any CTransaction.IsCoinBase = false := by
    simpa [hchecked.vtx_eq] using hchecked.notCoinBase
  have hops' : ¬ MaxBlockSizeToSigOps nMaxBlockSize <
      ((block.BuildMerkleTree cfg.crypto).vtx.map GetSigOpCount).sum := not_lt.mpr hops
  unfold CheckBlock
  simp [hne, hlength, hpow, Int.not_lt.mpr htime, hfirst, hothers, hroot,
    forM_eq_ok_of hchecked.checked, txHashes_buildMerkleTree, hchecked.nodup, hops']
  exact fun _ hdiff => absurd rfl hdiff
/-! ### Spending and creating -/

theorem spendInput_ok {view view' : CCoinsViewCache} {txin : CTxIn}
    {undo : CTxInUndo} (h : spendInput view txin = .ok (view', undo)) :
    ∃ coins left, view.coins txin.prevout.hash = some coins ∧
      coins.Spend txin.prevout.n = some (left, undo) ∧
      view' = view.SetCoins txin.prevout.hash left := by
  unfold spendInput CCoinsViewCache.GetCoins at h
  cases hcoins : view.coins txin.prevout.hash with
  | none => simp [hcoins, Run.crash] at h
  | some coins =>
      simp only [hcoins, ok_bind] at h
      cases hspend : coins.Spend txin.prevout.n with
      | none => simp [hspend, Run.crash] at h
      | some r =>
          obtain ⟨left, undo'⟩ := r
          simp only [hspend, pure_eq_ok, Except.ok.injEq, Prod.mk.injEq] at h
          obtain ⟨rfl, rfl⟩ := h
          exact ⟨coins, left, rfl, hspend, rfl⟩

/-- `UpdateCoins` spends the inputs and then adds the outputs. -/
theorem updateCoins_ok {tx : CTransaction} {view view' : CCoinsViewCache}
    {nHeight : Nat} {txhash : uint256} {txundo : CTxUndo}
    (h : UpdateCoins tx view nHeight txhash = .ok (view', txundo)) :
    ∃ view₁, markSpent tx view = .ok (view₁, txundo) ∧
      view' = view₁.SetCoins txhash (CCoins.ofTx tx nHeight) := by
  unfold UpdateCoins at h
  rw [bind_eq_ok] at h
  obtain ⟨⟨view₁, txundo₁⟩, hspent, h⟩ := h
  simp only [pure_eq_ok, Except.ok.injEq, Prod.mk.injEq] at h
  obtain ⟨rfl, rfl⟩ := h
  exact ⟨view₁, hspent, rfl⟩

/-- Spending an input takes its output out of the unspent ones. -/
theorem unspent_spendInput {view view' : CCoinsViewCache} {txin : CTxIn}
    {undo : CTxInUndo} (h : spendInput view txin = .ok (view', undo))
    (o : COutPoint) :
    view'.unspent o = if o = txin.prevout then none else view.unspent o := by
  obtain ⟨coins, left, hcoins, hspend, rfl⟩ := spendInput_ok h
  rw [CCoinsViewCache.unspent_eq_entry, CCoinsViewCache.unspent_eq_entry]
  by_cases hhash : o.hash = txin.prevout.hash
  · rw [hhash, view.entry_setCoins_self, CCoins.unspent_spend hspend,
      CCoinsViewCache.entry_eq hcoins]
    by_cases hn : o.n = txin.prevout.n
    · have heq : o = txin.prevout := by
        cases o
        cases hp : txin.prevout
        simp_all
      rw [if_pos hn, if_pos heq]
    · rw [if_neg hn, if_neg fun heq => hn (congrArg _ heq)]
  · rw [view.entry_setCoins_ne hhash, if_neg fun heq => hhash (congrArg _ heq)]

theorem spendInputs_cons_ok {view view' : CCoinsViewCache} {txin : CTxIn} {vin : List CTxIn}
    {undos : List CTxInUndo} (h : spendInputs view (txin :: vin) = .ok (view', undos)) :
    ∃ view₁ undo rest, spendInput view txin = .ok (view₁, undo) ∧
      spendInputs view₁ vin = .ok (view', rest) ∧ undos = undo :: rest := by
  rw [spendInputs, bind_eq_ok] at h
  obtain ⟨⟨view₁, undo⟩, hfirst, h⟩ := h
  rw [bind_eq_ok] at h
  obtain ⟨⟨view₂, rest⟩, hrest, h⟩ := h
  simp only [pure_eq_ok, Except.ok.injEq, Prod.mk.injEq] at h
  obtain ⟨rfl, rfl⟩ := h
  exact ⟨view₁, undo, rest, hfirst, hrest, rfl⟩

theorem unspent_spendInputs :
    ∀ {vin : List CTxIn} {view view' : CCoinsViewCache} {undos : List CTxInUndo},
      spendInputs view vin = .ok (view', undos) → ∀ o,
      view'.unspent o =
        if o ∈ vin.map CTxIn.prevout then none else view.unspent o
  | [], view, view', undos, h, o => by
      simp only [spendInputs, Except.ok.injEq, Prod.mk.injEq] at h
      simp [h.1]
  | txin :: vin, view, view', undos, h, o => by
      obtain ⟨view₁, undo, rest, hfirst, hrest, rfl⟩ := spendInputs_cons_ok h
      rw [unspent_spendInputs hrest o, unspent_spendInput hfirst o]
      by_cases heq : o = txin.prevout
      · simp [heq]
      · by_cases hmem : o ∈ vin.map CTxIn.prevout <;> simp [heq, hmem]

/-- A coinbase marks nothing. -/
theorem markSpent_cases {tx : CTransaction} {view view' : CCoinsViewCache} {txundo : CTxUndo}
    (h : markSpent tx view = .ok (view', txundo)) :
    (tx.IsCoinBase = true ∧ view' = view ∧ txundo = []) ∨
      (tx.IsCoinBase = false ∧ spendInputs view tx.vin = .ok (view', txundo)) := by
  unfold markSpent at h
  cases hcb : tx.IsCoinBase with
  | true =>
      rw [hcb, if_pos rfl, Except.ok.injEq, Prod.mk.injEq] at h
      exact .inl ⟨rfl, h.1.symm, h.2.symm⟩
  | false =>
      rw [hcb, if_neg Bool.false_ne_true] at h
      exact .inr ⟨rfl, h⟩

/-! ### View updates -/

/-- The updates that a list of transactions makes to a view one after the
other, with the undo record of each. -/
inductive ViewConnects (crypto : Crypto) (nHeight : Nat) :
    CCoinsViewCache → List CTransaction → List CTxUndo → CCoinsViewCache →
      Prop where
  | nil (view : CCoinsViewCache) : ViewConnects crypto nHeight view [] [] view
  | cons {view view' view'' : CCoinsViewCache} {tx : CTransaction}
      {txs : List CTransaction} {txundo : CTxUndo} {txundos : List CTxUndo}
      (update : UpdateCoins tx view nHeight (tx.GetHash crypto) =
        .ok (view', txundo))
      (rest : ViewConnects crypto nHeight view' txs txundos view'') :
      ViewConnects crypto nHeight view (tx :: txs) (txundo :: txundos) view''

/-- The records that `ConnectBlock` keeps: those of transactions with
inputs. -/
def keptUndos (txs : List CTransaction) (txundos : List CTxUndo) :
    List CTxUndo :=
  ((txs.zip txundos).filter fun p => !p.1.IsCoinBase).map Prod.snd

/-- What a transaction with inputs has passed, and what it adds to the
totals. -/
theorem connectInputs_ok {cfg : Config} {ctx : BlockContext}
    {fScriptChecks : Bool} {acc acc' : ConnectState} {tx : CTransaction}
    (h : connectInputs cfg ctx fScriptChecks acc tx = .ok acc') :
    (tx.IsCoinBase = true ∧ acc' = acc) ∨
      (tx.IsCoinBase = false ∧ acc.view.HaveInputs tx = true ∧
        ∃ nP2SH nValueIn nValueOut vChecks,
          acc.view.GetValueIn tx = .ok nValueIn ∧
          valueOut tx = .ok nValueOut ∧
          CheckInputs cfg.crypto ctx.prevHeight tx acc.view fScriptChecks
            SCRIPT_VERIFY_P2SH_STRICTENC
            (decide (cfg.nScriptCheckThreads ≠ 0)) = .ok vChecks ∧
          acc' =
            { acc with
              nFees := int64 (acc.nFees + int64 (nValueIn - nValueOut))
              nSigOps := acc.nSigOps + nP2SH
              vChecks := acc.vChecks ++ vChecks }) := by
  unfold connectInputs at h
  by_cases hcb : tx.IsCoinBase = true
  · rw [if_pos hcb] at h
    injection h with h
    exact .inl ⟨hcb, h.symm⟩
  · rw [if_neg hcb] at h
    simp only [Run.DoS, guard_eq_ok, error_bind, bind_eq_ok, pure_eq_ok,
      Except.ok.injEq] at h
    obtain ⟨hhave, nP2SH, _, _, nValueIn, hin, nValueOut, hout, vChecks, hchecks,
      hacc⟩ := h
    exact .inr ⟨by simpa using hcb, by simpa using hhave, nP2SH, nValueIn,
      nValueOut, vChecks, hin, hout, hchecks, hacc.symm⟩

theorem connectInputs_view {cfg : Config} {ctx : BlockContext}
    {fScriptChecks : Bool} {acc acc' : ConnectState} {tx : CTransaction}
    (h : connectInputs cfg ctx fScriptChecks acc tx = .ok acc') :
    acc'.view = acc.view ∧ acc'.vtxundo = acc.vtxundo := by
  rcases connectInputs_ok h with ⟨_, rfl⟩ | ⟨_, _, _, _, _, _, _, _, _, rfl⟩
  · exact ⟨rfl, rfl⟩
  · exact ⟨rfl, rfl⟩

/-- One round of the loop: the inputs, then the view. -/
theorem connectTx_round {cfg : Config} {ctx : BlockContext} {fScriptChecks : Bool}
    {block : CBlock} {acc acc' : ConnectState} {txi : CTransaction × Nat}
    (h : connectTx cfg ctx fScriptChecks block acc txi = .ok acc') :
    ∃ acc₁ txhash view txundo,
      connectInputs cfg ctx fScriptChecks
        { acc with nSigOps := acc.nSigOps + GetSigOpCount txi.1 } txi.1 = .ok acc₁ ∧
      block.GetTxHash txi.2 = .ok txhash ∧
      UpdateCoins txi.1 acc₁.view ctx.nHeight txhash = .ok (view, txundo) ∧
      acc' = { acc₁ with
        view, vtxundo := if txi.1.IsCoinBase then acc₁.vtxundo else acc₁.vtxundo ++ [txundo] } := by
  unfold connectTx at h
  simp only [Run.DoS, guard_eq_ok, error_bind, bind_eq_ok, pure_eq_ok,
    Except.ok.injEq] at h
  obtain ⟨_, acc₁, hacc₁, txhash, htxhash, ⟨view, txundo⟩, hupdate, rfl⟩ := h
  exact ⟨acc₁, txhash, view, txundo, hacc₁, htxhash, hupdate, rfl⟩

/-- One round of the loop updates the view with the transaction's own hash. -/
theorem connectTx_ok {cfg : Config} {ctx : BlockContext} {fScriptChecks : Bool}
    {block : CBlock} {acc acc' : ConnectState} {tx : CTransaction} {i : Nat}
    (hi : block.vtx[i]? = some tx)
    (h : connectTx cfg ctx fScriptChecks (block.BuildMerkleTree cfg.crypto) acc
      (tx, i) = .ok acc') :
    ∃ txundo, UpdateCoins tx acc.view ctx.nHeight (tx.GetHash cfg.crypto) =
        .ok (acc'.view, txundo) ∧
      acc'.vtxundo = acc.vtxundo ++ keptUndos [tx] [txundo] := by
  obtain ⟨acc₁, txhash, view, txundo, hacc₁, htxhash, hupdate, hret⟩ := connectTx_round h
  rw [getTxHash_buildMerkleTree hi, Except.ok.injEq] at htxhash
  subst htxhash
  have hsame := connectInputs_view hacc₁
  subst hret
  rw [hsame.1] at hupdate
  refine ⟨txundo, hupdate, ?_⟩
  by_cases hcb : tx.IsCoinBase = true
  · simp [keptUndos, hcb, hsame.2]
  · simp [keptUndos, hcb, hsame.2]

/-- The loop over some transactions from position `k` on. -/
theorem connectTxs_ok {cfg : Config} {ctx : BlockContext} {fScriptChecks : Bool}
    {block : CBlock} :
    ∀ {txs : List CTransaction} {k : Nat} {acc acc' : ConnectState},
      txs <+: block.vtx.drop k →
      (txs.zipIdx k).foldlM (connectTx cfg ctx fScriptChecks
        (block.BuildMerkleTree cfg.crypto)) acc = .ok acc' →
      ∃ txundos, ViewConnects cfg.crypto ctx.nHeight acc.view txs txundos
          acc'.view ∧
        acc'.vtxundo = acc.vtxundo ++ keptUndos txs txundos
  | [], _, acc, acc', _, h => by
      simp only [List.zipIdx_nil, List.foldlM_nil, pure_eq_ok,
        Except.ok.injEq] at h
      subst h
      exact ⟨[], .nil _, by simp [keptUndos]⟩
  | tx :: txs, k, acc, acc', hdrop, h => by
      rw [List.zipIdx_cons, List.foldlM_cons, bind_eq_ok] at h
      obtain ⟨acc₁, htx, h⟩ := h
      obtain ⟨rest, hrest⟩ := hdrop
      have hi : block.vtx[k]? = some tx := by
        rw [← List.head?_drop, ← hrest]
        rfl
      have hdrop' : txs <+: block.vtx.drop (k + 1) := by
        rw [← List.tail_drop, ← hrest]
        exact ⟨rest, rfl⟩
      obtain ⟨txundo, hupdate, hkept⟩ := connectTx_ok hi htx
      obtain ⟨txundos, hviews, hkepts⟩ := connectTxs_ok hdrop' h
      refine ⟨txundo :: txundos, .cons hupdate hviews, ?_⟩
      rw [hkepts, hkept, List.append_assoc]
      by_cases hcb : tx.IsCoinBase = true <;> simp [keptUndos, hcb]

/-- What is known once `ConnectBlock` has succeeded. -/
theorem connectBlock_ok {cfg : Config} {ctx : BlockContext} {block : CBlock}
    {view view' : CCoinsViewCache} {fJustCheck : Bool} {vtxundo : CBlockUndo}
    (h : ConnectBlock cfg ctx block view fJustCheck = .ok (view', vtxundo)) :
    ∃ coinbase txs acc checks,
      BlockChecked cfg block coinbase txs ∧
      ctx.hashPrev.getD 0 = view.hashBlock ∧
      (∀ tx ∈ block.vtx, view.coins (tx.GetHash cfg.crypto) = none) ∧
      block.vtx.zipIdx.foldlM (connectTx cfg ctx
        (decide (cfg.GetTotalBlocksEstimate ≤ ctx.nHeight))
        (block.BuildMerkleTree cfg.crypto))
        { view, nFees := 0, nSigOps := 0, vtxundo := [], vChecks := [] } =
          .ok acc ∧
      (∃ nValueOut, valueOut coinbase = .ok nValueOut ∧
        (block.GetHash cfg.crypto ≠ cfg.HashGenesisBlock →
          nValueOut ≤ cfg.GetBlockValue ctx.nHeight acc.nFees
            block.IsPoKBlock)) ∧
      acc.vChecks.mapM (CScriptCheck.run cfg.crypto) = .ok checks ∧
      checks.all id = true ∧
      vtxundo = acc.vtxundo ∧
      view' = if fJustCheck then acc.view else acc.view.SetBestBlock ctx.hash := by
  unfold ConnectBlock at h
  simp only [bind_eq_ok, Run.DoS, error_bind, guard_eq_ok] at h
  obtain ⟨block', hcheck, ⟨⟩, hprev, ⟨⟩, hover, acc, hloop, coinbase', hcb,
    nValueOut, hvalue, hamount, checks, hchecks, hall, hret⟩ := h
  obtain ⟨rfl, coinbase, txs, hblock⟩ := checkBlock_ok hcheck
  have hcb' : coinbase' = coinbase := by
    simp only [Run.get, CBlock.BuildMerkleTree, hblock.vtx_eq,
      List.getElem?_cons_zero, Except.ok.injEq] at hcb
    exact hcb.symm
  subst hcb'
  refine ⟨coinbase', txs, acc, checks, hblock, ?_, ?_, hloop,
    ⟨nValueOut, hvalue, ?_⟩, hchecks, ?_, ?_⟩
  · unfold Run.assert at hprev
    split at hprev
    · assumption
    · cases hprev
  · intro tx hmem
    unfold checkOverwrite at hover
    rw [txHashes_buildMerkleTree] at hover
    simp only [ok_bind, Run.DoS, guard_eq_ok] at hover
    have hnone : view.HaveCoins (tx.GetHash cfg.crypto) = false := by
      by_contra hsome
      exact hover.1 (List.any_eq_true.mpr
        ⟨_, List.mem_map_of_mem hmem, by simpa using hsome⟩)
    simpa [CCoinsViewCache.HaveCoins] using hnone
  · intro hgenesis
    by_contra hlt
    exact hamount ⟨Int.not_le.mp hlt, hgenesis⟩
  · simpa using hall
  · cases fJustCheck with
    | true =>
        simp only [if_true, pure_eq_ok, Except.ok.injEq, Prod.mk.injEq] at hret
        exact ⟨hret.2.symm, hret.1.symm⟩
    | false =>
        simp only [Bool.false_eq_true, if_false, pure_eq_ok, Except.ok.injEq,
          Prod.mk.injEq] at hret
        exact ⟨hret.2.symm, hret.1.symm⟩

/-- A transaction with inputs keeps its record. -/
theorem keptUndos_of_notCoinBase {txs : List CTransaction}
    {txundos : List CTxUndo} (h : ∀ tx ∈ txs, tx.IsCoinBase = false)
    (hlen : txundos.length = txs.length) : keptUndos txs txundos = txundos := by
  unfold keptUndos
  rw [List.filter_eq_self.mpr, List.map_snd_zip (le_of_eq hlen)]
  intro p hp
  simp [h p.1 (List.of_mem_zip hp).1]

theorem ViewConnects.length_eq {crypto : Crypto} {nHeight : Nat}
    {view view' : CCoinsViewCache} {txs : List CTransaction}
    {txundos : List CTxUndo}
    (h : ViewConnects crypto nHeight view txs txundos view') :
    txundos.length = txs.length := by
  induction h with
  | nil => rfl
  | cons _ _ ih => simp [ih]

/-- The view updates of a connected block.  The coinbase has an empty record
that is not kept. -/
theorem connectBlock_views {cfg : Config} {ctx : BlockContext} {block : CBlock}
    {view view' : CCoinsViewCache} {vtxundo : CBlockUndo}
    (h : ConnectBlock cfg ctx block view false = .ok (view', vtxundo)) :
    ∃ coinbase txs view₁, BlockChecked cfg block coinbase txs ∧
      ctx.hashPrev.getD 0 = view.hashBlock ∧
      (∀ tx ∈ block.vtx, view.coins (tx.GetHash cfg.crypto) = none) ∧
      ViewConnects cfg.crypto ctx.nHeight view block.vtx ([] :: vtxundo) view₁ ∧
      view' = view₁.SetBestBlock ctx.hash := by
  obtain ⟨coinbase, txs, acc, checks, hblock, hprev, hfresh, hloop, _, _, _,
    hundo, hview⟩ := connectBlock_ok h
  obtain ⟨txundos, hviews, hkept⟩ := connectTxs_ok (by simp) hloop
  refine ⟨coinbase, txs, acc.view, hblock, hprev, hfresh, ?_, by simpa using hview⟩
  simp only [List.nil_append] at hkept
  rw [hblock.vtx_eq] at hviews hkept ⊢
  cases hviews with
  | cons update rest =>
      rename_i view₂ txundo txundos
      have hnil : txundo = [] := by
        unfold UpdateCoins markSpent at update
        rw [if_pos hblock.isCoinBase] at update
        simp only [ok_bind, pure_eq_ok, Except.ok.injEq, Prod.mk.injEq] at update
        exact update.2.symm
      have hrest : vtxundo = txundos := by
        have htail := keptUndos_of_notCoinBase hblock.notCoinBase rest.length_eq
        rw [hundo, hkept]
        simpa [keptUndos, hblock.isCoinBase] using htail
      subst hnil hrest
      exact .cons update rest

/-! ### Blocks that only have a coinbase -/

/-- Connecting a block without transactions but the coinbase: the view gets
the outputs of the coinbase, and there is nothing to undo. -/
theorem connectBlock_coinbase {cfg : Config} {ctx : BlockContext} {block : CBlock}
    {view : CCoinsViewCache} {coinbase : CTransaction} {nValueOut : Int}
    (hcheck : CheckBlock cfg ctx.nAdjustedTime block ctx.nMaxBlockSize true true =
      .ok (block.BuildMerkleTree cfg.crypto))
    (hvtx : block.vtx = [coinbase]) (hcb : coinbase.IsCoinBase = true)
    (hprev : ctx.hashPrev.getD 0 = view.hashBlock)
    (hfresh : view.HaveCoins (coinbase.GetHash cfg.crypto) = false)
    (hops : GetSigOpCount coinbase ≤ MaxBlockSizeToSigOps ctx.nMaxBlockSize)
    (hvalue : valueOut coinbase = .ok nValueOut)
    (hamount : nValueOut ≤ cfg.GetBlockValue ctx.nHeight 0 block.IsPoKBlock ∨
      block.GetHash cfg.crypto = cfg.HashGenesisBlock) :
    ConnectBlock cfg ctx block view false =
      .ok ((view.SetCoins (coinbase.GetHash cfg.crypto)
        (CCoins.ofTx coinbase ctx.nHeight)).SetBestBlock ctx.hash, []) := by
  have hvtx' : (block.BuildMerkleTree cfg.crypto).vtx = [coinbase] := hvtx
  have hhash : (block.BuildMerkleTree cfg.crypto).GetTxHash 0 =
      .ok (coinbase.GetHash cfg.crypto) :=
    getTxHash_buildMerkleTree (by simp [hvtx])
  have hover : checkOverwrite view (block.BuildMerkleTree cfg.crypto) = .ok () := by
    unfold checkOverwrite
    simp [txHashes_buildMerkleTree, hvtx, hfresh]
  have hround : connectTx cfg ctx (decide (cfg.GetTotalBlocksEstimate ≤ ctx.nHeight))
      (block.BuildMerkleTree cfg.crypto) ⟨view, 0, 0, [], []⟩ (coinbase, 0) =
        .ok ⟨view.SetCoins (coinbase.GetHash cfg.crypto)
          (CCoins.ofTx coinbase ctx.nHeight), 0, GetSigOpCount coinbase, [], []⟩ := by
    simp [connectTx, connectInputs, UpdateCoins, markSpent, hcb, hhash,
      Nat.not_lt.mpr hops]
  have hamount' : ¬ (cfg.GetBlockValue ctx.nHeight 0
      (block.BuildMerkleTree cfg.crypto).IsPoKBlock < nValueOut ∧
      (block.BuildMerkleTree cfg.crypto).GetHash cfg.crypto ≠ cfg.HashGenesisBlock) :=
    fun h => hamount.elim (fun hle => Int.not_lt.mpr hle h.1) h.2
  unfold ConnectBlock
  simp only [Bool.not_false, hcheck, ok_bind, Run.assert, hprev, if_true, hover, hvtx',
    List.zipIdx_cons, List.zipIdx_nil, List.foldlM_cons, List.foldlM_nil, hround,
    pure_eq_ok, Run.get, List.getElem?_cons_zero, hvalue, if_neg hamount',
    List.mapM_nil, List.all_nil, Bool.true_eq_false, Bool.false_eq_true, if_false]

end Ziftrcoin.Spec
