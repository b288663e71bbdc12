/-
Module: Ziftrcoin.Proofs.PrunedEntries
Purpose: Two caches with the same unspent outputs, of which one still holds
  entries of transactions that are spent: when they give the same verdicts.
Trusted boundary: none
Main exports: SameOutputs, sameVerdicts_iff
-/
import Ziftrcoin.Proofs.ConnectDisconnect

namespace Ziftrcoin.Spec

open Ziftrcoin.Lib.Outcome

/-! ### The same outputs -/

/-- Two views with the same best block and the same unspent outputs.  They may
differ in what they hold for transactions without unspent outputs: nothing, or
a pruned entry. -/
structure SameOutputs (view view' : CCoinsViewCache) : Prop where
  best : view.hashBlock = view'.hashBlock
  unspent : ∀ o, view.unspent o = view'.unspent o

/-- Both calls accept, with results related by `R`, or both do not. -/
def SameVerdict {α : Type} (R : α → α → Prop) (x y : Run α) : Prop :=
  Rel (fun _ _ => True) R x y

theorem SameOutputs.symm {view view' : CCoinsViewCache} (h : SameOutputs view view') :
    SameOutputs view' view :=
  ⟨h.best.symm, fun o => (h.unspent o).symm⟩

theorem SameVerdict.symm {α : Type} {R : α → α → Prop} {x y : Run α}
    (h : SameVerdict R x y) (hR : ∀ a b, R a b → R b a) : SameVerdict R y x := by
  cases h with
  | ok related => exact Rel.ok (hR _ _ related)
  | error _ => exact Rel.error trivial

/-- What an unspent output is read off. -/
theorem unspent_eq_some {view : CCoinsViewCache} {o : COutPoint}
    {u : UnspentOutput} (h : view.unspent o = some u) :
    ∃ coins, view.coins o.hash = some coins ∧ coins.vout[o.n]? = some u.txout ∧
      u.txout.IsNull = false ∧ coins.fCoinBase = u.fCoinBase ∧
      coins.nHeight = u.nHeight := by
  unfold CCoinsViewCache.unspent CCoins.unspent at h
  rw [Option.bind_eq_some_iff] at h
  obtain ⟨coins, hcoins, h⟩ := h
  rw [Option.map_eq_some_iff] at h
  obtain ⟨txout, hout, rfl⟩ := h
  obtain ⟨hget, hnull⟩ := CCoins.output_eq_some.mp hout
  exact ⟨coins, hcoins, hget, hnull, rfl, rfl⟩

namespace SameOutputs

variable {view view' : CCoinsViewCache}

theorem available_eq (h : SameOutputs view view') (o : COutPoint) :
    view.available o = view'.available o := by
  rw [← CCoinsViewCache.unspent_isSome, ← CCoinsViewCache.unspent_isSome,
    h.unspent]

/-- An available output is read off entries that agree about it. -/
theorem read (h : SameOutputs view view') {o : COutPoint}
    (havail : view.available o = true) :
    ∃ coins coins' txout, view.coins o.hash = some coins ∧
      view'.coins o.hash = some coins' ∧ coins.vout[o.n]? = some txout ∧
      coins'.vout[o.n]? = some txout ∧ txout.IsNull = false ∧
      coins.fCoinBase = coins'.fCoinBase ∧ coins.nHeight = coins'.nHeight := by
  rw [← CCoinsViewCache.unspent_isSome] at havail
  obtain ⟨u, hu⟩ := Option.isSome_iff_exists.mp havail
  obtain ⟨coins, hcoins, hget, hnull, hcb, hheight⟩ := unspent_eq_some hu
  rw [h.unspent] at hu
  obtain ⟨coins', hcoins', hget', _, hcb', hheight'⟩ := unspent_eq_some hu
  exact ⟨coins, coins', u.txout, hcoins, hcoins', hget, hget', hnull,
    hcb.trans hcb'.symm, hheight.trans hheight'.symm⟩

end SameOutputs

/-- An available output has an entry, so the first loop of `HaveInputs` adds
nothing to the second. -/
theorem haveInputs_eq (view : CCoinsViewCache) (tx : CTransaction) :
    view.HaveInputs tx =
      (tx.IsCoinBase || tx.vin.all fun txin => view.available txin.prevout) := by
  unfold CCoinsViewCache.HaveInputs
  congr 1
  rw [Bool.and_eq_right_iff_imp, List.all_eq_true, List.all_eq_true]
  intro hall txin hmem
  have havail := hall txin hmem
  unfold CCoinsViewCache.available at havail
  unfold CCoinsViewCache.HaveCoins
  cases hcoins : view.coins txin.prevout.hash with
  | none => simp [hcoins] at havail
  | some coins => rfl

namespace SameOutputs

variable {view view' : CCoinsViewCache}

theorem haveInputs_eq (h : SameOutputs view view') (tx : CTransaction) :
    view.HaveInputs tx = view'.HaveInputs tx := by
  rw [Spec.haveInputs_eq, Spec.haveInputs_eq]
  simp only [h.available_eq]

theorem setCoins (h : SameOutputs view view') {txid : uint256}
    {coins coins' : CCoins} (hc : ∀ n, coins.unspent n = coins'.unspent n) :
    SameOutputs (view.SetCoins txid coins) (view'.SetCoins txid coins') := by
  refine ⟨h.best, fun o => ?_⟩
  unfold CCoinsViewCache.unspent
  by_cases heq : o.hash = txid
  · rw [heq]
    simpa using hc o.n
  · rw [CCoinsViewCache.coins_setCoins_ne _ heq, CCoinsViewCache.coins_setCoins_ne _ heq]
    exact h.unspent o

theorem setBestBlock (h : SameOutputs view view') (hashBlock : uint256) :
    SameOutputs (view.SetBestBlock hashBlock) (view'.SetBestBlock hashBlock) :=
  ⟨rfl, h.unspent⟩

/-! ### Reading available outputs -/

theorem getOutputFor_eq (h : SameOutputs view view') {txin : CTxIn}
    (havail : view.available txin.prevout = true) :
    view.GetOutputFor txin = view'.GetOutputFor txin := by
  obtain ⟨coins, coins', txout, hcoins, hcoins', hget, hget', hnull, _⟩ :=
    h.read havail
  have hav : coins.IsAvailable txin.prevout.n = true :=
    CCoins.isAvailable_iff.mpr ⟨txout, hget, hnull⟩
  have hav' : coins'.IsAvailable txin.prevout.n = true :=
    CCoins.isAvailable_iff.mpr ⟨txout, hget', hnull⟩
  simp [CCoinsViewCache.GetOutputFor, CCoinsViewCache.GetCoins, hcoins, hcoins',
    Run.assert, hav, hav', Run.get, hget, hget']

theorem p2shSigOpsFrom_eq (h : SameOutputs view view') :
    ∀ {vin : List CTxIn} {nSigOps : Nat},
      (∀ txin ∈ vin, view.available txin.prevout = true) →
      p2shSigOpsFrom view nSigOps vin = p2shSigOpsFrom view' nSigOps vin
  | [], _, _ => rfl
  | txin :: rest, nSigOps, hall => by
      rw [p2shSigOpsFrom, p2shSigOpsFrom,
        h.getOutputFor_eq (hall txin List.mem_cons_self)]
      simp only [h.p2shSigOpsFrom_eq fun t ht => hall t (List.mem_cons_of_mem _ ht)]

theorem valueInFrom_eq (h : SameOutputs view view') :
    ∀ {vin : List CTxIn} {nResult : Int},
      (∀ txin ∈ vin, view.available txin.prevout = true) →
      view.valueInFrom nResult vin = view'.valueInFrom nResult vin
  | [], _, _ => rfl
  | txin :: rest, nResult, hall => by
      rw [CCoinsViewCache.valueInFrom, CCoinsViewCache.valueInFrom,
        h.getOutputFor_eq (hall txin List.mem_cons_self)]
      simp only [h.valueInFrom_eq fun t ht => hall t (List.mem_cons_of_mem _ ht)]

theorem checkInputValues_eq (h : SameOutputs view view') {nSpendHeight : Int} :
    ∀ {vin : List CTxIn} {nValueIn : Int},
      (∀ txin ∈ vin, view.available txin.prevout = true) →
      checkInputValues view nSpendHeight nValueIn vin =
        checkInputValues view' nSpendHeight nValueIn vin
  | [], _, _ => rfl
  | txin :: rest, nValueIn, hall => by
      obtain ⟨coins, coins', txout, hcoins, hcoins', hget, hget', _, hcb, hheight⟩ :=
        h.read (hall txin List.mem_cons_self)
      simp only [checkInputValues, CCoinsViewCache.GetCoins, hcoins, hcoins', ok_bind,
        Run.get, hget, hget', hcb, hheight,
        h.checkInputValues_eq fun t ht => hall t (List.mem_cons_of_mem _ ht)]

theorem scriptCheckOf_eq (h : SameOutputs view view') {tx : CTransaction}
    {flags : ScriptFlags} {txin : CTxIn} {i : Nat}
    (havail : view.available txin.prevout = true) :
    scriptCheckOf view tx flags txin i = scriptCheckOf view' tx flags txin i := by
  obtain ⟨coins, coins', txout, hcoins, hcoins', hget, hget', _⟩ := h.read havail
  simp only [scriptCheckOf, CCoinsViewCache.GetCoins, hcoins, hcoins', ok_bind,
    Run.get, hget, hget']

theorem available_of_haveInputs {tx : CTransaction} (hcb : tx.IsCoinBase = false)
    (hhave : view.HaveInputs tx = true) :
    ∀ txin ∈ tx.vin, view.available txin.prevout = true := by
  rw [Spec.haveInputs_eq, hcb, Bool.false_or, List.all_eq_true] at hhave
  exact hhave

/-- Neither the flow nor the result of `CheckInputs` depends on pruned
entries. -/
theorem checkInputs_eq (h : SameOutputs view view') (crypto : Crypto)
    (prevHeight : uint256 → Option Nat) (tx : CTransaction) (fScriptChecks : Bool)
    (flags : ScriptFlags) (fDefer : Bool) :
    CheckInputs crypto prevHeight tx view fScriptChecks flags fDefer =
      CheckInputs crypto prevHeight tx view' fScriptChecks flags fDefer := by
  unfold CheckInputs
  cases hcb : tx.IsCoinBase with
  | true => rfl
  | false =>
      simp only [← h.haveInputs_eq tx]
      cases hhave : view.HaveInputs tx with
      | false => rfl
      | true =>
          have hall := available_of_haveInputs hcb hhave
          have hspend : spendHeight prevHeight view = spendHeight prevHeight view' := by
            unfold spendHeight
            rw [h.best]
          have hchecks : tx.vin.zipIdx.mapM (fun p => scriptCheckOf view tx flags
              p.1 p.2) = tx.vin.zipIdx.mapM fun p => scriptCheckOf view' tx flags
              p.1 p.2 := by
            refine mapM_congr fun p hp => h.scriptCheckOf_eq (hall p.1 ?_)
            exact List.mem_of_getElem? (List.mem_zipIdx_iff_getElem?.mp hp)
          simp only [hspend, h.checkInputValues_eq hall, hchecks]

end SameOutputs

/-! ### Updating -/

theorem spendInput_error {view : CCoinsViewCache} {txin : CTxIn}
    (h : view.available txin.prevout = false) :
    ∃ e, spendInput view txin = .error e := by
  unfold CCoinsViewCache.available at h
  unfold spendInput CCoinsViewCache.GetCoins
  cases hcoins : view.coins txin.prevout.hash with
  | none => exact ⟨_, rfl⟩
  | some coins =>
      simp only [hcoins] at h
      have hspend : coins.Spend txin.prevout.n = none := by
        rw [← Option.isNone_iff_eq_none, ← Option.not_isSome, CCoins.spend_isSome, h]
        rfl
      simp only [ok_bind, hspend]
      exact ⟨_, rfl⟩

/-- Both spend, and leave the same outputs, or neither does. -/
theorem spendInput_sameVerdict {view view' : CCoinsViewCache}
    (h : SameOutputs view view') (txin : CTxIn) :
    SameVerdict (fun a b => SameOutputs a.1 b.1) (spendInput view txin)
      (spendInput view' txin) := by
  cases havail : view.available txin.prevout with
  | true =>
      obtain ⟨coins, coins', txout, hcoins, hcoins', hget, hget', hnull, hcb, hheight⟩ :=
        h.read havail
      obtain ⟨⟨left, undo⟩, hspend⟩ := Option.isSome_iff_exists.mp
        (CCoins.spend_isSome.trans (CCoins.isAvailable_iff.mpr ⟨txout, hget, hnull⟩))
      obtain ⟨⟨left', undo'⟩, hspend'⟩ := Option.isSome_iff_exists.mp
        (CCoins.spend_isSome.trans (CCoins.isAvailable_iff.mpr ⟨txout, hget', hnull⟩))
      simp only [spendInput, CCoinsViewCache.GetCoins, hcoins, hcoins', ok_bind, hspend,
        hspend', pure_eq_ok]
      refine Rel.ok (h.setCoins fun n => ?_)
      have hsame := h.unspent ⟨txin.prevout.hash, n⟩
      simp only [CCoinsViewCache.unspent, hcoins, hcoins', Option.bind_some] at hsame
      rw [CCoins.unspent_spend hspend, CCoins.unspent_spend hspend', hsame]
  | false =>
      obtain ⟨e, he⟩ := spendInput_error havail
      obtain ⟨e', he'⟩ := spendInput_error (h.available_eq txin.prevout ▸ havail)
      rw [he, he']
      exact Rel.error trivial

theorem spendInputs_sameVerdict :
    ∀ {vin : List CTxIn} {view view' : CCoinsViewCache}, SameOutputs view view' →
      SameVerdict (fun a b => SameOutputs a.1 b.1) (spendInputs view vin)
        (spendInputs view' vin)
  | [], _, _, h => Rel.ok h
  | txin :: rest, view, view', h => by
      unfold spendInputs
      refine (spendInput_sameVerdict h txin).bind fun a b hab => ?_
      refine (spendInputs_sameVerdict hab).bind fun a' b' hab' => ?_
      exact Rel.ok hab'

theorem updateCoins_sameVerdict {view view' : CCoinsViewCache}
    (h : SameOutputs view view') (tx : CTransaction) (nHeight : Nat)
    (txhash : uint256) :
    SameVerdict (fun a b => SameOutputs a.1 b.1) (UpdateCoins tx view nHeight txhash)
      (UpdateCoins tx view' nHeight txhash) := by
  have hspent : SameVerdict (fun a b => SameOutputs a.1 b.1) (markSpent tx view)
      (markSpent tx view') := by
    unfold markSpent
    exact Rel.ite Iff.rfl (fun _ => Rel.ok h) fun _ => spendInputs_sameVerdict h
  unfold UpdateCoins
  exact hspent.bind fun a b hab => Rel.ok (hab.setCoins fun _ => rfl)

/-! ### Connecting -/

/-- The loop of `ConnectBlock` has come to the same point on both views. -/
structure SameProgress (acc acc' : ConnectState) : Prop where
  view : SameOutputs acc.view acc'.view
  nFees : acc.nFees = acc'.nFees
  nSigOps : acc.nSigOps = acc'.nSigOps
  vChecks : acc.vChecks = acc'.vChecks

theorem rel_refl {ε α : Type} {E : ε → ε → Prop} (hE : ∀ e, E e e)
    (x : Except ε α) : Rel E Eq x x := by
  cases x with
  | ok a => exact Rel.ok rfl
  | error e => exact Rel.error (hE e)

theorem connectInputs_sameVerdict (cfg : Config) (ctx : BlockContext)
    (fScriptChecks : Bool) {acc acc' : ConnectState} (h : SameProgress acc acc')
    (tx : CTransaction) :
    SameVerdict SameProgress (connectInputs cfg ctx fScriptChecks acc tx)
      (connectInputs cfg ctx fScriptChecks acc' tx) := by
  unfold connectInputs
  cases hcb : tx.IsCoinBase with
  | true => exact Rel.ok h
  | false =>
      simp only [Bool.false_eq_true, if_false, ← h.view.haveInputs_eq tx]
      cases hhave : acc.view.HaveInputs tx with
      | false => exact Rel.error trivial
      | true =>
          have hall := SameOutputs.available_of_haveInputs hcb hhave
          have hp2sh : GetP2SHSigOpCount tx acc.view =
              GetP2SHSigOpCount tx acc'.view := by
            simp only [GetP2SHSigOpCount, h.view.p2shSigOpsFrom_eq hall]
          have hvalue : acc.view.GetValueIn tx = acc'.view.GetValueIn tx := by
            simp only [CCoinsViewCache.GetValueIn, h.view.valueInFrom_eq hall]
          rw [hp2sh, hvalue, h.view.checkInputs_eq, h.nSigOps, h.nFees, h.vChecks]
          refine (rel_refl (fun _ => trivial) _).bind fun nP2SH _ hP2SH => ?_
          subst hP2SH
          refine Rel.ite Iff.rfl (fun _ => Rel.error trivial) fun _ => ?_
          refine (rel_refl (fun _ => trivial) _).bind fun nValueIn _ hIn => ?_
          subst hIn
          refine (rel_refl (fun _ => trivial) _).bind fun nValueOut _ hOut => ?_
          subst hOut
          refine (rel_refl (fun _ => trivial) _).bind fun vChecks _ hChecks => ?_
          subst hChecks
          exact Rel.ok ⟨h.view, rfl, rfl, rfl⟩

theorem connectTx_sameVerdict (cfg : Config) (ctx : BlockContext)
    (fScriptChecks : Bool) (block : CBlock) {acc acc' : ConnectState}
    (h : SameProgress acc acc') (txi : CTransaction × Nat) :
    SameVerdict SameProgress (connectTx cfg ctx fScriptChecks block acc txi)
      (connectTx cfg ctx fScriptChecks block acc' txi) := by
  unfold connectTx
  have hnext : SameProgress
      { acc with nSigOps := acc.nSigOps + GetSigOpCount txi.1 }
      { acc' with nSigOps := acc'.nSigOps + GetSigOpCount txi.1 } :=
    ⟨h.view, h.nFees, by simp only [h.nSigOps], h.vChecks⟩
  refine Rel.ite (by rw [hnext.nSigOps]) (fun _ => Rel.error trivial) fun _ => ?_
  refine (connectInputs_sameVerdict cfg ctx fScriptChecks hnext txi.1).bind
    fun a a' ha => ?_
  refine (rel_refl (fun _ => trivial) _).bind fun txhash _ hhash => ?_
  subst hhash
  refine (updateCoins_sameVerdict ha.view txi.1 ctx.nHeight txhash).bind
    fun b b' hb => ?_
  exact Rel.ok ⟨hb, ha.nFees, ha.nSigOps, ha.vChecks⟩

/-- `ConnectBlock` gives the same verdict, and leaves the same outputs, when
both views hold entries for the same transactions of the block. -/
theorem connectBlock_sameVerdict (cfg : Config) (ctx : BlockContext)
    (block : CBlock) {view view' : CCoinsViewCache} (h : SameOutputs view view')
    (fJustCheck : Bool)
    (hentries : ∀ tx ∈ block.vtx, view.HaveCoins (tx.GetHash cfg.crypto) =
      view'.HaveCoins (tx.GetHash cfg.crypto)) :
    SameVerdict (fun a b => SameOutputs a.1 b.1)
      (ConnectBlock cfg ctx block view fJustCheck)
      (ConnectBlock cfg ctx block view' fJustCheck) := by
  unfold ConnectBlock
  cases hcheck : CheckBlock cfg ctx.nAdjustedTime block ctx.nMaxBlockSize
      (!fJustCheck) (!fJustCheck) with
  | error e => exact Rel.error trivial
  | ok block' =>
      obtain ⟨rfl, _⟩ := checkBlock_ok hcheck
      have hover : checkOverwrite view (block.BuildMerkleTree cfg.crypto) =
          checkOverwrite view' (block.BuildMerkleTree cfg.crypto) := by
        unfold checkOverwrite
        rw [txHashes_buildMerkleTree, ok_bind, ok_bind, List.any_map, List.any_map]
        have hany : block.vtx.any (view.HaveCoins ∘ CTransaction.GetHash cfg.crypto) =
            block.vtx.any (view'.HaveCoins ∘ CTransaction.GetHash cfg.crypto) := by
          rw [Bool.eq_iff_iff, List.any_eq_true, List.any_eq_true]
          refine exists_congr fun tx => and_congr_right fun hmem => ?_
          simp only [Function.comp_apply, hentries tx hmem]
        rw [hany]
      rw [ok_bind, ok_bind, h.best, hover]
      refine (rel_refl (fun _ => trivial) _).bind fun _ _ _ => ?_
      refine (rel_refl (fun _ => trivial) _).bind fun _ _ _ => ?_
      have hstart : SameProgress ⟨view, 0, 0, [], []⟩ ⟨view', 0, 0, [], []⟩ :=
        ⟨h, rfl, rfl, rfl⟩
      refine (Rel.foldlM hstart fun txi _ a a' ha =>
        connectTx_sameVerdict cfg ctx _ _ ha txi).bind fun acc acc' hacc => ?_
      rw [hacc.nFees, hacc.vChecks]
      refine (rel_refl (fun _ => trivial) _).bind fun coinbase _ hcb => ?_
      subst hcb
      refine (rel_refl (fun _ => trivial) _).bind fun nValueOut _ hOut => ?_
      subst hOut
      refine Rel.ite Iff.rfl (fun _ => Rel.error trivial) fun _ => ?_
      refine (rel_refl (fun _ => trivial) _).bind fun checks _ hChecks => ?_
      subst hChecks
      refine Rel.ite Iff.rfl (fun _ => Rel.error trivial) fun _ => ?_
      exact Rel.ite Iff.rfl (fun _ => Rel.ok hacc.view)
        fun _ => Rel.ok (hacc.view.setBestBlock _)

/-! ### Loose transactions -/

/-- The pool answers for the same transactions on top of both views. -/
theorem SameOutputs.poolView {view view' : CCoinsViewCache}
    (h : SameOutputs view view') (pool : CTxMemPool)
    (hentries : ∀ txid, view.HaveCoins txid = view'.HaveCoins txid) :
    SameOutputs (pool.view view) (pool.view view') ∧
      ∀ txid, (pool.view view).HaveCoins txid = (pool.view view').HaveCoins txid := by
  have hcases : ∀ txid,
      (∃ coins coins', view.coins txid = some coins ∧ view'.coins txid = some coins') ∨
        (view.coins txid = none ∧ view'.coins txid = none) := by
    intro txid
    have hsame := hentries txid
    unfold CCoinsViewCache.HaveCoins at hsame
    cases hcoins : view.coins txid with
    | none => exact .inr ⟨rfl, by simpa [hcoins] using hsame.symm⟩
    | some coins =>
        rw [hcoins] at hsame
        obtain ⟨coins', hcoins'⟩ := Option.isSome_iff_exists.mp hsame.symm
        exact .inl ⟨coins, coins', rfl, hcoins'⟩
  refine ⟨⟨h.best, fun o => ?_⟩, fun txid => ?_⟩
  · have hunspent := h.unspent o
    unfold CCoinsViewCache.unspent at hunspent ⊢
    rcases hcases o.hash with ⟨coins, coins', hcoins, hcoins'⟩ | ⟨hnone, hnone'⟩
    · simpa [CTxMemPool.view, hcoins, hcoins'] using hunspent
    · simp [CTxMemPool.view, hnone, hnone']
  · unfold CCoinsViewCache.HaveCoins
    rcases hcases txid with ⟨coins, coins', hcoins, hcoins'⟩ | ⟨hnone, hnone'⟩
    · simp [CTxMemPool.view, hcoins, hcoins']
    · simp [CTxMemPool.view, hnone, hnone']

theorem SameOutputs.standardInputsOk_eq {view view' : CCoinsViewCache}
    (h : SameOutputs view view') (cfg : Config) {tx : CTransaction}
    (hall : ∀ txin ∈ tx.vin, view.available txin.prevout = true) :
    standardInputsOk cfg tx view = standardInputsOk cfg tx view' := by
  have hinputs : tx.vin.zipIdx.mapM (fun p => inputStandard cfg.crypto tx view p.1
      p.2) = tx.vin.zipIdx.mapM fun p => inputStandard cfg.crypto tx view' p.1 p.2 := by
    refine mapM_congr fun p hp => ?_
    have hmem : p.1 ∈ tx.vin :=
      List.mem_of_getElem? (List.mem_zipIdx_iff_getElem?.mp hp)
    simp only [inputStandard, h.getOutputFor_eq (hall p.1 hmem)]
  simp only [standardInputsOk, AreInputsStandard, hinputs]

/-- `AcceptToMemoryPool` does the same on views that hold entries for the same
transactions. -/
theorem acceptToMemoryPool_eq {view view' : CCoinsViewCache}
    (h : SameOutputs view view')
    (hentries : ∀ txid, view.HaveCoins txid = view'.HaveCoins txid) (cfg : Config)
    (ctx : PoolContext) (pool : CTxMemPool) (tx : CTransaction)
    (fLimitFree fRejectInsaneFee : Bool) :
    AcceptToMemoryPool cfg { ctx with coinsTip := view } pool tx fLimitFree
        fRejectInsaneFee =
      AcceptToMemoryPool cfg { ctx with coinsTip := view' } pool tx fLimitFree
        fRejectInsaneFee := by
  obtain ⟨hpool, hpoolEntries⟩ := h.poolView pool hentries
  unfold AcceptToMemoryPool
  cases hcb : tx.IsCoinBase with
  | true => rfl
  | false =>
      simp only [hpoolEntries, ← hpool.haveInputs_eq tx]
      cases hhave : (pool.view view).HaveInputs tx with
      | false => rfl
      | true =>
          have hall := SameOutputs.available_of_haveInputs hcb hhave
          simp only [hpool.standardInputsOk_eq cfg hall, CCoinsViewCache.GetValueIn,
            hpool.valueInFrom_eq hall, hpool.checkInputs_eq]

/-! ### Entries stay -/

/-- Every transaction that has an entry in the first view has one in the
second. -/
def KeepsEntries (view view' : CCoinsViewCache) : Prop :=
  ∀ txid, view.HaveCoins txid = true → view'.HaveCoins txid = true

namespace KeepsEntries

theorem trans {view view' view'' : CCoinsViewCache} (h : KeepsEntries view view')
    (h' : KeepsEntries view' view'') : KeepsEntries view view'' :=
  fun txid hsome => h' txid (h txid hsome)

theorem setCoins (view : CCoinsViewCache) (txid : uint256) (coins : CCoins) :
    KeepsEntries view (view.SetCoins txid coins) := by
  intro txid' hsome
  unfold CCoinsViewCache.HaveCoins at hsome ⊢
  by_cases heq : txid' = txid
  · rw [heq, CCoinsViewCache.coins_setCoins_self]
    rfl
  · rw [CCoinsViewCache.coins_setCoins_ne _ heq]
    exact hsome

theorem spendInputs :
    ∀ {vin : List CTxIn} {view view' : CCoinsViewCache} {undos : CTxUndo},
      spendInputs view vin = .ok (view', undos) → KeepsEntries view view'
  | [], view, view', _, h => by
      simp only [Spec.spendInputs, Except.ok.injEq, Prod.mk.injEq] at h
      exact h.1 ▸ fun _ hsome => hsome
  | txin :: rest, view, view', _, h => by
      simp only [Spec.spendInputs, bind_eq_ok, pure_eq_ok, Except.ok.injEq,
        Prod.mk.injEq] at h
      obtain ⟨⟨view₁, undo⟩, hspend, ⟨view₂, undos⟩, hrest, rfl, _⟩ := h
      obtain ⟨coins, left, _, _, rfl⟩ := spendInput_ok hspend
      exact (setCoins view _ left).trans (spendInputs hrest)

theorem updateCoins {tx : CTransaction} {view view' : CCoinsViewCache}
    {nHeight : Nat} {txhash : uint256} {txundo : CTxUndo}
    (h : UpdateCoins tx view nHeight txhash = .ok (view', txundo)) :
    KeepsEntries view view' := by
  obtain ⟨view₁, hspent, rfl⟩ := updateCoins_ok h
  refine trans ?_ (setCoins view₁ _ _)
  rcases markSpent_cases hspent with ⟨-, rfl, -⟩ | ⟨-, hspent⟩
  · exact fun _ hsome => hsome
  · exact spendInputs hspent

theorem viewConnects {crypto : Crypto} {nHeight : Nat}
    {view view' : CCoinsViewCache} {txs : List CTransaction}
    {txundos : List CTxUndo}
    (h : ViewConnects crypto nHeight view txs txundos view') :
    KeepsEntries view view' := by
  induction h with
  | nil => exact fun _ hsome => hsome
  | cons update _ ih => exact (updateCoins update).trans ih

theorem removeOutputs (crypto : Crypto) (nHeight : Nat) (acc : DisconnectState)
    (tx : CTransaction) :
    KeepsEntries acc.view (removeOutputs crypto nHeight acc tx).view := by
  simp only [Spec.removeOutputs]
  split
  · exact setCoins _ _ _
  · exact fun _ hsome => hsome

theorem restoreInputs :
    ∀ (inputs : List (CTxIn × CTxInUndo)) (acc : DisconnectState),
      KeepsEntries acc.view (restoreInputs acc inputs).view
  | [], _ => fun _ hsome => hsome
  | (_, _) :: rest, acc =>
      (restoreInputs rest acc).trans (setCoins _ _ _)

theorem disconnectTxs {crypto : Crypto} {nHeight : Nat} :
    ∀ {txs : List (CTransaction × Option CTxUndo)} {acc acc' : DisconnectState},
      disconnectTxs crypto nHeight acc txs = .ok acc' →
      KeepsEntries acc.view acc'.view
  | [], acc, acc', h => by
      simp only [Spec.disconnectTxs, Except.ok.injEq] at h
      exact h ▸ fun _ hsome => hsome
  | (tx, txundo) :: rest, acc, acc', h => by
      rw [Spec.disconnectTxs, bind_eq_ok] at h
      obtain ⟨acc₁, hrest, h⟩ := h
      refine (disconnectTxs hrest).trans ?_
      refine (removeOutputs crypto nHeight acc₁ tx).trans ?_
      unfold disconnectTx at h
      split at h
      · simp only [Except.ok.injEq] at h
        exact h ▸ fun _ hsome => hsome
      · split at h
        · cases h
        · simp only [Except.ok.injEq] at h
          exact h ▸ restoreInputs _ _

theorem disconnectBlock {crypto : Crypto} {ctx : BlockContext} {block : CBlock}
    {blockUndo : Option CBlockUndo} {view view' : CCoinsViewCache} {fClean : Bool}
    (h : DisconnectBlock crypto ctx block blockUndo view = .ok (view', fClean)) :
    KeepsEntries view view' := by
  unfold DisconnectBlock at h
  rw [bind_eq_ok] at h
  obtain ⟨⟨⟩, _, h⟩ := h
  split at h
  · cases h
  · split at h
    · cases h
    · split at h
      · cases h
      · simp only [bind_eq_ok, pure_eq_ok, Except.ok.injEq, Prod.mk.injEq] at h
        obtain ⟨acc, hacc, rfl, _⟩ := h
        exact disconnectTxs hacc

end KeepsEntries

/-- A block that is disconnected leaves an entry for its coinbase behind, and
is not connected to that view again. -/
theorem connectBlock_after_disconnectBlock {cfg : Config} {ctx ctx' : BlockContext}
    {block : CBlock} {view view' view'' : CCoinsViewCache} {vtxundo : CBlockUndo}
    {blockUndo : Option CBlockUndo} {fClean fJustCheck : Bool}
    (hconnect : ConnectBlock cfg ctx block view false = .ok (view', vtxundo))
    (hdisconnect : DisconnectBlock cfg.crypto ctx block blockUndo view' =
      .ok (view'', fClean)) :
    ∀ r, ConnectBlock cfg ctx' block view'' fJustCheck ≠ .ok r := by
  rintro ⟨view₃, vtxundo₃⟩ hagain
  obtain ⟨coinbase, txs, view₁, hblock, _, _, hviews, rfl⟩ :=
    connectBlock_views hconnect
  obtain ⟨_, _, _, _, _, _, hfresh, _⟩ := connectBlock_ok hagain
  have hmem : coinbase ∈ block.vtx := by
    rw [hblock.vtx_eq]
    exact List.mem_cons_self
  have hhas : view₁.HaveCoins (coinbase.GetHash cfg.crypto) = true := by
    rw [hblock.vtx_eq] at hviews
    cases hviews with
    | cons update rest =>
        refine KeepsEntries.viewConnects rest _ ?_
        obtain ⟨_, _, rfl⟩ := updateCoins_ok update
        rw [CCoinsViewCache.HaveCoins, CCoinsViewCache.coins_setCoins_self]
        rfl
  have hkept := KeepsEntries.disconnectBlock hdisconnect _ hhas
  rw [CCoinsViewCache.HaveCoins, hfresh coinbase hmem] at hkept
  cases hkept

/-! ### A block for every hash -/

/-- Hash functions that hand out a given transaction hash. -/
def constantCrypto (txid : uint256) : Crypto :=
  { smallCrypto with Hash := fun _ => txid, HashZR5 := fun _ => 0 }

def constantNet (txid : uint256) : Config :=
  { smallNet (smallGenesis []) with crypto := constantCrypto txid }

/-- A block on top of a given one whose only transaction has a given hash. -/
def blockWithTxid (txid : uint256) : CBlock :=
  { smallBlock 0 1 0 [coinbaseTx 1 1 [⟨0, anyoneCanSpend⟩]] with
    hashMerkleRoot := txid }

def contextOn (hashPrev : uint256) : BlockContext :=
  { hash := 0
    hashPrev := some hashPrev
    nHeight := 1
    nMaxBlockSize := MIN_MAX_BLOCK_SIZE
    prevHeight := fun _ => none
    nAdjustedTime := 2000000000 }

theorem checkPOW_blockWithTxid (txid : uint256) :
    checkPOW (constantNet txid) (blockWithTxid txid) true = .ok true := by
  have hhash : (blockWithTxid txid).toCBlockHeader.GetHash (constantCrypto txid) = 0 :=
    rfl
  have hbits : (blockWithTxid txid).nBits = GetCompact smallLimit := rfl
  have hversion : (blockWithTxid txid).nVersion = 1 := rfl
  have hzero : ∀ bs, (constantNet txid).crypto.HashZR5 bs = 0 := fun _ => rfl
  have hflag : (blockWithTxid txid).IsPoKBlock = false := by
    rw [CBlockHeader.IsPoKBlock, hversion]
    decide
  have hwork : (blockWithTxid txid).toCBlockHeader.CheckProofOfWork
      (constantNet txid).crypto (constantNet txid).ProofOfWorkLimit = true := by
    have hlimit : (constantNet txid).ProofOfWorkLimit = smallLimit := rfl
    have hcrypto : (constantNet txid).crypto = constantCrypto txid := rfl
    unfold CBlockHeader.CheckProofOfWork
    rw [hcrypto, hlimit, hhash, hbits]
    decide +kernel
  have hpok : (blockWithTxid txid).CalculatePoK (constantNet txid).crypto = .ok 0 := by
    unfold CBlock.CalculatePoK
    rw [if_pos hflag, hzero]
    decide
  unfold checkPOW CBlock.CheckProofOfWork
  simp only [if_true, hwork, Bool.true_eq_false, if_false, hpok, ok_bind,
    CBlockHeader.GetPoK, hversion]
  decide

theorem blockChecked_blockWithTxid (txid : uint256) :
    BlockChecked (constantNet txid) (blockWithTxid txid)
      (coinbaseTx 1 1 [⟨0, anyoneCanSpend⟩]) [] where
  vtx_eq := rfl
  isCoinBase := rfl
  notCoinBase := fun tx hmem => by simp at hmem
  checked := by
    have hall : ∀ tx ∈ [coinbaseTx 1 1 [⟨0, anyoneCanSpend⟩]],
        CheckTransaction tx = .ok () := by decide +kernel
    exact hall
  nodup := List.nodup_singleton _

theorem checkBlock_blockWithTxid (txid : uint256) :
    CheckBlock (constantNet txid) 2000000000 (blockWithTxid txid) MIN_MAX_BLOCK_SIZE
      true true = .ok ((blockWithTxid txid).BuildMerkleTree (constantCrypto txid)) := by
  have hvtx : (blockWithTxid txid).vtx = [coinbaseTx 1 1 [⟨0, anyoneCanSpend⟩]] := rfl
  have hsize : (blockWithTxid txid).GetSerializeSize = 145 := by
    unfold CBlock.GetSerializeSize CBlock.serialize CBlockHeader.serialize
    simp only [List.length_append, leBytes_length, hvtx]
    decide +kernel
  refine checkBlock_eq_ok (blockChecked_blockWithTxid txid) ?_ ?_
    (checkPOW_blockWithTxid txid) ?_ ?_ rfl
  · rw [hvtx]
    decide
  · rw [hsize]
    decide
  · have htime : (blockWithTxid txid).nTime = 1400000060 := rfl
    rw [htime]
    decide
  · rw [hvtx]
    decide +kernel

/-- The block is connected to a view that has no entry for the hash. -/
theorem connectBlock_blockWithTxid {view : CCoinsViewCache} {txid : uint256}
    (hnone : view.HaveCoins txid = false) :
    ∃ r, ConnectBlock (constantNet txid) (contextOn view.hashBlock)
      (blockWithTxid txid) view false = .ok r := by
  have hops : GetSigOpCount (coinbaseTx 1 1 [⟨0, anyoneCanSpend⟩]) ≤
      MaxBlockSizeToSigOps MIN_MAX_BLOCK_SIZE := by decide +kernel
  have hvalue : valueOut (coinbaseTx 1 1 [⟨0, anyoneCanSpend⟩]) = .ok 0 := by
    decide +kernel
  have hamount : 0 ≤ (constantNet txid).GetBlockValue 1 0
      (blockWithTxid txid).IsPoKBlock := by
    have hreward : (constantNet txid).GetBlockValue 1 0
        (blockWithTxid txid).IsPoKBlock = int64 50 := rfl
    rw [hreward]
    decide
  exact ⟨_, connectBlock_coinbase (checkBlock_blockWithTxid txid) rfl rfl rfl hnone
    hops hvalue (.inl hamount)⟩

/-! ### The theorem -/

/-- The verdicts of `ConnectBlock` and of `AcceptToMemoryPool`, and the outputs
they leave, are the same for both views, whatever the network, the block or the
transaction. -/
def SameVerdicts (view view' : CCoinsViewCache) : Prop :=
  (∀ (cfg : Config) (ctx : BlockContext) (block : CBlock) (fJustCheck : Bool),
    SameVerdict (fun a b => SameOutputs a.1 b.1)
      (ConnectBlock cfg ctx block view fJustCheck)
      (ConnectBlock cfg ctx block view' fJustCheck)) ∧
  ∀ (cfg : Config) (ctx : PoolContext) (pool : CTxMemPool) (tx : CTransaction)
    (fLimitFree fRejectInsaneFee : Bool),
    SameVerdict Eq
      (AcceptToMemoryPool cfg { ctx with coinsTip := view } pool tx fLimitFree
        fRejectInsaneFee)
      (AcceptToMemoryPool cfg { ctx with coinsTip := view' } pool tx fLimitFree
        fRejectInsaneFee)

/-- A block for whose coinbase only one of the views holds an entry gets
different verdicts. -/
theorem haveCoins_of_sameVerdict {view view' : CCoinsViewCache} {txid : uint256}
    (h : SameVerdict (fun a b => SameOutputs a.1 b.1)
      (ConnectBlock (constantNet txid) (contextOn view.hashBlock)
        (blockWithTxid txid) view false)
      (ConnectBlock (constantNet txid) (contextOn view.hashBlock)
        (blockWithTxid txid) view' false))
    (hnone : view.HaveCoins txid = false) : view'.HaveCoins txid = false := by
  obtain ⟨r, hr⟩ := connectBlock_blockWithTxid hnone
  rw [hr] at h
  cases hr' : ConnectBlock (constantNet txid) (contextOn view.hashBlock)
      (blockWithTxid txid) view' false with
  | error e =>
      rw [hr'] at h
      cases h
  | ok r' =>
      obtain ⟨_, _, _, _, _, _, hfresh, _⟩ := connectBlock_ok hr'
      have hnone' := hfresh _ (List.mem_singleton.mpr rfl)
      rw [CCoinsViewCache.HaveCoins, Option.isSome_eq_false_iff,
        Option.isNone_iff_eq_none]
      exact hnone'

/-- Two views with the same best block and the same unspent outputs give the
same verdicts exactly when they hold entries, pruned or not, for the same
transactions.  A view on which a block has been connected and disconnected
again holds an entry for its coinbase, and the block is never connected to it
a second time. -/
theorem sameVerdicts_iff {view view' : CCoinsViewCache} (h : SameOutputs view view') :
    (SameVerdicts view view' ↔
      ∀ txid, view.HaveCoins txid = view'.HaveCoins txid) ∧
    ∀ cfg ctx ctx' block view₁ view₂ vtxundo blockUndo fClean fJustCheck,
      ConnectBlock cfg ctx block view false = .ok (view₁, vtxundo) →
      DisconnectBlock cfg.crypto ctx block blockUndo view₁ = .ok (view₂, fClean) →
      ∀ r, ConnectBlock cfg ctx' block view₂ fJustCheck ≠ .ok r := by
  refine ⟨⟨fun hverdicts txid => ?_, fun hentries => ⟨?_, ?_⟩⟩, ?_⟩
  · -- The hash functions are a parameter, so there is a block for each hash.
    have hconnect := hverdicts.1 (constantNet txid) (contextOn view.hashBlock)
      (blockWithTxid txid) false
    cases hhas : view.HaveCoins txid with
    | false => exact (haveCoins_of_sameVerdict hconnect hhas).symm
    | true =>
        by_contra hne
        have hnone : view'.HaveCoins txid = false := by
          cases hhas' : view'.HaveCoins txid with
          | false => rfl
          | true => exact absurd hhas'.symm hne
        rw [h.best] at hconnect
        have hhas' := haveCoins_of_sameVerdict (hconnect.symm fun _ _ hab => hab.symm)
          hnone
        rw [hhas] at hhas'
        cases hhas'
  · intro cfg ctx block fJustCheck
    exact connectBlock_sameVerdict cfg ctx block h fJustCheck fun tx _ =>
      hentries (tx.GetHash cfg.crypto)
  · intro cfg ctx pool tx fLimitFree fRejectInsaneFee
    rw [acceptToMemoryPool_eq h hentries]
    exact rel_refl (fun _ => trivial) _
  · intro cfg ctx ctx' block view₁ view₂ vtxundo blockUndo fClean fJustCheck
    exact connectBlock_after_disconnectBlock

/-! ### On the small network -/

/-- A pruned entry for a transaction without one changes no output. -/
theorem sameOutputs_pruned {view : CCoinsViewCache} {txid : uint256}
    (hnone : view.HaveCoins txid = false) (coins : CCoins)
    (hpruned : coins.IsPruned = true) :
    SameOutputs view (view.SetCoins txid coins) := by
  refine ⟨rfl, fun o => ?_⟩
  unfold CCoinsViewCache.unspent
  by_cases heq : o.hash = txid
  · have hnone' : view.coins o.hash = none := by
      simpa [CCoinsViewCache.HaveCoins, heq] using hnone
    rw [hnone', heq, CCoinsViewCache.coins_setCoins_self, Option.bind_none,
      Option.bind_some, CCoins.unspent, CCoins.output_eq_none_of_isPruned hpruned]
    rfl
  · rw [CCoinsViewCache.coins_setCoins_ne _ heq]

/-- Connecting and disconnecting a block that only has a coinbase leaves the
same outputs, and a pruned entry. -/
theorem disconnectBlock_coinbase {cfg : Config} {ctx : BlockContext} {block : CBlock}
    {view view₁ : CCoinsViewCache} {vtxundo : CBlockUndo} {coinbase : CTransaction}
    {hashPrev : uint256}
    (hconnect : ConnectBlock cfg ctx block view false = .ok (view₁, vtxundo))
    (hvtx : block.vtx = [coinbase]) (hprev : ctx.hashPrev = some hashPrev) :
    ∃ view₂ fClean, DisconnectBlock cfg.crypto ctx block (some vtxundo) view₁ =
        .ok (view₂, fClean) ∧ SameOutputs view view₂ := by
  obtain ⟨coinbase', txs, view', hblock, hbest, hfresh, hviews, rfl⟩ :=
    connectBlock_views hconnect
  rw [hvtx] at hviews
  obtain ⟨rfl, rfl⟩ : coinbase' = coinbase ∧ txs = [] := by
    have hcons := hblock.vtx_eq
    rw [hvtx, List.cons.injEq] at hcons
    exact ⟨hcons.1.symm, hcons.2.symm⟩
  have hnone : view.HaveCoins (coinbase'.GetHash cfg.crypto) = false := by
    rw [CCoinsViewCache.HaveCoins, hfresh coinbase' (by simp [hvtx])]
    rfl
  cases hviews with
  | cons update rest =>
      cases rest
      obtain ⟨view₃, hspent, rfl⟩ := updateCoins_ok update
      simp only [markSpent, hblock.isCoinBase, if_true, Except.ok.injEq,
        Prod.mk.injEq] at hspent
      obtain ⟨rfl, _⟩ := hspent
      have hhas : ((view.SetCoins (coinbase'.GetHash cfg.crypto)
          (CCoins.ofTx coinbase' ctx.nHeight)).SetBestBlock ctx.hash).HaveCoins
            (coinbase'.GetHash cfg.crypto) = true := by
        simp [CCoinsViewCache.HaveCoins]
      have hbest' : hashPrev = view.hashBlock := by
        rw [hprev] at hbest
        exact hbest
      have hview : (((view.SetCoins (coinbase'.GetHash cfg.crypto)
          (CCoins.ofTx coinbase' ctx.nHeight)).SetBestBlock ctx.hash).SetCoins
            (coinbase'.GetHash cfg.crypto) CCoins.empty).SetBestBlock hashPrev =
          view.SetCoins (coinbase'.GetHash cfg.crypto) CCoins.empty := by
        simp [CCoinsViewCache.SetCoins, CCoinsViewCache.SetBestBlock, hbest']
      have hhash : ((view.SetCoins (coinbase'.GetHash cfg.crypto)
          (CCoins.ofTx coinbase' ctx.nHeight)).SetBestBlock ctx.hash).hashBlock =
            ctx.hash := rfl
      refine ⟨view.SetCoins (coinbase'.GetHash cfg.crypto) CCoins.empty, (removeOutputs
        cfg.crypto ctx.nHeight ⟨(view.SetCoins (coinbase'.GetHash cfg.crypto)
          (CCoins.ofTx coinbase' ctx.nHeight)).SetBestBlock ctx.hash, true⟩
          coinbase').fClean, ?_, sameOutputs_pruned hnone _ rfl⟩
      rw [← hview]
      simp only [DisconnectBlock, Run.assert, hhash, hprev, hvtx, if_true, ok_bind,
        List.length_nil, List.length_cons, ne_eq, not_true_eq_false, if_false,
        List.map_nil, List.zip_cons_cons, List.zip_nil_right, disconnectTxs,
        disconnectTx, removeOutputs, hhas, pure_eq_ok]

/-- A block that only has a coinbase. -/
def coinbaseBlock : CBlock :=
  smallBlock 2 1 (hashOfNonce 1) [coinbaseTx 2 1 [⟨50, anyoneCanSpend⟩]]

/-- After the block has been connected and disconnected, the view has the same
outputs and does not accept the block any more. -/
theorem not_sameVerdicts_coinbaseBlock :
    ∃ view view₁ view₂ vtxundo fClean, ReachableView zeroNet view 0 ∧
      ConnectBlock zeroNet (smallContext 1) coinbaseBlock view false =
        .ok (view₁, vtxundo) ∧
      DisconnectBlock zeroNet.crypto (smallContext 1) coinbaseBlock (some vtxundo)
        view₁ = .ok (view₂, fClean) ∧
      SameOutputs view view₂ ∧
      (∀ r, ConnectBlock zeroNet (smallContext 1) coinbaseBlock view₂ false ≠ .ok r) ∧
      ¬ SameVerdicts view view₂ := by
  obtain ⟨view, view₁, vtxundo, hreach, _, hconnect, _⟩ :=
    zeroConnect_ok coinbaseBlock (by decide +kernel)
  obtain ⟨view₂, fClean, hdisconnect, hsame⟩ := disconnectBlock_coinbase hconnect rfl rfl
  have hnever : ∀ r, ConnectBlock zeroNet (smallContext 1) coinbaseBlock view₂ false ≠
      .ok r := connectBlock_after_disconnectBlock hconnect hdisconnect
  refine ⟨view, view₁, view₂, vtxundo, fClean, hreach, hconnect, hdisconnect, hsame,
    hnever, fun hverdicts => ?_⟩
  have hrel := hverdicts.1 zeroNet (smallContext 1) coinbaseBlock false
  rw [hconnect] at hrel
  cases hagain : ConnectBlock zeroNet (smallContext 1) coinbaseBlock view₂ false with
  | ok r => exact hnever r hagain
  | error e =>
      rw [hagain] at hrel
      cases hrel

/-- Two ways to hold a pruned entry for one transaction make no difference. -/
theorem sameVerdicts_two_prunedEntries :
    SameVerdicts (CCoinsViewCache.empty.SetCoins 7 CCoins.empty)
      (CCoinsViewCache.empty.SetCoins 7 (CCoins.mk true [CTxOut.null] 3 1)) := by
  have hnone : CCoinsViewCache.empty.HaveCoins 7 = false := rfl
  have hsame : SameOutputs (CCoinsViewCache.empty.SetCoins 7 CCoins.empty)
      (CCoinsViewCache.empty.SetCoins 7 (CCoins.mk true [CTxOut.null] 3 1)) := by
    refine ⟨rfl, fun o => ?_⟩
    rw [← (sameOutputs_pruned hnone CCoins.empty rfl).unspent,
      (sameOutputs_pruned hnone (CCoins.mk true [CTxOut.null] 3 1) rfl).unspent]
  refine (sameVerdicts_iff hsame).1.mpr fun txid => ?_
  by_cases heq : txid = 7
  · rw [heq]
    rfl
  · simp [CCoinsViewCache.HaveCoins, CCoinsViewCache.coins_setCoins_ne _ heq]

end Ziftrcoin.Spec
