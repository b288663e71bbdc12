/-
Module: Ziftrcoin.Proofs.BlockAsserts
Purpose: The assertions of a block about its own data are out of reach once the
  block is known not to be empty, in every check that a block goes through.
Trusted boundary: none
Main exports: blockAsserts, errs_connectBlock
-/
import Ziftrcoin.Proofs.Connecting
import Ziftrcoin.Spec.Node

namespace Ziftrcoin.Spec

open Ziftrcoin.Lib
open Ziftrcoin.Lib.Outcome

/-- The assertions of `CalculatePoK`, `CheckProofOfWork` and `GetTxHash`. -/
def blockAsserts : List Site :=
  [.CalculatePoK_vtx, .CalculatePoK_data, .GetTxHash_tree, .GetTxHash_index]

/-- The fault is none of these assertions. -/
def OtherFault (e : Fault) : Prop := ∀ site ∈ blockAsserts, e ≠ .crash site

/-- The call does not stop at one of these assertions. -/
def OtherStop : Stop → Prop
  | .reject _ => True
  | .fault e => OtherFault e

theorem errs_reject {α : Type} (state : CValidationState) :
    Errs OtherStop (.error (.reject state) : Run α) := Errs.error trivial

/-- A check that returns false. -/
theorem errs_guard {α : Type} {c : Prop} [Decidable c] {state : CValidationState}
    {y : Run α} (h : ¬ c → Errs OtherStop y) :
    Errs OtherStop (if c then .error (.reject state) else y) :=
  Errs.ite (fun _ => errs_reject state) h

theorem otherFault_crash {site : Site} (h : site ∉ blockAsserts) :
    OtherFault (.crash site) := by
  intro site' hmem heq
  injection heq with heq
  exact h (heq ▸ hmem)

theorem errs_crash {α : Type} {site : Site} (h : site ∉ blockAsserts) :
    Errs OtherStop (Run.crash site : Run α) := Errs.error (otherFault_crash h)

theorem errs_assert {site : Site} {c : Prop} [Decidable c]
    (h : site ∉ blockAsserts ∨ c) : Errs OtherStop (Run.assert site c) := by
  unfold Run.assert
  apply Errs.ite
  · intro _
    exact Errs.ok ()
  · intro hc
    exact errs_crash (h.resolve_right hc)

theorem errs_get {α : Type} {site : Site} {xs : List α} {i : Nat}
    (h : site ∉ blockAsserts ∨ i < xs.length) :
    Errs OtherStop (Run.get site xs i) := by
  unfold Run.get
  cases hi : xs[i]? with
  | some x => exact Errs.ok x
  | none =>
      refine errs_crash (h.resolve_right fun hlt => ?_)
      rw [List.getElem?_eq_getElem hlt] at hi
      cases hi

/-- The stop is the read without a check at that place. -/
def CrashesAt (site : Site) (e : Stop) : Prop := e = .fault (.crash site)

theorem CrashesAt.otherStop {site : Site} {e : Stop} (h : CrashesAt site e)
    (hsite : site ∉ blockAsserts) : OtherStop e := by
  rw [h]
  exact otherFault_crash hsite

theorem crashesAt_get {α : Type} (site : Site) (xs : List α) (i : Nat) :
    Errs (CrashesAt site) (Run.get site xs i) := by
  unfold Run.get
  cases xs[i]? with
  | some x => exact Errs.ok x
  | none => exact Errs.error rfl

/-! ### Loops -/

theorem errs_forM {α : Type} {f : α → Run Unit} :
    ∀ {xs : List α}, (∀ x ∈ xs, Errs OtherStop (f x)) →
      Errs OtherStop (xs.forM f)
  | [], _ => Errs.ok ()
  | x :: xs, h => by
      rw [List.forM_eq_forM, List.forM_cons]
      refine (h x List.mem_cons_self).bind fun _ _ => ?_
      exact errs_forM fun y hy => h y (List.mem_cons_of_mem x hy)

theorem errs_mapM {α β : Type} {f : α → Run β} :
    ∀ {xs : List α}, (∀ x ∈ xs, Errs OtherStop (f x)) →
      Errs OtherStop (xs.mapM f)
  | [], _ => by
      rw [List.mapM_nil]
      exact Errs.ok []
  | x :: xs, h => by
      rw [List.mapM_cons]
      refine (h x List.mem_cons_self).bind fun b _ => ?_
      refine (errs_mapM fun y hy => h y (List.mem_cons_of_mem x hy)).bind
        fun bs _ => ?_
      exact Errs.ok (b :: bs)

/-! ### Blocks on their own -/

theorem errs_calculatePoK (crypto : Crypto) {block : CBlock}
    (h : block.vtx ≠ []) : Errs OtherStop (block.CalculatePoK crypto) := by
  have hpos : 0 < block.vtx.length := List.length_pos_iff.mpr h
  unfold CBlock.CalculatePoK
  apply Errs.ite
  · intro _
    exact Errs.ok _
  intro _
  refine (errs_assert (.inr hpos)).bind fun _ _ => ?_
  refine (errs_get (.inr (Nat.mod_lt _ hpos))).bind fun tx _ => ?_
  refine (errs_assert (.inr (four_le_serialize_length tx))).bind fun _ _ => ?_
  exact Errs.ok _

theorem errs_checkPOW (cfg : Config) {block : CBlock} (fCheckPOW : Bool)
    (h : block.vtx ≠ []) : Errs OtherStop (checkPOW cfg block fCheckPOW) := by
  unfold checkPOW CBlock.CheckProofOfWork
  apply Errs.ite
  · intro _
    apply Errs.ite
    · intro _
      exact Errs.ok _
    · intro _
      exact (errs_calculatePoK cfg.crypto h).bind fun _ _ => Errs.ok _
  · intro _
    exact Errs.ok _

theorem errs_checkOutputs :
    ∀ {vout : List CTxOut} {nValueOut : Int},
      Errs OtherStop (checkOutputs nValueOut vout)
  | [], _ => Errs.ok ()
  | txout :: rest, nValueOut => by
      unfold checkOutputs
      refine errs_guard fun _ => ?_
      refine errs_guard fun _ => ?_
      refine errs_guard fun _ => ?_
      exact errs_checkOutputs

theorem errs_checkTxIns {fCoinbase : Bool} :
    ∀ {vin : List CTxIn} {vInOutPoints : List COutPoint},
      Errs OtherStop (checkTxIns fCoinbase vInOutPoints vin)
  | [], _ => Errs.ok ()
  | txin :: rest, vInOutPoints => by
      unfold checkTxIns
      apply Errs.ite
      · intro _
        refine errs_guard fun _ => ?_
        refine errs_guard fun _ => ?_
        exact errs_checkTxIns
      · intro _
        refine errs_guard fun _ => ?_
        refine errs_guard fun _ => ?_
        exact errs_checkTxIns

theorem errs_checkTransaction (tx : CTransaction) :
    Errs OtherStop (CheckTransaction tx) := by
  unfold CheckTransaction
  refine errs_guard fun _ => ?_
  refine errs_guard fun _ => ?_
  refine errs_guard fun _ => ?_
  exact errs_checkOutputs.bind fun _ _ => errs_checkTxIns

/-- The emptiness check comes before the proof of work, and the Merkle tree is
built before a hash is asked for. -/
theorem errs_checkBlock (cfg : Config) (nAdjustedTime : Int) (block : CBlock)
    (nMaxBlockSize : Nat) (fCheckPOW fCheckMerkleRoot : Bool) :
    Errs OtherStop (CheckBlock cfg nAdjustedTime block nMaxBlockSize fCheckPOW
      fCheckMerkleRoot) := by
  unfold CheckBlock
  refine errs_guard fun hvtx => ?_
  refine errs_guard fun _ => ?_
  refine (errs_checkPOW cfg fCheckPOW hvtx).bind fun powOk _ => ?_
  refine errs_guard fun _ => ?_
  refine errs_guard fun _ => ?_
  refine errs_guard fun _ => ?_
  refine errs_guard fun _ => ?_
  refine (errs_forM fun tx _ => errs_checkTransaction tx).bind fun _ _ => ?_
  refine Errs.bind (x := txHashes (block.BuildMerkleTree cfg.crypto)) ?_
    fun hashes _ => ?_
  · rw [txHashes_buildMerkleTree]
    exact Errs.ok _
  refine errs_guard fun _ => ?_
  refine errs_guard fun _ => ?_
  refine errs_guard fun _ => ?_
  exact Errs.ok _

/-! ### Inputs -/

theorem errs_getCoins (view : CCoinsViewCache) (txid : uint256) :
    Errs OtherStop (view.GetCoins txid) := by
  unfold CCoinsViewCache.GetCoins
  cases view.coins txid with
  | some coins => exact Errs.ok coins
  | none => exact errs_crash (by decide)

theorem errs_getOutputFor (view : CCoinsViewCache) (txin : CTxIn) :
    Errs OtherStop (view.GetOutputFor txin) := by
  refine (errs_getCoins view _).bind fun coins _ => ?_
  refine (errs_assert (.inl (by decide))).bind fun _ _ => ?_
  exact errs_get (.inl (by decide))

theorem errs_valueOut (tx : CTransaction) : Errs OtherStop (valueOut tx) := by
  unfold valueOut
  cases tx.GetValueOut with
  | none => exact errs_reject _
  | some nValueOut => exact Errs.ok nValueOut

theorem errs_valueInFrom {view : CCoinsViewCache} :
    ∀ {vin : List CTxIn} {nResult : Int},
      Errs OtherStop (view.valueInFrom nResult vin)
  | [], nResult => Errs.ok nResult
  | txin :: _, _ =>
      (errs_getOutputFor view txin).bind fun _ _ => errs_valueInFrom

theorem errs_getValueIn (view : CCoinsViewCache) (tx : CTransaction) :
    Errs OtherStop (view.GetValueIn tx) :=
  Errs.ite (fun _ => Errs.ok 0) fun _ => errs_valueInFrom

theorem errs_p2shSigOpsFrom {view : CCoinsViewCache} :
    ∀ {vin : List CTxIn} {nSigOps : Nat},
      Errs OtherStop (p2shSigOpsFrom view nSigOps vin)
  | [], nSigOps => Errs.ok nSigOps
  | txin :: _, _ =>
      (errs_getOutputFor view txin).bind fun _ _ => errs_p2shSigOpsFrom

theorem errs_verifyScript (ctx : ScriptContext)
    (scriptSig scriptPubKey : CScript) :
    Errs OtherStop (VerifyScript ctx scriptSig scriptPubKey) := by
  unfold VerifyScript
  cases EvalScript ctx [] scriptSig with
  | none => exact Errs.ok _
  | some stackCopy =>
      dsimp only
      cases EvalScript ctx stackCopy scriptPubKey with
      | none => exact Errs.ok _
      | some stack =>
          refine Errs.ite (fun _ => Errs.ok _) fun _ => ?_
          refine Errs.ite (fun _ => ?_) fun _ => Errs.ok _
          refine Errs.ite (fun _ => Errs.ok _) fun _ => ?_
          cases stackCopy with
          | nil => exact errs_crash (by decide)
          | cons pubKeySerialized stackCopy =>
              dsimp only
              cases EvalScript ctx stackCopy pubKeySerialized with
              | none => exact Errs.ok _
              | some stack => exact Errs.ok _

theorem errs_checkInputValues {inputs : CCoinsViewCache} {nSpendHeight : Int} :
    ∀ {vin : List CTxIn} {nValueIn : Int},
      Errs OtherStop (checkInputValues inputs nSpendHeight nValueIn vin)
  | [], nValueIn => Errs.ok nValueIn
  | txin :: _, _ => by
      refine (errs_getCoins inputs _).bind fun coins _ => ?_
      refine (errs_get (.inl (by decide))).bind fun txout _ => ?_
      refine errs_guard fun _ => ?_
      refine errs_guard fun _ => ?_
      exact errs_checkInputValues

theorem errs_scriptCheckOf (inputs : CCoinsViewCache) (tx : CTransaction)
    (flags : ScriptFlags) (txin : CTxIn) (i : Nat) :
    Errs OtherStop (scriptCheckOf inputs tx flags txin i) := by
  refine (errs_getCoins inputs _).bind fun coins _ => ?_
  exact (errs_get (.inl (by decide))).bind fun _ _ => Errs.ok _

theorem errs_runCheckNow (crypto : Crypto) (check : CScriptCheck) :
    Errs OtherStop (runCheckNow crypto check) := by
  refine (errs_verifyScript _ _ _).bind fun ok _ => ?_
  refine Errs.ite (fun _ => ?_) fun _ => Errs.ok ()
  refine Errs.ite (fun _ => ?_) fun _ => errs_reject _
  refine (errs_verifyScript _ _ _).bind fun ok' _ => ?_
  exact errs_guard fun _ => errs_reject _

theorem errs_spendHeight (prevHeight : uint256 → Option Nat)
    (inputs : CCoinsViewCache) :
    Errs OtherStop (spendHeight prevHeight inputs) := by
  unfold spendHeight
  cases prevHeight inputs.hashBlock with
  | none => exact errs_crash (by decide)
  | some nHeight => exact Errs.ok _

theorem errs_checkInputs (crypto : Crypto) (prevHeight : uint256 → Option Nat)
    (tx : CTransaction) (inputs : CCoinsViewCache) (fScriptChecks : Bool)
    (flags : ScriptFlags) (fDefer : Bool) :
    Errs OtherStop (CheckInputs crypto prevHeight tx inputs fScriptChecks flags
      fDefer) := by
  unfold CheckInputs
  refine Errs.ite (fun _ => Errs.ok []) fun _ => ?_
  refine errs_guard fun _ => ?_
  refine (errs_spendHeight prevHeight inputs).bind fun nSpendHeight _ => ?_
  refine errs_checkInputValues.bind fun nValueIn _ => ?_
  refine (errs_valueOut tx).bind fun nValueOut _ => ?_
  refine errs_guard fun _ => ?_
  refine errs_guard fun _ => ?_
  refine errs_guard fun _ => ?_
  refine Errs.ite (fun _ => Errs.ok []) fun _ => ?_
  refine (errs_mapM fun p _ => errs_scriptCheckOf inputs tx flags p.1 p.2).bind
    fun vChecks _ => ?_
  refine Errs.ite (fun _ => Errs.ok _) fun _ => ?_
  exact (errs_forM fun check _ => errs_runCheckNow crypto check).bind
    fun _ _ => Errs.ok _

/-! ### Connecting and disconnecting -/

theorem errs_spendInputs :
    ∀ {vin : List CTxIn} {view : CCoinsViewCache},
      Errs OtherStop (spendInputs view vin)
  | [], view => Errs.ok (view, [])
  | txin :: _, view => by
      unfold spendInputs
      refine Errs.bind ?_ fun _ _ => errs_spendInputs.bind fun _ _ => Errs.ok _
      unfold spendInput
      refine (errs_getCoins view _).bind fun coins _ => ?_
      cases coins.Spend txin.prevout.n with
      | none => exact errs_crash (by decide)
      | some r => exact Errs.ok _

theorem errs_updateCoins (tx : CTransaction) (inputs : CCoinsViewCache)
    (nHeight : Nat) (txhash : uint256) :
    Errs OtherStop (UpdateCoins tx inputs nHeight txhash) := by
  refine Errs.bind ?_ fun _ _ => Errs.ok _
  exact Errs.ite (fun _ => Errs.ok _) fun _ => errs_spendInputs

theorem errs_connectInputs (cfg : Config) (ctx : BlockContext)
    (fScriptChecks : Bool) (acc : ConnectState) (tx : CTransaction) :
    Errs OtherStop (connectInputs cfg ctx fScriptChecks acc tx) := by
  unfold connectInputs
  refine Errs.ite (fun _ => Errs.ok acc) fun _ => ?_
  refine errs_guard fun _ => ?_
  have hp2sh : Errs OtherStop (GetP2SHSigOpCount tx acc.view) :=
    Errs.ite (fun _ => Errs.ok 0) fun _ => errs_p2shSigOpsFrom
  refine hp2sh.bind fun nP2SH _ => ?_
  refine errs_guard fun _ => ?_
  refine (errs_getValueIn acc.view tx).bind fun nValueIn _ => ?_
  refine (errs_valueOut tx).bind fun nValueOut _ => ?_
  exact (errs_checkInputs _ _ _ _ _ _ _).bind fun _ _ => Errs.ok _

/-- A round asks the tree for the hash of a transaction that is there. -/
theorem errs_connectTx (cfg : Config) (ctx : BlockContext) (fScriptChecks : Bool)
    {block : CBlock} (acc : ConnectState) {txi : CTransaction × Nat}
    (h : txi ∈ block.vtx.zipIdx) :
    Errs OtherStop (connectTx cfg ctx fScriptChecks
      (block.BuildMerkleTree cfg.crypto) acc txi) := by
  obtain ⟨tx, i⟩ := txi
  have hi : block.vtx[i]? = some tx := List.mem_zipIdx_iff_getElem?.mp h
  unfold connectTx
  refine errs_guard fun _ => ?_
  refine (errs_connectInputs _ _ _ _ _).bind fun acc' _ => ?_
  rw [getTxHash_buildMerkleTree hi, ok_bind]
  exact (errs_updateCoins _ _ _ _).bind fun _ _ => Errs.ok _

theorem errs_connectBlock (cfg : Config) (ctx : BlockContext) (block : CBlock)
    (view : CCoinsViewCache) (fJustCheck : Bool) :
    Errs OtherStop (ConnectBlock cfg ctx block view fJustCheck) := by
  unfold ConnectBlock
  refine (errs_checkBlock _ _ _ _ _ _).bind fun block' hblock' => ?_
  obtain ⟨rfl, -⟩ := checkBlock_ok hblock'
  refine (errs_assert (.inl (by decide))).bind fun _ _ => ?_
  refine Errs.bind ?_ fun _ _ => ?_
  · unfold checkOverwrite
    rw [txHashes_buildMerkleTree, ok_bind]
    exact errs_guard fun _ => Errs.ok ()
  refine Errs.bind ?_ fun acc _ => ?_
  · exact Errs.foldlM (fun _ => True) trivial
      (fun txi hmem acc _ => errs_connectTx cfg ctx _ acc hmem)
      (fun _ _ _ _ _ _ => trivial)
  refine (errs_get (.inl (by decide))).bind fun coinbase _ => ?_
  refine (errs_valueOut coinbase).bind fun nValueOut _ => ?_
  refine errs_guard fun _ => ?_
  refine (errs_mapM fun check _ => errs_verifyScript _ _ _).bind
    fun checks _ => ?_
  refine errs_guard fun _ => ?_
  exact Errs.ite (fun _ => Errs.ok _) fun _ => Errs.ok _

theorem errs_disconnectTxs {crypto : Crypto} {nHeight : Nat} {acc : DisconnectState} :
    ∀ {txs : List (CTransaction × Option CTxUndo)},
      Errs OtherStop (disconnectTxs crypto nHeight acc txs)
  | [] => Errs.ok acc
  | (tx, txundo) :: _ => by
      refine errs_disconnectTxs.bind fun acc' _ => ?_
      unfold disconnectTx
      cases txundo with
      | none => exact Errs.ok _
      | some vprevout => exact Errs.ite (fun _ => errs_reject _) fun _ => Errs.ok _

theorem errs_disconnectBlock (crypto : Crypto) (ctx : BlockContext)
    (block : CBlock) (blockUndo : Option CBlockUndo) (view : CCoinsViewCache) :
    Errs OtherStop (DisconnectBlock crypto ctx block blockUndo view) := by
  refine (errs_assert (.inl (by decide))).bind fun _ _ => ?_
  cases blockUndo with
  | none => exact errs_reject _
  | some vtxundo =>
      cases ctx.hashPrev with
      | none => exact errs_crash (by decide)
      | some hashPrev =>
          refine Errs.ite (fun _ => errs_reject _) fun _ => ?_
          exact errs_disconnectTxs.bind fun _ _ => Errs.ok _

/-! ### The pool -/

theorem errs_standardTxOk (cfg : Config) (tx : CTransaction) :
    Errs OtherStop (standardTxOk cfg tx) := by
  refine Errs.ite (fun _ => ?_) fun _ => Errs.ok ()
  cases IsStandardTx cfg.nMinRelayTxFee tx with
  | error reason => exact errs_reject _
  | ok _ => exact Errs.ok ()

theorem errs_standardInputsOk (cfg : Config) (tx : CTransaction)
    (view : CCoinsViewCache) : Errs OtherStop (standardInputsOk cfg tx view) := by
  refine Errs.ite (fun _ => ?_) fun _ => Errs.ok true
  refine Errs.ite (fun _ => Errs.ok true) fun _ => ?_
  refine (errs_mapM fun p _ => ?_).bind fun _ _ => Errs.ok _
  refine (errs_getOutputFor view p.1).bind fun prev _ => ?_
  cases EvalScript _ _ _ with
  | none => exact Errs.ok _
  | some stack => exact Errs.ok _

theorem errs_acceptToMemoryPool (cfg : Config) (ctx : PoolContext)
    (pool : CTxMemPool) (tx : CTransaction) (fLimitFree fRejectInsaneFee : Bool) :
    Errs OtherStop (AcceptToMemoryPool cfg ctx pool tx fLimitFree
      fRejectInsaneFee) := by
  refine (errs_checkTransaction tx).bind fun _ _ => ?_
  refine errs_guard fun _ => ?_
  refine (errs_standardTxOk cfg tx).bind fun _ _ => ?_
  refine errs_guard fun _ => ?_
  refine errs_guard fun _ => ?_
  refine errs_guard fun _ => ?_
  refine errs_guard fun _ => ?_
  refine errs_guard fun _ => ?_
  refine errs_guard fun _ => ?_
  refine (errs_standardInputsOk cfg tx _).bind fun fStandard _ => ?_
  refine errs_guard fun _ => ?_
  refine (errs_getValueIn _ tx).bind fun nValueIn _ => ?_
  refine (errs_valueOut tx).bind fun nValueOut _ => ?_
  refine errs_guard fun _ => ?_
  refine errs_guard fun _ => ?_
  refine errs_guard fun _ => ?_
  exact (errs_checkInputs _ _ _ _ _ _ _).bind fun _ _ => Errs.ok _

/-! ### The pool -/

/-- How taking transactions out of the pool stops. -/
def PoolStop (e : Stop) : Prop :=
  e = .fault .outOfFuel ∨ e = .fault (.crash .mempoolRemove)

theorem PoolStop.other {e : Stop} (h : PoolStop e) : OtherStop e := by
  rcases h with rfl | rfl
  · intro site _ heq
    cases heq
  · intro site hmem heq
    injection heq with heq
    exact absurd (heq ▸ hmem) (by decide)

theorem poolStop_remove {crypto : Crypto} :
    ∀ {fuel : Nat} {tx : CTransaction} {fRecursive : Bool}
      {acc : CTxMemPool × List CTransaction},
      Errs PoolStop (CTxMemPool.remove crypto fuel tx fRecursive acc)
  | 0, _, _, _ => Errs.error (.inl rfl)
  | fuel + 1, tx, fRecursive, acc => by
      unfold CTxMemPool.remove
      refine Errs.bind ?_ fun _ _ => Errs.ok _
      refine Errs.foldlM (fun _ => True) trivial (fun i _ acc _ => ?_)
        (fun _ _ _ _ _ _ => trivial)
      cases acc.1.mapNextTx.lookup ⟨tx.GetHash crypto, i⟩ with
      | none => exact Errs.ok acc
      | some it =>
          dsimp only
          cases acc.1.mapTx.lookup it.ptx with
          | none => exact Errs.error (.inr rfl)
          | some child => exact poolStop_remove

theorem poolStop_removeConflicts (crypto : Crypto) (tx : CTransaction)
    (acc : CTxMemPool × List CTransaction) :
    Errs PoolStop (CTxMemPool.removeConflicts crypto tx acc) := by
  refine Errs.foldlM (fun _ => True) trivial (fun txin _ acc _ => ?_)
    (fun _ _ _ _ _ _ => trivial)
  cases acc.1.mapNextTx.lookup txin.prevout with
  | none => exact Errs.ok acc
  | some it =>
      dsimp only
      cases acc.1.mapTx.lookup it.ptx with
      | none => exact Errs.error (.inr rfl)
      | some txConflict => exact Errs.ite (fun _ => poolStop_remove) fun _ => Errs.ok _

end Ziftrcoin.Spec
