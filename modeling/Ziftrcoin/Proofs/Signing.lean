/-
Module: Ziftrcoin.Proofs.Signing
Purpose: What a signature script is checked against, and what the signing loop
  does to the transaction: an input that is not delayed changes its own
  signature script and nothing else.
Trusted boundary: none
Main exports: CTransaction.unsigned, signInputs_nSequence
-/
import Ziftrcoin.Spec.CreateTransaction

namespace Ziftrcoin.Spec

open Ziftrcoin.Lib.Outcome

/-! ### Signature scripts are not signed -/

/-- The transaction with every signature script left out. -/
def CTransaction.unsigned (tx : CTransaction) : CTransaction :=
  { tx with vin := tx.vin.map fun txin => { txin with scriptSig := [] } }

theorem signatureHash_unsigned (crypto : Crypto) (scriptCode : CScript)
    (tx : CTransaction) (nIn nHashType : ℕ) :
    SignatureHash crypto scriptCode tx.unsigned nIn nHashType =
      SignatureHash crypto scriptCode tx nIn nHashType := by
  have hget : (tx.vin.map fun txin => { txin with scriptSig := [] }).getD nIn default =
      { tx.vin.getD nIn default with scriptSig := [] } := by
    rw [List.getD_eq_getElem?_getD, List.getD_eq_getElem?_getD, List.getElem?_map]
    cases tx.vin[nIn]? <;> rfl
  have hinputs : ∀ f : ℕ → CTxIn → valtype,
      (tx.vin.map fun txin => { txin with scriptSig := [] }).mapIdx f =
        tx.vin.mapIdx fun i txin => f i { txin with scriptSig := [] } := by
    intro f
    rw [List.mapIdx_eq_iff]
    intro i
    rw [List.getElem?_mapIdx, List.getElem?_map, Option.map_map]
    rfl
  simp only [SignatureHash, CTransaction.unsigned, hget, List.length_map, hinputs]

/-- The evaluation context without signature scripts. -/
def ScriptContext.unsigned (ctx : ScriptContext) : ScriptContext :=
  { ctx with txTo := ctx.txTo.unsigned }

section
variable {crypto : Crypto} {keystore : CKeyStore} {fromPubKey : CScript}
  {tx tx' : CTransaction} {nIn nHashType : ℕ}

/-- A signature that succeeds has passed the test at its end. -/
theorem signSignature_ok :
    SignSignature crypto keystore fromPubKey tx nIn nHashType = .ok (some tx') ↔
      ∃ scriptSig, solveInput crypto keystore fromPubKey (putDelay fromPubKey tx nIn) nIn
          nHashType = some scriptSig ∧
        tx' = (putDelay fromPubKey tx nIn).setScriptSig nIn scriptSig ∧
        VerifyScript ⟨crypto, tx', nIn, SCRIPT_VERIFY_P2SH_STRICTENC⟩ scriptSig
          fromPubKey = .ok true := by
  simp only [SignSignature]
  cases hsolve : solveInput crypto keystore fromPubKey (putDelay fromPubKey tx nIn) nIn
      nHashType with
  | none => simp
  | some scriptSig =>
      simp only [Option.some.injEq, exists_eq_left']
      constructor
      · intro h
        split at h
        · rename_i hverify
          injection h with h
          injection h with h
          subst h
          exact ⟨rfl, hverify⟩
        · cases h
        · cases h
      · rintro ⟨rfl, hverify⟩
        rw [hverify]

end

namespace CTransaction

@[simp] theorem unsigned_setScriptSig (tx : CTransaction) (nIn : ℕ) (scriptSig : CScript) :
    (tx.setScriptSig nIn scriptSig).unsigned = tx.unsigned := by
  have hvin : (tx.vin.modify nIn fun txin => { txin with scriptSig }).map
      (fun txin => { txin with scriptSig := [] }) =
        tx.vin.map fun txin => { txin with scriptSig := [] } := by
    apply List.ext_getElem?
    intro i
    rw [List.getElem?_map, List.getElem?_modify, List.getElem?_map]
    cases tx.vin[i]? <;> by_cases h : nIn = i <;> simp [h]
  simp only [unsigned, setScriptSig, hvin]

theorem getElem?_setScriptSig (tx : CTransaction) (nIn : ℕ) (scriptSig : CScript) (i : ℕ) :
    (tx.setScriptSig nIn scriptSig).vin[i]? =
      tx.vin[i]?.map fun txin => if nIn = i then { txin with scriptSig } else txin := by
  rw [setScriptSig, List.getElem?_modify]
  by_cases h : nIn = i
  · simp only [h, if_true]
    rfl
  · simp only [h, if_false]
    rfl

end CTransaction

theorem signatureHash_setScriptSig (crypto : Crypto) (scriptCode : CScript)
    (tx : CTransaction) (nIn : ℕ) (scriptSig : CScript) (nHashType : ℕ) :
    SignatureHash crypto scriptCode (tx.setScriptSig nIn scriptSig) nIn nHashType =
      SignatureHash crypto scriptCode tx nIn nHashType := by
  rw [← signatureHash_unsigned, CTransaction.unsigned_setScriptSig, signatureHash_unsigned]

/-! ### The delay of an input -/

theorem putDelay_none {fromPubKey : CScript} (h : fromPubKey.GetDelay = none)
    (tx : CTransaction) (nIn : ℕ) : putDelay fromPubKey tx nIn = tx := by
  simp only [putDelay, h]

@[simp] theorem putDelay_vout (fromPubKey : CScript) (tx : CTransaction) (nIn : ℕ) :
    (putDelay fromPubKey tx nIn).vout = tx.vout := by
  unfold putDelay
  split <;> rfl

/-- The sequence number of an input with the script, once it is signed. -/
def delayedSequence (fromPubKey : CScript) (nSequence : ℕ) : ℕ :=
  if fromPubKey.GetDelay.isSome ∧ nSequence = UINT_MAX then UINT_MAX - 1 else nSequence

theorem getElem?_putDelay (fromPubKey : CScript) (tx : CTransaction) (nIn i : ℕ) :
    (putDelay fromPubKey tx nIn).vin[i]? =
      tx.vin[i]?.map fun txin =>
        if nIn = i then
          { txin with nSequence := delayedSequence fromPubKey txin.nSequence }
        else txin := by
  unfold putDelay delayedSequence
  cases hdelay : fromPubKey.GetDelay with
  | none => simp
  | some nDelay =>
      simp only [CTransaction.unsetFinal, List.getElem?_modify, Option.isSome_some, true_and]
      cases tx.vin[i]? with
      | none => rfl
      | some txin =>
          by_cases h : nIn = i
          · by_cases hmax : txin.nSequence = UINT_MAX <;>
              simp [h, hmax]
          · simp [h]

/-! ### The signing loop -/

/-- The script of the output that a coin names. -/
def Coin.fromPubKey (coin : Coin) : Option CScript :=
  (coin.wtx.vout[coin.n]?).map CTxOut.scriptPubKey

/-- The output that a coin names is a delayed one. -/
def Coin.isDelayed (coin : Coin) : Bool :=
  (coin.fromPubKey.bind CScript.GetDelay).isSome

section
variable {crypto : Crypto} {keystore : ℕ → CKeyStore}

/-- Signing goes on only after a coin that exists was signed. -/
theorem signInputs_cons {nIn : ℕ} {coin : Coin} {setCoins : List Coin}
    {tx tx' : CTransaction} :
    signInputs crypto keystore nIn (coin :: setCoins) tx = .ok tx' ↔
      ∃ fromPubKey tx₁, coin.fromPubKey = some fromPubKey ∧
        SignSignature crypto (keystore nIn) fromPubKey tx nIn SIGHASH_ALL =
          .ok (some tx₁) ∧
        signInputs crypto keystore (nIn + 1) setCoins tx₁ = .ok tx' := by
  rw [signInputs, Coin.fromPubKey]
  cases coin.wtx.vout[coin.n]? with
  | none => simp
  | some txout =>
      simp only [Option.map_some, Option.some.injEq, exists_and_left, exists_eq_left']
      cases SignSignature crypto (keystore nIn) txout.scriptPubKey tx nIn SIGHASH_ALL with
      | error stop => simp
      | ok signed => cases signed <;> simp

/-- Two transactions with the same outputs and the same spent outputs, and with
the same inputs outside of `S`. -/
structure AgreeOutside (S : ℕ → Prop) (tx tx' : CTransaction) : Prop where
  vout : tx'.vout = tx.vout
  prevout : tx'.vin.map CTxIn.prevout = tx.vin.map CTxIn.prevout
  vin : ∀ i : ℕ, ¬ S i → tx'.vin[i]? = tx.vin[i]?

namespace AgreeOutside

variable {S T : ℕ → Prop} {tx tx' tx'' : CTransaction}

theorem refl (S : ℕ → Prop) (tx : CTransaction) : AgreeOutside S tx tx :=
  ⟨rfl, rfl, fun _ _ => rfl⟩

theorem trans (h : AgreeOutside S tx tx') (h' : AgreeOutside S tx' tx'') :
    AgreeOutside S tx tx'' :=
  ⟨h'.vout.trans h.vout, h'.prevout.trans h.prevout,
    fun i hi => (h'.vin i hi).trans (h.vin i hi)⟩

theorem mono (h : AgreeOutside S tx tx') (hle : ∀ i, S i → T i) : AgreeOutside T tx tx' :=
  ⟨h.vout, h.prevout, fun i hi => h.vin i (mt (hle i) hi)⟩

theorem length (h : AgreeOutside S tx tx') : tx'.vin.length = tx.vin.length := by
  simpa using congrArg List.length h.prevout

end AgreeOutside

theorem agreeOutside_setScriptSig (tx : CTransaction) (nIn : ℕ) (scriptSig : CScript) :
    AgreeOutside (fun i => i = nIn) tx (tx.setScriptSig nIn scriptSig) := by
  refine ⟨rfl, List.ext_getElem? fun i => ?_, fun i hi => ?_⟩
  · rw [List.getElem?_map, CTransaction.getElem?_setScriptSig, List.getElem?_map,
      Option.map_map]
    congr 1
    funext txin
    by_cases hi : nIn = i <;> simp [hi]
  · rw [CTransaction.getElem?_setScriptSig]
    cases tx.vin[i]? with
    | none => rfl
    | some txin => simp [Ne.symm hi]

theorem agreeOutside_putDelay (fromPubKey : CScript) (tx : CTransaction) (nIn : ℕ) :
    AgreeOutside (fun i => i = nIn) tx (putDelay fromPubKey tx nIn) := by
  refine ⟨putDelay_vout fromPubKey tx nIn, List.ext_getElem? fun i => ?_, fun i hi => ?_⟩
  · rw [List.getElem?_map, getElem?_putDelay, List.getElem?_map, Option.map_map]
    congr 1
    funext txin
    by_cases hi : nIn = i <;> simp [hi]
  · rw [getElem?_putDelay]
    cases tx.vin[i]? with
    | none => rfl
    | some txin => simp [Ne.symm hi]

/-- A signature leaves all other inputs as they are. -/
theorem signSignature_agree {keystore : CKeyStore} {fromPubKey : CScript}
    {tx tx' : CTransaction} {nIn nHashType : ℕ}
    (h : SignSignature crypto keystore fromPubKey tx nIn nHashType = .ok (some tx')) :
    AgreeOutside (fun i => i = nIn) tx tx' := by
  obtain ⟨scriptSig, _, rfl, _⟩ := signSignature_ok.mp h
  exact (agreeOutside_putDelay fromPubKey tx nIn).trans
    (agreeOutside_setScriptSig _ nIn scriptSig)

/-- The loop changes the inputs of its coins. -/
theorem signInputs_agree {setCoins : List Coin} :
    ∀ {nIn : ℕ} {tx tx' : CTransaction},
    signInputs crypto keystore nIn setCoins tx = .ok tx' →
      AgreeOutside (fun i => nIn ≤ i ∧ i < nIn + setCoins.length) tx tx' := by
  induction setCoins with
  | nil =>
      intro nIn tx tx' h
      obtain rfl : tx = tx' := by simpa [signInputs] using h
      exact .refl _ _
  | cons coin setCoins ih =>
      intro nIn tx tx' h
      obtain ⟨fromPubKey, tx₁, _, hsign, hrest⟩ := signInputs_cons.mp h
      have hfirst : AgreeOutside
          (fun i => nIn ≤ i ∧ i < nIn + (coin :: setCoins).length) tx tx₁ := by
        refine (signSignature_agree hsign).mono fun i hi => ?_
        rw [List.length_cons]
        omega
      refine hfirst.trans ((ih hrest).mono fun i hi => ?_)
      rw [List.length_cons]
      omega

end

end Ziftrcoin.Spec
