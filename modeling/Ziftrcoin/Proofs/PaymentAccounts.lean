/-
Module: Ziftrcoin.Proofs.PaymentAccounts
Purpose: The rounds of a payment come to an end, and what it returns accounts
  for every coin that it spends.
Trusted boundary: none
Main exports: PaysWith, createTransaction_accounts
-/
import Ziftrcoin.Proofs.CoinChoice
import Ziftrcoin.Proofs.MatureCoins
import Ziftrcoin.Proofs.Payments

namespace Ziftrcoin.Spec

open Ziftrcoin.Lib
open Ziftrcoin.Lib.Outcome

/-! ### The coins that a wallet offers -/

section
variable {view : WalletView} {fCheckForDelayScripts fOnlyConfirmed : Bool}
  {coinControl : Option CCoinControl}

theorem mem_availableOutputs {pcoin : CWalletTx} {output : COutput}
    (h : output ∈ availableOutputs view fCheckForDelayScripts coinControl pcoin) :
    output.tx = pcoin ∧ ∃ txout, pcoin.tx.vout[output.i]? = some txout := by
  obtain ⟨⟨txout, i⟩, hmem, hout⟩ := List.mem_filterMap.mp h
  rw [Option.ite_none_right_eq_some, Option.some.injEq] at hout
  obtain ⟨-, rfl⟩ := hout
  exact ⟨rfl, txout, List.mk_mem_zipIdx_iff_getElem?.mp hmem⟩

/-- The outputs that are offered of a transaction. -/
def offeredOutputs (view : WalletView) (fCheckForDelayScripts fOnlyConfirmed : Bool)
    (coinControl : Option CCoinControl) (pcoin : CWalletTx) : List COutput :=
  if IsFinalTx view.nHeight view.nAdjustedTime pcoin.tx 0 0 = false then []
  else if fOnlyConfirmed = true ∧ pcoin.IsTrusted = false then []
  else if pcoin.tx.IsCoinBase = true ∧ 0 < pcoin.GetBlocksToMaturity then []
  else if pcoin.GetDepthInMainChain < 0 then []
  else availableOutputs view fCheckForDelayScripts coinControl pcoin

theorem offeredOutputs_sublist (pcoin : CWalletTx) :
    (offeredOutputs view fCheckForDelayScripts fOnlyConfirmed coinControl pcoin).Sublist
      (availableOutputs view fCheckForDelayScripts coinControl pcoin) := by
  unfold offeredOutputs
  split_ifs
  all_goals first | exact List.nil_sublist _ | exact List.Sublist.refl _

theorem mem_availableCoins {output : COutput}
    (h : output ∈ AvailableCoins view fCheckForDelayScripts fOnlyConfirmed coinControl) :
    output.tx ∈ view.mapWallet ∧ ∃ txout, output.tx.tx.vout[output.i]? = some txout := by
  obtain ⟨pcoin, hwallet, hmem⟩ := List.mem_flatMap.mp h
  obtain ⟨rfl, hout⟩ := mem_availableOutputs ((offeredOutputs_sublist pcoin).subset hmem)
  exact ⟨hwallet, hout⟩

theorem filterMap_map_sublist {α β γ : Type} {f : α → Option β} {g : β → γ} {k : α → γ}
    (h : ∀ a b, f a = some b → g b = k a) : ∀ l : List α,
      ((l.filterMap f).map g).Sublist (l.map k)
  | [] => List.Sublist.refl _
  | a :: l => by
      cases hf : f a with
      | none =>
          rw [List.filterMap_cons_none hf]
          exact (filterMap_map_sublist h l).cons _
      | some b =>
          rw [List.filterMap_cons_some hf, List.map_cons, List.map_cons, h a b hf]
          exact (filterMap_map_sublist h l).cons_cons _

theorem availableOutputs_distinct (pcoin : CWalletTx) :
    ((availableOutputs view fCheckForDelayScripts coinControl pcoin).map COutput.coin).Nodup := by
  have hsub : ((availableOutputs view fCheckForDelayScripts coinControl pcoin).map
      COutput.i).Sublist (pcoin.tx.vout.zipIdx.map Prod.snd) :=
    filterMap_map_sublist (fun ⟨txout, i⟩ output hout => by
      rw [Option.ite_none_right_eq_some, Option.some.injEq] at hout
      obtain ⟨-, rfl⟩ := hout
      rfl) _
  refine List.Nodup.of_map Prod.snd ?_
  rw [List.map_map]
  refine List.Nodup.sublist hsub ?_
  rw [List.zipIdx_map_snd]
  exact List.nodup_range'

/-- No output is offered twice. -/
theorem availableCoins_distinct (hwallet : view.mapWallet.Nodup) :
    ((AvailableCoins view fCheckForDelayScripts fOnlyConfirmed coinControl).map
      COutput.coin).Nodup := by
  change ((view.mapWallet.flatMap (offeredOutputs view fCheckForDelayScripts fOnlyConfirmed
    coinControl)).map COutput.coin).Nodup
  rw [List.map_flatMap, List.nodup_flatMap]
  constructor
  · intro pcoin _
    exact (availableOutputs_distinct pcoin).sublist ((offeredOutputs_sublist pcoin).map _)
  · refine hwallet.imp fun hne coin hcoin hcoin' => hne ?_
    obtain ⟨output, hmem, rfl⟩ := List.mem_map.mp hcoin
    obtain ⟨output', hmem', heq⟩ := List.mem_map.mp hcoin'
    have htx := (mem_availableOutputs ((offeredOutputs_sublist _).subset hmem)).1
    have htx' := (mem_availableOutputs ((offeredOutputs_sublist _).subset hmem')).1
    rw [← htx, ← htx']
    exact (congrArg Prod.fst heq).symm

end

/-! ### The coins of a round -/

/-- What `SelectCoins` finds pays the target. -/
theorem selectCoins_chosen {crypto : Crypto} (wallet : Wallet crypto)
    {bSpendZeroConfChange : Bool} {random : ℕ → SelectRandom} {T : ℤ}
    {coinControl : Option CCoinControl} (hcent : int64 (T + CENT) = T + CENT)
    {ret : List WalletCoin × ℤ}
    (h : SelectCoins wallet.view bSpendZeroConfChange random T coinControl = some ret) :
    ChosenCoins (AvailableCoins wallet.view true true coinControl) T ret.1 ret.2 := by
  have hdistinct := @availableCoins_distinct wallet.view true true coinControl
    (List.Nodup.of_map _ wallet.distinct)
  have hmax : MAX_MONEY_SATOSHIS = 1200000000000000 := by decide
  have h64 : ∀ o ∈ AvailableCoins wallet.view true true coinControl,
      int64 o.nValue = o.nValue := by
    intro o ho
    obtain ⟨hwallet, txout, hout⟩ := mem_availableCoins ho
    have hrange := moneyRange_iff.mp
      (wallet.inRange o.tx hwallet txout (List.mem_of_getElem? hout))
    have hvalue : o.nValue = txout.nValue := by
      rw [COutput.nValue, hout]
      rfl
    rw [hvalue]
    exact int64_eq_self (by omega) (by omega)
  unfold SelectCoins at h
  dsimp only at h
  split at h
  · rw [Option.ite_none_right_eq_some] at h
    obtain ⟨henough, hret⟩ := h
    have hvalued : (AvailableCoins wallet.view true true coinControl).map
        (fun out => (out.nValue, out.coin)) =
      (AvailableCoins wallet.view true true coinControl).map COutput.valued := rfl
    rw [hvalued] at henough hret
    rw [← Option.some.inj hret]
    refine chosen_of_subperm hdistinct (List.Subperm.refl _) ?_
    rw [addCoins_eq (by rw [List.map_map]; exact hdistinct)] at henough
    exact henough
  split at h
  · next ret' hfound =>
      rw [← Option.some.inj h]
      exact selectCoinsMinConf_chosen hdistinct h64 _ hcent hfound
  split at h
  · next ret' hfound =>
      rw [← Option.some.inj h]
      exact selectCoinsMinConf_chosen hdistinct h64 _ hcent hfound
  · rw [Option.ite_none_right_eq_some] at h
    exact selectCoinsMinConf_chosen hdistinct h64 _ hcent h.2

/-- The value of the output, `coin.first->vout[coin.second].nValue`. -/
def Coin.nValue (coin : Coin) : ℤ := ((coin.wtx.vout[coin.n]?).map CTxOut.nValue).getD 0

/-- The coins pay the target, in 64-bit arithmetic. -/
structure PaysWith (nTargetValue : ℤ) (setCoins : List Coin) (nValueIn : ℤ) : Prop where
  inRange : ∀ coin ∈ setCoins, MoneyRange coin.nValue = true
  value : nValueIn = int64 (setCoins.map Coin.nValue).sum
  enough : nTargetValue ≤ nValueIn

/-- Coins that fit into a transaction of standard size are worth what the 64-bit number
says. -/
theorem PaysWith.exact {T nValueIn : ℤ} {setCoins : List Coin} (h : PaysWith T setCoins nValueIn)
    (hlen : setCoins.length * 41 < MAX_STANDARD_TX_SIZE) :
    nValueIn = (setCoins.map Coin.nValue).sum := by
  have hmax : MAX_MONEY_SATOSHIS = 1200000000000000 := by decide
  have hrange : ∀ n ∈ setCoins.map Coin.nValue, 0 ≤ n ∧ n ≤ MAX_MONEY_SATOSHIS := by
    intro n hn
    obtain ⟨coin, hcoin, rfl⟩ := List.mem_map.mp hn
    exact moneyRange_iff.mp (h.inRange coin hcoin)
  have hlow := List.sum_nonneg fun n hn => (hrange n hn).1
  have hhigh := List.sum_le_card_nsmul _ _ fun n hn => (hrange n hn).2
  rw [List.length_map, nsmul_eq_mul, hmax] at hhigh
  unfold MAX_STANDARD_TX_SIZE at hlen
  rw [h.value, int64_eq_self (by omega) (by omega)]

/-- Each input takes at least 41 bytes. -/
theorem vin_length_mul_le (tx : CTransaction) : tx.vin.length * 41 ≤ tx.GetSerializeSize := by
  have hin : ∀ txin : CTxIn, 41 ≤ txin.serialize.length := by
    intro txin
    have hcompact : 1 ≤ (writeCompactSize txin.scriptSig.length).length := by
      unfold writeCompactSize
      split_ifs <;> simp
    simp only [CTxIn.serialize, COutPoint.serialize, serializeBytes, List.length_append,
      leBytes_length]
    omega
  have hvin := length_serializeVector_ge hin tx.vin
  simp only [CTransaction.GetSerializeSize, CTransaction.serialize, List.length_append]
  omega

/-! ### The fee -/

/-- The fee settings are in the money range. -/
structure FeeSettings (calls : CreateCalls) : Prop where
  nTransactionFee : MoneyRange calls.nTransactionFee = true
  nMinTxFee : MoneyRange calls.nMinTxFee = true

/-- The largest fee of a transaction of standard size. -/
def maxFee (calls : CreateCalls) : ℤ := 100 * max calls.nTransactionFee calls.nMinTxFee

/-- The fee per kilobyte that the user has set. -/
def payFee (calls : CreateCalls) (nBytes : ℕ) : ℤ :=
  calls.nTransactionFee * (1 + nBytes / 1000 : ℕ)

section
variable {calls : CreateCalls} {nBytes : ℕ}

theorem mul_thousands_le {fee : ℤ} (hfee : 0 ≤ fee) (hsize : nBytes < MAX_STANDARD_TX_SIZE) :
    0 ≤ fee * (1 + nBytes / 1000 : ℕ) ∧ fee * (1 + nBytes / 1000 : ℕ) ≤ 100 * fee := by
  unfold MAX_STANDARD_TX_SIZE at hsize
  have hle : ((1 + nBytes / 1000 : ℕ) : ℤ) ≤ 100 := by omega
  refine ⟨mul_nonneg hfee (Int.natCast_nonneg _), ?_⟩
  rw [mul_comm 100 fee]
  exact mul_le_mul_of_nonneg_left hle hfee

/-- No fee for a transaction of standard size is above the largest one. -/
theorem FeeSettings.bounds (h : FeeSettings calls) (hsize : nBytes < MAX_STANDARD_TX_SIZE)
    (tx : CTransaction) (fAllowFree : Bool) :
    int64 (payFee calls nBytes) = payFee calls nBytes ∧ 0 ≤ payFee calls nBytes ∧
      payFee calls nBytes ≤ maxFee calls ∧
      GetMinFeeSend calls.nMinTxFee tx nBytes fAllowFree ≤ maxFee calls := by
  have hmax : MAX_MONEY_SATOSHIS = 1200000000000000 := by decide
  obtain ⟨htx, htx'⟩ := moneyRange_iff.mp h.nTransactionFee
  obtain ⟨hmin, hmin'⟩ := moneyRange_iff.mp h.nMinTxFee
  obtain ⟨hpay, hpay'⟩ := mul_thousands_le htx hsize
  obtain ⟨hleast, hleast'⟩ := mul_thousands_le hmin hsize
  have hexact : int64 ((1 + nBytes / 1000 : ℕ) * calls.nMinTxFee) =
      calls.nMinTxFee * (1 + nBytes / 1000 : ℕ) := by
    rw [mul_comm]
    exact int64_eq_self (by omega) (by omega)
  have hle := le_max_left calls.nTransactionFee calls.nMinTxFee
  have hle' := le_max_right calls.nTransactionFee calls.nMinTxFee
  unfold payFee maxFee
  refine ⟨int64_eq_self (by omega) (by omega), hpay, by omega, ?_⟩
  unfold GetMinFeeSend
  rw [hexact]
  generalize calls.nMinTxFee * (1 + nBytes / 1000 : ℕ) = fee at hleast hleast'
  dsimp only
  split_ifs <;> simp only [MoneyRange, Bool.and_eq_false_iff, decide_eq_false_iff_not] at * <;>
    omega

end

/-! ### A round -/

/-- The output to a payee. -/
def payeeOutput (s : CScript × ℤ) : CTxOut := { nValue := s.2, scriptPubKey := s.1 }

/-- The outputs are those to the payees, with at most one more that is not dust. -/
def PaysOut (nMinRelayTxFee : ℤ) (vecSend : List (CScript × ℤ)) (vout : List CTxOut) : Prop :=
  vout = vecSend.map payeeOutput ∨
    ∃ place ≤ vecSend.length, ∃ change : CTxOut, change.IsDust nMinRelayTxFee = false ∧
      vout = (vecSend.map payeeOutput).insertIdx place change

theorem payeeOutputs_ok {nMinRelayTxFee : ℤ} : ∀ {vecSend : List (CScript × ℤ)}
    {vout : List CTxOut}, payeeOutputs nMinRelayTxFee vecSend = .ok vout →
      vout = vecSend.map payeeOutput
  | [], vout, h => (Except.ok.inj h).symm
  | s :: vecSend, vout, h => by
      unfold payeeOutputs at h
      dsimp only at h
      split at h
      · cases h
      · obtain ⟨rest, hrest, h⟩ := bind_eq_ok.mp h
        rw [← Except.ok.inj h, payeeOutputs_ok hrest]
        rfl

/-- The change goes to the wallet or to the fee. -/
theorem addChange_ok {calls : CreateCalls} {round : ℕ} {vecSend : List (CScript × ℤ)}
    {vout' : List CTxOut} {nChange nFeeRet fee' : ℤ} (hchange : 0 ≤ nChange)
    (hfits : -2 ^ 63 ≤ nFeeRet + nChange ∧ nFeeRet + nChange < 2 ^ 63)
    (h : addChange calls round (vecSend.map payeeOutput) nChange nFeeRet = .ok (vout', fee')) :
    PaysOut calls.nMinRelayTxFee vecSend vout' ∧ nFeeRet ≤ fee' ∧
      (vout'.map CTxOut.nValue).sum + fee' =
        ((vecSend.map payeeOutput).map CTxOut.nValue).sum + nChange + nFeeRet := by
  unfold addChange at h
  split at h
  · obtain ⟨script, -, h⟩ := bind_eq_ok.mp h
    dsimp only at h
    split at h
    · obtain ⟨rfl, rfl⟩ := Prod.mk.inj (Except.ok.inj h)
      rw [int64_eq_self hfits.1 hfits.2]
      exact ⟨.inl rfl, by omega, by omega⟩
    · next hdust =>
        obtain ⟨rfl, rfl⟩ := Prod.mk.inj (Except.ok.inj h)
        have hplace : calls.random round % ((vecSend.map payeeOutput).length + 1) ≤
            (vecSend.map payeeOutput).length :=
          Nat.lt_succ_iff.mp (Nat.mod_lt _ (Nat.succ_pos _))
        have hlen : (vecSend.map payeeOutput).length = vecSend.length := List.length_map _
        refine ⟨.inr ⟨_, hplace.trans_eq hlen, _, Bool.not_eq_true _ ▸ hdust, rfl⟩, le_rfl, ?_⟩
        rw [((List.perm_insertIdx _ _ hplace).map CTxOut.nValue).sum_eq, List.map_cons,
          List.sum_cons]
        dsimp only
        omega
  · obtain ⟨rfl, rfl⟩ := Prod.mk.inj (Except.ok.inj h)
    exact ⟨.inl rfl, le_rfl, by omega⟩

/-- Small change that is moved is at most the change. -/
theorem moveToFee_bounds {nMinTxFee nChange nFeeRet : ℤ} (hchange : 0 ≤ nChange) :
    0 ≤ moveToFee nMinTxFee nChange nFeeRet ∧
      moveToFee nMinTxFee nChange nFeeRet ≤ nChange := by
  unfold moveToFee
  split_ifs <;> omega

/-- What a round does that starts with a fee. -/
structure RoundRight (calls : CreateCalls) (vecSend : List (CScript × ℤ)) (round : ℕ)
    (nFee : ℤ) (created : Created) (next : Option ℤ) : Prop where
  selected : ∃ T nValueIn, int64 (T + CENT) = T + CENT ∧
    calls.SelectCoins round T = some (created.setCoins, nValueIn)
  prevouts : created.wtxNew.vin.map CTxIn.prevout =
    created.setCoins.map fun coin => (coin.txin calls.crypto).prevout
  outputs : PaysOut calls.nMinRelayTxFee vecSend created.wtxNew.vout
  balance : (created.setCoins.map Coin.nValue).sum =
    (created.wtxNew.vout.map CTxOut.nValue).sum + created.nFeeRet
  grows : nFee ≤ created.nFeeRet
  more : ∀ fee, next = some fee → created.nFeeRet < fee ∧ fee ≤ maxFee calls
  enough : next = none →
    max (payFee calls created.wtxNew.GetSerializeSize)
      (GetMinFeeSend calls.nMinTxFee created.wtxNew created.wtxNew.GetSerializeSize
        (calls.AllowFree round created.wtxNew.GetSerializeSize)) ≤ created.nFeeRet

/-- The selection of a round pays every target that a cent does not carry beyond 64 bits. -/
def SelectsPaying (calls : CreateCalls) (round : ℕ) : Prop :=
  ∀ T setCoins nValueIn, int64 (T + CENT) = T + CENT →
    calls.SelectCoins round T = some (setCoins, nValueIn) → PaysWith T setCoins nValueIn

section
variable {calls : CreateCalls} {vecSend : List (CScript × ℤ)} {round : ℕ} {wtxNew : CTransaction}
  {nFee : ℤ}

/-- A round accounts for its coins, or raises the fee. -/
theorem createRound_right (hfees : FeeSettings calls) (hselect : SelectsPaying calls round)
    (hnonneg : 0 ≤ (vecSend.map Prod.snd).sum)
    (hroom : (vecSend.map Prod.snd).sum + maxFee calls + CENT < 2 ^ 63)
    (hfee : 0 ≤ nFee) (hfee' : nFee ≤ maxFee calls) {created : Created} {next : Option ℤ}
    (h : createRound calls vecSend (vecSend.map Prod.snd).sum round wtxNew nFee =
      .ok (created, next)) : RoundRight calls vecSend round nFee created next := by
  have hvalues : ((vecSend.map payeeOutput).map CTxOut.nValue).sum =
      (vecSend.map Prod.snd).sum := by
    rw [List.map_map]
    rfl
  generalize hvalue : (vecSend.map Prod.snd).sum = nValue at hnonneg hroom h hvalues
  simp only [createRound] at h
  have hcent : int64 (nValue + nFee + CENT) = nValue + nFee + CENT :=
    int64_eq_self (by unfold CENT; omega) (by omega)
  have htarget : int64 (nValue + nFee) = nValue + nFee :=
    int64_eq_self (by omega) (by unfold CENT at hroom; omega)
  obtain ⟨vout, hvout, h⟩ := bind_eq_ok.mp h
  obtain rfl := payeeOutputs_ok hvout
  rw [htarget] at h
  split at h
  · cases h
  · next setCoins nValueIn hcoins =>
      obtain ⟨⟨vout', fee'⟩, hchange, h⟩ := bind_eq_ok.mp h
      obtain ⟨signed, hsigned, h⟩ := bind_eq_ok.mp h
      split at h
      · cases h
      · next hsize =>
          obtain ⟨rfl, hnext⟩ := Prod.mk.inj (Except.ok.inj h)
          dsimp only at hnext hsigned
          have hpays := hselect _ _ _ hcent hcoins
          have hagree := signInputs_agree hsigned
          have hlen : setCoins.length * 41 < MAX_STANDARD_TX_SIZE := by
            have hvin := vin_length_mul_le signed
            rw [hagree.length, List.length_map] at hvin
            omega
          have hexact := hpays.exact hlen
          have hhigh : nValueIn < 2 ^ 63 := by
            rw [hpays.value]
            exact Int.bmod_lt (by decide)
          have henough := hpays.enough
          have hdiff : int64 (int64 (nValueIn - nValue) - nFee) = nValueIn - nValue - nFee := by
            rw [int64_sub_left, int64_eq_self (by omega) (by omega)]
          rw [hdiff] at hchange
          obtain ⟨hmove, hmove'⟩ := @moveToFee_bounds calls.nMinTxFee
            (nValueIn - nValue - nFee) nFee (by omega)
          obtain ⟨hpaysOut, hgrows, hbalance⟩ := addChange_ok (by omega)
            ⟨by omega, by omega⟩ hchange
          obtain ⟨hpayFee, -, hpayMax, hminMax⟩ := hfees.bounds (not_le.mp hsize) signed
            (calls.AllowFree round signed.GetSerializeSize)
          have hpay : int64 (calls.nTransactionFee * (1 + signed.GetSerializeSize / 1000 : ℕ)) =
              payFee calls signed.GetSerializeSize := hpayFee
          rw [hpay] at hnext
          refine ⟨⟨_, _, hcent, hcoins⟩, ?_, ?_, ?_, by dsimp only; omega, fun fee hsome => ?_,
            fun hnone => ?_⟩
          · rw [hagree.prevout, List.map_map]
            rfl
          · dsimp only
            rw [hagree.vout]
            exact hpaysOut
          · dsimp only
            rw [hagree.vout, ← hexact]
            dsimp only
            omega
          · rw [← hnext] at hsome
            split at hsome
            · next hless =>
                rw [← Option.some.inj hsome]
                exact ⟨hless, max_le hpayMax hminMax⟩
            · cases hsome
          · rw [← hnext] at hnone
            split at hnone
            · cases hnone
            · next hless => exact not_lt.mp hless

/-! ### The rounds -/

theorem signInputs_errs {crypto : Crypto} {keystore : ℕ → CKeyStore} :
    ∀ (setCoins : List Coin) (nIn : ℕ) (tx : CTransaction),
      Errs (· ≠ CreateStop.outOfFuel) (signInputs crypto keystore nIn setCoins tx)
  | [], _, tx => Errs.ok tx
  | coin :: setCoins, nIn, tx => by
      unfold signInputs
      split
      · exact Errs.error CreateStop.noConfusion
      · split
        · exact Errs.error CreateStop.noConfusion
        · exact Errs.error CreateStop.noConfusion
        · exact signInputs_errs setCoins (nIn + 1) _

theorem payeeOutputs_errs {nMinRelayTxFee : ℤ} : ∀ vecSend : List (CScript × ℤ),
    Errs (· ≠ CreateStop.outOfFuel) (payeeOutputs nMinRelayTxFee vecSend)
  | [] => Errs.ok []
  | s :: vecSend => by
      unfold payeeOutputs
      exact Errs.ite (fun _ => Errs.error CreateStop.noConfusion) fun _ =>
        (payeeOutputs_errs vecSend).bind fun _ _ => Errs.ok _

theorem addChange_errs (vout : List CTxOut) (nChange nFeeRet : ℤ) :
    Errs (· ≠ CreateStop.outOfFuel) (addChange calls round vout nChange nFeeRet) := by
  have hscript : Errs (· ≠ CreateStop.outOfFuel) (scriptChange calls round) := by
    unfold scriptChange
    split
    · exact Errs.ok _
    · exact Errs.ok _
    · split
      · exact Errs.error CreateStop.noConfusion
      · exact Errs.ok _
  unfold addChange
  exact Errs.ite (fun _ => hscript.bind fun _ _ => Errs.ite (fun _ => Errs.ok _)
    fun _ => Errs.ok _) fun _ => Errs.ok _

/-- A round ends. -/
theorem createRound_errs (nValue : ℤ) :
    Errs (· ≠ CreateStop.outOfFuel) (createRound calls vecSend nValue round wtxNew nFee) := by
  unfold createRound
  refine (payeeOutputs_errs vecSend).bind fun vout _ => ?_
  split
  · exact Errs.error CreateStop.noConfusion
  · exact (addChange_errs _ _ _).bind fun _ _ => (signInputs_errs _ _ _).bind fun _ _ =>
      Errs.ite (fun _ => Errs.error CreateStop.noConfusion) fun _ => Errs.ok _

/-- The fee grows from round to round and stays below the largest one, so the rounds end. -/
theorem createLoop_ends (hfees : FeeSettings calls) (hselect : ∀ round, SelectsPaying calls round)
    (hnonneg : 0 ≤ (vecSend.map Prod.snd).sum)
    (hroom : (vecSend.map Prod.snd).sum + maxFee calls + CENT < 2 ^ 63) :
    ∀ {fuel round : ℕ} {wtxNew : CTransaction} {nFee : ℤ}, 0 ≤ nFee → nFee ≤ maxFee calls →
      maxFee calls - nFee < fuel →
        createLoop calls vecSend (vecSend.map Prod.snd).sum fuel round wtxNew nFee ≠
          .error .outOfFuel
  | 0, _, _, _, _, hfee', hfuel => by
      exact absurd hfuel (by push_cast; omega)
  | fuel + 1, round, wtxNew, nFee, hfee, hfee', hfuel => by
      rw [createLoop]
      split
      · next stop hstop =>
          intro heq
          exact createRound_errs _ stop hstop (Except.error.inj heq)
      · intro heq
        cases heq
      · next created fee hok =>
          have hright := createRound_right hfees (hselect round) hnonneg hroom hfee hfee' hok
          obtain ⟨hless, hmax⟩ := hright.more fee rfl
          have hgrows := hright.grows
          push_cast at hfuel
          exact createLoop_ends hfees hselect hnonneg hroom (by omega) hmax (by omega)

/-- The payment is what its last round makes of it. -/
theorem createLoop_right (hfees : FeeSettings calls)
    (hselect : ∀ round, SelectsPaying calls round) (hnonneg : 0 ≤ (vecSend.map Prod.snd).sum)
    (hroom : (vecSend.map Prod.snd).sum + maxFee calls + CENT < 2 ^ 63) {created : Created} :
    ∀ {fuel round : ℕ} {wtxNew : CTransaction} {nFee : ℤ}, 0 ≤ nFee → nFee ≤ maxFee calls →
      createLoop calls vecSend (vecSend.map Prod.snd).sum fuel round wtxNew nFee =
        .ok created → ∃ round nFee, RoundRight calls vecSend round nFee created none
  | 0, _, _, _, _, _, h => by
      rw [createLoop] at h
      cases h
  | fuel + 1, round, wtxNew, nFee, hfee, hfee', h => by
      rw [createLoop] at h
      split at h
      · cases h
      · next created' hok =>
          rw [← Except.ok.inj h]
          exact ⟨round, nFee, createRound_right hfees (hselect round) hnonneg hroom hfee hfee' hok⟩
      · next created' fee hok =>
          have hright := createRound_right hfees (hselect round) hnonneg hroom hfee hfee' hok
          obtain ⟨hless, hmax⟩ := hright.more fee rfl
          have hgrows := hright.grows
          exact createLoop_right hfees hselect hnonneg hroom (by omega) hmax h

end

/-- The payees' amounts are added up. -/
theorem sumPayees_eq : ∀ {vecSend : List (CScript × ℤ)} {nValue : ℤ},
    (∀ s ∈ vecSend, 0 ≤ s.2) → 0 ≤ nValue → nValue + (vecSend.map Prod.snd).sum < 2 ^ 63 →
      sumPayees nValue vecSend = .ok (nValue + (vecSend.map Prod.snd).sum)
  | [], nValue, _, _, _ => by rw [sumPayees, List.map_nil, List.sum_nil, add_zero]
  | s :: vecSend, nValue, hamounts, hvalue, hfits => by
      have hs := hamounts s List.mem_cons_self
      have hrest := fun t (ht : t ∈ vecSend) => hamounts t (List.mem_cons_of_mem _ ht)
      have hnonneg : 0 ≤ (vecSend.map Prod.snd).sum := List.sum_nonneg fun v hv => by
        obtain ⟨t, ht, rfl⟩ := List.mem_map.mp hv
        exact hrest t ht
      rw [List.map_cons, List.sum_cons] at hfits
      rw [sumPayees, if_neg (not_lt.mpr hvalue), int64_eq_self (by omega) (by omega),
        sumPayees_eq hrest (by omega) (by omega), List.map_cons, List.sum_cons, add_assoc]

/-! ### Payments from a wallet -/

section
variable {calls : CreateCalls} {bSpendZeroConfChange : Bool} {coinControl : Option CCoinControl}
  {rounds : ℕ → SelectionRound calls.crypto}

/-- What the wallet's selection returns in a round. -/
theorem ofWallet_selects {round : ℕ} {T nValueIn : ℤ} {setCoins : List Coin}
    (hcent : int64 (T + CENT) = T + CENT)
    (h : (calls.ofWallet bSpendZeroConfChange coinControl rounds).SelectCoins round T =
      some (setCoins, nValueIn)) :
    ∃ coins, ChosenCoins (AvailableCoins (rounds round).wallet.view true true coinControl) T coins
        nValueIn ∧
      setCoins.Perm (coins.map fun coin => { wtx := coin.1.tx, n := coin.2 }) := by
  obtain ⟨ret, hret, heq⟩ := Option.map_eq_some_iff.mp h
  obtain ⟨rfl, rfl⟩ := Prod.mk.inj heq
  exact ⟨ret.1, selectCoins_chosen _ hcent hret, ((rounds round).order_perm ret.1).map _⟩

theorem ofWallet_paying (round : ℕ) :
    SelectsPaying (calls.ofWallet bSpendZeroConfChange coinControl rounds) round := by
  intro T setCoins nValueIn hcent h
  obtain ⟨coins, hchosen, hperm⟩ := ofWallet_selects hcent h
  refine ⟨fun coin hcoin => ?_, ?_, hchosen.enough⟩
  · obtain ⟨walletCoin, hmem, rfl⟩ := List.mem_map.mp (hperm.mem_iff.mp hcoin)
    obtain ⟨output, hout, rfl⟩ := hchosen.eligible walletCoin hmem
    obtain ⟨hwallet, txout, htxout⟩ := mem_availableCoins hout
    have hvalue : Coin.nValue { wtx := output.coin.1.tx, n := output.coin.2 } =
        txout.nValue := by
      have hget : output.coin.1.tx.vout[output.coin.2]? = some txout := htxout
      rw [Coin.nValue, hget]
      rfl
    rw [hvalue]
    exact (rounds round).wallet.inRange output.tx hwallet txout (List.mem_of_getElem? htxout)
  · rw [hchosen.value, (hperm.map Coin.nValue).sum_eq, List.map_map]
    rfl

/-- What a payment returns accounts for the coins of the wallet that it spends. -/
structure Accounted (calls : CreateCalls) (view : WalletView) (coinControl : Option CCoinControl)
    (vecSend : List (CScript × ℤ)) (round : ℕ) (created : Created) : Prop where
  distinct : (created.wtxNew.vin.map CTxIn.prevout).Nodup
  prevouts : created.wtxNew.vin.map CTxIn.prevout =
    created.setCoins.map fun coin => (coin.txin calls.crypto).prevout
  offered : ∀ coin ∈ created.setCoins, ∃ output ∈ AvailableCoins view true true coinControl,
    coin = { wtx := output.tx.tx, n := output.i }
  outputs : PaysOut calls.nMinRelayTxFee vecSend created.wtxNew.vout
  balance : (created.setCoins.map Coin.nValue).sum =
    (created.wtxNew.vout.map CTxOut.nValue).sum + created.nFeeRet
  fee : max (payFee calls created.wtxNew.GetSerializeSize)
    (GetMinFeeSend calls.nMinTxFee created.wtxNew created.wtxNew.GetSerializeSize
      (calls.AllowFree round created.wtxNew.GetSerializeSize)) ≤ created.nFeeRet

/-- Distinct coins of the wallet have distinct outpoints. -/
theorem Wallet.prevouts_distinct {crypto : Crypto} (wallet : Wallet crypto)
    {coins : List WalletCoin} (hdistinct : coins.Nodup)
    (hwallet : ∀ coin ∈ coins, coin.1 ∈ wallet.view.mapWallet) :
    (coins.map fun coin => (Coin.txin crypto { wtx := coin.1.tx, n := coin.2 }).prevout).Nodup := by
  refine List.Nodup.map_on (fun coin hcoin coin' hcoin' heq => ?_) hdistinct
  obtain ⟨hhash, hn⟩ := COutPoint.mk.inj heq
  have hmem := hwallet coin hcoin
  have hmem' := hwallet coin' hcoin'
  have hsame : coin.1.hash = coin'.1.hash := by
    rw [wallet.hash _ hmem, wallet.hash _ hmem']
    exact hhash
  exact Prod.ext (List.inj_on_of_nodup_map wallet.distinct hmem hmem' hsame) hn

theorem accounted_of_round {vecSend : List (CScript × ℤ)} {round : ℕ} {nFee : ℤ}
    {created : Created}
    (h : RoundRight (calls.ofWallet bSpendZeroConfChange coinControl rounds) vecSend round nFee
      created none) :
    Accounted calls (rounds round).wallet.view coinControl vecSend round created := by
  obtain ⟨T, nValueIn, hcent, hselected⟩ := h.selected
  obtain ⟨coins, hchosen, hperm⟩ := ofWallet_selects hcent hselected
  have hwallet : ∀ coin ∈ coins, coin.1 ∈ (rounds round).wallet.view.mapWallet := by
    intro coin hcoin
    obtain ⟨output, hout, rfl⟩ := hchosen.eligible coin hcoin
    exact (mem_availableCoins hout).1
  refine ⟨?_, h.prevouts, fun coin hcoin => ?_, h.outputs, h.balance, h.enough rfl⟩
  · rw [h.prevouts, (hperm.map _).nodup_iff, List.map_map]
    exact (rounds round).wallet.prevouts_distinct hchosen.distinct hwallet
  · obtain ⟨walletCoin, hmem, rfl⟩ := List.mem_map.mp (hperm.mem_iff.mp hcoin)
    obtain ⟨output, hout, rfl⟩ := hchosen.eligible walletCoin hmem
    exact ⟨output, hout, rfl⟩

/-- For payees whose total leaves room for the largest fee and a cent in 64 bits, a payment from
a wallet comes to an end, whatever it finds in its rounds, and one that is returned accounts for
its coins. -/
theorem createTransaction_accounts (bSpendZeroConfChange : Bool)
    (coinControl : Option CCoinControl) (rounds : ℕ → SelectionRound calls.crypto)
    (hfees : FeeSettings calls) {vecSend : List (CScript × ℤ)}
    (hamounts : ∀ s ∈ vecSend, MoneyRange s.2 = true)
    (hroom : (vecSend.map Prod.snd).sum + maxFee calls + CENT < 2 ^ 63) (wtxNew : CTransaction) :
    (∀ fuel : ℕ, maxFee calls < fuel →
      CreateTransaction (calls.ofWallet bSpendZeroConfChange coinControl rounds) vecSend wtxNew
        fuel ≠ .error .outOfFuel) ∧
    ∀ (fuel : ℕ) (created : Created),
      CreateTransaction (calls.ofWallet bSpendZeroConfChange coinControl rounds) vecSend wtxNew
        fuel = .ok created →
      ∃ round, Accounted calls (rounds round).wallet.view coinControl vecSend round created := by
  have hnonneg : 0 ≤ (vecSend.map Prod.snd).sum := List.sum_nonneg fun v hv => by
    obtain ⟨s, hs, rfl⟩ := List.mem_map.mp hv
    exact (moneyRange_iff.mp (hamounts s hs)).1
  have hfee : 0 ≤ calls.nTransactionFee := (moneyRange_iff.mp hfees.nTransactionFee).1
  have hfee' : calls.nTransactionFee ≤ maxFee calls := by
    have hle := le_max_left calls.nTransactionFee calls.nMinTxFee
    unfold maxFee
    omega
  have hsum : sumPayees 0 vecSend = .ok (vecSend.map Prod.snd).sum := by
    have hfits : 0 + (vecSend.map Prod.snd).sum < 2 ^ 63 := by
      unfold CENT at hroom
      omega
    rw [sumPayees_eq (fun s hs => (moneyRange_iff.mp (hamounts s hs)).1) le_rfl hfits, zero_add]
  have hfees' : FeeSettings (calls.ofWallet bSpendZeroConfChange coinControl rounds) :=
    ⟨hfees.nTransactionFee, hfees.nMinTxFee⟩
  constructor
  · intro fuel hfuel
    rw [CreateTransaction, hsum, ok_bind]
    split
    · intro heq
      cases heq
    · refine createLoop_ends hfees' ofWallet_paying hnonneg hroom hfee hfee' ?_
      change maxFee calls - calls.nTransactionFee < fuel
      omega
  · intro fuel created h
    rw [CreateTransaction, hsum, ok_bind] at h
    split at h
    · cases h
    · obtain ⟨round, nFee, hright⟩ :=
        createLoop_right hfees' ofWallet_paying hnonneg hroom hfee hfee' h
      exact ⟨round, accounted_of_round hright⟩

end

/-! ### A payment of one coin -/

/-- The wallet transaction of a coin, with confirmations. -/
def walletTxOf (crypto : Crypto) (coin : Coin) : CWalletTx :=
  { tx := coin.wtx, hash := coin.wtx.GetHash crypto, IsTrusted := true, GetBlocksToMaturity := 0
    GetDepthInMainChain := 6, IsFromMe := false }

/-- A round in a wallet of the coins' transactions. -/
def roundOf (crypto : Crypto) (coins : List Coin)
    (hdistinct : ((coins.map (walletTxOf crypto)).map CWalletTx.hash).Nodup)
    (hrange : ∀ coin ∈ coins, ∀ txout ∈ coin.wtx.vout, MoneyRange txout.nValue = true) :
    SelectionRound crypto where
  wallet :=
    { view :=
        { mapWallet := coins.map (walletTxOf crypto), IsSpent := fun _ _ => false
          IsMine := fun _ => true, IsLockedCoin := fun _ _ => false, nHeight := 100
          nMedianTimePast := 1400000000, nAdjustedTime := 1400000600 }
      hash := fun pcoin hmem => by
        obtain ⟨coin, -, rfl⟩ := List.mem_map.mp hmem
        rfl
      distinct := hdistinct
      inRange := fun pcoin hmem => by
        obtain ⟨coin, hcoin, rfl⟩ := List.mem_map.mp hmem
        exact hrange coin hcoin }
  random _ := unshuffled
  order := id
  order_perm := List.Perm.refl

def plainCalls : CreateCalls := payAllCalls [fundedCoin plainScript]

/-- A wallet with the coin that `plainCalls` can sign for. -/
def plainRound : SelectionRound plainCalls.crypto :=
  roundOf plainCalls.crypto [fundedCoin plainScript] (List.nodup_singleton _) (by decide)

def payPlainCoin : Create Created :=
  CreateTransaction (plainCalls.ofWallet false none fun _ => plainRound) [(plainScript, COIN)]
    emptyTx 1

/-- The coin is paid to a key, and accounted for. -/
theorem createTransaction_accounts_plainCoin :
    ∃ created round, payPlainCoin = .ok created ∧
      Accounted plainCalls plainRound.wallet.view none [(plainScript, COIN)] round created := by
  have hsome : payPlainCoin.toOption.isSome = true := by decide +kernel
  cases hpaid : payPlainCoin with
  | error stop =>
      rw [hpaid] at hsome
      cases hsome
  | ok created =>
      obtain ⟨round, haccounted⟩ := (createTransaction_accounts false none (fun _ => plainRound)
        ⟨by decide, by decide⟩ (by decide) (by decide) emptyTx).2 1 created hpaid
      exact ⟨created, round, rfl, haccounted⟩

/-! ### A payment that does not come to an end -/

/-- More than eight thousand payees, each of them with an amount in the money range. -/
def manyPayees : List (CScript × ℤ) := List.replicate 8191 ([], 2 ^ 50)

/-- A fee of that amount, and change to a key. -/
def manyCalls : CreateCalls :=
  { plainCalls with
    nTransactionFee := 2 ^ 50, nMinTxFee := 0, nMinRelayTxFee := 0
    AllowFree := fun _ _ => false, destChange := some (.CKeyID []) }

/-- A wallet without coins. -/
def emptyRound : SelectionRound manyCalls.crypto :=
  roundOf manyCalls.crypto [] List.nodup_nil (by decide)

/-- Coin control names an output that the wallet does not have. -/
def payMany (wtxNew : CTransaction) (fuel : ℕ) : Create Created :=
  CreateTransaction
    (manyCalls.ofWallet false (some [{ hash := 1, n := 0 }]) fun _ => emptyRound) manyPayees
    wtxNew fuel

theorem payeeOutputs_replicate {nMinRelayTxFee : ℤ} {s : CScript × ℤ}
    (hdust : (payeeOutput s).IsDust nMinRelayTxFee = false) : ∀ n : ℕ,
      payeeOutputs nMinRelayTxFee (List.replicate n s) = .ok (List.replicate n (payeeOutput s))
  | 0 => rfl
  | n + 1 => by
      have hnot : ¬ (CTxOut.IsDust nMinRelayTxFee { nValue := s.2, scriptPubKey := s.1 }) =
          true := by
        rw [Bool.not_eq_true]
        exact hdust
      rw [List.replicate_succ, payeeOutputs, if_neg hnot, payeeOutputs_replicate hdust n, ok_bind,
        List.replicate_succ]
      rfl

theorem serializeSize_replicate (tx : CTransaction) (txout : CTxOut) (n : ℕ) :
    ({ tx with vin := [], vout := List.replicate n txout } : CTransaction).GetSerializeSize =
      9 + (writeCompactSize n).length + n * txout.serialize.length := by
  simp only [CTransaction.GetSerializeSize, CTransaction.serialize, serializeVector, leInt32,
    List.length_append, leBytes_length, List.length_nil, List.flatMap_nil,
    List.length_replicate, List.length_flatMap, List.map_replicate, List.sum_replicate,
    smul_eq_mul]
  have hzero : (writeCompactSize 0).length = 1 := rfl
  omega

/-- The calls of that payment. -/
def manyWallet : CreateCalls :=
  manyCalls.ofWallet false (some [{ hash := 1, n := 0 }]) fun _ => emptyRound

/-- No coins pay a target that is not positive. -/
theorem manyWallet_selectCoins {T : ℤ} (hT : T ≤ 0) (round : ℕ) :
    manyWallet.SelectCoins round T = some ([], 0) := by
  have hempty : AvailableCoins emptyRound.wallet.view true true (some [{ hash := 1, n := 0 }]) =
      [] := rfl
  have hselected : SelectCoins emptyRound.wallet.view false emptyRound.random T
      (some [{ hash := 1, n := 0 }]) = some ([], 0) := by
    unfold SelectCoins
    rw [hempty]
    exact if_pos hT
  change (SelectCoins _ _ _ _ _).map _ = _
  rw [hselected]
  rfl

/-- The fee that those outputs need. -/
theorem manyFee {tx : CTransaction}
    (hsize : tx.GetSerializeSize = 73731) :
    ¬ MAX_STANDARD_TX_SIZE ≤ tx.GetSerializeSize ∧
      max (int64 (2 ^ 50 * (1 + tx.GetSerializeSize / 1000 : ℕ)))
        (GetMinFeeSend 0 tx tx.GetSerializeSize false) = 74 * 2 ^ 50 := by
  have hmin : ∀ n, GetMinFeeSend 0 tx n false = 0 := by
    intro n
    unfold GetMinFeeSend
    rw [mul_zero]
    rfl
  rw [hmin, hsize]
  decide

/-- Once the total exceeds 64 bits, a round asks for the fee that it started with. -/
theorem createRound_many {k : ℤ} (hk : k = 1 ∨ k = 74) (round : ℕ) (wtxNew : CTransaction) :
    ∃ created, createRound manyWallet manyPayees (2 ^ 63 - 2 ^ 50) round wtxNew (k * 2 ^ 50) =
      .ok (created, some (74 * 2 ^ 50)) := by
  have hpayees : payeeOutputs manyWallet.nMinRelayTxFee manyPayees =
      .ok (List.replicate 8191 (payeeOutput ([], 2 ^ 50))) :=
    payeeOutputs_replicate (by decide) 8191
  have htarget : int64 (2 ^ 63 - 2 ^ 50 + k * 2 ^ 50) ≤ 0 := by
    rcases hk with rfl | rfl <;> decide
  have hmove : ∀ nChange, moveToFee manyWallet.nMinTxFee nChange (k * 2 ^ 50) = 0 := by
    intro nChange
    refine if_neg fun h => absurd h.1 ?_
    rcases hk with rfl | rfl <;> decide
  have hchange : ∀ vout, ∃ fee : ℤ, fee < 74 * 2 ^ 50 ∧
      addChange manyWallet round vout
        (int64 (int64 (0 - (2 ^ 63 - 2 ^ 50)) - k * 2 ^ 50) - 0) (k * 2 ^ 50 + 0) =
          .ok (vout, fee) := by
    intro vout
    rcases hk with rfl | rfl
    · refine ⟨1 * 2 ^ 50, by decide, ?_⟩
      rw [addChange, if_neg (by decide)]
      rfl
    · refine ⟨int64 (74 * 2 ^ 50 + (2 ^ 63 - 73 * 2 ^ 50)), by decide, ?_⟩
      rw [addChange, if_pos (by decide)]
      rfl
  obtain ⟨fee, hfee, hadd⟩ := hchange (List.replicate 8191 (payeeOutput ([], 2 ^ 50)))
  have hsize : ({ wtxNew with vin := [], vout := List.replicate 8191 (payeeOutput ([], 2 ^ 50)) }
      : CTransaction).GetSerializeSize = 73731 := by
    rw [serializeSize_replicate]
    rfl
  obtain ⟨hlimit, hneeded⟩ := manyFee hsize
  refine ⟨⟨{ wtxNew with vin := [], vout := List.replicate 8191 (payeeOutput ([], 2 ^ 50)) },
    fee, []⟩, ?_⟩
  rw [createRound, hpayees, ok_bind, manyWallet_selectCoins htarget]
  dsimp only
  rw [hmove, hadd, ok_bind]
  dsimp only
  rw [signInputs, ok_bind, List.map_nil, if_neg hlimit]
  refine congrArg (fun next => Except.ok (_, next)) ?_
  change (if fee < max (int64 (2 ^ 50 * _)) (GetMinFeeSend 0 _ _ false) then _ else none) = _
  rw [hneeded, if_pos hfee]
  exact congrArg some hneeded

/-- Amounts in the money range alone are not enough: with these payees the fee is raised to the
same number again and again. -/
theorem payMany_never_ends :
    FeeSettings manyCalls ∧ (∀ s ∈ manyPayees, MoneyRange s.2 = true) ∧
      ∀ wtxNew fuel, payMany wtxNew fuel = .error .outOfFuel := by
  have hamounts : ∀ s ∈ manyPayees, MoneyRange s.2 = true := by
    intro s hs
    rw [List.eq_of_mem_replicate hs]
    decide
  have hsum : (manyPayees.map Prod.snd).sum = 2 ^ 63 - 2 ^ 50 := by
    rw [manyPayees, List.map_replicate, List.sum_replicate]
    rfl
  have hloop : ∀ (fuel : ℕ) (k : ℤ) (round : ℕ) (wtxNew : CTransaction), k = 1 ∨ k = 74 →
      createLoop manyWallet manyPayees (2 ^ 63 - 2 ^ 50) fuel round wtxNew (k * 2 ^ 50) =
        .error .outOfFuel := by
    intro fuel
    induction fuel with
    | zero => exact fun _ _ _ _ => rfl
    | succ fuel ih =>
        intro k round wtxNew hk
        obtain ⟨created, hround⟩ := createRound_many hk round wtxNew
        rw [createLoop, hround]
        exact ih 74 (round + 1) created.wtxNew (.inr rfl)
  refine ⟨⟨by decide, by decide⟩, hamounts, fun wtxNew fuel => ?_⟩
  have hpayees : sumPayees 0 manyPayees = .ok (2 ^ 63 - 2 ^ 50) := by
    rw [sumPayees_eq (fun s hs => (moneyRange_iff.mp (hamounts s hs)).1) le_rfl
      (by rw [hsum]; decide), hsum, zero_add]
  have hnonempty : ¬ (manyPayees = [] ∨ (2 ^ 63 - 2 ^ 50 : ℤ) < 0) := by
    rintro (hnil | hneg)
    · rw [hnil] at hsum
      exact absurd hsum (by decide)
    · exact absurd hneg (by decide)
  rw [payMany, CreateTransaction, hpayees, ok_bind, if_neg hnonempty]
  exact hloop fuel 1 0 wtxNew (.inl rfl)

end Ziftrcoin.Spec
