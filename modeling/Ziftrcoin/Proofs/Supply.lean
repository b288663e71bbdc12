/-
Module: Ziftrcoin.Proofs.Supply
Purpose: What the unspent outputs are worth at most, that transactions spend no
  more than they have, that no output is spent twice, and that the sums that
  are checked on the way do not overflow.
Trusted boundary: none
Main exports: ConnectedBlock, supply_conserved
-/
import Ziftrcoin.Lib.Holdings
import Ziftrcoin.Proofs.SpendOnce

namespace Ziftrcoin.Spec

open Ziftrcoin.Lib Ziftrcoin.Lib.Outcome

/-! ### Sums -/

/-- Every sum that adding up a list from the left comes to fits into 64
bits. -/
def FitsInt64 (xs : List Int) : Prop :=
  ∀ k, -2 ^ 63 ≤ (xs.take k).sum ∧ (xs.take k).sum < 2 ^ 63

theorem int64_eq_self {x : Int} (hlow : -2 ^ 63 ≤ x) (hhigh : x < 2 ^ 63) :
    int64 x = x := by
  unfold int64
  apply Int.bmod_eq_of_le
  · omega
  · omega

/-- A wrapped sum is never larger than the exact one, unless that is below all
64-bit numbers. -/
theorem int64_le_self {x : Int} (hlow : -2 ^ 63 ≤ x) : int64 x ≤ x := by
  unfold int64
  rw [Int.bmod_def]
  split <;> omega

theorem neg_le_int64 (x : Int) : -2 ^ 63 ≤ int64 x := by
  unfold int64
  rw [Int.bmod_def]
  split <;> omega

theorem int64_lt (x : Int) : int64 x < 2 ^ 63 := by
  unfold int64
  rw [Int.bmod_def]
  split <;> omega

theorem int64_of_amounts {x y : Int} (hx : 0 ≤ x) (hx' : x ≤ MAX_MONEY_SATOSHIS)
    (hy : 0 ≤ y) (hy' : y ≤ MAX_MONEY_SATOSHIS) : int64 (x + y) = x + y := by
  have hmax : MAX_MONEY_SATOSHIS = 1200000000000000 := by decide
  apply int64_eq_self
  · omega
  · omega

theorem sum_take_le {xs : List Int} (h : ∀ x ∈ xs, 0 ≤ x) (k : Nat) :
    0 ≤ (xs.take k).sum ∧ (xs.take k).sum ≤ xs.sum := by
  have hsplit : (xs.take k).sum + (xs.drop k).sum = xs.sum := by
    rw [← List.sum_append, List.take_append_drop]
  have hdrop : 0 ≤ (xs.drop k).sum :=
    List.sum_nonneg fun x hx => h x (List.mem_of_mem_drop hx)
  have htake : 0 ≤ (xs.take k).sum :=
    List.sum_nonneg fun x hx => h x (List.mem_of_mem_take hx)
  omega

theorem fitsInt64_of_nonneg {xs : List Int} (h : ∀ x ∈ xs, 0 ≤ x)
    (hsum : xs.sum < 2 ^ 63) : FitsInt64 xs := by
  intro k
  obtain ⟨hlow, hhigh⟩ := sum_take_le h k
  omega

/-! ### Values -/

/-- What an outpoint is worth in a view: nothing, unless it is unspent. -/
def CCoinsViewCache.value (view : CCoinsViewCache) (o : COutPoint) : Int :=
  match view.unspent o with
  | none => 0
  | some u => u.txout.nValue

/-- The values of the outputs that a transaction spends. -/
def inputValues (view : CCoinsViewCache) (tx : CTransaction) : List Int :=
  tx.vin.map fun txin => view.value txin.prevout

def outputValues (tx : CTransaction) : List Int := tx.vout.map CTxOut.nValue

/-- What a transaction leaves to the coinbase. -/
def txFee (view : CCoinsViewCache) (tx : CTransaction) : Int :=
  if tx.IsCoinBase then 0 else (inputValues view tx).sum - (outputValues tx).sum

theorem value_eq_of_available {view : CCoinsViewCache} {o : COutPoint}
    (h : view.available o = true) :
    ∃ coins txout, view.coins o.hash = some coins ∧ coins.vout[o.n]? = some txout ∧
      coins.IsAvailable o.n = true ∧ view.value o = txout.nValue := by
  rw [← CCoinsViewCache.unspent_isSome] at h
  obtain ⟨u, hu⟩ := Option.isSome_iff_exists.mp h
  obtain ⟨coins, hcoins, hget, hnull, _⟩ := unspent_eq_some hu
  refine ⟨coins, u.txout, hcoins, hget, ?_, ?_⟩
  · exact CCoins.isAvailable_iff.mpr ⟨_, hget, hnull⟩
  · simp [CCoinsViewCache.value, hu]

/-- The loop of `CheckInputs` over the values adds up exactly and checks every
amount. -/
theorem checkInputValues_ok {view : CCoinsViewCache} {nSpendHeight : Int} :
    ∀ {vin : List CTxIn} {nValueIn nValueIn' : Int},
      (∀ txin ∈ vin, view.available txin.prevout = true) →
      0 ≤ nValueIn → nValueIn ≤ MAX_MONEY_SATOSHIS →
      checkInputValues view nSpendHeight nValueIn vin = .ok nValueIn' →
      nValueIn' = nValueIn + (vin.map fun txin => view.value txin.prevout).sum ∧
        nValueIn' ≤ MAX_MONEY_SATOSHIS ∧
        ∀ txin ∈ vin, 0 ≤ view.value txin.prevout
  | [], nValueIn, nValueIn', _, _, hmax, h => by
      simp only [checkInputValues, Except.ok.injEq] at h
      subst h
      simp [hmax]
  | txin :: rest, nValueIn, nValueIn', hall, hpos, hmax, h => by
      obtain ⟨coins, txout, hcoins, hget, _, hvalue⟩ :=
        value_eq_of_available (hall txin List.mem_cons_self)
      simp only [checkInputValues, CCoinsViewCache.GetCoins, hcoins, ok_bind, Run.get,
        hget, Run.Invalid, Run.DoS, error_bind, guard_eq_ok, not_or,
        Bool.not_eq_false, moneyRange_iff] at h
      obtain ⟨_, ⟨hrange, hsum⟩, h⟩ := h
      rw [int64_of_amounts hpos hmax hrange.1 hrange.2] at hsum h
      obtain ⟨hrest, hle, hnonneg⟩ := checkInputValues_ok
        (fun t ht => hall t (List.mem_cons_of_mem _ ht)) hsum.1 hsum.2 h
      refine ⟨?_, hle, ?_⟩
      · rw [hrest, List.map_cons, List.sum_cons, hvalue]
        omega
      · intro t ht
        rcases List.mem_cons.mp ht with rfl | ht
        · rw [hvalue]
          exact hrange.1
        · exact hnonneg t ht

/-- `GetValueIn` adds up the same values, without checks on the way. -/
theorem valueInFrom_ok {view : CCoinsViewCache} :
    ∀ {vin : List CTxIn} {nResult nResult' : Int},
      (∀ txin ∈ vin, view.available txin.prevout = true) →
      (∀ txin ∈ vin, 0 ≤ view.value txin.prevout) → 0 ≤ nResult →
      nResult + (vin.map fun txin => view.value txin.prevout).sum ≤
        MAX_MONEY_SATOSHIS →
      view.valueInFrom nResult vin = .ok nResult' →
      nResult' = nResult + (vin.map fun txin => view.value txin.prevout).sum
  | [], nResult, nResult', _, _, _, _, h => by
      simp only [CCoinsViewCache.valueInFrom, Except.ok.injEq] at h
      simp [h]
  | txin :: rest, nResult, nResult', hall, hnonneg, hpos, hmax, h => by
      obtain ⟨coins, txout, hcoins, hget, hav, hvalue⟩ :=
        value_eq_of_available (hall txin List.mem_cons_self)
      have hfirst := hnonneg txin List.mem_cons_self
      have hothers : 0 ≤ (rest.map fun txin => view.value txin.prevout).sum := by
        apply List.sum_nonneg
        intro x hx
        obtain ⟨t, ht, rfl⟩ := List.mem_map.mp hx
        exact hnonneg t (List.mem_cons_of_mem _ ht)
      rw [List.map_cons, List.sum_cons] at hmax
      simp only [CCoinsViewCache.valueInFrom, CCoinsViewCache.GetOutputFor,
        CCoinsViewCache.GetCoins, hcoins, ok_bind, Run.assert, hav, if_true, Run.get,
        hget] at h
      rw [← hvalue, int64_of_amounts hpos (by omega) hfirst (by omega)] at h
      rw [valueInFrom_ok (fun t ht => hall t (List.mem_cons_of_mem _ ht))
        (fun t ht => hnonneg t (List.mem_cons_of_mem _ ht)) (by omega) (by omega) h,
        List.map_cons, List.sum_cons]
      omega

/-- `GetValueOut` adds up exactly and checks every amount. -/
theorem getValueOutFrom_eq_some :
    ∀ {vout : List CTxOut} {nValueOut nValueOut' : Int},
      0 ≤ nValueOut → nValueOut ≤ MAX_MONEY_SATOSHIS →
      getValueOutFrom nValueOut vout = some nValueOut' →
      nValueOut' = nValueOut + (vout.map CTxOut.nValue).sum ∧
        nValueOut' ≤ MAX_MONEY_SATOSHIS ∧ ∀ txout ∈ vout, 0 ≤ txout.nValue
  | [], nValueOut, nValueOut', _, hmax, h => by
      simp only [getValueOutFrom, Option.some.injEq] at h
      subst h
      simp [hmax]
  | txout :: rest, nValueOut, nValueOut', hpos, hmax, h => by
      simp only [getValueOutFrom, Option.ite_none_left_eq_some, not_or,
        Bool.not_eq_false, moneyRange_iff] at h
      obtain ⟨⟨hrange, hsum⟩, h⟩ := h
      rw [int64_of_amounts hpos hmax hrange.1 hrange.2] at hsum h
      obtain ⟨hrest, hle, hnonneg⟩ := getValueOutFrom_eq_some hsum.1 hsum.2 h
      refine ⟨?_, hle, ?_⟩
      · rw [hrest, List.map_cons, List.sum_cons]
        omega
      · intro o ho
        rcases List.mem_cons.mp ho with rfl | ho
        · exact hrange.1
        · exact hnonneg o ho

theorem valueOut_ok {tx : CTransaction} {nValueOut : Int}
    (h : valueOut tx = .ok nValueOut) :
    nValueOut = (outputValues tx).sum ∧ nValueOut ≤ MAX_MONEY_SATOSHIS ∧
      ∀ v ∈ outputValues tx, 0 ≤ v := by
  unfold valueOut CTransaction.GetValueOut at h
  cases hget : getValueOutFrom 0 tx.vout with
  | none => simp [hget, Run.Abort] at h
  | some v =>
      simp only [hget, Except.ok.injEq] at h
      subst h
      obtain ⟨hsum, hle, hnonneg⟩ := getValueOutFrom_eq_some (le_refl 0) (by decide) hget
      refine ⟨by simpa [outputValues] using hsum, hle, ?_⟩
      intro v hv
      obtain ⟨o, ho, rfl⟩ := List.mem_map.mp hv
      exact hnonneg o ho

/-! ### Transactions that pay -/

/-- The sums over a transaction that is connected to a view fit into 64 bits,
and, unless it is a coinbase, it spends distinct outputs of the view that are
worth at least as much as its own. -/
structure Pays (view : CCoinsViewCache) (tx : CTransaction) : Prop where
  outNonneg : ∀ v ∈ outputValues tx, 0 ≤ v
  outFits : FitsInt64 (outputValues tx)
  outMax : (outputValues tx).sum ≤ MAX_MONEY_SATOSHIS
  nodup : tx.IsCoinBase = false → (tx.vin.map CTxIn.prevout).Nodup
  available : tx.IsCoinBase = false →
    ∀ txin ∈ tx.vin, view.available txin.prevout = true
  inFits : tx.IsCoinBase = false → FitsInt64 (inputValues view tx)
  inMax : tx.IsCoinBase = false → (inputValues view tx).sum ≤ MAX_MONEY_SATOSHIS
  covered : tx.IsCoinBase = false →
    (outputValues tx).sum ≤ (inputValues view tx).sum

theorem Pays.txFee_range {view : CCoinsViewCache} {tx : CTransaction}
    (h : Pays view tx) : 0 ≤ txFee view tx ∧ txFee view tx ≤ MAX_MONEY_SATOSHIS := by
  have hout : 0 ≤ (outputValues tx).sum := List.sum_nonneg h.outNonneg
  unfold txFee
  cases hcb : tx.IsCoinBase with
  | true =>
      rw [if_pos rfl]
      exact ⟨le_refl 0, by decide⟩
  | false =>
      have hin := h.inMax hcb
      have hcovered := h.covered hcb
      simp only [Bool.false_eq_true, if_false]
      omega

/-- The outputs of a checked transaction are amounts, and so is their sum. -/
theorem checkOutputs_sum :
    ∀ {vout : List CTxOut} {nValueOut : Int}, 0 ≤ nValueOut →
      nValueOut ≤ MAX_MONEY_SATOSHIS → checkOutputs nValueOut vout = .ok () →
      nValueOut + (vout.map CTxOut.nValue).sum ≤ MAX_MONEY_SATOSHIS
  | [], nValueOut, _, hmax, _ => by simpa using hmax
  | txout :: rest, nValueOut, hpos, hmax, h => by
      simp only [checkOutputs, Run.DoS, guard_eq_ok, Bool.not_eq_false,
        moneyRange_iff] at h
      obtain ⟨hneg, hlarge, hsum, h⟩ := h
      rw [int64_of_amounts hpos hmax (by omega) (by omega)] at hsum h
      have hrest := checkOutputs_sum hsum.1 hsum.2 h
      rw [List.map_cons, List.sum_cons]
      omega

/-- What is known of the inputs once `CheckInputs` has passed. -/
theorem checkInputs_ok {crypto : Crypto} {prevHeight : uint256 → Option Nat}
    {tx : CTransaction} {view : CCoinsViewCache} {fScriptChecks fDefer : Bool}
    {flags : ScriptFlags} {vChecks : List CScriptCheck}
    (hcb : tx.IsCoinBase = false)
    (h : CheckInputs crypto prevHeight tx view fScriptChecks flags fDefer =
      .ok vChecks) :
    (∀ txin ∈ tx.vin, view.available txin.prevout = true) ∧
      (∀ v ∈ inputValues view tx, 0 ≤ v) ∧
      (inputValues view tx).sum ≤ MAX_MONEY_SATOSHIS ∧
      (outputValues tx).sum ≤ (inputValues view tx).sum := by
  unfold CheckInputs at h
  simp only [hcb, Bool.false_eq_true, if_false, Run.DoS, Run.Invalid, guard_eq_ok,
    error_bind, bind_eq_ok, Bool.not_eq_false] at h
  obtain ⟨hhave, _, _, nValueIn, hin, nValueOut, hout, hcovered, _⟩ := h
  have hall := SameOutputs.available_of_haveInputs hcb hhave
  obtain ⟨hsum, hmax, hnonneg⟩ := checkInputValues_ok hall (le_refl 0) (by decide) hin
  obtain ⟨houtSum, _, _⟩ := valueOut_ok hout
  have hvalues : (inputValues view tx).sum = nValueIn := by
    rw [hsum, inputValues]
    omega
  refine ⟨hall, ?_, ?_, ?_⟩
  · intro v hv
    obtain ⟨txin, hmem, rfl⟩ := List.mem_map.mp hv
    exact hnonneg txin hmem
  · rw [hvalues]
    exact hmax
  · rw [hvalues, ← houtSum]
    omega

/-- A transaction whose inputs have been checked pays, and the fees collected
so far grow by at most its fee. -/
theorem connectInputs_pays {cfg : Config} {ctx : BlockContext}
    {fScriptChecks : Bool} {acc acc' : ConnectState} {tx : CTransaction}
    (hchecked : CheckTransaction tx = .ok ())
    (h : connectInputs cfg ctx fScriptChecks acc tx = .ok acc') :
    Pays acc.view tx ∧
      (-2 ^ 63 ≤ acc.nFees →
        -2 ^ 63 ≤ acc'.nFees ∧ acc'.nFees ≤ acc.nFees + txFee acc.view tx) := by
  obtain ⟨_, _, houts, hins⟩ := checkTransaction_ok hchecked
  have houtNonneg : ∀ v ∈ outputValues tx, 0 ≤ v := by
    intro v hv
    obtain ⟨txout, hmem, rfl⟩ := List.mem_map.mp hv
    exact (checkOutputs_range houts txout hmem).1
  have houtMax : (outputValues tx).sum ≤ MAX_MONEY_SATOSHIS := by
    have hsum := checkOutputs_sum (le_refl 0) (by decide) houts
    rw [outputValues]
    omega
  have hmax : MAX_MONEY_SATOSHIS = 1200000000000000 := by decide
  have houtFits : FitsInt64 (outputValues tx) :=
    fitsInt64_of_nonneg houtNonneg (by omega)
  rcases connectInputs_ok h with
    ⟨hcb, rfl⟩ | ⟨hcb, _, _, nValueIn, nValueOut, _, hin, hout, hinputs, rfl⟩
  · have habsurd : ∀ {P : Prop}, tx.IsCoinBase = false → P := by
      intro P hfalse
      rw [hcb] at hfalse
      cases hfalse
    refine ⟨⟨houtNonneg, houtFits, houtMax, habsurd, habsurd, habsurd, habsurd,
      habsurd⟩, fun hlow => ⟨hlow, ?_⟩⟩
    simp [txFee, hcb]
  · obtain ⟨hall, hinNonneg, hinMax, hcovered⟩ := checkInputs_ok hcb hinputs
    have hpays : Pays acc.view tx := by
      refine ⟨houtNonneg, houtFits, houtMax, fun _ => ?_, fun _ => hall, fun _ => ?_,
        fun _ => hinMax, fun _ => hcovered⟩
      · rw [hcb] at hins
        exact (checkTxIns_nodup hins).1
      · exact fitsInt64_of_nonneg hinNonneg (by omega)
    refine ⟨hpays, fun hlow => ?_⟩
    have hvalueIn : nValueIn = (inputValues acc.view tx).sum := by
      unfold CCoinsViewCache.GetValueIn at hin
      rw [if_neg (by simp [hcb])] at hin
      have hnonneg : ∀ txin ∈ tx.vin, 0 ≤ acc.view.value txin.prevout :=
        fun txin hmem => hinNonneg _ (List.mem_map_of_mem hmem)
      have hsum := valueInFrom_ok hall hnonneg (le_refl 0)
        (by simpa [inputValues] using hinMax) hin
      rw [hsum, inputValues]
      omega
    have hfee : nValueIn - nValueOut = txFee acc.view tx := by
      rw [hvalueIn, (valueOut_ok hout).1, txFee, hcb]
      rfl
    obtain ⟨hfeeLow, hfeeHigh⟩ := hpays.txFee_range
    rw [hfee, int64_eq_self (x := txFee acc.view tx) (by omega) (by omega)]
    refine ⟨neg_le_int64 _, ?_⟩
    exact int64_le_self (by omega)

theorem connectTx_pays {cfg : Config} {ctx : BlockContext} {fScriptChecks : Bool}
    {block : CBlock} {acc acc' : ConnectState} {tx : CTransaction} {i : Nat}
    (hchecked : CheckTransaction tx = .ok ())
    (h : connectTx cfg ctx fScriptChecks block acc (tx, i) = .ok acc') :
    Pays acc.view tx ∧
      (-2 ^ 63 ≤ acc.nFees →
        -2 ^ 63 ≤ acc'.nFees ∧ acc'.nFees ≤ acc.nFees + txFee acc.view tx) := by
  obtain ⟨acc₁, _, _, _, hacc₁, _, _, rfl⟩ := connectTx_round h
  have hpays := connectInputs_pays hchecked hacc₁
  exact hpays

/-- The updates that a list of transactions makes to a view one after the
other, each of them paying, with the fee of each. -/
inductive ValuesConnect (crypto : Crypto) (nHeight : Nat) :
    CCoinsViewCache → List CTransaction → List Int → CCoinsViewCache → Prop where
  | nil (view : CCoinsViewCache) : ValuesConnect crypto nHeight view [] [] view
  | cons {view view' view'' : CCoinsViewCache} {tx : CTransaction}
      {txs : List CTransaction} {txundo : CTxUndo} {fees : List Int}
      (pays : Pays view tx)
      (update : UpdateCoins tx view nHeight (tx.GetHash crypto) =
        .ok (view', txundo))
      (rest : ValuesConnect crypto nHeight view' txs fees view'') :
      ValuesConnect crypto nHeight view (tx :: txs) (txFee view tx :: fees) view''

/-- The loop over some transactions from position `k` on. -/
theorem connectTxs_values {cfg : Config} {ctx : BlockContext} {fScriptChecks : Bool}
    {block : CBlock} (hchecked : ∀ tx ∈ block.vtx, CheckTransaction tx = .ok ()) :
    ∀ {txs : List CTransaction} {k : Nat} {acc acc' : ConnectState},
      block.vtx.drop k = txs → -2 ^ 63 ≤ acc.nFees →
      (txs.zipIdx k).foldlM (connectTx cfg ctx fScriptChecks
        (block.BuildMerkleTree cfg.crypto)) acc = .ok acc' →
      ∃ fees, ValuesConnect cfg.crypto ctx.nHeight acc.view txs fees acc'.view ∧
        -2 ^ 63 ≤ acc'.nFees ∧ acc'.nFees ≤ acc.nFees + fees.sum
  | [], _, acc, acc', _, hlow, h => by
      simp only [List.zipIdx_nil, List.foldlM_nil, pure_eq_ok,
        Except.ok.injEq] at h
      subst h
      exact ⟨[], .nil _, hlow, by simp⟩
  | tx :: txs, k, acc, acc', hdrop, hlow, h => by
      rw [List.zipIdx_cons, List.foldlM_cons, bind_eq_ok] at h
      obtain ⟨acc₁, htx, h⟩ := h
      have hi : block.vtx[k]? = some tx := by
        rw [← List.head?_drop, hdrop]
        rfl
      have hrest : block.vtx.drop (k + 1) = txs := by
        rw [← List.tail_drop, hdrop]
        rfl
      obtain ⟨txundo, hupdate, _⟩ := connectTx_ok hi htx
      obtain ⟨hpays, hfees⟩ := connectTx_pays (hchecked tx (List.mem_of_getElem? hi)) htx
      obtain ⟨hlow₁, hle₁⟩ := hfees hlow
      obtain ⟨fees, hvalues, hlow', hle'⟩ := connectTxs_values hchecked hrest hlow₁ h
      refine ⟨txFee acc.view tx :: fees, .cons hpays hupdate hvalues, hlow', ?_⟩
      rw [List.sum_cons]
      omega

/-! ### The total -/

/-- The outputs of a transaction, under its hash, are worth their sum. -/
theorem totalAtMost_outputs {tx : CTransaction} (h : ∀ v ∈ outputValues tx, 0 ≤ v)
    (view : CCoinsViewCache) (txid : uint256) (nHeight : Nat) :
    TotalAtMost (fun o => if o.hash = txid then
      (view.SetCoins txid (CCoins.ofTx tx nHeight)).value o else 0)
      (outputValues tx).sum := by
  have hnames : ∀ a b : COutPoint, a.hash = txid → b.hash = txid → a.n = b.n →
      a = b := by
    rintro ⟨_, n⟩ ⟨_, m⟩ rfl rfl hn
    exact congrArg _ hn
  have hvalues := (totalAtMost_list h).comap hnames
  intro S
  apply le_trans (Finset.sum_le_sum fun o _ => ?_) (hvalues S)
  by_cases hhash : o.hash = txid
  · rw [if_pos hhash, if_pos hhash, CCoinsViewCache.value,
      CCoinsViewCache.unspent_eq_entry, hhash, CCoinsViewCache.entry_setCoins_self,
      CCoins.unspent]
    cases hout : (CCoins.ofTx tx nHeight).output o.n with
    | none =>
        simp only [Option.map_none, List.getD_eq_getElem?_getD]
        cases hn : (outputValues tx)[o.n]? with
        | none => rfl
        | some v => exact h v (List.mem_of_getElem? hn)
    | some txout =>
        have hget : tx.vout[o.n]? = some txout := CCoins.getElem?_of_output_ofTx hout
        simp [outputValues, List.getD_eq_getElem?_getD, hget]
  · rw [if_neg hhash, if_neg hhash]

theorem value_of_unspent_eq {view view' : CCoinsViewCache} {o : COutPoint}
    (h : view'.unspent o = view.unspent o) : view'.value o = view.value o := by
  rw [CCoinsViewCache.value, CCoinsViewCache.value, h]

/-- What a transaction adds to the total. -/
def txMints (view : CCoinsViewCache) (tx : CTransaction) : Int :=
  if tx.IsCoinBase then (outputValues tx).sum else -txFee view tx

/-- Spending takes the inputs out, and creating adds the outputs. -/
theorem updateCoins_total {tx : CTransaction} {view view' : CCoinsViewCache}
    {nHeight : Nat} {txid : uint256} {txundo : CTxUndo} {bound : Int}
    (hpays : Pays view tx)
    (h : UpdateCoins tx view nHeight txid = .ok (view', txundo))
    (htotal : TotalAtMost view.value bound) :
    TotalAtMost view'.value (bound + txMints view tx) := by
  obtain ⟨view₁, hspent, rfl⟩ := updateCoins_ok h
  have hcreate : ∀ {bound₁ : Int}, TotalAtMost view₁.value bound₁ →
      TotalAtMost (view₁.SetCoins txid (CCoins.ofTx tx nHeight)).value
        (bound₁ + (outputValues tx).sum) := by
    intro bound₁ htotal₁
    apply htotal₁.replace (totalAtMost_outputs hpays.outNonneg view₁ txid nHeight)
    intro o hne
    apply value_of_unspent_eq
    rw [CCoinsViewCache.unspent, CCoinsViewCache.coins_setCoins_ne _ hne]
    rfl
  unfold txMints
  rcases markSpent_cases hspent with ⟨hcb, rfl, -⟩ | ⟨hcb, hspent⟩
  · rw [hcb, if_pos rfl]
    exact hcreate htotal
  · rw [hcb, if_neg Bool.false_ne_true]
    have hremoved : TotalAtMost view₁.value
        (bound - ∑ o ∈ (tx.vin.map CTxIn.prevout).toFinset, view.value o) := by
      apply htotal.remove
      intro o
      rw [CCoinsViewCache.value, unspent_spendInputs hspent]
      by_cases hmem : o ∈ tx.vin.map CTxIn.prevout
      · rw [if_pos hmem, if_pos (List.mem_toFinset.mpr hmem)]
      · rw [if_neg hmem, if_neg (fun hin => hmem (List.mem_toFinset.mp hin))]
        rfl
    have hsum : ∑ o ∈ (tx.vin.map CTxIn.prevout).toFinset, view.value o =
        (inputValues view tx).sum := by
      rw [List.sum_toFinset _ (hpays.nodup hcb), List.map_map]
      rfl
    apply (hcreate hremoved).mono
    rw [hsum, txFee, hcb, if_neg Bool.false_ne_true]
    omega

/-- The total after the transactions of a block: what the coinbase puts out
comes in, and the fees go. -/
theorem ValuesConnect.total {crypto : Crypto} {nHeight : Nat}
    {view view' : CCoinsViewCache} {txs : List CTransaction} {fees : List Int}
    {bound : Int} (h : ValuesConnect crypto nHeight view txs fees view')
    (hcb : ∀ tx ∈ txs, tx.IsCoinBase = false)
    (htotal : TotalAtMost view.value bound) :
    TotalAtMost view'.value (bound - fees.sum) := by
  induction h generalizing bound with
  | nil => simpa using htotal
  | cons pays update _ ih =>
      rename_i tx txs _ _ _
      have hstep := updateCoins_total pays update htotal
      have hrest := ih (fun t ht => hcb t (List.mem_cons_of_mem _ ht)) hstep
      apply hrest.mono
      rw [txMints, hcb tx List.mem_cons_self, if_neg Bool.false_ne_true, List.sum_cons]
      omega

theorem ValuesConnect.fees_nonneg {crypto : Crypto} {nHeight : Nat}
    {view view' : CCoinsViewCache} {txs : List CTransaction} {fees : List Int}
    (h : ValuesConnect crypto nHeight view txs fees view') : ∀ fee ∈ fees, 0 ≤ fee := by
  induction h with
  | nil => simp
  | cons pays _ _ ih =>
      intro fee hfee
      rcases List.mem_cons.mp hfee with rfl | hfee
      · exact pays.txFee_range.1
      · exact ih fee hfee

/-! ### Blocks -/

/-- What a connected block adds to the total, and its fees. -/
theorem connectBlock_values {cfg : Config} {ctx : BlockContext} {block : CBlock}
    {view view' : CCoinsViewCache} {vtxundo : CBlockUndo} {bound : Int}
    (h : ConnectBlock cfg ctx block view false = .ok (view', vtxundo))
    (htotal : TotalAtMost view.value bound) :
    ∃ coinbase fees view₁ nFees,
      ValuesConnect cfg.crypto ctx.nHeight view block.vtx fees view₁ ∧
      view' = view₁.SetBestBlock ctx.hash ∧
      coinbase ∈ block.vtx ∧ Pays view coinbase ∧
      TotalAtMost view'.value (bound + (outputValues coinbase).sum - fees.sum) ∧
      (block.GetHash cfg.crypto ≠ cfg.HashGenesisBlock →
        (outputValues coinbase).sum ≤
          cfg.GetBlockValue ctx.nHeight nFees block.IsPoKBlock) ∧
      -2 ^ 63 ≤ nFees ∧ nFees ≤ fees.sum := by
  obtain ⟨coinbase, txs, acc, _, hblock, _, _, hloop, ⟨nValueOut, hout, hamount⟩, _, _,
    _, rfl⟩ := connectBlock_ok h
  have hzero : -2 ^ 63 ≤ (0 : Int) := by decide
  obtain ⟨fees, hvalues, hlow, hle⟩ := connectTxs_values hblock.checked
    List.drop_zero hzero hloop
  refine ⟨coinbase, fees, acc.view, acc.nFees, hvalues, rfl, ?_, ?_, ?_, ?_, hlow, ?_⟩
  · rw [hblock.vtx_eq]
    exact List.mem_cons_self
  · rw [hblock.vtx_eq] at hvalues
    cases hvalues with
    | cons pays _ _ => exact pays
  · rw [hblock.vtx_eq] at hvalues
    cases hvalues with
    | cons pays update rest =>
        have hfirst := updateCoins_total pays update htotal
        have hrest := rest.total hblock.notCoinBase hfirst
        apply hrest.mono
        rw [txMints, hblock.isCoinBase, if_pos rfl, txFee, hblock.isCoinBase,
          if_pos rfl, List.sum_cons]
        omega
  · intro hgenesis
    rw [← (valueOut_ok hout).1]
    exact hamount hgenesis
  · simpa using hle

/-- The reward with fees is the reward without them and the fees, or less. -/
theorem getBlockValue_le {cfg : Config} {nHeight : Nat} {nFees : Int} {fPoK : Bool}
    (hheight : nHeight ≠ 0) (hreward : 0 ≤ cfg.GetBlockValue nHeight 0 fPoK)
    (hlow : -2 ^ 63 ≤ nFees) :
    cfg.GetBlockValue nHeight nFees fPoK ≤
      cfg.GetBlockValue nHeight 0 fPoK + nFees := by
  have hwrap : cfg.GetBlockValue nHeight nFees fPoK =
      int64 (cfg.GetBlockValue nHeight 0 fPoK + nFees) := by
    simp only [Config.GetBlockValue, if_neg hheight, int64, add_zero,
      Int.bmod_add_bmod]
  rw [hwrap]
  exact int64_le_self (by omega)

/-- A block above the genesis block adds at most its reward. -/
theorem connectBlock_total {cfg : Config} {ctx : BlockContext} {block : CBlock}
    {view view' : CCoinsViewCache} {vtxundo : CBlockUndo} {bound : Int}
    (h : ConnectBlock cfg ctx block view false = .ok (view', vtxundo))
    (hheight : ctx.nHeight ≠ 0)
    (hgenesis : block.GetHash cfg.crypto ≠ cfg.HashGenesisBlock)
    (hreward : 0 ≤ cfg.GetBlockValue ctx.nHeight 0 block.IsPoKBlock)
    (htotal : TotalAtMost view.value bound) :
    TotalAtMost view'.value
      (bound + cfg.GetBlockValue ctx.nHeight 0 block.IsPoKBlock) := by
  obtain ⟨coinbase, fees, view₁, nFees, _, _, _, _, htotal', hamount, hlow, hle⟩ :=
    connectBlock_values h htotal
  have hvalue := getBlockValue_le hheight hreward hlow
  have hcoinbase := hamount hgenesis
  apply htotal'.mono
  omega

/-- The fees of a block add up without overflow while the total is an
amount. -/
theorem connectBlock_fees {cfg : Config} {ctx : BlockContext} {block : CBlock}
    {view view' : CCoinsViewCache} {vtxundo : CBlockUndo} {bound : Int}
    (h : ConnectBlock cfg ctx block view false = .ok (view', vtxundo))
    (htotal : TotalAtMost view.value bound) :
    ∃ fees view₁, ValuesConnect cfg.crypto ctx.nHeight view block.vtx fees view₁ ∧
      (bound ≤ MAX_MONEY_SATOSHIS → FitsInt64 fees) := by
  obtain ⟨coinbase, fees, view₁, nFees, hvalues, _, _, hpays, htotal', _⟩ :=
    connectBlock_values h htotal
  refine ⟨fees, view₁, hvalues, fun hmax => ?_⟩
  apply fitsInt64_of_nonneg hvalues.fees_nonneg
  have hnonneg := htotal'.nonneg
  have hcoinbase := hpays.outMax
  have hconst : MAX_MONEY_SATOSHIS = 1200000000000000 := by decide
  omega

/-! ### Chains -/

/-- A block that has been connected, with what it was connected to. -/
structure ConnectedBlock where
  ctx : BlockContext
  block : CBlock
  view : CCoinsViewCache

/-- Blocks connected one after the other from the genesis block on, whether the
view was flushed to disk since, and the view they lead to.  The index holds
each block once, so the genesis block does not come again. -/
inductive Connects (cfg : Config) :
    List ConnectedBlock → Bool → CCoinsViewCache → Prop where
  | genesis {ctx : BlockContext} {view : CCoinsViewCache} {vtxundo : CBlockUndo}
      (nHeight : ctx.nHeight = 0)
      (connects : ConnectBlock cfg ctx cfg.GenesisBlock .empty false =
        .ok (view, vtxundo)) :
      Connects cfg [⟨ctx, cfg.GenesisBlock, .empty⟩] false view
  | connect {blocks : List ConnectedBlock} {fFlushed : Bool} {ctx : BlockContext}
      {block : CBlock} {view view' : CCoinsViewCache} {vtxundo : CBlockUndo}
      (before : Connects cfg blocks fFlushed view)
      (nHeight : ctx.nHeight = blocks.length)
      (notGenesis : block.GetHash cfg.crypto ≠ cfg.HashGenesisBlock)
      (connects : ConnectBlock cfg ctx block view false = .ok (view', vtxundo)) :
      Connects cfg (blocks ++ [⟨ctx, block, view⟩]) fFlushed view'
  | flush {blocks : List ConnectedBlock} {fFlushed : Bool} {view : CCoinsViewCache}
      (before : Connects cfg blocks fFlushed view) :
      Connects cfg blocks true view.Flush

/-- What the genesis block put out and the rewards of the blocks above it. -/
def issued (cfg : Config) : List ConnectedBlock → Int
  | [] => 0
  | genesis :: blocks =>
      (genesis.block.vtx.flatMap outputValues).sum +
        (blocks.map fun b =>
          cfg.GetBlockValue b.ctx.nHeight 0 b.block.IsPoKBlock).sum

theorem Connects.ne_nil {cfg : Config} {blocks : List ConnectedBlock}
    {fFlushed : Bool} {view : CCoinsViewCache}
    (h : Connects cfg blocks fFlushed view) : blocks ≠ [] := by
  induction h with
  | genesis => simp
  | connect => simp
  | flush _ ih => exact ih

theorem issued_append {cfg : Config} {blocks : List ConnectedBlock}
    (hne : blocks ≠ []) (b : ConnectedBlock) :
    issued cfg (blocks ++ [b]) =
      issued cfg blocks + cfg.GetBlockValue b.ctx.nHeight 0 b.block.IsPoKBlock := by
  cases blocks with
  | nil => exact absurd rfl hne
  | cons genesis blocks =>
      simp only [issued, List.cons_append, List.map_append, List.sum_append,
        List.map_cons, List.map_nil, List.sum_cons, List.sum_nil]
      omega

theorem value_flush (view : CCoinsViewCache) (o : COutPoint) :
    view.Flush.value o = view.value o := by
  have hout := view.output_entry_flush o.hash o.n
  simp only [CCoinsViewCache.value, CCoinsViewCache.unspent_eq_entry, CCoins.unspent,
    hout]
  cases (view.entry o.hash).output o.n with
  | none => rfl
  | some txout => rfl

theorem totalAtMost_empty : TotalAtMost CCoinsViewCache.empty.value 0 := by
  intro S
  apply le_of_eq
  apply Finset.sum_eq_zero
  intro o _
  rfl

/-- The genesis block adds at most what it puts out. -/
theorem connectBlock_genesis_total {cfg : Config} {ctx : BlockContext}
    {block : CBlock} {view' : CCoinsViewCache} {vtxundo : CBlockUndo}
    (h : ConnectBlock cfg ctx block .empty false = .ok (view', vtxundo)) :
    TotalAtMost view'.value (block.vtx.flatMap outputValues).sum := by
  obtain ⟨coinbase, txs, _, _, hblock, _⟩ := connectBlock_ok h
  obtain ⟨coinbase', fees, view₁, _, hvalues, _, hmem, _, htotal, _⟩ :=
    connectBlock_values h totalAtMost_empty
  have hfees : 0 ≤ fees.sum := List.sum_nonneg hvalues.fees_nonneg
  have houts : ∀ tx ∈ block.vtx, ∀ v ∈ outputValues tx, 0 ≤ v := by
    intro tx htx v hv
    obtain ⟨txout, hout, rfl⟩ := List.mem_map.mp hv
    exact hblock.values tx htx txout hout
  have hle : (outputValues coinbase').sum ≤ (block.vtx.flatMap outputValues).sum := by
    obtain ⟨before, after, hsplit⟩ := List.append_of_mem hmem
    have hothers : ∀ txs : List CTransaction, (∀ tx ∈ txs, tx ∈ block.vtx) →
        0 ≤ (txs.flatMap outputValues).sum := by
      intro txs hsub
      apply List.sum_nonneg
      intro v hv
      obtain ⟨tx, htx, hv⟩ := List.mem_flatMap.mp hv
      exact houts tx (hsub tx htx) v hv
    have hbefore := hothers before fun tx htx => by simp [hsplit, htx]
    have hafter := hothers after fun tx htx => by simp [hsplit, htx]
    rw [hsplit, List.flatMap_append, List.flatMap_cons, List.sum_append,
      List.sum_append]
    omega
  apply htotal.mono
  omega

/-- The total stays below what has been issued. -/
theorem Connects.total {cfg : Config} {blocks : List ConnectedBlock}
    {fFlushed : Bool} {view : CCoinsViewCache}
    (hreward : ∀ nHeight fPoK, 0 ≤ cfg.GetBlockValue nHeight 0 fPoK)
    (h : Connects cfg blocks fFlushed view) :
    TotalAtMost view.value (issued cfg blocks) := by
  induction h with
  | genesis _ connects =>
      apply (connectBlock_genesis_total connects).mono
      simp [issued]
  | connect before nHeight notGenesis connects ih =>
      rename_i blocks _ ctx block _ _ _
      have hheight : ctx.nHeight ≠ 0 := by
        rw [nHeight]
        exact fun hlen => before.ne_nil (List.length_eq_zero_iff.mp hlen)
      rw [issued_append before.ne_nil]
      exact connectBlock_total connects hheight notGenesis (hreward _ _) ih
  | flush _ ih =>
      intro S
      simp only [value_flush]
      exact ih S

/-- Each block of the chain was connected with paying transactions, and its
fees fit as long as what has been issued is an amount. -/
theorem Connects.fees {cfg : Config} {blocks : List ConnectedBlock}
    {fFlushed : Bool} {view : CCoinsViewCache}
    (hreward : ∀ nHeight fPoK, 0 ≤ cfg.GetBlockValue nHeight 0 fPoK)
    (h : Connects cfg blocks fFlushed view) :
    ∀ b ∈ blocks, ∃ fees view₁,
      ValuesConnect cfg.crypto b.ctx.nHeight b.view b.block.vtx fees view₁ ∧
      (issued cfg blocks ≤ MAX_MONEY_SATOSHIS → FitsInt64 fees) := by
  induction h with
  | genesis _ connects =>
      intro b hb
      rw [List.mem_singleton] at hb
      subst hb
      obtain ⟨fees, view₁, hvalues, hfits⟩ := connectBlock_fees connects
        totalAtMost_empty
      exact ⟨fees, view₁, hvalues, fun _ => hfits (by decide)⟩
  | connect before nHeight notGenesis connects ih =>
      intro b hb
      rw [issued_append before.ne_nil]
      rcases List.mem_append.mp hb with hb | hb
      · obtain ⟨fees, view₁, hvalues, hfits⟩ := ih b hb
        refine ⟨fees, view₁, hvalues, fun hmax => hfits ?_⟩
        exact le_trans (le_add_of_nonneg_right (hreward _ _)) hmax
      · rw [List.mem_singleton] at hb
        subst hb
        obtain ⟨fees, view₁, hvalues, hfits⟩ :=
          connectBlock_fees connects (before.total hreward)
        refine ⟨fees, view₁, hvalues, fun hmax => hfits ?_⟩
        exact le_trans (le_add_of_nonneg_right (hreward _ _)) hmax
  | flush _ ih => exact ih

/-- All transactions of a chain, the first one first. -/
def transactions (blocks : List ConnectedBlock) : List CTransaction :=
  blocks.flatMap fun b => b.block.vtx

/-- A block extends the history of its view by its transactions. -/
theorem connectBlock_ran {cfg : Config} {ctx : BlockContext} {block : CBlock}
    {view view' : CCoinsViewCache} {vtxundo : CBlockUndo} {txs : List CTransaction}
    {fFlushed : Bool} (hran : Ran cfg.crypto txs fFlushed view)
    (h : ConnectBlock cfg ctx block view false = .ok (view', vtxundo)) :
    Ran cfg.crypto (txs ++ block.vtx) fFlushed view' := by
  obtain ⟨_, _, view₁, hblock, _, hfresh, hviews, rfl⟩ := connectBlock_views h
  exact (hran.viewConnects hviews hfresh hblock.nodup hblock.checked).best _

theorem Connects.ran {cfg : Config} {blocks : List ConnectedBlock}
    {fFlushed : Bool} {view : CCoinsViewCache}
    (h : Connects cfg blocks fFlushed view) :
    Ran cfg.crypto (transactions blocks) fFlushed view := by
  induction h with
  | genesis _ connects => simpa [transactions] using connectBlock_ran .start connects
  | connect _ _ _ connects ih => simpa [transactions] using connectBlock_ran ih connects
  | flush _ ih => exact ih.flush

/-! ### The theorem -/

/-- For every sequence of blocks connected from the genesis block on, with the
view flushed to disk at any time: the unspent outputs are worth at most what
the genesis block put out and the rewards since; in every block each
transaction pays, so that it spends at least what it puts out and the sums over
its inputs and outputs do not overflow, and neither do the fees while what was
issued is an amount; without a flush no outpoint is spent twice, and with one
only if a transaction with its hash was connected in between. -/
theorem supply_conserved {cfg : Config} {blocks : List ConnectedBlock}
    {fFlushed : Bool} {view : CCoinsViewCache}
    (hreward : ∀ nHeight fPoK, 0 ≤ cfg.GetBlockValue nHeight 0 fPoK ∧
      cfg.GetBlockValue nHeight 0 fPoK ≤ MAX_MONEY_SATOSHIS)
    (h : Connects cfg blocks fFlushed view) :
    TotalAtMost view.value (issued cfg blocks) ∧
    (∀ b ∈ blocks, ∃ fees view₁,
      ValuesConnect cfg.crypto b.ctx.nHeight b.view b.block.vtx fees view₁ ∧
      (issued cfg blocks ≤ MAX_MONEY_SATOSHIS → FitsInt64 fees)) ∧
    (fFlushed = false → (spentBy (transactions blocks)).Nodup) ∧
    ∀ (i j : Nat) (tx tx' : CTransaction) (o : COutPoint), i < j →
      (transactions blocks)[i]? = some tx →
      (transactions blocks)[j]? = some tx' → Spends tx o → Spends tx' o →
      ∃ (k : Nat) (tx'' : CTransaction), i < k ∧ k < j ∧
        (transactions blocks)[k]? = some tx'' ∧ tx''.GetHash cfg.crypto = o.hash := by
  have hnonneg : ∀ nHeight fPoK, 0 ≤ cfg.GetBlockValue nHeight 0 fPoK :=
    fun nHeight fPoK => (hreward nHeight fPoK).1
  refine ⟨h.total hnonneg, h.fees hnonneg, ?_, ?_⟩
  · intro hflush
    exact (h.ran.spent_of_not_flushed hflush).1
  · intro i j tx tx' o hij hi hj hspends hspends'
    exact h.ran.respent hij hi hj hspends hspends'

/-! ### On the small network -/

theorem zeroNet_reward (nHeight : Nat) (fPoK : Bool) :
    0 ≤ zeroNet.GetBlockValue nHeight 0 fPoK ∧
      zeroNet.GetBlockValue nHeight 0 fPoK ≤ MAX_MONEY_SATOSHIS := by
  cases nHeight with
  | zero =>
      have hgenesis : zeroNet.GetBlockValue 0 0 fPoK = 0 := rfl
      rw [hgenesis]
      decide
  | succ nHeight =>
      have hvalue : zeroNet.GetBlockValue (nHeight + 1) 0 fPoK = int64 50 := rfl
      rw [hvalue]
      decide

/-- A chain of two blocks issues fifty. -/
theorem supply_conserved_coinbaseBlock :
    ∃ blocks view, Connects zeroNet blocks false view ∧
      TotalAtMost view.value 50 ∧ (spentBy (transactions blocks)).Nodup := by
  obtain ⟨view, view', vtxundo, _, ⟨undo, hstart⟩, hconnect, _⟩ :=
    zeroConnect_ok coinbaseBlock (by decide +kernel)
  have hgenesis := Connects.genesis rfl hstart
  have hrun := hgenesis.connect rfl (by decide +kernel) hconnect
  have hsupply := supply_conserved zeroNet_reward hrun
  refine ⟨_, view', hrun, hsupply.1.mono ?_, hsupply.2.2.1 rfl⟩
  apply le_of_eq
  rfl

/-- A coinbase whose output can be spent at once. -/
def repeatedCoinbase : CTransaction := coinbaseTx 2 1 [⟨0, anyoneCanSpend⟩]

/-- A spend of that output. -/
def respend (nVersion : Int) : CTransaction :=
  spendTx nVersion [⟨repeatedCoinbase.GetHash smallCrypto, 0⟩] [⟨0, anyoneCanSpend⟩]

/-- The blocks above the genesis block, by height. -/
def respendBlock : Nat → CBlock
  | 1 => smallBlock 2 1 (hashOfNonce 1) [repeatedCoinbase]
  | 2 => smallBlock 3 2 (hashOfNonce 2) [coinbaseTx 3 2 [⟨0, anyoneCanSpend⟩], respend 10]
  | 3 => smallBlock 4 3 (hashOfNonce 3) [repeatedCoinbase]
  | nHeight => smallBlock (nHeight + 1) nHeight (hashOfNonce nHeight)
      [coinbaseTx 5 nHeight [⟨0, anyoneCanSpend⟩], respend 11]

def respendConnect (nHeight : Nat) (view : CCoinsViewCache) :
    Run (CCoinsViewCache × CBlockUndo) :=
  ConnectBlock zeroNet (smallContext nHeight) (respendBlock nHeight) view false

/-- Two blocks, a flush, and two more blocks. -/
def respendRun : Run (CCoinsViewCache × CBlockUndo) := do
  let (view, _) ← zeroStart
  let (view, _) ← respendConnect 1 view
  let (view, _) ← respendConnect 2 view
  let (view, _) ← respendConnect 3 view.Flush
  respendConnect 4 view

/-- Once the only output of a coinbase is spent and the view is flushed, the
same coinbase is connected again, and its output is spent a second time. -/
theorem connects_respent :
    ∃ blocks fFlushed view, Connects zeroNet blocks fFlushed view ∧
      ¬ (spentBy (transactions blocks)).Nodup := by
  obtain ⟨r, hr⟩ := exists_eq_ok_of_isOk (x := respendRun) (by decide +kernel)
  unfold respendRun at hr
  simp only [bind_eq_ok] at hr
  obtain ⟨⟨view₀, _⟩, hstart, ⟨view₁, _⟩, h₁, ⟨view₂, _⟩, h₂, ⟨view₃, _⟩, h₃, h₄⟩ := hr
  have hrun₁ := (Connects.genesis rfl hstart).connect rfl (by decide +kernel) h₁
  have hrun₂ := hrun₁.connect rfl (by decide +kernel) h₂
  have hrun₃ := hrun₂.flush.connect rfl (by decide +kernel) h₃
  have hrun₄ := hrun₃.connect rfl (by decide +kernel) h₄
  refine ⟨_, _, _, hrun₄, ?_⟩
  have hspent : ∀ txs, txs = zeroNet.GenesisBlock.vtx ++ (respendBlock 1).vtx ++
      (respendBlock 2).vtx ++ (respendBlock 3).vtx ++ (respendBlock 4).vtx →
      ¬ (spentBy txs).Nodup := by
    rintro txs rfl
    decide +kernel
  exact hspent _ rfl

end Ziftrcoin.Spec
