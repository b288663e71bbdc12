/-
Module: Ziftrcoin.Proofs.AccountTotals
Purpose: What the accounts gain from a transaction adds up to what the wallet gains,
  unless an output pays to a script that the wallet knows and does not own.
Trusted boundary: none
Main exports: AmountsInRange, accountTotals_iff
-/
import Ziftrcoin.Proofs.Supply
import Ziftrcoin.Spec.WalletAmounts

namespace Ziftrcoin.Spec

open Ziftrcoin.Lib

/-- What the labels get of a list add up to the whole of it. -/
theorem sum_labelled {α β : Type} [DecidableEq β] (label : α → β) (value : α → ℤ)
    (S : Finset β) {l : List α} (h : ∀ x ∈ l, label x ∈ S) :
    ∑ b ∈ S, ((l.filter fun x => label x = b).map value).sum = (l.map value).sum := by
  induction l with
  | nil => simp
  | cons x l ih =>
      have hsplit : ∀ b, (((x :: l).filter fun x => label x = b).map value).sum =
          (if label x = b then value x else 0) +
            ((l.filter fun x => label x = b).map value).sum := by
        intro b
        by_cases hx : label x = b
        · simp [hx]
        · simp [hx]
      have hrest := ih fun y hy => h y (List.mem_cons_of_mem x hy)
      rw [Finset.sum_congr rfl fun b _ => hsplit b, Finset.sum_add_distrib,
        Finset.sum_ite_eq, if_pos (h x (List.mem_cons_self)), hrest, List.map_cons,
        List.sum_cons]

/-! ### Sums in range -/

/-- The values of the outputs and of what is spent are in the money range, as are their
totals. -/
structure AmountsInRange (wallet : WalletBook) (tx : CTransaction) : Prop where
  out : ∀ txout ∈ tx.vout, 0 ≤ txout.nValue
  outTotal : (tx.vout.map CTxOut.nValue).sum ≤ MAX_MONEY_SATOSHIS
  debit : ∀ txin ∈ tx.vin, 0 ≤ wallet.GetDebitIn txin
  debitTotal : (tx.vin.map wallet.GetDebitIn).sum ≤ MAX_MONEY_SATOSHIS

section

variable {wallet : WalletBook}

theorem sum_map_nonneg {α : Type} {f : α → ℤ} {l : List α} (h : ∀ x ∈ l, 0 ≤ f x) :
    0 ≤ (l.map f).sum := by
  apply List.sum_nonneg
  intro v hv
  obtain ⟨x, hx, rfl⟩ := List.mem_map.mp hv
  exact h x hx

/-- A value that is added to a sum below the bound of the money range. -/
theorem add_in_range {n v : ℤ} (hn : 0 ≤ n) (hv : 0 ≤ v)
    (hle : n + v ≤ MAX_MONEY_SATOSHIS) :
    int64 (n + v) = n + v ∧ MoneyRange v = true ∧ MoneyRange (n + v) = true := by
  refine ⟨int64_of_amounts hn (by omega) hv (by omega), ?_, ?_⟩
  all_goals
    rw [moneyRange_iff]
    omega

/-- A loop that adds up values goes through if the total stays in the money range. -/
theorem runningSum_eq {α : Type} {loop : ℤ → List α → Option ℤ} {value : α → ℤ} {P : α → Prop}
    (hnil : ∀ n, loop n [] = some n) (hvalue : ∀ a, P a → 0 ≤ value a)
    (hcons : ∀ n a as, P a → 0 ≤ n → n + value a ≤ MAX_MONEY_SATOSHIS →
      loop n (a :: as) = loop (n + value a) as)
    {l : List α} {n : ℤ} (hn : 0 ≤ n) (hl : ∀ a ∈ l, P a)
    (hle : n + (l.map value).sum ≤ MAX_MONEY_SATOSHIS) :
    loop n l = some (n + (l.map value).sum) := by
  induction l generalizing n with
  | nil => rw [hnil, List.map_nil, List.sum_nil, add_zero]
  | cons a l ih =>
      rw [List.map_cons, List.sum_cons] at hle ⊢
      have ha := hvalue a (hl a List.mem_cons_self)
      have hl' : ∀ b ∈ l, P b := fun b hb => hl b (List.mem_cons_of_mem a hb)
      have hrest := sum_map_nonneg fun b hb => hvalue b (hl' b hb)
      rw [hcons n a l (hl a List.mem_cons_self) hn (by omega), ih (by omega) hl' (by omega),
        add_assoc]

theorem getDebitFrom_eq {vin : List CTxIn} {nDebit : ℤ} (hn : 0 ≤ nDebit)
    (hvin : ∀ txin ∈ vin, 0 ≤ wallet.GetDebitIn txin)
    (hle : nDebit + (vin.map wallet.GetDebitIn).sum ≤ MAX_MONEY_SATOSHIS) :
    wallet.getDebitFrom nDebit vin = some (nDebit + (vin.map wallet.GetDebitIn).sum) := by
  refine runningSum_eq (fun _ => rfl) (fun _ h => h) (fun n txin rest hv hn hle => ?_) hn hvin hle
  obtain ⟨hadd, -, hrange⟩ := add_in_range hn hv hle
  simp only [WalletBook.getDebitFrom, hadd, hrange, Bool.true_eq_false, if_false]

/-- What an output brings into the wallet. -/
def WalletBook.credit (wallet : WalletBook) (txout : CTxOut) : ℤ :=
  if wallet.IsMine txout then txout.nValue else 0

theorem credit_bounds (wallet : WalletBook) {txout : CTxOut} (h : 0 ≤ txout.nValue) :
    0 ≤ wallet.credit txout ∧ wallet.credit txout ≤ txout.nValue := by
  unfold WalletBook.credit
  split_ifs <;> omega

theorem getCreditFrom_eq {vout : List CTxOut} {nCredit : ℤ} (hn : 0 ≤ nCredit)
    (hvout : ∀ txout ∈ vout, 0 ≤ txout.nValue)
    (hle : nCredit + (vout.map CTxOut.nValue).sum ≤ MAX_MONEY_SATOSHIS) :
    wallet.getCreditFrom nCredit vout = some (nCredit + (vout.map wallet.credit).sum) := by
  have hranges : ∀ txout ∈ vout, 0 ≤ txout.nValue ∧ txout.nValue ≤ MAX_MONEY_SATOSHIS := by
    intro txout htxout
    have hone : txout.nValue ≤ (vout.map CTxOut.nValue).sum := by
      refine List.single_le_sum (fun v hv => ?_) _ (List.mem_map_of_mem htxout)
      obtain ⟨t, ht, rfl⟩ := List.mem_map.mp hv
      exact hvout t ht
    exact ⟨hvout txout htxout, by omega⟩
  have hcredits : (vout.map wallet.credit).sum ≤ (vout.map CTxOut.nValue).sum :=
    List.sum_le_sum fun txout htxout => (credit_bounds wallet (hvout txout htxout)).2
  refine runningSum_eq (fun _ => rfl) (fun txout h => (credit_bounds wallet h.1).1)
    (fun n txout rest hv hn hle => ?_) hn hranges
    (((add_le_add_iff_left nCredit).mpr hcredits).trans hle)
  obtain ⟨-, hvalue, -⟩ := add_in_range le_rfl hv.1 (by omega)
  obtain ⟨hadd, -, hrange⟩ := add_in_range hn (credit_bounds wallet hv.1).1 hle
  unfold WalletBook.credit at hadd hrange ⊢
  simp only [WalletBook.getCreditFrom, hvalue, hadd, hrange, Bool.true_eq_false, if_false]

theorem getValueOutFrom_eq {vout : List CTxOut} {nValueOut : ℤ} (hn : 0 ≤ nValueOut)
    (hvout : ∀ txout ∈ vout, 0 ≤ txout.nValue)
    (hle : nValueOut + (vout.map CTxOut.nValue).sum ≤ MAX_MONEY_SATOSHIS) :
    getValueOutFrom nValueOut vout = some (nValueOut + (vout.map CTxOut.nValue).sum) := by
  refine runningSum_eq (fun _ => rfl) (fun _ h => h) (fun n txout rest hv hn hle => ?_) hn hvout hle
  obtain ⟨hadd, hvalue, hrange⟩ := add_in_range hn hv hle
  simp only [getValueOutFrom, hadd, hvalue, hrange, Bool.true_eq_false, or_self, if_false]

/-! ### The lists of amounts -/

/-- The amounts are added up exactly when they stay in range. -/
theorem addUp_eq {amounts : List (CTxDestination × ℤ)} (h : ∀ r ∈ amounts, 0 ≤ r.2)
    (hle : (amounts.map Prod.snd).sum ≤ MAX_MONEY_SATOSHIS) :
    WalletBook.addUp amounts = (amounts.map Prod.snd).sum := by
  have hsum := @runningSum_eq (CTxDestination × ℤ)
    (fun n l => some (l.foldl (fun nSum amount => int64 (nSum + amount.2)) n)) Prod.snd
    (fun r => 0 ≤ r.2) (fun _ => rfl) (fun _ hr => hr) ?_ amounts 0 le_rfl h (by omega)
  · rw [zero_add] at hsum
    exact Option.some.inj hsum
  · intro n r l hr hn hle
    rw [List.foldl_cons, (add_in_range hn hr hle).1]

/-- What the accounts receive of an output. -/
def WalletBook.received (wallet : WalletBook) (nDebit : ℤ) (txout : CTxOut) : ℤ :=
  if 0 < nDebit ∧ wallet.IsChange txout = true then 0 else wallet.credit txout

/-- What is sent with an output. -/
def WalletBook.sent (wallet : WalletBook) (nDebit : ℤ) (txout : CTxOut) : ℤ :=
  if 0 < nDebit ∧ wallet.IsChange txout = false then txout.nValue else 0

/-- The lists hold what is received of each output and what is sent with it. -/
theorem listAmounts_sums (wallet : WalletBook) (nDebit : ℤ) : ∀ {vout : List CTxOut},
    (∀ txout ∈ vout, 0 ≤ txout.nValue) →
    ((wallet.listAmounts nDebit vout).1.map Prod.snd).sum =
        (vout.map (wallet.received nDebit)).sum ∧
      ((wallet.listAmounts nDebit vout).2.map Prod.snd).sum =
        (vout.map (wallet.sent nDebit)).sum ∧
      (∀ r ∈ (wallet.listAmounts nDebit vout).1, 0 ≤ r.2) ∧
      ∀ s ∈ (wallet.listAmounts nDebit vout).2, 0 ≤ s.2
  | [], _ => by simp [WalletBook.listAmounts]
  | txout :: vout, h => by
      obtain ⟨hreceived, hsent, hposReceived, hposSent⟩ :=
        listAmounts_sums wallet nDebit fun t ht => h t (List.mem_cons_of_mem txout ht)
      have hv := h txout List.mem_cons_self
      simp only [WalletBook.listAmounts, List.map_cons, List.sum_cons, ← hreceived, ← hsent]
      unfold WalletBook.received WalletBook.sent WalletBook.credit
      have hpos := And.intro (fun a b => hposReceived (a, b)) fun a b => hposSent (a, b)
      by_cases hdebit : 0 < nDebit
      · cases wallet.IsChange txout <;> cases wallet.IsMine txout <;>
          simpa [hdebit, hv] using hpos
      · cases wallet.IsMine txout <;> simpa [hdebit, hv] using hpos

/-! ### The accounts together -/

/-- The account that an address belongs to. -/
def WalletBook.accountOf (wallet : WalletBook) (address : CTxDestination) : String :=
  (wallet.mapAddressBook address).getD ""

theorem receivesFor_eq (strAccount : String) (address : CTxDestination) :
    wallet.receivesFor strAccount address = decide (wallet.accountOf address = strAccount) := by
  unfold WalletBook.receivesFor WalletBook.accountOf
  cases wallet.mapAddressBook address with
  | none => exact (beq_eq_decide strAccount "").trans (decide_eq_decide.mpr eq_comm)
  | some name => rfl

/-- What an account receives and what is sent from it, and its fee. -/
def WalletBook.amountsOf (wallet : WalletBook) (wtx : AccountTx) (nDebit nFee : ℤ)
    (strAccount : String) : AccountAmounts :=
  let lists := wallet.listAmounts nDebit wtx.tx.vout
  { nReceived := ((lists.1.filter fun r => wallet.accountOf r.1 = strAccount).map Prod.snd).sum
    nSent := if strAccount = wtx.strFromAccount then (lists.2.map Prod.snd).sum else 0
    nFee := if strAccount = wtx.strFromAccount then nFee else 0 }

/-- The fee of a transaction. -/
def feeOf (tx : CTransaction) (nDebit : ℤ) : ℤ :=
  if 0 < nDebit then nDebit - (tx.vout.map CTxOut.nValue).sum else 0

theorem AmountsInRange.getDebit_eq {tx : CTransaction} (h : AmountsInRange wallet tx) :
    wallet.GetDebit tx = some (tx.vin.map wallet.GetDebitIn).sum := by
  unfold WalletBook.GetDebit
  rw [getDebitFrom_eq le_rfl h.debit (by rw [zero_add]; exact h.debitTotal), zero_add]

theorem AmountsInRange.getCredit_eq {tx : CTransaction} (h : AmountsInRange wallet tx) :
    wallet.GetCredit tx = some (tx.vout.map wallet.credit).sum := by
  unfold WalletBook.GetCredit
  rw [getCreditFrom_eq le_rfl h.out (by rw [zero_add]; exact h.outTotal), zero_add]

theorem AmountsInRange.getValueOut_eq {tx : CTransaction} (h : AmountsInRange wallet tx) :
    tx.GetValueOut = some (tx.vout.map CTxOut.nValue).sum := by
  unfold CTransaction.GetValueOut
  rw [getValueOutFrom_eq le_rfl h.out (by rw [zero_add]; exact h.outTotal), zero_add]

theorem sum_map_le {f g : CTxOut → ℤ} {vout : List CTxOut} (h : ∀ txout ∈ vout, f txout ≤ g txout) :
    (vout.map f).sum ≤ (vout.map g).sum :=
  List.sum_le_sum h

/-- In the money range no sum is cut off, so the calls return the exact amounts. -/
theorem AmountsInRange.getAccountAmounts_eq {wtx : AccountTx}
    (h : AmountsInRange wallet wtx.tx) (strAccount : String) :
    wallet.GetAccountAmounts wtx strAccount =
      some (wallet.amountsOf wtx (wtx.tx.vin.map wallet.GetDebitIn).sum
        (feeOf wtx.tx (wtx.tx.vin.map wallet.GetDebitIn).sum) strAccount) := by
  have hdebit := sum_map_nonneg h.debit
  have hdebit' := h.debitTotal
  have hvalueOut := sum_map_nonneg h.out
  have hvalueOut' := h.outTotal
  generalize hnDebit : (wtx.tx.vin.map wallet.GetDebitIn).sum = nDebit at *
  obtain ⟨hreceived, hsent, hposReceived, hposSent⟩ :=
    listAmounts_sums wallet nDebit h.out
  have hleReceived : ((wallet.listAmounts nDebit wtx.tx.vout).1.map Prod.snd).sum ≤
      MAX_MONEY_SATOSHIS := by
    rw [hreceived]
    refine (sum_map_le fun txout htxout => ?_).trans hvalueOut'
    have hbounds := credit_bounds wallet (h.out txout htxout)
    unfold WalletBook.received
    split_ifs <;> omega
  have hleSent : ((wallet.listAmounts nDebit wtx.tx.vout).2.map Prod.snd).sum ≤
      MAX_MONEY_SATOSHIS := by
    rw [hsent]
    refine (sum_map_le fun txout htxout => ?_).trans hvalueOut'
    have hbounds := h.out txout htxout
    unfold WalletBook.sent
    split_ifs <;> omega
  have hmax : MAX_MONEY_SATOSHIS = 1200000000000000 := by decide
  have hamounts : wallet.GetAmounts wtx =
      some ⟨(wallet.listAmounts nDebit wtx.tx.vout).1,
        (wallet.listAmounts nDebit wtx.tx.vout).2, feeOf wtx.tx nDebit,
        wtx.strFromAccount⟩ := by
    unfold WalletBook.GetAmounts feeOf
    simp only [h.getDebit_eq, hnDebit, h.getValueOut_eq]
    split_ifs with hpos
    · rw [int64_eq_self (by omega) (by omega)]
    · rfl
  have hfilter : WalletBook.addUp
      ((wallet.listAmounts nDebit wtx.tx.vout).1.filter fun r =>
        wallet.receivesFor strAccount r.1) =
      (((wallet.listAmounts nDebit wtx.tx.vout).1.filter fun r =>
        wallet.accountOf r.1 = strAccount).map Prod.snd).sum := by
    simp only [receivesFor_eq]
    apply addUp_eq
    · exact fun r hr => hposReceived r (List.mem_of_mem_filter hr)
    · refine le_trans ?_ hleReceived
      apply (List.filter_sublist.map Prod.snd).sum_le_sum
      intro v hv
      obtain ⟨r, hr, rfl⟩ := List.mem_map.mp hv
      exact hposReceived r hr
  unfold WalletBook.GetAccountAmounts WalletBook.amountsOf
  simp only [hamounts, hfilter, addUp_eq hposSent hleSent]
  split_ifs <;> rfl

end

/-- `GetDebit`, `GetCredit` and `GetAccountAmounts` all return, and what the accounts gain
adds up to what the wallet gains. -/
def AccountsAddUp (wallet : WalletBook) (wtx : AccountTx) (accounts : Finset String) : Prop :=
  ∃ nDebit nCredit, ∃ amounts : String → AccountAmounts,
    wallet.GetDebit wtx.tx = some nDebit ∧ wallet.GetCredit wtx.tx = some nCredit ∧
    (∀ strAccount, wallet.GetAccountAmounts wtx strAccount = some (amounts strAccount)) ∧
    ∑ strAccount ∈ accounts, ((amounts strAccount).nReceived - (amounts strAccount).nSent -
      (amounts strAccount).nFee) = nCredit - nDebit

namespace WalletBook

/-- What is taken for change is the wallet's own. -/
def ChangeIsOwn (wallet : WalletBook) (tx : CTransaction) : Prop :=
  ∀ txout ∈ tx.vout, wallet.IsChange txout = true → wallet.IsMine txout = true

/-- The output pays to the hash of a script that the key store has, to an address without
a name, and the wallet does not own the script. -/
def HalfOwned (wallet : WalletBook) (txout : CTxOut) : Prop :=
  ∃ scriptID, wallet.destination txout = some (.CScriptID scriptID) ∧
    (wallet.keystore.GetCScript scriptID).isSome = true ∧
    wallet.mapAddressBook (.CScriptID scriptID) = none ∧ wallet.IsMine txout = false

end WalletBook

section

variable {wallet : WalletBook}

/-- A script that pays to an own key is own. -/
theorem isMine_of_keyID {txout : CTxOut} {keyID : CKeyID}
    (hdest : wallet.destination txout = some (.CKeyID keyID))
    (hkey : wallet.keystore.HaveKey keyID = true) : wallet.IsMine txout = true := by
  have hends := wallet.ends txout.scriptPubKey
  unfold WalletBook.destination ExtractDestination at hdest
  unfold WalletBook.IsMine
  cases hdepth : wallet.depth with
  | zero =>
      rw [hdepth] at hends
      cases hends
  | succ depth =>
      unfold IsMine
      cases hsolver : Solver txout.scriptPubKey with
      | none => simp [hsolver] at hdest
      | some solved =>
          obtain ⟨whichType, vSolutions⟩ := solved
          simp only [hsolver] at hdest ⊢
          cases htype : whichType.undelayed <;>
            simp only [htype, Option.some.injEq, CTxDestination.CKeyID.injEq, reduceCtorEq]
              at hdest ⊢
          all_goals
            rw [hdest, hkey]
            rfl

/-- Change that is not own pays to the hash of a script that the wallet only knows. -/
theorem change_not_own_iff {txout : CTxOut} :
    wallet.IsChange txout = true ∧ wallet.IsMine txout = false ↔ wallet.HalfOwned txout := by
  constructor
  · rintro ⟨hchange, hmine⟩
    unfold WalletBook.IsChange at hchange
    cases hdest : wallet.destination txout with
    | none => simp [hdest] at hchange
    | some address =>
        simp only [hdest, Bool.and_eq_true, Option.isNone_iff_eq_none] at hchange
        obtain ⟨hown, hname⟩ := hchange
        cases address with
        | CNoDestination => cases hown
        | CKeyID keyID =>
            rw [isMine_of_keyID hdest hown] at hmine
            cases hmine
        | CScriptID scriptID => exact ⟨scriptID, hdest, hown, hname, hmine⟩
  · rintro ⟨scriptID, hdest, hscript, hname, hmine⟩
    refine ⟨?_, hmine⟩
    unfold WalletBook.IsChange
    simp [hdest, hname, IsMineDestination, hscript]

/-- What the accounts gain too much with an output: the value of change that is not own. -/
def WalletBook.excess (wallet : WalletBook) (txout : CTxOut) : ℤ :=
  if wallet.IsChange txout = true ∧ wallet.IsMine txout = false then txout.nValue else 0

theorem excess_nonneg {txout : CTxOut} (h : 0 ≤ txout.nValue) : 0 ≤ wallet.excess txout := by
  unfold WalletBook.excess
  split_ifs <;> omega

/-- With a debit, the accounts gain what the wallet gains, and the excess. -/
theorem gain_eq (wallet : WalletBook) {nDebit : ℤ} (hdebit : 0 < nDebit) : ∀ vout : List CTxOut,
    (vout.map (wallet.received nDebit)).sum - (vout.map (wallet.sent nDebit)).sum +
        (vout.map CTxOut.nValue).sum =
      (vout.map wallet.credit).sum + (vout.map wallet.excess).sum
  | [] => by simp
  | txout :: vout => by
      have hrest := gain_eq wallet hdebit vout
      have hout : wallet.received nDebit txout - wallet.sent nDebit txout + txout.nValue =
          wallet.credit txout + wallet.excess txout := by
        unfold WalletBook.received WalletBook.sent WalletBook.excess WalletBook.credit
        cases wallet.IsChange txout <;> cases wallet.IsMine txout <;> simp [hdebit]
      simp only [List.map_cons, List.sum_cons]
      omega

/-- Without a debit, what is received is what the wallet gains, and nothing is sent. -/
theorem gain_eq_of_no_debit (wallet : WalletBook) (vout : List CTxOut) :
    (vout.map (wallet.received 0)).sum = (vout.map wallet.credit).sum ∧
      (vout.map (wallet.sent 0)).sum = 0 := by
  constructor
  · refine congrArg List.sum (List.map_congr_left fun txout _ => ?_)
    unfold WalletBook.received
    exact if_neg fun h => absurd h.1 (lt_irrefl 0)
  · apply List.sum_eq_zero
    intro v hv
    obtain ⟨txout, -, rfl⟩ := List.mem_map.mp hv
    unfold WalletBook.sent
    exact if_neg fun h => absurd h.1 (lt_irrefl 0)

/-- The amounts of all the accounts: each address belongs to one of them, and the sent
amounts and the fee to the account that the transaction is from. -/
theorem sum_amountsOf {wtx : AccountTx} {accounts : Finset String} (nDebit nFee : ℤ)
    (hout : ∀ txout ∈ wtx.tx.vout, 0 ≤ txout.nValue) (hempty : "" ∈ accounts)
    (hfrom : wtx.strFromAccount ∈ accounts)
    (hnames : ∀ address name, wallet.mapAddressBook address = some name → name ∈ accounts) :
    ∑ strAccount ∈ accounts, ((wallet.amountsOf wtx nDebit nFee strAccount).nReceived -
        (wallet.amountsOf wtx nDebit nFee strAccount).nSent -
        (wallet.amountsOf wtx nDebit nFee strAccount).nFee) =
      (wtx.tx.vout.map (wallet.received nDebit)).sum -
        (wtx.tx.vout.map (wallet.sent nDebit)).sum - nFee := by
  obtain ⟨hreceived, hsent, -, -⟩ := listAmounts_sums wallet nDebit hout
  have hlabel : ∀ r ∈ (wallet.listAmounts nDebit wtx.tx.vout).1,
      wallet.accountOf r.1 ∈ accounts := by
    intro r _
    unfold WalletBook.accountOf
    cases hname : wallet.mapAddressBook r.1 with
    | none => exact hempty
    | some name => exact hnames r.1 name hname
  unfold WalletBook.amountsOf
  simp only [Finset.sum_sub_distrib]
  rw [sum_labelled (fun r : CTxDestination × ℤ => wallet.accountOf r.1) Prod.snd accounts hlabel,
    Finset.sum_ite_eq', Finset.sum_ite_eq', if_pos hfrom, if_pos hfrom, hreceived, hsent]

theorem accountsAddUp_iff {wtx : AccountTx} {accounts : Finset String}
    (hrange : AmountsInRange wallet wtx.tx) (hempty : "" ∈ accounts)
    (hfrom : wtx.strFromAccount ∈ accounts)
    (hnames : ∀ address name, wallet.mapAddressBook address = some name → name ∈ accounts) :
    AccountsAddUp wallet wtx accounts ↔ wallet.GetDebit wtx.tx = some 0 ∨
      ∀ txout ∈ wtx.tx.vout, wallet.HalfOwned txout → txout.nValue = 0 := by
  have hpos : 0 ≤ (wtx.tx.vin.map wallet.GetDebitIn).sum := sum_map_nonneg hrange.debit
  have hdebit := hrange.getDebit_eq
  have hamounts := hrange.getAccountAmounts_eq
  generalize (wtx.tx.vin.map wallet.GetDebitIn).sum = nDebit at hpos hdebit hamounts
  have htotal : AccountsAddUp wallet wtx accounts ↔
      (wtx.tx.vout.map (wallet.received nDebit)).sum -
          (wtx.tx.vout.map (wallet.sent nDebit)).sum - feeOf wtx.tx nDebit =
        (wtx.tx.vout.map wallet.credit).sum - nDebit := by
    rw [← sum_amountsOf nDebit _ hrange.out hempty hfrom hnames]
    constructor
    · rintro ⟨nDebit', nCredit, amounts, hdebit', hcredit, hcalls, hsum⟩
      obtain rfl := Option.some.inj (hdebit.symm.trans hdebit')
      obtain rfl := Option.some.inj (hrange.getCredit_eq.symm.trans hcredit)
      obtain rfl : amounts = _ := funext fun strAccount =>
        Option.some.inj ((hcalls strAccount).symm.trans (hamounts strAccount))
      exact hsum
    · exact fun hsum => ⟨nDebit, _, _, hdebit, hrange.getCredit_eq, hamounts, hsum⟩
  rw [htotal, hdebit, Option.some.injEq]
  unfold feeOf
  rcases hpos.eq_or_lt with rfl | hpos
  · obtain ⟨hreceived, hsent⟩ := gain_eq_of_no_debit wallet wtx.tx.vout
    rw [hreceived, hsent, if_neg (lt_irrefl 0)]
    simp
  · have hgain := gain_eq wallet hpos wtx.tx.vout
    have hexcess : ∀ v ∈ wtx.tx.vout.map wallet.excess, 0 ≤ v := by
      intro v hv
      obtain ⟨txout, hmem, rfl⟩ := List.mem_map.mp hv
      exact excess_nonneg (hrange.out txout hmem)
    rw [if_pos hpos]
    constructor
    · intro hsum
      refine .inr fun txout hmem hhalf => ?_
      have hvalue := List.all_zero_of_le_zero_le_of_sum_eq_zero hexcess (by omega)
        (List.mem_map_of_mem hmem)
      unfold WalletBook.excess at hvalue
      rwa [if_pos (change_not_own_iff.mpr hhalf)] at hvalue
    · intro h
      have hzero : (wtx.tx.vout.map wallet.excess).sum = 0 := by
        apply List.sum_eq_zero
        intro v hv
        obtain ⟨txout, hmem, rfl⟩ := List.mem_map.mp hv
        unfold WalletBook.excess
        split_ifs with hhalf
        · exact (h.resolve_left hpos.ne') txout hmem (change_not_own_iff.mp hhalf)
        · rfl
      omega

/-- For all amounts in range, the accounts' gains add up to the wallet's just when nothing
is debited or no value goes to a half-owned output.  What is taken for change is own,
and then the accounts add up, just when no output is half owned. -/
theorem accountTotals_iff (wallet : WalletBook) (wtx : AccountTx) (accounts : Finset String)
    (hrange : AmountsInRange wallet wtx.tx) (hempty : "" ∈ accounts)
    (hfrom : wtx.strFromAccount ∈ accounts)
    (hnames : ∀ address name, wallet.mapAddressBook address = some name → name ∈ accounts) :
    (AccountsAddUp wallet wtx accounts ∧ wallet.ChangeIsOwn wtx.tx ↔
      ∀ txout ∈ wtx.tx.vout, ¬ wallet.HalfOwned txout) ∧
    (AccountsAddUp wallet wtx accounts ↔ wallet.GetDebit wtx.tx = some 0 ∨
      ∀ txout ∈ wtx.tx.vout, wallet.HalfOwned txout → txout.nValue = 0) := by
  have hadd : AccountsAddUp wallet wtx accounts ↔ wallet.GetDebit wtx.tx = some 0 ∨
      ∀ txout ∈ wtx.tx.vout, wallet.HalfOwned txout → txout.nValue = 0 :=
    accountsAddUp_iff hrange hempty hfrom hnames
  refine ⟨⟨fun h txout hmem hhalf => ?_, fun h => ⟨hadd.mpr (.inr fun txout hmem hhalf =>
    absurd hhalf (h txout hmem)), fun txout hmem hchange => ?_⟩⟩, hadd⟩
  · obtain ⟨hchange, hmine⟩ := change_not_own_iff.mpr hhalf
    rw [h.2 txout hmem hchange] at hmine
    cases hmine
  · cases hmine : wallet.IsMine txout with
    | true => rfl
    | false => exact absurd (change_not_own_iff.mp ⟨hchange, hmine⟩) (h txout hmem)

/-! ### A shared script -/

/-- No script hash leads to another one when the scripts of the key store do not. -/
theorem isSome_isMine {crypto : Crypto} {keystore : CKeyStore} {depth : ℕ}
    (h : ∀ scriptID subscript, keystore.GetCScript scriptID = some subscript →
      (IsMine crypto keystore depth subscript).isSome = true) (scriptPubKey : CScript) :
    (IsMine crypto keystore (depth + 1) scriptPubKey).isSome = true := by
  unfold IsMine
  cases Solver scriptPubKey with
  | none => rfl
  | some solved =>
      obtain ⟨whichType, vSolutions⟩ := solved
      cases htype : whichType.undelayed <;> simp only [htype, Option.isSome_some]
      cases hscript : keystore.GetCScript
          ((undelayedSolutions whichType vSolutions).headD []) with
      | none => rfl
      | some subscript => exact h _ subscript hscript

def ownKey : valtype := 2 :: List.replicate 32 1

def partnerKey : valtype := 2 :: List.replicate 32 2

/-- One of the two signatures is enough. -/
def sharedScript : CScript :=
  UInt8.ofNat OP_1 :: pushData ownKey ++ pushData partnerKey ++
    [UInt8.ofNat (OP_1 + 1), UInt8.ofNat OP_CHECKMULTISIG]

def sharedCrypto : Crypto where
  Hash bytes := bytes.length
  HashZR5 _ := 0
  Hash160 vch := List.replicate 20 (if vch = ownKey then 1 else if vch = sharedScript then 2 else 3)
  RIPEMD160 _ := []
  SHA1 _ := []
  SHA256 _ := []
  Verify _ _ _ := false

/-- One of the two keys, and the script. -/
def sharedStore : CKeyStore where
  GetPubKey keyID := if keyID = List.replicate 20 1 then some ownKey else none
  Sign _ _ _ := none
  GetCScript scriptID := if scriptID = List.replicate 20 2 then some sharedScript else none

theorem isMine_sharedScript : IsMine sharedCrypto sharedStore 1 sharedScript = some false := by
  decide +kernel

/-- A transaction that paid 10 to the own key, and no names. -/
def sharedWallet : WalletBook where
  crypto := sharedCrypto
  keystore := sharedStore
  depth := 2
  ends := isSome_isMine fun scriptID subscript hscript => by
    simp only [sharedStore, Option.ite_none_right_eq_some, Option.some.injEq] at hscript
    rw [← hscript.2, isMine_sharedScript]
    rfl
  mapWallet hash := if hash = 1 then
      some { nVersion := 1, vin := [], nLockTime := 0
             vout := [⟨10, SetDestination (.CKeyID (List.replicate 20 1))⟩] }
    else none
  mapAddressBook _ := none

/-- The 10 are spent, and `paid` goes to a destination. -/
def sharedPayment (paid : ℤ) (address : CTxDestination) : AccountTx where
  tx := { nVersion := 1, vin := [⟨⟨1, 0⟩, [], UINT_MAX⟩], nLockTime := 0
          vout := [⟨paid, SetDestination address⟩] }
  strFromAccount := ""

theorem sharedPayment_inRange (address : CTxDestination) :
    AmountsInRange sharedWallet (sharedPayment 9 address).tx where
  out := by simp [sharedPayment]
  outTotal := by simp [sharedPayment]; decide
  debit := by simp [sharedPayment]; decide +kernel
  debitTotal := by simp [sharedPayment]; decide +kernel

/-- A payment to somebody's key. -/
theorem accountTotals_foreign :
    AccountsAddUp sharedWallet (sharedPayment 9 (.CKeyID (List.replicate 20 7))) {""} := by
  refine ((accountTotals_iff sharedWallet _ {""} (sharedPayment_inRange _)
    (Finset.mem_singleton_self _) (Finset.mem_singleton_self _) ?_).2.mpr (.inr ?_))
  · intro address name hname
    cases hname
  · rintro txout hmem ⟨scriptID, hdest, -⟩
    obtain rfl := List.mem_singleton.mp hmem
    have hkey : sharedWallet.destination
        ⟨9, SetDestination (.CKeyID (List.replicate 20 7))⟩ =
          some (.CKeyID (List.replicate 20 7)) := by decide +kernel
    rw [hkey] at hdest
    cases hdest

/-- A payment of 9 to the shared script is taken for change: all of the 10 seems to stay
with the wallet but for the fee, and nothing of it is own. -/
theorem accountTotals_shared :
    ¬ ∀ (wallet : WalletBook) (wtx : AccountTx) (accounts : Finset String),
      AmountsInRange wallet wtx.tx → "" ∈ accounts → wtx.strFromAccount ∈ accounts →
      (∀ address name, wallet.mapAddressBook address = some name → name ∈ accounts) →
        AccountsAddUp wallet wtx accounts ∧ wallet.ChangeIsOwn wtx.tx := by
  intro h
  have hrange := sharedPayment_inRange (.CScriptID (List.replicate 20 2))
  have hnames : ∀ address name, sharedWallet.mapAddressBook address = some name →
      name ∈ ({""} : Finset String) := fun address name hname => by cases hname
  have hadd := (h sharedWallet _ {""} hrange (Finset.mem_singleton_self _)
    (Finset.mem_singleton_self _) hnames).1
  rw [accountsAddUp_iff hrange (Finset.mem_singleton_self _) (Finset.mem_singleton_self _)
    hnames] at hadd
  have hhalf : sharedWallet.HalfOwned
      ⟨9, SetDestination (.CScriptID (List.replicate 20 2))⟩ :=
    ⟨List.replicate 20 2, by decide +kernel, by decide +kernel, rfl, by decide +kernel⟩
  have hdebit : sharedWallet.GetDebit
      (sharedPayment 9 (.CScriptID (List.replicate 20 2))).tx = some 10 := by decide +kernel
  rcases hadd with hzero | hvalue
  · rw [hdebit] at hzero
    cases hzero
  · have hnine := hvalue _ (List.mem_singleton_self _) hhalf
    cases hnine

end

end Ziftrcoin.Spec
