/-
Module: Ziftrcoin.Proofs.SpendableCoins
Purpose: The test of a lock time without a transaction agrees with the script,
  and when the coins that the wallet offers can be spent in the next block.
Trusted boundary: none
-/
import Ziftrcoin.Spec.CoinSelection
import Ziftrcoin.Proofs.OwnSpending

namespace Ziftrcoin.Spec

variable {ctx : ScriptContext} {d : CScript} {L : ℕ} {D : ℤ}

/-- A script number passes at a lock time. -/
def PassesAt (D : ℤ) (L : ℕ) : Prop :=
  0 ≤ D ∧ D ≤ L ∧ (D < LOCKTIME_THRESHOLD ↔ (L : ℤ) < LOCKTIME_THRESHOLD)

/-- A script with a delay: the push of the delay, the check, and what is behind them. -/
structure DelayedBy (d : CScript) (p : valtype) (script : CScript) (D : ℤ) : Prop where
  length : p.length ≤ 5
  script : d = delayedBy p script
  number : CScriptNum.ofVch p 5 = some D
  delay : d.GetDelay = some D
  spendable : ∀ L, d.IsSpendableAtLockTime L = true ↔ PassesAt D L

theorem delayedBy_of_solver {type : txnouttype} {sols : List valtype}
    (hsolver : Solver d = some (type, sols)) (hdelayed : type.isDelayed = true) :
    ∃ p script D, DelayedBy d p script D := by
  obtain ⟨-, ⟨hplain, -⟩ | ⟨-, p, script, hp, hscript, hsols, -⟩⟩ :=
    solver_shape hsolver (ne_nullData_of_delayed hdelayed)
  · exact absurd hdelayed (ne_true_of_eq_false hplain)
  · rw [hsols] at hsolver
    obtain ⟨D, hD, hdelay⟩ := getDelay_delayed hsolver hdelayed hp
    refine ⟨p, script, D, hp, hscript, hD, hdelay, fun L => ?_⟩
    unfold CScript.IsSpendableAtLockTime PassesAt
    simp only [hsolver, hdelayed, List.headD_cons, hD, Bool.true_eq_false, if_false]
    split
    · next hneg => exact iff_of_false Bool.false_ne_true fun h => absurd h.1 (by omega)
    · split
      · next hkind =>
          refine iff_of_false Bool.false_ne_true fun h => ?_
          have := h.2.2
          omega
      · next hneg hkind =>
          rw [decide_eq_true_iff]
          exact ⟨fun hle => ⟨by omega, hle, by omega⟩, fun h => h.2.1⟩

/-- The delay of a script comes from a delayed template. -/
theorem delayedBy_of_getDelay (h : d.GetDelay = some D) : ∃ p script, DelayedBy d p script D := by
  have hdelay := h
  unfold CScript.GetDelay at h
  cases hsolver : Solver d with
  | none => rw [hsolver] at h; exact nomatch h
  | some solved =>
      obtain ⟨type, sols⟩ := solved
      cases hdelayed : type.isDelayed with
      | false => simp [hsolver, hdelayed] at h
      | true =>
          obtain ⟨p, script, D', hd⟩ := delayedBy_of_solver hsolver hdelayed
          obtain rfl := Option.some.inj (hdelay.symm.trans hd.delay)
          exact ⟨p, script, hd⟩

/-- The start of a delayed script passes exactly at the lock times that the number passes at. -/
theorem evalScript_prefix_iff {p : valtype} (hp : p.length ≤ 5)
    (hD : CScriptNum.ofVch p 5 = some D) {txin : CTxIn}
    (hin : ctx.txTo.vin[ctx.nIn]? = some txin) (hfinal : txin.IsFinal = false) :
    (∃ stack, EvalScript ctx [] (delayedBy p []) = some stack) ↔ PassesAt D ctx.txTo.nLockTime := by
  have hlock : LockPasses ctx D ↔ PassesAt D ctx.txTo.nLockTime := by
    unfold LockPasses PassesAt
    constructor
    · rintro ⟨_, _, _, h⟩
      exact h
    · exact fun h => ⟨txin, hin, hfinal, h⟩
  rw [← hlock]
  constructor
  · rintro ⟨stack, hrun⟩
    by_contra hfails
    rw [evalScript_delay_fails hp hD hfails (by decide)] at hrun
    exact nomatch hrun
  · intro hpasses
    refine ⟨[], evalScript_of_runsTo ?_ (runsTo_delay hp hD hpasses (by decide) (by decide))⟩
    unfold delayedBy
    simp only [List.length_cons, List.length_append, List.length_nil]
    omega

/-! ### The lock time of a signed transaction -/

theorem nLockTime_putDelay (h : d.GetDelay = some D) (hrange : 0 ≤ D ∧ D < 2 ^ 32)
    (tx : CTransaction) (nIn : ℕ) :
    ((putDelay d tx nIn).nLockTime : ℤ) = max D tx.nLockTime := by
  have hmax : ¬ (UINT_MAX : ℤ) < D := by
    simp only [UINT_MAX]
    omega
  have hneg : ¬ D < 0 := by omega
  simp only [putDelay, h, CTransaction.unsetFinal, lockTimeOfDelay, if_neg hmax, if_neg hneg]
  omega

/-- The lock time that is put into effect satisfies the script, unless the transaction was
locked to a time and the script asks for a height. -/
theorem spendable_putDelay_iff {p : valtype} {script : CScript} (hd : DelayedBy d p script D)
    (hrange : 0 ≤ D ∧ D < 2 ^ 32) (tx : CTransaction) (nIn : ℕ) :
    d.IsSpendableAtLockTime (putDelay d tx nIn).nLockTime = true ↔
      ¬ (D < LOCKTIME_THRESHOLD ∧ LOCKTIME_THRESHOLD ≤ (tx.nLockTime : ℤ)) := by
  rw [hd.spendable]
  unfold PassesAt
  rw [nLockTime_putDelay hd.delay hrange tx nIn]
  omega

/-- **The test without a transaction agrees with the script.**  It holds at a lock time
exactly if the start of the script, the push of its delay and the check, is evaluated for
an input that is not final in a transaction with that lock time.  It holds at the delay
itself, and at the lock time that `SignSignature` puts into effect for a single input. -/
theorem isSpendableAtLockTime_refines {d : CScript} {type : txnouttype} {sols : List valtype}
    (hsolver : Solver d = some (type, sols)) (hdelayed : type.isDelayed = true) :
    (∃ p script, d = delayedBy p script ∧ ∀ L < 2 ^ 32, ∀ (ctx : ScriptContext) (txin : CTxIn),
      ctx.txTo.nLockTime = L → ctx.txTo.vin[ctx.nIn]? = some txin → txin.IsFinal = false →
        (d.IsSpendableAtLockTime L = true ↔
          ∃ stack, EvalScript ctx [] (delayedBy p []) = some stack)) ∧
    ∀ D, d.GetDelay = some D → 0 ≤ D → D < 2 ^ 32 →
      d.IsSpendableAtLockTime D.toNat = true ∧
      (∀ tx nIn, d.IsSpendableAtLockTime (putDelay d tx nIn).nLockTime = true ↔
        ¬ (D < LOCKTIME_THRESHOLD ∧ LOCKTIME_THRESHOLD ≤ (tx.nLockTime : ℤ))) ∧
      ∀ tx txin, Unsigned tx txin →
        d.IsSpendableAtLockTime (putDelay d tx 0).nLockTime = true := by
  obtain ⟨p, script, D, hd⟩ := delayedBy_of_solver hsolver hdelayed
  refine ⟨⟨p, script, hd.script, ?_⟩, ?_⟩
  · rintro L - ctx txin rfl hin hfinal
    rw [hd.spendable, evalScript_prefix_iff hd.length hd.number hin hfinal]
  · intro D' hdelay hpos hlt
    obtain rfl := Option.some.inj (hdelay.symm.trans hd.delay)
    refine ⟨(hd.spendable _).mpr ⟨hpos, by omega, by omega⟩,
      spendable_putDelay_iff hd ⟨hpos, hlt⟩, fun tx txin htx => ?_⟩
    rw [spendable_putDelay_iff hd ⟨hpos, hlt⟩, htx.nLockTime]
    simp [LOCKTIME_THRESHOLD]

theorem isSpendableAtLockTime_refines_oneKeyLocked :
    oneKeyLocked.IsSpendableAtLockTime (putDelay oneKeyLocked oneInput 0).nLockTime = true :=
  ((isSpendableAtLockTime_refines solver_oneKeyLocked rfl).2 100 getDelay_oneKeyLocked
    (by decide) (by decide)).2.2 _ _ oneInput_unsigned

/-! ### The coins that are offered -/

/-- A coin is offered under a test of the delays that coin control does not override. -/
structure Offered (view : WalletView) (coinControl : Option CCoinControl) (out : COutput)
    (txout : CTxOut) : Prop where
  offered : ∃ fOnlyConfirmed, out ∈ AvailableCoins view true fOnlyConfirmed coinControl
  tested : overridden coinControl out.tx.hash out.i = false
  output : out.tx.tx.vout[out.i]? = some txout

section Offers

variable {view : WalletView} {coinControl : Option CCoinControl} {out : COutput}
  {txout : CTxOut} {tx : CTransaction} {txin : CTxIn}

theorem fPush_spendable {hash : uint256} {i : ℕ} {script : CScript}
    (htested : overridden coinControl hash i = false)
    (hpush : fPush view true coinControl hash i script = true) :
    script.IsSpendableAtLockTime (uint32 (view.nHeight + 1)) = true ∨
      script.IsSpendableAtLockTime (uint32 (view.nMedianTimePast + 1)) = true := by
  by_contra hnone
  unfold fPush at hpush
  rw [if_neg (by rw [htested]; exact Bool.false_ne_true), if_pos ⟨rfl, hnone⟩] at hpush
  exact Bool.false_ne_true hpush

/-- The test that an offered coin has passed. -/
theorem Offered.spendable (h : Offered view coinControl out txout) :
    txout.scriptPubKey.IsSpendableAtLockTime (uint32 (view.nHeight + 1)) = true ∨
      txout.scriptPubKey.IsSpendableAtLockTime (uint32 (view.nMedianTimePast + 1)) = true := by
  obtain ⟨⟨fOnlyConfirmed, hmem⟩, htested, houtput⟩ := h
  unfold AvailableCoins at hmem
  obtain ⟨pcoin, -, hmem⟩ := List.mem_flatMap.mp hmem
  have hout : out ∈ availableOutputs view true coinControl pcoin := by
    split_ifs at hmem
    all_goals first | exact hmem | exact absurd hmem List.not_mem_nil
  unfold availableOutputs at hout
  obtain ⟨⟨txout', i⟩, hzip, hkept⟩ := List.mem_filterMap.mp hout
  obtain ⟨⟨-, -, -, -, hpush⟩, hsome⟩ := Option.ite_none_right_eq_some.mp hkept
  obtain rfl := Option.some.inj hsome
  have hvout := List.mk_mem_zipIdx_iff_getElem?.mp hzip
  obtain rfl := Option.some.inj (hvout.symm.trans houtput)
  exact fPush_spendable htested hpush

/-- The next block takes the transaction that is prepared to spend the coin alone: it may
enter the memory pool, and if its delay is a height it is final at any block time. -/
def SpendableNext (view : WalletView) (script : CScript) (D : ℤ) (tx : CTransaction) : Prop :=
  IsFinalTx view.nHeight view.nAdjustedTime (putDelay script tx 0) (view.nHeight + 1) 0 = true ∧
    (D < LOCKTIME_THRESHOLD → ∀ nBlockTime,
      IsFinalTx view.nHeight view.nAdjustedTime (putDelay script tx 0) (view.nHeight + 1)
        nBlockTime = true)

/-- The delay has passed at the height of the tip, or at the adjusted time. -/
def DelayPast (view : WalletView) (D : ℤ) : Prop :=
  D ≠ 0 → if D < LOCKTIME_THRESHOLD then D ≤ view.nHeight else D < view.nAdjustedTime

instance (view : WalletView) (D : ℤ) : Decidable (DelayPast view D) :=
  inferInstanceAs (Decidable (_ → _))

/-- A transaction that waits for a delay is final as soon as the delay lies behind. -/
theorem isFinalTx_putDelay_iff {script : CScript} (htx : Unsigned tx txin)
    (hdelay : script.GetDelay = some D) (hrange : 0 ≤ D ∧ D < 2 ^ 32) (H adjusted time : ℤ)
    (hH : 0 ≤ H) :
    IsFinalTx H adjusted (putDelay script tx 0) (H + 1) time = true ↔
      (D ≠ 0 → D < if D < LOCKTIME_THRESHOLD then H + 1
        else if time = 0 then adjusted else time) := by
  have hlock : ((putDelay script tx 0).nLockTime : ℤ) = D := by
    rw [nLockTime_putDelay hdelay hrange, htx.nLockTime]
    omega
  have hvin : (putDelay script tx 0).vin.all CTxIn.IsFinal = false := by
    simp [putDelay, hdelay, CTransaction.unsetFinal, htx.vin, htx.final, CTxIn.IsFinal, UINT_MAX]
  have hzero : (putDelay script tx 0).nLockTime = 0 ↔ D = 0 := by omega
  have hheight : ¬ H + 1 = 0 := by omega
  unfold IsFinalTx
  simp only [hlock, hvin, if_neg hheight, hzero]
  by_cases hD : D = 0
  · simp [hD]
  · rw [if_neg hD]
    simp only [ne_eq, hD, not_false_eq_true, forall_const]
    split <;> simp_all

theorem spendableNext_iff {script : CScript} (htx : Unsigned tx txin)
    (hdelay : script.GetDelay = some D) (hrange : 0 ≤ D ∧ D < 2 ^ 32) :
    SpendableNext view script D tx ↔ DelayPast view D := by
  unfold SpendableNext DelayPast
  have hfinal := isFinalTx_putDelay_iff htx hdelay hrange view.nHeight view.nAdjustedTime
  simp only [hfinal _ (Int.natCast_nonneg _), if_true]
  by_cases hkind : D < LOCKTIME_THRESHOLD
  · simp only [if_pos hkind, Int.lt_add_one_iff]
    exact ⟨fun h => h.1, fun h => ⟨h, fun _ _ => h⟩⟩
  · simp only [if_neg hkind]
    exact ⟨fun h => h.1, fun h => ⟨h, fun hlt => absurd hlt hkind⟩⟩

/-- The delay of an offered coin passes at the height or at the median time of a next block. -/
theorem Offered.passesAt (h : Offered view coinControl out txout)
    (hdelay : txout.scriptPubKey.GetDelay = some D) :
    PassesAt D (uint32 (view.nHeight + 1)) ∨ PassesAt D (uint32 (view.nMedianTimePast + 1)) := by
  obtain ⟨p, script, hd⟩ := delayedBy_of_getDelay hdelay
  exact h.spendable.imp (hd.spendable _).mp (hd.spendable _).mp

theorem PassesAt.range {x : ℕ} (h : PassesAt D (uint32 x)) : 0 ≤ D ∧ D < 2 ^ 32 ∧ D ≤ x := by
  obtain ⟨hpos, hle, -⟩ := h
  have hlt : uint32 x < 2 ^ 32 := Nat.mod_lt _ (by decide)
  have hmod : uint32 x ≤ x := Nat.mod_le _ _
  omega

/-- **The coins that are offered are not all spendable in the next block.**  The transaction
that spends an offered coin alone is final at the next height exactly if the height the coin
waits for is no more than that of the tip, or the time it waits for lies before the
adjusted time.  Where the next median time is no height, the one height that is offered too
soon is that of the next block. -/
theorem offered_spendable_iff {view : WalletView} {coinControl : Option CCoinControl}
    {out : COutput} {txout : CTxOut} {tx : CTransaction} {txin : CTxIn} {D : ℤ}
    (hoffered : Offered view coinControl out txout)
    (hdelay : txout.scriptPubKey.GetDelay = some D) (htx : Unsigned tx txin) :
    (SpendableNext view txout.scriptPubKey D tx ↔ DelayPast view D) ∧
    (D < LOCKTIME_THRESHOLD →
      LOCKTIME_THRESHOLD ≤ (uint32 (view.nMedianTimePast + 1) : ℤ) →
      (SpendableNext view txout.scriptPubKey D tx ↔ D ≠ view.nHeight + 1)) := by
  have hpasses := hoffered.passesAt hdelay
  have hrange : 0 ≤ D ∧ D < 2 ^ 32 := by
    obtain h | h := hpasses
    · exact ⟨h.range.1, h.range.2.1⟩
    · exact ⟨h.range.1, h.range.2.1⟩
  have hiff : SpendableNext view txout.scriptPubKey D tx ↔ DelayPast view D :=
    spendableNext_iff htx hdelay hrange
  refine ⟨hiff, fun hkind hmedian => ?_⟩
  have hheight : D ≤ (view.nHeight + 1 : ℕ) := by
    obtain h | h := hpasses
    · exact h.range.2.2
    · exact absurd (h.2.2.mp hkind) (by omega)
  rw [hiff]
  unfold DelayPast
  rw [if_pos hkind]
  omega

end Offers

/-! ### A coin that is offered too soon -/

/-- A wallet with one coin, which is locked to height 100. -/
def lockedCoin : CWalletTx :=
  { tx := { nVersion := 1, vin := [], vout := [⟨5000, oneKeyLocked⟩], nLockTime := 0 }
    hash := 7, IsTrusted := true, GetBlocksToMaturity := 0, GetDepthInMainChain := 10
    IsFromMe := false }

def lockedView (nHeight : ℕ) : WalletView where
  mapWallet := [lockedCoin]
  IsSpent _ _ := false
  IsMine _ := true
  IsLockedCoin _ _ := false
  nHeight := nHeight
  nMedianTimePast := 1400000000
  nAdjustedTime := 1400000600

theorem lockedView_offered {nHeight : ℕ}
    (hspendable : oneKeyLocked.IsSpendableAtLockTime (uint32 (nHeight + 1)) = true) :
    Offered (lockedView nHeight) none ⟨lockedCoin, 0, 10⟩ ⟨5000, oneKeyLocked⟩ := by
  refine ⟨⟨true, ?_⟩, rfl, rfl⟩
  have hpush : fPush (lockedView nHeight) true none 7 0 oneKeyLocked = true := by
    simp [fPush, overridden, lockedView, hspendable]
  have hfinal : IsFinalTx (lockedView nHeight).nHeight (lockedView nHeight).nAdjustedTime
      lockedCoin.tx 0 0 = true := rfl
  simp [AvailableCoins, availableOutputs, hfinal]
  simp [lockedView, lockedCoin, CTransaction.IsCoinBase] at hpush ⊢
  exact hpush

theorem offered_spendable_iff_pastDelay :
    SpendableNext (lockedView 100) oneKeyLocked 100 oneInput :=
  (offered_spendable_iff (lockedView_offered (by decide)) getDelay_oneKeyLocked
    oneInput_unsigned).1.mpr (by decide)

/-- At height 99 the coin that is locked to height 100 is offered, and a block at height 100
does not take the transaction that spends it. -/
theorem offered_not_spendable :
    ¬ ∀ (view : WalletView) (coinControl : Option CCoinControl) (out : COutput)
        (txout : CTxOut) (D : ℤ) (tx : CTransaction) (txin : CTxIn),
      Offered view coinControl out txout → txout.scriptPubKey.GetDelay = some D →
        Unsigned tx txin → SpendableNext view txout.scriptPubKey D tx := by
  intro h
  have hspendable := h _ _ _ _ _ _ _ (@lockedView_offered 99 (by decide))
    getDelay_oneKeyLocked oneInput_unsigned
  exact absurd hspendable.1 (by decide)

end Ziftrcoin.Spec
