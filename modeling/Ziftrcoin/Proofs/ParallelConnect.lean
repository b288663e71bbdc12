/-
Module: Ziftrcoin.Proofs.ParallelConnect
Purpose: A block is accepted with threads for its script checks exactly when it
  is accepted without.
Trusted boundary: none
Main exports: CScriptCheck.passes, parallelChecks_exact
-/
import Ziftrcoin.Proofs.ParallelChecks
import Ziftrcoin.Proofs.LockTime

namespace Ziftrcoin.Spec

open Ziftrcoin.Lib Ziftrcoin.Lib.Outcome

/-! ### Checks at once -/

/-- What a script check reports to the queue. -/
def CScriptCheck.passes (crypto : Crypto) (check : CScriptCheck) : Bool :=
  match check.run crypto with
  | .ok fOk => fOk
  | .error _ => false

theorem passes_iff {crypto : Crypto} {check : CScriptCheck} :
    check.passes crypto = true ↔ check.run crypto = .ok true := by
  unfold CScriptCheck.passes
  cases check.run crypto <;> simp

theorem runCheckNow_eq_ok {crypto : Crypto} {check : CScriptCheck} :
    runCheckNow crypto check = .ok () ↔ check.passes crypto = true := by
  rw [passes_iff]
  constructor
  · exact runCheckNow_ok
  · intro h
    unfold runCheckNow
    rw [h]
    rfl

theorem forM_runCheckNow {crypto : Crypto} {vChecks : List CScriptCheck} :
    vChecks.forM (runCheckNow crypto) = .ok () ↔
      ∀ check ∈ vChecks, check.passes crypto = true := by
  constructor
  · intro h check hcheck
    exact runCheckNow_eq_ok.mp (forM_eq_ok h check hcheck)
  · intro h
    exact forM_eq_ok_of fun check hcheck => runCheckNow_eq_ok.mpr (h check hcheck)

/-- `CheckInputs` that runs the checks is `CheckInputs` that collects them, and
all of them pass. -/
theorem checkInputs_now {crypto : Crypto} {prevHeight : uint256 → Option Nat}
    {tx : CTransaction} {inputs : CCoinsViewCache} {fScriptChecks : Bool}
    {flags : ScriptFlags} {vNow : List CScriptCheck} :
    CheckInputs crypto prevHeight tx inputs fScriptChecks flags false = .ok vNow ↔
      vNow = [] ∧ ∃ vChecks,
        CheckInputs crypto prevHeight tx inputs fScriptChecks flags true = .ok vChecks ∧
          ∀ check ∈ vChecks, check.passes crypto = true := by
  unfold CheckInputs
  by_cases hcb : tx.IsCoinBase = true
  · rw [if_pos hcb, if_pos hcb]
    constructor
    · rintro ⟨⟩
      exact ⟨rfl, [], rfl, fun check hcheck => nomatch hcheck⟩
    · rintro ⟨rfl, -⟩
      rfl
  · rw [if_neg hcb, if_neg hcb]
    cases fScriptChecks with
    | false =>
        simp only [if_true, Run.DoS, Run.Invalid, guard_eq_ok, error_bind, bind_eq_ok,
          pure_eq_ok, Except.ok.injEq]
        constructor
        · rintro ⟨hhave, nHeight, hheight, nIn, hin, nOut, hout, hle, hfee, hrange, rfl⟩
          exact ⟨rfl, [], ⟨hhave, nHeight, hheight, nIn, hin, nOut, hout, hle, hfee, hrange,
            rfl⟩, fun check hcheck => nomatch hcheck⟩
        · rintro ⟨rfl, vChecks, ⟨hhave, nHeight, hheight, nIn, hin, nOut, hout, hle, hfee,
            hrange, -⟩, -⟩
          exact ⟨hhave, nHeight, hheight, nIn, hin, nOut, hout, hle, hfee, hrange, rfl⟩
    | true =>
        simp only [Bool.false_eq_true, if_false, if_true, Run.DoS, Run.Invalid,
          guard_eq_ok, error_bind, bind_eq_ok, pure_eq_ok, Except.ok.injEq, reduceCtorEq]
        constructor
        · rintro ⟨hhave, nHeight, hheight, nIn, hin, nOut, hout, hle, hfee, hrange, vChecks,
            hchecks, ⟨⟩, hnow, rfl⟩
          exact ⟨rfl, vChecks, ⟨hhave, nHeight, hheight, nIn, hin, nOut, hout, hle, hfee,
            hrange, vChecks, hchecks, rfl⟩, forM_runCheckNow.mp hnow⟩
        · rintro ⟨rfl, vChecks, ⟨hhave, nHeight, hheight, nIn, hin, nOut, hout, hle, hfee,
            hrange, vChecks', hchecks, rfl⟩, hpass⟩
          exact ⟨hhave, nHeight, hheight, nIn, hin, nOut, hout, hle, hfee, hrange, vChecks',
            hchecks, (), forM_runCheckNow.mpr hpass, rfl⟩

/-! ### The loop of `ConnectBlock` -/

/-- The configuration with another number of threads for script checks. -/
def Config.withThreads (cfg : Config) (nScriptCheckThreads : ℕ) : Config :=
  { cfg with nScriptCheckThreads }

/-- The loop without threads has come as far as the loop with threads, and all
checks that the latter has collected pass. -/
structure InStep (crypto : Crypto) (now later : ConnectState) : Prop where
  state : now = { later with vChecks := [] }
  passes : ∀ check ∈ later.vChecks, check.passes crypto = true

theorem InStep.start {crypto : Crypto} {acc : ConnectState} (h : acc.vChecks = []) :
    InStep crypto acc acc where
  state := by rw [← h]
  passes := by
    intro check hcheck
    rw [h] at hcheck
    cases hcheck

theorem InStep.nFees {crypto : Crypto} {now later : ConnectState}
    (h : InStep crypto now later) : now.nFees = later.nFees := by
  rw [h.state]

section

variable {cfg : Config} {ctx : BlockContext} {fScriptChecks : Bool} {tx : CTransaction}
  {now now' later : ConnectState} {n : ℕ}

theorem checkInputs_withThreads (hn : n ≠ 0) {view : CCoinsViewCache} {flags : ScriptFlags}
    {vNow : List CScriptCheck} :
    CheckInputs cfg.crypto ctx.prevHeight tx view fScriptChecks flags
        (decide ((cfg.withThreads 0).nScriptCheckThreads ≠ 0)) = .ok vNow ↔
      vNow = [] ∧ ∃ vChecks,
        CheckInputs cfg.crypto ctx.prevHeight tx view fScriptChecks flags
            (decide ((cfg.withThreads n).nScriptCheckThreads ≠ 0)) = .ok vChecks ∧
          ∀ check ∈ vChecks, check.passes cfg.crypto = true := by
  rw [show decide ((cfg.withThreads 0).nScriptCheckThreads ≠ 0) = false from rfl,
    show decide ((cfg.withThreads n).nScriptCheckThreads ≠ 0) = true from decide_eq_true hn]
  exact checkInputs_now

theorem connectInputs_inStep (hn : n ≠ 0) (h : InStep cfg.crypto now later) :
    connectInputs (cfg.withThreads 0) ctx fScriptChecks now tx = .ok now' ↔
      ∃ later', connectInputs (cfg.withThreads n) ctx fScriptChecks later tx = .ok later' ∧
        InStep cfg.crypto now' later' := by
  obtain ⟨rfl, hpasses⟩ := h
  unfold connectInputs
  by_cases hcb : tx.IsCoinBase = true
  · rw [if_pos hcb, if_pos hcb]
    constructor
    · rintro ⟨⟩
      exact ⟨later, rfl, rfl, hpasses⟩
    · rintro ⟨later', ⟨⟩, rfl, -⟩
      rfl
  · rw [if_neg hcb, if_neg hcb]
    simp only [Run.DoS, guard_eq_ok, error_bind, bind_eq_ok, pure_eq_ok,
      Except.ok.injEq]
    constructor
    · rintro ⟨hhave, nP2SH, hp2sh, hsigops, nIn, hin, nOut, hout, vNow, hchecks, rfl⟩
      obtain ⟨rfl, vChecks, hchecks, hpass⟩ := (checkInputs_withThreads hn).mp hchecks
      refine ⟨_, ⟨hhave, nP2SH, hp2sh, hsigops, nIn, hin, nOut, hout, vChecks, hchecks, rfl⟩,
        rfl, ?_⟩
      intro check hcheck
      rcases List.mem_append.mp hcheck with hcheck | hcheck
      · exact hpasses check hcheck
      · exact hpass check hcheck
    · rintro ⟨later', ⟨hhave, nP2SH, hp2sh, hsigops, nIn, hin, nOut, hout, vChecks, hchecks,
        rfl⟩, rfl, hpass⟩
      refine ⟨hhave, nP2SH, hp2sh, hsigops, nIn, hin, nOut, hout, [], ?_, rfl⟩
      apply (checkInputs_withThreads hn).mpr
      exact ⟨rfl, vChecks, hchecks, fun check hcheck =>
        hpass check (List.mem_append_right _ hcheck)⟩

theorem connectTx_inStep (hn : n ≠ 0) {block : CBlock} {txi : CTransaction × ℕ}
    (h : InStep cfg.crypto now later) :
    connectTx (cfg.withThreads 0) ctx fScriptChecks block now txi = .ok now' ↔
      ∃ later', connectTx (cfg.withThreads n) ctx fScriptChecks block later txi = .ok later' ∧
        InStep cfg.crypto now' later' := by
  obtain ⟨rfl, hpasses⟩ := h
  obtain ⟨tx, i⟩ := txi
  have hinputs : ∀ now', connectInputs (cfg.withThreads 0) ctx fScriptChecks
        { later with vChecks := [], nSigOps := later.nSigOps + GetSigOpCount tx } tx =
          .ok now' ↔
      ∃ later', connectInputs (cfg.withThreads n) ctx fScriptChecks
          { later with nSigOps := later.nSigOps + GetSigOpCount tx } tx = .ok later' ∧
        InStep cfg.crypto now' later' :=
    fun now' => connectInputs_inStep hn ⟨rfl, hpasses⟩
  unfold connectTx
  simp only [Run.DoS, guard_eq_ok, error_bind, bind_eq_ok, pure_eq_ok, Except.ok.injEq]
  constructor
  · rintro ⟨hsigops, acc, hacc, txhash, hhash, left, hleft, rfl⟩
    obtain ⟨acc', hacc', rfl, hpass⟩ := (hinputs _).mp hacc
    exact ⟨_, ⟨hsigops, acc', hacc', txhash, hhash, left, hleft, rfl⟩, rfl, hpass⟩
  · rintro ⟨later', ⟨hsigops, acc, hacc, txhash, hhash, left, hleft, rfl⟩, rfl, hpass⟩
    exact ⟨hsigops, _, (hinputs _).mpr ⟨acc, hacc, rfl, hpass⟩, txhash, hhash, left, hleft,
      rfl⟩

/-- The whole loop. -/
theorem connectTxs_inStep (hn : n ≠ 0) {block : CBlock} :
    ∀ {txs : List (CTransaction × ℕ)} {now later : ConnectState},
      InStep cfg.crypto now later →
        (txs.foldlM (connectTx (cfg.withThreads 0) ctx fScriptChecks block) now = .ok now' ↔
          ∃ later',
            txs.foldlM (connectTx (cfg.withThreads n) ctx fScriptChecks block) later =
              .ok later' ∧ InStep cfg.crypto now' later') := by
  intro txs
  induction txs with
  | nil =>
      intro now later h
      simp only [List.foldlM_nil, pure_eq_ok, Except.ok.injEq]
      constructor
      · rintro rfl
        exact ⟨later, rfl, h⟩
      · rintro ⟨later', rfl, hstate, -⟩
        rw [h.state, hstate]
  | cons txi txs ih =>
      intro now later h
      simp only [List.foldlM_cons, bind_eq_ok]
      constructor
      · rintro ⟨now₁, hnow, hrest⟩
        obtain ⟨later₁, hlater, h₁⟩ := (connectTx_inStep hn h).mp hnow
        obtain ⟨later', hrest', h'⟩ := (ih h₁).mp hrest
        exact ⟨later', ⟨later₁, hlater, hrest'⟩, h'⟩
      · rintro ⟨later', ⟨later₁, hlater, hrest⟩, h'⟩
        have hsubset : later₁.vChecks ⊆ later'.vChecks :=
          foldlM_invariant (fun acc => later₁.vChecks ⊆ acc.vChecks) hrest
            (List.Subset.refl _) fun txi _ c c' hc hc' =>
              List.Subset.trans hc (connectTx_checks_subset hc')
        have h₁ : InStep cfg.crypto { later₁ with vChecks := [] } later₁ :=
          ⟨rfl, fun check hcheck => h'.passes check (hsubset hcheck)⟩
        exact ⟨_, (connectTx_inStep hn h).mpr ⟨later₁, hlater, h₁⟩,
          (ih h₁).mpr ⟨later', hrest, h'⟩⟩

theorem connectBlock_collect_inStep (hn : n ≠ 0) {block : CBlock} {view : CCoinsViewCache}
    {fJustCheck : Bool} :
    ConnectBlock_collect (cfg.withThreads 0) ctx block view fJustCheck = .ok now ↔
      ∃ later,
        ConnectBlock_collect (cfg.withThreads n) ctx block view fJustCheck = .ok later ∧
          InStep cfg.crypto now later := by
  unfold ConnectBlock_collect
  simp only [Run.DoS, guard_eq_ok, error_bind, bind_eq_ok, pure_eq_ok, Except.ok.injEq]
  constructor
  · rintro ⟨built, hbuilt, ⟨⟩, hprev, ⟨⟩, hover, acc, hacc, coinbase, hcoinbase, nOut, hout,
      hvalue, rfl⟩
    obtain ⟨later, hlater, h⟩ := (connectTxs_inStep hn (.start rfl)).mp hacc
    rw [h.nFees] at hvalue
    exact ⟨later, ⟨built, hbuilt, (), hprev, (), hover, later, hlater, coinbase, hcoinbase,
      nOut, hout, hvalue, rfl⟩, h⟩
  · rintro ⟨later, ⟨built, hbuilt, ⟨⟩, hprev, ⟨⟩, hover, acc, hacc, coinbase, hcoinbase, nOut,
      hout, hvalue, rfl⟩, h⟩
    rw [← h.nFees] at hvalue
    exact ⟨built, hbuilt, (), hprev, (), hover, now,
      (connectTxs_inStep hn (.start rfl)).mpr ⟨acc, hacc, h⟩, coinbase,
      hcoinbase, nOut, hout, hvalue, rfl⟩

end

/-! ### The verdict -/

/-- `ConnectBlock` is its two halves, with the checks run in between. -/
theorem connectBlock_halves {cfg : Config} {ctx : BlockContext} {block : CBlock}
    {view : CCoinsViewCache} {fJustCheck : Bool} {r : CCoinsViewCache × CBlockUndo} :
    ConnectBlock cfg ctx block view fJustCheck = .ok r ↔
      ∃ acc checks, ConnectBlock_collect cfg ctx block view fJustCheck = .ok acc ∧
        acc.vChecks.mapM (CScriptCheck.run cfg.crypto) = .ok checks ∧
        ConnectBlock_finish ctx fJustCheck acc (checks.all id) = .ok r := by
  unfold ConnectBlock ConnectBlock_collect ConnectBlock_finish
  simp only [Run.DoS, guard_eq_ok, error_bind, bind_eq_ok, pure_eq_ok, Except.ok.injEq]
  constructor
  · rintro ⟨built, hbuilt, ⟨⟩, hprev, ⟨⟩, hover, acc, hacc, coinbase, hcoinbase, nOut, hout,
      hvalue, checks, hchecks, hfinish⟩
    exact ⟨acc, checks, ⟨built, hbuilt, (), hprev, (), hover, acc, hacc, coinbase, hcoinbase,
      nOut, hout, hvalue, rfl⟩, hchecks, hfinish⟩
  · rintro ⟨acc, checks, ⟨built, hbuilt, ⟨⟩, hprev, ⟨⟩, hover, acc, hacc, coinbase, hcoinbase,
      nOut, hout, hvalue, rfl⟩, hchecks, hfinish⟩
    exact ⟨built, hbuilt, (), hprev, (), hover, acc, hacc, coinbase, hcoinbase, nOut, hout,
      hvalue, checks, hchecks, hfinish⟩

theorem connectBlock_finish_ok {ctx : BlockContext} {fJustCheck fRet : Bool}
    {acc : ConnectState} {r : CCoinsViewCache × CBlockUndo} :
    ConnectBlock_finish ctx fJustCheck acc fRet = .ok r ↔
      fRet = true ∧ ConnectBlock_finish ctx fJustCheck acc true = .ok r := by
  cases fRet with
  | true => simp
  | false =>
      simp only [Bool.false_eq_true, false_and, iff_false]
      intro h
      cases h

/-- What `control.Wait()` of `ConnectBlock` can return for its checks, in any
interleaving of the threads; without a queue it returns true. -/
def WaitReturns (crypto : Crypto) (nBatchSize : ℕ) (fScriptChecks : Bool)
    (vChecks : List CScriptCheck) (fRet : Bool) : Prop :=
  if fScriptChecks then
    ∃ s, CheckRun (CScriptCheck.passes crypto) nBatchSize s ∧
      ∃ round ∈ s.rounds, round.added = vChecks ∧ round.fRet = fRet
  else fRet = true

theorem WaitReturns.iff_passes {crypto : Crypto} {nBatchSize : ℕ} {fScriptChecks fRet : Bool}
    {vChecks : List CScriptCheck} (hnone : fScriptChecks = false → vChecks = [])
    (h : WaitReturns crypto nBatchSize fScriptChecks vChecks fRet) :
    fRet = true ↔ ∀ check ∈ vChecks, check.passes crypto = true := by
  cases fScriptChecks with
  | false =>
      rw [hnone rfl]
      exact iff_of_true h fun check hcheck => nomatch hcheck
  | true =>
      obtain ⟨s, hrun, round, hround, rfl, rfl⟩ := h
      exact (hrun.sound.rounds round hround).verdict

/-- Without script checks there is nothing to add to the queue. -/
theorem connectBlock_collect_noChecks {cfg : Config} {ctx : BlockContext} {block : CBlock}
    {view : CCoinsViewCache} {fJustCheck : Bool} {acc : ConnectState}
    (hscripts : decide (cfg.GetTotalBlocksEstimate ≤ ctx.nHeight) = false)
    (h : ConnectBlock_collect cfg ctx block view fJustCheck = .ok acc) : acc.vChecks = [] := by
  unfold ConnectBlock_collect at h
  rw [hscripts] at h
  simp only [Run.DoS, guard_eq_ok, error_bind, bind_eq_ok, pure_eq_ok, Except.ok.injEq] at h
  obtain ⟨built, hbuilt, ⟨⟩, hprev, ⟨⟩, hover, acc, hacc, coinbase, hcoinbase, nOut, hout,
    hvalue, rfl⟩ := h
  apply foldlM_invariant (fun acc => acc.vChecks = []) hacc rfl
  intro txi _ c c' hc hround
  obtain ⟨acc₁, hacc₁, heq⟩ := connectTx_checks hround
  rw [heq]
  rcases connectInputs_ok hacc₁ with ⟨_, rfl⟩ | ⟨hcb, _, _, _, _, vChecks, _, _, hchecks, rfl⟩
  · exact hc
  · unfold CheckInputs at hchecks
    simp only [hcb, Bool.false_eq_true, if_false, if_true, Run.DoS, Run.Invalid, guard_eq_ok,
      error_bind, bind_eq_ok, pure_eq_ok, Except.ok.injEq] at hchecks
    obtain ⟨_, _, _, _, _, _, _, _, _, _, rfl⟩ := hchecks
    exact (List.append_nil _).trans hc

theorem connectBlock_now {cfg : Config} {ctx : BlockContext} {block : CBlock}
    {view : CCoinsViewCache} {fJustCheck : Bool} {n : ℕ} (hn : n ≠ 0)
    {r : CCoinsViewCache × CBlockUndo} :
    ConnectBlock (cfg.withThreads 0) ctx block view fJustCheck = .ok r ↔
      ∃ acc, ConnectBlock_collect (cfg.withThreads n) ctx block view fJustCheck = .ok acc ∧
        (∀ check ∈ acc.vChecks, check.passes cfg.crypto = true) ∧
        ConnectBlock_finish ctx fJustCheck acc true = .ok r := by
  rw [connectBlock_halves]
  constructor
  · rintro ⟨now, checks, hnow, hchecks, hfinish⟩
    obtain ⟨later, hlater, h⟩ := (connectBlock_collect_inStep hn).mp hnow
    obtain ⟨rfl, hpasses⟩ := h
    cases hchecks
    exact ⟨later, hlater, hpasses, hfinish⟩
  · rintro ⟨later, hlater, hpasses, hfinish⟩
    exact ⟨_, [], (connectBlock_collect_inStep hn).mpr ⟨later, hlater, rfl, hpasses⟩, rfl,
      hfinish⟩

/-- Checking in parallel is exact.  However the threads interleave, the queue
works; and whatever way `Wait` comes to return for the checks of a block, the
block is accepted, with the same view and undo data, exactly when it is
accepted without threads. -/
theorem parallelChecks_exact :
    (∀ {T : Type} (check : T → Bool) (nBatchSize : ℕ) (s : CheckPool T),
      CheckRun check nBatchSize s → PoolExact check nBatchSize s) ∧
    ∀ (cfg : Config) (ctx : BlockContext) (block : CBlock) (view : CCoinsViewCache)
      (fJustCheck : Bool) (n nBatchSize : ℕ) (r : CCoinsViewCache × CBlockUndo), n ≠ 0 →
      (∀ acc fRet,
        ConnectBlock_collect (cfg.withThreads n) ctx block view fJustCheck = .ok acc →
        WaitReturns cfg.crypto nBatchSize (decide (cfg.GetTotalBlocksEstimate ≤ ctx.nHeight))
          acc.vChecks fRet →
        (ConnectBlock_finish ctx fJustCheck acc fRet = .ok r ↔
          ConnectBlock (cfg.withThreads 0) ctx block view fJustCheck = .ok r)) ∧
      ∀ e, ConnectBlock_collect (cfg.withThreads n) ctx block view fJustCheck = .error e →
        ConnectBlock (cfg.withThreads 0) ctx block view fJustCheck ≠ .ok r := by
  refine ⟨fun check nBatchSize s hrun => hrun.sound.exact, ?_⟩
  intro cfg ctx block view fJustCheck n nBatchSize r hn
  constructor
  · intro acc fRet hcollect hwait
    have hret := hwait.iff_passes fun hscripts =>
      @connectBlock_collect_noChecks (cfg.withThreads n) _ _ _ _ _ hscripts hcollect
    rw [connectBlock_finish_ok, hret, connectBlock_now hn]
    constructor
    · rintro ⟨hpasses, hfinish⟩
      exact ⟨acc, hcollect, hpasses, hfinish⟩
    · rintro ⟨acc', hcollect', hpasses, hfinish⟩
      rw [hcollect] at hcollect'
      cases hcollect'
      exact ⟨hpasses, hfinish⟩
  · intro e herror hok
    obtain ⟨acc, hcollect, -⟩ := (connectBlock_now hn).mp hok
    rw [herror] at hcollect
    cases hcollect

/-- A round with one check and no workers. -/
theorem checkRun_oneCheck {T : Type} (check : T → Bool) (c : T) :
    CheckRun check 128
      { CheckPool.new with
        rounds := [{ added := [c], ran := [c], skipped := [], fRet := check c }] } := by
  let opened : CheckPool T := { CheckPool.new with control := true }
  let filled : CheckPool T :=
    { opened with
      pqueue := { (CCheckQueue.new : CCheckQueue T) with queue := [c], nTodo := 1 }
      added := [c] }
  let busy : CheckPool T :=
    { filled with
      pqueue := { (CCheckQueue.new : CCheckQueue T) with nTotal := 1, nTodo := 1 }
      master := some (.working [c] true) }
  let ready : CheckPool T :=
    { busy with master := some (.worked 1 (check c)), ran := [c] }
  have hopened : CheckRun check 128 opened := .tail .refl ⟨_, .control rfl rfl⟩
  have hfilled : CheckRun check 128 filled :=
    .tail hopened ⟨.add, @CheckStep.add _ _ _ opened [c] [] rfl rfl (show 0 + 1 < 2 ^ 32 by decide)
      (.one rfl (.nobody List.not_mem_nil))⟩
  have htaken : filled.leaveMaster (Loop_body 128 true (Loop_enter filled.pqueue)) = busy := by
    simp [filled, busy, CheckPool.leaveMaster, Loop_body, Loop_enter, CCheckQueue.nNow,
      CCheckQueue.new, uint32]
  have hbusy : CheckRun check 128 busy := .tail hfilled ⟨.wait, htaken ▸ .wait rfl rfl⟩
  have hready : CheckRun check 128 ready := .tail hbusy 
    ⟨.run, @CheckStep.masterRuns T check 128 busy [c] true rfl⟩
  have hlast : ready.leaveMaster
      (Loop_body 128 true (Loop_cleanup 1 (check c) ready.pqueue)) =
        { CheckPool.new with
          rounds := [{ added := [c], ran := [c], skipped := [], fRet := check c }] } := by
    simp [ready, busy, filled, opened, CheckPool.leaveMaster, CheckPool.new, Loop_body,
      Loop_cleanup, CCheckQueue.new, uint32]
  rw [← hlast]
  exact .tail hready ⟨.fold, .masterFolds rfl⟩

/-- The block that spends an output under a lock time, connected with four
threads: its only script check goes through the queue. -/
theorem parallelChecks_exact_unlockingBlock :
    ∃ acc fRet r,
      ConnectBlock_collect (lockedNet.withThreads 4) unlockingContext unlockingBlock.readBack
        lockedState.pcoinsTip false = .ok acc ∧
      acc.vChecks.length = 1 ∧ WaitReturns lockedNet.crypto 128 true acc.vChecks fRet ∧
      ConnectBlock_finish unlockingContext false acc fRet = .ok r ∧
      ∃ s, CheckRun (CScriptCheck.passes lockedNet.crypto) 128 s ∧ s.rounds.length = 1 ∧
        PoolExact (CScriptCheck.passes lockedNet.crypto) 128 s := by
  obtain ⟨r, hconnect⟩ := exists_eq_ok_of_isOk
    (x := ConnectBlock (lockedNet.withThreads 0) unlockingContext unlockingBlock.readBack
      lockedState.pcoinsTip false) (by decide +kernel)
  obtain ⟨acc, hcollect⟩ := exists_eq_ok_of_isOk
    (x := ConnectBlock_collect (lockedNet.withThreads 4) unlockingContext
      unlockingBlock.readBack lockedState.pcoinsTip false) (by decide +kernel)
  have hlength : (ConnectBlock_collect (lockedNet.withThreads 4) unlockingContext
      unlockingBlock.readBack lockedState.pcoinsTip false).toOption.map
        (fun acc => acc.vChecks.length) = some 1 := by decide +kernel
  rw [hcollect] at hlength
  have hone : acc.vChecks.length = 1 := Option.some.inj hlength
  obtain ⟨c, hc⟩ := List.length_eq_one_iff.mp hone
  have hrun := checkRun_oneCheck (CScriptCheck.passes lockedNet.crypto) c
  have hwait : WaitReturns lockedNet.crypto 128 true acc.vChecks
      (c.passes lockedNet.crypto) :=
    ⟨_, hrun, _, List.mem_singleton_self _, hc.symm, rfl⟩
  have hscripts : decide (lockedNet.GetTotalBlocksEstimate ≤ unlockingContext.nHeight) = true :=
    decide_eq_true (Nat.zero_le _)
  have hverdict := (parallelChecks_exact.2 lockedNet unlockingContext unlockingBlock.readBack
    lockedState.pcoinsTip false 4 128 r (by decide)).1 acc (c.passes lockedNet.crypto) hcollect
  rw [hscripts] at hverdict
  exact ⟨acc, _, r, hcollect, hone, hwait, (hverdict hwait).mpr hconnect, _, hrun, rfl,
    parallelChecks_exact.1 _ 128 _ hrun⟩

end Ziftrcoin.Spec
