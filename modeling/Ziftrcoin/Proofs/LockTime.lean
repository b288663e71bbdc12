/-
Module: Ziftrcoin.Proofs.LockTime
Purpose: Lock times hold: no script that a connected block runs gets past
  `OP_CHECKLOCKTIMEVERIFY` before the height or the time it names.
Trusted boundary: none
Main exports: EvalReaches, acceptedBlock_lockTimesPassed
-/
import Ziftrcoin.Proofs.Runs
import Ziftrcoin.Proofs.SmallNetwork

namespace Ziftrcoin.Spec

open Ziftrcoin.Lib Ziftrcoin.Lib.Outcome

/-! ### Executions -/

/-- The states between the rounds of an evaluation. -/
inductive EvalReaches (ctx : ScriptContext) (start : ScriptState) :
    ScriptState → Prop where
  | refl : EvalReaches ctx start start
  | round {s s' : ScriptState} (reached : EvalReaches ctx start s)
      (more : s.pc ≠ []) (step : evalStep ctx s = some s') :
      EvalReaches ctx start s'

/-- The evaluation of a script on a stack comes, in a branch that is not
skipped, to an `OP_CHECKLOCKTIMEVERIFY` whose operand is `n`. -/
def ExecutesLockTime (ctx : ScriptContext) (stack : List valtype)
    (script : CScript) (n : Int) : Prop :=
  ∃ s vchPushValue pc vch below,
    EvalReaches ctx (evalStart stack script) s ∧
    getOp s.pc = some (OP_CHECKLOCKTIMEVERIFY, vchPushValue, pc) ∧
    s.fExec = true ∧ s.stack = vch :: below ∧ CScriptNum.ofVch vch 5 = some n

/-- The evaluations that `VerifyScript` makes. -/
inductive Evaluated (ctx : ScriptContext) (scriptSig scriptPubKey : CScript) :
    List valtype → CScript → Prop where
  | scriptSig : Evaluated ctx scriptSig scriptPubKey [] scriptSig
  | scriptPubKey {stack : List valtype}
      (pushed : EvalScript ctx [] scriptSig = some stack) :
      Evaluated ctx scriptSig scriptPubKey stack scriptPubKey
  | redeemScript {pubKeySerialized : valtype} {stack : List valtype}
      (flag : ctx.flags.P2SH = true)
      (isP2SH : scriptPubKey.IsPayToScriptHash = true)
      (pushed : EvalScript ctx [] scriptSig = some (pubKeySerialized :: stack)) :
      Evaluated ctx scriptSig scriptPubKey stack pubKeySerialized

/-- What a lock time asks of the height or the time of a block. -/
def LockTimePassed (nHeight nTime n : Int) : Prop :=
  0 ≤ n ∧ (n < LOCKTIME_THRESHOLD → n < nHeight) ∧
    (LOCKTIME_THRESHOLD ≤ n → n < nTime)

/-- All lock times that the scripts of an input name have passed. -/
def LockTimesPassed (ctx : ScriptContext) (scriptSig scriptPubKey : CScript)
    (nHeight nTime : Int) : Prop :=
  ∀ stack script n, Evaluated ctx scriptSig scriptPubKey stack script →
    ExecutesLockTime ctx stack script n → LockTimePassed nHeight nTime n

/-! ### The interpreter -/

/-- The loop goes on from each state it comes to. -/
theorem evalLoop_of_reaches {ctx : ScriptContext} {start s final : ScriptState}
    {fuel : Nat} (h : evalLoop ctx fuel start = some final)
    (hreach : EvalReaches ctx start s) :
    ∃ fuel', evalLoop ctx fuel' s = some final := by
  induction hreach with
  | refl => exact ⟨fuel, h⟩
  | @round s s' _ more step ih =>
      obtain ⟨fuel', h'⟩ := ih
      cases fuel' with
      | zero => simp [evalLoop, more] at h'
      | succ fuel' =>
          rw [evalLoop, if_neg more, step] at h'
          exact ⟨fuel', h'⟩

/-- What `OP_CHECKLOCKTIMEVERIFY` lets through. -/
theorem execCheckLockTime_some {ctx : ScriptContext} {s s' : ScriptState}
    {vch : valtype} {below : List valtype} {n : Int}
    (h : execCheckLockTime ctx OP_CHECKLOCKTIMEVERIFY s = some s')
    (hstack : s.stack = vch :: below) (hn : CScriptNum.ofVch vch 5 = some n) :
    ∃ txin, ctx.txTo.vin[ctx.nIn]? = some txin ∧ txin.IsFinal = false ∧
      0 ≤ n ∧ n ≤ ctx.txTo.nLockTime ∧
      (n < LOCKTIME_THRESHOLD ↔
        (ctx.txTo.nLockTime : Int) < LOCKTIME_THRESHOLD) := by
  unfold execCheckLockTime at h
  rw [hstack] at h
  cases hin : ctx.txTo.vin[ctx.nIn]? with
  | none => simp [hin] at h
  | some txin =>
      simp only [hin, hn, Option.bind_some] at h
      split at h
      · cases h
      · split at h
        · cases h
        · rename_i hneg htypes
          simp only [pushOrVerify, beq_self_eq_true, if_true] at h
          split at h
          · rename_i hok
            rw [Bool.and_eq_true, decide_eq_true_eq, Bool.not_eq_true'] at hok
            refine ⟨txin, rfl, hok.2, by omega, hok.1, ?_⟩
            omega
          · cases h

theorem execOp_checkLockTime (ctx : ScriptContext) (s : ScriptState) :
    execOp ctx OP_CHECKLOCKTIMEVERIFY s =
      execCheckLockTime ctx OP_CHECKLOCKTIMEVERIFY s := by
  simp [execOp, OP_CHECKLOCKTIMEVERIFY, OP_1NEGATE, OP_1, OP_16, OP_NOP, OP_NOP1,
    OP_NOP10, OP_IF, OP_ENDIF, OP_VERIFY, OP_RETURN, OP_TOALTSTACK, OP_SIZE, OP_EQUAL,
    OP_WITHIN, OP_RIPEMD160, OP_HASH256, OP_CODESEPARATOR, OP_CHECKSIG,
    OP_CHECKSIGVERIFY, OP_CHECKMULTISIG, OP_CHECKMULTISIGVERIFY]

/-- A round that succeeds at a lock time check has passed it. -/
theorem evalStep_lockTime {ctx : ScriptContext} {s s' : ScriptState}
    {vchPushValue : valtype} {pc : CScript} (h : evalStep ctx s = some s')
    (hop : getOp s.pc = some (OP_CHECKLOCKTIMEVERIFY, vchPushValue, pc))
    (hexec : s.fExec = true) :
    ∃ s₁ s₂, s₁.stack = s.stack ∧
      execCheckLockTime ctx OP_CHECKLOCKTIMEVERIFY s₁ = some s₂ := by
  have hpush : ¬ OP_CHECKLOCKTIMEVERIFY ≤ OP_PUSHDATA4 := by decide
  have hfExec : ∀ pc nOpCount, ScriptState.fExec { s with pc, nOpCount } = true :=
    fun _ _ => hexec
  unfold evalStep at h
  simp only [hop, Option.ite_none_left_eq_some, hfExec, hpush, and_false, if_false,
    true_or, if_true, Option.bind_eq_some_iff] at h
  obtain ⟨_, _, _, s₂, hexecOp, _⟩ := h
  rw [execOp_checkLockTime] at hexecOp
  refine ⟨_, s₂, ?_, hexecOp⟩
  rfl

/-- A script that succeeds has passed each lock time check it came to. -/
theorem evalScript_lockTime {ctx : ScriptContext} {stack out : List valtype}
    {script : CScript} {n : Int} (h : EvalScript ctx stack script = some out)
    (hexec : ExecutesLockTime ctx stack script n) :
    ∃ txin, ctx.txTo.vin[ctx.nIn]? = some txin ∧ txin.IsFinal = false ∧
      0 ≤ n ∧ n ≤ ctx.txTo.nLockTime ∧
      (n < LOCKTIME_THRESHOLD ↔
        (ctx.txTo.nLockTime : Int) < LOCKTIME_THRESHOLD) := by
  obtain ⟨s, vchPushValue, pc, vch, below, hreach, hop, hfExec, hstack, hn⟩ :=
    hexec
  unfold EvalScript at h
  split at h
  · cases h
  · split at h
    · cases h
    · rename_i final hloop
      obtain ⟨fuel', hloop'⟩ := evalLoop_of_reaches hloop hreach
      have hpc : s.pc ≠ [] := by
        intro hnil
        rw [hnil] at hop
        cases hop
      cases fuel' with
      | zero => simp [evalLoop, hpc] at hloop'
      | succ fuel' =>
          rw [evalLoop, if_neg hpc] at hloop'
          split at hloop'
          · cases hloop'
          · rename_i s' hstep
            obtain ⟨s₁, s₂, hs₁, hcheck⟩ := evalStep_lockTime hstep hop hfExec
            exact execCheckLockTime_some hcheck (hs₁.trans hstack) hn

/-- When `VerifyScript` accepts, all its evaluations have succeeded. -/
theorem evalScript_of_evaluated {ctx : ScriptContext}
    {scriptSig scriptPubKey : CScript} {stack : List valtype} {script : CScript}
    (h : VerifyScript ctx scriptSig scriptPubKey = .ok true)
    (hevaluated : Evaluated ctx scriptSig scriptPubKey stack script) :
    ∃ out, EvalScript ctx stack script = some out := by
  obtain ⟨stackCopy, out, hsig, hkey, -, hredeem⟩ := verifyScript_iff.mp h
  cases hevaluated with
  | scriptSig => exact ⟨stackCopy, hsig⟩
  | scriptPubKey pushed =>
      rw [hsig, Option.some.injEq] at pushed
      exact ⟨out, pushed ▸ hkey⟩
  | redeemScript flag isP2SH pushed =>
      obtain ⟨-, pubKeySerialized, rest, out', rfl, hout, -⟩ := hredeem flag isP2SH
      rw [hsig, Option.some.injEq, List.cons.injEq] at pushed
      obtain ⟨rfl, rfl⟩ := pushed
      exact ⟨out', hout⟩

/-! ### Finality -/

/-- A final transaction with an input that is not final has a lock time that
has passed.  Neither argument may be zero, which stands for the default. -/
theorem lockTime_lt_of_isFinalTx {chainHeight nAdjustedTime nBlockHeight
    nBlockTime : Int} {tx : CTransaction} {txin : CTxIn} {i : Nat}
    (h : IsFinalTx chainHeight nAdjustedTime tx nBlockHeight nBlockTime = true)
    (hheight : 1 ≤ nBlockHeight) (htime : 1 ≤ nBlockTime)
    (hin : tx.vin[i]? = some txin) (hfinal : txin.IsFinal = false) :
    ((tx.nLockTime : Int) < LOCKTIME_THRESHOLD →
        (tx.nLockTime : Int) < nBlockHeight) ∧
      (LOCKTIME_THRESHOLD ≤ (tx.nLockTime : Int) →
        (tx.nLockTime : Int) < nBlockTime) := by
  have hall : tx.vin.all CTxIn.IsFinal = false := by
    rw [List.all_eq_false]
    exact ⟨txin, List.mem_of_getElem? hin, by simp [hfinal]⟩
  unfold IsFinalTx at h
  by_cases hzero : tx.nLockTime = 0
  · rw [hzero]
    exact ⟨fun _ => by omega, fun _ => by omega⟩
  · rw [if_neg hzero, if_neg (by omega : ¬ nBlockHeight = 0),
      if_neg (by omega : ¬ nBlockTime = 0), hall] at h
    by_cases hkind : (tx.nLockTime : Int) < LOCKTIME_THRESHOLD
    · simp only [if_pos hkind] at h
      exact ⟨fun _ => by simpa using h, fun hge => absurd hkind (by omega)⟩
    · simp only [if_neg hkind] at h
      exact ⟨fun hlt => absurd hlt hkind, fun _ => by simpa using h⟩

/-- The scripts of an input of a final transaction name only lock times that
have passed. -/
theorem lockTimesPassed_of_isFinalTx {chainHeight nAdjustedTime nBlockHeight
    nBlockTime : Int} {ctx : ScriptContext} {scriptSig scriptPubKey : CScript}
    (hfinal : IsFinalTx chainHeight nAdjustedTime ctx.txTo nBlockHeight
      nBlockTime = true)
    (hheight : 1 ≤ nBlockHeight) (htime : 1 ≤ nBlockTime)
    (hverify : VerifyScript ctx scriptSig scriptPubKey = .ok true) :
    LockTimesPassed ctx scriptSig scriptPubKey nBlockHeight nBlockTime := by
  intro stack script n hevaluated hexec
  obtain ⟨out, hout⟩ := evalScript_of_evaluated hverify hevaluated
  obtain ⟨txin, hin, hnotFinal, hn, hle, hkind⟩ := evalScript_lockTime hout hexec
  obtain ⟨hlow, hhigh⟩ :=
    lockTime_lt_of_isFinalTx hfinal hheight htime hin hnotFinal
  refine ⟨hn, fun hlt => ?_, fun hge => ?_⟩
  · have := hlow (hkind.mp hlt)
    omega
  · have := hhigh (by omega)
    omega

/-! ### Script checks of a connected block -/

theorem mapM_eq_ok_mem {ε α β : Type} {f : α → Except ε β} :
    ∀ {xs : List α} {ys : List β}, xs.mapM f = .ok ys →
      ∀ x ∈ xs, ∃ y ∈ ys, f x = .ok y
  | [], _, _, _, hmem => by simp at hmem
  | x :: xs, ys, h, z, hmem => by
      rw [List.mapM_cons, bind_eq_ok] at h
      obtain ⟨y, hy, h⟩ := h
      rw [bind_eq_ok] at h
      obtain ⟨ys', hys', h⟩ := h
      simp only [pure_eq_ok, Except.ok.injEq] at h
      subst h
      rcases List.mem_cons.mp hmem with rfl | hmem
      · exact ⟨y, List.mem_cons_self, hy⟩
      · obtain ⟨y', hy', hf⟩ := mapM_eq_ok_mem hys' z hmem
        exact ⟨y', List.mem_cons_of_mem y hy', hf⟩

theorem runCheckNow_ok {crypto : Crypto} {check : CScriptCheck}
    (h : runCheckNow crypto check = .ok ()) : check.run crypto = .ok true := by
  unfold runCheckNow at h
  rw [bind_eq_ok] at h
  obtain ⟨ok, hrun, h⟩ := h
  cases ok with
  | true => exact hrun
  | false =>
      -- Both ways out of a failed check reject.
      simp only [if_true, Run.Invalid, Run.DoS] at h
      split at h
      · simp only [error_bind, bind_eq_ok, guard_eq_ok] at h
        obtain ⟨_, _, _, h⟩ := h
        cases h
      · cases h

/-- The script of the output that an input spends accepts the input. -/
def SpendVerified (crypto : Crypto) (view : CCoinsViewCache) (tx : CTransaction)
    (i : Nat) (txin : CTxIn) : Prop :=
  ∃ coins txout, view.coins txin.prevout.hash = some coins ∧
    coins.vout[txin.prevout.n]? = some txout ∧
    VerifyScript
      { crypto, txTo := tx, nIn := i, flags := SCRIPT_VERIFY_P2SH_STRICTENC }
      txin.scriptSig txout.scriptPubKey = .ok true

theorem scriptCheckOf_ok {inputs : CCoinsViewCache} {tx : CTransaction}
    {flags : ScriptFlags} {txin : CTxIn} {i : Nat} {check : CScriptCheck}
    (h : scriptCheckOf inputs tx flags txin i = .ok check) :
    ∃ coins txout, inputs.coins txin.prevout.hash = some coins ∧
      coins.vout[txin.prevout.n]? = some txout ∧
      check = { scriptPubKey := txout.scriptPubKey, txTo := tx, nIn := i,
                nFlags := flags } := by
  unfold scriptCheckOf at h
  simp only [bind_eq_ok, pure_eq_ok, Except.ok.injEq] at h
  obtain ⟨coins, hcoins, txout, hout, h⟩ := h
  exact ⟨coins, txout, getCoins_eq_ok.mp hcoins, get_eq_ok.mp hout, h.symm⟩

/-- With script checks on, each input is checked: at once, or by one of the
checks handed back. -/
theorem checkInputs_checks {crypto : Crypto} {prevHeight : uint256 → Option Nat}
    {tx : CTransaction} {inputs : CCoinsViewCache} {flags : ScriptFlags}
    {fDefer : Bool} {vChecks : List CScriptCheck} (hcb : tx.IsCoinBase = false)
    (h : CheckInputs crypto prevHeight tx inputs true flags fDefer = .ok vChecks) :
    ∀ txin i, tx.vin[i]? = some txin → ∃ check,
      scriptCheckOf inputs tx flags txin i = .ok check ∧
      (check ∈ vChecks ∨ check.run crypto = .ok true) := by
  intro txin i hin
  unfold CheckInputs at h
  simp only [hcb, Bool.false_eq_true, if_false, Run.DoS, Run.Invalid, guard_eq_ok,
    error_bind, bind_eq_ok, pure_eq_ok, reduceCtorEq] at h
  obtain ⟨_, _, _, _, _, _, _, _, _, _, checks, hchecks, h⟩ := h
  obtain ⟨check, hmem, hcheck⟩ := mapM_eq_ok_mem hchecks (txin, i)
    (List.mem_zipIdx_iff_getElem?.mpr hin)
  refine ⟨check, hcheck, ?_⟩
  cases fDefer with
  | true =>
      simp only [if_true, Except.ok.injEq] at h
      exact .inl (h ▸ hmem)
  | false =>
      simp only [Bool.false_eq_true, if_false, bind_eq_ok] at h
      obtain ⟨⟨⟩, hnow, _⟩ := h
      exact .inr (runCheckNow_ok (forM_eq_ok hnow check hmem))

/-- A round of the loop takes over the checks of the rounds before. -/
theorem connectTx_checks {cfg : Config} {ctx : BlockContext}
    {fScriptChecks : Bool} {block : CBlock} {acc acc' : ConnectState}
    {txi : CTransaction × Nat}
    (h : connectTx cfg ctx fScriptChecks block acc txi = .ok acc') :
    ∃ acc₁, connectInputs cfg ctx fScriptChecks
        { acc with nSigOps := acc.nSigOps + GetSigOpCount txi.1 } txi.1 = .ok acc₁ ∧
      acc'.vChecks = acc₁.vChecks := by
  obtain ⟨acc₁, _, _, _, hacc₁, _, _, rfl⟩ := connectTx_round h
  exact ⟨acc₁, hacc₁, rfl⟩

theorem connectTx_checks_subset {cfg : Config} {ctx : BlockContext}
    {fScriptChecks : Bool} {block : CBlock} {acc acc' : ConnectState}
    {txi : CTransaction × Nat}
    (h : connectTx cfg ctx fScriptChecks block acc txi = .ok acc') :
    acc.vChecks ⊆ acc'.vChecks := by
  obtain ⟨acc₁, hacc₁, heq⟩ := connectTx_checks h
  rw [heq]
  rcases connectInputs_ok hacc₁ with ⟨_, rfl⟩ | ⟨_, _, _, _, _, _, _, _, _, rfl⟩
  · exact fun _ hmem => hmem
  · exact List.subset_append_left _ _

/-- The loop up to a transaction, the round of that transaction, and the rest
of the loop. -/
theorem connectTxs_split {cfg : Config} {ctx : BlockContext}
    {fScriptChecks : Bool} {block : CBlock} {acc acc' : ConnectState}
    {tx : CTransaction} {k : Nat} (hk : block.vtx[k]? = some tx)
    (h : block.vtx.zipIdx.foldlM (connectTx cfg ctx fScriptChecks
      (block.BuildMerkleTree cfg.crypto)) acc = .ok acc') :
    ∃ before after txundos,
      ViewConnects cfg.crypto ctx.nHeight acc.view (block.vtx.take k) txundos
        before.view ∧
      connectTx cfg ctx fScriptChecks (block.BuildMerkleTree cfg.crypto) before
        (tx, k) = .ok after ∧
      after.vChecks ⊆ acc'.vChecks := by
  have hlt : k < block.vtx.length := (List.getElem?_eq_some_iff.mp hk).1
  have hsplit : block.vtx.zipIdx = (block.vtx.take k).zipIdx ++
      (tx, k) :: (block.vtx.drop (k + 1)).zipIdx (k + 1) := by
    have hcons : block.vtx.drop k = tx :: block.vtx.drop (k + 1) := by
      rw [List.drop_eq_getElem_cons hlt, (List.getElem?_eq_some_iff.mp hk).2]
    conv_lhs => rw [← List.take_append_drop k block.vtx, hcons]
    rw [List.zipIdx_append, List.zipIdx_cons, List.length_take_of_le (le_of_lt hlt)]
    simp
  rw [hsplit, List.foldlM_append, bind_eq_ok] at h
  obtain ⟨before, hbefore, h⟩ := h
  rw [List.foldlM_cons, bind_eq_ok] at h
  obtain ⟨after, htx, hafter⟩ := h
  obtain ⟨txundos, hviews, _⟩ := connectTxs_ok
    (by simpa using List.take_prefix k block.vtx) hbefore
  refine ⟨before, after, txundos, hviews, htx, ?_⟩
  exact foldlM_invariant (fun acc => after.vChecks ⊆ acc.vChecks) hafter
    (fun _ hmem => hmem) fun _ _ _ _ hsub hround _ hmem =>
      connectTx_checks_subset hround (hsub hmem)

/-- A block connected with script checks spends only outputs whose scripts
accept it. -/
theorem connectBlock_verifies {cfg : Config} {ctx : BlockContext} {block : CBlock}
    {view view' : CCoinsViewCache} {fJustCheck : Bool} {vtxundo : CBlockUndo}
    {tx : CTransaction} {txin : CTxIn} {k i : Nat}
    (h : ConnectBlock cfg ctx block view fJustCheck = .ok (view', vtxundo))
    (hscripts : cfg.GetTotalBlocksEstimate ≤ ctx.nHeight)
    (hk : block.vtx[k]? = some tx) (hcb : tx.IsCoinBase = false)
    (hin : tx.vin[i]? = some txin) :
    ∃ view₁ txundos,
      ViewConnects cfg.crypto ctx.nHeight view (block.vtx.take k) txundos view₁ ∧
      SpendVerified cfg.crypto view₁ tx i txin := by
  obtain ⟨_, _, acc, checks, _, _, _, hloop, _, hchecks, hall, _⟩ :=
    connectBlock_ok h
  rw [decide_eq_true hscripts] at hloop
  obtain ⟨before, after, txundos, hviews, htx, hsub⟩ := connectTxs_split hk hloop
  obtain ⟨acc₁, hacc₁, heq⟩ := connectTx_checks htx
  refine ⟨before.view, txundos, hviews, ?_⟩
  rcases connectInputs_ok hacc₁ with
    ⟨hcb', _⟩ | ⟨_, _, _, _, _, vChecks, _, _, hinputs, hacc₁'⟩
  · rw [hcb] at hcb'
    cases hcb'
  · obtain ⟨check, hcheck, hran⟩ := checkInputs_checks hcb hinputs txin i hin
    have hrun : check.run cfg.crypto = .ok true := by
      rcases hran with hmem | hrun
      · have hmem' : check ∈ acc.vChecks := by
          apply hsub
          rw [heq, hacc₁']
          exact List.mem_append_right _ hmem
        obtain ⟨ok, hok, hrun⟩ := mapM_eq_ok_mem hchecks check hmem'
        have htrue : ok = true := List.all_eq_true.mp hall ok hok
        rw [hrun, htrue]
      · exact hrun
    obtain ⟨coins, txout, hcoins, hout, rfl⟩ := scriptCheckOf_ok hcheck
    refine ⟨coins, txout, hcoins, hout, ?_⟩
    simpa [CScriptCheck.run, List.getD_eq_getElem?_getD, hin] using hrun

/-! ### Accepted blocks -/

/-- A block that is accepted once the genesis block is known has passed the
checks in its context. -/
theorem acceptBlock_checked {cfg : Config} {fuel : Nat} {block : CBlock}
    {s s' : NodeState}
    (hgenesis : (s.mapBlockIndex.find cfg.HashGenesisBlock).isSome = true)
    (h : AcceptBlock cfg fuel block s = .done () s') :
    acceptChecks cfg s (s.ticks 0).nAdjustedTime block = .ok () := by
  unfold AcceptBlock at h
  rw [Machine.get_bind_run] at h
  by_cases hknown : (s.mapBlockIndex.find (block.GetHash cfg.crypto)).isSome = true
  · simp only [if_pos hknown, Machine.refuse_bind_run, reduceCtorEq] at h
  · have hne : block.GetHash cfg.crypto ≠ cfg.HashGenesisBlock := by
      intro heq
      rw [heq] at hknown
      exact hknown hgenesis
    simp only [if_neg hknown, if_pos hne, tick_bind_run] at h
    cases haccept : acceptChecks cfg s (s.ticks 0).nAdjustedTime block with
    | ok u => rfl
    | error e =>
        rw [haccept] at h
        cases e with
        | reject state => simp at h
        | fault e => simp at h

/-- Lock times hold.  When `AcceptBlock` accepts a block of time `t` at height
`h`, in a node that knows the genesis block as every reachable one does
(`Reachable.settled`), and the block is connected with script checks on, then
the script of each output it spends accepts the spending input, and every
`OP_CHECKLOCKTIMEVERIFY` executed while an input is verified, under whatever
flags and for whatever output script, has an operand below `h` or `t`. -/
theorem acceptedBlock_lockTimesPassed {cfg : Config} {fuel : Nat} {block : CBlock}
    {s s' : NodeState} {ctx : BlockContext} {view view' : CCoinsViewCache}
    {fJustCheck : Bool} {vtxundo : CBlockUndo} {tx : CTransaction} {txin : CTxIn}
    {k i : Nat}
    (hgenesis : (s.mapBlockIndex.find cfg.HashGenesisBlock).isSome = true)
    (haccept : AcceptBlock cfg fuel block s = .done () s')
    (hheight : ctx.nHeight = (newEntry cfg s block 0 0).nHeight)
    (hscripts : cfg.GetTotalBlocksEstimate ≤ ctx.nHeight)
    (hconnect : ConnectBlock cfg ctx block.readBack view fJustCheck =
      .ok (view', vtxundo))
    (hk : block.vtx[k]? = some tx) (hcb : tx.IsCoinBase = false)
    (hin : tx.vin[i]? = some txin) :
    (∃ view₁ txundos,
      ViewConnects cfg.crypto ctx.nHeight view (block.vtx.take k) txundos view₁ ∧
      SpendVerified cfg.crypto view₁ tx i txin) ∧
    ∀ flags scriptPubKey,
      VerifyScript { crypto := cfg.crypto, txTo := tx, nIn := i, flags }
        txin.scriptSig scriptPubKey = .ok true →
      LockTimesPassed { crypto := cfg.crypto, txTo := tx, nIn := i, flags }
        txin.scriptSig scriptPubKey ctx.nHeight block.nTime := by
  refine ⟨connectBlock_verifies hconnect hscripts hk hcb hin, ?_⟩
  intro flags scriptPubKey hverify
  obtain ⟨pPrev, hfits⟩ := acceptChecks_ok (acceptBlock_checked hgenesis haccept)
  have hpositive := hfits.one_le_nHeight
  have htime := hfits.time
  rw [hheight]
  exact lockTimesPassed_of_isFinalTx (hfits.final tx (List.mem_of_getElem? hk)) (by omega)
    (by omega) hverify

/-! ### An example -/

/-- A script that can be satisfied from height 2 on. -/
def lockedScript : CScript :=
  [UInt8.ofNat OP_1, UInt8.ofNat OP_CHECKLOCKTIMEVERIFY, UInt8.ofNat OP_1]

/-- A network whose genesis block has an output under that script. -/
def lockedNet : Config := smallNet (smallGenesis [⟨0, lockedScript⟩])

/-- An input that is not final. -/
def unlockingInput : CTxIn :=
  { prevout := ⟨(coinbaseTx 1 0 [⟨0, lockedScript⟩]).GetHash smallCrypto, 0⟩
    scriptSig := []
    nSequence := 0 }

/-- The spend, with lock time 1. -/
def unlockingTx : CTransaction :=
  { nVersion := 100
    vin := [unlockingInput]
    vout := [⟨0, anyoneCanSpend⟩]
    nLockTime := 1 }

/-- The node after one block. -/
def lockedState : NodeState :=
  afterEvents lockedNet (started lockedNet fun _ => quiet)
    [.block 2 true (smallBlock 2 1 (hashOfNonce 1) [coinbaseTx 2 1 [⟨50, anyoneCanSpend⟩]])]

/-- The block at height 2 that spends the output. -/
def unlockingBlock : CBlock :=
  (smallBlock 3 2 (hashOfNonce 2)
    [coinbaseTx 3 2 [⟨50, anyoneCanSpend⟩], unlockingTx]).BuildMerkleTree smallCrypto

/-- What connecting that block reads. -/
def unlockingContext : BlockContext :=
  lockedState.blockContext (newEntry lockedNet lockedState unlockingBlock 0 0)
    quiet.nAdjustedTime

/-- The evaluation of the spent script. -/
def unlockingScriptContext : ScriptContext :=
  { crypto := smallCrypto, txTo := unlockingTx, nIn := 0,
    flags := SCRIPT_VERIFY_P2SH_STRICTENC }

theorem executesLockTime_lockedScript :
    ExecutesLockTime unlockingScriptContext [] lockedScript 1 :=
  ⟨_, _, _, _, _, .round .refl (by decide) rfl, rfl, rfl, rfl, by decide⟩

/-- The block at height 2 is accepted and connected, and the script check with
operand 1 that it runs has passed. -/
theorem acceptedBlock_lockTimesPassed_unlockingBlock :
    (∃ s', AcceptBlock lockedNet 2 unlockingBlock lockedState = .done () s') ∧
      unlockingContext.nHeight = 2 ∧
      LockTimePassed 2 unlockingBlock.nTime 1 := by
  have haccept := eq_done_of_returned
    (x := AcceptBlock lockedNet 2 unlockingBlock) (s := lockedState)
    (by decide +kernel)
  obtain ⟨⟨view', vtxundo⟩, hconnect⟩ := exists_eq_ok_of_isOk
    (x := ConnectBlock lockedNet unlockingContext unlockingBlock.readBack
      lockedState.pcoinsTip false) (by decide +kernel)
  have hgenesis : (lockedState.mapBlockIndex.find
      lockedNet.HashGenesisBlock).isSome = true := by decide +kernel
  have hheight : unlockingContext.nHeight = 2 := by decide +kernel
  have hentry : unlockingContext.nHeight =
      (newEntry lockedNet lockedState unlockingBlock 0 0).nHeight := by
    decide +kernel
  have hk : unlockingBlock.vtx[1]? = some unlockingTx := rfl
  have hin : unlockingTx.vin[0]? = some unlockingInput := rfl
  have hpassed := acceptedBlock_lockTimesPassed hgenesis haccept hentry
    (Nat.zero_le _) hconnect hk rfl hin
  have htimes : LockTimesPassed unlockingScriptContext [] lockedScript
      unlockingContext.nHeight unlockingBlock.nTime :=
    hpassed.2 SCRIPT_VERIFY_P2SH_STRICTENC lockedScript (by decide +kernel)
  have hpushed : EvalScript unlockingScriptContext [] [] = some [] := by decide
  rw [hheight] at htimes
  exact ⟨⟨_, haccept⟩, hheight, htimes _ _ _ (.scriptPubKey hpushed)
    executesLockTime_lockedScript⟩

end Ziftrcoin.Spec
