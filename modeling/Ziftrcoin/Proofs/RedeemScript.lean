/-
Module: Ziftrcoin.Proofs.RedeemScript
Purpose: The assertion of VerifyScript holds: an evaluation that compares a script hash
  has taken the redeem script from a stack that is not empty.
Trusted boundary: none
Main exports: evalStep_refines, verifyScript_redeem
-/
import Ziftrcoin.Proofs.ScriptHashes
import Ziftrcoin.Proofs.ScriptSafety

namespace Ziftrcoin.Spec

open Ziftrcoin.Lib Ziftrcoin.Lib.Tallied

namespace Machine

/-! ### Evaluations that succeed -/

/-- The next instruction is no `OP_CHECKLOCKTIME`, which may succeed without an input. -/
def NoLockTest (pc : CScript) : Prop := ∀ op ∈ (ops pc).1, op.1 ≠ OP_CHECKLOCKTIME

/-- Where a lock time is verified, the input was there. -/
theorem execCheckLockTime_verified (ctx : ScriptContext) (s : ScriptState) :
    Ends (execCheckLockTime ctx OP_CHECKLOCKTIMEVERIFY s)
      (fun s' => Spec.execCheckLockTime ctx OP_CHECKLOCKTIMEVERIFY s = some s')
      (fun _ => True) := by
  unfold execCheckLockTime
  rcases hs : s.stack with _ | ⟨vch, rest⟩
  · trivial
  have hone : 1 ≤ (vch :: rest).length := by simp
  simp only [require_true hone, stacktop_one, popstack_cons, Outcome.ok_bind, operand]
  cases hn : CScriptNum.ofVch vch 5 with
  | none => trivial
  | some n =>
  simp only [Outcome.ok_bind]
  by_cases hpos : 0 ≤ n
  swap
  · rw [require_false hpos]
    trivial
  by_cases hkind : ¬ (((ctx.txTo.nLockTime : ℤ) < LOCKTIME_THRESHOLD ∧ LOCKTIME_THRESHOLD ≤ n) ∨
      (LOCKTIME_THRESHOLD ≤ (ctx.txTo.nLockTime : ℤ) ∧ n < LOCKTIME_THRESHOLD))
  swap
  · rw [require_true hpos, require_false hkind]
    trivial
  rw [require_true hpos, require_true hkind]
  by_cases hle : n ≤ (ctx.txTo.nLockTime : ℤ)
  swap
  · simp only [Outcome.ok_bind, if_neg hle]
    exact trivial
  simp only [Outcome.ok_bind, if_pos hle]
  cases hin : ctx.txTo.vin[ctx.nIn]? with
  | none => trivial
  | some txin =>
      have hold : Spec.execCheckLockTime ctx OP_CHECKLOCKTIMEVERIFY s =
          pushOrVerify { s with stack := rest } true (!txin.IsFinal) := by
        simp only [Spec.execCheckLockTime, hs, hin, hn, Option.bind_some,
          if_neg (Int.not_lt.mpr hpos), if_neg hkind, hle, decide_true, Bool.true_and]
        rfl
      rw [hold]
      exact Ends.mono (pushOutcome_agrees s rest true _) (fun _ h => h) fun _ _ => trivial

/-- An instruction that succeeds does what it does on lists. -/
theorem execOp_refines {ctx : ScriptContext} {opcode : ℕ} (hop : opcode ≠ OP_CHECKLOCKTIME)
    (s : ScriptState) (t : EvalTally) :
    Achieves (execOp ctx opcode s) (fun s' _ => Spec.execOp ctx opcode s = some s' ∧ s'.pc = s.pc)
      (fun _ _ => True) t := by
  by_cases hlock : isLockTime opcode
  · obtain rfl : opcode = OP_CHECKLOCKTIMEVERIFY := hlock.resolve_left hop
    rw [execOp_lock hlock, Achieves.uncounted_iff]
    refine Ends.mono (Ends.and (execCheckLockTime_verified ctx s)
      (execCheckLockTime_ends ctx OP_CHECKLOCKTIMEVERIFY s)) (fun s' hs' => ?_) fun _ _ => trivial
    exact ⟨hs'.1, hs'.2.1.pc⟩
  · exact (execOp_meets hlock s t).mono (fun s' t' hs' => ⟨hs'.1, hs'.2.1.keeps.pc⟩)
      fun _ _ _ => trivial

/-- So does a round. -/
theorem evalStep_refines {ctx : ScriptContext} (s : ScriptState) (t : EvalTally)
    (hnone : NoLockTest s.pc) :
    Achieves (evalStep ctx s) (fun s' _ => Spec.evalStep ctx s = some s' ∧ NoLockTest s'.pc)
      (fun _ _ => True) t := by
  refine evalStep_meets trivial fun opcode vch pc nOpCount hop hvch hcount hmany henabled => ?_
  have hrest : (ops s.pc).1 = (opcode, vch) :: (ops pc).1 := by rw [ops_of_getOp hop]
  have hopcode : opcode ≠ OP_CHECKLOCKTIME := hnone (opcode, vch) (by simp [hrest])
  have hnone' : NoLockTest pc := fun op hmem => hnone op (by simp [hrest, hmem])
  have hops : ¬ (OP_16 < opcode ∧ 201 < nOpCount) := fun h => by
    have := hmany h.1
    omega
  have hdone : ∀ {s' : ScriptState}, s'.pc = pc →
      (if ScriptState.fExec { s with pc, nOpCount } = true ∧ opcode ≤ OP_PUSHDATA4 then
        some (ScriptState.push { s with pc, nOpCount } vch)
      else if ScriptState.fExec { s with pc, nOpCount } = true ∨
          (OP_IF ≤ opcode ∧ opcode ≤ OP_ENDIF) then
        Spec.execOp ctx opcode { s with pc, nOpCount }
      else some { s with pc, nOpCount }) = some s' →
      (1000 < s'.stack.length + s'.altstack.length → True) ∧
        (s'.stack.length + s'.altstack.length ≤ 1000 →
          Spec.evalStep ctx s = some s' ∧ NoLockTest s'.pc) := by
    intro s' hpc hnext
    refine ⟨fun _ => trivial, fun hroom => ⟨?_, hpc ▸ hnone'⟩⟩
    simp only [Spec.evalStep, hop, if_neg (Nat.not_lt.mpr hvch), ← hcount, if_neg hops,
      if_neg henabled]
    rw [hnext]
    exact if_neg (Nat.not_lt.mpr hroom)
  unfold dispatch
  refine Achieves.ite (fun hpush => hdone rfl (if_pos hpush)) fun hpush =>
    Achieves.ite (fun hexec => ?_) fun hskip =>
      hdone rfl ((if_neg hpush).trans (if_neg hskip))
  rw [Achieves.bind_iff, Achieves.tick_iff]
  refine (execOp_refines hopcode { s with pc, nOpCount } _).mono (fun s' t' hs' => ?_)
    fun _ _ _ => trivial
  exact hdone hs'.2 ((if_neg hpush).trans ((if_pos hexec).trans hs'.1))

/-- A loop that succeeds ends as it does on lists. -/
theorem evalLoop_refines (ctx : ScriptContext) (fuel : ℕ) {s : ScriptState} (t : EvalTally)
    (hnone : NoLockTest s.pc) :
    Achieves (evalLoop ctx fuel s) (fun s' _ => Spec.evalLoop ctx fuel s = some s')
      (fun _ _ => True) t := by
  induction fuel generalizing s t with
  | zero =>
      unfold evalLoop Spec.evalLoop
      refine Achieves.ite (fun hnil => ?_) fun _ => trivial
      exact if_pos hnil
  | succ fuel ih =>
      unfold evalLoop
      refine Achieves.ite (fun hnil => ?_) fun hmore => ?_
      · rw [Spec.evalLoop]
        exact if_pos hnil
      · refine Achieves.bind (evalStep_refines s t hnone) fun s' t' hs' => ?_
        rw [Spec.evalLoop, if_neg hmore, hs'.1]
        exact ih t' hs'.2

/-- An evaluation that succeeds does so on lists, with the same stack. -/
theorem evalScript_refines (ctx : ScriptContext) (stack : List valtype) {script : CScript}
    (t : EvalTally) (hnone : NoLockTest script) :
    Achieves (EvalScript ctx stack script)
      (fun s _ => Spec.EvalScript ctx stack script = some s.stack) (fun _ _ => True) t := by
  unfold EvalScript
  refine Achieves.ite (fun _ => trivial) fun hlen => ?_
  refine Achieves.bind (evalLoop_refines ctx script.length t hnone) fun s t' hs => ?_
  refine Achieves.ite (fun hbranches => ?_) fun _ => trivial
  rw [Achieves.pure_iff, Spec.EvalScript, if_neg hlen, hs]
  exact if_pos hbranches

end Machine

/-! ### The script that is compared -/

section
variable {ctx : ScriptContext} {whichType : txnouttype} {sols stack out : List valtype}
  {scriptPubKey : CScript}

theorem ops_delayedBy {p : valtype} (hp : p.length ≤ 5) (script : CScript) :
    (ops (delayedBy p script)).1 =
      (p.length, p) :: (OP_CHECKLOCKTIMEVERIFY, []) :: (ops script).1 := by
  rw [ops_of_getOp (getOp_delayedBy hp script), ops_of_getOp (getOp_lockTimeCheck script)]

theorem ops_hashScript {opcode : ℕ} {hash : valtype} {push : CScript}
    (hinstr : Instruction opcode hash push) :
    (ops (hashScript push)).1 = [(OP_HASH160, []), (opcode, hash), (OP_EQUAL, [])] := by
  have hfirst : getOp (hashScript push) =
      some (OP_HASH160, [], push ++ [UInt8.ofNat OP_EQUAL]) :=
    (@Instruction.plain OP_HASH160 (by decide) (by decide)).getOp_append _
  rw [ops_of_getOp hfirst, ops_of_getOp (hinstr.getOp_append _)]
  rfl

/-- A script of the form of a script hash tests no lock time. -/
theorem noLockTest_of_scriptHash (hsolver : Solver scriptPubKey = some (whichType, sols))
    (hkind : whichType.undelayed = .TX_SCRIPTHASH) : Machine.NoLockTest scriptPubKey := by
  have hhash : ∀ {opcode : ℕ} {hash : valtype} {push : CScript}, Instruction opcode hash push →
      hash.length = 20 → Machine.NoLockTest (hashScript push) := by
    intro opcode hash push hinstr hlen op hop
    rw [ops_hashScript hinstr] at hop
    simp only [List.mem_cons, List.not_mem_nil, or_false] at hop
    rcases hop with rfl | rfl | rfl
    · decide
    · rintro rfl
      rw [(hinstr.data_eq_nil (by decide)).1] at hlen
      cases hlen
    · decide
  rcases undelayed_eq_scriptHash hkind with rfl | rfl
  · obtain ⟨opcode, hash, push, hinstr, hlen, rfl, -⟩ := solver_scriptHash_iff.mp hsolver
    exact hhash hinstr hlen
  · obtain ⟨p, opcode, hash, push, hp, hinstr, hlen, rfl, -⟩ :=
      solver_delayedScriptHash_iff.mp hsolver
    intro op hop
    rw [ops_delayedBy hp] at hop
    simp only [List.mem_cons] at hop
    rcases hop with rfl | rfl | hop
    · rintro h
      have hcheck : p.length = OP_CHECKLOCKTIME := h
      simp only [OP_CHECKLOCKTIME] at hcheck
      omega
    · decide
    · exact hhash hinstr hlen op hop

/-- A script hash that is satisfied was compared with the hash of the top element. -/
theorem redeem_compared (hsolver : Solver scriptPubKey = some (whichType, sols))
    (hkind : whichType.undelayed = .TX_SCRIPTHASH)
    (h : EvalScript ctx stack scriptPubKey = some out) (htop : topIsTrue out = true) :
    ∃ pubKeySerialized rest, stack = pubKeySerialized :: rest ∧
      sols.getLast? = some (ctx.crypto.Hash160 pubKeySerialized) := by
  obtain ⟨delays, fuel, pc, s, final, -, hmatch, hat, hruns, rfl⟩ :=
    evalScript_base hsolver (by rw [hkind]; decide) h
  rw [hkind] at hmatch
  obtain ⟨pc₁, fuel₁, s₁, s₂, hmatch₁, hat₁, hexec₁, h₁⟩ :=
    runs_plain (by decide) hmatch hat hruns
  rw [execOp_hash160, execHash, hat₁.stack] at hexec₁
  cases stack with
  | nil => cases hexec₁
  | cons pubKeySerialized rest =>
      injection hexec₁ with hexec₁
      have hat₂ : At s₂ pc₁ (ctx.crypto.Hash160 pubKeySerialized :: rest) := by
        subst hexec₁
        exact ⟨hat₁.pc, rfl, hat₁.vfExec⟩
      obtain ⟨opcode, hash, pc₂, found, fuel₂, hop, hfound, hmatch₂⟩ :=
        matchTemplate_cons (by decide) hmatch₁
      obtain ⟨hdata, rfl⟩ := matchTemplateOp_hash hfound
      obtain ⟨s₃, hat₃, h₃⟩ := runs_push hat₂ hop (opcode_le_of_data hop hdata) h₁
      obtain ⟨pc₄, fuel₄, s₄, s₅, hmatch₄, hat₄, hexec₄, h₄⟩ :=
        runs_plain (by decide) hmatch₂ hat₃ h₃
      obtain ⟨rfl, rfl⟩ := matchTemplate_nil hmatch₄
      rw [execOp_equal (.inl rfl), execNumeric, if_pos (.inl rfl), hat₄.stack] at hexec₄
      have hverify : (OP_EQUAL == OP_EQUALVERIFY) = false := by decide
      simp only [pushOrVerify, hverify, Bool.false_eq_true, if_false, Option.some.injEq]
        at hexec₄
      have hpc : s₅.pc = [] := by
        rw [← hexec₄]
        exact hat₄.pc
      rw [h₄.eq_of_end hpc, ← hexec₄] at htop
      refine ⟨pubKeySerialized, rest, rfl, ?_⟩
      rw [List.getLast?_concat]
      by_contra hne
      have hdiffer : (ctx.crypto.Hash160 pubKeySerialized == hash) = false := by
        rw [beq_eq_false_iff_ne]
        exact fun heq => hne (by rw [heq])
      rw [hdiffer] at htop
      cases htop

end

/-! ### The assertion -/

/-- The end of the script compares a hash with `hash`, behind a lock time check or at
once. -/
def ComparesHash (scriptPubKey : CScript) (hash : valtype) : Prop :=
  ∃ delay opcode, (delay = [] ∨ ∃ p : valtype,
      delay = [(p.length, p), (OP_CHECKLOCKTIMEVERIFY, [])]) ∧
    (ops scriptPubKey).1 = delay ++ [(OP_HASH160, []), (opcode, hash), (OP_EQUAL, [])]

theorem comparesHash_of_solver {whichType : txnouttype} {sols : List valtype}
    {scriptPubKey : CScript} (hsolver : Solver scriptPubKey = some (whichType, sols))
    (hkind : whichType.undelayed = .TX_SCRIPTHASH) {hash : valtype}
    (hlast : sols.getLast? = some hash) : ComparesHash scriptPubKey hash := by
  rcases undelayed_eq_scriptHash hkind with rfl | rfl
  · obtain ⟨opcode, hash', push, hinstr, -, rfl, rfl⟩ := solver_scriptHash_iff.mp hsolver
    obtain rfl : hash' = hash := Option.some.inj hlast
    exact ⟨[], opcode, .inl rfl, ops_hashScript hinstr⟩
  · obtain ⟨p, opcode, hash', push, hp, hinstr, -, rfl, rfl⟩ :=
      solver_delayedScriptHash_iff.mp hsolver
    obtain rfl : hash' = hash := Option.some.inj hlast
    refine ⟨_, opcode, .inr ⟨p, rfl⟩, ?_⟩
    rw [ops_delayedBy hp, ops_hashScript hinstr]
    rfl

theorem solver_of_isPayToScriptHash {scriptPubKey : CScript}
    (h : scriptPubKey.IsPayToScriptHash = true) :
    ∃ type sols, Solver scriptPubKey = some (type, sols) ∧ type.undelayed = .TX_SCRIPTHASH := by
  rcases isPayToScriptHash_iff.mp h with ⟨hash, hlen, rfl⟩ | ⟨sols, hsolver⟩
  · exact ⟨.TX_SCRIPTHASH, [hash],
      solver_scriptHash_iff.mpr ⟨20, hash, _, instruction_hash hlen, hlen, rfl, rfl⟩, rfl⟩
  · exact ⟨_, sols, hsolver, rfl⟩

namespace Machine

/-- The redeem script on top of the stack, whose hash the script has compared. -/
def TakesRedeem (ctx : ScriptContext) (scriptPubKey : CScript) (stackCopy : List valtype) :
    Prop :=
  ∃ pubKeySerialized rest, stackCopy = pubKeySerialized :: rest ∧
    ComparesHash scriptPubKey (ctx.crypto.Hash160 pubKeySerialized)

/-- A script hash that is satisfied has compared the hash of the top element. -/
theorem evalScript_takesRedeem {ctx : ScriptContext} {scriptPubKey : CScript}
    (hhash : scriptPubKey.IsPayToScriptHash = true) (stackCopy : List valtype) (t : EvalTally) :
    Achieves (EvalScript ctx stackCopy scriptPubKey)
      (fun s _ => topIsTrue s.stack = true → TakesRedeem ctx scriptPubKey stackCopy)
      (fun e _ => e ≠ .assertion) t := by
  obtain ⟨type, sols, hsolver, hkind⟩ := solver_of_isPayToScriptHash hhash
  have hnone := noLockTest_of_scriptHash hsolver hkind
  refine ((evalScript_refines ctx stackCopy t hnone).and
    (evalScript_noAssertion ctx stackCopy scriptPubKey t)).mono
    (fun s t' ⟨hold, _⟩ htop => ?_) fun e t' he => he.2
  obtain ⟨pubKeySerialized, rest, rfl, hlast⟩ := redeem_compared hsolver hkind hold htop
  exact ⟨pubKeySerialized, rest, rfl, comparesHash_of_solver hsolver hkind hlast⟩

theorem tryEvalScript_noAssertion (ctx : ScriptContext) (stack : List valtype)
    (script : CScript) (t : EvalTally) :
    Achieves (tryEvalScript ctx stack script) (fun _ _ => True) (fun e _ => e ≠ .assertion) t :=
  Achieves.attempt ((evalScript_noAssertion ctx stack script t).mono (fun _ _ _ => trivial)
    fun _ _ he => ⟨fun _ => trivial, fun _ => he⟩)

theorem verifyRedeem_noAssertion (ctx : ScriptContext) {stackCopy : List valtype}
    (hne : stackCopy ≠ []) (t : EvalTally) :
    Achieves (verifyRedeem ctx stackCopy) (fun _ _ => True) (fun e _ => e ≠ .assertion) t := by
  cases stackCopy with
  | nil => exact absurd rfl hne
  | cons pubKeySerialized stackCopy =>
      refine Achieves.bind (tryEvalScript_noAssertion ctx stackCopy pubKeySerialized t)
        fun r t' _ => ?_
      cases r <;> trivial

theorem verifyPubKey_noAssertion (ctx : ScriptContext) (scriptSig scriptPubKey : CScript)
    (stackCopy : List valtype) (t : EvalTally) :
    Achieves (verifyPubKey ctx scriptSig scriptPubKey stackCopy) (fun _ _ => True)
      (fun e _ => e ≠ .assertion) t := by
  have hredeem : Achieves (tryEvalScript ctx stackCopy scriptPubKey)
      (fun r _ => ∀ s ∈ r, scriptPubKey.IsPayToScriptHash = true → topIsTrue s.stack = true →
        stackCopy ≠ []) (fun e _ => e ≠ .assertion) t := by
    cases hhash : scriptPubKey.IsPayToScriptHash with
    | false =>
        exact (tryEvalScript_noAssertion ctx stackCopy scriptPubKey t).mono
          (fun _ _ _ _ _ h => nomatch h) fun _ _ he => he
    | true =>
        refine Achieves.attempt ((evalScript_takesRedeem hhash stackCopy t).mono
          (fun s t' h s' hs' _ htop => ?_)
          fun e _ he => ⟨fun _ s hs => absurd hs (by simp), fun _ => he⟩)
        obtain rfl := Option.some.inj hs'
        obtain ⟨pubKeySerialized, rest, rfl, -⟩ := h htop
        exact List.cons_ne_nil _ _
  refine Achieves.bind hredeem fun r t' h => ?_
  cases r with
  | none => trivial
  | some s =>
      refine Achieves.ite (fun _ => trivial) fun htop => Achieves.ite (fun hP2SH => ?_)
        fun _ => trivial
      refine Achieves.ite (fun _ => trivial) fun _ => ?_
      exact verifyRedeem_noAssertion ctx (h s rfl hP2SH.2 (by simpa using htop)) t'

/-- **The assertion of `VerifyScript` holds**, for whatever scripts, transaction and flags.
Where a script of the form of a script hash leaves true on the stack, the stack it started
on was not empty, and the element on its top, which is evaluated as the redeem script, is
the one whose hash was compared. -/
theorem verifyScript_redeem (ctx : ScriptContext) (scriptSig scriptPubKey : CScript) :
    (exec (VerifyScript ctx scriptSig scriptPubKey) {}).1 ≠ .error .assertion ∧
      (scriptPubKey.IsPayToScriptHash = true → ∀ (stackCopy : List valtype) (t : EvalTally),
        Achieves (EvalScript ctx stackCopy scriptPubKey)
          (fun s _ => topIsTrue s.stack = true → TakesRedeem ctx scriptPubKey stackCopy)
          (fun e _ => e ≠ .assertion) t) := by
  refine ⟨?_, fun hhash stackCopy t => evalScript_takesRedeem hhash stackCopy t⟩
  have hmeets : Achieves (VerifyScript ctx scriptSig scriptPubKey) (fun _ _ => True)
      (fun e _ => e ≠ .assertion) {} := by
    refine Achieves.bind (tryEvalScript_noAssertion ctx [] scriptSig {}) fun r t _ => ?_
    cases r with
    | none => trivial
    | some s => exact verifyPubKey_noAssertion ctx scriptSig scriptPubKey s.stack t
  unfold Achieves at hmeets
  generalize exec (VerifyScript ctx scriptSig scriptPubKey) {} = r at hmeets ⊢
  obtain ⟨e | b, t⟩ := r
  · exact fun h => hmeets (Except.error.inj h)
  · exact fun h => nomatch h

/-- The redeem script `OP_1` under a hash of zeros. -/
theorem verifyScript_redeem_zeros :
    TakesRedeem ⟨zeroCrypto, CTransaction.default, 0, SCRIPT_VERIFY_P2SH_STRICTENC⟩
      (hashScript (0x14 :: List.replicate 20 0)) [[0x51]] := by
  have h := (verifyScript_redeem
    ⟨zeroCrypto, CTransaction.default, 0, SCRIPT_VERIFY_P2SH_STRICTENC⟩ [0x01, 0x51]
    (hashScript (0x14 :: List.replicate 20 0))).2 (by decide) [[0x51]] {}
  exact h.of_exec rfl rfl

end Machine

end Ziftrcoin.Spec
