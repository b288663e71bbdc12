/-
Module: Ziftrcoin.Proofs.SigOpBound
Purpose: The signature operations counted in a script, and in the redeem script that a
  signature script pushes last, bound the signatures that an evaluation checks.
Trusted boundary: none
Main exports: Budget, checkSig_calls_le
-/
import Ziftrcoin.Proofs.ScriptSafety

namespace Ziftrcoin.Spec.Machine

open Ziftrcoin.Lib Ziftrcoin.Lib.Tallied

/-! ### One script -/

/-- Signature operations of the instruction `opcode` behind `lastOpcode`. -/
def sigOps (lastOpcode opcode : ℕ) : ℕ :=
  if opcode = OP_CHECKSIG ∨ opcode = OP_CHECKSIGVERIFY then 1
  else if opcode = OP_CHECKMULTISIG ∨ opcode = OP_CHECKMULTISIGVERIFY then
    if OP_1 ≤ lastOpcode ∧ lastOpcode ≤ OP_16 then DecodeOP_N lastOpcode else 20
  else 0

theorem sigOpsFrom_cons (lastOpcode opcode : ℕ) (vch : valtype) (rest : List (ℕ × valtype)) :
    sigOpsFrom lastOpcode ((opcode, vch) :: rest) =
      sigOps lastOpcode opcode + sigOpsFrom opcode rest := rfl

/-- The instruction before the next one was `lastOpcode`: a small number that was
executed is on top of the stack. -/
def ShowsLast (lastOpcode : ℕ) (s : ScriptState) : Prop :=
  OP_1 ≤ lastOpcode ∧ lastOpcode ≤ OP_16 → s.fExec = true →
    ∃ rest, s.stack = CScriptNum.serialize ((lastOpcode : ℤ) - ((OP_1 : ℤ) - 1)) :: rest

/-- The checks so far and the operations still counted stay within the total. -/
def Budget (total : ℕ) (s : ScriptState) (t : EvalTally) : Prop :=
  ∃ lastOpcode, t.checks + sigOpsFrom lastOpcode (ops s.pc).1 ≤ total ∧ ShowsLast lastOpcode s

/-- A small number on the stack is the number of keys it was written for. -/
theorem keysAsked_small {n : ℕ} (hn : n ≤ 16) (rest : List valtype) :
    keysAsked (CScriptNum.serialize (n : ℤ) :: rest) = n := by
  have hread : ∀ n : ℕ, n ≤ 16 → CScriptNum.ofVch (CScriptNum.serialize (n : ℤ)) 4 =
      some (n : ℤ) := by decide
  rw [keysAsked, hread n hn]
  simp only
  rw [getint_of_le (by omega), Int.toNat_natCast]

/-- What an instruction may check is counted for it. -/
theorem checksOf_le_sigOps {lastOpcode opcode : ℕ} {s : ScriptState}
    (hlast : ShowsLast lastOpcode s) (hexec : s.fExec = true) :
    checksOf opcode s.stack ≤ sigOps lastOpcode opcode := by
  unfold checksOf sigOps
  by_cases hsig : opcode = OP_CHECKSIG ∨ opcode = OP_CHECKSIGVERIFY
  · rw [if_pos hsig, if_pos hsig]
  rw [if_neg hsig, if_neg hsig]
  by_cases hmulti : opcode = OP_CHECKMULTISIG ∨ opcode = OP_CHECKMULTISIGVERIFY
  swap
  · rw [if_neg hmulti, if_neg hmulti]
  rw [if_pos hmulti, if_pos hmulti]
  by_cases hsmall : OP_1 ≤ lastOpcode ∧ lastOpcode ≤ OP_16
  swap
  · rw [if_neg hsmall]
    exact Nat.min_le_left _ _
  obtain ⟨rest, hstack⟩ := hlast hsmall hexec
  have hdecode : DecodeOP_N lastOpcode = lastOpcode - 80 := by
    have hnotZero : lastOpcode ≠ OP_0 := by
      simp only [OP_1] at hsmall
      simp only [OP_0]
      omega
    exact if_neg hnotZero
  have hnumber : (lastOpcode : ℤ) - ((OP_1 : ℤ) - 1) = ((lastOpcode - 80 : ℕ) : ℤ) := by
    simp only [OP_1, OP_16] at hsmall ⊢
    omega
  rw [if_pos hsmall, hdecode, hstack, hnumber, keysAsked_small]
  · exact Nat.min_le_right _ _
  · simp only [OP_1, OP_16] at hsmall
    omega

/-- A small number is pushed. -/
theorem execOp_small {ctx : ScriptContext} {opcode : ℕ} (h : OP_1 ≤ opcode ∧ opcode ≤ OP_16)
    (s : ScriptState) :
    execOp ctx opcode s =
      return s.push (CScriptNum.serialize ((opcode : ℤ) - ((OP_1 : ℤ) - 1))) :=
  if_pos (.inr h)

/-- A round stays within the budget. -/
theorem evalStep_budget {ctx : ScriptContext} {total : ℕ} (s : ScriptState) (t : EvalTally)
    (h : Budget total s t) :
    Achieves (evalStep ctx s) (fun s' t' => Budget total s' t' ∧ s'.pc.length < s.pc.length)
      (fun _ t' => t'.checks ≤ total) t := by
  obtain ⟨lastOpcode, htotal, hlast⟩ := h
  refine evalStep_meets (by omega) fun opcode vch pc nOpCount hop _ _ _ _ => ?_
  have hlen := length_getOp hop
  have hrest : (ops s.pc).1 = (opcode, vch) :: (ops pc).1 := by rw [ops_of_getOp hop]
  rw [hrest, sigOpsFrom_cons] at htotal
  -- the instruction costs what is counted for it, and shows itself to the next one
  have hdone : ∀ {s' : ScriptState} {t' : EvalTally}, s'.pc = pc →
      t'.checks ≤ t.checks + sigOps lastOpcode opcode → ShowsLast opcode s' →
      (1000 < s'.stack.length + s'.altstack.length → t'.checks ≤ total) ∧
        (s'.stack.length + s'.altstack.length ≤ 1000 →
          Budget total s' t' ∧ s'.pc.length < s.pc.length) := by
    intro s' t' hpc hchecks hshows
    refine ⟨fun _ => by omega, fun _ => ⟨⟨opcode, ?_, hshows⟩, hpc ▸ hlen⟩⟩
    rw [hpc]
    omega
  unfold dispatch
  refine Achieves.ite (fun hpush => ?_) fun hpush => Achieves.ite (fun hexec => ?_) fun hskip => ?_
  · refine hdone rfl (Nat.le_add_right _ _) fun hsmall => ?_
    have hpush' := hpush.2
    simp only [OP_1, OP_PUSHDATA4] at hsmall hpush'
    omega
  · rw [Achieves.bind_iff, Achieves.tick_iff]
    by_cases hsmall : OP_1 ≤ opcode ∧ opcode ≤ OP_16
    · rw [execOp_small hsmall]
      exact hdone rfl (Nat.le_add_right _ _) fun _ _ => ⟨_, rfl⟩
    have hcosts : ∀ {t' : EvalTally}, OpCosts opcode { s with pc, nOpCount }
        { t with executed := t.executed + if OP_16 < opcode then 1 else 0 } t' →
        t'.checks ≤ t.checks + sigOps lastOpcode opcode := by
      intro t' hcost
      refine hcost.checks.trans (Nat.add_le_add_left ?_ _)
      rcases hexec with hexec | hbranch
      · have hlast' : ShowsLast lastOpcode { s with pc, nOpCount } := hlast
        exact checksOf_le_sigOps hlast' hexec
      · have hnone : checksOf opcode s.stack = 0 := by
          simp only [OP_IF, OP_ENDIF] at hbranch
          unfold checksOf
          rw [if_neg, if_neg]
          · simp only [OP_CHECKMULTISIG, OP_CHECKMULTISIGVERIFY]
            omega
          · simp only [OP_CHECKSIG, OP_CHECKSIGVERIFY]
            omega
        exact hnone.le.trans (Nat.zero_le _)
    refine (execOp_ends opcode { s with pc, nOpCount } _).mono ?_ ?_
    · rintro s' t' ⟨hs', hcost, -⟩
      exact hdone hs'.keeps.pc (hcosts hcost) fun h => absurd h hsmall
    · rintro e t' ⟨hcost, -⟩
      have := hcosts hcost
      omega
  · refine hdone rfl (Nat.le_add_right _ _) fun _ hexec => ?_
    exact absurd (.inl hexec) hskip

/-- The checks of an evaluation are counted in its script. -/
theorem evalScript_checks (ctx : ScriptContext) (stack : List valtype) (script : CScript)
    (t : EvalTally) :
    Achieves (EvalScript ctx stack script)
      (fun _ t' => t'.checks ≤ t.checks + script.GetSigOpCount)
      (fun _ t' => t'.checks ≤ t.checks + script.GetSigOpCount) t := by
  have hstart : Budget (t.checks + script.GetSigOpCount) (evalStart stack script) t := by
    refine ⟨OP_INVALIDOPCODE, le_rfl, fun h => ?_⟩
    exact absurd h (by decide)
  unfold EvalScript
  refine Achieves.ite (fun _ => Nat.le_add_right _ _) fun _ => ?_
  refine Achieves.bind (evalLoop_meets (I := Budget (t.checks + script.GetSigOpCount))
    (fun s t h _ => evalStep_budget s t h) le_rfl hstart) ?_
  rintro s t' ⟨⟨_, htotal, -⟩, -⟩
  exact Achieves.ite (fun _ => (Nat.le_add_right _ _).trans htotal) fun _ =>
    (Nat.le_add_right _ _).trans htotal

/-! ### Pushes -/

/-- The signature operations of the redeem script that a signature script pushes last. -/
def lastPushSigOps (scriptSig : CScript) : ℕ :=
  match (ops scriptSig).1.getLast? with
  | none => CScript.GetSigOpCount []
  | some (_, data) => CScript.GetSigOpCount data

/-- A script of pushes: the last one is still to come, or it is on top of the stack with
no more signature operations than its data. -/
structure Pushing (scriptSig : CScript) (s : ScriptState) : Prop where
  vfExec : s.vfExec = []
  pushes : ∀ op ∈ (ops s.pc).1, op.1 ≤ OP_16
  next : (ops s.pc).1 ≠ [] → (ops s.pc).1.getLast? = (ops scriptSig).1.getLast?
  last : (ops s.pc).1 = [] → ∀ top rest, s.stack = top :: rest →
    CScript.GetSigOpCount top ≤ lastPushSigOps scriptSig

/-- A number that an instruction pushes holds no signature operations. -/
theorem sigOpCount_number {opcode : ℕ} (hop : OP_PUSHDATA4 < opcode) (h16 : opcode ≤ OP_16) :
    CScript.GetSigOpCount (CScriptNum.serialize ((opcode : ℤ) - ((OP_1 : ℤ) - 1))) = 0 := by
  have hall : ∀ n < 18, CScript.GetSigOpCount
      (CScriptNum.serialize (((OP_1NEGATE + n : ℕ) : ℤ) - ((OP_1 : ℤ) - 1))) = 0 := by decide
  have h := hall (opcode - OP_1NEGATE) (by simp only [OP_16, OP_1NEGATE] at h16 ⊢; omega)
  rwa [Nat.add_sub_cancel' (by simp only [OP_PUSHDATA4, OP_1NEGATE] at hop ⊢; omega)] at h

/-- The opcodes up to `OP_16` that are no pushes of bytes. -/
theorem execOp_number {ctx : ScriptContext} {opcode : ℕ} (hop : OP_PUSHDATA4 < opcode)
    (h16 : opcode ≤ OP_16) (s : ScriptState) :
    execOp ctx opcode s = halt .returnFalse ∨ execOp ctx opcode s =
      return s.push (CScriptNum.serialize ((opcode : ℤ) - ((OP_1 : ℤ) - 1))) := by
  by_cases hreserved : opcode = 0x50
  · subst hreserved
    exact .inl rfl
  · refine .inr (if_pos ?_)
    simp only [OP_PUSHDATA4, OP_16, OP_1NEGATE, OP_1] at hop h16 ⊢
    omega

/-- A round of pushes. -/
theorem evalStep_pushing {ctx : ScriptContext} {scriptSig : CScript} (s : ScriptState)
    (t : EvalTally) (h : Pushing scriptSig s) :
    Achieves (evalStep ctx s)
      (fun s' _ => Pushing scriptSig s' ∧ s'.pc.length < s.pc.length) (fun _ _ => True) t := by
  refine evalStep_meets trivial fun opcode vch pc nOpCount hop _ _ _ _ => ?_
  have hlen := length_getOp hop
  have hrest : (ops s.pc).1 = (opcode, vch) :: (ops pc).1 := by rw [ops_of_getOp hop]
  have h16 : opcode ≤ OP_16 := h.pushes (opcode, vch) (by simp [hrest])
  have hexec : ScriptState.fExec { s with pc, nOpCount } = true := by
    simp [ScriptState.fExec, h.vfExec]
  -- what the instruction pushes counts no more than its data
  have hpushed : ∀ value, CScript.GetSigOpCount value ≤ CScript.GetSigOpCount vch →
      Pushing scriptSig (ScriptState.push { s with pc, nOpCount } value) := by
    intro value hvalue
    have hnext := h.next (by simp [hrest])
    rw [hrest] at hnext
    refine ⟨h.vfExec, fun op hop => h.pushes op ?_, fun hmore => ?_, fun hnil => ?_⟩
    · rw [hrest]
      exact List.mem_cons_of_mem _ hop
    · exact (List.getLast?_cons_of_ne_nil hmore).symm.trans hnext
    · rintro top rest hstack
      injection hstack with htop _
      have hnil' : (ops pc).1 = [] := hnil
      rw [hnil'] at hnext
      rw [← htop, lastPushSigOps, ← hnext]
      exact hvalue
  have hgoal : ∀ value, CScript.GetSigOpCount value ≤ CScript.GetSigOpCount vch →
      ∀ t' : EvalTally, Achieves (pure (ScriptState.push { s with pc, nOpCount } value))
        (fun s' (_ : EvalTally) => (1000 < s'.stack.length + s'.altstack.length → True) ∧
          (s'.stack.length + s'.altstack.length ≤ 1000 →
            Pushing scriptSig s' ∧ s'.pc.length < s.pc.length)) (fun (_ : Halt) _ => True) t' :=
    fun value hvalue t' => ⟨fun _ => trivial, fun _ => ⟨hpushed value hvalue, hlen⟩⟩
  unfold dispatch
  refine Achieves.ite (fun _ => hgoal vch le_rfl t) fun hpush =>
    Achieves.ite (fun _ => ?_) fun hskip => absurd (.inl hexec) hskip
  rw [Achieves.bind_iff, Achieves.tick_iff]
  have hnumber : OP_PUSHDATA4 < opcode := Nat.lt_of_not_le fun hle => hpush ⟨hexec, hle⟩
  rcases @execOp_number ctx _ hnumber h16 { s with pc, nOpCount } with hhalt | hvalue
  · rw [hhalt]
    trivial
  · rw [hvalue]
    exact hgoal _ ((sigOpCount_number hnumber h16).le.trans (Nat.zero_le _)) _

/-- A signature script of pushes leaves its last push on top of the stack. -/
theorem evalScript_pushes (ctx : ScriptContext) {scriptSig : CScript}
    (hpush : scriptSig.IsPushOnly = true) (t : EvalTally) :
    Achieves (EvalScript ctx [] scriptSig)
      (fun s _ => ∀ top rest, s.stack = top :: rest →
        CScript.GetSigOpCount top ≤ lastPushSigOps scriptSig) (fun _ _ => True) t := by
  simp only [CScript.IsPushOnly, Bool.and_eq_true, List.all_eq_true, decide_eq_true_eq] at hpush
  have hstart : Pushing scriptSig (evalStart [] scriptSig) :=
    ⟨rfl, hpush.2, fun _ => rfl, fun _ _ _ h => nomatch h⟩
  unfold EvalScript
  refine Achieves.ite (fun _ => trivial) fun _ => ?_
  refine Achieves.bind (evalLoop_meets (I := fun s _ => Pushing scriptSig s)
    (fun s t h _ => evalStep_pushing s t h) le_rfl hstart) ?_
  rintro s t' ⟨h, hend⟩
  have hnil : (ops s.pc).1 = [] := by rw [hend, ops_nil]
  exact Achieves.ite (fun _ => h.last hnil) fun _ => trivial

/-! ### Both scripts and the redeem script -/

/-- The counted signature operations of an input with pay-to-script-hash. -/
def totalSigOps (scriptSig scriptPubKey : CScript) : ℕ :=
  scriptSig.GetSigOpCount + scriptPubKey.GetSigOpCount +
    (if scriptPubKey.IsPayToScriptHash then scriptPubKey.GetP2SHSigOpCount scriptSig else 0)

theorem tryEvalScript_checks (ctx : ScriptContext) (stack : List valtype) (script : CScript)
    (t : EvalTally) :
    Achieves (tryEvalScript ctx stack script)
      (fun _ t' => t'.checks ≤ t.checks + script.GetSigOpCount)
      (fun _ t' => t'.checks ≤ t.checks + script.GetSigOpCount) t := by
  refine Achieves.attempt ((evalScript_checks ctx stack script t).mono (fun _ _ h => h) ?_)
  exact fun e t' h => ⟨fun _ => h, fun _ => h⟩

theorem tryEvalScript_pushes (ctx : ScriptContext) {scriptSig : CScript}
    (hpush : scriptSig.IsPushOnly = true) (t : EvalTally) :
    Achieves (tryEvalScript ctx [] scriptSig)
      (fun r _ => ∀ s ∈ r, ∀ top rest, s.stack = top :: rest →
        CScript.GetSigOpCount top ≤ lastPushSigOps scriptSig) (fun _ _ => True) t := by
  refine Achieves.attempt ((evalScript_pushes ctx hpush t).mono (fun s _ h s' hs' => ?_) ?_)
  · injection hs' with hs'
    exact hs' ▸ h
  · exact fun e t' _ => ⟨fun _ s hs => absurd hs (by simp), fun _ => trivial⟩

/-- Behind a signature script of pushes, its last push is the redeem script to count. -/
theorem GetP2SHSigOpCount_of_pushes {scriptSig scriptPubKey : CScript}
    (hhash : scriptPubKey.IsPayToScriptHash = true) (hpush : scriptSig.IsPushOnly = true) :
    scriptPubKey.GetP2SHSigOpCount scriptSig = lastPushSigOps scriptSig := by
  simp only [CScript.IsPushOnly, Bool.and_eq_true, List.all_eq_true, decide_eq_true_eq] at hpush
  have hall : ¬ ((ops scriptSig).2 = false ∨
      (ops scriptSig).1.any (fun op => decide (OP_16 < op.1)) = true) := by
    simp only [hpush.1, List.any_eq_true, decide_eq_true_eq, not_or, not_exists, not_and,
      not_lt]
    exact ⟨by decide, fun op hop => hpush.2 op hop⟩
  rw [CScript.GetP2SHSigOpCount, if_neg (by simp [hhash]), if_neg hall]
  rfl

/-- The redeem script has no more checks than are counted for it. -/
theorem verifyRedeem_checks (ctx : ScriptContext) {stackCopy : List valtype} {n : ℕ}
    (hredeem : ∀ top rest, stackCopy = top :: rest → CScript.GetSigOpCount top ≤ n)
    (t : EvalTally) :
    Achieves (verifyRedeem ctx stackCopy) (fun _ t' => t'.checks ≤ t.checks + n)
      (fun _ t' => t'.checks ≤ t.checks + n) t := by
  cases stackCopy with
  | nil => exact Nat.le_add_right _ _
  | cons pubKeySerialized stackCopy =>
      have hle := Nat.add_le_add_left (hredeem _ _ rfl) t.checks
      refine Achieves.bind ((tryEvalScript_checks ctx stackCopy pubKeySerialized t).mono
        (fun _ _ h => h) fun _ _ h => h.trans hle) fun r t' h => ?_
      cases r with
      | none => exact h.trans hle
      | some s => exact h.trans hle

/-- `VerifyScript` behind the evaluation of the signature script. -/
theorem verifyPubKey_checks (ctx : ScriptContext) {scriptSig scriptPubKey : CScript}
    {stackCopy : List valtype} (hredeem : scriptSig.IsPushOnly = true →
      ∀ top rest, stackCopy = top :: rest →
        CScript.GetSigOpCount top ≤ lastPushSigOps scriptSig)
    {t : EvalTally} (ht : t.checks ≤ scriptSig.GetSigOpCount) :
    Achieves (verifyPubKey ctx scriptSig scriptPubKey stackCopy)
      (fun _ t' => t'.checks ≤ totalSigOps scriptSig scriptPubKey)
      (fun _ t' => t'.checks ≤ totalSigOps scriptSig scriptPubKey) t := by
  have htotal : t.checks + scriptPubKey.GetSigOpCount ≤ totalSigOps scriptSig scriptPubKey := by
    unfold totalSigOps
    omega
  refine Achieves.bind ((tryEvalScript_checks ctx stackCopy scriptPubKey t).mono
    (fun _ _ h => h) fun _ _ h => h.trans htotal) fun r t' h => ?_
  cases r with
  | none => exact h.trans htotal
  | some s =>
      refine Achieves.ite (fun _ => h.trans htotal) fun _ =>
        Achieves.ite (fun hP2SH => ?_) fun _ => h.trans htotal
      refine Achieves.ite (fun _ => h.trans htotal) fun hpush => ?_
      have hpush' : scriptSig.IsPushOnly = true := by simpa using hpush
      have hsum : t'.checks + lastPushSigOps scriptSig ≤
          totalSigOps scriptSig scriptPubKey := by
        rw [totalSigOps, if_pos hP2SH.2, GetP2SHSigOpCount_of_pushes hP2SH.2 hpush']
        omega
      exact (verifyRedeem_checks ctx (hredeem hpush') t').mono (fun _ _ h => h.trans hsum)
        fun _ _ h => h.trans hsum

theorem verifyScript_meets (ctx : ScriptContext) (scriptSig scriptPubKey : CScript) :
    Achieves (VerifyScript ctx scriptSig scriptPubKey)
      (fun _ t => t.checks ≤ totalSigOps scriptSig scriptPubKey)
      (fun _ t => t.checks ≤ totalSigOps scriptSig scriptPubKey) {} := by
  have hle : ∀ {t : EvalTally}, t.checks ≤ (0 : ℕ) + scriptSig.GetSigOpCount →
      t.checks ≤ totalSigOps scriptSig scriptPubKey := by
    intro t h
    unfold totalSigOps
    omega
  have hsig := tryEvalScript_checks ctx [] scriptSig {}
  have hredeem : Achieves (tryEvalScript ctx [] scriptSig)
      (fun r _ => scriptSig.IsPushOnly = true → ∀ s ∈ r, ∀ top rest, s.stack = top :: rest →
        CScript.GetSigOpCount top ≤ lastPushSigOps scriptSig) (fun _ _ => True) {} := by
    cases hpush : scriptSig.IsPushOnly with
    | false => exact hsig.mono (fun _ _ _ h => nomatch h) fun _ _ _ => trivial
    | true =>
        exact (tryEvalScript_pushes ctx hpush {}).mono (fun _ _ h _ => h) fun _ _ _ => trivial
  refine Achieves.bind ((hsig.and hredeem).mono (fun _ _ h => h) fun _ _ h => hle h.1)
    fun r t h => ?_
  cases r with
  | none => exact hle h.1
  | some s =>
      have hchecks : t.checks ≤ scriptSig.GetSigOpCount := by simpa using h.1
      exact verifyPubKey_checks ctx (fun hpush => h.2 hpush s rfl) hchecks

/-- **Counted signature operations bound the signatures that are checked.**  A script has
at most as many checks as it counts, whatever the stack; an input with
pay-to-script-hash at most as many as its two scripts and its redeem script count. -/
theorem checkSig_calls_le :
    (∀ (ctx : ScriptContext) (stack : List valtype) (script : CScript),
      (exec (EvalScript ctx stack script) {}).2.checks ≤ script.GetSigOpCount) ∧
    ∀ (ctx : ScriptContext) (scriptSig scriptPubKey : CScript),
      (exec (VerifyScript ctx scriptSig scriptPubKey) {}).2.checks ≤
        scriptSig.GetSigOpCount + scriptPubKey.GetSigOpCount +
          (if scriptPubKey.IsPayToScriptHash then scriptPubKey.GetP2SHSigOpCount scriptSig
            else 0) := by
  refine ⟨fun ctx stack script => ?_, fun ctx scriptSig scriptPubKey => ?_⟩
  · have h := evalScript_checks ctx stack script {}
    unfold Achieves at h
    generalize exec (EvalScript ctx stack script) {} = r at h ⊢
    obtain ⟨e | s, t⟩ := r <;> simpa using h
  · have h := verifyScript_meets ctx scriptSig scriptPubKey
    unfold Achieves at h
    generalize exec (VerifyScript ctx scriptSig scriptPubKey) {} = r at h ⊢
    obtain ⟨e | s, t⟩ := r <;> exact h

end Ziftrcoin.Spec.Machine
