/-
Module: Ziftrcoin.Proofs.Refusals
Purpose: How scripts of the standard templates run, and that none of them
  succeeds when every signature it is given is refused.
Trusted boundary: none
Main exports: Runs, refused_multisig
-/
import Ziftrcoin.Proofs.Templates
import Ziftrcoin.Proofs.LockTime
import Ziftrcoin.Spec.CreateTransaction

namespace Ziftrcoin.Spec

/-! ### Runs of the evaluation loop -/

/-- The loop comes from `s` to its end in `final`. -/
def Runs (ctx : ScriptContext) (s final : ScriptState) : Prop :=
  ∃ fuel, evalLoop ctx fuel s = some final

/-- The loop stands at `pc`, in no branch, with the given stack. -/
structure At (s : ScriptState) (pc : CScript) (stack : List valtype) : Prop where
  pc : s.pc = pc
  stack : s.stack = stack
  vfExec : s.vfExec = []

section
variable {ctx : ScriptContext} {s final : ScriptState} {pc rest : CScript}
  {stack : List valtype} {opcode : ℕ} {vch : valtype}

theorem Runs.eq_of_end (h : Runs ctx s final) (hpc : s.pc = []) : final = s := by
  obtain ⟨fuel, h⟩ := h
  cases fuel <;> simpa [evalLoop, hpc, eq_comm] using h

theorem Runs.next (h : Runs ctx s final) (hop : getOp s.pc = some (opcode, vch, rest)) :
    ∃ s', evalStep ctx s = some s' ∧ Runs ctx s' final := by
  have hmore : s.pc ≠ [] := by
    intro hpc
    rw [hpc] at hop
    cases hop
  obtain ⟨fuel, h⟩ := h
  cases fuel with
  | zero => simp [evalLoop, hmore] at h
  | succ fuel =>
      rw [evalLoop, if_neg hmore] at h
      cases hstep : evalStep ctx s with
      | none => simp [hstep] at h
      | some s' =>
          rw [hstep] at h
          exact ⟨s', rfl, fuel, h⟩

/-- A round of the loop outside of branches. -/
theorem evalStep_inv {s' : ScriptState} (hs : s.vfExec = [])
    (hop : getOp s.pc = some (opcode, vch, rest)) (h : evalStep ctx s = some s') :
    ∃ nOpCount, (if opcode ≤ OP_PUSHDATA4 then
        some ({ s with pc := rest, nOpCount }.push vch)
      else execOp ctx opcode { s with pc := rest, nOpCount }) = some s' := by
  have hexec : ∀ nOpCount, ScriptState.fExec { s with pc := rest, nOpCount } = true := by
    intro nOpCount
    simp [ScriptState.fExec, hs]
  unfold evalStep at h
  simp only [hop, Option.ite_none_left_eq_some, hexec, true_and, true_or, if_true,
    Option.bind_eq_some_iff] at h
  obtain ⟨_, _, _, s₂, hs₂, _, hs'⟩ := h
  rw [← Option.some.inj hs']
  exact ⟨_, hs₂⟩

theorem runs_push (hat : At s pc stack) (hop : getOp pc = some (opcode, vch, rest))
    (hpush : opcode ≤ OP_PUSHDATA4) (h : Runs ctx s final) :
    ∃ s', At s' rest (vch :: stack) ∧ Runs ctx s' final := by
  obtain ⟨rfl, rfl, hexec⟩ := hat
  obtain ⟨s', hstep, hrest⟩ := h.next hop
  obtain ⟨nOpCount, hs'⟩ := evalStep_inv hexec hop hstep
  rw [if_pos hpush, Option.some.injEq] at hs'
  subst hs'
  refine ⟨_, ?_, hrest⟩
  exact ⟨rfl, rfl, hexec⟩

theorem runs_op (hat : At s pc stack) (hop : getOp pc = some (opcode, vch, rest))
    (hpush : OP_PUSHDATA4 < opcode) (h : Runs ctx s final) :
    ∃ s₀ s', At s₀ rest stack ∧ execOp ctx opcode s₀ = some s' ∧ Runs ctx s' final := by
  obtain ⟨rfl, rfl, hexec⟩ := hat
  obtain ⟨s', hstep, hrest⟩ := h.next hop
  obtain ⟨nOpCount, hs'⟩ := evalStep_inv hexec hop hstep
  rw [if_neg (Nat.not_le.mpr hpush)] at hs'
  refine ⟨_, s', ?_, hs', hrest⟩
  exact ⟨rfl, rfl, hexec⟩

/-- An evaluation starts at its script. -/
theorem evalScript_runs {out : List valtype} {script : CScript}
    (h : EvalScript ctx stack script = some out) :
    script.length ≤ 10000 ∧ ∃ start final, At start script stack ∧ Runs ctx start final ∧
      out = final.stack := by
  unfold EvalScript at h
  split at h
  · cases h
  · next hlen =>
      cases hloop : evalLoop ctx script.length (evalStart stack script) with
      | none => simp [hloop] at h
      | some final =>
          simp only [hloop] at h
          split at h
          · exact ⟨by omega, _, final, ⟨rfl, rfl, rfl⟩, ⟨_, hloop⟩,
              (Option.some.inj h).symm⟩
          · cases h

/-! ### The instructions of the templates -/

/-- `OP_1` to `OP_16`. -/
theorem execOp_number (hn : OP_1 ≤ opcode ∧ opcode ≤ OP_16) :
    execOp ctx opcode s =
      some (s.push (CScriptNum.serialize ((opcode : ℤ) - ((OP_1 : ℤ) - 1)))) := by
  unfold execOp
  rw [if_pos (.inr hn)]

theorem execOp_stack (hn : OP_TOALTSTACK ≤ opcode ∧ opcode ≤ OP_SIZE) :
    execOp ctx opcode s = execStack opcode s := by
  have h := hn
  simp only [OP_TOALTSTACK, OP_SIZE] at h
  unfold execOp
  rw [if_neg, if_neg, if_neg, if_neg, if_neg, if_pos hn] <;>
    simp only [OP_1NEGATE, OP_1, OP_16, OP_NOP, OP_NOP1, OP_NOP10, OP_IF, OP_ENDIF,
      OP_VERIFY, OP_RETURN] <;> omega

theorem execOp_equal {opcode : ℕ} (hop : opcode = OP_EQUAL ∨ opcode = OP_EQUALVERIFY) :
    execOp ctx opcode s = execNumeric opcode s := by
  rcases hop with rfl | rfl <;>
    simp [execOp, OP_EQUAL, OP_EQUALVERIFY, OP_1NEGATE, OP_1, OP_16, OP_NOP, OP_NOP1,
      OP_NOP10, OP_IF, OP_ENDIF, OP_VERIFY, OP_RETURN, OP_TOALTSTACK, OP_SIZE, OP_WITHIN]

theorem execOp_hash160 : execOp ctx OP_HASH160 s = execHash ctx.crypto OP_HASH160 s := by
  simp [execOp, OP_HASH160, OP_1NEGATE, OP_1, OP_16, OP_NOP, OP_NOP1, OP_NOP10, OP_IF,
    OP_ENDIF, OP_VERIFY, OP_RETURN, OP_TOALTSTACK, OP_SIZE, OP_EQUAL, OP_WITHIN,
    OP_RIPEMD160, OP_HASH256]

theorem execOp_checkSig : execOp ctx OP_CHECKSIG s = execCheckSig ctx OP_CHECKSIG s := by
  simp [execOp, OP_CHECKSIG, OP_1NEGATE, OP_1, OP_16, OP_NOP, OP_NOP1, OP_NOP10, OP_IF,
    OP_ENDIF, OP_VERIFY, OP_RETURN, OP_TOALTSTACK, OP_SIZE, OP_EQUAL, OP_WITHIN,
    OP_RIPEMD160, OP_HASH256, OP_CODESEPARATOR]

theorem execOp_checkMultiSig :
    execOp ctx OP_CHECKMULTISIG s = execCheckMultiSig ctx OP_CHECKMULTISIG s := by
  simp [execOp, OP_CHECKMULTISIG, OP_1NEGATE, OP_1, OP_16, OP_NOP, OP_NOP1, OP_NOP10,
    OP_IF, OP_ENDIF, OP_VERIFY, OP_RETURN, OP_TOALTSTACK, OP_SIZE, OP_EQUAL, OP_WITHIN,
    OP_RIPEMD160, OP_HASH256, OP_CODESEPARATOR, OP_CHECKSIG, OP_CHECKSIGVERIFY]

/-- A plain instruction of a template that the script comes to. -/
theorem runs_plain {fuel : ℕ} {opcode2 : ℕ} {pc2 : List ℕ} {vSolutions out : List valtype}
    (hplain : OP_PUSHDATA4 < opcode2 ∧ opcode2 ≤ OP_CHECKLOCKTIMEVERIFY)
    (hmatch : matchTemplate fuel pc (opcode2 :: pc2) vSolutions = some out)
    (hat : At s pc stack) (h : Runs ctx s final) :
    ∃ rest fuel' s₀ s', matchTemplate fuel' rest pc2 vSolutions = some out ∧
      At s₀ rest stack ∧ execOp ctx opcode2 s₀ = some s' ∧ Runs ctx s' final := by
  have hkeys : opcode2 ≠ OP_PUBKEYS := by
    rintro rfl
    exact absurd hplain.2 (by decide)
  obtain ⟨opcode, vch, rest, found, fuel', hop, hfound, hmore⟩ :=
    matchTemplate_cons hkeys hmatch
  obtain ⟨rfl, rfl⟩ := matchTemplateOp_plain hplain.2 hfound
  rw [List.append_nil] at hmore
  obtain ⟨s₀, s', hat₀, hexec, hrest⟩ := runs_op hat hop hplain.1 h
  exact ⟨rest, fuel', s₀, s', hmore, hat₀, hexec, hrest⟩

/-- A lock time check takes the lock time from the stack. -/
theorem runs_delay {fuel : ℕ} {pc2 : List ℕ} {vSolutions out : List valtype}
    (hmatch : matchTemplate fuel pc
      (OP_SCRIPTNUMBER :: OP_CHECKLOCKTIMEVERIFY :: pc2) vSolutions = some out)
    (hat : At s pc stack) (h : Runs ctx s final) :
    ∃ delay rest fuel' s', matchTemplate fuel' rest pc2 (vSolutions ++ [delay]) = some out ∧
      At s' rest stack ∧ Runs ctx s' final := by
  obtain ⟨opcode, delay, rest, found, fuel₁, hop, hfound, hmatch₁⟩ :=
    matchTemplate_cons (by decide) hmatch
  obtain ⟨hpush, rfl⟩ := matchTemplateOp_scriptNumber hfound
  obtain ⟨s₁, hat₁, h₁⟩ := runs_push hat hop hpush h
  obtain ⟨rest₂, fuel₂, s₀, s', hmatch₂, hat₀, hexec, h₂⟩ :=
    runs_plain (by decide) hmatch₁ hat₁ h₁
  refine ⟨delay, rest₂, fuel₂, s', hmatch₂, ?_, h₂⟩
  rw [execOp_checkLockTime, execCheckLockTime, hat₀.stack] at hexec
  cases hin : ctx.txTo.vin[ctx.nIn]? with
  | none => simp [hin] at hexec
  | some txin =>
      simp only [hin, Option.bind_eq_some_iff, Option.ite_none_left_eq_some, pushOrVerify,
        beq_self_eq_true, if_true, Option.ite_none_right_eq_some, Option.some.injEq] at hexec
      obtain ⟨_, _, _, _, _, rfl⟩ := hexec
      exact ⟨hat₀.pc, rfl, hat₀.vfExec⟩

/-! ### Scripts whose signatures are refused -/

theorem scriptNum_serialize (h : OP_1 ≤ opcode ∧ opcode ≤ OP_16) :
    scriptNum (CScriptNum.serialize ((opcode : ℤ) - ((OP_1 : ℤ) - 1))) =
      some (DecodeOP_N opcode : ℤ) := by
  have hread : ∀ n < OP_16 + 1, OP_1 ≤ n →
      scriptNum (CScriptNum.serialize ((n : ℤ) - ((OP_1 : ℤ) - 1))) =
        some (DecodeOP_N n : ℤ) := by decide
  exact hread opcode (by omega) h.1

/-- The script that pushes the given strings. -/
def pushAll (items : List valtype) : CScript := (items.map pushData).flatten

end

/-! ### What the key store's solver pushes -/

section
variable {crypto : Crypto} {keystore : CKeyStore} {hash : uint256}
  {scriptSig scriptSigRet : CScript}

theorem pushAll_append (items items' : List valtype) :
    pushAll (items ++ items') = pushAll items ++ pushAll items' := by
  simp [pushAll]

theorem pushAll_singleton (item : valtype) : pushAll [item] = pushData item := by
  simp [pushAll]

/-- A solved script matches a template. -/
theorem solver_ok {scriptPubKey : CScript} {whichType : txnouttype}
    {vSolutions : List valtype} (h : Solver scriptPubKey = some (whichType, vSolutions)) :
    ∃ tplate fuel, (whichType, tplate) ∈ mTemplates ∧
      matchTemplate fuel scriptPubKey tplate [] = some vSolutions ∧
      (whichType.undelayed = .TX_MULTISIG → multisigOk whichType vSolutions = true) := by
  have hscan : ∀ templates, solverScan scriptPubKey templates = some (whichType, vSolutions) →
      ∃ tplate fuel, (whichType, tplate) ∈ templates ∧
        matchTemplate fuel scriptPubKey tplate [] = some vSolutions ∧
        (whichType.undelayed = .TX_MULTISIG → multisigOk whichType vSolutions = true) := by
    intro templates
    induction templates with
    | nil => exact fun h => nomatch h
    | cons template templates ih =>
        obtain ⟨type, tplate⟩ := template
        intro h
        rw [solverScan] at h
        cases hmatch : matchTemplate (scriptPubKey.length + tplate.length + 1) scriptPubKey
            tplate [] with
        | none =>
            rw [hmatch] at h
            obtain ⟨tplate', fuel, hmem, hrest⟩ := ih h
            exact ⟨tplate', fuel, List.mem_cons_of_mem _ hmem, hrest⟩
        | some found =>
            rw [hmatch] at h
            simp only [Option.ite_none_left_eq_some, Option.some.injEq, Prod.mk.injEq] at h
            obtain ⟨hok, rfl, rfl⟩ := h
            refine ⟨tplate, _, List.mem_cons_self, hmatch, fun hmulti => ?_⟩
            simpa [hmulti] using hok
  exact hscan mTemplates h

variable {whichType : txnouttype} {vSolutions : List valtype}

/-- The template of a type without the delay in front. -/
def baseTemplate : txnouttype → List ℕ
  | .TX_PUBKEY => [OP_PUBKEY, OP_CHECKSIG]
  | .TX_PUBKEYHASH => [OP_DUP, OP_HASH160, OP_HASH160HASH, OP_EQUALVERIFY, OP_CHECKSIG]
  | .TX_SCRIPTHASH => [OP_HASH160, OP_HASH160HASH, OP_EQUAL]
  | .TX_MULTISIG => [OP_SMALLINTEGER, OP_PUBKEYS, OP_SMALLINTEGER, OP_CHECKMULTISIG]
  | _ => []

theorem mTemplates_base : ∀ template ∈ mTemplates,
    template.1.undelayed ≠ .TX_NULL_DATA →
      template.2 = (if template.1.isDelayed then [OP_SCRIPTNUMBER, OP_CHECKLOCKTIMEVERIFY]
        else []) ++ baseTemplate template.1.undelayed := by
  decide

/-- The evaluation of a solved script comes to its template without the
delay. -/
theorem evalScript_base {ctx : ScriptContext} {scriptPubKey : CScript}
    {stack out : List valtype} (hsolver : Solver scriptPubKey = some (whichType, vSolutions))
    (hkind : whichType.undelayed ≠ .TX_NULL_DATA)
    (h : EvalScript ctx stack scriptPubKey = some out) :
    ∃ delays fuel pc s final, delays.length = (if whichType.isDelayed then 1 else 0) ∧
      matchTemplate fuel pc (baseTemplate whichType.undelayed) delays = some vSolutions ∧
      At s pc stack ∧ Runs ctx s final ∧ out = final.stack := by
  obtain ⟨_, start, final, hat, hruns, hout⟩ := evalScript_runs h
  obtain ⟨tplate, fuel, hmem, hmatch, _⟩ := solver_ok hsolver
  have htplate : tplate = (if whichType.isDelayed then
      [OP_SCRIPTNUMBER, OP_CHECKLOCKTIMEVERIFY] else []) ++ baseTemplate whichType.undelayed :=
    mTemplates_base _ hmem hkind
  rw [htplate] at hmatch
  by_cases hdelayed : whichType.isDelayed = true
  · rw [if_pos hdelayed] at hmatch ⊢
    obtain ⟨delay, pc, fuel', s, hmatch', hat', hruns'⟩ := runs_delay hmatch hat hruns
    exact ⟨[delay], fuel', pc, s, final, rfl, hmatch', hat', hruns', hout⟩
  · rw [if_neg hdelayed] at hmatch ⊢
    exact ⟨[], fuel, scriptPubKey, start, final, rfl, hmatch, hat, hruns, hout⟩

end

end Ziftrcoin.Spec
