/-
Module: Ziftrcoin.Proofs.TemplateRuns
Purpose: How scripts of the standard templates run forward from a given stack, and
  that a signature which no instruction pushes leaves the script code as it is.
Trusted boundary: none
Main exports: RunsTo, runsTo_checkMultiSig
-/
import Ziftrcoin.Proofs.DelayedTemplates
import Ziftrcoin.Proofs.MultisigMatching

namespace Ziftrcoin.Spec

/-! ### Leading to a state -/

/-- The loop comes from `s` to `s'`, with enough rounds left for the rest. -/
def RunsTo (ctx : ScriptContext) (s s' : ScriptState) : Prop :=
  ∀ fuel, s.pc.length ≤ fuel →
    ∃ fuel', s'.pc.length ≤ fuel' ∧ evalLoop ctx fuel s = evalLoop ctx fuel' s'

section Leading

variable {ctx : ScriptContext} {s s' s'' : ScriptState}

theorem RunsTo.refl (ctx : ScriptContext) (s : ScriptState) : RunsTo ctx s s :=
  fun fuel hfuel => ⟨fuel, hfuel, rfl⟩

theorem RunsTo.trans (h : RunsTo ctx s s') (h' : RunsTo ctx s' s'') : RunsTo ctx s s'' := by
  intro fuel hfuel
  obtain ⟨fuel₁, hfuel₁, heq₁⟩ := h fuel hfuel
  obtain ⟨fuel₂, hfuel₂, heq₂⟩ := h' fuel₁ hfuel₁
  exact ⟨fuel₂, hfuel₂, heq₁.trans heq₂⟩

theorem runsTo_of_step (hstep : evalStep ctx s = some s') (hpc : s'.pc.length < s.pc.length) :
    RunsTo ctx s s' := by
  intro fuel hfuel
  cases fuel with
  | zero => omega
  | succ fuel =>
      have hmore : s.pc ≠ [] := List.ne_nil_of_length_pos (by omega)
      refine ⟨fuel, by omega, ?_⟩
      rw [evalLoop, if_neg hmore, hstep]

/-- The state of the loop in no branch, with nothing set aside. -/
def standing (pc code : CScript) (stack : List valtype) (nOpCount : ℕ) : ScriptState :=
  { pc, pbegincodehash := code, stack, altstack := [], vfExec := [], nOpCount }

theorem evalScript_of_runsTo {stack out : List valtype} {script code : CScript} {n : ℕ}
    (hlen : script.length ≤ 10000)
    (h : RunsTo ctx (standing script script stack 0) (standing [] code out n)) :
    EvalScript ctx stack script = some out := by
  obtain ⟨fuel', -, heq⟩ := h script.length le_rfl
  have hloop : evalLoop ctx script.length (evalStart stack script) =
      some (standing [] code out n) := by
    refine heq.trans ?_
    cases fuel' <;> rfl
  unfold EvalScript
  rw [if_neg (Nat.not_lt.mpr hlen), hloop]
  rfl

theorem evalScript_none_of_runsTo {stack : List valtype} {script : CScript}
    (h : RunsTo ctx (standing script script stack 0) s) (hmore : s.pc ≠ [])
    (hstep : evalStep ctx s = none) : EvalScript ctx stack script = none := by
  obtain ⟨fuel', -, heq⟩ := h script.length le_rfl
  have hloop : evalLoop ctx script.length (evalStart stack script) = none := by
    refine heq.trans ?_
    cases fuel' with
    | zero => rw [evalLoop, if_neg hmore]
    | succ fuel' => rw [evalLoop, if_neg hmore, hstep]
  unfold EvalScript
  rw [hloop]
  split_ifs <;> rfl

variable {pc rest code : CScript} {stack stack' : List valtype} {n n' opcode : ℕ}
  {vch : valtype}

theorem evalStep_push (hop : getOp pc = some (opcode, vch, rest)) (hpush : opcode ≤ OP_PUSHDATA4)
    (hvch : vch.length ≤ MAX_SCRIPT_ELEMENT_SIZE) (hroom : stack.length < 1000) :
    evalStep ctx (standing pc code stack n) = some (standing rest code (vch :: stack) n) := by
  have hcounted : ¬ OP_16 < opcode := by
    simp only [OP_16, OP_PUSHDATA4] at hpush ⊢
    omega
  have hdisabled : opcode ∉ disabledOpcodes := by
    have hall : ∀ op ∈ disabledOpcodes, OP_PUSHDATA4 < op := by decide
    exact fun hmem => absurd (hall opcode hmem) (Nat.not_lt.mpr hpush)
  have hsize : ¬ 1000 < (vch :: stack).length + ([] : List valtype).length := by
    simp only [List.length_cons, List.length_nil]
    omega
  have hexec : ∀ pc n, (standing pc code stack n).fExec = true := fun _ _ => rfl
  unfold evalStep
  simp only [standing, hop, if_neg (Nat.not_lt.mpr hvch), hcounted, false_and, if_false, hdisabled]
  rw [if_pos ⟨hexec rest n, hpush⟩, Option.bind_some, ScriptState.push, if_neg hsize]

theorem runsTo_push (hop : getOp pc = some (opcode, vch, rest)) (hpush : opcode ≤ OP_PUSHDATA4)
    (hvch : vch.length ≤ MAX_SCRIPT_ELEMENT_SIZE) (hroom : stack.length < 1000) :
    RunsTo ctx (standing pc code stack n) (standing rest code (vch :: stack) n) :=
  runsTo_of_step (evalStep_push hop hpush hvch hroom) (length_getOp hop)

/-- An instruction that is not a push is counted and executed. -/
theorem evalStep_op (hop : getOp pc = some (opcode, [], rest)) (hplain : OP_16 < opcode)
    (henabled : opcode ∉ disabledOpcodes) (hcount : n < 201) :
    evalStep ctx (standing pc code stack n) =
      (execOp ctx opcode (standing rest code stack (n + 1))).bind fun s =>
        if 1000 < s.stack.length + s.altstack.length then none else some s := by
  have hpush : ¬ opcode ≤ OP_PUSHDATA4 := by
    simp only [OP_16, OP_PUSHDATA4] at hplain ⊢
    omega
  have hempty : ¬ MAX_SCRIPT_ELEMENT_SIZE < ([] : valtype).length := by decide
  have hcounted : ¬ (OP_16 < opcode ∧ 201 < n + 1) := by omega
  have hexec : ∀ pc n, (standing pc code stack n).fExec = true := fun _ _ => rfl
  unfold evalStep
  simp only [standing, hop, hempty, if_false, if_pos hplain, hcounted, henabled]
  rw [if_neg fun h => hpush h.2, if_pos (.inl (hexec rest (n + 1)))]

theorem runsTo_op (hop : getOp pc = some (opcode, [], rest)) (hplain : OP_16 < opcode)
    (henabled : opcode ∉ disabledOpcodes) (hcount : n < 201)
    (hexec : execOp ctx opcode (standing rest code stack (n + 1)) =
      some (standing rest code stack' n')) (hroom : stack'.length ≤ 1000) :
    RunsTo ctx (standing pc code stack n) (standing rest code stack' n') := by
  refine runsTo_of_step ?_ (length_getOp hop)
  have hsize : ¬ 1000 < stack'.length + ([] : List valtype).length := by
    simp only [List.length_nil]
    omega
  rw [evalStep_op hop hplain henabled hcount, hexec, Option.bind_some, standing, if_neg hsize]

/-- A plain instruction of a template is its byte. -/
theorem getOp_byte {rest : CScript} (hplain : OP_PUSHDATA4 < opcode) (hbyte : opcode < 256) :
    getOp (UInt8.ofNat opcode :: rest) = some (opcode, [], rest) :=
  (@Instruction.plain opcode hplain hbyte).getOp_append rest

end Leading

/-! ### What a template pushes -/

/-- The push of a string that no instruction of the script pushes is not deleted
from it. -/
theorem findAndDelete_eq_self {vchSig : valtype} (hsig : vchSig.length < 2 ^ 32)
    {script : CScript} (h : ∀ op ∈ (ops script).1, op.2 ≠ vchSig) :
    script.FindAndDelete (pushData vchSig) = script := by
  have hloop : ∀ (fuel : ℕ) (pc : CScript), (∀ op ∈ (ops pc).1, op.2 ≠ vchSig) →
      findAndDelete (pushData vchSig) fuel pc = pc := by
    intro fuel
    induction fuel with
    | zero => exact fun pc _ => rfl
    | succ fuel ih =>
        intro pc hpc
        have hprefix : ¬ (pushData vchSig).isPrefixOf pc = true := by
          intro hprefix
          obtain ⟨tail, rfl⟩ := List.isPrefixOf_iff_prefix.mp hprefix
          obtain ⟨opcode, -, hop⟩ := getOp_pushData hsig tail
          rw [ops_of_getOp hop] at hpc
          exact hpc _ List.mem_cons_self rfl
        unfold findAndDelete
        rw [if_neg hprefix]
        cases hop : getOp pc with
        | none => rfl
        | some op =>
            obtain ⟨opcode, vch, rest⟩ := op
            rw [ops_of_getOp hop] at hpc
            obtain ⟨bytes, -, rfl⟩ := getOp_iff.mp hop
            dsimp only
            rw [ih rest fun op hmem => hpc op (List.mem_cons_of_mem _ hmem)]
            simp
  exact hloop _ script h

theorem ReadsKeys.data {pc next : CScript} {keys : List valtype} (h : ReadsKeys pc keys next) :
    ∀ op ∈ (ops pc).1, op.2 ∈ keys ∨ op ∈ (ops next).1 := by
  induction h with
  | nil pc => exact fun op hmem => .inr hmem
  | cons hop _ _ ih =>
      rw [ops_of_getOp hop]
      intro op hmem
      rcases List.mem_cons.mp hmem with rfl | hmem
      · exact .inl List.mem_cons_self
      · rcases ih op hmem with h | h
        · exact .inl (List.mem_cons_of_mem _ h)
        · exact .inr h

/-- What a matching script pushes is among its solutions. -/
theorem matchesTemplate_data {pc2 : List ℕ} {pc : CScript} {sols : List valtype}
    (h : MatchesTemplate pc2 pc sols) (hsmall : OP_SMALLDATA ∉ pc2) :
    ∀ op ∈ (ops pc).1, op.2 = [] ∨ op.2 ∈ sols := by
  induction h with
  | nil => exact fun op hmem => absurd hmem List.not_mem_nil
  | @cons opcode2 opcode pc2 pc rest vch found sols hkeys hop hfound more ih =>
      have hdata : vch = [] ∨ vch ∈ found := by
        have hne : opcode2 ≠ OP_SMALLDATA := fun heq => hsmall (heq ▸ List.mem_cons_self)
        simp only [matchTemplateOp, if_neg hne] at hfound
        split_ifs at hfound with hpub hsize hhash hlen hnumber hop' hscript hle hplain
        · exact .inr (Option.some.inj hfound ▸ List.mem_cons_self)
        · exact .inr (Option.some.inj hfound ▸ List.mem_cons_self)
        · exact .inl (number_data hop hop')
        · exact .inr (Option.some.inj hfound ▸ List.mem_cons_self)
        · exact .inl (by_contra fun hvch => hplain (.inr hvch))
      rw [ops_of_getOp hop]
      intro op hmem
      rcases List.mem_cons.mp hmem with rfl | hmem
      · exact hdata.imp_right fun hmem => List.mem_append_left _ hmem
      · exact (ih (fun hmem => hsmall (List.mem_cons_of_mem _ hmem)) op hmem).imp_right
          fun hmem => List.mem_append_right _ hmem
  | @keys opcode pc2 pc next rest vch keys sols hreads hop hnumber more ih =>
      intro op hmem
      rcases hreads.data op hmem with hkey | hmem
      · exact .inr (List.mem_append_left _ hkey)
      · rw [ops_of_getOp hop] at hmem
        rcases List.mem_cons.mp hmem with rfl | hmem
        · exact .inl (number_data hop hnumber)
        · have hmore : OP_SMALLDATA ∉ pc2 := fun h =>
            hsmall (List.mem_cons_of_mem _ (List.mem_cons_of_mem _ h))
          exact (ih hmore op hmem).imp_right fun hmem =>
            List.mem_append_right _ (List.mem_cons_of_mem _ hmem)

theorem Instruction.length_le {opcode : ℕ} {vch : valtype} {bytes : CScript}
    (h : Instruction opcode vch bytes) : bytes.length ≤ vch.length + 5 := by
  cases h with
  | plain _ _ => simp
  | direct _ =>
      rw [List.length_cons]
      omega
  | sized hop _ =>
      simp only [List.cons_append, List.length_cons, List.length_append, leBytes_length]
      rcases hop with ⟨_, rfl⟩ | ⟨_, rfl⟩ | ⟨_, rfl⟩ <;> omega

theorem length_of_getOp {pc rest : CScript} {opcode : ℕ} {vch : valtype}
    (h : getOp pc = some (opcode, vch, rest)) : pc.length ≤ vch.length + 5 + rest.length := by
  obtain ⟨bytes, hinstr, rfl⟩ := getOp_iff.mp h
  have hle := hinstr.length_le
  rw [List.length_append]
  omega

/-- The size of a list of strings with five bytes for each. -/
def pushedSize (items : List valtype) : ℕ := (items.map fun item => item.length + 5).sum

theorem pushedSize_append (items items' : List valtype) :
    pushedSize (items ++ items') = pushedSize items + pushedSize items' := by
  simp [pushedSize]

theorem ReadsKeys.length_le_size {pc next : CScript} {keys : List valtype}
    (h : ReadsKeys pc keys next) : pc.length ≤ pushedSize keys + next.length := by
  induction h with
  | nil pc => exact Nat.le_add_left _ _
  | cons hop _ _ ih =>
      have hlen := length_of_getOp hop
      simp only [pushedSize, List.map_cons, List.sum_cons] at ih ⊢
      omega

/-- A matching script is not much longer than its solutions. -/
theorem matchesTemplate_length {pc2 : List ℕ} {pc : CScript} {sols : List valtype}
    (h : MatchesTemplate pc2 pc sols) (hsmall : OP_SMALLDATA ∉ pc2) :
    pc.length ≤ pushedSize sols + 5 * pc2.length := by
  induction h with
  | nil => exact Nat.zero_le _
  | @cons opcode2 opcode pc2 pc rest vch found sols hkeys hop hfound more ih =>
      have hlen := length_of_getOp hop
      have hrest := ih fun hmem => hsmall (List.mem_cons_of_mem _ hmem)
      have hdata : vch.length ≤ pushedSize found := by
        have hne : opcode2 ≠ OP_SMALLDATA := fun heq => hsmall (heq ▸ List.mem_cons_self)
        have hone : vch.length ≤ pushedSize [vch] := by simp [pushedSize]
        simp only [matchTemplateOp, if_neg hne] at hfound
        split_ifs at hfound with hpub hsize hhash hlen hnumber hop' hscript hle hplain
        · exact Option.some.inj hfound ▸ hone
        · exact Option.some.inj hfound ▸ hone
        · rw [number_data hop hop']
          exact Nat.zero_le _
        · exact Option.some.inj hfound ▸ hone
        · rw [by_contra fun hvch => hplain (.inr hvch)]
          exact Nat.zero_le _
      rw [pushedSize_append, List.length_cons]
      omega
  | @keys opcode pc2 pc next rest vch keys sols hreads hop hnumber more ih =>
      have hlen := hreads.length_le_size
      have hnumberLen := length_of_getOp hop
      rw [number_data hop hnumber] at hnumberLen
      have hrest := ih fun h => hsmall (List.mem_cons_of_mem _ (List.mem_cons_of_mem _ h))
      have hsplit : pushedSize (keys ++ [UInt8.ofNat (DecodeOP_N opcode)] :: sols) =
          pushedSize keys + (6 + pushedSize sols) := by
        rw [pushedSize_append]
        simp [pushedSize]
      rw [hsplit, List.length_cons, List.length_cons]
      simp only [List.length_nil] at hnumberLen
      omega

/-! ### Runs of the templates -/

section Runs

variable {ctx : ScriptContext} {pc rest code script : CScript} {stack below : List valtype}
  {n : ℕ}

/-- The input passes the check of a lock time. -/
def LockPasses (ctx : ScriptContext) (d : ℤ) : Prop :=
  ∃ txin, ctx.txTo.vin[ctx.nIn]? = some txin ∧ txin.IsFinal = false ∧ 0 ≤ d ∧
    d ≤ ctx.txTo.nLockTime ∧
    (d < LOCKTIME_THRESHOLD ↔ (ctx.txTo.nLockTime : ℤ) < LOCKTIME_THRESHOLD)

theorem execCheckLockTime_passes {d : ℤ} {p : valtype} (hd : CScriptNum.ofVch p 5 = some d)
    (hpasses : LockPasses ctx d) :
    execCheckLockTime ctx OP_CHECKLOCKTIMEVERIFY (standing pc code (p :: stack) n) =
      some (standing pc code stack n) := by
  obtain ⟨txin, hin, hfinal, hpos, hle, hkind⟩ := hpasses
  have hnonneg : ¬ d < 0 := by omega
  have hsame : ¬ ((ctx.txTo.nLockTime : ℤ) < LOCKTIME_THRESHOLD ∧ LOCKTIME_THRESHOLD ≤ d ∨
      LOCKTIME_THRESHOLD ≤ (ctx.txTo.nLockTime : ℤ) ∧ d < LOCKTIME_THRESHOLD) := by omega
  unfold execCheckLockTime
  simp only [standing, hin, hd, Option.bind_some, if_neg hnonneg, if_neg hsame, pushOrVerify,
    beq_self_eq_true, if_true, hle, decide_true, hfinal, Bool.not_false, Bool.and_self]

theorem execCheckLockTime_fails {d : ℤ} {p : valtype} (hd : CScriptNum.ofVch p 5 = some d)
    (hfails : ¬ LockPasses ctx d) :
    execCheckLockTime ctx OP_CHECKLOCKTIMEVERIFY (standing pc code (p :: stack) n) = none := by
  cases hexec : execCheckLockTime ctx OP_CHECKLOCKTIMEVERIFY
    (standing pc code (p :: stack) n) with
  | none => rfl
  | some s' => exact absurd (execCheckLockTime_some hexec rfl hd) hfails

/-- The delay of a script is pushed. -/
theorem runsTo_delay_push {p : valtype} (hp : p.length ≤ 5) (hroom : stack.length < 1000) :
    RunsTo ctx (standing (delayedBy p script) code stack n)
      (standing (UInt8.ofNat OP_CHECKLOCKTIMEVERIFY :: script) code (p :: stack) n) := by
  refine runsTo_push (getOp_delayedBy hp script) ?_ ?_ hroom
  · simp only [OP_PUSHDATA4]
    omega
  · simp only [MAX_SCRIPT_ELEMENT_SIZE]
    omega

theorem runsTo_delay {d : ℤ} {p : valtype} (hp : p.length ≤ 5)
    (hd : CScriptNum.ofVch p 5 = some d) (hpasses : LockPasses ctx d)
    (hroom : stack.length < 1000) (hcount : n < 201) :
    RunsTo ctx (standing (delayedBy p script) code stack n)
      (standing script code stack (n + 1)) := by
  refine (runsTo_delay_push hp hroom).trans ?_
  refine runsTo_op (getOp_lockTimeCheck script) (by decide) (by decide) hcount ?_ hroom.le
  rw [execOp_checkLockTime]
  exact execCheckLockTime_passes hd hpasses

/-- An input that fails the check fails the script. -/
theorem evalScript_delay_fails {d : ℤ} {p : valtype} (hp : p.length ≤ 5)
    (hd : CScriptNum.ofVch p 5 = some d) (hfails : ¬ LockPasses ctx d)
    (hroom : stack.length < 1000) : EvalScript ctx stack (delayedBy p script) = none := by
  refine evalScript_none_of_runsTo (runsTo_delay_push hp hroom) (List.cons_ne_nil _ _) ?_
  rw [evalStep_op (getOp_lockTimeCheck script) (by decide) (by decide) (by decide),
    execOp_checkLockTime, execCheckLockTime_fails hd hfails, Option.bind_none]

/-- A signature check that succeeds. -/
theorem runsTo_checkSig {vchPubKey vchSig : valtype}
    (hok : signatureOk ctx vchSig vchPubKey (code.FindAndDelete (pushData vchSig)) = true)
    (hroom : below.length < 1000) (hcount : n < 201) :
    RunsTo ctx (standing [UInt8.ofNat OP_CHECKSIG] code (vchPubKey :: vchSig :: below) n)
      (standing [] code (vchTrue :: below) (n + 1)) := by
  refine runsTo_op (getOp_byte (by decide) (by decide)) (by decide) (by decide) hcount ?_ hroom
  have hverify : (OP_CHECKSIG == OP_CHECKSIGVERIFY) = false := by decide
  rw [execOp_checkSig]
  simp only [execCheckSig, standing, hok, hverify, pushOrVerify, Bool.false_eq_true, if_false,
    if_true, ScriptState.push]

theorem runsTo_pubKey {vchPubKey vchSig : valtype}
    (h : MatchesTemplate (baseTemplate .TX_PUBKEY) pc [vchPubKey])
    (hok : signatureOk ctx vchSig vchPubKey (code.FindAndDelete (pushData vchSig)) = true)
    (hroom : below.length < 998) (hcount : n < 201) :
    RunsTo ctx (standing pc code (vchSig :: below) n)
      (standing [] code (vchTrue :: below) (n + 1)) := by
  obtain ⟨opcode, vch, rest, found, more, hop, hfound, hmore, hsols⟩ :=
    (matchesTemplate_cons_iff (by decide)).mp h
  obtain ⟨rest', rfl, hend⟩ := (matchesTemplate_plain_iff (by decide)).mp hmore
  cases hend
  have hsize : 33 ≤ vch.length ∧ vch.length ≤ 65 := by
    simp only [matchTemplateOp, if_true, Option.ite_none_left_eq_some] at hfound
    omega
  obtain ⟨hdata, rfl⟩ := matchTemplateOp_pubKey hfound
  obtain rfl : vch = vchPubKey := by simpa using hsols.symm
  refine (runsTo_push hop (opcode_le_of_data hop hdata) ?_ ?_).trans
    (runsTo_checkSig hok (by omega) hcount)
  · simp only [MAX_SCRIPT_ELEMENT_SIZE]
    omega
  · simp only [List.length_cons]
    omega

/-- A byte string under its hash, against a pushed hash. -/
theorem runsTo_hash160 {vch : valtype} (hroom : stack.length < 1000) (hcount : n < 201) :
    RunsTo ctx (standing (UInt8.ofNat OP_HASH160 :: rest) code (vch :: stack) n)
      (standing rest code (ctx.crypto.Hash160 vch :: stack) (n + 1)) := by
  refine runsTo_op (getOp_byte (by decide) (by decide)) (by decide) (by decide) hcount ?_ ?_
  · rw [execOp_hash160]
    rfl
  · rw [List.length_cons]
    omega

theorem runsTo_pubKeyHash {vchPubKey vchSig : valtype}
    (h : MatchesTemplate (baseTemplate .TX_PUBKEYHASH) pc [ctx.crypto.Hash160 vchPubKey])
    (hok : signatureOk ctx vchSig vchPubKey (code.FindAndDelete (pushData vchSig)) = true)
    (hroom : below.length < 900) (hcount : n < 100) :
    RunsTo ctx (standing pc code (vchPubKey :: vchSig :: below) n)
      (standing [] code (vchTrue :: below) (n + 4)) := by
  obtain ⟨pc₁, rfl, h₁⟩ := (matchesTemplate_plain_iff (by decide)).mp h
  obtain ⟨pc₂, rfl, h₂⟩ := (matchesTemplate_plain_iff (by decide)).mp h₁
  obtain ⟨opcode, hash, bytes, pc₃, more, hinstr, hlen, rfl, h₃, hsols⟩ :=
    matchesTemplate_hash_iff.mp h₂
  obtain ⟨pc₄, rfl, h₄⟩ := (matchesTemplate_plain_iff (by decide)).mp h₃
  obtain ⟨pc₅, rfl, h₅⟩ := (matchesTemplate_plain_iff (by decide)).mp h₄
  cases h₅
  obtain rfl : ctx.crypto.Hash160 vchPubKey = hash := (List.cons.inj hsols).1
  have hop := hinstr.getOp_append
    (UInt8.ofNat OP_EQUALVERIFY :: UInt8.ofNat OP_CHECKSIG :: [])
  have hdata : ctx.crypto.Hash160 vchPubKey ≠ [] := List.ne_nil_of_length_pos (by omega)
  have hdup : RunsTo ctx
      (standing (UInt8.ofNat OP_DUP :: UInt8.ofNat OP_HASH160 :: (bytes ++ UInt8.ofNat
        OP_EQUALVERIFY :: [UInt8.ofNat OP_CHECKSIG])) code (vchPubKey :: vchSig :: below) n)
      (standing (UInt8.ofNat OP_HASH160 :: (bytes ++ UInt8.ofNat OP_EQUALVERIFY ::
        [UInt8.ofNat OP_CHECKSIG])) code (vchPubKey :: vchPubKey :: vchSig :: below) (n + 1)) := by
    refine runsTo_op (getOp_byte (by decide) (by decide)) (by decide) (by decide) (by omega) ?_ ?_
    · rw [execOp_stack (by decide)]
      rfl
    · simp only [List.length_cons]
      omega
  have hequal : RunsTo ctx
      (standing (UInt8.ofNat OP_EQUALVERIFY :: [UInt8.ofNat OP_CHECKSIG]) code
        (ctx.crypto.Hash160 vchPubKey :: ctx.crypto.Hash160 vchPubKey :: vchPubKey :: vchSig ::
          below) (n + 2))
      (standing [UInt8.ofNat OP_CHECKSIG] code (vchPubKey :: vchSig :: below) (n + 3)) := by
    refine runsTo_op (getOp_byte (by decide) (by decide)) (by decide) (by decide) (by omega) ?_ ?_
    · rw [execOp_equal (.inr rfl)]
      simp [execNumeric, standing, pushOrVerify]
    · simp only [List.length_cons]
      omega
  refine hdup.trans ((runsTo_hash160 ?_ (by omega)).trans ?_)
  · simp only [List.length_cons]
    omega
  refine (runsTo_push hop (opcode_le_of_data hop hdata) ?_ ?_).trans ?_
  · rw [hlen]
    decide
  · simp only [List.length_cons]
    omega
  exact hequal.trans (runsTo_checkSig hok (by omega) (by omega))

theorem runsTo_hashScript {opcode : ℕ} {hash push : valtype} {subscript : CScript}
    (hinstr : Instruction opcode hash push) (hlen : hash.length = 20)
    (hhash : ctx.crypto.Hash160 subscript = hash) (hroom : below.length < 900)
    (hcount : n < 100) :
    RunsTo ctx (standing (hashScript push) code (subscript :: below) n)
      (standing [] code (vchTrue :: below) (n + 2)) := by
  subst hhash
  have hop := hinstr.getOp_append [UInt8.ofNat OP_EQUAL]
  have hdata : ctx.crypto.Hash160 subscript ≠ [] := List.ne_nil_of_length_pos (by omega)
  refine (runsTo_hash160 (by omega) (by omega)).trans ?_
  refine (runsTo_push hop (opcode_le_of_data hop hdata) ?_ ?_).trans ?_
  · rw [hlen]
    decide
  · simp only [List.length_cons]
    omega
  refine runsTo_op (getOp_byte (by decide) (by decide)) (by decide) (by decide) (by omega) ?_ ?_
  · rw [execOp_equal (.inl rfl)]
    have hverify : (OP_EQUAL == OP_EQUALVERIFY) = false := by decide
    simp [execNumeric, standing, pushOrVerify, hverify, ScriptState.push]
  · simp only [List.length_cons]
    omega

/-! ### Multisig scripts -/

/-- A small number of a template. -/
theorem runsTo_number {opcode : ℕ} {vch : valtype} (hop : getOp pc = some (opcode, vch, rest))
    (hnumber : opcode = OP_0 ∨ OP_1 ≤ opcode ∧ opcode ≤ OP_16) (hroom : stack.length < 1000) :
    ∃ number, scriptNum number = some (DecodeOP_N opcode : ℤ) ∧
      RunsTo ctx (standing pc code stack n) (standing rest code (number :: stack) n) := by
  obtain rfl := number_data hop hnumber
  rcases hnumber with rfl | hsmall
  · exact ⟨[], rfl, runsTo_push hop (by decide) (by decide) hroom⟩
  · refine ⟨_, scriptNum_serialize hsmall, runsTo_of_step ?_ (length_getOp hop)⟩
    have hcounted : ¬ OP_16 < opcode := by omega
    have hpush : ¬ opcode ≤ OP_PUSHDATA4 := by
      simp only [OP_1, OP_PUSHDATA4] at hsmall ⊢
      omega
    have hdisabled : opcode ∉ disabledOpcodes := by
      have hall : ∀ op ∈ disabledOpcodes, OP_16 < op := by decide
      exact fun hmem => hcounted (hall opcode hmem)
    have hempty : ¬ MAX_SCRIPT_ELEMENT_SIZE < ([] : valtype).length := by decide
    have hexec : ∀ pc n, (standing pc code stack n).fExec = true := fun _ _ => rfl
    have hsize : ∀ number : valtype, ¬ 1000 < (number :: stack).length +
        ([] : List valtype).length := by
      intro number
      simp only [List.length_cons, List.length_nil]
      omega
    unfold evalStep
    simp only [standing, hop, hempty, hcounted, false_and, if_false, hdisabled]
    rw [if_neg fun h => hpush h.2, if_pos (.inl (hexec rest n)), execOp_number hsmall,
      Option.bind_some, ScriptState.push, if_neg (hsize _)]

theorem runsTo_keys {next : CScript} {keys : List valtype} (h : ReadsKeys pc keys next) :
    ∀ {stack : List valtype}, stack.length + keys.length < 1000 →
      RunsTo ctx (standing pc code stack n) (standing next code (keys.reverse ++ stack) n) := by
  induction h with
  | nil pc => exact fun _ => .refl _ _
  | @cons _ _ _ _ key _ hop size _ ih =>
      intro stack hroom
      rw [List.length_cons] at hroom
      have hdata : key ≠ [] := List.ne_nil_of_length_pos (by omega)
      have hfirst := @runsTo_push ctx _ _ code stack n _ _ hop (opcode_le_of_data hop hdata)
        (by simp only [MAX_SCRIPT_ELEMENT_SIZE]; omega) (by omega)
      refine hfirst.trans ?_
      rw [List.reverse_cons, List.append_assoc]
      exact ih (by rw [List.length_cons]; omega)

/-- A multisig script comes to its check with its numbers and keys on the stack. -/
theorem runsTo_multisig {m k : ℕ} {keys : List valtype} (h : MultisigScript pc m k keys)
    (hroom : stack.length + keys.length < 900) :
    ∃ number count, scriptNum number = some (k : ℤ) ∧ scriptNum count = some (m : ℤ) ∧
      RunsTo ctx (standing pc code stack n)
        (standing [UInt8.ofNat OP_CHECKMULTISIG] code (number :: (keys.reverse ++ count :: stack))
          n) := by
  obtain ⟨hmatch, hm, hk⟩ := h
  have hsmall : ∀ {opcode : ℕ}, (opcode = OP_0 ∨ OP_1 ≤ opcode ∧ opcode ≤ OP_16) →
      ∀ {j : ℕ}, j ≤ 16 → [UInt8.ofNat (DecodeOP_N opcode)] = [UInt8.ofNat j] →
        DecodeOP_N opcode = j := by
    intro opcode hop j hj heq
    have hnat := congrArg (fun bs : valtype => (bs.headD 0).toNat) heq
    simpa only [headD_byte (decodeOP_N_le hop), headD_byte hj] using hnat
  obtain ⟨opcode, vch, rest, found, more, hop, hfound, hkeys, hsols⟩ :=
    (matchesTemplate_cons_iff (by decide)).mp hmatch
  obtain ⟨hnumber, rfl⟩ := matchTemplateOp_smallInteger hfound
  cases hkeys with
  | cons hno _ _ _ => exact absurd rfl hno
  | @keys opcode' _ _ next rest' vch' keys' sols hreads hop' hnumber' hmore =>
      obtain ⟨last, rfl, hnil⟩ := (matchesTemplate_plain_iff (by decide)).mp hmore
      cases hnil
      rw [List.cons_append, List.singleton_append, List.cons.injEq] at hsols
      obtain ⟨hfirst, hsols⟩ := hsols
      obtain ⟨rfl, hlast⟩ := List.append_inj' hsols rfl
      have hmeq := hsmall hnumber hm hfirst.symm
      have hkeq := hsmall hnumber' hk (List.cons.inj hlast).1.symm
      obtain ⟨count, hcount, hrun₁⟩ :=
        @runsTo_number ctx _ _ code stack n _ _ hop hnumber (by omega)
      have hrun₂ := @runsTo_keys ctx _ code n _ _ hreads (count :: stack)
        (by rw [List.length_cons]; omega)
      obtain ⟨number, hnum, hrun₃⟩ := @runsTo_number ctx _ _ code
        (keys.reverse ++ count :: stack) n _ _ hop' hnumber' (by
          rw [List.length_append, List.length_reverse, List.length_cons]
          omega)
      rw [hmeq] at hcount
      rw [hkeq] at hnum
      exact ⟨number, count, hnum, hcount, hrun₁.trans (hrun₂.trans hrun₃)⟩

/-- A check of signatures against keys. -/
theorem runsTo_checkMultiSig {number count dummy : valtype} {keys sigs : List valtype}
    (hnumber : scriptNum number = some (keys.length : ℤ))
    (hcount : scriptNum count = some (sigs.length : ℤ)) (hkeys : keys.length ≤ 16)
    (hsigs : sigs.length ≤ keys.length) (hroom : below.length < 900) (hops : n < 100) :
    RunsTo ctx (standing [UInt8.ofNat OP_CHECKMULTISIG] code
        (number :: (keys ++ count :: (sigs ++ dummy :: below))) n)
      (standing [] code ((if multisigLoop ctx (Machine.scriptCodeWithout sigs code) sigs keys
        then vchTrue else vchFalse) :: below) (n + 1 + keys.length)) := by
  refine runsTo_op (getOp_byte (by decide) (by decide)) (by decide) (by decide) (by omega) ?_ ?_
  · have hverify : (OP_CHECKMULTISIG == OP_CHECKMULTISIGVERIFY) = false := by decide
    have hrun := Machine.execCheckMultiSig_segments ctx OP_CHECKMULTISIG
      (s := standing [] code (number :: (keys ++ count :: (sigs ++ dummy :: below))) (n + 1))
      rfl hnumber hcount hsigs (hkeys.trans (by decide)) (by simp only [standing]; omega)
    rw [execOp_checkMultiSig, hrun]
    simp only [standing, hverify, pushOrVerify, Bool.false_eq_true, if_false, ScriptState.push]
    rfl
  · simp only [List.length_cons]
    omega

theorem scriptCodeWithout_unchanged {sigs : List valtype}
    (h : ∀ vchSig ∈ sigs, code.FindAndDelete (pushData vchSig) = code) :
    Machine.scriptCodeWithout sigs code = code := by
  unfold Machine.scriptCodeWithout
  induction sigs with
  | nil => rfl
  | cons vchSig sigs ih =>
      rw [List.foldl_cons, h vchSig List.mem_cons_self]
      exact ih fun v hmem => h v (List.mem_cons_of_mem _ hmem)

/-- The check is for signatures of some of the keys, in the order of the keys. -/
theorem multisigLoop_reverse_iff {sigs keys : List valtype} :
    multisigLoop ctx code sigs.reverse keys.reverse = true ↔
      ∃ used, List.Forall₂ (fun sig key => signatureOk ctx sig key code = true) sigs used ∧
        used.Sublist keys := by
  rw [Machine.multisigLoop_eq_greedy, Lib.greedy_iff]
  refine List.sublistForall₂_iff.trans ⟨?_, ?_⟩
  · rintro ⟨used, hsigs, hused⟩
    refine ⟨used.reverse, ?_, List.reverse_sublist.mp ?_⟩
    · rw [← List.reverse_reverse sigs]
      exact List.rel_reverse hsigs
    · rwa [List.reverse_reverse]
  · rintro ⟨used, hsigs, hused⟩
    exact ⟨used.reverse, List.rel_reverse hsigs, List.reverse_sublist.mpr hused⟩

/-- A multisig script tests as many signatures as it asks for. -/
theorem runsTo_filledMultisig {m : ℕ} {keys sigs : List valtype}
    (hscript : MultisigScript pc m keys.length keys) (hlen : sigs.length = m)
    (hle : m ≤ keys.length)
    (hdelete : ∀ vchSig ∈ sigs, code.FindAndDelete (pushData vchSig) = code) (hn : n ≤ 2) :
    RunsTo ctx (standing pc code ([] :: sigs).reverse n)
      (standing [] code [if multisigLoop ctx code sigs.reverse keys.reverse then vchTrue
        else vchFalse] (n + 1 + keys.length)) := by
  have hm := hscript.2.1
  have hk := hscript.2.2
  obtain ⟨number, count, hnumber, hcount, hruns⟩ := @runsTo_multisig ctx pc code
    ([] :: sigs).reverse n m keys.length keys hscript (by
      rw [List.length_reverse, List.length_cons]
      omega)
  have hcheck := @runsTo_checkMultiSig ctx code [] n number count [] keys.reverse sigs.reverse
    (by rw [List.length_reverse]; exact hnumber) (by rw [List.length_reverse, hlen]; exact hcount)
    (by rw [List.length_reverse]; exact hk) (by simp only [List.length_reverse]; omega)
    (by decide) (by omega)
  rw [List.length_reverse, scriptCodeWithout_unchanged fun vchSig hmem =>
    hdelete vchSig (List.mem_reverse.mp hmem)] at hcheck
  rw [List.reverse_cons] at hruns ⊢
  exact hruns.trans hcheck

/-- A multisig script that finds as many signatures as it asks for, in the order of their
keys. -/
theorem runsTo_signedMultisig {m : ℕ} {keys sigs used : List valtype}
    (hscript : MultisigScript pc m keys.length keys) (hlen : sigs.length = m)
    (hsigs : List.Forall₂ (fun sig key => signatureOk ctx sig key code = true) sigs used)
    (hused : used.Sublist keys)
    (hdelete : ∀ vchSig ∈ sigs, code.FindAndDelete (pushData vchSig) = code) (hn : n ≤ 2) :
    RunsTo ctx (standing pc code ([] :: sigs).reverse n)
      (standing [] code [vchTrue] (n + 1 + keys.length)) := by
  have hle : m ≤ keys.length := by
    rw [← hlen, hsigs.length_eq]
    exact hused.length_le
  have hruns := @runsTo_filledMultisig ctx pc code n m keys sigs hscript hlen hle hdelete hn
  rwa [multisigLoop_reverse_iff.mpr ⟨used, hsigs, hused⟩, if_pos rfl] at hruns

end Runs

end Ziftrcoin.Spec
