/-
Module: Ziftrcoin.Proofs.LockTimeInput
Purpose: When an evaluation reads an input that its transaction does not have: where
  signatures are combined, at a lock time instruction with the operand zero.
Trusted boundary: none
Main exports: Goes, EvalScript_vinOutOfRange_iff
-/
import Ziftrcoin.Proofs.ScriptSafety

namespace Ziftrcoin.Spec.Machine

open Ziftrcoin.Lib Ziftrcoin.Lib.Tallied

/-! ### Rounds that are reached -/

/-- One round that succeeds, on what was evaluated and counted so far. -/
def Goes (ctx : ScriptContext) (x y : ScriptState × EvalTally) : Prop :=
  x.1.pc ≠ [] ∧ exec (evalStep ctx x.1) x.2 = (.ok y.1, y.2)

/-- A round that is reached stops with `e`. -/
def StopsLater (ctx : ScriptContext) (x : ScriptState × EvalTally) (e : Halt) : Prop :=
  ∃ y, Relation.ReflTransGen (Goes ctx) x y ∧ y.1.pc ≠ [] ∧
    (exec (evalStep ctx y.1) y.2).1 = .error e

theorem not_stopsLater_of_nil {ctx : ScriptContext} {s : ScriptState} (hnil : s.pc = [])
    (t : EvalTally) (e : Halt) : ¬ StopsLater ctx (s, t) e := by
  rintro ⟨y, hy, hmore, -⟩
  rcases hy.cases_head with rfl | ⟨_, hgo, -⟩
  · exact hmore hnil
  · exact hgo.1 hnil

/-- The loop stops with `e` exactly where a round does that it reaches. -/
theorem evalLoop_error_iff {ctx : ScriptContext} {e : Halt} {fuel : ℕ} {s : ScriptState}
    {t : EvalTally} (hfuel : s.pc.length ≤ fuel) :
    (exec (evalLoop ctx fuel s) t).1 = .error e ↔ StopsLater ctx (s, t) e := by
  induction fuel generalizing s t with
  | zero =>
      have hnil : s.pc = [] := List.length_eq_zero_iff.mp (by omega)
      refine iff_of_false (fun h => ?_) (not_stopsLater_of_nil hnil t e)
      simp [evalLoop, hnil] at h
  | succ fuel ih =>
      by_cases hnil : s.pc = []
      · refine iff_of_false (fun h => ?_) (not_stopsLater_of_nil hnil t e)
        simp [evalLoop, hnil] at h
      have hloop : evalLoop ctx (fuel + 1) s = evalStep ctx s >>= evalLoop ctx fuel := by
        rw [evalLoop, if_neg hnil]
      have hshorter : ∀ {s' t'}, exec (evalStep ctx s) t = (.ok s', t') →
          s'.pc.length ≤ fuel := by
        intro s' t' hs'
        have hreads := @evalStep_reads ctx s t
        unfold Achieves at hreads
        rw [hs'] at hreads
        have hlt : s'.pc.length < s.pc.length := hreads
        omega
      rw [hloop, exec_bind_eq_error]
      constructor
      · rintro (h | ⟨s', t', hs', h⟩)
        · exact ⟨(s, t), .refl, hnil, h⟩
        · obtain ⟨y, hy, hstop⟩ := (ih (hshorter hs')).mp h
          exact ⟨y, hy.head ⟨hnil, hs'⟩, hstop⟩
      · rintro ⟨y, hy, hstop⟩
        rcases hy.cases_head with rfl | ⟨⟨s', t'⟩, hgo, hrest⟩
        · exact .inl hstop.2
        · exact .inr ⟨s', t', hgo.2, (ih (hshorter hgo.2)).mpr ⟨y, hrest, hstop⟩⟩

/-! ### The round that reads the input -/

/-- The next instruction is executed and reads the input. -/
def WantsInput (ctx : ScriptContext) (s : ScriptState) : Prop :=
  ∃ opcode pc, getOp s.pc = some (opcode, [], pc) ∧ isLockTime opcode ∧ s.fExec = true ∧
    s.nOpCount < 201 ∧ ReadsInput ctx s.stack

theorem isLockTime.op_16_lt {opcode : ℕ} (h : isLockTime opcode) : OP_16 < opcode := by
  rcases h with rfl | rfl <;> decide

/-- A lock time instruction is reached within the limits and in no skipped branch. -/
theorem evalStep_lockTime {ctx : ScriptContext} {s : ScriptState} {opcode : ℕ} {pc : CScript}
    (t : EvalTally) (hop : getOp s.pc = some (opcode, [], pc)) (hlock : isLockTime opcode)
    (hexec : s.fExec = true) (hops : s.nOpCount < 201) :
    exec (evalStep ctx s) t =
      exec (execOp ctx opcode { s with pc, nOpCount := s.nOpCount + 1 } >>= fun s =>
        if 1000 < s.stack.length + s.altstack.length then halt .returnFalse else return s)
        { t with executed := t.executed + 1 } := by
  have h16 := hlock.op_16_lt
  have hpush : ¬ opcode ≤ OP_PUSHDATA4 := by
    simp only [OP_16, OP_PUSHDATA4] at h16 ⊢
    omega
  have henabled : opcode ∉ disabledOpcodes := by
    rcases hlock with rfl | rfl <;> decide
  have hexec' : ScriptState.fExec { s with pc, nOpCount := s.nOpCount + 1 } = true := hexec
  have hmany : ¬ (201 < s.nOpCount + 1) := by omega
  simp only [evalStep, hop, List.length_nil, Nat.not_lt_zero, if_false, if_pos h16, hmany,
    and_false, if_neg henabled, dispatch, hexec', hpush, true_or, if_true]
  rfl

theorem ne_vinOutOfRange_of_quiet {e : Halt} (h : e.Quiet) : e ≠ .vinOutOfRange := by
  rcases h with rfl | rfl <;> exact Halt.noConfusion

/-- A round reads an input that is not there exactly where it wants one. -/
theorem evalStep_vinOutOfRange_iff {ctx : ScriptContext} (s : ScriptState) (t : EvalTally) :
    (exec (evalStep ctx s) t).1 = .error .vinOutOfRange ↔
      WantsInput ctx s ∧ ctx.txTo.vin.length ≤ ctx.nIn := by
  constructor
  · intro h
    have hmeets : Achieves (evalStep ctx s) (fun _ _ => True)
        (fun e _ => e = .vinOutOfRange → WantsInput ctx s ∧ ctx.txTo.vin.length ≤ ctx.nIn) t := by
      refine evalStep_meets Halt.noConfusion fun opcode vch pc nOpCount hop _ hcount hmany _ =>
        ?_
      have hcut : ∀ {s' : ScriptState},
          (1000 < s'.stack.length + s'.altstack.length → Halt.returnFalse = .vinOutOfRange →
            WantsInput ctx s ∧ ctx.txTo.vin.length ≤ ctx.nIn) ∧
          (s'.stack.length + s'.altstack.length ≤ 1000 → True) :=
        ⟨fun _ h => Halt.noConfusion h, fun _ => trivial⟩
      unfold dispatch
      refine Achieves.ite (fun _ => hcut) fun _ => Achieves.ite (fun hexec => ?_) fun _ => hcut
      rw [Achieves.bind_iff, Achieves.tick_iff]
      refine (execOp_ends opcode { s with pc, nOpCount } _).mono (fun _ _ _ => hcut) ?_
      rintro e t' ⟨-, ⟨hquiet, -⟩ | ⟨-, hlock, hreads, hvin⟩⟩ he
      · exact absurd he (ne_vinOutOfRange_of_quiet hquiet)
      · have h16 := hlock.op_16_lt
        have hpush : OP_PUSHDATA4 < opcode := by
          simp only [OP_16, OP_PUSHDATA4] at h16 ⊢
          omega
        have hnil : vch = [] := by
          obtain ⟨bytes, hinstr, -⟩ := getOp_iff.mp hop
          exact (hinstr.data_eq_nil hpush).1
        have hno : ¬ (OP_IF ≤ opcode ∧ opcode ≤ OP_ENDIF) := by
          rcases hlock with rfl | rfl <;> decide
        subst hnil
        refine ⟨⟨opcode, pc, hop, hlock, hexec.resolve_right hno, ?_, hreads⟩, hvin⟩
        have hle := hmany h16
        rw [hcount, if_pos h16] at hle
        omega
    unfold Achieves at hmeets
    generalize exec (evalStep ctx s) t = r at h hmeets
    obtain ⟨e | s', t'⟩ := r
    · exact hmeets (Except.error.inj h)
    · cases h
  · rintro ⟨⟨opcode, pc, hop, hlock, hexec, hops, hreads⟩, hvin⟩
    rw [evalStep_lockTime t hop hlock hexec hops, exec_bind_eq_error]
    refine .inl ?_
    rw [execOp_lock hlock, exec_uncounted]
    have hends := execCheckLockTime_ends ctx opcode { s with pc, nOpCount := s.nOpCount + 1 }
    generalize execCheckLockTime ctx opcode { s with pc, nOpCount := s.nOpCount + 1 } = r at hends
    cases r with
    | ok s' => exact absurd (hends.2 hreads) (by omega)
    | error e =>
        rcases hends with ⟨-, hfinds⟩ | ⟨rfl, -⟩
        · exact absurd (hfinds hreads) (by omega)
        · rfl

/-! ### The calls -/

/-- An evaluation reads an input that is not there exactly where a round that it reaches
wants one. -/
theorem EvalScript_vinOutOfRange_iff (ctx : ScriptContext) (stack : List valtype)
    (script : CScript) :
    (exec (EvalScript ctx stack script) {}).1 = .error .vinOutOfRange ↔
      script.length ≤ 10000 ∧ ctx.txTo.vin.length ≤ ctx.nIn ∧
        ∃ y, Relation.ReflTransGen (Goes ctx) (evalStart stack script, {}) y ∧
          WantsInput ctx y.1 := by
  unfold EvalScript
  by_cases hlong : 10000 < script.length
  · simp [hlong, Nat.not_le.mpr hlong]
  have hend : ∀ s : ScriptState, ∀ t : EvalTally,
      (exec (if s.vfExec = [] then return s else halt .returnFalse : Eval ScriptState) t).1 ≠
        .error .vinOutOfRange := by
    intro s t
    split <;> simp
  have hstart : (evalStart stack script).pc.length ≤ script.length := le_rfl
  rw [if_neg hlong, exec_bind_eq_error, evalLoop_error_iff hstart]
  constructor
  · rintro (⟨y, hy, -, hstop⟩ | ⟨s, t, -, hstop⟩)
    · have hwants := (evalStep_vinOutOfRange_iff y.1 y.2).mp hstop
      exact ⟨Nat.le_of_not_lt hlong, hwants.2, y, hy, hwants.1⟩
    · exact absurd hstop (hend s t)
  · rintro ⟨-, hvin, y, hy, hwants⟩
    have hmore : y.1.pc ≠ [] := by
      obtain ⟨_, _, hop, -⟩ := hwants
      intro hnil
      rw [hnil] at hop
      cases hop
    exact .inl ⟨y, hy, hmore, (evalStep_vinOutOfRange_iff y.1 y.2).mpr ⟨hwants, hvin⟩⟩

end Ziftrcoin.Spec.Machine

namespace Ziftrcoin.Spec

open Ziftrcoin.Lib Ziftrcoin.Lib.Tallied
open Machine

/-- The next instruction is a lock time instruction that is executed, with the number
zero on top of the stack. -/
def AtZeroLockTime (s : ScriptState) : Prop :=
  ∃ opcode pc vch rest, getOp s.pc = some (opcode, [], pc) ∧ isLockTime opcode ∧
    s.fExec = true ∧ s.nOpCount < 201 ∧ s.stack = vch :: rest ∧
    CScriptNum.ofVch vch 5 = some 0

/-- The call evaluates a signature script without an input, and comes to a lock time
instruction with the operand zero. -/
def EvalScriptCall.LocksWithoutInput : EvalScriptCall → Prop
  | .VerifyScript _ _ _ _ | .AreInputsStandard _ _ _ _ _ => False
  | .CombineSignatures crypto scriptSig =>
      scriptSig.length ≤ 10000 ∧
        ∃ y, Relation.ReflTransGen (Goes (CombineSignatures crypto scriptSig).context)
          (evalStart [] scriptSig, {}) y ∧ AtZeroLockTime y.1

/-- Without an input, and with the lock time zero, only a zero makes an instruction read
the input. -/
theorem wantsInput_default_iff (crypto : Crypto) (flags : ScriptFlags) (nIn : ℕ)
    (s : ScriptState) :
    WantsInput ⟨crypto, CTransaction.default, nIn, flags⟩ s ↔ AtZeroLockTime s := by
  have hbelow : ¬ LOCKTIME_THRESHOLD ≤ ((0 : ℕ) : ℤ) := by decide
  constructor
  · rintro ⟨opcode, pc, hop, hlock, hexec, hops, vch, rest, n, hstack, hn, hpos, hle, -⟩
    have hzero : n = 0 := le_antisymm hle hpos
    exact ⟨opcode, pc, vch, rest, hop, hlock, hexec, hops, hstack, hzero ▸ hn⟩
  · rintro ⟨opcode, pc, vch, rest, hop, hlock, hexec, hops, hstack, hn⟩
    exact ⟨opcode, pc, hop, hlock, hexec, hops, vch, rest, 0, hstack, hn, le_rfl, le_rfl,
      fun h => absurd h.1 hbelow⟩

/-- **An evaluation finds the input that it reads**, unless it is one of
`CombineSignatures` and comes to a lock time instruction with the operand zero. -/
theorem evalScriptCall_finds_input_iff (call : EvalScriptCall) :
    (exec (Machine.EvalScript call.context call.stack call.script) {}).1 ≠
        .error .vinOutOfRange ↔ ¬ call.LocksWithoutInput := by
  rw [not_iff_not, EvalScript_vinOutOfRange_iff]
  cases call with
  | VerifyScript ctx input stack script =>
      exact iff_of_false (fun h => absurd input (Nat.not_lt.mpr h.2.1)) id
  | AreInputsStandard crypto tx i input scriptSig =>
      exact iff_of_false (fun h => absurd input (Nat.not_lt.mpr h.2.1)) id
  | CombineSignatures crypto scriptSig =>
      constructor
      · rintro ⟨hlen, -, y, hy, hwants⟩
        exact ⟨hlen, y, hy, (wantsInput_default_iff crypto _ 0 y.1).mp hwants⟩
      · rintro ⟨hlen, y, hy, hzero⟩
        exact ⟨hlen, Nat.zero_le _, y, hy, (wantsInput_default_iff crypto _ 0 y.1).mpr hzero⟩

/-- `OP_0 OP_CHECKLOCKTIME` as a signature script to combine. -/
theorem combineSignatures_misses_input :
    ¬ ∀ call : EvalScriptCall,
      (exec (Machine.EvalScript call.context call.stack call.script) {}).1 ≠
        .error .vinOutOfRange := by
  intro h
  exact h (.CombineSignatures zeroCrypto [0x00, 0xba]) rfl

end Ziftrcoin.Spec
