/-
Module: Ziftrcoin.Proofs.ScriptMachine
Purpose: The interpreter that spells out its accesses does what the interpreter on
  lists does: an instruction succeeds with the same state, and where it fails it
  returns false or meets an operand that is too long.
Trusted boundary: none
Main exports: Agrees, execNumeric_agrees
-/
import Ziftrcoin.Proofs.NetworkFormat
import Ziftrcoin.Spec.ScriptMachine

namespace Ziftrcoin.Spec

open Ziftrcoin.Lib Ziftrcoin.Lib.Tallied

/-! ### Agreement -/

/-- Ways to fail that need neither an exception from a stack nor an assertion. -/
def Halt.Quiet (e : Halt) : Prop := e = .returnFalse ∨ e = .scriptnum_error

/-- The program returns what the function returns, and otherwise fails quietly. -/
def Agrees {α : Type} (x : Except Halt α) (y : Option α) : Prop :=
  Ends x (fun a => y = some a) fun e => y = none ∧ e.Quiet

namespace Agrees

variable {α : Type} {x x' : Except Halt α} {y y' : Option α}

@[simp] theorem ok_iff {a : α} : Agrees (.ok a) y ↔ y = some a := Iff.rfl

@[simp] theorem returnFalse_iff : Agrees (.error .returnFalse) y ↔ y = none := by
  simp [Agrees, Halt.Quiet]

@[simp] theorem scriptnum_error_iff : Agrees (.error .scriptnum_error) y ↔ y = none := by
  simp [Agrees, Halt.Quiet]

theorem ite {c : Prop} [Decidable c] (hx : c → Agrees x y) (hy : ¬ c → Agrees x' y') :
    Agrees (if c then x else x') (if c then y else y') := by
  by_cases h : c
  · simpa [h] using hx h
  · simpa [h] using hy h

end Agrees

namespace Machine

/-! ### Stack accesses -/

section
variable {stack : List valtype} {vch a b c d e f : valtype} {rest : List valtype}

@[simp] theorem require_true {p : Prop} [Decidable p] (h : p) : require p = .ok () := if_pos h

@[simp] theorem require_false {p : Prop} [Decidable p] (h : ¬ p) :
    require p = .error .returnFalse := if_neg h

@[simp] theorem stacktop_one : stacktop (a :: rest) 1 = .ok a := rfl
@[simp] theorem stacktop_two : stacktop (a :: b :: rest) 2 = .ok b := rfl
@[simp] theorem stacktop_three : stacktop (a :: b :: c :: rest) 3 = .ok c := rfl
@[simp] theorem stacktop_four : stacktop (a :: b :: c :: d :: rest) 4 = .ok d := rfl
@[simp] theorem stacktop_five : stacktop (a :: b :: c :: d :: e :: rest) 5 = .ok e := rfl
@[simp] theorem stacktop_six : stacktop (a :: b :: c :: d :: e :: f :: rest) 6 = .ok f := rfl
@[simp] theorem popstack_cons : popstack (a :: rest) = .ok rest := rfl

@[simp] theorem eraseTop_two : eraseTop (a :: b :: rest) 2 = .ok (a :: rest) :=
  if_neg (by simp)

@[simp] theorem eraseTop_five :
    eraseTop (a :: b :: c :: d :: e :: rest) 5 = .ok (a :: b :: c :: d :: rest) :=
  if_neg (by simp)

@[simp] theorem eraseTop_six :
    eraseTop (a :: b :: c :: d :: e :: f :: rest) 6 = .ok (a :: b :: c :: d :: e :: rest) :=
  if_neg (by simp)

@[simp] theorem insertTop_two :
    insertTop (a :: b :: rest) 2 vch = .ok (a :: b :: vch :: rest) := if_neg (by simp)

theorem stacktop_of_lt {i : ℕ} (h : i < stack.length) : stacktop stack (i + 1) = .ok stack[i] := by
  simp [stacktop, h]

theorem popTimes_le {i : ℕ} (h : i ≤ stack.length) : popTimes i stack = .ok (stack.drop i) := by
  induction i generalizing stack with
  | zero => rfl
  | succ i ih =>
      cases stack with
      | nil => simp at h
      | cons x stack =>
          rw [popTimes, popstack_cons]
          exact ih (by simpa using h)

theorem eraseTop_of_lt {i : ℕ} (h : i < stack.length) :
    eraseTop stack (i + 1) = .ok (stack.eraseIdx i) := by
  rw [eraseTop, if_neg (by omega)]
  rfl

end

/-! ### Instructions without signatures -/

theorem operand_agrees (vch : valtype) (nMaxNumSize : ℕ) :
    Agrees (operand vch nMaxNumSize) (CScriptNum.ofVch vch nMaxNumSize) := by
  unfold operand
  cases CScriptNum.ofVch vch nMaxNumSize <;> simp

theorem pushOutcome_agrees (s : ScriptState) (stack : List valtype) (verify fValue : Bool) :
    Agrees (pushOutcome s stack verify fValue) (pushOrVerify { s with stack } verify fValue) := by
  cases verify <;> cases fValue <;>
    simp [pushOutcome, pushOrVerify, ScriptState.push, pure, Except.pure, bind, Except.bind]

theorem execPickRoll_agrees (opcode : ℕ) (s : ScriptState) :
    Agrees (execPickRoll opcode s) (Spec.execPickRoll opcode s) := by
  unfold execPickRoll Spec.execPickRoll
  rcases hs : s.stack with _ | ⟨vch, _ | ⟨x, stack⟩⟩
  · simp [bind, Except.bind]
  · simp [bind, Except.bind]
  · have htwo : 2 ≤ (vch :: x :: stack).length := by simp
    rw [require_true htwo]
    simp only [stacktop_one, popstack_cons, scriptNum]
    have hnum := operand_agrees vch 4
    cases hbn : CScriptNum.ofVch vch 4 with
    | none => simp [operand, hbn, bind, Except.bind]
    | some bn =>
        simp only [operand, hbn, Option.bind_some, bind, Except.bind]
        by_cases hn : CScriptNum.getint bn < 0 ∨ ((x :: stack).length : ℤ) ≤ CScriptNum.getint bn
        · have hout : ¬ (0 ≤ CScriptNum.getint bn ∧
              CScriptNum.getint bn < ((x :: stack).length : ℤ)) := by omega
          rw [require_false hout, if_pos hn]
          simp
        · have hlt : (CScriptNum.getint bn).toNat < (x :: stack).length := by omega
          have hin : 0 ≤ CScriptNum.getint bn ∧
              CScriptNum.getint bn < ((x :: stack).length : ℤ) := by omega
          rw [require_true hin, if_neg hn]
          simp only [stacktop_of_lt hlt, eraseTop_of_lt hlt, List.getElem?_eq_getElem hlt]
          by_cases hroll : opcode = OP_ROLL <;> simp [hroll, pure, Except.pure]

theorem execStack_agrees (opcode : ℕ) (s : ScriptState) :
    Agrees (execStack opcode s) (Spec.execStack opcode s) := by
  obtain ⟨pc, code, stack, altstack, vfExec, nOpCount⟩ := s
  unfold execStack Spec.execStack
  refine .ite (fun _ => ?_) fun _ => .ite (fun _ => ?_) fun _ => .ite (fun _ => ?_) fun _ =>
    .ite (fun _ => ?_) fun _ => .ite (fun _ => ?_) fun _ => .ite (fun _ => ?_) fun _ =>
    .ite (fun _ => ?_) fun _ => .ite (fun _ => ?_) fun _ => .ite (fun _ => ?_) fun _ =>
    .ite (fun _ => ?_) fun _ => .ite (fun _ => ?_) fun _ => .ite (fun _ => ?_) fun _ =>
    .ite (fun _ => ?_) fun _ => .ite (fun _ => ?_) fun _ =>
    .ite (fun _ => execPickRoll_agrees opcode _) fun _ =>
    .ite (fun _ => ?_) fun _ => .ite (fun _ => ?_) fun _ => .ite (fun _ => ?_) fun _ =>
    .ite (fun _ => ?_) fun _ => ?_
  -- enough elements for the deepest access of any instruction, or fewer
  case refine_2 => cases altstack <;> simp [bind, Except.bind, pure, Except.pure]
  all_goals
    rcases stack with _ | ⟨a, _ | ⟨b, _ | ⟨c, _ | ⟨d, _ | ⟨e, _ | ⟨f, rest⟩⟩⟩⟩⟩⟩ <;>
      simp [bind, Except.bind, pure, Except.pure, swapTop]
theorem execBranch_agrees (opcode : ℕ) (s : ScriptState) :
    Agrees (execBranch opcode s) (Spec.execBranch opcode s) := by
  unfold execBranch Spec.execBranch
  refine .ite (fun _ => .ite (fun _ => ?_) fun _ => ?_) fun _ => ?_
  · rcases s.stack with _ | ⟨vch, stack⟩ <;> simp [bind, Except.bind, pure, Except.pure]
  · simp
  · rcases s.vfExec with _ | ⟨f, vfExec⟩
    · simp
    · exact .ite (fun _ => by simp) fun _ => .ite (fun _ => by simp) fun _ => by simp

theorem execHash_agrees (crypto : Crypto) (opcode : ℕ) (s : ScriptState) :
    Agrees (execHash crypto opcode s) (Spec.execHash crypto opcode s) := by
  unfold execHash Spec.execHash
  rcases s.stack with _ | ⟨vch, stack⟩ <;> simp [bind, Except.bind, pure, Except.pure]

end Machine

/-! ### Numbers -/

/-- A number has no more bits than the bytes it is read from. -/
theorem natAbs_setVch_lt (vch : valtype) :
    (CScriptNum.setVch vch).natAbs < 256 ^ vch.length := by
  have hread := readLE_lt vch
  unfold CScriptNum.setVch
  split
  · simp
  · dsimp only
    split_ifs
    · rw [Int.natAbs_negOfNat]
      exact lt_of_le_of_lt (Nat.sub_le _ _) hread
    · rw [Int.natAbs_negOfNat]
      exact hread
    · simpa using hread

/-- The operands of the numeric instructions fit four bytes. -/
theorem scriptNum_lt {vch : valtype} {bn : ℤ} (h : CScriptNum.ofVch vch 4 = some bn) :
    -4294967296 < bn ∧ bn < 4294967296 := by
  unfold CScriptNum.ofVch at h
  split at h
  · cases h
  · next hlen =>
      have hlt := natAbs_setVch_lt vch
      have hpow : 256 ^ vch.length ≤ 256 ^ 4 := Nat.pow_le_pow_right (by decide) (by omega)
      rw [Option.some.inj h] at hlt
      omega

namespace Machine

/-- No assertion of the inner `switch` fails on an operand in range. -/
theorem unaryNum_agrees {opcode : ℕ} {bn : ℤ} (hop : isUnaryNum opcode = true)
    (hbn : -4294967296 < bn ∧ bn < 4294967296) :
    Agrees (unaryNum opcode bn) (Spec.unaryNum opcode bn) := by
  have hadd : numAdd bn 1 = .ok (bn + 1) := if_pos (by simp only [INT64_MAX]; omega)
  have hsub : numSub bn 1 = .ok (bn - 1) := if_pos (by simp only [INT64_MIN]; omega)
  have hneg : numNeg bn = .ok (-bn) := if_neg (by simp only [INT64_MIN]; omega)
  unfold unaryNum Spec.unaryNum
  rw [hadd, hsub, hneg]
  refine .ite (fun _ => by simp) fun h₁ => .ite (fun _ => by simp) fun h₂ =>
    .ite (fun _ => by simp) fun h₃ => .ite (fun _ => ?_) fun h₄ =>
    .ite (fun _ => by simp) fun h₅ => .ite (fun _ => by simp) fun h₆ => ?_
  · by_cases hlt : bn < 0 <;> simp [hlt]
  · simp [isUnaryNum, h₁, h₂, h₃, h₄, h₅, h₆] at hop

theorem binaryNum_isSome {opcode : ℕ} (hop : isBinaryNum opcode = true) (bn1 bn2 : ℤ) :
    ∃ bn, Spec.binaryNum opcode bn1 bn2 = some bn := by
  simp only [isBinaryNum, List.contains_eq_mem, List.mem_cons, List.not_mem_nil, or_false,
    decide_eq_true_eq] at hop
  rcases hop with rfl | rfl | rfl | rfl | rfl | rfl | rfl | rfl | rfl | rfl | rfl | rfl | rfl <;>
    exact ⟨_, rfl⟩

/-- What is no unary instruction makes the old switch fail as well. -/
theorem unaryNum_eq_none {opcode : ℕ} (hop : isUnaryNum opcode = false) (bn : ℤ) :
    Spec.unaryNum opcode bn = none := by
  simp only [isUnaryNum, List.contains_eq_mem, List.mem_cons, List.not_mem_nil, or_false,
    decide_eq_false_iff_not, not_or] at hop
  simp [Spec.unaryNum, hop]

theorem binaryNum_eq_none {opcode : ℕ} (hop : isBinaryNum opcode = false) (bn1 bn2 : ℤ) :
    Spec.binaryNum opcode bn1 bn2 = none := by
  simp only [isBinaryNum, List.contains_eq_mem, List.mem_cons, List.not_mem_nil, or_false,
    decide_eq_false_iff_not, not_or] at hop
  simp [Spec.binaryNum, hop]

/-- A number is true exactly when it is not zero. -/
theorem castToBool_serialize_boolNum (b : Bool) :
    CastToBool (CScriptNum.serialize (boolNum b)) = b := by
  cases b <;> decide

theorem isUnaryNum_range {opcode : ℕ} (hop : isUnaryNum opcode = true) :
    OP_1ADD ≤ opcode ∧ opcode ≤ OP_0NOTEQUAL := by
  simp only [isUnaryNum, List.contains_eq_mem, List.mem_cons, List.not_mem_nil, or_false,
    decide_eq_true_eq] at hop
  rcases hop with rfl | rfl | rfl | rfl | rfl | rfl <;> decide

theorem isBinaryNum_range {opcode : ℕ} (hop : isBinaryNum opcode = true) :
    OP_ADD ≤ opcode ∧ opcode ≤ OP_MAX := by
  simp only [isBinaryNum, List.contains_eq_mem, List.mem_cons, List.not_mem_nil, or_false,
    decide_eq_true_eq] at hop
  rcases hop with rfl | rfl | rfl | rfl | rfl | rfl | rfl | rfl | rfl | rfl | rfl | rfl | rfl <;>
    decide

/-- `OP_NUMEQUALVERIFY` goes on when the numbers are equal. -/
theorem numEqualVerify_agrees {opcode : ℕ} {bn1 bn2 bn : ℤ} (s : ScriptState)
    (stack : List valtype) (hbn : Spec.binaryNum opcode bn1 bn2 = some bn)
    (hop : opcode = OP_NUMEQUALVERIFY) :
    Agrees (if CastToBool (CScriptNum.serialize bn) then .ok { s with stack }
      else .error .returnFalse) (if bn ≠ 0 then some { s with stack } else none) := by
  subst hop
  have hbool : bn = boolNum (bn1 == bn2) := by
    have hbn' : some (boolNum (bn1 == bn2)) = some bn := hbn
    exact (Option.some.inj hbn').symm
  rw [hbool, castToBool_serialize_boolNum]
  cases bn1 == bn2 <;> simp [boolNum]

theorem execNumeric_agrees (opcode : ℕ) (s : ScriptState) :
    Agrees (execNumeric opcode s) (Spec.execNumeric opcode s) := by
  unfold execNumeric Spec.execNumeric
  refine .ite (fun _ => ?_) fun hequal => ?_
  · rcases s.stack with _ | ⟨a, _ | ⟨b, stack⟩⟩
    · simp [bind, Except.bind]
    · simp [bind, Except.bind]
    · simpa [bind, Except.bind] using
        pushOutcome_agrees s stack (opcode == OP_EQUALVERIFY) (b == a)
  by_cases hunary : isUnaryNum opcode = true
  · rw [if_pos hunary, if_pos (isUnaryNum_range hunary)]
    rcases s.stack with _ | ⟨vch, stack⟩
    · simp [bind, Except.bind]
    cases hbn : CScriptNum.ofVch vch 4 with
    | none => simp [bind, Except.bind, operand, scriptNum, hbn]
    | some bn =>
        have hswitch := unaryNum_agrees hunary (scriptNum_lt hbn)
        cases hnum : unaryNum opcode bn with
        | error e =>
            rw [hnum] at hswitch
            simp [bind, Except.bind, operand, scriptNum, hbn, hnum, Agrees, hswitch.1, hswitch.2]
        | ok bn' =>
            rw [hnum, Agrees.ok_iff] at hswitch
            simp [bind, Except.bind, pure, Except.pure, operand, scriptNum, hbn, hnum, hswitch]
  rw [if_neg hunary]
  by_cases hbinary : isBinaryNum opcode = true
  · have hrange := isBinaryNum_range hbinary
    simp only [OP_ADD, OP_MAX] at hrange
    rw [if_pos hbinary, if_neg (by simp only [OP_1ADD, OP_0NOTEQUAL]; omega),
      if_neg (by simp only [OP_WITHIN]; omega)]
    rcases s.stack with _ | ⟨vch2, _ | ⟨vch1, stack⟩⟩
    · simp [bind, Except.bind]
    · simp [bind, Except.bind]
    cases hbn1 : CScriptNum.ofVch vch1 4 with
    | none => simp [bind, Except.bind, operand, scriptNum, hbn1]
    | some bn1 =>
      cases hbn2 : CScriptNum.ofVch vch2 4 with
      | none => simp [bind, Except.bind, operand, scriptNum, hbn1, hbn2]
      | some bn2 =>
        obtain ⟨bn, hbn⟩ := binaryNum_isSome hbinary bn1 bn2
        by_cases hverify : opcode = OP_NUMEQUALVERIFY
        · subst hverify
          simpa [bind, Except.bind, pure, Except.pure, operand, scriptNum, hbn1, hbn2, hbn,
            binaryNum] using numEqualVerify_agrees s stack hbn rfl
        · simp [bind, Except.bind, pure, Except.pure, operand, scriptNum, hbn1, hbn2, hbn,
            binaryNum, hverify]
  rw [if_neg hbinary]
  by_cases hwithin : opcode = OP_WITHIN
  · subst hwithin
    rw [if_pos rfl, if_neg (by decide), if_pos rfl]
    rcases s.stack with _ | ⟨vch3, _ | ⟨vch2, _ | ⟨vch1, stack⟩⟩⟩
    · simp [bind, Except.bind]
    · simp [bind, Except.bind]
    · simp [bind, Except.bind]
    cases hbn1 : CScriptNum.ofVch vch1 4 with
    | none => simp [bind, Except.bind, operand, scriptNum, hbn1]
    | some bn1 =>
      cases hbn2 : CScriptNum.ofVch vch2 4 with
      | none => simp [bind, Except.bind, operand, scriptNum, hbn1, hbn2]
      | some bn2 =>
        cases hbn3 : CScriptNum.ofVch vch3 4 <;>
          simp [bind, Except.bind, pure, Except.pure, operand, scriptNum, hbn1, hbn2, hbn3,
            popTimes]
  · -- an opcode of neither group is in no case of the source's `switch`
    rw [if_neg hwithin, Agrees.returnFalse_iff]
    simp only [Bool.not_eq_true] at hunary hbinary
    split
    · cases s.stack with
      | nil => rfl
      | cons vch stack =>
          simp [unaryNum_eq_none hunary]
    · rcases s.stack with _ | ⟨vch2, _ | ⟨vch1, stack⟩⟩
      · simp
      · simp
      · simp [binaryNum_eq_none hbinary]

end Machine
end Ziftrcoin.Spec
