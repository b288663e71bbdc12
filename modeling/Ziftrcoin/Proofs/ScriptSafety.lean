/-
Module: Ziftrcoin.Proofs.ScriptSafety
Purpose: An evaluation stays within its limits: every access to a stack is covered by
  a size check, no assertion fails, and instructions, stacks and their elements stay
  within their bounds.
Trusted boundary: none
Main exports: GoesOn, evalScript_safe
-/
import Ziftrcoin.Proofs.Instructions
import Ziftrcoin.Proofs.LongChain
import Ziftrcoin.Proofs.MultisigMatching

namespace Ziftrcoin.Spec

open Ziftrcoin.Lib Ziftrcoin.Lib.Tallied

/-! ### What an instruction keeps -/

/-- No element of a stack is longer than a script may push. -/
def Short (s : ScriptState) : Prop :=
  (∀ x ∈ s.stack, x.length ≤ MAX_SCRIPT_ELEMENT_SIZE) ∧
    ∀ x ∈ s.altstack, x.length ≤ MAX_SCRIPT_ELEMENT_SIZE

/-- The sizes of the hash functions. -/
structure HashSizes (crypto : Crypto) : Prop where
  RIPEMD160 : ∀ vch, (crypto.RIPEMD160 vch).length = 20
  SHA1 : ∀ vch, (crypto.SHA1 vch).length = 20
  SHA256 : ∀ vch, (crypto.SHA256 vch).length = 32
  Hash160 : ∀ vch, (crypto.Hash160 vch).length = 20

/-- An instruction goes on behind its position, counts no others, and keeps the
elements short. -/
structure GoesOn (crypto : Crypto) (s s' : ScriptState) : Prop where
  pc : s'.pc = s.pc
  nOpCount : s'.nOpCount = s.nOpCount
  short : HashSizes crypto → Short s → Short s'

section
variable {crypto : Crypto} {s s' : ScriptState} {opcode : ℕ}

theorem short_serialize (value : ℤ) :
    (CScriptNum.serialize value).length ≤ MAX_SCRIPT_ELEMENT_SIZE :=
  (length_serialize_scriptNum value).trans (by decide)

/-- A property of what a choice returns. -/
theorem forall_mem_ite {α : Type} {c : Prop} [Decidable c] {x y : Option α} {P : α → Prop}
    (hx : c → ∀ a ∈ x, P a) (hy : ¬ c → ∀ a ∈ y, P a) : ∀ a ∈ (if c then x else y), P a := by
  by_cases h : c
  · simpa [h] using hx h
  · simpa [h] using hy h

theorem execPickRoll_keeps (h : execPickRoll opcode s = some s') : GoesOn crypto s s' := by
  unfold execPickRoll at h
  rcases hs : s.stack with _ | ⟨vch, _ | ⟨x, stack⟩⟩
  · simp [hs] at h
  · simp [hs] at h
  simp only [hs, Option.bind_eq_some_iff, Option.ite_none_left_eq_some] at h
  obtain ⟨bn, -, -, h⟩ := h
  split at h
  · cases h
  next value hvalue =>
    have hmem := List.mem_of_getElem? hvalue
    injection h with h
    subst h
    refine ⟨rfl, rfl, fun _ hshort => ⟨fun y hy => ?_, hshort.2⟩⟩
    have hold : ∀ z ∈ x :: stack, z.length ≤ MAX_SCRIPT_ELEMENT_SIZE := by
      intro z hz
      exact hshort.1 z (by rw [hs]; exact List.mem_cons_of_mem _ hz)
    rcases List.mem_cons.mp hy with rfl | hy
    · exact hold _ hmem
    · split at hy
      · exact hold _ (List.mem_of_mem_eraseIdx hy)
      · exact hold _ hy

theorem execStack_keeps (opcode : ℕ) (s : ScriptState) :
    ∀ s' ∈ execStack opcode s, GoesOn crypto s s' := by
  obtain ⟨pc, code, stack, altstack, vfExec, nOpCount⟩ := s
  unfold execStack
  refine forall_mem_ite (fun _ => ?_) fun _ => forall_mem_ite (fun _ => ?_) fun _ =>
    forall_mem_ite (fun _ => ?_) fun _ => forall_mem_ite (fun _ => ?_) fun _ =>
    forall_mem_ite (fun _ => ?_) fun _ => forall_mem_ite (fun _ => ?_) fun _ =>
    forall_mem_ite (fun _ => ?_) fun _ => forall_mem_ite (fun _ => ?_) fun _ =>
    forall_mem_ite (fun _ => ?_) fun _ => forall_mem_ite (fun _ => ?_) fun _ =>
    forall_mem_ite (fun _ => ?_) fun _ => forall_mem_ite (fun _ => ?_) fun _ =>
    forall_mem_ite (fun _ => ?_) fun _ => forall_mem_ite (fun _ => ?_) fun _ =>
    forall_mem_ite (fun _ s' h => execPickRoll_keeps h) fun _ =>
    forall_mem_ite (fun _ => ?_) fun _ => forall_mem_ite (fun _ => ?_) fun _ =>
    forall_mem_ite (fun _ => ?_) fun _ => forall_mem_ite (fun _ => ?_) fun _ => ?_
  case refine_2 =>
    rcases altstack with _ | ⟨a, rest⟩ <;> rintro s' ⟨⟩
    refine ⟨rfl, rfl, fun _ hshort => ?_⟩
    simp only [Short, List.forall_mem_cons] at hshort ⊢
    exact ⟨⟨hshort.2.1, hshort.1⟩, hshort.2.2⟩
  case refine_9 =>
    rcases stack with _ | ⟨a, rest⟩ <;> rintro s' ⟨⟩
    refine ⟨rfl, rfl, fun _ hshort => ?_⟩
    simp only [Short, List.forall_mem_cons] at hshort ⊢
    cases CastToBool a <;> simp +contextual [hshort]
  all_goals
    rcases stack with _ | ⟨a, _ | ⟨b, _ | ⟨c, _ | ⟨d, _ | ⟨e, _ | ⟨f, rest⟩⟩⟩⟩⟩⟩ <;>
      rintro s' ⟨⟩ <;> refine ⟨rfl, rfl, fun _ hshort => ?_⟩ <;>
      simp only [Short, List.forall_mem_cons, ScriptState.push] at hshort ⊢ <;>
      simp +contextual [hshort, short_serialize]

/-- Elements that come from the stack are short. -/
theorem Short.of_stack {stack : List valtype} (h : Short s)
    (hstack : ∀ x ∈ stack, x ∈ s.stack ∨ x.length ≤ MAX_SCRIPT_ELEMENT_SIZE) :
    Short { s with stack } :=
  ⟨fun x hx => (hstack x hx).elim (h.1 x) id, h.2⟩

theorem pushOrVerify_keeps {stack : List valtype} (verify fValue : Bool)
    (hstack : ∀ x ∈ stack, x ∈ s.stack) :
    ∀ s' ∈ pushOrVerify { s with stack } verify fValue, GoesOn crypto s s' := by
  intro s' h
  cases verify with
  | true =>
      cases fValue with
      | true =>
          injection h with h
          subst h
          exact ⟨rfl, rfl, fun _ hshort => hshort.of_stack fun x hx => .inl (hstack x hx)⟩
      | false => cases h
  | false =>
      injection h with h
      subst h
      refine ⟨rfl, rfl, fun _ hshort => hshort.of_stack fun x hx => ?_⟩
      rcases List.mem_cons.mp hx with rfl | hx
      · cases fValue <;> exact .inr (by decide)
      · exact .inl (hstack x hx)

theorem execBranch_keeps (opcode : ℕ) (s : ScriptState) :
    ∀ s' ∈ execBranch opcode s, GoesOn crypto s s' := by
  unfold execBranch
  refine forall_mem_ite (fun _ => forall_mem_ite (fun _ => ?_) fun _ => ?_) fun _ => ?_
  · rcases hs : s.stack with _ | ⟨vch, stack⟩ <;> rintro s' ⟨⟩
    refine ⟨rfl, rfl, fun _ hshort => ⟨fun x hx => hshort.1 x ?_, hshort.2⟩⟩
    rw [hs]
    exact List.mem_cons_of_mem _ hx
  · rintro s' ⟨⟩
    exact ⟨rfl, rfl, fun _ => id⟩
  · rcases s.vfExec with _ | ⟨f, vfExec⟩
    · rintro s' ⟨⟩
    · refine forall_mem_ite (fun _ => ?_) fun _ => forall_mem_ite (fun _ => ?_) fun _ => ?_ <;>
        rintro s' ⟨⟩
      · exact ⟨rfl, rfl, fun _ => id⟩
      · exact ⟨rfl, rfl, fun _ => id⟩

/-- A short element takes the place of elements of the stack. -/
theorem keeps_push {vch : valtype} {stack : List valtype}
    (hvch : vch.length ≤ MAX_SCRIPT_ELEMENT_SIZE) (hstack : ∀ x ∈ stack, x ∈ s.stack) :
    GoesOn crypto s { s with stack := vch :: stack } := by
  refine ⟨rfl, rfl, fun _ hshort => hshort.of_stack fun x hx => ?_⟩
  rcases List.mem_cons.mp hx with rfl | hx
  · exact .inr hvch
  · exact .inl (hstack x hx)

theorem execNumeric_keeps (opcode : ℕ) (s : ScriptState) :
    ∀ s' ∈ execNumeric opcode s, GoesOn crypto s s' := by
  unfold execNumeric
  refine forall_mem_ite (fun _ => ?_) fun _ => forall_mem_ite (fun _ => ?_) fun _ =>
    forall_mem_ite (fun _ => ?_) fun _ => ?_
  · rcases hs : s.stack with _ | ⟨a, _ | ⟨b, stack⟩⟩
    · rintro s' ⟨⟩
    · rintro s' ⟨⟩
    · exact pushOrVerify_keeps _ _ fun x hx => by simp [hs, hx]
  · rcases hs : s.stack with _ | ⟨a, stack⟩
    · rintro s' ⟨⟩
    · intro s' h
      simp only [Option.mem_def, Option.bind_eq_some_iff, Option.map_eq_some_iff] at h
      obtain ⟨_, _, bn, _, rfl⟩ := h
      exact keeps_push (short_serialize bn) fun x hx => by simp [hs, hx]
  · rcases hs : s.stack with _ | ⟨a, _ | ⟨b, _ | ⟨c, stack⟩⟩⟩
    · rintro s' ⟨⟩
    · rintro s' ⟨⟩
    · rintro s' ⟨⟩
    · intro s' h
      simp only [Option.mem_def, Option.bind_eq_some_iff, Option.map_eq_some_iff] at h
      obtain ⟨_, _, _, _, _, _, rfl⟩ := h
      refine keeps_push ?_ fun x hx => by simp [hs, hx]
      split <;> decide
  · rcases hs : s.stack with _ | ⟨a, _ | ⟨b, stack⟩⟩
    · rintro s' ⟨⟩
    · rintro s' ⟨⟩
    · intro s' h
      simp only [Option.mem_def, Option.bind_eq_some_iff] at h
      obtain ⟨_, _, _, _, bn, _, h⟩ := h
      have hsub : ∀ x ∈ stack, x ∈ s.stack := fun x hx => by simp [hs, hx]
      split at h
      · split at h
        · injection h with h
          subst h
          exact ⟨rfl, rfl, fun _ hshort => hshort.of_stack fun x hx => .inl (hsub x hx)⟩
        · cases h
      · injection h with h
        subst h
        exact keeps_push (short_serialize bn) hsub

theorem execHash_keeps (opcode : ℕ) (s : ScriptState) :
    ∀ s' ∈ execHash crypto opcode s, GoesOn crypto s s' := by
  unfold execHash
  rcases hs : s.stack with _ | ⟨vch, stack⟩
  · rintro s' ⟨⟩
  · rintro s' ⟨⟩
    refine ⟨rfl, rfl, fun hsizes hshort =>
      (keeps_push ?_ fun x hx => by simp [hs, hx]).short hsizes hshort⟩
    split_ifs <;>
      simp [hsizes.RIPEMD160, hsizes.SHA1, hsizes.SHA256, hsizes.Hash160,
        MAX_SCRIPT_ELEMENT_SIZE]

theorem execCheckSig_keeps (ctx : ScriptContext) (opcode : ℕ) (s : ScriptState) :
    ∀ s' ∈ execCheckSig ctx opcode s, GoesOn ctx.crypto s s' := by
  unfold execCheckSig
  rcases hs : s.stack with _ | ⟨a, _ | ⟨b, stack⟩⟩
  · rintro s' ⟨⟩
  · rintro s' ⟨⟩
  · exact pushOrVerify_keeps _ _ fun x hx => by simp [hs, hx]

/-- The instruction counts its keys; apart from that it is like the others. -/
theorem execCheckMultiSig_keeps (ctx : ScriptContext) (opcode : ℕ) (s : ScriptState) :
    ∀ s' ∈ execCheckMultiSig ctx opcode s,
      GoesOn ctx.crypto { s with nOpCount := s'.nOpCount } s' := by
  unfold execCheckMultiSig
  rcases hs : s.stack with _ | ⟨number, under⟩
  · rintro s' ⟨⟩
  intro s' h
  simp only [Option.mem_def, Option.bind_eq_some_iff, Option.ite_none_left_eq_some] at h
  obtain ⟨bnKeys, -, -, -, h⟩ := h
  rcases hdrop : under.drop (CScriptNum.getint bnKeys).toNat with _ | ⟨count, below⟩
  · simp [hdrop] at h
  simp only [hdrop, Option.bind_eq_some_iff, Option.ite_none_left_eq_some] at h
  obtain ⟨bnSigs, -, -, -, h⟩ := h
  rw [Machine.pushOrVerify_nOpCount h]
  refine pushOrVerify_keeps
    (s := { s with
      stack := number :: under, nOpCount := s.nOpCount + (CScriptNum.getint bnKeys).toNat })
    _ _ (fun x hx => ?_) s' h
  have hbelow : x ∈ under.drop (CScriptNum.getint bnKeys).toNat := by
    rw [hdrop]
    exact List.mem_cons_of_mem _ (List.mem_of_mem_drop hx)
  exact List.mem_cons_of_mem _ (List.mem_of_mem_drop hbelow)

end

namespace Machine

/-! ### What an instruction costs -/

/-- The most calls of `CheckSig` that an instruction can make. -/
def checksOf (opcode : ℕ) (stack : List valtype) : ℕ :=
  if opcode = OP_CHECKSIG ∨ opcode = OP_CHECKSIGVERIFY then 1
  else if opcode = OP_CHECKMULTISIG ∨ opcode = OP_CHECKMULTISIGVERIFY then
    min 20 (keysAsked stack)
  else 0

/-- What an instruction adds to the tally, whether it succeeds or not. -/
structure OpCosts (opcode : ℕ) (s : ScriptState) (t t' : EvalTally) : Prop where
  checks : t'.checks ≤ t.checks + checksOf opcode s.stack
  executed : t'.executed = t.executed ∨ t'.executed + s.nOpCount ≤ t.executed + 201

theorem OpCosts.refl (opcode : ℕ) (s : ScriptState) (t : EvalTally) : OpCosts opcode s t t :=
  ⟨Nat.le_add_right _ _, .inl rfl⟩

/-- A successful instruction: it keeps what others have counted, and counts its keys. -/
structure OpDone (crypto : Crypto) (s : ScriptState) (t : EvalTally) (s' : ScriptState)
    (t' : EvalTally) : Prop where
  keeps : GoesOn crypto { s with nOpCount := s'.nOpCount } s'
  counted : t'.executed + s.nOpCount = t.executed + s'.nOpCount

theorem OpDone.of_keeps {crypto : Crypto} {s s' : ScriptState} {t t' : EvalTally}
    (h : GoesOn crypto s s') (ht : t'.executed = t.executed) : OpDone crypto s t s' t' := by
  refine ⟨?_, ?_⟩
  · rw [h.nOpCount]
    exact h
  · rw [h.nOpCount, ht]

/-- An instruction without signatures. -/
theorem meets_of_agrees {crypto : Crypto} {opcode : ℕ} {s : ScriptState}
    {x : Except Halt ScriptState}
    {y : Option ScriptState} (t : EvalTally) (h : Agrees x y)
    (hkeeps : ∀ s' ∈ y, GoesOn crypto s s') :
    Achieves (uncounted x)
      (fun s' t' => y = some s' ∧ OpDone crypto s t s' t' ∧ OpCosts opcode s t t')
      (fun e t' => y = none ∧ e.Quiet ∧ OpCosts opcode s t t') t := by
  rw [Achieves.uncounted_iff]
  exact Ends.mono h (fun s' hs' => ⟨hs', .of_keeps (hkeeps s' hs') rfl, .refl _ _ _⟩)
    fun e he => ⟨he.1, he.2, .refl _ _ _⟩

theorem execCheckSig_meets (ctx : ScriptContext) {opcode : ℕ} (s : ScriptState) (t : EvalTally)
    (hop : opcode = OP_CHECKSIG ∨ opcode = OP_CHECKSIGVERIFY) :
    Achieves (execCheckSig (checker ctx) opcode s)
      (fun s' t' => Spec.execCheckSig ctx opcode s = some s' ∧ OpDone ctx.crypto s t s' t' ∧
        OpCosts opcode s t t')
      (fun e t' => Spec.execCheckSig ctx opcode s = none ∧ e.Quiet ∧ OpCosts opcode s t t')
      t := by
  rcases hs : s.stack with _ | ⟨vchPubKey, _ | ⟨vchSig, stack⟩⟩
  · refine meets_fails (e := .returnFalse) (u := t) ?_ ?_ (.inl rfl) (.refl _ _ _)
    · simp only [execCheckSig, hs, exec_bind, exec_uncounted]
      rfl
    · simp [Spec.execCheckSig, hs]
  · refine meets_fails (e := .returnFalse) (u := t) ?_ ?_ (.inl rfl) (.refl _ _ _)
    · simp only [execCheckSig, hs, exec_bind, exec_uncounted]
      rfl
    · simp [Spec.execCheckSig, hs]
  have htwo : 2 ≤ (vchPubKey :: vchSig :: stack).length := by simp
  have hpop : popTimes 2 (vchPubKey :: vchSig :: stack) = .ok stack := rfl
  have hcost := (checker ctx).cost_le vchSig vchPubKey
  have hold : Spec.execCheckSig ctx opcode s = pushOrVerify { s with stack }
      (opcode == OP_CHECKSIGVERIFY) ((checker ctx).ok
        (s.pbegincodehash.FindAndDelete (pushData vchSig)) vchSig vchPubKey) := by
    simp only [Spec.execCheckSig, hs]
    rfl
  have hkeeps := execCheckSig_keeps ctx opcode s
  have hcosts : OpCosts opcode s t (called t ((checker ctx).cost vchSig vchPubKey)) := by
    refine ⟨?_, .inl rfl⟩
    rw [checksOf, if_pos hop]
    exact Nat.add_le_add_left hcost _
  unfold Achieves
  simp only [execCheckSig, hs, exec_bind, exec_uncounted, continue_, require_true htwo,
    stacktop_one, stacktop_two, ask_exec, hpop]
  rw [hold] at hkeeps ⊢
  exact Ends.mono (pushOutcome_agrees s stack _ _)
    (fun s' hs' => ⟨hs', .of_keeps (hkeeps s' hs') rfl, hcosts⟩)
    fun e he => ⟨he.1, he.2, hcosts⟩

/-- Opcodes that look at the lock time. -/
def isLockTime (opcode : ℕ) : Prop :=
  opcode = OP_CHECKLOCKTIME ∨ opcode = OP_CHECKLOCKTIMEVERIFY

/-- The instruction does what the function does, at no more than its cost. -/
def OpMeets (crypto : Crypto) (opcode : ℕ) (s : ScriptState) (t : EvalTally) (x : Eval ScriptState)
    (y : Option ScriptState) : Prop :=
  Achieves x (fun s' t' => y = some s' ∧ OpDone crypto s t s' t' ∧ OpCosts opcode s t t')
    (fun e t' => y = none ∧ e.Quiet ∧ OpCosts opcode s t t') t

namespace OpMeets

variable {crypto : Crypto} {opcode : ℕ} {s : ScriptState} {t : EvalTally} {x x' : Eval ScriptState}
  {y y' : Option ScriptState}

theorem ite {c : Prop} [Decidable c] (hx : c → OpMeets crypto opcode s t x y)
    (hy : ¬ c → OpMeets crypto opcode s t x' y') :
    OpMeets crypto opcode s t (if c then x else x') (if c then y else y') := by
  by_cases h : c
  · simpa [h] using hx h
  · simpa [h] using hy h

theorem ret {s' : ScriptState} (h : GoesOn crypto s s') :
    OpMeets crypto opcode s t (pure s') (some s') :=
  ⟨rfl, .of_keeps h rfl, .refl _ _ _⟩

theorem fails : OpMeets crypto opcode s t (halt .returnFalse) none :=
  ⟨rfl, .inl rfl, .refl _ _ _⟩

end OpMeets

/-- `OP_VERIFY` takes the top element from the stack. -/
theorem execVerify_meets (ctx : ScriptContext) (s : ScriptState) (t : EvalTally) :
    OpMeets ctx.crypto OP_VERIFY s t (execOp ctx OP_VERIFY s) (Spec.execOp ctx OP_VERIFY s) := by
  obtain ⟨pc, code, stack, altstack, vfExec, nOpCount⟩ := s
  cases stack with
  | nil => exact OpMeets.fails
  | cons vch stack =>
      have hnew : execOp ctx OP_VERIFY ⟨pc, code, vch :: stack, altstack, vfExec, nOpCount⟩ =
          uncounted (if CastToBool vch then .ok ⟨pc, code, stack, altstack, vfExec, nOpCount⟩
            else .error .returnFalse) := rfl
      have hold : Spec.execOp ctx OP_VERIFY
          ⟨pc, code, vch :: stack, altstack, vfExec, nOpCount⟩ =
          if CastToBool vch then some ⟨pc, code, stack, altstack, vfExec, nOpCount⟩
          else none := rfl
      rw [hnew, hold]
      cases CastToBool vch with
      | false => exact OpMeets.fails
      | true =>
          exact OpMeets.ret ⟨rfl, rfl, fun _ hshort => hshort.of_stack fun x hx =>
            .inl (List.mem_cons_of_mem _ hx)⟩

theorem execOp_meets {ctx : ScriptContext} {opcode : ℕ}
    (hlock : ¬ isLockTime opcode) (s : ScriptState) (t : EvalTally) :
    OpMeets ctx.crypto opcode s t (execOp ctx opcode s) (Spec.execOp ctx opcode s) := by
  by_cases hverify : opcode = OP_VERIFY
  · subst hverify
    exact execVerify_meets ctx s t
  unfold execOp Spec.execOp
  refine .ite (fun _ => .ret (keeps_push (short_serialize _) fun x hx => hx)) fun _ =>
    .ite (fun _ => .ret ⟨rfl, rfl, fun _ => id⟩) fun _ =>
    .ite (fun _ => meets_of_agrees t (execBranch_agrees opcode s) (execBranch_keeps opcode s))
      fun _ =>
    .ite (fun h => absurd h hverify) fun _ =>
    .ite (fun _ => .fails) fun _ =>
    .ite (fun _ => meets_of_agrees t (execStack_agrees opcode s) (execStack_keeps opcode s))
      fun _ =>
    .ite (fun _ => meets_of_agrees t (execNumeric_agrees opcode s) (execNumeric_keeps opcode s))
      fun _ =>
    .ite (fun _ => meets_of_agrees t (execHash_agrees ctx.crypto opcode s)
      (execHash_keeps opcode s)) fun _ =>
    .ite (fun _ => .ret ⟨rfl, rfl, fun _ => id⟩) fun _ =>
    .ite (fun hop => execCheckSig_meets ctx s t hop) fun hsig =>
    .ite (fun hop => ?_) fun _ => ?_
  · have hkeeps := execCheckMultiSig_keeps ctx opcode s
    have hcosts : ∀ {t'}, KeyCosts s.stack s.nOpCount t t' → OpCosts opcode s t t' := by
      intro t' h
      refine ⟨?_, ?_⟩
      · have hchecks := h.checks
        have htwenty := h.twenty
        rw [checksOf, if_neg hsig, if_pos hop]
        omega
      · rcases h.executed with h | ⟨h, hops⟩
        · exact .inl h
        · exact .inr (by omega)
    refine (execCheckMultiSig_meets ctx opcode s t).mono ?_ ?_
    · rintro s' t' ⟨hs', hops, hexecuted, hcost⟩
      exact ⟨hs', ⟨hkeeps s' hs', by omega⟩, hcosts hcost⟩
    · rintro e t' ⟨hnone, hquiet, hcost⟩
      exact ⟨hnone, hquiet, hcosts hcost⟩
  · have hno : ¬ (opcode = OP_CHECKLOCKTIME ∨ opcode = OP_CHECKLOCKTIMEVERIFY) := hlock
    rw [if_neg hno, if_neg hno]
    exact .fails

/-! ### The lock time -/

/-- The operand on the stack makes a lock time instruction read the input. -/
def ReadsInput (ctx : ScriptContext) (stack : List valtype) : Prop :=
  ∃ vch rest nLockTime, stack = vch :: rest ∧ CScriptNum.ofVch vch 5 = some nLockTime ∧
    0 ≤ nLockTime ∧ nLockTime ≤ (ctx.txTo.nLockTime : ℤ) ∧
    ¬ (LOCKTIME_THRESHOLD ≤ (ctx.txTo.nLockTime : ℤ) ∧ nLockTime < LOCKTIME_THRESHOLD)

/-- A lock time instruction fails quietly, unless it reads an input that is not
there. -/
theorem execCheckLockTime_ends (ctx : ScriptContext) (opcode : ℕ) (s : ScriptState) :
    Ends (execCheckLockTime ctx opcode s) (fun s' => GoesOn ctx.crypto s s' ∧
        (ReadsInput ctx s.stack → ctx.nIn < ctx.txTo.vin.length))
      fun e => e.Quiet ∧ (ReadsInput ctx s.stack → ctx.nIn < ctx.txTo.vin.length) ∨
        e = .vinOutOfRange ∧ ReadsInput ctx s.stack ∧ ctx.txTo.vin.length ≤ ctx.nIn := by
  unfold execCheckLockTime
  rcases hs : s.stack with _ | ⟨vch, rest⟩
  · have hno : ¬ ReadsInput ctx [] := by
      rintro ⟨_, _, _, h, -⟩
      cases h
    exact .inl ⟨.inl rfl, fun h => absurd h hno⟩
  have hone : 1 ≤ (vch :: rest).length := by simp
  simp only [require_true hone, stacktop_one, popstack_cons, Outcome.ok_bind, operand]
  cases hn : CScriptNum.ofVch vch 5 with
  | none =>
      have hno : ¬ ReadsInput ctx (vch :: rest) := by
        rintro ⟨vch', rest', n, hcons, hn', _⟩
        injection hcons with hvch _
        rw [← hvch, hn] at hn'
        cases hn'
      exact .inl ⟨.inr rfl, fun h => absurd h hno⟩
  | some n =>
  have hreads : ReadsInput ctx (vch :: rest) ↔ 0 ≤ n ∧ n ≤ (ctx.txTo.nLockTime : ℤ) ∧
      ¬ (LOCKTIME_THRESHOLD ≤ (ctx.txTo.nLockTime : ℤ) ∧ n < LOCKTIME_THRESHOLD) := by
    constructor
    · rintro ⟨vch', rest', n', hcons, hn', h⟩
      injection hcons with hvch _
      rw [← hvch, hn] at hn'
      exact Option.some.inj hn' ▸ h
    · exact fun h => ⟨vch, rest, n, rfl, hn, h⟩
  simp only [Outcome.ok_bind]
  by_cases hpos : 0 ≤ n
  swap
  · rw [require_false hpos]
    exact .inl ⟨.inl rfl, fun h => absurd (hreads.mp h).1 hpos⟩
  by_cases hkind : ¬ (((ctx.txTo.nLockTime : ℤ) < LOCKTIME_THRESHOLD ∧ LOCKTIME_THRESHOLD ≤ n) ∨
      (LOCKTIME_THRESHOLD ≤ (ctx.txTo.nLockTime : ℤ) ∧ n < LOCKTIME_THRESHOLD))
  swap
  · rw [require_true hpos, require_false hkind]
    refine .inl ⟨.inl rfl, fun h => ?_⟩
    have hall := hreads.mp h
    rcases not_not.mp hkind with hkind | hkind
    · omega
    · exact absurd hkind hall.2.2
  rw [require_true hpos, require_true hkind]
  have hsub : ∀ x ∈ rest, x ∈ s.stack := fun x hx => by simp [hs, hx]
  have hend : ∀ fValue, (ReadsInput ctx (vch :: rest) → ctx.nIn < ctx.txTo.vin.length) →
      Ends (pushOutcome s rest (opcode == OP_CHECKLOCKTIMEVERIFY) fValue)
        (fun s' => GoesOn ctx.crypto s s' ∧
          (ReadsInput ctx (vch :: rest) → ctx.nIn < ctx.txTo.vin.length))
        fun e => e.Quiet ∧ (ReadsInput ctx (vch :: rest) → ctx.nIn < ctx.txTo.vin.length) ∨
          e = .vinOutOfRange ∧ ReadsInput ctx (vch :: rest) ∧
            ctx.txTo.vin.length ≤ ctx.nIn := by
    intro fValue hin
    exact Ends.mono (pushOutcome_agrees s rest _ fValue)
      (fun s' hs' => ⟨pushOrVerify_keeps _ _ hsub s' hs', hin⟩) fun e he => .inl ⟨he.2, hin⟩
  by_cases hle : n ≤ (ctx.txTo.nLockTime : ℤ)
  · have hread : ReadsInput ctx (vch :: rest) := hreads.mpr ⟨hpos, hle, fun h => hkind (.inr h)⟩
    simp only [Outcome.ok_bind, if_pos hle]
    cases hin : ctx.txTo.vin[ctx.nIn]? with
    | none => exact .inr ⟨rfl, hread, List.getElem?_eq_none_iff.mp hin⟩
    | some txin => exact hend _ fun _ => (List.getElem?_eq_some_iff.mp hin).1
  · simp only [Outcome.ok_bind, if_neg hle]
    exact hend _ fun h => absurd (hreads.mp h).2.1 hle

/-- A lock time instruction that reads the input finds it. -/
def FindsInput (ctx : ScriptContext) (opcode : ℕ) (stack : List valtype) : Prop :=
  isLockTime opcode → ReadsInput ctx stack → ctx.nIn < ctx.txTo.vin.length

/-- Ways an instruction can stop: quietly, or for an input that is not there. -/
def Stops (ctx : ScriptContext) (opcode : ℕ) (stack : List valtype) (e : Halt) : Prop :=
  e.Quiet ∧ FindsInput ctx opcode stack ∨
    e = .vinOutOfRange ∧ isLockTime opcode ∧ ReadsInput ctx stack ∧
      ctx.txTo.vin.length ≤ ctx.nIn

theorem execOp_lock {opcode : ℕ} (h : isLockTime opcode) (ctx : ScriptContext)
    (s : ScriptState) : execOp ctx opcode s = uncounted (execCheckLockTime ctx opcode s) := by
  rcases h with rfl | rfl <;> rfl

/-- Every instruction. -/
theorem execOp_ends {ctx : ScriptContext} (opcode : ℕ)
    (s : ScriptState) (t : EvalTally) :
    Achieves (execOp ctx opcode s)
      (fun s' t' => OpDone ctx.crypto s t s' t' ∧ OpCosts opcode s t t' ∧
        FindsInput ctx opcode s.stack)
      (fun e t' => OpCosts opcode s t t' ∧ Stops ctx opcode s.stack e) t := by
  by_cases hlock : isLockTime opcode
  · rw [execOp_lock hlock, Achieves.uncounted_iff]
    refine (execCheckLockTime_ends ctx opcode s).mono (fun s' hs' => ?_) fun e he => ?_
    · exact ⟨.of_keeps hs'.1 rfl, .refl _ _ _, fun _ => hs'.2⟩
    · refine ⟨.refl _ _ _, ?_⟩
      rcases he with ⟨hquiet, hfinds⟩ | ⟨he, hreads⟩
      · exact .inl ⟨hquiet, fun _ => hfinds⟩
      · exact .inr ⟨he, hlock, hreads⟩
  · have hno : FindsInput ctx opcode s.stack := fun h => absurd h hlock
    exact (execOp_meets hlock s t).mono
      (fun s' t' hs' => ⟨hs'.2.1, hs'.2.2, hno⟩) fun e t' he => ⟨he.2.2, .inl ⟨he.2.1, hno⟩⟩

/-! ### Rounds of the loop -/

/-- A round reads an instruction, within the limits, and dispatches it. -/
theorem evalStep_meets {ctx : ScriptContext} {s : ScriptState} {t : EvalTally}
    {Q : ScriptState → EvalTally → Prop} {E : Halt → EvalTally → Prop} (hfail : E .returnFalse t)
    (hdispatch : ∀ opcode vch pc nOpCount, getOp s.pc = some (opcode, vch, pc) →
      vch.length ≤ MAX_SCRIPT_ELEMENT_SIZE →
      nOpCount = (if OP_16 < opcode then s.nOpCount + 1 else s.nOpCount) →
      (OP_16 < opcode → nOpCount ≤ 201) → opcode ∉ disabledOpcodes →
      Achieves (dispatch ctx opcode vch { s with pc, nOpCount })
        (fun s' t' => (1000 < s'.stack.length + s'.altstack.length → E .returnFalse t') ∧
          (s'.stack.length + s'.altstack.length ≤ 1000 → Q s' t')) E t) :
    Achieves (evalStep ctx s) Q E t := by
  unfold evalStep
  cases hop : getOp s.pc with
  | none => exact hfail
  | some x =>
      obtain ⟨opcode, vch, pc⟩ := x
      refine Achieves.ite (fun _ => hfail) fun hvch => Achieves.ite (fun _ => hfail) fun hops =>
        Achieves.ite (fun _ => hfail) fun henabled => ?_
      refine Achieves.bind (hdispatch opcode vch pc _ hop (by omega) rfl (fun h => ?_) henabled)
        fun s' t' hs' => Achieves.ite (fun hlong => hs'.1 hlong) fun hlong => hs'.2 (by omega)
      by_contra hmany
      exact hops ⟨h, by omega⟩

/-- What every round keeps, the loop keeps, and it comes to the end of the script. -/
theorem evalLoop_meets {ctx : ScriptContext} {I : ScriptState → EvalTally → Prop}
    {E : Halt → EvalTally → Prop}
    (hstep : ∀ s t, I s t → s.pc ≠ [] →
      Achieves (evalStep ctx s) (fun s' t' => I s' t' ∧ s'.pc.length < s.pc.length) E t) :
    ∀ {fuel : ℕ} {s : ScriptState} {t : EvalTally}, s.pc.length ≤ fuel → I s t →
      Achieves (evalLoop ctx fuel s) (fun s' t' => I s' t' ∧ s'.pc = []) E t := by
  intro fuel
  induction fuel with
  | zero =>
      intro s t hlen hI
      have hnil : s.pc = [] := List.length_eq_zero_iff.mp (by omega)
      unfold evalLoop
      rw [if_pos hnil]
      exact ⟨hI, hnil⟩
  | succ fuel ih =>
      intro s t hlen hI
      unfold evalLoop
      refine Achieves.ite (fun hnil => ⟨hI, hnil⟩) fun hmore => ?_
      exact Achieves.bind (hstep s t hI hmore) fun s' t' hs' => ih (by omega) hs'.1

theorem ne_assertion_of_stops {ctx : ScriptContext} {opcode : ℕ} {stack : List valtype}
    {e : Halt} (h : Stops ctx opcode stack e) : e ≠ .assertion := by
  rcases h with ⟨hquiet, -⟩ | ⟨rfl, -⟩
  · rcases hquiet with rfl | rfl <;> exact Halt.noConfusion
  · exact Halt.noConfusion

/-- A round reads at least one byte, and no assertion fails in it. -/
theorem evalStep_reads {ctx : ScriptContext} (s : ScriptState) (t : EvalTally) :
    Achieves (evalStep ctx s) (fun s' _ => s'.pc.length < s.pc.length)
      (fun e _ => e ≠ .assertion) t := by
  have hfail : Halt.returnFalse ≠ .assertion := Halt.noConfusion
  refine evalStep_meets hfail fun opcode vch pc nOpCount hop _ _ _ _ => ?_
  have hlen := length_getOp hop
  unfold dispatch
  refine Achieves.ite (fun _ => ⟨fun _ => hfail, fun _ => hlen⟩) fun _ =>
    Achieves.ite (fun _ => ?_) fun _ => ⟨fun _ => hfail, fun _ => hlen⟩
  rw [Achieves.bind_iff, Achieves.tick_iff]
  refine (execOp_ends opcode { s with pc, nOpCount } _).mono ?_
    fun _ _ he => ne_assertion_of_stops he.2
  rintro s' t' ⟨hs', -⟩
  refine ⟨fun _ => hfail, fun _ => ?_⟩
  rw [hs'.keeps.pc]
  exact hlen

/-- No assertion fails in an evaluation. -/
theorem evalScript_noAssertion (ctx : ScriptContext) (stack : List valtype) (script : CScript)
    (t : EvalTally) :
    Achieves (EvalScript ctx stack script) (fun _ _ => True) (fun e _ => e ≠ .assertion) t := by
  have hfail : Halt.returnFalse ≠ .assertion := Halt.noConfusion
  unfold EvalScript
  refine Achieves.ite (fun _ => hfail) fun _ => ?_
  have hstep : ∀ (s : ScriptState) (t : EvalTally), Achieves (evalStep ctx s)
      (fun s' _ => True ∧ s'.pc.length < s.pc.length) (fun e _ => e ≠ .assertion) t :=
    fun s t => (evalStep_reads s t).mono (fun _ _ h => ⟨trivial, h⟩) fun _ _ h => h
  refine Achieves.bind (evalLoop_meets (I := fun _ _ => True) (fun s t _ _ => hstep s t) le_rfl
    trivial) fun s t' _ => ?_
  exact Achieves.ite (fun _ => trivial) fun _ => hfail

/-! ### Limits -/

/-- The limits of an evaluation. -/
structure InLimits (s : ScriptState) (t : EvalTally) : Prop where
  executed : t.executed ≤ s.nOpCount
  nOpCount : s.nOpCount ≤ 201
  short : Short s
  room : s.stack.length + s.altstack.length ≤ 1000

/-- An evaluation that fails within its limits: from no access to a stack and from no
assertion. -/
def FailsInLimits (e : Halt) (t : EvalTally) : Prop :=
  (e.Quiet ∨ e = .vinOutOfRange) ∧ t.executed ≤ 201

/-- One round stays within the limits. -/
theorem evalStep_inLimits {ctx : ScriptContext} (hsizes : HashSizes ctx.crypto)
    (s : ScriptState) (t : EvalTally) (h : InLimits s t) :
    Achieves (evalStep ctx s) (fun s' t' => InLimits s' t' ∧ s'.pc.length < s.pc.length)
      FailsInLimits t := by
  have hexecuted := h.executed
  have hopCount := h.nOpCount
  have hfail : ∀ t', t'.executed ≤ 201 → FailsInLimits .returnFalse t' :=
    fun t' ht' => ⟨.inl (.inl rfl), ht'⟩
  refine evalStep_meets (hfail t (by omega)) fun opcode vch pc nOpCount hop hvch hcount hmany _ =>
    ?_
  have hlen := length_getOp hop
  have hcount' : nOpCount = s.nOpCount + (if OP_16 < opcode then 1 else 0) := by
    rw [hcount]
    split <;> rfl
  have hnew : nOpCount ≤ 201 := by
    by_cases h16 : OP_16 < opcode
    · exact hmany h16
    · rw [hcount, if_neg h16]
      exact hopCount
  set read : ScriptState := { s with pc, nOpCount } with hread
  have hshort : Short read := h.short
  -- the instruction is counted before it is executed
  have hdone : ∀ s' t', OpDone ctx.crypto read { t with
        executed := t.executed + (if OP_16 < opcode then 1 else 0) } s' t' →
      s'.nOpCount ≤ 201 →
      (1000 < s'.stack.length + s'.altstack.length → FailsInLimits .returnFalse t') ∧
        (s'.stack.length + s'.altstack.length ≤ 1000 →
          InLimits s' t' ∧ s'.pc.length < s.pc.length) := by
    intro s' t' hs' hle
    have hcounted := hs'.counted
    have hwithin : t'.executed ≤ s'.nOpCount := by
      simp only [hread] at hcounted
      omega
    refine ⟨fun _ => hfail t' (hwithin.trans hle), fun hroom =>
      ⟨⟨hwithin, hle, hs'.keeps.short hsizes hshort, hroom⟩, ?_⟩⟩
    rw [hs'.keeps.pc]
    exact hlen
  have hkept : ∀ {s'}, GoesOn ctx.crypto read s' →
      (1000 < s'.stack.length + s'.altstack.length → FailsInLimits .returnFalse t) ∧
        (s'.stack.length + s'.altstack.length ≤ 1000 →
          InLimits s' t ∧ s'.pc.length < s.pc.length) := by
    intro s' hs'
    have hops := hs'.nOpCount
    refine ⟨fun _ => hfail t (by omega), fun hroom =>
      ⟨⟨by simp only [hread] at hops; omega, by simp only [hread] at hops; omega,
        hs'.short hsizes hshort, hroom⟩, ?_⟩⟩
    rw [hs'.pc]
    exact hlen
  unfold dispatch
  refine Achieves.ite (fun _ => hkept (keeps_push hvch fun x hx => hx)) fun _ =>
    Achieves.ite (fun _ => ?_) fun _ => hkept ⟨rfl, rfl, fun _ => id⟩
  rw [Achieves.bind_iff, Achieves.tick_iff]
  refine (execOp_ends opcode read _).mono ?_ ?_
  · rintro s' t' ⟨hs', hcosts, -⟩
    refine hdone s' t' hs' ?_
    have hcounted := hs'.counted
    have hread_ops : read.nOpCount = nOpCount := rfl
    rcases hcosts.executed with h | h <;> omega
  · rintro e t' ⟨hcosts, hstops⟩
    refine ⟨?_, ?_⟩
    · rcases hstops with ⟨hquiet, -⟩ | ⟨he, -⟩
      · exact .inl hquiet
      · exact .inr he
    · have hread_ops : read.nOpCount = nOpCount := rfl
      rcases hcosts.executed with h | h <;> simp only at h <;> omega

/-- **An evaluation stays within its limits.**  From a stack of at most 1000 short
elements, whatever the script: no stack is accessed outside of its size, no assertion
fails, at most 201 instructions are executed, and an evaluation that succeeds ends
outside of every branch with at most 1000 short elements. -/
theorem evalScript_safe {ctx : ScriptContext} (hsizes : HashSizes ctx.crypto)
    {stack : List valtype} {script : CScript} (hroom : stack.length ≤ 1000)
    (hshort : ∀ x ∈ stack, x.length ≤ MAX_SCRIPT_ELEMENT_SIZE) :
    Achieves (EvalScript ctx stack script)
      (fun s t => s.pc = [] ∧ s.vfExec = [] ∧ InLimits s t) FailsInLimits {} := by
  unfold EvalScript
  refine Achieves.ite (fun _ => ⟨.inl (.inl rfl), Nat.zero_le _⟩) fun _ => ?_
  have hstart : InLimits (evalStart stack script) {} :=
    ⟨Nat.zero_le _, Nat.zero_le _, ⟨hshort, fun _ hx => absurd hx List.not_mem_nil⟩,
      by simpa [evalStart] using hroom⟩
  refine Achieves.bind (evalLoop_meets (I := InLimits)
    (fun s t h _ => evalStep_inLimits hsizes s t h) le_rfl hstart) ?_
  rintro s t ⟨h, hend⟩
  refine Achieves.ite (fun hbranches => ⟨hend, hbranches, h⟩) fun _ => ?_
  exact ⟨.inl (.inl rfl), h.executed.trans h.nOpCount⟩

/-- Hash functions that return zeros. -/
def zeroCrypto : Crypto where
  Hash _ := 0
  HashZR5 _ := 0
  Hash160 _ := List.replicate 20 0
  RIPEMD160 _ := List.replicate 20 0
  SHA1 _ := List.replicate 20 0
  SHA256 _ := List.replicate 32 0
  Verify _ _ _ := false

theorem zeroCrypto_sizes : HashSizes zeroCrypto :=
  ⟨fun _ => List.length_replicate, fun _ => List.length_replicate,
    fun _ => List.length_replicate, fun _ => List.length_replicate⟩

/-- `OP_IF OP_HASH160 OP_ENDIF` on two elements. -/
theorem evalScript_safe_branch :
    Achieves (EvalScript ⟨zeroCrypto, CTransaction.default, 0, SCRIPT_VERIFY_NONE⟩ [[1], [2, 3]]
        [0x63, 0xa9, 0x68])
      (fun s t => s.pc = [] ∧ s.vfExec = [] ∧ InLimits s t) FailsInLimits {} :=
  evalScript_safe zeroCrypto_sizes (by decide) (by decide)

end Machine
end Ziftrcoin.Spec
