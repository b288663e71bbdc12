/-
Module: Ziftrcoin.Proofs.MultisigMatching
Purpose: `OP_CHECKMULTISIG` decides whether its signatures can be matched in order
  with its keys.  Its moving offsets read two segments of the stack, and the loop
  over them is the greedy matching of two lists.
Trusted boundary: none
Main exports: ask_exec, execCheckMultiSig_meets
-/
import Ziftrcoin.Lib.Matching
import Ziftrcoin.Proofs.ScriptMachine

namespace Ziftrcoin.Spec

open Ziftrcoin.Lib Ziftrcoin.Lib.Tallied

namespace Machine

/-- One tally after another one, with so many more calls of `CheckSig`. -/
def called (t : EvalTally) (n : ℕ) : EvalTally := { t with checks := t.checks + n }

/-- Whether a pair of a signature and a key costs a call of `CheckSig`. -/
def SigChecker.cost (k : SigChecker) (vchSig vchPubKey : valtype) : ℕ :=
  if k.canonical vchSig vchPubKey then 1 else 0

theorem SigChecker.cost_le (k : SigChecker) (vchSig vchPubKey : valtype) :
    k.cost vchSig vchPubKey ≤ 1 := by
  unfold SigChecker.cost
  split <;> omega

theorem ask_exec (k : SigChecker) (scriptCode : CScript) (vchSig vchPubKey : valtype)
    (t : EvalTally) :
    exec (k.ask scriptCode vchSig vchPubKey) t =
      (.ok (k.ok scriptCode vchSig vchPubKey), called t (k.cost vchSig vchPubKey)) := by
  unfold SigChecker.ask SigChecker.ok SigChecker.cost
  cases k.canonical vchSig vchPubKey with
  | true => rfl
  | false => rfl

/-! ### Segments of the stack -/

section
variable {stack rest : List valtype} {x : valtype} {xs : List valtype} {i : ℕ}

/-- The element at the start of a segment. -/
theorem stacktop_drop (h : stack.drop i = x :: rest) : stacktop stack (i + 1) = .ok x := by
  have hlt : i < stack.length := by
    by_contra hge
    rw [List.drop_eq_nil_of_le (by omega)] at h
    cases h
  rw [stacktop_of_lt hlt]
  rw [List.drop_eq_getElem_cons hlt] at h
  injection h with h _
  rw [h]

theorem drop_succ_of_drop (h : stack.drop i = x :: rest) : stack.drop (i + 1) = rest := by
  rw [← List.drop_drop, h]
  rfl

theorem dropSigs_exec {scriptCode : CScript} (h : stack.drop i = xs ++ rest) :
    dropSigs stack xs.length (i + 1) scriptCode =
      .ok (xs.foldl (fun code vchSig => code.FindAndDelete (pushData vchSig)) scriptCode) := by
  induction xs generalizing i scriptCode with
  | nil => rfl
  | cons x xs ih =>
      rw [List.length_cons, dropSigs, stacktop_drop h]
      exact ih (drop_succ_of_drop h)

end

/-! ### The loop -/

/-- Calls of `CheckSig` in the greedy matching. -/
def greedyCalls (k : SigChecker) (scriptCode : CScript) : (sigs keys : List valtype) → ℕ
  | [], _ => 0
  | _ :: _, [] => 0
  | sig :: sigs, key :: keys =>
      let left := if k.ok scriptCode sig key then sigs else sig :: sigs
      k.cost sig key +
        if keys.length < left.length then 0 else greedyCalls k scriptCode left keys

/-- Each key is tried once. -/
theorem greedyCalls_le (k : SigChecker) (scriptCode : CScript) (sigs keys : List valtype) :
    greedyCalls k scriptCode sigs keys ≤ keys.length := by
  induction keys generalizing sigs with
  | nil => cases sigs <;> exact le_rfl
  | cons key keys ih =>
      cases sigs with
      | nil => exact Nat.zero_le _
      | cons sig sigs =>
          have hcost := k.cost_le sig key
          have hrest := ih (if k.ok scriptCode sig key then sigs else sig :: sigs)
          simp only [greedyCalls, List.length_cons]
          split_ifs at hrest ⊢ <;> omega

/-- The loop over two segments of the stack is the greedy matching of their
elements. -/
theorem multisigLoop_exec (k : SigChecker) {stack : List valtype} (scriptCode : CScript)
    {keys : List valtype} :
    ∀ {sigs under below : List valtype} {i j : ℕ} (t : EvalTally),
      stack.drop i = keys ++ under → stack.drop j = sigs ++ below →
      sigs.length ≤ keys.length →
        exec (multisigLoop k stack scriptCode keys.length sigs.length (i + 1) (j + 1)) t =
          (.ok (greedy (k.ok scriptCode) sigs keys),
            called t (greedyCalls k scriptCode sigs keys)) := by
  induction keys with
  | nil =>
      intro sigs under below i j t _ _ hle
      obtain rfl : sigs = [] := List.length_eq_zero_iff.mp (by simpa using hle)
      rfl
  | cons key keys ih =>
      intro sigs under below i j t hkeys hsigs hle
      cases sigs with
      | nil => rfl
      | cons sig sigs =>
          have hnext := drop_succ_of_drop hkeys
          simp only [List.length_cons, multisigLoop, stacktop_drop hsigs, stacktop_drop hkeys,
            exec_bind, exec_uncounted, continue_, ask_exec, greedy, greedyCalls]
          cases hok : k.ok scriptCode sig key with
          | true =>
              have hshort : ¬ keys.length < sigs.length := by
                simp only [List.length_cons] at hle
                omega
              simp only [if_true, if_neg hshort]
              rw [ih _ hnext (drop_succ_of_drop hsigs) (by omega)]
              simp [called, Nat.add_assoc]
          | false =>
              simp only [Bool.false_eq_true, if_false, List.length_cons]
              by_cases hshort : keys.length < sigs.length + 1
              · simp only [if_pos hshort]
                rfl
              · simp only [if_neg hshort]
                have hrest := @ih (sig :: sigs) under below (i + 1) j
                  (called t (k.cost sig key)) hnext hsigs (by rw [List.length_cons]; omega)
                rw [List.length_cons] at hrest
                rw [hrest]
                simp [called, Nat.add_assoc]

/-! ### The instruction -/

/-- The script code that the signatures are checked against. -/
def scriptCodeWithout (sigs : List valtype) (scriptCode : CScript) : CScript :=
  sigs.foldl (fun code vchSig => code.FindAndDelete (pushData vchSig)) scriptCode

/-- Clamping changes no small number. -/
theorem getint_eq_self {bn : ℤ} (h : 0 ≤ CScriptNum.getint bn ∧ CScriptNum.getint bn ≤ 20) :
    CScriptNum.getint bn = bn := by
  unfold CScriptNum.getint at h ⊢
  split_ifs at h ⊢ <;> omega

/-- With the counts, the keys, the signatures and one element more on the stack, the
instruction takes all of them and leaves the outcome of the greedy matching. -/
theorem execCheckMultiSig_exec (k : SigChecker) (opcode : ℕ) {s : ScriptState} (t : EvalTally)
    {number count dummy : valtype} {keys sigs rest : List valtype}
    (hstack : s.stack = number :: (keys ++ count :: (sigs ++ dummy :: rest)))
    (hnumber : CScriptNum.ofVch number 4 = some (keys.length : ℤ))
    (hcount : CScriptNum.ofVch count 4 = some (sigs.length : ℤ))
    (hle : sigs.length ≤ keys.length) (hkeys : keys.length ≤ 20)
    (hops : s.nOpCount + keys.length ≤ 201) :
    exec (execCheckMultiSig k opcode s) t =
      (pushOutcome { s with nOpCount := s.nOpCount + keys.length } rest
        (opcode == OP_CHECKMULTISIGVERIFY)
        (greedy (k.ok (scriptCodeWithout sigs s.pbegincodehash)) sigs keys),
      called { t with executed := t.executed + keys.length }
        (greedyCalls k (scriptCodeWithout sigs s.pbegincodehash) sigs keys)) := by
  have hlen : s.stack.length = keys.length + sigs.length + 3 + rest.length := by
    rw [hstack]
    simp only [List.length_cons, List.length_append]
    omega
  have hdropKeys : s.stack.drop 1 = keys ++ count :: (sigs ++ dummy :: rest) := by
    rw [hstack]
    rfl
  have hdropCount : s.stack.drop (1 + keys.length) = count :: (sigs ++ dummy :: rest) := by
    rw [← List.drop_drop, hdropKeys, List.drop_left' rfl]
  have hdropSigs : s.stack.drop (1 + keys.length + 1) = sigs ++ dummy :: rest :=
    drop_succ_of_drop hdropCount
  have hdropRest : s.stack.drop (1 + 1 + keys.length + 1 + sigs.length) = rest := by
    have hindex : 1 + 1 + keys.length + 1 + sigs.length =
        1 + keys.length + 1 + sigs.length + 1 := by omega
    rw [hindex, ← List.drop_drop, ← List.drop_drop, hdropSigs, List.drop_left' rfl]
    rfl
  have htop : stacktop s.stack 1 = .ok number := by rw [hstack]; rfl
  have htopCount : stacktop s.stack (1 + 1 + keys.length) = .ok count := by
    have hindex : 1 + 1 + keys.length = 1 + keys.length + 1 := by omega
    rw [hindex]
    exact stacktop_drop hdropCount
  have hloop := multisigLoop_exec k (scriptCodeWithout sigs s.pbegincodehash)
    { t with executed := t.executed + keys.length } hdropKeys hdropSigs hle
  have hcode : dropSigs s.stack sigs.length (1 + keys.length + 1 + 1) s.pbegincodehash =
      .ok (scriptCodeWithout sigs s.pbegincodehash) := dropSigs_exec hdropSigs
  have hindex : 1 + 1 + keys.length + 1 = 1 + keys.length + 1 + 1 := by omega
  have hnumberOk : operand number 4 = .ok (keys.length : ℤ) := by simp [operand, hnumber]
  have hcountOk : operand count 4 = .ok (sigs.length : ℤ) := by simp [operand, hcount]
  have hrange : (0 : ℤ) ≤ keys.length ∧ (keys.length : ℤ) ≤ 20 := by omega
  have hrangeSigs : (0 : ℤ) ≤ sigs.length ∧ (sigs.length : ℤ) ≤ keys.length := by omega
  have hone : 1 ≤ s.stack.length := by omega
  have hmore : 1 + 1 + keys.length ≤ s.stack.length := by omega
  have hall : 1 + 1 + keys.length + 1 + sigs.length ≤ s.stack.length := by omega
  simp only [execCheckMultiSig, exec_bind, exec_uncounted, exec_tick, continue_, htop,
    hnumberOk, getint_of_le hkeys, getint_of_le (hle.trans hkeys), Int.toNat_natCast,
    require_true hone, require_true hrange, require_true hops, require_true hmore,
    require_true hrangeSigs, require_true hall, htopCount, hcountOk, popTimes_le hall, hdropRest,
    Outcome.ok_bind]
  rw [hindex, hcode]
  simp only [hloop]

/-- What the instruction takes from the stack, the top first: the number of keys, the
keys, the number of signatures, the signatures, and one element that is not used. -/
def multisigArguments (number : valtype) (keys : List valtype) (count : valtype)
    (sigs : List valtype) (dummy : valtype) : List valtype :=
  number :: (keys ++ count :: (sigs ++ [dummy]))

/-- `OP_CHECKMULTISIG` takes its arguments, and only them, and leaves true exactly when
the signatures have keys of their own in the same order.  Nothing depends on what lies
below, also when nothing does.  The keys count as instructions: with too many of them
the evaluation fails. -/
theorem execCheckMultiSig_decides (k : SigChecker) (s : ScriptState) (t : EvalTally)
    {number count dummy : valtype} {keys sigs : List valtype}
    (hnumber : CScriptNum.ofVch number 4 = some (keys.length : ℤ))
    (hcount : CScriptNum.ofVch count 4 = some (sigs.length : ℤ))
    (hle : sigs.length ≤ keys.length) (hkeys : keys.length ≤ 20) :
    (multisigArguments number keys count sigs dummy).length = keys.length + sigs.length + 3 ∧
    (201 < s.nOpCount + keys.length → ∀ rest,
      exec (execCheckMultiSig k OP_CHECKMULTISIG
        { s with stack := multisigArguments number keys count sigs dummy ++ rest }) t =
          (.error .returnFalse, t)) ∧
    (s.nOpCount + keys.length ≤ 201 → ∃ (fSuccess : Bool) (calls : ℕ), calls ≤ keys.length ∧
      (fSuccess = true ↔ ∃ f : Fin sigs.length → Fin keys.length, StrictMono f ∧
        ∀ i, k.ok (scriptCodeWithout sigs s.pbegincodehash) (sigs.get i) (keys.get (f i)) =
          true) ∧
      ∀ rest, exec (execCheckMultiSig k OP_CHECKMULTISIG
        { s with stack := multisigArguments number keys count sigs dummy ++ rest }) t =
          (.ok { s with
            stack := (if fSuccess then vchTrue else vchFalse) :: rest,
            nOpCount := s.nOpCount + keys.length },
          { executed := t.executed + keys.length, checks := t.checks + calls })) := by
  refine ⟨?_, fun hops rest => ?_, fun hops => ?_⟩
  · simp only [multisigArguments, List.length_cons, List.length_append, List.length_nil]
    omega
  · have htop : ∀ below, stacktop (multisigArguments number keys count sigs dummy ++ below) 1 =
        .ok number := fun _ => rfl
    have hone : 1 ≤ (multisigArguments number keys count sigs dummy ++ rest).length := by
      simp [multisigArguments]
    have hnumberOk : operand number 4 = .ok (keys.length : ℤ) := by simp [operand, hnumber]
    have hrange : (0 : ℤ) ≤ keys.length ∧ (keys.length : ℤ) ≤ 20 := by omega
    have hmany : ¬ s.nOpCount + keys.length ≤ 201 := by omega
    simp only [execCheckMultiSig, exec_bind, exec_uncounted, continue_, htop, hnumberOk,
      getint_of_le hkeys, Int.toNat_natCast, require_true hone, require_true hrange,
      require_false hmany, Outcome.ok_bind]
  · have happend : ∀ rest, multisigArguments number keys count sigs dummy ++ rest =
        number :: (keys ++ count :: (sigs ++ dummy :: rest)) := by
      intro rest
      simp [multisigArguments]
    refine ⟨greedy (k.ok (scriptCodeWithout sigs s.pbegincodehash)) sigs keys,
      greedyCalls k (scriptCodeWithout sigs s.pbegincodehash) sigs keys,
      greedyCalls_le k _ sigs keys, ?_, fun rest => ?_⟩
    · rw [greedy_iff, matching_iff_strictMono]
    · have hexec := execCheckMultiSig_exec k OP_CHECKMULTISIG t
        (s := { s with stack := multisigArguments number keys count sigs dummy ++ rest })
        (happend rest) hnumber hcount hle hkeys hops
      rw [hexec]
      cases greedy (k.ok (scriptCodeWithout sigs s.pbegincodehash)) sigs keys <;> rfl

/-- A checker for which a signature fits the key that it equals. -/
def echoChecker : SigChecker where
  canonical _ _ := true
  CheckSig vchSig vchPubKey _ := vchSig == vchPubKey

/-- Two of three keys, with an element below that stays. -/
theorem execCheckMultiSig_decides_twoOfThree : ∃ calls ≤ 3,
    exec (execCheckMultiSig echoChecker OP_CHECKMULTISIG { evalStart [] [] with
      stack := multisigArguments [3] [[1], [2], [3]] [2] [[1], [3]] [] ++ [[9]] }) {} =
        (.ok { evalStart [] [] with stack := vchTrue :: [[9]], nOpCount := 3 },
          { executed := 3, checks := calls }) := by
  obtain ⟨fSuccess, calls, hcalls, hiff, hexec⟩ :=
    (@execCheckMultiSig_decides echoChecker (evalStart [] []) {} [3] [2] []
      [[1], [2], [3]] [[1], [3]] (by decide) (by decide) (by decide) (by decide)).2.2
        (by decide)
  have htrue : fSuccess = true := hiff.mpr ⟨fun i => if i = 0 then 0 else 2, by decide, by decide⟩
  subst htrue
  exact ⟨calls, hcalls, (hexec [[9]]).trans (by simp [evalStart])⟩

/-! ### The instruction on any stack -/

/-- The loop on lists is the greedy matching. -/
theorem multisigLoop_eq_greedy (ctx : ScriptContext) (scriptCode : CScript)
    (sigs keys : List valtype) :
    Spec.multisigLoop ctx scriptCode sigs keys =
      greedy ((checker ctx).ok scriptCode) sigs keys := by
  induction keys generalizing sigs with
  | nil => cases sigs <;> rfl
  | cons key keys ih =>
      cases sigs with
      | nil => rfl
      | cons sig sigs =>
          simp only [Spec.multisigLoop, greedy, ih]
          rfl

/-- The number of keys that the top of the stack asks for. -/
def keysAsked (stack : List valtype) : ℕ :=
  match stack with
  | [] => 0
  | number :: _ =>
      match CScriptNum.ofVch number 4 with
      | none => 0
      | some bnKeys => (CScriptNum.getint bnKeys).toNat

/-- What the keys of an instruction may cost. -/
structure KeyCosts (stack : List valtype) (nOpCount : ℕ) (t t' : EvalTally) : Prop where
  checks : t'.checks ≤ t.checks + keysAsked stack
  twenty : t'.checks ≤ t.checks + 20
  executed : t'.executed = t.executed ∨
    (t'.executed = t.executed + keysAsked stack ∧ nOpCount + keysAsked stack ≤ 201)

theorem KeyCosts.refl (stack : List valtype) (nOpCount : ℕ) (t : EvalTally) :
    KeyCosts stack nOpCount t t := ⟨by omega, by omega, .inl rfl⟩

theorem pushOrVerify_nOpCount {s s' : ScriptState} {verify fValue : Bool}
    (h : pushOrVerify s verify fValue = some s') : s'.nOpCount = s.nOpCount := by
  cases verify <;> cases fValue <;> simp [pushOrVerify, ScriptState.push] at h <;> simp [← h]

/-- An instruction that fails as it does on lists, and with no more costs. -/
theorem meets_fails {x : Eval ScriptState} {y : Option ScriptState} {e : Halt} {t u : EvalTally}
    {Q : ScriptState → EvalTally → Prop} {K : EvalTally → Prop} (hexec : exec x t = (.error e, u))
    (hold : y = none) (hquiet : e.Quiet) (hcosts : K u) :
    Achieves x (fun s' t' => y = some s' ∧ Q s' t') (fun e t' => y = none ∧ e.Quiet ∧ K t') t := by
  unfold Achieves
  rw [hexec]
  exact ⟨hold, hquiet, hcosts⟩

/-- With its segments on the stack, the instruction on lists looks for the signatures. -/
theorem execCheckMultiSig_segments (ctx : ScriptContext) (opcode : ℕ) {s : ScriptState}
    {number count dummy : valtype} {keys sigs rest : List valtype}
    (hstack : s.stack = number :: (keys ++ count :: (sigs ++ dummy :: rest)))
    (hnumber : CScriptNum.ofVch number 4 = some (keys.length : ℤ))
    (hcount : CScriptNum.ofVch count 4 = some (sigs.length : ℤ))
    (hle : sigs.length ≤ keys.length) (hkeys : keys.length ≤ 20)
    (hops : s.nOpCount + keys.length ≤ 201) :
    Spec.execCheckMultiSig ctx opcode s = pushOrVerify
      { s with stack := rest, nOpCount := s.nOpCount + keys.length }
      (opcode == OP_CHECKMULTISIGVERIFY)
      (Spec.multisigLoop ctx (scriptCodeWithout sigs s.pbegincodehash) sigs keys) := by
  have hkeysOk : ¬ ((keys.length : ℤ) < 0 ∨ 20 < (keys.length : ℤ)) := by omega
  have hopsOk : ¬ 201 < s.nOpCount + keys.length := by omega
  have hsigsOk : ¬ ((sigs.length : ℤ) < 0 ∨ (keys.length : ℤ) < (sigs.length : ℤ)) := by
    omega
  have hlong : ¬ (sigs ++ dummy :: rest).length < sigs.length + 1 := by
    rw [List.length_append, List.length_cons]
    omega
  have hbelow : (sigs ++ dummy :: rest).drop (sigs.length + 1) = rest := by
    rw [← List.drop_drop, List.drop_left]
    rfl
  simp only [Spec.execCheckMultiSig, hstack, scriptNum, hnumber, hcount, Option.bind_some,
    getint_of_le hkeys, getint_of_le (hle.trans hkeys), Int.toNat_natCast, if_neg hkeysOk,
    if_neg hopsOk, List.drop_left, List.take_left, if_neg hsigsOk, if_neg hlong, hbelow]
  rfl

/-- The instruction with its segments on the stack. -/
theorem execCheckMultiSig_meets_segments (ctx : ScriptContext) (opcode : ℕ) {s : ScriptState}
    (t : EvalTally) {number count dummy : valtype} {keys sigs rest : List valtype}
    (hstack : s.stack = number :: (keys ++ count :: (sigs ++ dummy :: rest)))
    (hnumber : CScriptNum.ofVch number 4 = some (keys.length : ℤ))
    (hcount : CScriptNum.ofVch count 4 = some (sigs.length : ℤ))
    (hle : sigs.length ≤ keys.length) (hkeys : keys.length ≤ 20)
    (hops : s.nOpCount + keys.length ≤ 201) :
    Achieves (execCheckMultiSig (checker ctx) opcode s)
      (fun s' t' => Spec.execCheckMultiSig ctx opcode s = some s' ∧
        s'.nOpCount = s.nOpCount + keysAsked s.stack ∧
        t'.executed = t.executed + keysAsked s.stack ∧ KeyCosts s.stack s.nOpCount t t')
      (fun e t' => Spec.execCheckMultiSig ctx opcode s = none ∧ e.Quiet ∧
        KeyCosts s.stack s.nOpCount t t') t := by
  have hasked : keysAsked s.stack = keys.length := by
    simp [keysAsked, hstack, hnumber, getint_of_le hkeys]
  have hexec := execCheckMultiSig_exec (checker ctx) opcode t hstack hnumber hcount hle hkeys hops
  have hcalls := greedyCalls_le (checker ctx) (scriptCodeWithout sigs s.pbegincodehash) sigs keys
  have hold := execCheckMultiSig_segments ctx opcode hstack hnumber hcount hle hkeys hops
  rw [multisigLoop_eq_greedy] at hold
  have hagree := pushOutcome_agrees { s with nOpCount := s.nOpCount + keys.length } rest
    (opcode == OP_CHECKMULTISIGVERIFY)
    (greedy ((checker ctx).ok (scriptCodeWithout sigs s.pbegincodehash)) sigs keys)
  have hcosts : KeyCosts s.stack s.nOpCount t
      (called { t with executed := t.executed + keys.length } (greedyCalls (checker ctx)
        (scriptCodeWithout sigs s.pbegincodehash) sigs keys)) :=
    ⟨by rw [hasked]; simp only [called]; omega, by simp only [called]; omega,
      .inr ⟨by rw [hasked]; rfl, by rw [hasked]; exact hops⟩⟩
  unfold Achieves
  rw [hexec, hold, hasked]
  exact Ends.mono hagree (fun s' hs' => ⟨hs', pushOrVerify_nOpCount hs', rfl, hcosts⟩)
    fun e he => ⟨he.1, he.2, hcosts⟩

/-- Once the keys are counted, whatever happens to the signatures. -/
theorem execCheckMultiSig_meets_counted (ctx : ScriptContext) (opcode : ℕ) {s : ScriptState}
    (t : EvalTally) {number : valtype} {under : List valtype} {n : ℕ}
    (hs : s.stack = number :: under) (hnumber : CScriptNum.ofVch number 4 = some (n : ℤ))
    (hn : n ≤ 20) (hops : s.nOpCount + n ≤ 201) :
    Achieves (execCheckMultiSig (checker ctx) opcode s)
      (fun s' t' => Spec.execCheckMultiSig ctx opcode s = some s' ∧
        s'.nOpCount = s.nOpCount + keysAsked (number :: under) ∧
        t'.executed = t.executed + keysAsked (number :: under) ∧
        KeyCosts (number :: under) s.nOpCount t t')
      (fun e t' => Spec.execCheckMultiSig ctx opcode s = none ∧ e.Quiet ∧
        KeyCosts (number :: under) s.nOpCount t t') t := by
  have hone : 1 ≤ (number :: under).length := by simp
  have hnumberOk : operand number 4 = .ok (n : ℤ) := by simp [operand, hnumber]
  have hasked : keysAsked (number :: under) = n := by
    simp [keysAsked, hnumber, getint_of_le hn]
  have hkeys : (0 : ℤ) ≤ n ∧ (n : ℤ) ≤ 20 := by omega
  have hkeysOk : ¬ ((n : ℤ) < 0 ∨ 20 < (n : ℤ)) := by omega
  have hopsOk : ¬ 201 < s.nOpCount + n := by omega
  have hcosts : KeyCosts (number :: under) s.nOpCount t
      { t with executed := t.executed + n } :=
    ⟨by simp, by simp, .inr ⟨by rw [hasked], by rw [hasked]; exact hops⟩⟩
  by_cases hmore : 1 + 1 + n ≤ (number :: under).length
  swap
  · refine meets_fails ?_ ?_ (.inl rfl) hcosts
    · simp only [execCheckMultiSig, hs, exec_bind, exec_uncounted, exec_tick, continue_,
        stacktop_one, require_true hone, Outcome.ok_bind, hnumberOk, getint_of_le hn,
        Int.toNat_natCast, require_true hkeys, require_true hops, require_false hmore]
    · have hnil : under.drop n = [] := List.drop_eq_nil_of_le (by
        rw [List.length_cons] at hmore
        omega)
      simp [Spec.execCheckMultiSig, hs, scriptNum, hnumber, getint_of_le hn, hopsOk,
        hnil]
  obtain ⟨count, below, hbelow⟩ : ∃ count below, under.drop n = count :: below := by
    have hlt : n < under.length := by
      rw [List.length_cons] at hmore
      omega
    exact ⟨_, _, List.drop_eq_getElem_cons hlt⟩
  have htopCount : stacktop (number :: under) (1 + 1 + n) = .ok count := by
    have hindex : 1 + 1 + n = n + 1 + 1 := by omega
    rw [hindex]
    exact stacktop_drop (i := n + 1) (by rw [List.drop_succ_cons]; exact hbelow)
  cases hcount : CScriptNum.ofVch count 4 with
  | none =>
      have hcountBad : operand count 4 = .error .scriptnum_error := by simp [operand, hcount]
      refine meets_fails (e := .scriptnum_error) ?_ ?_ (.inr rfl) hcosts
      · simp only [execCheckMultiSig, hs, exec_bind, exec_uncounted, exec_tick, continue_,
          stacktop_one, require_true hone, Outcome.ok_bind, hnumberOk, getint_of_le hn,
          Int.toNat_natCast, require_true hkeys, require_true hops, require_true hmore,
          htopCount, hcountBad]
      · simp [Spec.execCheckMultiSig, hs, scriptNum, hnumber, getint_of_le hn, hopsOk,
          hbelow, hcount]
  | some bnSigs =>
  have hcountOk : operand count 4 = .ok bnSigs := by simp [operand, hcount]
  by_cases hsigs : 0 ≤ CScriptNum.getint bnSigs ∧ CScriptNum.getint bnSigs ≤ (n : ℤ)
  swap
  · refine meets_fails ?_ ?_ (.inl rfl) hcosts
    · simp only [execCheckMultiSig, hs, exec_bind, exec_uncounted, exec_tick, continue_,
        stacktop_one, require_true hone, Outcome.ok_bind, hnumberOk, getint_of_le hn,
        Int.toNat_natCast, require_true hkeys, require_true hops, require_true hmore,
        htopCount, hcountOk, require_false hsigs]
    · have hout : CScriptNum.getint bnSigs < 0 ∨ (n : ℤ) < CScriptNum.getint bnSigs := by omega
      simp [Spec.execCheckMultiSig, hs, scriptNum, hnumber, getint_of_le hn, hopsOk,
        hbelow, hcount, hout]
  obtain ⟨m, rfl, hm⟩ : ∃ m : ℕ, bnSigs = m ∧ m ≤ n := by
    have hself := @getint_eq_self bnSigs ⟨hsigs.1, by omega⟩
    rw [hself] at hsigs
    exact ⟨bnSigs.toNat, by omega, by omega⟩
  have hm20 : m ≤ 20 := hm.trans hn
  rw [getint_of_le hm20] at hsigs
  have hsigsOk : ¬ ((m : ℤ) < 0 ∨ (n : ℤ) < (m : ℤ)) := by omega
  have hunder : (number :: under).length = 1 + n + 1 + below.length := by
    have hlen := congrArg List.length hbelow
    rw [List.length_drop, List.length_cons] at hlen
    rw [List.length_cons] at hmore ⊢
    omega
  by_cases hall : 1 + 1 + n + 1 + m ≤ (number :: under).length
  swap
  · refine meets_fails ?_ ?_ (.inl rfl) hcosts
    · simp only [execCheckMultiSig, hs, exec_bind, exec_uncounted, exec_tick, continue_,
        stacktop_one, require_true hone, Outcome.ok_bind, hnumberOk, getint_of_le hn,
        getint_of_le hm20, Int.toNat_natCast, require_true hkeys, require_true hops,
        require_true hmore, htopCount, hcountOk, require_true hsigs, require_false hall]
    · have hshort : below.length < m + 1 := by omega
      simp only [Spec.execCheckMultiSig, hs, scriptNum, hnumber, Option.bind_some,
        getint_of_le hn, if_neg hkeysOk, Int.toNat_natCast, if_neg hopsOk, hbelow, hcount,
        getint_of_le hm20, if_neg hsigsOk, if_pos hshort]
  -- the stack in its segments
  have hkeysLen : (under.take n).length = n := by
    rw [List.length_take]
    rw [List.length_cons] at hmore
    omega
  have hsigsLen : (below.take m).length = m := by
    rw [List.length_take]
    omega
  obtain ⟨dummy, hdummy⟩ : ∃ dummy, below.drop m = dummy :: below.drop (m + 1) :=
    ⟨_, List.drop_eq_getElem_cons (by omega)⟩
  have hstack : s.stack = number :: (under.take n ++ count ::
      (below.take m ++ dummy :: below.drop (m + 1))) := by
    rw [← hdummy, List.take_append_drop, ← hbelow, List.take_append_drop, hs]
  rw [← hs]
  exact execCheckMultiSig_meets_segments ctx opcode t hstack (by rw [hkeysLen]; exact hnumber)
    (by rw [hsigsLen]; exact hcount) (by rw [hsigsLen, hkeysLen]; exact hm)
    (by rw [hkeysLen]; exact hn) (by rw [hkeysLen]; exact hops)

/-- On any stack the instruction does what the interpreter on lists does. -/
theorem execCheckMultiSig_meets (ctx : ScriptContext) (opcode : ℕ) (s : ScriptState)
    (t : EvalTally) :
    Achieves (execCheckMultiSig (checker ctx) opcode s)
      (fun s' t' => Spec.execCheckMultiSig ctx opcode s = some s' ∧
        s'.nOpCount = s.nOpCount + keysAsked s.stack ∧
        t'.executed = t.executed + keysAsked s.stack ∧ KeyCosts s.stack s.nOpCount t t')
      (fun e t' => Spec.execCheckMultiSig ctx opcode s = none ∧ e.Quiet ∧
        KeyCosts s.stack s.nOpCount t t') t := by
  rcases hs : s.stack with _ | ⟨number, under⟩
  · refine meets_fails (u := t) ?_ ?_ (.inl rfl) (.refl _ _ _)
    · simp only [execCheckMultiSig, hs, exec_bind, exec_uncounted]
      rfl
    · simp [Spec.execCheckMultiSig, hs]
  have hone : 1 ≤ (number :: under).length := by simp
  cases hnumber : CScriptNum.ofVch number 4 with
  | none =>
      refine meets_fails (e := .scriptnum_error) (u := t) ?_ ?_ (.inr rfl) (.refl _ _ _)
      · simp only [execCheckMultiSig, hs, exec_bind, exec_uncounted, continue_, stacktop_one,
          require_true hone, Outcome.ok_bind, operand, hnumber]
      · simp [Spec.execCheckMultiSig, hs, scriptNum, hnumber]
  | some bnKeys =>
  have hnumberOk : operand number 4 = .ok bnKeys := by simp [operand, hnumber]
  by_cases hkeys : 0 ≤ CScriptNum.getint bnKeys ∧ CScriptNum.getint bnKeys ≤ 20
  swap
  · refine meets_fails (u := t) ?_ ?_ (.inl rfl) (.refl _ _ _)
    · simp only [execCheckMultiSig, hs, exec_bind, exec_uncounted, continue_, stacktop_one,
        require_true hone, Outcome.ok_bind, hnumberOk, require_false hkeys]
    · have hout : CScriptNum.getint bnKeys < 0 ∨ 20 < CScriptNum.getint bnKeys := by omega
      simp [Spec.execCheckMultiSig, hs, scriptNum, hnumber, hout]
  obtain ⟨n, rfl, hn⟩ : ∃ n : ℕ, bnKeys = n ∧ n ≤ 20 := by
    rw [getint_eq_self hkeys] at hkeys
    exact ⟨bnKeys.toNat, by omega, by omega⟩
  rw [getint_of_le hn] at hkeys
  by_cases hops : s.nOpCount + n ≤ 201
  swap
  · refine meets_fails (u := t) ?_ ?_ (.inl rfl) (.refl _ _ _)
    · simp only [execCheckMultiSig, hs, exec_bind, exec_uncounted, continue_, stacktop_one,
        require_true hone, Outcome.ok_bind, hnumberOk, getint_of_le hn, Int.toNat_natCast,
        require_true hkeys, require_false hops]
    · simp [Spec.execCheckMultiSig, hs, scriptNum, hnumber, getint_of_le hn,
        Nat.lt_of_not_le hops]
  exact execCheckMultiSig_meets_counted ctx opcode t hs hnumber hn hops

end Machine
end Ziftrcoin.Spec
