/-
Module: Ziftrcoin.Proofs.CombinedSignatures
Purpose: What CombineSignatures makes of two signature scripts of a multisig output: which
  of the signatures on their stacks it takes, and for which keys.  It loses no signature
  just when the first signature of each key is canonical.
Trusted boundary: none
Main exports: MultisigOf, combineSignatures_keeps
-/
import Ziftrcoin.Proofs.OwnSpending

namespace Ziftrcoin.Spec

open Ziftrcoin.Lib

/-! ### Multisig scripts -/

/-- A script that asks for signatures of `m` of the keys, behind a delay or not. -/
inductive MultisigOf (m : ℕ) (keys : List valtype) : CScript → Option valtype → Prop where
  | plain {s : CScript} (h : MultisigScript s m keys.length keys) : MultisigOf m keys s none
  | delayed {s : CScript} {p : valtype} (hp : p.length ≤ 5)
      (h : MultisigScript s m keys.length keys) : MultisigOf m keys (delayedBy p s) (some p)

/-- The lock time of the transaction satisfies the delay. -/
def Unlocked (ctx : ScriptContext) (delay : Option valtype) : Prop :=
  ∀ p, delay = some p → LockPasses ctx (CScriptNum.setVch p)

section Scripts

variable {m : ℕ} {keys : List valtype} {s : CScript} {delay : Option valtype}
  {ctx : ScriptContext}

theorem solvedFrom_append {front rest : List (txnouttype × List ℕ)}
    (h : ∀ template ∈ front, Unmatched s template) :
    solvedFrom s (front ++ rest) = solvedFrom s rest := by
  induction front with
  | nil => rfl
  | cons template front ih =>
      have hnone : matchTemplate (s.length + template.2.length + 1) s template.2 [] = none :=
        h template List.mem_cons_self
      rw [List.cons_append, solvedFrom, hnone]
      exact ih fun template hmem => h template (List.mem_cons_of_mem _ hmem)

/-- A matching template is what the solver comes to, even if it then returns false. -/
theorem solved_of_matches {type : txnouttype} {tplate : List ℕ} {sols : List valtype}
    (hmem : (type, tplate) ∈ mTemplates) (hnull : type ≠ .TX_NULL_DATA)
    (h : MatchesTemplate tplate s sols) : s.Solved = (type, sols) := by
  have hmatch := (matchTemplate_iff (mTemplates_keysCounted _ hmem)).mpr h
  obtain ⟨front, back, htemplates, hfront⟩ := exists_unmatched hmem mTemplates_keysCounted
    fun _ hmem' _ h' => mTemplates_type _ hmem _ hmem'
      (matchesTemplate_unique hmem hmem' h h') hnull
  rw [CScript.Solved, htemplates, solvedFrom_append hfront, solvedFrom, hmatch]

theorem solved_of_solver {type : txnouttype} {sols : List valtype}
    (hnull : type ≠ .TX_NULL_DATA) (h : Solver s = some (type, sols)) :
    s.Solved = (type, sols) := by
  obtain ⟨tplate, hmem, hmatch, -⟩ := (solver_iff hnull).mp h
  exact solved_of_matches hmem hnull hmatch

theorem MultisigOf.solved (h : MultisigOf m keys s delay) :
    s.Solved = (if delay.isSome then .TX_DELAYEDMULTISIG else .TX_MULTISIG,
      delay.toList ++ ([UInt8.ofNat m] :: keys ++ [[UInt8.ofNat keys.length]])) := by
  cases h with
  | plain h => exact @solved_of_matches _ .TX_MULTISIG _ _ (by decide) (by decide) h.1
  | delayed hp h =>
      exact @solved_of_matches _ .TX_DELAYEDMULTISIG _ _ (by decide) (by decide)
        (matchesTemplate_delayed_iff.mpr ⟨_, _, _, hp, rfl, h.1, rfl⟩)

/-- No such script pays to a script hash. -/
theorem MultisigOf.not_payToScriptHash (h : MultisigOf m keys s delay) :
    s.IsPayToScriptHash = false := by
  have hsolved := h.solved
  rw [Bool.eq_false_iff]
  intro hhash
  rcases isPayToScriptHash_iff.mp hhash with ⟨hash, hlen, rfl⟩ | ⟨sols, hdelayed⟩
  · have hsolver := solver_scriptHash_iff.mpr
      ⟨20, hash, 0x14 :: hash, instruction_hash hlen, hlen, rfl, rfl⟩
    rw [solved_of_solver (by decide) hsolver, Prod.mk.injEq] at hsolved
    split_ifs at hsolved <;> exact absurd hsolved.1 (by decide)
  · rw [solved_of_solver (by decide) hdelayed, Prod.mk.injEq] at hsolved
    split_ifs at hsolved <;> exact absurd hsolved.1 (by decide)

theorem MultisigOf.le (h : MultisigOf m keys s delay) : m ≤ 16 := by
  cases h with
  | plain h => exact h.2.1
  | delayed _ h => exact h.2.1

theorem readsKeys_size {pc next : CScript} (h : ReadsKeys pc keys next) :
    ∀ key ∈ keys, key.length ≤ 65 := by
  induction h with
  | nil _ => exact fun key hmem => absurd hmem List.not_mem_nil
  | cons _ size _ ih =>
      intro key hmem
      rcases List.mem_cons.mp hmem with rfl | hmem
      · exact size.2
      · exact ih key hmem

theorem MultisigScript.keys_size {n : ℕ} (h : MultisigScript s m n keys) :
    ∀ key ∈ keys, key.length ≤ 65 := by
  obtain ⟨opcode, vch, rest, found, more, hop, hfound, hkeys, hsols⟩ :=
    (matchesTemplate_cons_iff (by decide)).mp h.1
  obtain ⟨hnumber, rfl⟩ := matchTemplateOp_smallInteger hfound
  cases hkeys with
  | cons hno _ _ _ => exact absurd rfl hno
  | @keys opcode' _ _ next rest' vch' keys' sols hreads hop' hnumber' hmore =>
      obtain ⟨_, -, hnil⟩ := (matchesTemplate_plain_iff (by decide)).mp hmore
      cases hnil
      rw [List.cons_append, List.singleton_append, List.cons.injEq] at hsols
      obtain ⟨rfl, -⟩ := List.append_inj' hsols.2 rfl
      exact readsKeys_size hreads

/-- A multisig script is short. -/
theorem MultisigScript.length_le (h : MultisigScript s m keys.length keys) :
    s.length ≤ 1400 := by
  have hlen := matchesTemplate_length h.1 (smallData_not_mem .TX_MULTISIG)
  have hsize := @pushedSize_le ([UInt8.ofNat m] :: keys ++ [[UInt8.ofNat keys.length]]) 65 (by
    intro item hmem
    simp only [List.cons_append, List.mem_cons, List.mem_append, List.not_mem_nil,
      or_false] at hmem
    rcases hmem with rfl | hkey | rfl
    · exact (by decide : 1 ≤ 65)
    · exact h.keys_size item hkey
    · exact (by decide : 1 ≤ 65))
  have htemplate : (baseTemplate .TX_MULTISIG).length = 4 := rfl
  have hkeys := h.2.2
  simp only [List.length_append, List.length_cons, List.length_nil] at hsize
  omega

/-- The script tests `m` signatures, in the order of the keys. -/
theorem MultisigOf.evalScript (h : MultisigOf m keys s delay) (hlock : Unlocked ctx delay)
    {sigs : List valtype} (hlen : sigs.length = m) (hle : m ≤ keys.length)
    (hdelete : ∀ vchSig ∈ sigs, s.FindAndDelete (pushData vchSig) = s) :
    ∃ vch, EvalScript ctx ([] :: sigs).reverse s = some [vch] ∧ (topIsTrue [vch] = true ↔
      ∃ used, List.Forall₂ (fun sig key => signatureOk ctx sig key s = true) sigs used ∧
        used.Sublist keys) := by
  have htop : topIsTrue [if multisigLoop ctx s sigs.reverse keys.reverse then vchTrue
      else vchFalse] = true ↔ ∃ used, List.Forall₂ (fun sig key => signatureOk ctx sig key s =
        true) sigs used ∧ used.Sublist keys := by
    rw [← multisigLoop_reverse_iff]
    split
    · next hloop => exact iff_of_true rfl hloop
    · next hloop => exact iff_of_false (by decide) hloop
  refine ⟨_, ?_, htop⟩
  cases h with
  | plain h =>
      exact evalScript_of_runsTo (h.length_le.trans (by decide))
        (runsTo_filledMultisig h hlen hle hdelete (by decide))
  | @delayed script p hp h =>
      have hd : CScriptNum.ofVch p 5 = some (CScriptNum.setVch p) := if_neg (by omega)
      have hm := h.2.1
      have hroom : ([] :: sigs).reverse.length < 1000 := by
        rw [List.length_reverse, List.length_cons]
        omega
      have hsize := h.length_le
      refine evalScript_of_runsTo ?_ ((runsTo_delay hp hd (hlock p rfl) hroom (by decide)).trans
        (runsTo_filledMultisig h hlen hle hdelete (by decide)))
      simp only [delayedBy, List.length_cons, List.length_append]
      omega

end Scripts

/-! ### Scripts of pushes -/

section Pushes

variable {ctx : ScriptContext}

theorem pushedStack_size : ∀ {fuel : ℕ} {stack : List valtype} {pc : CScript},
    (∀ v ∈ stack, v.length ≤ MAX_SCRIPT_ELEMENT_SIZE) →
      ∀ v ∈ pushedStack fuel stack pc, v.length ≤ MAX_SCRIPT_ELEMENT_SIZE
  | 0, _, _, h => h
  | fuel + 1, stack, pc, h => by
      have hnext : ∀ vch rest, vch.length ≤ MAX_SCRIPT_ELEMENT_SIZE →
          ∀ v ∈ (if 1000 < (vch :: stack).length then vch :: stack
            else pushedStack fuel (vch :: stack) rest), v.length ≤ MAX_SCRIPT_ELEMENT_SIZE := by
        intro vch rest hvch
        have hstack : ∀ v ∈ vch :: stack, v.length ≤ MAX_SCRIPT_ELEMENT_SIZE :=
          List.forall_mem_cons.mpr ⟨hvch, h⟩
        split
        · exact hstack
        · exact pushedStack_size hstack
      rw [pushedStack]
      cases hop : getOp pc with
      | none => exact h
      | some op =>
          obtain ⟨opcode, vch, rest⟩ := op
          by_cases hlarge : MAX_SCRIPT_ELEMENT_SIZE < vch.length
          · simpa only [if_pos hlarge] using h
          · by_cases hpush : opcode ≤ OP_PUSHDATA4
            · simpa only [if_neg hlarge, if_pos hpush] using
                hnext vch rest (Nat.not_lt.mp hlarge)
            · by_cases hnumber : opcode = OP_1NEGATE ∨ (OP_1 ≤ opcode ∧ opcode ≤ OP_16)
              · have hsmall : ∀ opcode : ℕ, opcode < 97 → (CScriptNum.serialize
                    ((opcode : ℤ) - ((OP_1 : ℤ) - 1))).length ≤ MAX_SCRIPT_ELEMENT_SIZE := by
                  decide +kernel
                have hle : opcode < 97 := by
                  simp only [OP_1NEGATE, OP_1, OP_16] at hnumber
                  omega
                simpa only [if_neg hlarge, if_neg hpush, if_pos hnumber] using
                  hnext _ rest (hsmall opcode hle)
              · simpa only [if_neg hlarge, if_neg hpush, if_neg hnumber] using h

theorem PushScript.stack_size (scriptSig : PushScript) :
    ∀ v ∈ scriptSig.stack, v.length ≤ MAX_SCRIPT_ELEMENT_SIZE := by
  unfold PushScript.stack
  split
  · exact fun v hmem => absurd hmem List.not_mem_nil
  · exact pushedStack_size fun v hmem => absurd hmem List.not_mem_nil

theorem pushedStack_of_evalLoop : ∀ {fuel : ℕ} {state final : ScriptState},
    state.vfExec = [] → state.altstack = [] → (∀ op ∈ (ops state.pc).1, op.1 ≤ OP_16) →
      evalLoop ctx fuel state = some final → pushedStack fuel state.stack state.pc = final.stack
  | 0, state, final, _, _, _, hloop => by
      simp only [evalLoop, Option.ite_none_right_eq_some, Option.some.injEq] at hloop
      rw [pushedStack, hloop.2]
  | fuel + 1, state, final, hexec, halt, hops, hloop => by
      have hcontinue : ∀ {vch rest nOpCount}, (∀ op ∈ (ops rest).1, op.1 ≤ OP_16) →
          ¬ 1000 < (vch :: state.stack).length →
          evalLoop ctx fuel ({ state with pc := rest, nOpCount }.push vch) = some final →
          (if 1000 < (vch :: state.stack).length then vch :: state.stack
            else pushedStack fuel (vch :: state.stack) rest) = final.stack := by
        intro vch rest nOpCount hrest hroom hmore
        rw [if_neg hroom]
        exact @pushedStack_of_evalLoop fuel ({ state with pc := rest, nOpCount }.push vch) final
          hexec halt hrest hmore
      rw [evalLoop] at hloop
      rw [pushedStack]
      cases hop : getOp state.pc with
      | none =>
          have hstep : evalStep ctx state = none := by simp [evalStep, hop]
          rw [hstep, Option.ite_none_right_eq_some, Option.some.injEq] at hloop
          exact congrArg ScriptState.stack hloop.2
      | some op =>
          obtain ⟨opcode, vch, rest⟩ := op
          have hpc : state.pc ≠ [] := by
            intro hnil
            rw [hnil] at hop
            cases hop
          rw [ops_of_getOp hop] at hops
          have hle : opcode ≤ OP_16 := hops _ List.mem_cons_self
          have hrest : ∀ op ∈ (ops rest).1, op.1 ≤ OP_16 :=
            fun op hmem => hops op (List.mem_cons_of_mem _ hmem)
          rw [if_neg hpc] at hloop
          cases hstep : evalStep ctx state with
          | none =>
              rw [hstep] at hloop
              cases hloop
          | some next =>
              rw [hstep] at hloop
              have hfExec : ∀ pc nOpCount, ScriptState.fExec { state with pc, nOpCount } =
                  true := fun _ _ => by simp [ScriptState.fExec, hexec]
              unfold evalStep at hstep
              simp only [hop, Option.ite_none_left_eq_some, hfExec, true_and, true_or, if_true,
                Option.bind_eq_some_iff] at hstep
              obtain ⟨hlarge, -, -, after, hafter, hroom, hnext⟩ := hstep
              obtain rfl := Option.some.inj hnext
              by_cases hpush : opcode ≤ OP_PUSHDATA4
              · rw [if_pos hpush, Option.some.injEq] at hafter
                subst hafter
                simp only [if_neg hlarge, if_pos hpush]
                exact hcontinue hrest (by simpa [ScriptState.push, halt] using hroom) hloop
              · by_cases hnumber : opcode = OP_1NEGATE ∨ (OP_1 ≤ opcode ∧ opcode ≤ OP_16)
                · rw [if_neg hpush, execOp, if_pos hnumber, Option.some.injEq] at hafter
                  subst hafter
                  simp only [if_neg hlarge, if_neg hpush, if_pos hnumber]
                  exact hcontinue hrest (by simpa [ScriptState.push, halt] using hroom) hloop
                · -- `OP_RESERVED` is no operation.
                  have hreserved : opcode = 80 := by
                    simp only [OP_1NEGATE, OP_1, OP_16, OP_PUSHDATA4] at hnumber hpush hle
                    omega
                  subst hreserved
                  rw [if_neg hpush] at hafter
                  cases hafter

/-- Where the script is evaluated, that is the stack. -/
theorem PushScript.stack_of_evalScript {scriptSig : PushScript} {out : List valtype}
    (h : EvalScript ctx [] scriptSig.script = some out) : scriptSig.stack = out := by
  have hpush := scriptSig.isPushOnly
  unfold CScript.IsPushOnly at hpush
  rw [Bool.and_eq_true, List.all_eq_true] at hpush
  unfold EvalScript at h
  rw [Option.ite_none_left_eq_some] at h
  obtain ⟨hlen, heval⟩ := h
  rw [PushScript.stack, if_neg hlen]
  cases hloop : evalLoop ctx scriptSig.script.length (evalStart [] scriptSig.script) with
  | none =>
      rw [hloop] at heval
      cases heval
  | some final =>
      have hstack := pushedStack_of_evalLoop rfl rfl
        (fun op hmem => of_decide_eq_true (hpush.2 op hmem)) hloop
      simp only [hloop, Option.ite_none_right_eq_some, Option.some.injEq] at heval
      exact hstack.trans heval.2

end Pushes

/-! ### Signatures and keys -/

/-- The signatures in the order of their set. -/
def allSigs (sigs1 sigs2 : List valtype) : List valtype :=
  collect ((sigs1 ++ sigs2).filter fun v => !v.isEmpty)

/-- The signature is the first in order of those that the key has. -/
structure FirstOf (check : valtype → valtype → Bool) (sigs1 sigs2 : List valtype)
    (sig key : valtype) : Prop where
  mem : sig ∈ sigs1 ++ sigs2
  checks : check sig key = true
  first : ∀ sig' ∈ sigs1 ++ sigs2, check sig' key = true → ¬ sig' < sig

/-- The first signature of each key that has one. -/
def foundSigs (check : valtype → valtype → Bool) (keys sigs1 sigs2 : List valtype) :
    List valtype :=
  keys.filterMap fun key => (allSigs sigs1 sigs2).find? fun sig => check sig key

/-- The keys that have a signature. -/
def signedKeys (check : valtype → valtype → Bool) (keys sigs1 sigs2 : List valtype) :
    List valtype :=
  keys.filter fun key => (sigs1 ++ sigs2).any fun sig => check sig key

section Signatures

variable {check : valtype → valtype → Bool} {keys sigs1 sigs2 : List valtype}

theorem bytes_trans {a b c : valtype} (hab : a < b) (hbc : b < c) : a < c :=
  List.lt_trans hab hbc

theorem bytes_total {a b : valtype} (hab : ¬ a < b) (hba : ¬ b < a) : a = b :=
  List.le_antisymm (List.not_lt.mp hba) (List.not_lt.mp hab)

theorem mem_allSigs {v : valtype} :
    v ∈ allSigs sigs1 sigs2 ↔ v ∈ sigs1 ++ sigs2 ∧ v ≠ [] := by
  rw [allSigs, (collect_spec bytes_trans bytes_total _).2, List.mem_filter]
  cases v <;> simp

theorem allSigs_comm (sigs1 sigs2 : List valtype) : allSigs sigs1 sigs2 = allSigs sigs2 sigs1 := by
  refine collect_congr List.lt_irrefl bytes_trans bytes_total fun v => ?_
  simp only [List.mem_filter, List.mem_append]
  exact and_congr_left fun _ => or_comm

theorem firstOf_of_find {sig key : valtype} (hempty : check [] key = false)
    (hfind : ((allSigs sigs1 sigs2).find? fun sig => check sig key) = some sig) :
    FirstOf check sigs1 sigs2 sig key := by
  obtain ⟨hok, front, back, hall, hfront⟩ := List.find?_eq_some_iff_append.mp hfind
  refine ⟨(mem_allSigs.mp (List.mem_of_find?_eq_some hfind)).1, hok, fun sig' hmem hok' hlt => ?_⟩
  have hne : sig' ≠ [] := by
    rintro rfl
    rw [hempty] at hok'
    cases hok'
  have hsorted := (collect_spec bytes_trans bytes_total
    ((sigs1 ++ sigs2).filter fun v => !v.isEmpty)).1
  have hmem' := mem_allSigs.mpr ⟨hmem, hne⟩
  rw [← allSigs, hall] at hsorted
  rw [hall] at hmem'
  rcases List.mem_append.mp hmem' with hbefore | hafter
  · have hno := hfront sig' hbefore
    rw [hok'] at hno
    cases hno
  · rcases List.mem_cons.mp hafter with rfl | hback
    · exact List.lt_irrefl _ hlt
    · have hgt := (List.pairwise_cons.mp (List.pairwise_append.mp hsorted).2.1).1 sig' hback
      exact List.lt_irrefl _ (bytes_trans hlt hgt)

theorem find_allSigs_none {key : valtype} (hempty : check [] key = false)
    (hfind : ((allSigs sigs1 sigs2).find? fun sig => check sig key) = none) :
    ((sigs1 ++ sigs2).any fun sig => check sig key) = false := by
  refine List.any_eq_false.mpr fun sig hsig hok => ?_
  have hne : sig ≠ [] := by
    rintro rfl
    rw [hempty] at hok
    cases hok
  exact List.find?_eq_none.mp hfind sig (mem_allSigs.mpr ⟨hsig, hne⟩) hok

/-- Each key that has a signature gets the first of its own. -/
theorem foundSigs_first (hempty : ∀ key, check [] key = false) : ∀ keys : List valtype,
    List.Forall₂ (FirstOf check sigs1 sigs2) (foundSigs check keys sigs1 sigs2)
      (signedKeys check keys sigs1 sigs2)
  | [] => .nil
  | key :: keys => by
      have ih := foundSigs_first hempty keys
      unfold foundSigs signedKeys at ih ⊢
      cases hfind : (allSigs sigs1 sigs2).find? fun sig => check sig key with
      | none =>
          have hnone := find_allSigs_none (hempty key) hfind
          rw [List.filterMap_cons, List.filter_cons_of_neg (by rw [hnone]; decide)]
          simpa only [hfind] using ih
      | some sig =>
          have hfirst := firstOf_of_find (hempty key) hfind
          have hany : ((sigs1 ++ sigs2).any fun sig => check sig key) = true :=
            List.any_eq_true.mpr ⟨sig, hfirst.mem, hfirst.checks⟩
          rw [List.filterMap_cons, @List.filter_cons_of_pos _
            (fun key => (sigs1 ++ sigs2).any fun sig => check sig key) _ _ hany]
          simpa only [hfind] using List.Forall₂.cons hfirst ih

/-- Two ways to choose that agree for the first keys that have a signature choose the same
first signatures. -/
theorem take_filterMap_congr {choose : valtype → Option valtype}
    (hempty : ∀ key, check [] key = false) : ∀ (keys : List valtype) (m : ℕ),
    (∀ key ∈ keys, ((allSigs sigs1 sigs2).find? fun sig => check sig key) = none →
      choose key = none) →
    (∀ key ∈ (signedKeys check keys sigs1 sigs2).take m,
      choose key = (allSigs sigs1 sigs2).find? fun sig => check sig key) →
    (keys.filterMap choose).take m = (foundSigs check keys sigs1 sigs2).take m
  | [], _, _, _ => rfl
  | key :: keys, m, hnone, hsome => by
      have ih := fun m => take_filterMap_congr hempty keys m
        fun key hkey => hnone key (List.mem_cons_of_mem _ hkey)
      unfold foundSigs signedKeys at *
      cases hfind : (allSigs sigs1 sigs2).find? fun sig => check sig key with
      | none =>
          rw [List.filter_cons_of_neg (by rw [find_allSigs_none (hempty key) hfind]; decide)]
            at hsome
          simp only [List.filterMap_cons, hfind, hnone key List.mem_cons_self hfind]
          exact ih m hsome
      | some sig =>
          have hfirst := firstOf_of_find (hempty key) hfind
          have hany : ((sigs1 ++ sigs2).any fun sig => check sig key) = true :=
            List.any_eq_true.mpr ⟨sig, hfirst.mem, hfirst.checks⟩
          rw [@List.filter_cons_of_pos _
            (fun key => (sigs1 ++ sigs2).any fun sig => check sig key) _ _ hany] at hsome
          cases m with
          | zero => rfl
          | succ m =>
              rw [List.take_succ_cons] at hsome
              have hkey := hsome key List.mem_cons_self
              rw [hfind] at hkey
              simp only [List.filterMap_cons, hfind, hkey, List.take_succ_cons]
              rw [ih m fun key hmem => hsome key (List.mem_cons_of_mem _ hmem)]

end Signatures

/-! ### The combined script -/

/-- What `CombineMultisig` takes for a signature of a key. -/
def ScriptContext.checks (ctx : ScriptContext) (s : CScript) (sig key : valtype) : Bool :=
  CheckSig ctx.crypto sig key s ctx.txTo ctx.nIn

/-- What `VerifyScript` takes for one. -/
def ScriptContext.verifies (ctx : ScriptContext) (s : CScript) (sig key : valtype) : Bool :=
  signatureOk ctx sig key s

/-- For the first keys that have a signature, the first one of them in order is one that
`VerifyScript` takes. -/
def FirstsVerify (ctx : ScriptContext) (s : CScript) (m : ℕ)
    (keys sigs1 sigs2 : List valtype) : Prop :=
  ∀ key ∈ (signedKeys (ctx.checks s) keys sigs1 sigs2).take m, ∀ sig,
    FirstOf (ctx.checks s) sigs1 sigs2 sig key → ctx.verifies s sig key = true

/-- Signatures, with placeholders for those that are missing. -/
def placed (m : ℕ) (sigs : List valtype) : CScript :=
  [UInt8.ofNat OP_0] ++ PushAll sigs ++ List.replicate (m - sigs.length) (UInt8.ofNat OP_0)

section Combined

variable {ctx : ScriptContext} {m : ℕ} {keys sigs1 sigs2 : List valtype} {s : CScript}
  {delay : Option valtype}

theorem verifies_canonical {sig key : valtype} (h : ctx.verifies s sig key = true) :
    IsCanonicalSignature sig ctx.flags = true ∧ ctx.checks s sig key = true := by
  simp only [ScriptContext.verifies, signatureOk, Bool.and_eq_true] at h
  exact ⟨h.1.1, h.2⟩

theorem combineMultisig_eq (h : MultisigOf m keys s delay) :
    CombineMultisig ctx.crypto s ctx.txTo ctx.nIn s.Solved.2 s.Solved.1 sigs1 sigs2 =
      placed m ((keys.filterMap fun key =>
        (giveOut (ctx.checks s) keys (allSigs sigs1 sigs2)).lookup key).take m) := by
  have hm := h.le
  have hcount : (([UInt8.ofNat m] : valtype).headD 0).toNat = m := headD_byte hm
  rw [h.solved]
  unfold CombineMultisig
  cases delay with
  | none =>
      have hkeys : (([UInt8.ofNat m] :: keys ++ [[UInt8.ofNat keys.length]]).drop 1).dropLast =
          keys := by
        rw [List.cons_append, List.drop_one, List.tail_cons, List.dropLast_concat]
      simp only [Option.isSome_none, Bool.false_eq_true, if_false, txnouttype.isDelayed,
        Option.toList_none, List.nil_append, Nat.add_zero, hkeys]
      simp only [List.cons_append, List.getD_cons_zero, hcount]
      rfl
  | some p =>
      have hkeys : ((p :: ([UInt8.ofNat m] :: keys ++ [[UInt8.ofNat keys.length]])).drop
          2).dropLast = keys := by
        change (keys ++ [[UInt8.ofNat keys.length]]).dropLast = keys
        rw [List.dropLast_concat]
      simp only [Option.isSome_some, if_true, txnouttype.isDelayed, Option.toList_some,
        List.singleton_append, Nat.reduceAdd, hkeys]
      simp only [List.cons_append, List.getD_cons_succ, List.getD_cons_zero, hcount]
      rfl

theorem checks_empty (key : valtype) : ctx.checks s [] key = false := by
  simp [ScriptContext.checks, CheckSig]

/-- Where the first signatures verify, each key that has a signature gets its first. -/
theorem combineMultisig_firsts (h : MultisigOf m keys s delay)
    (hone : ∀ sig ∈ sigs1 ++ sigs2, IsCanonicalSignature sig ctx.flags = true →
      ∀ key ∈ keys, ∀ key' ∈ keys, ctx.checks s sig key = true → ctx.checks s sig key' = true →
        key = key')
    (hfirsts : FirstsVerify ctx s m keys sigs1 sigs2) :
    CombineMultisig ctx.crypto s ctx.txTo ctx.nIn s.Solved.2 s.Solved.1 sigs1 sigs2 =
      placed m ((foundSigs (ctx.checks s) keys sigs1 sigs2).take m) := by
  rw [combineMultisig_eq h, take_filterMap_congr checks_empty keys m
    (fun key _ hnone => lookup_giveOut_none hnone)]
  intro key hkey
  have hmem : key ∈ keys := (List.mem_filter.mp (List.mem_of_mem_take hkey)).1
  cases hfind : (allSigs sigs1 sigs2).find? fun sig => ctx.checks s sig key with
  | none => exact lookup_giveOut_none hfind
  | some sig =>
      have hfirst := firstOf_of_find (checks_empty key) hfind
      obtain ⟨hcanonical, hok⟩ := verifies_canonical (hfirsts key hkey sig hfirst)
      exact lookup_giveOut_some hmem hfind fun key' hmem' hok' =>
        hone sig hfirst.mem hcanonical key' hmem' key hmem hok' hok

/-- How an output pays to the script, and what the two stacks hold besides the
signatures. -/
inductive PaysTo (crypto : Crypto) (s : CScript) : (scriptPubKey : CScript) →
    (redeem : List valtype) → Prop where
  | itself : PaysTo crypto s s []
  | throughHash {scriptPubKey : CScript} {type : txnouttype} {sols : List valtype}
      (hsolver : Solver scriptPubKey = some (type, sols))
      (htype : type.undelayed = .TX_SCRIPTHASH)
      (hhash : crypto.Hash160 s = (undelayedSolutions type sols).headD []) :
      PaysTo crypto s scriptPubKey [s]

theorem MultisigOf.ne_nil (h : MultisigOf m keys s delay) : s ≠ [] := by
  rintro rfl
  cases h with
  | plain h =>
      obtain ⟨opcode, vch, rest, found, more, hop, -⟩ :=
        (matchesTemplate_cons_iff (by decide)).mp h.1
      cases hop

theorem combineSolved_eq {scriptPubKey : CScript} {redeem : List valtype} {crypto : Crypto}
    {txTo : CTransaction} {nIn : ℕ} (h : MultisigOf m keys s delay)
    (hpays : PaysTo crypto s scriptPubKey redeem) :
    combineSolved crypto txTo nIn (redeem ++ sigs1) (redeem ++ sigs2) scriptPubKey
        scriptPubKey.Solved =
      CombineMultisig crypto s txTo nIn s.Solved.2 s.Solved.1 sigs1 sigs2 ++ PushAll redeem := by
  have hitself : ∀ sigs1 sigs2, combineSolved crypto txTo nIn sigs1 sigs2 s s.Solved =
      CombineMultisig crypto s txTo nIn s.Solved.2 s.Solved.1 sigs1 sigs2 := by
    intro sigs1 sigs2
    rw [h.solved]
    cases delay <;> cases sigs1 <;> rfl
  cases hpays with
  | itself => simp only [List.nil_append, hitself, PushAll, List.map_nil, List.flatten_nil,
      List.append_nil]
  | @throughHash _ type sols hsolver htype hhash =>
      have hnull : type ≠ .TX_NULL_DATA := by
        rintro rfl
        cases htype
      have hne : s.isEmpty = false := by
        rw [List.isEmpty_eq_false_iff]
        exact h.ne_nil
      rw [solved_of_solver hnull hsolver, List.singleton_append, List.singleton_append,
        combineSolved, htype]
      simp only [List.headD_cons, List.tail_cons, hne, Bool.false_eq_true, if_false, hitself,
        PushAll, List.map_singleton, List.flatten_singleton]

end Combined

/-! ### Testing the combined script -/

/-- Does `VerifyScript` run the script? -/
def Tested (ctx : ScriptContext) (scriptPubKey : CScript) (redeem : List valtype) : Prop :=
  redeem ≠ [] → ctx.flags.P2SH = true ∧ scriptPubKey.IsPayToScriptHash = true

section Testing

variable {ctx : ScriptContext} {m : ℕ} {keys sigs1 sigs2 sigs : List valtype}
  {s scriptPubKey : CScript} {redeem : List valtype} {delay : Option valtype}

theorem placed_eq (m : ℕ) (sigs redeem : List valtype) :
    placed m sigs ++ PushAll redeem =
      pushAll ([] :: (sigs ++ List.replicate (m - sigs.length) [] ++ redeem)) := by
  have hzeros : ∀ n, pushAll (List.replicate n []) =
      List.replicate n (UInt8.ofNat OP_0) := by
    intro n
    induction n with
    | zero => rfl
    | succ n ih =>
        rw [List.replicate_succ, List.replicate_succ, ← ih]
        rfl
  have hcons : ∀ items, pushAll ([] :: items) = UInt8.ofNat OP_0 :: pushAll items :=
    fun _ => rfl
  rw [hcons, pushAll_append, pushAll_append, hzeros, placed]
  simp only [List.cons_append, List.append_assoc]
  rfl

/-- Which combined scripts `VerifyScript` accepts. -/
theorem verifyScript_placed (h : MultisigOf m keys s delay)
    (hpays : PaysTo ctx.crypto s scriptPubKey redeem) (hlock : Unlocked ctx delay)
    (hdelay : ∀ d, scriptPubKey.GetDelay = some d → LockPasses ctx d)
    (hlen : sigs.length = m) (hle : m ≤ keys.length)
    (hsize : ∀ item ∈ redeem ++ sigs, item.length ≤ MAX_SCRIPT_ELEMENT_SIZE)
    (hdelete : ∀ vchSig ∈ sigs, s.FindAndDelete (pushData vchSig) = s) :
    VerifyScript ctx (placed m sigs ++ PushAll redeem) scriptPubKey = .ok true ↔
      (Tested ctx scriptPubKey redeem →
        ∃ used, List.Forall₂ (fun sig key => ctx.verifies s sig key = true) sigs used ∧
          used.Sublist keys) := by
  obtain ⟨vch, heval, htop⟩ := h.evalScript hlock hlen hle hdelete
  have hm := h.le
  have hscript : placed m sigs ++ PushAll redeem = pushAll ([] :: sigs ++ redeem) := by
    rw [placed_eq, hlen, Nat.sub_self, List.replicate_zero, List.append_nil, List.cons_append]
  have hall : ∀ item ∈ [] :: sigs ++ redeem, item.length ≤ MAX_SCRIPT_ELEMENT_SIZE := by
    intro item hmem
    simp only [List.cons_append, List.mem_cons, List.mem_append] at hmem
    rcases hmem with rfl | hmem | hmem
    · exact Nat.zero_le _
    · exact hsize item (List.mem_append_right _ hmem)
    · exact hsize item (List.mem_append_left _ hmem)
  rw [hscript]
  cases hpays with
  | itself =>
      rw [List.append_nil] at hall ⊢
      rw [verifyScript_itself h.not_payToScriptHash (evalScript_items
        (by rw [List.length_cons]; omega) hall)]
      constructor
      · rintro ⟨out, hout, htrue⟩ -
        rw [heval, Option.some.injEq] at hout
        exact htop.mp (hout ▸ htrue)
      · exact fun hused => ⟨_, heval, htop.mpr (hused fun hne => absurd rfl hne)⟩
  | throughHash hsolver htype hhash =>
      have hroom : ([] :: sigs ++ [s]).length ≤ 18 := by
        rw [List.length_append, List.length_cons, List.length_singleton]
        omega
      have hsig : EvalScript ctx [] (pushAll ([] :: sigs ++ [s])) =
          some (s :: ([] :: sigs).reverse) := by
        rw [evalScript_items hroom hall, List.reverse_concat]
      have hs : EvalScript ctx (s :: ([] :: sigs).reverse) scriptPubKey =
          some (vchTrue :: ([] :: sigs).reverse) :=
        evalScript_hash hsolver htype hhash hdelay (by
          rw [List.length_reverse, List.length_cons]
          omega)
      by_cases htested : ctx.flags.P2SH = true ∧ scriptPubKey.IsPayToScriptHash = true
      · rw [verifyScript_throughHash htested.1 htested.2 (isPushOnly_pushAll hall) hsig hs]
        constructor
        · rintro ⟨out, hout, htrue⟩ -
          rw [heval, Option.some.injEq] at hout
          exact htop.mp (hout ▸ htrue)
        · exact fun hused => ⟨_, heval, htop.mpr (hused fun _ => htested)⟩
      · refine iff_of_true ?_ fun h => absurd (h (List.cons_ne_nil _ _)) htested
        exact verifyScript_iff.mpr ⟨_, _, hsig, hs, rfl,
          fun hP2SH hhash => absurd ⟨hP2SH, hhash⟩ htested⟩

/-- What is placed can be told from the script. -/
theorem mem_of_placed_eq {sigs' : List valtype} (hm : m ≤ 16) (hredeem : redeem.length ≤ 1)
    (hlen : sigs.length ≤ m) (hlen' : sigs'.length ≤ m)
    (hsize : ∀ item ∈ redeem ++ sigs, item.length ≤ MAX_SCRIPT_ELEMENT_SIZE)
    (hsize' : ∀ item ∈ redeem ++ sigs', item.length ≤ MAX_SCRIPT_ELEMENT_SIZE)
    (ctx : ScriptContext) (h : placed m sigs ++ PushAll redeem = placed m sigs' ++ PushAll redeem)
    {sig : valtype} (hmem : sig ∈ sigs) (hne : sig ≠ []) : sig ∈ sigs' := by
  have heval : ∀ {sigs : List valtype}, sigs.length ≤ m →
      (∀ item ∈ redeem ++ sigs, item.length ≤ MAX_SCRIPT_ELEMENT_SIZE) →
      EvalScript ctx [] (placed m sigs ++ PushAll redeem) =
        some ([] :: (sigs ++ List.replicate (m - sigs.length) [] ++ redeem)).reverse := by
    intro sigs hlen hsize
    rw [placed_eq]
    refine evalScript_items ?_ fun item hitem => ?_
    · simp only [List.length_cons, List.length_append, List.length_replicate]
      omega
    · simp only [List.mem_cons, List.mem_append, List.mem_replicate] at hitem
      rcases hitem with rfl | (hsig | ⟨-, rfl⟩) | hredeem
      · exact Nat.zero_le _
      · exact hsize item (List.mem_append_right _ hsig)
      · exact Nat.zero_le _
      · exact hsize item (List.mem_append_left _ hredeem)
  have hstack := heval hlen hsize
  rw [h, heval hlen' hsize', Option.some.injEq] at hstack
  have hitems := List.append_cancel_right (List.cons.inj (List.reverse_injective hstack)).2
  have hboth : sig ∈ sigs' ++ List.replicate (m - sigs'.length) [] :=
    hitems ▸ List.mem_append_left _ hmem
  rcases List.mem_append.mp hboth with hsig | hzero
  · exact hsig
  · exact absurd (List.eq_of_mem_replicate hzero) hne

end Testing

/-! ### Which combined scripts keep the signatures -/

/-- The combined script opens the output if there are enough signatures; else it holds those
that there are, in the order of their keys. -/
structure KeepsSignatures (ctx : ScriptContext) (s : CScript) (m : ℕ)
    (keys sigs1 sigs2 : List valtype) (delay : Option valtype) (scriptPubKey : CScript)
    (redeem : List valtype) (combined : CScript) : Prop where
  opens : m ≤ (signedKeys (ctx.verifies s) keys sigs1 sigs2).length → Unlocked ctx delay →
    (∀ d, scriptPubKey.GetDelay = some d → LockPasses ctx d) →
      VerifyScript ctx combined scriptPubKey = .ok true
  holds : (signedKeys (ctx.verifies s) keys sigs1 sigs2).length < m →
    ∃ found, List.Forall₂
      (fun sig key => sig ∈ sigs1 ++ sigs2 ∧ ctx.verifies s sig key = true) found
        (signedKeys (ctx.verifies s) keys sigs1 sigs2) ∧
      combined = placed m found ++ PushAll redeem

/-- The signatures that `CombineMultisig` takes. -/
def chosenSigs (ctx : ScriptContext) (s : CScript) (m : ℕ) (keys sigs1 sigs2 : List valtype) :
    List valtype :=
  (keys.filterMap fun key =>
    (giveOut (ctx.checks s) keys (allSigs sigs1 sigs2)).lookup key).take m

/-- A canonical signature is one of one key at most. -/
def OneKeyEach (ctx : ScriptContext) (s : CScript) (keys sigs1 sigs2 : List valtype) : Prop :=
  ∀ sig ∈ sigs1 ++ sigs2, IsCanonicalSignature sig ctx.flags = true →
    ∀ key ∈ keys, ∀ key' ∈ keys, ctx.checks s sig key = true → ctx.checks s sig key' = true →
      key = key'

/-- No signature is what the script itself pushes. -/
def NotPushed (ctx : ScriptContext) (s : CScript) (keys sigs1 sigs2 : List valtype) : Prop :=
  ∀ sig ∈ sigs1 ++ sigs2, ∀ key ∈ keys, ctx.checks s sig key = true →
    ∀ op ∈ (ops s).1, op.2 ≠ sig

section Keeping

variable {ctx : ScriptContext} {m : ℕ} {keys sigs1 sigs2 : List valtype}
  {s scriptPubKey : CScript} {redeem : List valtype} {delay : Option valtype}

theorem related_of_mem {α β : Type} {R : α → β → Prop} {l : List α} {l' : List β}
    (h : List.Forall₂ R l l') {a : α} (ha : a ∈ l) : ∃ b ∈ l', R a b := by
  induction h with
  | nil => exact absurd ha List.not_mem_nil
  | cons hab _ ih =>
      rcases List.mem_cons.mp ha with rfl | ha
      · exact ⟨_, List.mem_cons_self, hab⟩
      · obtain ⟨b, hb, hR⟩ := ih ha
        exact ⟨b, List.mem_cons_of_mem _ hb, hR⟩

theorem mem_signedKeys {check : valtype → valtype → Bool} {key : valtype} :
    key ∈ signedKeys check keys sigs1 sigs2 ↔
      key ∈ keys ∧ ∃ sig ∈ sigs1 ++ sigs2, check sig key = true := by
  rw [signedKeys, List.mem_filter, List.any_eq_true]

theorem exists_firstOf {key sig : valtype} (hmem : sig ∈ sigs1 ++ sigs2)
    (hok : ctx.checks s sig key = true) :
    ∃ first, FirstOf (ctx.checks s) sigs1 sigs2 first key := by
  cases hfind : (allSigs sigs1 sigs2).find? fun sig => ctx.checks s sig key with
  | none =>
      have hnone := find_allSigs_none (checks_empty key) hfind
      rw [List.any_eq_false] at hnone
      exact absurd hok (hnone sig hmem)
  | some first => exact ⟨first, firstOf_of_find (checks_empty key) hfind⟩

/-- The first keys that have a signature have one that `VerifyScript` takes. -/
theorem FirstsVerify.mem_signedKeys (hfirsts : FirstsVerify ctx s m keys sigs1 sigs2)
    {key : valtype} (hkey : key ∈ (signedKeys (ctx.checks s) keys sigs1 sigs2).take m) :
    key ∈ signedKeys (ctx.verifies s) keys sigs1 sigs2 := by
  obtain ⟨hmem, sig, hsig, hok⟩ := Spec.mem_signedKeys.mp (List.mem_of_mem_take hkey)
  obtain ⟨first, hfirst⟩ := exists_firstOf hsig hok
  exact Spec.mem_signedKeys.mpr ⟨hmem, first, hfirst.mem, hfirsts key hkey first hfirst⟩

theorem FirstsVerify.taken (hfirsts : FirstsVerify ctx s m keys sigs1 sigs2) :
    List.Forall₂ (fun sig key => sig ∈ sigs1 ++ sigs2 ∧ ctx.verifies s sig key = true)
      ((foundSigs (ctx.checks s) keys sigs1 sigs2).take m)
      ((signedKeys (ctx.checks s) keys sigs1 sigs2).take m) := by
  have htaken := List.forall₂_take m
    (@foundSigs_first (ctx.checks s) sigs1 sigs2 checks_empty keys)
  have hboth := (List.forall₂_and_left _ _).mpr ⟨fun key hkey => hkey, htaken.flip⟩
  exact hboth.flip.imp fun sig key h => ⟨h.2.mem, hfirsts key h.1 sig h.2⟩

theorem checks_of_verifies {key : valtype}
    (h : key ∈ signedKeys (ctx.verifies s) keys sigs1 sigs2) :
    key ∈ signedKeys (ctx.checks s) keys sigs1 sigs2 := by
  obtain ⟨hmem, sig, hsig, hok⟩ := mem_signedKeys.mp h
  exact mem_signedKeys.mpr ⟨hmem, sig, hsig, (verifies_canonical hok).2⟩

/-- Where too few keys have a signature, all of them have one that `VerifyScript` takes. -/
theorem FirstsVerify.signedKeys_eq (hfirsts : FirstsVerify ctx s m keys sigs1 sigs2)
    (hfew : (signedKeys (ctx.verifies s) keys sigs1 sigs2).length < m) :
    (signedKeys (ctx.checks s) keys sigs1 sigs2).length < m ∧
      signedKeys (ctx.verifies s) keys sigs1 sigs2 =
        signedKeys (ctx.checks s) keys sigs1 sigs2 := by
  have hshort : (signedKeys (ctx.checks s) keys sigs1 sigs2).length < m := by
    by_contra hlong
    have hsub : ((signedKeys (ctx.checks s) keys sigs1 sigs2).take m).Sublist keys :=
      (List.take_sublist _ _).trans List.filter_sublist
    have hfilter := hsub.filter fun key => (sigs1 ++ sigs2).any fun sig => ctx.verifies s sig key
    rw [List.filter_eq_self.mpr fun key hkey =>
      (List.mem_filter.mp (hfirsts.mem_signedKeys hkey)).2] at hfilter
    have hle := hfilter.length_le
    rw [List.length_take, Nat.min_eq_left (Nat.not_lt.mp hlong)] at hle
    exact absurd hfew (Nat.not_lt.mpr hle)
  refine ⟨hshort, List.filter_congr fun key hkey => ?_⟩
  rw [Bool.eq_iff_iff]
  constructor
  · intro hany
    exact (List.mem_filter.mp (checks_of_verifies (List.mem_filter.mpr ⟨hkey, hany⟩))).2
  · intro hany
    refine (List.mem_filter.mp (hfirsts.mem_signedKeys ?_)).2
    rw [List.take_of_length_le hshort.le]
    exact List.mem_filter.mpr ⟨hkey, hany⟩

theorem unchanged_of_notPushed (hpushed : NotPushed ctx s keys sigs1 sigs2)
    (hsize : ∀ sig ∈ sigs1 ++ sigs2, sig.length ≤ MAX_SCRIPT_ELEMENT_SIZE) {sig key : valtype}
    (hmem : sig ∈ sigs1 ++ sigs2) (hkey : key ∈ keys) (hok : ctx.checks s sig key = true) :
    s.FindAndDelete (pushData sig) = s :=
  findAndDelete_eq_self (lt_of_le_of_lt (hsize sig hmem) (by decide))
    (hpushed sig hmem key hkey hok)

/-- Where the first signatures verify, none is lost. -/
theorem FirstsVerify.keeps (hfirsts : FirstsVerify ctx s m keys sigs1 sigs2)
    (h : MultisigOf m keys s delay) (hpays : PaysTo ctx.crypto s scriptPubKey redeem)
    (hone : OneKeyEach ctx s keys sigs1 sigs2) (hpushed : NotPushed ctx s keys sigs1 sigs2)
    (hsize : ∀ item ∈ redeem ++ (sigs1 ++ sigs2), item.length ≤ MAX_SCRIPT_ELEMENT_SIZE) :
    KeepsSignatures ctx s m keys sigs1 sigs2 delay scriptPubKey redeem
      (CombineMultisig ctx.crypto s ctx.txTo ctx.nIn s.Solved.2 s.Solved.1 sigs1 sigs2 ++
        PushAll redeem) := by
  have htaken := hfirsts.taken
  have hpool : ∀ sig ∈ sigs1 ++ sigs2, sig.length ≤ MAX_SCRIPT_ELEMENT_SIZE :=
    fun sig hsig => hsize sig (List.mem_append_right _ hsig)
  rw [combineMultisig_firsts h hone hfirsts]
  constructor
  · intro henough hlock hdelay
    have hle : m ≤ (signedKeys (ctx.checks s) keys sigs1 sigs2).length :=
      henough.trans (List.Sublist.length_le (List.monotone_filter_right keys fun key hany => by
        obtain ⟨sig, hsig, hok⟩ := List.any_eq_true.mp hany
        exact List.any_eq_true.mpr ⟨sig, hsig, (verifies_canonical hok).2⟩))
    have hlen : ((foundSigs (ctx.checks s) keys sigs1 sigs2).take m).length = m := by
      rw [htaken.length_eq, List.length_take, Nat.min_eq_left hle]
    have hused : ((signedKeys (ctx.checks s) keys sigs1 sigs2).take m).Sublist keys :=
      (List.take_sublist _ _).trans List.filter_sublist
    have hmem : ∀ sig ∈ (foundSigs (ctx.checks s) keys sigs1 sigs2).take m,
        sig ∈ sigs1 ++ sigs2 ∧ ∃ key ∈ keys, ctx.checks s sig key = true := by
      intro sig hsig
      obtain ⟨key, hkey, hin, hok⟩ := related_of_mem htaken hsig
      exact ⟨hin, key, hused.subset hkey, (verifies_canonical hok).2⟩
    refine (verifyScript_placed h hpays hlock hdelay hlen (hle.trans (List.length_filter_le _ _))
      ?_ ?_).mpr fun _ => ⟨_, htaken.imp fun _ _ h => h.2, hused⟩
    · intro item hitem
      rcases List.mem_append.mp hitem with hredeem | hsig
      · exact hsize item (List.mem_append_left _ hredeem)
      · exact hpool item (hmem item hsig).1
    · intro sig hsig
      obtain ⟨hin, key, hkey, hok⟩ := hmem sig hsig
      exact unchanged_of_notPushed hpushed hpool hin hkey hok
  · intro hfew
    obtain ⟨hshort, heq⟩ := hfirsts.signedKeys_eq hfew
    refine ⟨_, ?_, rfl⟩
    rwa [heq, ← List.take_of_length_le hshort.le]

/-! ### What is lost otherwise -/

theorem mem_chosenSigs {sig : valtype} (h : sig ∈ chosenSigs ctx s m keys sigs1 sigs2) :
    sig ∈ sigs1 ++ sigs2 ∧ sig ≠ [] ∧ ∃ key ∈ keys, ctx.checks s sig key = true := by
  obtain ⟨key, hkey, hlookup⟩ := List.mem_filterMap.mp (List.mem_of_mem_take h)
  obtain ⟨hmem, hok⟩ := suits_of_lookup_giveOut hlookup
  obtain ⟨hin, hne⟩ := mem_allSigs.mp hmem
  exact ⟨hin, hne, key, hkey, hok⟩

/-- Enough signatures leave no place free. -/
theorem length_chosenSigs (hone : OneKeyEach ctx s keys sigs1 sigs2)
    (henough : m ≤ (signedKeys (ctx.verifies s) keys sigs1 sigs2).length) :
    (chosenSigs ctx s m keys sigs1 sigs2).length = m := by
  rw [chosenSigs, List.length_take, Nat.min_eq_left]
  rw [List.length_filterMap_eq_countP]
  rw [signedKeys, ← List.countP_eq_length_filter] at henough
  refine henough.trans (List.countP_mono_left fun key hkey hany => ?_)
  obtain ⟨sig, hsig, hverifies⟩ := List.any_eq_true.mp hany
  obtain ⟨hcanonical, hok⟩ := verifies_canonical hverifies
  have hne : sig ≠ [] := by
    rintro rfl
    rw [checks_empty] at hok
    cases hok
  exact isSome_lookup_giveOut (mem_allSigs.mpr ⟨hsig, hne⟩) hkey hok fun key' hkey' hok' =>
    hone sig hsig hcanonical key' hkey' key hkey hok' hok

/-- A first signature that does not verify is taken for one that does. -/
theorem exists_unverified (hnodup : keys.Nodup) (hone : OneKeyEach ctx s keys sigs1 sigs2)
    (hnot : ¬ FirstsVerify ctx s m keys sigs1 sigs2) :
    ∃ sig ∈ chosenSigs ctx s m keys sigs1 sigs2, ∀ key ∈ keys, ctx.verifies s sig key = false := by
  simp only [FirstsVerify, not_forall] at hnot
  obtain ⟨key, hkey, sig, hfirst, hbad⟩ := hnot
  have hmem : key ∈ keys := (mem_signedKeys.mp (List.mem_of_mem_take hkey)).1
  have hne : sig ≠ [] := by
    rintro rfl
    have hok := hfirst.checks
    rw [checks_empty] at hok
    cases hok
  obtain ⟨found, hfound⟩ : ∃ found, ((allSigs sigs1 sigs2).find? fun sig =>
      ctx.checks s sig key) = some found := by
    rw [← Option.isSome_iff_exists, List.find?_isSome]
    exact ⟨sig, mem_allSigs.mpr ⟨hfirst.mem, hne⟩, hfirst.checks⟩
  -- Both are the first signature of the key.
  obtain rfl : found = sig := by
    have hfirst' := firstOf_of_find (checks_empty key) hfound
    exact bytes_total (hfirst.first _ hfirst'.mem hfirst'.checks)
      (hfirst'.first _ hfirst.mem hfirst.checks)
  obtain ⟨front, key', back, rfl, hback, hlookup⟩ := lookup_giveOut_before hmem hfound
  refine ⟨found, ?_, fun other hother => ?_⟩
  · have hshort : (front.filter fun key => (sigs1 ++ sigs2).any fun sig =>
        ctx.checks s sig key).length < m := by
      by_contra hlong
      rw [signedKeys, List.filter_append, List.take_append_of_le_length
        (Nat.not_lt.mp hlong)] at hkey
      have hfront := (List.mem_filter.mp (List.mem_of_mem_take hkey)).1
      exact (List.disjoint_of_nodup_append hnodup) hfront hback
    have hless : (front.filterMap fun key => (giveOut (ctx.checks s) (front ++ key' :: back)
        (allSigs sigs1 sigs2)).lookup key).length < m := by
      refine lt_of_le_of_lt ?_ hshort
      rw [List.length_filterMap_eq_countP, ← List.countP_eq_length_filter]
      refine List.countP_mono_left fun key _ hsome => ?_
      obtain ⟨given, hgiven⟩ := Option.isSome_iff_exists.mp hsome
      obtain ⟨hin, hok⟩ := suits_of_lookup_giveOut hgiven
      exact List.any_eq_true.mpr ⟨given, (mem_allSigs.mp hin).1, hok⟩
    obtain ⟨k, hk⟩ := Nat.exists_eq_add_of_lt hless
    rw [chosenSigs, List.filterMap_append, List.filterMap_cons, hlookup, List.take_append]
    refine List.mem_append_right _ ?_
    rw [hk, Nat.add_assoc, Nat.add_sub_cancel_left, List.take_succ_cons]
    exact List.mem_cons_self
  · rw [Bool.eq_false_iff]
    intro hverifies
    obtain ⟨hcanonical, hok⟩ := verifies_canonical hverifies
    obtain rfl := hone found hfirst.mem hcanonical other hother key hmem hok hfirst.checks
    exact hbad hverifies

/-- What is kept has first signatures that verify. -/
theorem KeepsSignatures.firsts (h : MultisigOf m keys s delay)
    (hpays : PaysTo ctx.crypto s scriptPubKey redeem) (hnodup : keys.Nodup)
    (hone : OneKeyEach ctx s keys sigs1 sigs2) (hpushed : NotPushed ctx s keys sigs1 sigs2)
    (hsize : ∀ item ∈ redeem ++ (sigs1 ++ sigs2), item.length ≤ MAX_SCRIPT_ELEMENT_SIZE)
    (htested : Tested ctx scriptPubKey redeem) (hlock : Unlocked ctx delay)
    (hdelay : ∀ d, scriptPubKey.GetDelay = some d → LockPasses ctx d)
    (hkeeps : KeepsSignatures ctx s m keys sigs1 sigs2 delay scriptPubKey redeem
      (CombineMultisig ctx.crypto s ctx.txTo ctx.nIn s.Solved.2 s.Solved.1 sigs1 sigs2 ++
        PushAll redeem)) : FirstsVerify ctx s m keys sigs1 sigs2 := by
  by_contra hnot
  obtain ⟨bad, hbad, hunverified⟩ := exists_unverified hnodup hone hnot
  have hpool : ∀ sig ∈ sigs1 ++ sigs2, sig.length ≤ MAX_SCRIPT_ELEMENT_SIZE :=
    fun sig hsig => hsize sig (List.mem_append_right _ hsig)
  rw [combineMultisig_eq h] at hkeeps
  rcases Nat.lt_or_ge (signedKeys (ctx.verifies s) keys sigs1 sigs2).length m with hfew | henough
  · obtain ⟨found, hfound, hcombined⟩ := hkeeps.holds hfew
    have hm : m ≤ 16 := h.le
    have hredeem : redeem.length ≤ 1 := by
      cases hpays <;> simp
    have hsound : ∀ sig ∈ found, ∃ key ∈ signedKeys (ctx.verifies s) keys sigs1 sigs2,
        sig ∈ sigs1 ++ sigs2 ∧ ctx.verifies s sig key = true :=
      fun sig hsig => related_of_mem hfound hsig
    have hin : bad ∈ found := by
      refine mem_of_placed_eq hm hredeem (List.length_take_le _ _)
        (hfound.length_eq.trans_le hfew.le) ?_ ?_ ctx hcombined hbad (mem_chosenSigs hbad).2.1
      · intro item hitem
        rcases List.mem_append.mp hitem with hitem | hsig
        · exact hsize item (List.mem_append_left _ hitem)
        · exact hpool item (mem_chosenSigs hsig).1
      · intro item hitem
        rcases List.mem_append.mp hitem with hitem | hsig
        · exact hsize item (List.mem_append_left _ hitem)
        · obtain ⟨_, -, hmem, -⟩ := hsound item hsig
          exact hpool item hmem
    obtain ⟨key, hkey, -, hok⟩ := hsound bad hin
    rw [hunverified key (mem_signedKeys.mp hkey).1] at hok
    cases hok
  · have hlen := length_chosenSigs hone henough
    have hverify := (verifyScript_placed h hpays hlock hdelay hlen
      (henough.trans (List.length_filter_le _ _)) ?_ ?_).mp (hkeeps.opens henough hlock hdelay)
    · obtain ⟨used, hsigs, hused⟩ := hverify htested
      obtain ⟨key, hkey, hok⟩ := related_of_mem hsigs hbad
      rw [hunverified key (hused.subset hkey)] at hok
      cases hok
    · intro item hitem
      rcases List.mem_append.mp hitem with hredeem | hsig
      · exact hsize item (List.mem_append_left _ hredeem)
      · exact hpool item (mem_chosenSigs hsig).1
    · intro sig hsig
      obtain ⟨hin, -, key, hkey, hok⟩ := mem_chosenSigs hsig
      exact unchanged_of_notPushed hpushed hpool hin hkey hok

/-- Whether combined scripts keep the signatures depends on which of them come first. -/
theorem combineSignatures_keeps (scriptSig1 scriptSig2 : PushScript)
    (h : MultisigOf m keys s delay) (hnodup : keys.Nodup)
    (hpays : PaysTo ctx.crypto s scriptPubKey redeem)
    (hstack1 : scriptSig1.stack = redeem ++ sigs1) (hstack2 : scriptSig2.stack = redeem ++ sigs2)
    (hone : OneKeyEach ctx s keys sigs1 sigs2) (hpushed : NotPushed ctx s keys sigs1 sigs2) :
    let combine := CombineSignatures ctx.crypto scriptPubKey ctx.txTo ctx.nIn
    let keeps := KeepsSignatures ctx s m keys sigs1 sigs2 delay scriptPubKey redeem
      (combine scriptSig1 scriptSig2)
    (Tested ctx scriptPubKey redeem → Unlocked ctx delay →
      (∀ d, scriptPubKey.GetDelay = some d → LockPasses ctx d) →
        (keeps ↔ FirstsVerify ctx s m keys sigs1 sigs2)) ∧
    (FirstsVerify ctx s m keys sigs1 sigs2 → keeps) ∧
    combine scriptSig2 scriptSig1 = combine scriptSig1 scriptSig2 := by
  intro combine keeps
  have hsize : ∀ item ∈ redeem ++ (sigs1 ++ sigs2), item.length ≤ MAX_SCRIPT_ELEMENT_SIZE := by
    intro item hmem
    simp only [List.mem_append] at hmem
    rcases hmem with hredeem | hsig1 | hsig2
    · exact scriptSig1.stack_size item (hstack1 ▸ List.mem_append_left _ hredeem)
    · exact scriptSig1.stack_size item (hstack1 ▸ List.mem_append_right _ hsig1)
    · exact scriptSig2.stack_size item (hstack2 ▸ List.mem_append_right _ hsig2)
  have hcombined : combine scriptSig1 scriptSig2 =
      CombineMultisig ctx.crypto s ctx.txTo ctx.nIn s.Solved.2 s.Solved.1 sigs1 sigs2 ++
        PushAll redeem := by
    simp only [combine, CombineSignatures, hstack1, hstack2]
    exact combineSolved_eq h hpays
  have hswapped : combine scriptSig2 scriptSig1 =
      CombineMultisig ctx.crypto s ctx.txTo ctx.nIn s.Solved.2 s.Solved.1 sigs2 sigs1 ++
        PushAll redeem := by
    simp only [combine, CombineSignatures, hstack1, hstack2]
    exact combineSolved_eq h hpays
  have hkeeps : FirstsVerify ctx s m keys sigs1 sigs2 → keeps := by
    intro hfirsts
    simp only [keeps, hcombined]
    exact hfirsts.keeps h hpays hone hpushed hsize
  refine ⟨fun htested hlock hdelay => ⟨fun hkept => ?_, hkeeps⟩, hkeeps, ?_⟩
  · simp only [keeps, hcombined] at hkept
    exact KeepsSignatures.firsts h hpays hnodup hone hpushed hsize htested hlock hdelay hkept
  · rw [hswapped, hcombined, combineMultisig_eq h, combineMultisig_eq h, allSigs_comm]

end Keeping

/-! ### One key -/

/-- `1 <key> 1 OP_CHECKMULTISIG`. -/
def oneKeyMultisig : CScript := 0x51 :: 0x21 :: oneKey ++ [0x51, UInt8.ofNat OP_CHECKMULTISIG]

def oneKeyContext : ScriptContext :=
  ⟨oneKeyCrypto, oneInput, 0, SCRIPT_VERIFY_P2SH_STRICTENC⟩

/-- `OP_0` and a signature with its hash type. -/
def oneKeySigned : (nHashType : Bool) → PushScript
  | true => ⟨pushAll [[], oneKeySig ++ [1]], by decide⟩
  | false => ⟨pushAll [[], oneKeySig ++ [0]], by decide⟩

theorem oneKeyMultisig_multisigOf : MultisigOf 1 [oneKey] oneKeyMultisig none := by
  refine .plain ⟨?_, by decide, by decide⟩
  exact (matchTemplate_iff (mTemplates_keysCounted (.TX_MULTISIG, baseTemplate .TX_MULTISIG)
    (by decide))).mp (by decide)

theorem oneKey_oneKeyEach (sigs1 sigs2 : List valtype) :
    OneKeyEach oneKeyContext oneKeyMultisig [oneKey] sigs1 sigs2 := by
  intro sig _ _ key hkey key' hkey' _ _
  rw [List.mem_singleton.mp hkey, List.mem_singleton.mp hkey']

theorem oneKeyMultisig_notPushed {sigs1 sigs2 : List valtype}
    (h : ∀ sig ∈ sigs1 ++ sigs2, ∀ op ∈ (ops oneKeyMultisig).1, op.2 = sig → sig = []) :
    NotPushed oneKeyContext oneKeyMultisig [oneKey] sigs1 sigs2 := by
  intro sig hsig key _ hok op hop heq
  rw [h sig hsig op hop heq, checks_empty] at hok
  cases hok

/-- With the same signature on both sides, it is kept. -/
theorem combineSignatures_keeps_same :
    KeepsSignatures oneKeyContext oneKeyMultisig 1 [oneKey] [oneKeySig ++ [1], []]
      [oneKeySig ++ [1], []] none oneKeyMultisig []
      (CombineSignatures oneKeyCrypto oneKeyMultisig oneInput 0 (oneKeySigned true)
        (oneKeySigned true)) := by
  refine ((@combineSignatures_keeps oneKeyContext 1 [oneKey] _ _ oneKeyMultisig oneKeyMultisig
    [] none (oneKeySigned true) (oneKeySigned true) oneKeyMultisig_multisigOf
    (List.nodup_singleton _) .itself (by decide) (by decide) (oneKey_oneKeyEach _ _)
    (oneKeyMultisig_notPushed (by decide))).1
    (fun hne => absurd rfl hne) (fun _ hnone => by cases hnone) ?_).mpr ?_
  · intro d hd
    have hnone : oneKeyMultisig.GetDelay = none := by decide
    rw [hnone] at hd
    cases hd
  · intro key hkey sig hfirst
    obtain rfl : key = oneKey :=
      List.mem_singleton.mp (mem_signedKeys.mp (List.mem_of_mem_take hkey)).1
    have hmem := hfirst.mem
    simp only [List.cons_append, List.nil_append, List.mem_cons, List.not_mem_nil,
      or_false] at hmem
    have hverifies : oneKeyContext.verifies oneKeyMultisig (oneKeySig ++ [1]) oneKey = true := by
      decide +kernel
    rcases hmem with rfl | rfl | rfl | rfl
    · exact hverifies
    · exact absurd hfirst.checks (by rw [checks_empty]; decide)
    · exact hverifies
    · exact absurd hfirst.checks (by rw [checks_empty]; decide)

/-- A signature with hash type 0 comes first, and `VerifyScript` does not take it. -/
theorem combineSignatures_loses :
    MultisigOf 1 [oneKey] oneKeyMultisig none ∧ [oneKey].Nodup ∧
      PaysTo oneKeyCrypto oneKeyMultisig oneKeyMultisig [] ∧
      (oneKeySigned true).stack = [oneKeySig ++ [1], []] ∧
      (oneKeySigned false).stack = [oneKeySig ++ [0], []] ∧
      OneKeyEach oneKeyContext oneKeyMultisig [oneKey] [oneKeySig ++ [1], []]
        [oneKeySig ++ [0], []] ∧
      NotPushed oneKeyContext oneKeyMultisig [oneKey] [oneKeySig ++ [1], []]
        [oneKeySig ++ [0], []] ∧
      (signedKeys (oneKeyContext.verifies oneKeyMultisig) [oneKey] [oneKeySig ++ [1], []]
        [oneKeySig ++ [0], []]).length = 1 ∧
      VerifyScript oneKeyContext (CombineSignatures oneKeyCrypto oneKeyMultisig oneInput 0
        (oneKeySigned true) (oneKeySigned false)) oneKeyMultisig = .ok false :=
  ⟨oneKeyMultisig_multisigOf, List.nodup_singleton _, .itself, by decide, by decide,
    oneKey_oneKeyEach _ _, oneKeyMultisig_notPushed (by decide), by decide +kernel,
    by decide +kernel⟩

end Ziftrcoin.Spec
