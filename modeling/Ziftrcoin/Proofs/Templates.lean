/-
Module: Ziftrcoin.Proofs.Templates
Purpose: The instructions of a script: pushes are read back, and a script that
  matches a template has the instructions of the template.
Trusted boundary: none
Main exports: instruction_pushData, matchTemplateOp_plain
-/
import Ziftrcoin.Proofs.Instructions
import Ziftrcoin.Proofs.LongChain

namespace Ziftrcoin.Spec

/-! ### Instructions -/

/-- An opcode that is no push has no data, and neither has the push of nothing. -/
theorem data_eq_nil_of_getOp {pc rest : CScript} {opcode : ℕ} {vch : valtype}
    (hop : getOp pc = some (opcode, vch, rest))
    (hnumber : opcode = OP_0 ∨ OP_PUSHDATA4 < opcode) : vch = [] := by
  obtain ⟨bytes, hinstr, -⟩ := getOp_iff.mp hop
  rcases hnumber with rfl | hnumber
  · obtain ⟨hzero, -⟩ := hinstr.direct_inv (by decide)
    exact List.length_eq_zero_iff.mp hzero.symm
  · exact (hinstr.data_eq_nil hnumber).1

theorem opcode_le_of_data {pc rest : CScript} {opcode : ℕ} {vch : valtype}
    (h : getOp pc = some (opcode, vch, rest)) (hvch : vch ≠ []) : opcode ≤ OP_PUSHDATA4 :=
  Nat.le_of_not_lt fun hop => hvch (data_eq_nil_of_getOp h (.inr hop))

/-- A push made by the wallet is one instruction. -/
theorem instruction_pushData {b : valtype} (hb : b.length < 2 ^ 32) :
    ∃ opcode, opcode ≤ OP_PUSHDATA4 ∧ Instruction opcode b (pushData b) := by
  unfold pushData
  split
  · next hshort =>
      have hle : b.length ≤ OP_PUSHDATA4 := by
        simp only [OP_PUSHDATA1, OP_PUSHDATA4] at hshort ⊢
        omega
      exact ⟨b.length, hle, .direct hshort⟩
  · split
    · exact ⟨OP_PUSHDATA1, by decide, .sized (.inl ⟨rfl, rfl⟩) (by omega)⟩
    · split
      · exact ⟨OP_PUSHDATA2, by decide, .sized (.inr (.inl ⟨rfl, rfl⟩)) (by omega)⟩
      · exact ⟨OP_PUSHDATA4, le_rfl, .sized (.inr (.inr ⟨rfl, rfl⟩)) (by omega)⟩

theorem getOp_pushData {b : valtype} (hb : b.length < 2 ^ 32) (rest : CScript) :
    ∃ opcode, opcode ≤ OP_PUSHDATA4 ∧
      getOp (pushData b ++ rest) = some (opcode, b, rest) := by
  obtain ⟨opcode, hle, hinstr⟩ := instruction_pushData hb
  exact ⟨opcode, hle, hinstr.getOp_append rest⟩

/-! ### Matching a template -/

/-- A matched template ends with the script. -/
theorem matchTemplate_nil {fuel : ℕ} {pc : CScript} {vSolutions out : List valtype}
    (h : matchTemplate fuel pc [] vSolutions = some out) : pc = [] ∧ out = vSolutions := by
  cases fuel with
  | zero => cases h
  | succ fuel =>
      unfold matchTemplate at h
      by_cases hpc : pc = []
      · rw [if_pos ⟨hpc, rfl⟩] at h
        exact ⟨hpc, (Option.some.inj h).symm⟩
      · rw [if_neg fun hand => hpc hand.1] at h
        cases hget : getOp pc <;> simp [hget] at h

/-- One instruction of a matched template. -/
theorem matchTemplate_cons {fuel : ℕ} {pc : CScript} {opcode2 : ℕ} {pc2 : List ℕ}
    {vSolutions out : List valtype} (hop2 : opcode2 ≠ OP_PUBKEYS)
    (h : matchTemplate fuel pc (opcode2 :: pc2) vSolutions = some out) :
    ∃ opcode vch rest found fuel', getOp pc = some (opcode, vch, rest) ∧
      matchTemplateOp opcode2 opcode vch = some found ∧
      matchTemplate fuel' rest pc2 (vSolutions ++ found) = some out := by
  cases fuel with
  | zero => cases h
  | succ fuel =>
      unfold matchTemplate at h
      rw [if_neg fun hand => nomatch hand.2] at h
      cases hget : getOp pc with
      | none => simp [hget] at h
      | some x =>
          obtain ⟨opcode, vch, rest⟩ := x
          simp only [hget, if_neg hop2] at h
          cases hfound : matchTemplateOp opcode2 opcode vch with
          | none => simp [hfound] at h
          | some found =>
              rw [hfound] at h
              exact ⟨opcode, vch, rest, found, fuel, rfl, hfound, h⟩

/-- Key-sized pushes one after the other. -/
inductive ReadsKeys : CScript → List valtype → CScript → Prop where
  | nil (pc : CScript) : ReadsKeys pc [] pc
  | cons {pc rest next : CScript} {opcode : ℕ} {key : valtype} {keys : List valtype}
      (hop : getOp pc = some (opcode, key, rest))
      (size : 33 ≤ key.length ∧ key.length ≤ 65) (more : ReadsKeys rest keys next) :
      ReadsKeys pc (key :: keys) next

/-- The `OP_PUBKEYS` loop, where it ends with an instruction that is no key. -/
theorem matchPubKeys_spec {fuel : ℕ} {pc pc1 : CScript} {opcode1 opcode' : ℕ}
    {vch1 vch' : valtype} {vSolutions found : List valtype} {pc' : CScript}
    (hget : getOp pc = some (opcode1, vch1, pc1))
    (h : matchPubKeys fuel opcode1 vch1 pc1 vSolutions = (opcode', vch', pc', found))
    (hop : opcode' ≠ OP_INVALIDOPCODE) :
    ∃ keys next, ReadsKeys pc keys next ∧ getOp next = some (opcode', vch', pc') ∧
      found = vSolutions ++ keys := by
  induction fuel generalizing pc opcode1 vch1 pc1 vSolutions with
  | zero =>
      injection h with h₁ h
      injection h with h₂ h
      injection h with h₃ h₄
      subst h₁ h₂ h₃ h₄
      exact ⟨[], pc, .nil pc, hget, (List.append_nil _).symm⟩
  | succ fuel ih =>
      rw [matchPubKeys] at h
      split at h
      · next hsize =>
          cases hnext : getOp pc1 with
          | none =>
              simp only [hnext, Prod.mk.injEq] at h
              exact absurd h.1.symm hop
          | some x =>
              obtain ⟨opcode2, vch2, pc2⟩ := x
              simp only [hnext] at h
              obtain ⟨keys, next, hreads, hend, hfound⟩ := ih hnext h
              exact ⟨vch1 :: keys, next, .cons hget hsize hreads, hend,
                by rw [hfound, List.append_assoc]; rfl⟩
      · injection h with h₁ h
        injection h with h₂ h
        injection h with h₃ h₄
        subst h₁ h₂ h₃ h₄
        exact ⟨[], pc, .nil pc, hget, (List.append_nil _).symm⟩

theorem matchTemplateOp_pubKey {opcode : ℕ} {vch : valtype} {found : List valtype}
    (h : matchTemplateOp OP_PUBKEY opcode vch = some found) :
    vch ≠ [] ∧ found = [vch] := by
  simp only [matchTemplateOp, if_true] at h
  split at h
  · cases h
  · next hsize =>
      refine ⟨?_, (Option.some.inj h).symm⟩
      rintro rfl
      exact hsize (.inl (by decide))

theorem matchTemplateOp_hash {opcode : ℕ} {vch : valtype} {found : List valtype}
    (h : matchTemplateOp OP_HASH160HASH opcode vch = some found) :
    vch ≠ [] ∧ found = [vch] := by
  simp only [matchTemplateOp, show OP_HASH160HASH ≠ OP_PUBKEY by decide, if_false,
    if_true] at h
  split at h
  · cases h
  · next hsize =>
      refine ⟨?_, (Option.some.inj h).symm⟩
      rintro rfl
      exact hsize (by decide)

theorem matchTemplateOp_smallInteger {opcode : ℕ} {vch : valtype} {found : List valtype}
    (h : matchTemplateOp OP_SMALLINTEGER opcode vch = some found) :
    (opcode = OP_0 ∨ OP_1 ≤ opcode ∧ opcode ≤ OP_16) ∧
      found = [[UInt8.ofNat (DecodeOP_N opcode)]] := by
  simp only [matchTemplateOp, show OP_SMALLINTEGER ≠ OP_PUBKEY by decide,
    show OP_SMALLINTEGER ≠ OP_HASH160HASH by decide, if_false, if_true] at h
  split at h
  · next hop => exact ⟨hop, (Option.some.inj h).symm⟩
  · cases h

theorem matchTemplateOp_scriptNumber {opcode : ℕ} {vch : valtype} {found : List valtype}
    (h : matchTemplateOp OP_SCRIPTNUMBER opcode vch = some found) :
    opcode ≤ OP_PUSHDATA4 ∧ found = [vch] := by
  simp only [matchTemplateOp, show OP_SCRIPTNUMBER ≠ OP_PUBKEY by decide,
    show OP_SCRIPTNUMBER ≠ OP_HASH160HASH by decide,
    show OP_SCRIPTNUMBER ≠ OP_SMALLINTEGER by decide, if_false, if_true] at h
  split at h
  · next hop =>
      refine ⟨?_, (Option.some.inj h).symm⟩
      simp only [OP_PUSHDATA4]
      omega
  · cases h

/-- An instruction of a template that stands for itself. -/
theorem matchTemplateOp_plain {opcode2 opcode : ℕ} {vch : valtype} {found : List valtype}
    (hplain : opcode2 ≤ OP_CHECKLOCKTIMEVERIFY)
    (h : matchTemplateOp opcode2 opcode vch = some found) :
    opcode = opcode2 ∧ found = [] := by
  have hne : opcode2 ≠ OP_PUBKEY ∧ opcode2 ≠ OP_HASH160HASH ∧ opcode2 ≠ OP_SMALLINTEGER ∧
      opcode2 ≠ OP_SCRIPTNUMBER ∧ opcode2 ≠ OP_SMALLDATA := by
    refine ⟨?_, ?_, ?_, ?_, ?_⟩ <;> rintro rfl <;> exact absurd hplain (by decide)
  simp only [matchTemplateOp, hne, if_false] at h
  split at h
  · cases h
  · next hop =>
      rw [not_or, not_not] at hop
      exact ⟨hop.1, (Option.some.inj h).symm⟩

/-- The keys of a matched multisig template, with the count behind them. -/
theorem matchTemplate_pubKeys {fuel : ℕ} {pc : CScript} {pc2 : List ℕ}
    {vSolutions out : List valtype}
    (h : matchTemplate fuel pc (OP_PUBKEYS :: OP_SMALLINTEGER :: pc2) vSolutions = some out) :
    ∃ keys next opcode vch rest fuel', ReadsKeys pc keys next ∧
      getOp next = some (opcode, vch, rest) ∧
      (opcode = OP_0 ∨ OP_1 ≤ opcode ∧ opcode ≤ OP_16) ∧
      matchTemplate fuel' rest pc2
        (vSolutions ++ keys ++ [[UInt8.ofNat (DecodeOP_N opcode)]]) = some out := by
  cases fuel with
  | zero => cases h
  | succ fuel =>
      unfold matchTemplate at h
      rw [if_neg fun hand => nomatch hand.2] at h
      cases hget : getOp pc with
      | none => simp [hget] at h
      | some x =>
          obtain ⟨opcode1, vch1, pc1⟩ := x
          simp only [hget, if_true] at h
          cases hkeys : matchPubKeys (fuel + 1) opcode1 vch1 pc1 vSolutions with
          | mk opcode x =>
              obtain ⟨vch, rest, found⟩ := x
              simp only [hkeys] at h
              cases hfound : matchTemplateOp OP_SMALLINTEGER opcode vch with
              | none => simp [hfound] at h
              | some number =>
                  simp only [hfound] at h
                  obtain ⟨hop, rfl⟩ := matchTemplateOp_smallInteger hfound
                  have hvalid : opcode ≠ OP_INVALIDOPCODE := by
                    rintro rfl
                    exact absurd hop (by decide)
                  obtain ⟨keys, next, hreads, hend, rfl⟩ :=
                    matchPubKeys_spec hget hkeys hvalid
                  exact ⟨keys, next, opcode, vch, rest, fuel, hreads, hend, hop, h⟩

end Ziftrcoin.Spec
