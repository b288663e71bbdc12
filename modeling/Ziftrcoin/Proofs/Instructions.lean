/-
Module: Ziftrcoin.Proofs.Instructions
Purpose: What one instruction of a script looks like: an opcode, and behind the opcode of
  a push the length of its data, for some opcodes, and the data.
Trusted boundary: none
Main exports: Instruction, getOps_eq_ops
-/
import Ziftrcoin.Proofs.NetworkFormat

namespace Ziftrcoin.Spec

/-- The bytes of an instruction with its opcode and its data. -/
inductive Instruction : (opcode : ℕ) → (vch : valtype) → CScript → Prop where
  | plain {opcode : ℕ} (hop : OP_PUSHDATA4 < opcode) (hbyte : opcode < 256) :
      Instruction opcode [] [UInt8.ofNat opcode]
  | direct {vch : valtype} (hlen : vch.length < OP_PUSHDATA1) :
      Instruction vch.length vch (UInt8.ofNat vch.length :: vch)
  | sized {opcode width : ℕ} {vch : valtype}
      (hop : opcode = OP_PUSHDATA1 ∧ width = 1 ∨ opcode = OP_PUSHDATA2 ∧ width = 2 ∨
        opcode = OP_PUSHDATA4 ∧ width = 4)
      (hlen : vch.length < 256 ^ width) :
      Instruction opcode vch (UInt8.ofNat opcode :: leBytes width vch.length ++ vch)

section
variable {opcode : ℕ} {vch : valtype} {pc rest bytes : CScript}

theorem Instruction.length_pos (h : Instruction opcode vch bytes) : 0 < bytes.length := by
  cases h <;> simp

theorem Instruction.opcode_lt (h : Instruction opcode vch bytes) : opcode < 256 := by
  cases h with
  | plain _ hbyte => exact hbyte
  | direct hlen =>
      simp only [OP_PUSHDATA1] at hlen
      omega
  | sized hop _ => rcases hop with ⟨rfl, _⟩ | ⟨rfl, _⟩ | ⟨rfl, _⟩ <;> decide

/-- The first byte is the opcode. -/
theorem Instruction.eq_cons (h : Instruction opcode vch bytes) :
    ∃ tail, bytes = UInt8.ofNat opcode :: tail := by
  cases h with
  | plain _ _ => exact ⟨_, rfl⟩
  | direct _ => exact ⟨_, rfl⟩
  | sized _ _ => exact ⟨_, rfl⟩

/-- Only a push has data. -/
theorem Instruction.data_eq_nil (h : Instruction opcode vch bytes)
    (hop : OP_PUSHDATA4 < opcode) : vch = [] ∧ bytes = [UInt8.ofNat opcode] := by
  cases h with
  | plain _ _ => exact ⟨rfl, rfl⟩
  | direct hlen =>
      simp only [OP_PUSHDATA1, OP_PUSHDATA4] at hlen hop
      omega
  | sized hsize _ =>
      rcases hsize with ⟨rfl, _⟩ | ⟨rfl, _⟩ | ⟨rfl, _⟩ <;> exact absurd hop (by decide)

/-- A push with its length in the opcode. -/
theorem Instruction.direct_inv (h : Instruction opcode vch bytes)
    (hop : opcode < OP_PUSHDATA1) :
    opcode = vch.length ∧ bytes = UInt8.ofNat vch.length :: vch := by
  cases h with
  | plain hplain _ =>
      simp only [OP_PUSHDATA1, OP_PUSHDATA4] at hplain hop
      omega
  | direct _ => exact ⟨rfl, rfl⟩
  | sized hsize _ =>
      rcases hsize with ⟨rfl, _⟩ | ⟨rfl, _⟩ | ⟨rfl, _⟩ <;> exact absurd hop (by decide)

theorem toNat_ofNat_opcode (hop : opcode < 256) : (UInt8.ofNat opcode).toNat = opcode := by
  rw [UInt8.toNat_ofNat', Nat.mod_eq_of_lt hop]

/-- The length behind a push opcode that has one. -/
theorem readPushSize_sized {width n : ℕ} (tail : CScript)
    (hop : opcode = OP_PUSHDATA1 ∧ width = 1 ∨ opcode = OP_PUSHDATA2 ∧ width = 2 ∨
      opcode = OP_PUSHDATA4 ∧ width = 4) (hn : n < 256 ^ width) :
    readPushSize opcode (leBytes width n ++ tail) = (some n, tail) := by
  have hwidth : (if opcode = OP_PUSHDATA1 then 1 else if opcode = OP_PUSHDATA2 then 2
      else 4) = width ∧ ¬ opcode < OP_PUSHDATA1 := by
    rcases hop with ⟨rfl, rfl⟩ | ⟨rfl, rfl⟩ | ⟨rfl, rfl⟩ <;> decide
  have hlong : ¬ (leBytes width n ++ tail).length < width := by
    rw [List.length_append, leBytes_length]
    omega
  rw [readPushSize, if_neg hwidth.2, hwidth.1, if_neg hlong,
    List.take_left' (leBytes_length width n), List.drop_left' (leBytes_length width n),
    readLE_leBytes, Nat.mod_eq_of_lt hn]

/-- An instruction is read back, whatever follows. -/
theorem Instruction.getOp_append (h : Instruction opcode vch bytes) (rest : CScript) :
    getOp (bytes ++ rest) = some (opcode, vch, rest) := by
  have hbyte := toNat_ofNat_opcode h.opcode_lt
  cases h with
  | plain hop _ =>
      simp only [List.cons_append, List.nil_append, getOp, getOp2, hbyte,
        if_neg (Nat.not_le.mpr hop)]
  | direct hlen =>
      have hpush : vch.length ≤ OP_PUSHDATA4 := by
        simp only [OP_PUSHDATA1, OP_PUSHDATA4] at hlen ⊢
        omega
      have hsize : readPushSize vch.length (vch ++ rest) = (some vch.length, vch ++ rest) := by
        rw [readPushSize, if_pos hlen]
      have hlong : ¬ (vch ++ rest).length < vch.length := by
        rw [List.length_append]
        omega
      simp only [List.cons_append, getOp, getOp2, hbyte, if_pos hpush, hsize, if_neg hlong,
        List.take_left', List.drop_left']
  | @sized _ width _ hop hlen =>
      have hpush : opcode ≤ OP_PUSHDATA4 := by
        rcases hop with ⟨rfl, _⟩ | ⟨rfl, _⟩ | ⟨rfl, _⟩ <;> decide
      have hlong : ¬ (vch ++ rest).length < vch.length := by
        rw [List.length_append]
        omega
      simp only [List.cons_append, List.append_assoc, getOp, getOp2, hbyte, if_pos hpush,
        readPushSize_sized (vch ++ rest) hop hlen, if_neg hlong, List.take_left',
        List.drop_left']

/-- The sizes that fit behind a push opcode. -/
theorem readPushSize_some {n : ℕ} {tail : CScript} (hpush : opcode ≤ OP_PUSHDATA4)
    (h : readPushSize opcode pc = (some n, tail)) :
    (opcode < OP_PUSHDATA1 ∧ n = opcode ∧ tail = pc) ∨
      ∃ width, (opcode = OP_PUSHDATA1 ∧ width = 1 ∨ opcode = OP_PUSHDATA2 ∧ width = 2 ∨
        opcode = OP_PUSHDATA4 ∧ width = 4) ∧ n < 256 ^ width ∧
          pc = leBytes width n ++ tail := by
  unfold readPushSize at h
  split at h
  · next hlt =>
      simp only [Prod.mk.injEq, Option.some.injEq] at h
      exact .inl ⟨hlt, h.1.symm, h.2.symm⟩
  · next hge =>
      refine .inr ⟨if opcode = OP_PUSHDATA1 then 1 else if opcode = OP_PUSHDATA2 then 2 else 4,
        ?_, ?_⟩
      · obtain rfl | rfl | rfl : opcode = OP_PUSHDATA1 ∨ opcode = OP_PUSHDATA2 ∨
            opcode = OP_PUSHDATA4 := by
          simp only [OP_PUSHDATA1, OP_PUSHDATA2, OP_PUSHDATA4] at hge hpush ⊢
          omega
        all_goals decide
      · dsimp only at h
        generalize (if opcode = OP_PUSHDATA1 then 1 else if opcode = OP_PUSHDATA2 then 2
          else 4) = width at h
        split at h
        · cases h
        · next hlong =>
            simp only [Prod.mk.injEq, Option.some.injEq] at h
            obtain ⟨rfl, rfl⟩ := h
            have hlen : (pc.take width).length = width := by
              rw [List.length_take]
              omega
            have hread := readLE_lt (pc.take width)
            have hwrite := leBytes_readLE (pc.take width)
            rw [hlen] at hread hwrite
            exact ⟨hread, by rw [hwrite, List.take_append_drop]⟩

/-- A script that an instruction is read from starts with its bytes. -/
theorem getOp_iff :
    getOp pc = some (opcode, vch, rest) ↔
      ∃ bytes, Instruction opcode vch bytes ∧ pc = bytes ++ rest := by
  constructor
  swap
  · rintro ⟨bytes, h, rfl⟩
    exact h.getOp_append rest
  intro h
  cases pc with
  | nil => cases h
  | cons b pc =>
      have hb : UInt8.ofNat b.toNat = b := UInt8.ofNat_toNat
      have hlt : b.toNat < 256 := b.toNat_lt
      by_cases hpush : b.toNat ≤ OP_PUSHDATA4
      · simp only [getOp, getOp2, if_pos hpush] at h
        cases hsize : readPushSize b.toNat pc with
        | mk size tail =>
        cases size with
        | none => simp [hsize] at h
        | some n =>
        simp only [hsize] at h
        by_cases hlong : tail.length < n
        · simp [if_pos hlong] at h
        simp only [if_neg hlong, Option.some.injEq, Prod.mk.injEq] at h
        obtain ⟨rfl, rfl, rfl⟩ := h
        have hlen : (tail.take n).length = n := by
          rw [List.length_take]
          omega
        rcases readPushSize_some hpush hsize with ⟨hdirect, rfl, rfl⟩ | ⟨width, hop, hn, rfl⟩
        · refine ⟨b :: tail.take b.toNat, ?_, ?_⟩
          · have hinstr := @Instruction.direct (tail.take b.toNat) (by rw [hlen]; exact hdirect)
            rwa [hlen, hb] at hinstr
          · rw [List.cons_append, List.take_append_drop]
        · refine ⟨b :: leBytes width n ++ tail.take n, ?_, ?_⟩
          · have hinstr := @Instruction.sized _ _ (tail.take n) hop (by rw [hlen]; exact hn)
            rwa [hlen, hb] at hinstr
          · rw [List.append_assoc, List.take_append_drop]
            rfl
      · simp only [getOp, getOp2, if_neg hpush, Option.some.injEq, Prod.mk.injEq] at h
        obtain ⟨rfl, rfl, rfl⟩ := h
        refine ⟨[b], ?_, rfl⟩
        have hinstr := Instruction.plain (Nat.lt_of_not_le hpush) hlt
        rwa [hb] at hinstr

/-- Every instruction takes bytes of the script. -/
theorem length_getOp (h : getOp pc = some (opcode, vch, rest)) : rest.length < pc.length := by
  obtain ⟨bytes, hinstr, rfl⟩ := getOp_iff.mp h
  have := hinstr.length_pos
  rw [List.length_append]
  omega

end

/-! ### All instructions -/

/-- More rounds than bytes read no more instructions. -/
theorem getOps_eq_ops {fuel : ℕ} : ∀ {script : CScript}, script.length ≤ fuel →
    getOps fuel script = ops script := by
  have hany : ∀ (fuel fuel' : ℕ) (script : CScript), script.length ≤ fuel →
      script.length ≤ fuel' → getOps fuel script = getOps fuel' script := by
    intro fuel
    induction fuel with
    | zero =>
        intro fuel' script h _
        obtain rfl := List.length_eq_zero_iff.mp (Nat.le_zero.mp h)
        cases fuel' <;> rfl
    | succ fuel ih =>
        intro fuel' script h h'
        cases script with
        | nil => cases fuel' <;> rfl
        | cons b script =>
            cases fuel' with
            | zero => simp at h'
            | succ fuel' =>
                rw [getOps, getOps]
                · cases hop : getOp (b :: script) with
                  | none => rfl
                  | some x =>
                      obtain ⟨opcode, vch, rest⟩ := x
                      have hlen := length_getOp hop
                      simp only
                      rw [ih fuel' rest (by omega) (by omega)]
                · exact List.cons_ne_nil b script
                · exact List.cons_ne_nil b script
  intro script h
  exact hany fuel script.length script h le_rfl

/-- The instructions of a script behind its first one. -/
theorem ops_of_getOp {pc rest : CScript} {opcode : ℕ} {vch : valtype}
    (h : getOp pc = some (opcode, vch, rest)) :
    ops pc = ((opcode, vch) :: (ops rest).1, (ops rest).2) := by
  cases pc with
  | nil => cases h
  | cons b pc =>
      have hlen := length_getOp h
      rw [List.length_cons] at hlen
      rw [ops, List.length_cons, getOps, h]
      · simp only
        rw [getOps_eq_ops (by omega)]
      · exact List.cons_ne_nil b pc

theorem ops_of_getOp_none {pc : CScript} (h : getOp pc = none) (hmore : pc ≠ []) :
    ops pc = ([], false) := by
  cases pc with
  | nil => exact absurd rfl hmore
  | cons b pc =>
      rw [ops, List.length_cons, getOps, h]
      exact List.cons_ne_nil b pc

@[simp] theorem ops_nil : ops [] = ([], true) := rfl

end Ziftrcoin.Spec
