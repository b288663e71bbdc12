/-
Module: Ziftrcoin.Proofs.SighashReference
Purpose: The bytes that a signature commits to are the same whether they are written in
  place or by the reference that changes a copy of the transaction.
Trusted boundary: none
Main exports: Parses, SignatureHash_eq_old
-/
import Mathlib.Data.List.GetD
import Ziftrcoin.Proofs.Instructions
import Ziftrcoin.Spec.SignatureSerializer

namespace Ziftrcoin.Spec

open CTransactionSignatureSerializer

/-! ### Script code -/

/-- A script that is a sequence of instructions. -/
inductive Parses : CScript → Prop where
  | nil : Parses []
  | cons {opcode : ℕ} {vch : valtype} {bytes rest : CScript}
      (first : Instruction opcode vch bytes) (more : Parses rest) : Parses (bytes ++ rest)

theorem parses_of_ops {script : CScript} (h : (ops script).2 = true) : Parses script := by
  induction hlen : script.length using Nat.strong_induction_on generalizing script with
  | _ n ih =>
      cases hop : getOp script with
      | none =>
          cases script with
          | nil => exact .nil
          | cons b script =>
              rw [ops_of_getOp_none hop (List.cons_ne_nil b script)] at h
              cases h
      | some x =>
          obtain ⟨opcode, vch, rest⟩ := x
          have hshorter := length_getOp hop
          obtain ⟨bytes, hinstr, rfl⟩ := getOp_iff.mp hop
          rw [ops_of_getOp hop] at h
          exact .cons hinstr (ih rest.length (by omega) h rfl)

/-- The script without its separators. -/
def separatorsGone (script : CScript) : CScript :=
  script.FindAndDelete [UInt8.ofNat OP_CODESEPARATOR]

section
variable {opcode : ℕ} {vch : valtype} {bytes rest : CScript}

theorem Instruction.getOp2_append (h : Instruction opcode vch bytes) (rest : CScript) :
    getOp2 (bytes ++ rest) = (some (opcode, vch), rest) := by
  have hop := h.getOp_append rest
  unfold getOp at hop
  generalize getOp2 (bytes ++ rest) = r at hop ⊢
  obtain ⟨_ | ⟨opcode', vch'⟩, rest'⟩ := r
  · cases hop
  · simp only [Option.some.injEq, Prod.mk.injEq] at hop
    obtain ⟨rfl, rfl, rfl⟩ := hop
    rfl

theorem Instruction.separator (h : Instruction OP_CODESEPARATOR vch bytes) :
    bytes = [UInt8.ofNat OP_CODESEPARATOR] := (h.data_eq_nil (by decide)).2

/-- Only a separator starts with its byte. -/
theorem Instruction.starts_iff (h : Instruction opcode vch bytes) (rest : CScript) :
    [UInt8.ofNat OP_CODESEPARATOR].isPrefixOf (bytes ++ rest) = true ↔
      opcode = OP_CODESEPARATOR := by
  obtain ⟨tail, rfl⟩ := h.eq_cons
  simp only [List.cons_append, List.isPrefixOf_cons_cons, List.isPrefixOf_nil_left, Bool.and_true,
    beq_iff_eq]
  constructor
  · intro heq
    have hnat := congrArg UInt8.toNat heq
    rw [toNat_ofNat_opcode h.opcode_lt] at hnat
    exact hnat.symm
  · rintro rfl
    rfl

end

/-- What the loops do with a script that parses: the pieces are the script without its
separators, and so is what is left of it by the deletion. -/
structure Pieces (script out : CScript) : Prop where
  deleted : ∀ {fuel : ℕ}, script.length < fuel →
    findAndDelete [UInt8.ofNat OP_CODESEPARATOR] fuel script = out
  counted : ∀ {fuel : ℕ}, script.length < fuel →
    countSeparators fuel script + out.length = script.length
  written : ∀ {fuel : ℕ} (before : CScript), script.length < fuel →
    writePieces fuel (before ++ script) script = before ++ out

theorem between_append (itBegin it : CScript) : between (itBegin ++ it) it = itBegin := by
  simp [between]

theorem pieces_nil : Pieces [] [] where
  deleted := by
    intro fuel hfuel
    cases fuel with
    | zero => omega
    | succ fuel => rfl
  counted := by
    intro fuel hfuel
    cases fuel with
    | zero => omega
    | succ fuel => rfl
  written := by
    intro fuel before hfuel
    cases fuel with
    | zero => omega
    | succ fuel =>
        rw [List.append_nil]
        exact (congrArg (between · []) (List.append_nil before)).symm.trans
          (between_append before [])

theorem pieces_separator {vch : valtype} {bytes rest out : CScript}
    (h : Instruction OP_CODESEPARATOR vch bytes) (hrest : Pieces rest out) :
    Pieces (bytes ++ rest) out where
  deleted := by
    intro fuel hfuel
    have hbytes := h.separator
    have hstarts := (h.starts_iff rest).mpr rfl
    cases fuel with
    | zero => omega
    | succ fuel =>
        rw [findAndDelete, if_pos hstarts, hbytes]
        rw [hbytes] at hfuel
        exact hrest.deleted (by simpa using hfuel)
  counted := by
    intro fuel hfuel
    have hbytes := h.separator
    cases fuel with
    | zero => omega
    | succ fuel =>
        rw [hbytes] at hfuel
        have hcount := hrest.counted (by simpa using hfuel : rest.length < fuel)
        rw [countSeparators, h.getOp2_append rest]
        simp only [if_true]
        rw [hbytes]
        simp only [List.cons_append, List.nil_append, List.length_cons]
        omega
  written := by
    intro fuel before hfuel
    have hbytes := h.separator
    cases fuel with
    | zero => omega
    | succ fuel =>
        rw [writePieces, h.getOp2_append rest]
        simp only [if_true]
        rw [← List.append_assoc, between_append, hbytes, List.dropLast_concat]
        rw [hbytes] at hfuel
        have hmore := hrest.written [] (by simpa using hfuel : rest.length < fuel)
        rw [List.nil_append, List.nil_append] at hmore
        rw [hmore]

theorem pieces_other {opcode : ℕ} {vch : valtype} {bytes rest out : CScript}
    (h : Instruction opcode vch bytes) (hop : opcode ≠ OP_CODESEPARATOR)
    (hrest : Pieces rest out) : Pieces (bytes ++ rest) (bytes ++ out) where
  deleted := by
    intro fuel hfuel
    have hpos := h.length_pos
    have hstarts := (h.starts_iff rest).not.mpr hop
    rw [List.length_append] at hfuel
    cases fuel with
    | zero => omega
    | succ fuel =>
        rw [findAndDelete, if_neg hstarts, h.getOp_append rest]
        simp only [List.length_append, Nat.add_sub_cancel]
        rw [hrest.deleted (by omega), List.take_left]
  counted := by
    intro fuel hfuel
    have hpos := h.length_pos
    rw [List.length_append] at hfuel
    cases fuel with
    | zero => omega
    | succ fuel =>
        have hcount := hrest.counted (by omega : rest.length < fuel)
        rw [countSeparators, h.getOp2_append rest]
        simp only [if_neg hop, List.length_append]
        omega
  written := by
    intro fuel before hfuel
    have hpos := h.length_pos
    rw [List.length_append] at hfuel
    cases fuel with
    | zero => omega
    | succ fuel =>
        rw [writePieces, h.getOp2_append rest]
        simp only [if_neg hop]
        rw [← List.append_assoc, hrest.written (before ++ bytes) (by omega), List.append_assoc]

theorem pieces_of_parses {script : CScript} (h : Parses script) :
    Pieces script (separatorsGone script) := by
  have hexists : ∃ out, Pieces script out := by
    induction h with
    | nil => exact ⟨[], pieces_nil⟩
    | @cons opcode vch bytes rest first more ih =>
        obtain ⟨out, hout⟩ := ih
        by_cases hop : opcode = OP_CODESEPARATOR
        · subst hop
          exact ⟨out, pieces_separator first hout⟩
        · exact ⟨bytes ++ out, pieces_other first hop hout⟩
  obtain ⟨out, hout⟩ := hexists
  have hgone : separatorsGone script = out := hout.deleted (Nat.lt_succ_self _)
  exact hgone ▸ hout

/-- What is written in place is the script without its separators, behind its length. -/
theorem SerializeScriptCode_eq {script : CScript} (h : Parses script) :
    announcedSize script = (separatorsGone script).length ∧
      writtenPieces script = separatorsGone script := by
  have hpieces := pieces_of_parses h
  have hcounted : countSeparators (script.length + 1) script + (separatorsGone script).length =
      script.length := hpieces.counted (Nat.lt_succ_self script.length)
  refine ⟨?_, ?_⟩
  · unfold announcedSize
    omega
  · exact hpieces.written [] (Nat.lt_succ_self script.length)

theorem SerializeScriptCode_eq_serializeBytes {script : CScript} (h : Parses script) :
    SerializeScriptCode script = serializeBytes (separatorsGone script) := by
  obtain ⟨hsize, hpieces⟩ := SerializeScriptCode_eq h
  rw [SerializeScriptCode, hsize, hpieces]
  rfl

/-! ### Inputs and outputs -/

theorem flatMap_eq_of_getElem {α : Type} {n : ℕ} {f : ℕ → valtype} {g : α → valtype}
    {xs : List α} (hlen : xs.length = n) (h : ∀ i (hi : i < xs.length), f i = g xs[i]) :
    (List.range n).flatMap f = xs.flatMap g := by
  rw [List.flatMap_def, List.flatMap_def]
  congr 1
  refine List.ext_getElem (by simp [hlen]) fun i hi hi' => ?_
  simp only [List.getElem_map, List.getElem_range]
  exact h i (by simpa using hi')

section
variable {scriptCode : CScript} {txTo : CTransaction} {nIn : ℕ} {nHashType : UInt32}

/-- An input of the copy before it is decided whether there are others. -/
def referenceInput (scriptCode : CScript) (nIn : ℕ) (nHashType : UInt32) (i : ℕ)
    (txin : CTxIn) : CTxIn :=
  { txin with
    scriptSig := if i = nIn then scriptCode else [],
    nSequence := if i ≠ nIn ∧ ((baseHashType nHashType).toNat = SIGHASH_NONE ∨
      (baseHashType nHashType).toNat = SIGHASH_SINGLE) then 0 else txin.nSequence }

/-- The inputs of the copy, before it is decided whether there are others. -/
theorem referenceInputs_eq (vin : List CTxIn) :
    referenceInputs scriptCode nIn nHashType vin =
      if anyoneCanPay nHashType then
        ((vin.mapIdx (referenceInput scriptCode nIn nHashType)).set 0
          ((vin.mapIdx (referenceInput scriptCode nIn nHashType)).getD nIn default)).take 1
      else vin.mapIdx (referenceInput scriptCode nIn nHashType) := by
  have hcopy : (if (baseHashType nHashType).toNat = SIGHASH_NONE ∨
        (baseHashType nHashType).toNat = SIGHASH_SINGLE then
      clearSequences nIn ((vin.map fun txin => { txin with scriptSig := [] }).modify nIn
        fun txin => { txin with scriptSig := scriptCode })
      else (vin.map fun txin => { txin with scriptSig := [] }).modify nIn
        fun txin => { txin with scriptSig := scriptCode }) =
      vin.mapIdx (referenceInput scriptCode nIn nHashType) := by
    refine List.ext_getElem (by split <;> simp [clearSequences]) fun i hi hi' => ?_
    by_cases hclear : (baseHashType nHashType).toNat = SIGHASH_NONE ∨
        (baseHashType nHashType).toNat = SIGHASH_SINGLE
    · by_cases hin : i = nIn
      · subst hin
        simp [hclear, clearSequences, referenceInput]
      · simp [hclear, clearSequences, referenceInput, hin, Ne.symm hin]
    · by_cases hin : i = nIn
      · subst hin
        simp [hclear, referenceInput]
      · simp [hclear, referenceInput, hin, Ne.symm hin]
  rw [referenceInputs, hcopy]

theorem referenceInputs_all (vin : List CTxIn) (hall : anyoneCanPay nHashType = false) :
    referenceInputs scriptCode nIn nHashType vin =
      vin.mapIdx (referenceInput scriptCode nIn nHashType) := by
  rw [referenceInputs_eq, hall]
  rfl

/-- With `SIGHASH_ANYONECANPAY` the copy has one input. -/
theorem referenceInputs_one (vin : List CTxIn) (hone : anyoneCanPay nHashType = true)
    (hin : nIn < vin.length) :
    referenceInputs scriptCode nIn nHashType vin =
      [referenceInput scriptCode nIn nHashType nIn vin[nIn]] := by
  rw [referenceInputs_eq, if_pos hone]
  have hget : (vin.mapIdx (referenceInput scriptCode nIn nHashType)).getD nIn default =
      referenceInput scriptCode nIn nHashType nIn vin[nIn] := by
    rw [List.getD_eq_getElem _ _ (by simpa using hin), List.getElem_mapIdx]
  rw [hget]
  cases vin with
  | nil => simp at hin
  | cons txin vin => simp

/-- An input is written as the reference serialises it. -/
theorem SerializeInput_eq (hparse : Parses scriptCode)
    (hall : anyoneCanPay nHashType = false) {i : ℕ} (hi : i < txTo.vin.length) :
    (new txTo scriptCode nIn nHashType).SerializeInput i =
      (referenceInput (separatorsGone scriptCode) nIn nHashType i txTo.vin[i]).serialize := by
  have hzero : leInt32 0 = leBytes 4 0 := by decide
  simp only [SerializeInput, new, hall, Bool.false_eq_true, if_false, referenceInput,
    CTxIn.serialize, SerializeScriptCode_eq_serializeBytes hparse,
    List.getD_eq_getElem _ _ hi, Bool.or_eq_true, beq_iff_eq, hzero]
  by_cases hin : i = nIn
  · simp [hin]
  · by_cases hclear : (baseHashType nHashType).toNat = SIGHASH_NONE ∨
        (baseHashType nHashType).toNat = SIGHASH_SINGLE
    · simp [hin, hclear, hclear.symm]
    · simp [hin, hclear, mt Or.symm hclear]

theorem SerializeInput_eq_one (hparse : Parses scriptCode)
    (hone : anyoneCanPay nHashType = true) (hin : nIn < txTo.vin.length) (i : ℕ) :
    (new txTo scriptCode nIn nHashType).SerializeInput i =
      (referenceInput (separatorsGone scriptCode) nIn nHashType nIn
        txTo.vin[nIn]).serialize := by
  simp only [SerializeInput, new, hone, if_true, referenceInput, CTxIn.serialize,
    SerializeScriptCode_eq_serializeBytes hparse, List.getD_eq_getElem _ _ hin, ne_eq,
    not_true, false_and, if_false]

/-- The inputs, with their number. -/
theorem inputs_eq (hparse : Parses scriptCode) (hin : nIn < txTo.vin.length) :
    writeCompactSize (if anyoneCanPay nHashType then 1 else txTo.vin.length) ++
        (List.range (if anyoneCanPay nHashType then 1 else txTo.vin.length)).flatMap
          (new txTo scriptCode nIn nHashType).SerializeInput =
      serializeVector CTxIn.serialize
        (referenceInputs (separatorsGone scriptCode) nIn nHashType txTo.vin) := by
  unfold serializeVector
  cases hone : anyoneCanPay nHashType with
  | true =>
      rw [referenceInputs_one txTo.vin hone hin, if_pos rfl]
      simp [SerializeInput_eq_one hparse hone hin]
  | false =>
      rw [referenceInputs_all txTo.vin hone, List.length_mapIdx]
      simp only [Bool.false_eq_true, if_false]
      congr 1
      refine flatMap_eq_of_getElem List.length_mapIdx fun i hi => ?_
      rw [List.getElem_mapIdx]
      exact SerializeInput_eq hparse hone (by simpa using hi)

/-- The number of outputs that a signature commits to. -/
def outputsHashed (nIn : ℕ) (nHashType : UInt32) (vout : List CTxOut) : ℕ :=
  if (baseHashType nHashType).toNat = SIGHASH_NONE then 0
  else if (baseHashType nHashType).toNat = SIGHASH_SINGLE then nIn + 1
  else vout.length

/-- The outputs, with their number. -/
theorem outputs_eq {vout : List CTxOut}
    (hout : referenceOutputs nIn nHashType txTo.vout = some vout) :
    writeCompactSize (outputsHashed nIn nHashType txTo.vout) ++
        (List.range (outputsHashed nIn nHashType txTo.vout)).flatMap
          (new txTo scriptCode nIn nHashType).SerializeOutput =
      serializeVector CTxOut.serialize vout := by
  unfold serializeVector
  have hlen : vout.length = outputsHashed nIn nHashType txTo.vout ∧
      ∀ i (hi : i < vout.length), (new txTo scriptCode nIn nHashType).SerializeOutput i =
        vout[i].serialize := by
    unfold referenceOutputs at hout
    unfold outputsHashed
    by_cases hnone : (baseHashType nHashType).toNat = SIGHASH_NONE
    · rw [if_pos hnone] at hout
      obtain rfl := Option.some.inj hout
      exact ⟨by rw [if_pos hnone]; rfl, fun i hi => absurd hi (Nat.not_lt_zero i)⟩
    rw [if_neg hnone] at hout
    by_cases hsingle : (baseHashType nHashType).toNat = SIGHASH_SINGLE
    · rw [if_pos hsingle, Option.ite_none_left_eq_some] at hout
      obtain ⟨hin, hout⟩ := hout
      obtain rfl := Option.some.inj hout
      refine ⟨?_, fun i hi => ?_⟩
      · rw [if_neg hnone, if_pos hsingle, List.length_mapIdx, List.length_take]
        omega
      · have hi' : i < nIn + 1 ∧ i < txTo.vout.length := by simpa using hi
        simp only [SerializeOutput, new, hsingle, beq_self_eq_true, true_and,
          List.getD_eq_getElem _ _ hi'.2, List.getElem_mapIdx, List.getElem_take]
        by_cases heq : i = nIn
        · simp [heq]
        · have hlt : i < nIn := by omega
          simp [heq, hlt]
    · rw [if_neg hsingle] at hout
      obtain rfl := Option.some.inj hout
      refine ⟨by rw [if_neg hnone, if_neg hsingle], fun i hi => ?_⟩
      simp [SerializeOutput, new, hsingle, hi]
  rw [← hlen.1]
  congr 1
  exact flatMap_eq_of_getElem rfl hlen.2

/-- The message, part by part: the inputs, the outputs, and what stands around them. -/
theorem messages_eq (hparses : Parses scriptCode) (txTo : CTransaction) (nIn : ℕ)
    (nHashType : UInt32) :
    signatureMessage scriptCode txTo nIn nHashType =
      referenceMessage scriptCode txTo nIn nHashType := by
  unfold signatureMessage referenceMessage
  by_cases hin : txTo.vin.length ≤ nIn
  · rw [if_pos hin, if_pos hin]
  rw [if_neg hin, if_neg hin]
  by_cases hsingle : (baseHashType nHashType).toNat = SIGHASH_SINGLE ∧ txTo.vout.length ≤ nIn
  · have hnone : (baseHashType nHashType).toNat ≠ SIGHASH_NONE := by
      rw [hsingle.1]
      decide
    have hout : referenceOutputs nIn nHashType txTo.vout = none := by
      rw [referenceOutputs, if_neg hnone, if_pos hsingle.1, if_pos hsingle.2]
    rw [if_pos hsingle, hout]
  rw [if_neg hsingle]
  obtain ⟨vout, hout⟩ : ∃ vout, referenceOutputs nIn nHashType txTo.vout = some vout := by
    unfold referenceOutputs
    split
    · exact ⟨_, rfl⟩
    · split
      · next hbase =>
          rw [if_neg fun h => hsingle ⟨hbase, h⟩]
          exact ⟨_, rfl⟩
      · exact ⟨_, rfl⟩
  rw [hout]
  have hinputs := @inputs_eq scriptCode txTo nIn nHashType hparses (Nat.lt_of_not_le hin)
  have houtputs := @outputs_eq scriptCode txTo nIn nHashType vout hout
  have hnumber : outputsHashed nIn nHashType txTo.vout =
      (if (new txTo scriptCode nIn nHashType).fHashNone then 0
        else if (new txTo scriptCode nIn nHashType).fHashSingle then nIn + 1
        else txTo.vout.length) := by
    simp [outputsHashed, new]
  rw [hnumber] at houtputs
  have hgone : separatorsGone scriptCode =
      scriptCode.FindAndDelete [UInt8.ofNat OP_CODESEPARATOR] := rfl
  simp only [Serialize, CTransaction.serialize, ← hgone, ← hinputs, ← houtputs]
  rfl

/-- **The bytes of a signature hash are those of the reference**: for every script code
that parses, every transaction, input and hash type, the bytes that are written in place
are the bytes of the changed copy, and both sides return the constant 1 together.  The
script code is written with as many bytes as its length announces. -/
theorem signatureMessage_eq_reference (hparse : (ops scriptCode).2 = true)
    (txTo : CTransaction) (nIn : ℕ) (nHashType : UInt32) :
    signatureMessage scriptCode txTo nIn nHashType =
        referenceMessage scriptCode txTo nIn nHashType ∧
      (writtenPieces scriptCode).length = announcedSize scriptCode := by
  have hparses := parses_of_ops hparse
  obtain ⟨hsize, hpieces⟩ := SerializeScriptCode_eq hparses
  exact ⟨messages_eq hparses txTo nIn nHashType, by rw [hsize, hpieces]⟩

end

/-- One input and one output. -/
def oneToOne : CTransaction :=
  { nVersion := 1, vin := [⟨⟨5, 0⟩, [0x51], 7⟩], vout := [⟨9, [0x51]⟩], nLockTime := 3 }

/-- A separator in the middle of a script code. -/
theorem signatureMessage_eq_reference_separator :
    signatureMessage [0x51, 0xab, 0xac] oneToOne 0 0x83 =
        referenceMessage [0x51, 0xab, 0xac] oneToOne 0 0x83 ∧
      (writtenPieces [0x51, 0xab, 0xac]).length = announcedSize [0x51, 0xab, 0xac] :=
  signatureMessage_eq_reference (by decide) oneToOne 0 0x83

/-! ### The hash that signatures are checked against -/

theorem readPushSize_suffix {opcode : ℕ} {pc rest : CScript} {n : Option ℕ}
    (h : readPushSize opcode pc = (n, rest)) : ∃ before, pc = before ++ rest := by
  unfold readPushSize at h
  split at h
  · obtain ⟨-, rfl⟩ := Prod.mk.inj h
    exact ⟨[], rfl⟩
  · dsimp only at h
    generalize (if opcode = OP_PUSHDATA1 then 1 else if opcode = OP_PUSHDATA2 then 2
      else 4) = width at h
    split at h
    · obtain ⟨-, rfl⟩ := Prod.mk.inj h
      exact ⟨[], rfl⟩
    · obtain ⟨-, rfl⟩ := Prod.mk.inj h
      exact ⟨pc.take width, (List.take_append_drop width pc).symm⟩

/-- What is left of a script behind an instruction, or behind the part of one that is cut
off, is a suffix of it. -/
theorem getOp2_suffix {pc rest : CScript} {r : Option (ℕ × valtype)}
    (h : getOp2 pc = (r, rest)) : ∃ before, pc = before ++ rest := by
  cases pc with
  | nil =>
      obtain ⟨-, rfl⟩ := Prod.mk.inj h
      exact ⟨[], rfl⟩
  | cons b pc =>
      unfold getOp2 at h
      dsimp only at h
      split at h
      · cases hsize : readPushSize b.toNat pc with
        | mk n tail =>
            obtain ⟨before, rfl⟩ := readPushSize_suffix hsize
            rw [hsize] at h
            cases n with
            | none =>
                obtain ⟨-, rfl⟩ := Prod.mk.inj h
                exact ⟨b :: before, rfl⟩
            | some nSize =>
                dsimp only at h
                split at h
                · obtain ⟨-, rfl⟩ := Prod.mk.inj h
                  exact ⟨b :: before, rfl⟩
                · obtain ⟨-, rfl⟩ := Prod.mk.inj h
                  refine ⟨b :: before ++ tail.take nSize, ?_⟩
                  rw [List.append_assoc, List.take_append_drop]
                  rfl
      · obtain ⟨-, rfl⟩ := Prod.mk.inj h
        exact ⟨[b], rfl⟩

theorem getOp_of_getOp2 {pc rest : CScript} {opcode : ℕ} {vch : valtype}
    (h : getOp2 pc = (some (opcode, vch), rest)) : getOp pc = some (opcode, vch, rest) := by
  rw [getOp, h]

/-- The pieces are the instructions without the separators. -/
theorem writePieces_eq (fuel : ℕ) (before pc : CScript) :
    writePieces fuel (before ++ pc) pc = before ++ scriptCodeBytes fuel pc := by
  induction fuel generalizing before pc with
  | zero => rw [writePieces, scriptCodeBytes, between_append, List.append_nil]
  | succ fuel ih =>
      rw [writePieces, scriptCodeBytes]
      cases hop : getOp2 pc with
      | mk r rest =>
          obtain ⟨bytes, rfl⟩ := getOp2_suffix hop
          have htake : (bytes ++ rest).take ((bytes ++ rest).length - rest.length) = bytes := by
            simp
          cases r with
          | none =>
              simp only
              rw [← List.append_assoc, between_append, htake]
          | some x =>
              obtain ⟨opcode, vch⟩ := x
              simp only
              rw [htake]
              by_cases hsep : opcode = OP_CODESEPARATOR
              · subst hsep
                obtain ⟨bytes', hinstr, heq⟩ := getOp_iff.mp (getOp_of_getOp2 hop)
                obtain rfl := List.append_cancel_right heq
                rw [if_pos rfl, if_pos rfl, ← List.append_assoc, between_append,
                  hinstr.separator, List.dropLast_concat]
                have hmore := ih [] rest
                rw [List.nil_append, List.nil_append] at hmore
                rw [hmore]
              · rw [if_neg hsep, if_neg hsep, ← List.append_assoc, ih, List.append_assoc]

theorem countSeparators_eq {fuel : ℕ} {script : CScript} (hfuel : script.length < fuel) :
    countSeparators fuel script =
      (ops script).1.countP fun op => op.1 == OP_CODESEPARATOR := by
  induction fuel generalizing script with
  | zero => omega
  | succ fuel ih =>
      rw [countSeparators]
      cases hop : getOp2 script with
      | mk r rest =>
          cases r with
          | none =>
              have hnone : getOp script = none := by rw [getOp, hop]
              by_cases hnil : script = []
              · subst hnil
                rfl
              · rw [ops_of_getOp_none hnone hnil]
                rfl
          | some x =>
              obtain ⟨opcode, vch⟩ := x
              have hop' := getOp_of_getOp2 hop
              have hlen := length_getOp hop'
              simp only
              rw [ops_of_getOp hop', ih (by omega), List.countP_cons]
              simp only [beq_iff_eq]
              omega

theorem serializeScriptCode_eq (scriptCode : CScript) :
    serializeScriptCode scriptCode = SerializeScriptCode scriptCode := by
  rw [serializeScriptCode, SerializeScriptCode, announcedSize,
    countSeparators_eq (Nat.lt_succ_self _), writtenPieces]
  have hpieces := writePieces_eq (scriptCode.length + 1) [] scriptCode
  rw [List.nil_append, List.nil_append] at hpieces
  rw [hpieces]

/-- The tests of the flags on one byte. -/
theorem hashType_flags : ∀ nHashType < 256,
    (baseHashType (UInt32.ofNat nHashType)).toNat = nHashType % 0x20 ∧
      anyoneCanPay (UInt32.ofNat nHashType) = decide (0x80 ≤ nHashType) ∧
      (UInt32.ofNat nHashType).toNat = nHashType := by
  decide +kernel

theorem flatMap_eq_mapIdx {α : Type} {n : ℕ} {f : ℕ → valtype} {g : ℕ → α → valtype}
    {xs : List α} (hlen : xs.length = n) (h : ∀ i (hi : i < xs.length), f i = g i xs[i]) :
    (List.range n).flatMap f = (xs.mapIdx g).flatten := by
  rw [List.flatMap_def]
  congr 1
  refine List.ext_getElem (by simp [hlen]) fun i hi hi' => ?_
  simp only [List.getElem_map, List.getElem_range, List.getElem_mapIdx]
  exact h i (by simpa using hi')

/-- `CheckSig` hashes the same bytes: its hash type has one byte. -/
theorem SignatureHash_eq (crypto : Crypto) (scriptCode : CScript) (txTo : CTransaction)
    (nIn : ℕ) {nHashType : ℕ} (hbyte : nHashType < 256) :
    SignatureHash crypto scriptCode txTo nIn nHashType =
      SignatureHashOf crypto scriptCode txTo nIn (UInt32.ofNat nHashType) := by
  obtain ⟨hbase, hone, hnat⟩ := hashType_flags nHashType hbyte
  unfold SignatureHash SignatureHashOf signatureMessage
  simp only [hbase, beq_iff_eq]
  by_cases hin : txTo.vin.length ≤ nIn
  · rw [if_pos hin, if_pos hin]
  rw [if_neg hin, if_neg hin]
  by_cases hsingle : nHashType % 0x20 = SIGHASH_SINGLE ∧ txTo.vout.length ≤ nIn
  · rw [if_pos hsingle, if_pos hsingle]
  rw [if_neg hsingle, if_neg hsingle]
  simp only [Serialize, hnat]
  refine congrArg crypto.Hash (congrArg₂ (· ++ ·) (congrArg₂ (· ++ ·) (congrArg₂ (· ++ ·)
    (congrArg₂ (· ++ ·) rfl ?inputs) ?outputs) rfl) rfl)
  case inputs =>
    have hzero : leInt32 0 = leBytes 4 0 := by decide
    by_cases hflag : 0x80 ≤ nHashType
    · simp [SerializeInput, new, hone, hflag, serializeScriptCode_eq]
    · simp only [hflag, decide_false, Bool.false_eq_true, if_false, new, hone]
      congr 1
      refine (flatMap_eq_mapIdx rfl fun i hi => ?_).symm
      simp [SerializeInput, serializeScriptCode_eq, hbase, hzero, hi]
  case outputs =>
    have hnone : (new txTo scriptCode nIn (UInt32.ofNat nHashType)).fHashNone =
        (nHashType % 0x20 == SIGHASH_NONE) := by simp only [new, hbase]
    have hsame : (new txTo scriptCode nIn (UInt32.ofNat nHashType)).fHashSingle =
        (nHashType % 0x20 == SIGHASH_SINGLE) := by simp only [new, hbase]
    simp only [hnone, hsame, beq_iff_eq]
    congr 1
    have hroom : (if nHashType % 0x20 = SIGHASH_NONE then 0
        else if nHashType % 0x20 = SIGHASH_SINGLE then nIn + 1 else txTo.vout.length) ≤
          txTo.vout.length := by
      split
      · exact Nat.zero_le _
      · split
        · next hbase => exact Nat.lt_of_not_le fun h => hsingle ⟨hbase, h⟩
        · exact le_rfl
    refine (flatMap_eq_mapIdx ((List.length_take ..).trans (Nat.min_eq_left hroom))
      fun i hi => ?_).symm
    have hi' : i < txTo.vout.length := by
      rw [List.length_take] at hi
      omega
    simp [SerializeOutput, new, hbase, hi', List.getElem_take]

/-- The hash that `CheckSig` checks a signature against is the one of the reference. -/
theorem SignatureHash_eq_old (crypto : Crypto) {scriptCode : CScript}
    (hparse : (ops scriptCode).2 = true) (txTo : CTransaction) (nIn : ℕ) {nHashType : ℕ}
    (hbyte : nHashType < 256) :
    SignatureHash crypto scriptCode txTo nIn nHashType =
      SignatureHashOld crypto scriptCode txTo nIn (UInt32.ofNat nHashType) := by
  rw [SignatureHash_eq crypto scriptCode txTo nIn hbyte, SignatureHashOf, SignatureHashOld,
    messages_eq (parses_of_ops hparse)]

end Ziftrcoin.Spec
