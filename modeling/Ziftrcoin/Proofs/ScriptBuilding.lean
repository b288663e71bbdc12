/-
Module: Ziftrcoin.Proofs.ScriptBuilding
Purpose: A script is read back as the tokens it was built from, exactly as long as what
  is left behind each push is not cut off by the width of an `unsigned int`; and a walk
  that erases a byte string erases it at instruction boundaries only.
Trusted boundary: none
Main exports: ScriptToken.Valid, scriptBuilding_parsing
-/
import Ziftrcoin.Spec.ScriptBuilding
import Ziftrcoin.Proofs.ScriptNumbers
import Mathlib.Data.List.GetD

namespace Ziftrcoin.Spec

open CScript

/-! ### Positions -/

theorem byteAt_append (init rest : CScript) (i : ℕ) :
    byteAt (init ++ rest) (init.length + i) = byteAt rest i := by
  unfold byteAt
  rw [List.getD_append_right _ _ _ _ (Nat.le_add_right _ _), Nat.add_sub_cancel_left]

theorem bytesAt_append_left (init rest : CScript) (i n : ℕ) :
    bytesAt (init ++ rest) (init.length + i) n = bytesAt rest i n := by
  unfold bytesAt
  rw [← List.drop_drop, List.drop_left]

/-- What stands before a position does not matter to what is read there. -/
theorem getOp2_append (init rest : CScript) (i : ℕ) :
    GetOp2 (init ++ rest) (init.length + i) =
      ((GetOp2 rest i).1, init.length + (GetOp2 rest i).2) := by
  have hsub : ∀ k, (init ++ rest).length - (init.length + k) = rest.length - k := by
    intro k
    rw [List.length_append]
    omega
  unfold GetOp2 operandSize
  dsimp only
  by_cases hend : rest.length ≤ i
  · rw [if_pos (by rw [List.length_append]; omega), if_pos hend]
  rw [if_neg (by rw [List.length_append]; omega), if_neg hend]
  simp only [Nat.add_assoc, byteAt_append, bytesAt_append_left, hsub]
  split_ifs
  · rfl
  · rfl
  · rfl
  · rfl
  · rfl
  · rfl

/-! ### Pushes -/

/-- An opcode with the length of its operand and the operand. -/
def PushForm (bytes : CScript) (opcode : ℕ) (b : valtype) : Prop :=
  ∃ size : valtype, bytes = UInt8.ofNat opcode :: (size ++ b) ∧ opcode ≤ OP_PUSHDATA4 ∧
    size.length = sizeWidth opcode ∧
    (if opcode < OP_PUSHDATA1 then opcode else readLE size) = b.length

theorem getOp2_push {bytes rest : CScript} {opcode : ℕ} {b : valtype}
    (h : PushForm bytes opcode b) :
    GetOp2 (bytes ++ rest) 0 =
      if uint32 (b.length + rest.length) < b.length then (none, bytes.length - b.length)
      else (some (opcode, b), bytes.length) := by
  obtain ⟨size, rfl, hopcode, hwidth, hsize⟩ := h
  have hbyte : byteAt (UInt8.ofNat opcode :: (size ++ b) ++ rest) 0 = opcode := by
    have hlt : opcode < 256 := by
      simp only [OP_PUSHDATA4] at hopcode
      omega
    change (UInt8.ofNat opcode).toNat = opcode
    rw [UInt8.toNat_ofNat', Nat.mod_eq_of_lt hlt]
  have hread : bytesAt (UInt8.ofNat opcode :: (size ++ b) ++ rest) 1 size.length = size := by
    unfold bytesAt
    simp
  have hdata : bytesAt (UInt8.ofNat opcode :: (size ++ b) ++ rest) (1 + size.length) b.length =
      b := by
    have hdrop : (UInt8.ofNat opcode :: (size ++ b) ++ rest).drop (1 + size.length) =
        b ++ rest := by
      rw [← List.drop_drop]
      simp
    unfold bytesAt
    rw [hdrop, List.take_left]
  have hlength : (UInt8.ofNat opcode :: (size ++ b) ++ rest).length =
      1 + size.length + (b.length + rest.length) := by
    simp
    omega
  have hsub : 1 + size.length + (b.length + rest.length) - (1 + size.length) =
      b.length + rest.length := Nat.add_sub_cancel_left _ _
  have hown : (UInt8.ofNat opcode :: (size ++ b)).length = 1 + size.length + b.length := by
    simp
    omega
  unfold GetOp2 operandSize
  rw [if_neg (by rw [hlength]; omega)]
  dsimp only
  rw [hbyte, if_pos hopcode, ← hwidth, if_neg (by rw [hlength]; omega), Nat.zero_add, hread,
    hsize, hlength, hsub, hdata, hown]
  split_ifs
  · rw [Nat.add_sub_cancel]
  · rfl

/-- The shortest of the four encodings. -/
theorem pushForm_pushData {b : valtype} (hb : b.length < 2 ^ 32) :
    PushForm (pushData b)
      (if b.length < OP_PUSHDATA1 then b.length else if b.length ≤ 0xff then OP_PUSHDATA1
        else if b.length ≤ 0xffff then OP_PUSHDATA2 else OP_PUSHDATA4) b := by
  unfold pushData
  split_ifs with h1 h2 h4
  · refine ⟨[], rfl, ?_, ?_, if_pos h1⟩
    · simp only [OP_PUSHDATA1, OP_PUSHDATA4] at *
      omega
    · rw [sizeWidth, if_pos h1]
      rfl
  · refine ⟨leBytes 1 b.length, rfl, by decide, rfl, ?_⟩
    rw [if_neg (by decide), readLE_leBytes, Nat.mod_eq_of_lt (by omega)]
  · refine ⟨leBytes 2 b.length, rfl, by decide, rfl, ?_⟩
    rw [if_neg (by decide), readLE_leBytes, Nat.mod_eq_of_lt (by omega)]
  · refine ⟨leBytes 4 b.length, rfl, by decide, rfl, ?_⟩
    rw [if_neg (by decide), readLE_leBytes, Nat.mod_eq_of_lt (by omega)]

/-- A length byte below `OP_PUSHDATA1` in front. -/
theorem pushForm_short {b : valtype} (hb : b.length < OP_PUSHDATA1) :
    PushForm (UInt8.ofNat b.length :: b) b.length b := by
  refine ⟨[], rfl, ?_, ?_, if_pos hb⟩
  · simp only [OP_PUSHDATA1, OP_PUSHDATA4] at *
    omega
  · rw [sizeWidth, if_pos hb]
    rfl

theorem length_serialize_lt {n : ℤ} (hn : -2 ^ 63 ≤ n ∧ n < 2 ^ 63) :
    (CScriptNum.serialize n).length < 2 ^ 32 := by
  by_cases hzero : n = 0
  · rw [hzero]
    exact Nat.two_pow_pos 32
  · obtain ⟨init, last, hbytes, -, hbound⟩ := serialize_parts hzero (by omega)
    have hexp : 2 ^ (8 * init.length - 1) < 2 ^ 64 := by omega
    have hlength := (Nat.pow_lt_pow_iff_right (by decide : 1 < 2)).mp hexp
    rw [hbytes, List.length_append, List.length_singleton]
    omega

/-! ### Tokens -/

namespace ScriptToken

/-- A value of the token's type; an opcode is one that has no operand. -/
def Valid : ScriptToken → Prop
  | opcode op => OP_PUSHDATA4 < op ∧ op ≤ 0xff
  | data b => b.length < 2 ^ 32
  | scriptNum n => -2 ^ 63 ≤ n ∧ n < 2 ^ 63
  | int64 n => -2 ^ 63 ≤ n ∧ n < 2 ^ 63
  | hash160 _ => True
  | hash256 _ => True
  | pubKey key => key.length < OP_PUSHDATA1

/-- How data of a length is announced. -/
def pushOpcode (n : ℕ) : ℕ :=
  if n < OP_PUSHDATA1 then n else if n ≤ 0xff then OP_PUSHDATA1
  else if n ≤ 0xffff then OP_PUSHDATA2 else OP_PUSHDATA4

/-- What `GetOp` has to return for the token: the opcode and the data. -/
def read : ScriptToken → ℕ × valtype
  | opcode op => (op, [])
  | data b => (pushOpcode b.length, b)
  | scriptNum n => (pushOpcode (CScriptNum.serialize n).length, CScriptNum.serialize n)
  | int64 n =>
      if n = -1 then (OP_1NEGATE, [])
      else if 1 ≤ n ∧ n ≤ 16 then (OP_1 + n.toNat - 1, [])
      else (pushOpcode (CScriptNum.serialize n).length, CScriptNum.serialize n)
  | hash160 b => (20, leBytes 20 b)
  | hash256 b => (32, leBytes 32 b)
  | pubKey key => (key.length, key)

end ScriptToken

open ScriptToken

/-- The bytes hold the data and are read as the instruction, unless the size of what is
left is cut off below the length of the data. -/
def ReadsAs (bytes : CScript) (op : ℕ × valtype) : Prop :=
  op.2.length ≤ bytes.length ∧ ∀ rest : CScript,
    (GetOp2 (bytes ++ rest) 0).1 =
      (if uint32 (op.2.length + rest.length) < op.2.length then none else some op) ∧
    (¬ uint32 (op.2.length + rest.length) < op.2.length →
      (GetOp2 (bytes ++ rest) 0).2 = bytes.length)

theorem PushForm.readsAs {bytes : CScript} {op : ℕ} {b : valtype} (h : PushForm bytes op b) :
    ReadsAs bytes (op, b) := by
  refine ⟨?_, fun rest => ?_⟩
  · obtain ⟨size, rfl, -⟩ := h
    change b.length ≤ _
    rw [List.length_cons, List.length_append]
    omega
  · rw [getOp2_push h]
    split_ifs with hcut
    · exact ⟨rfl, fun hfits => absurd hcut hfits⟩
    · exact ⟨rfl, fun _ => rfl⟩

/-- An opcode without an operand. -/
theorem readsAs_opcode {op : ℕ} (hop : OP_PUSHDATA4 < op) (hbyte : op ≤ 0xff) :
    ReadsAs [UInt8.ofNat op] (op, []) := by
  refine ⟨Nat.zero_le _, fun rest => ?_⟩
  have hat : byteAt ([UInt8.ofNat op] ++ rest) 0 = op := by
    change (UInt8.ofNat op).toNat = op
    rw [UInt8.toNat_ofNat', Nat.mod_eq_of_lt (by omega)]
  have hread : GetOp2 ([UInt8.ofNat op] ++ rest) 0 = (some (op, []), 1) := by
    unfold GetOp2
    rw [if_neg (by simp)]
    dsimp only
    rw [hat, if_neg (by omega)]
  rw [hread]
  exact ⟨rfl, fun _ => rfl⟩

/-- What is appended for a token is read back as the token. -/
theorem readsAs_token {token : ScriptToken} (h : token.Valid) :
    ∃ bytes : CScript, token.bytes = some bytes ∧ ReadsAs bytes token.read := by
  cases token with
  | opcode op =>
      obtain ⟨hop, hbyte⟩ := h
      exact ⟨[UInt8.ofNat op], if_neg (by omega), readsAs_opcode hop hbyte⟩
  | data b => exact ⟨pushData b, rfl, (pushForm_pushData h).readsAs⟩
  | scriptNum n =>
      exact ⟨pushScriptNum n, rfl, (pushForm_pushData (length_serialize_lt h)).readsAs⟩
  | int64 n =>
      by_cases hneg : n = -1
      · subst hneg
        exact ⟨[UInt8.ofNat OP_1NEGATE], rfl, readsAs_opcode (by decide) (by decide)⟩
      by_cases hsmall : 1 ≤ n ∧ n ≤ 16
      · have hop : (n + (OP_1 - 1)).toNat = OP_1 + n.toNat - 1 := by
          simp only [OP_1]
          omega
        have hread : (ScriptToken.int64 n).read = (OP_1 + n.toNat - 1, []) := by
          rw [ScriptToken.read, if_neg hneg, if_pos hsmall]
        rw [ScriptToken.bytes, if_pos (.inr hsmall), hop, hread]
        refine ⟨_, rfl, readsAs_opcode ?_ ?_⟩
        · simp only [OP_PUSHDATA4, OP_1]
          omega
        · simp only [OP_1]
          omega
      · have hread : (ScriptToken.int64 n).read =
            (pushOpcode (CScriptNum.serialize n).length, CScriptNum.serialize n) := by
          rw [ScriptToken.read, if_neg hneg, if_neg hsmall]
        rw [ScriptToken.bytes, if_neg (not_or.mpr ⟨hneg, hsmall⟩), hread]
        exact ⟨_, rfl, (pushForm_pushData (length_serialize_lt h)).readsAs⟩
  | hash160 b =>
      refine ⟨UInt8.ofNat 20 :: leBytes 20 b, rfl,
        PushForm.readsAs ⟨[], rfl, by decide, rfl, ?_⟩⟩
      rw [leBytes_length]
      rfl
  | hash256 b =>
      refine ⟨UInt8.ofNat 32 :: leBytes 32 b, rfl,
        PushForm.readsAs ⟨[], rfl, by decide, rfl, ?_⟩⟩
      rw [leBytes_length]
      rfl
  | pubKey key =>
      exact ⟨UInt8.ofNat key.length :: key, if_pos h, (pushForm_short h).readsAs⟩

/-! ### A built script -/

/-- The bytes of a list of tokens. -/
def tokenBytes (tokens : List ScriptToken) : CScript :=
  tokens.flatMap fun token => token.bytes.getD []

theorem append_eq {tokens : List ScriptToken} (h : ∀ token ∈ tokens, token.Valid)
    (script : CScript) : append script tokens = some (script ++ tokenBytes tokens) := by
  induction tokens generalizing script with
  | nil => simp [append, tokenBytes]
  | cons token tokens ih =>
      obtain ⟨bytes, hbytes, -⟩ := readsAs_token (h token List.mem_cons_self)
      have hcons : tokenBytes (token :: tokens) = bytes ++ tokenBytes tokens := by
        simp [tokenBytes, hbytes]
      rw [append, hbytes, Option.bind_some, ih (fun t ht => h t (List.mem_cons_of_mem _ ht)),
        hcons, List.append_assoc]

/-- At no token the number of bytes from its data to the end of the script, as an
`unsigned int`, is below the length of the data. -/
def PushesFit : List ScriptToken → Prop
  | [] => True
  | token :: tokens =>
      ¬ uint32 (token.read.2.length + (tokenBytes tokens).length) < token.read.2.length ∧
        PushesFit tokens

theorem getOps_none {script : CScript} {pc : ℕ} (h : (GetOp2 script pc).1 = none) :
    GetOps script pc = ([], pc) := by
  rw [GetOps]
  split
  · rfl
  · next hsome =>
      rw [hsome] at h
      cases h

theorem getOps_some {script : CScript} {pc pc' : ℕ} {op : ℕ × valtype}
    (h : GetOp2 script pc = (some op, pc')) :
    GetOps script pc = (op :: (GetOps script pc').1, (GetOps script pc').2) := by
  rw [GetOps]
  split
  · next hnone =>
      rw [hnone] at h
      cases h
  · next hsome =>
      rw [hsome] at h
      obtain ⟨hop, rfl⟩ := Prod.mk.inj h
      rw [Option.some.inj hop]

/-- From behind any script, the walk over the bytes of tokens. -/
theorem getOps_tokens {tokens : List ScriptToken} (h : ∀ token ∈ tokens, token.Valid)
    (init : CScript) :
    GetOps (init ++ tokenBytes tokens) init.length =
        (tokens.map ScriptToken.read, (init ++ tokenBytes tokens).length) ↔ PushesFit tokens := by
  induction tokens generalizing init with
  | nil =>
      have hend : (GetOp2 (init ++ tokenBytes []) init.length).1 = none := by
        unfold GetOp2
        rw [if_pos (by simp [tokenBytes])]
      rw [getOps_none hend]
      simp [tokenBytes, PushesFit]
  | cons token tokens ih =>
      obtain ⟨bytes, hbytes, hreads⟩ := readsAs_token (h token List.mem_cons_self)
      have hcons : tokenBytes (token :: tokens) = bytes ++ tokenBytes tokens := by
        simp [tokenBytes, hbytes]
      have hat := getOp2_append init (bytes ++ tokenBytes tokens) 0
      rw [Nat.add_zero] at hat
      obtain ⟨hread, hnext⟩ := hreads.2 (tokenBytes tokens)
      rw [hcons]
      by_cases hcut : uint32 (token.read.2.length + (tokenBytes tokens).length) <
          token.read.2.length
      · rw [if_pos hcut] at hread
        rw [getOps_none (by rw [hat, hread])]
        exact iff_of_false (fun hsame => by cases hsame) fun hfits => hfits.1 hcut
      · rw [if_neg hcut] at hread
        rw [hread, hnext hcut] at hat
        have hrest := ih (fun t ht => h t (List.mem_cons_of_mem _ ht)) (init ++ bytes)
        rw [List.append_assoc, List.length_append] at hrest
        rw [getOps_some hat, List.map_cons, PushesFit, ← hrest, Prod.ext_iff, Prod.ext_iff]
        simp [hcut]

/-! ### Erasing -/

/-- A walk over `script` that erases `b`: the script it leaves, and how many
occurrences stood at the start of an instruction and were erased. -/
inductive Deletes (b : CScript) : (script script' : CScript) → (k : ℕ) → Prop where
  /-- No occurrence and no instruction. -/
  | stop {rest : CScript} : ¬ b <+: rest → (GetOp2 rest 0).1 = none → Deletes b rest rest 0
  /-- An occurrence, behind which the walk goes on. -/
  | erase {rest rest' : CScript} {k : ℕ} :
      Deletes b rest rest' k → Deletes b (b ++ rest) rest' (k + 1)
  /-- An instruction that does not start with an occurrence. -/
  | keep {bytes rest rest' : CScript} {op : ℕ × valtype} {k : ℕ} :
      ¬ b <+: bytes ++ rest → GetOp2 (bytes ++ rest) 0 = (some op, bytes.length) →
      Deletes b rest rest' k → Deletes b (bytes ++ rest) (bytes ++ rest') k

theorem Deletes.unchanged {b script script' : CScript} {k : ℕ} (h : Deletes b script script' k)
    (hk : k = 0) : script' = script := by
  induction h with
  | stop _ _ => rfl
  | erase _ _ => exact absurd hk (Nat.succ_ne_zero _)
  | keep _ _ _ ih => rw [ih hk]

theorem int32_add_one (m : ℤ) : int32 (int32 m + 1) = int32 (m + 1) := Int.bmod_add_bmod

section Loops

variable {b : CScript} (hb : b ≠ [])

theorem at_iff_starts (init rest : CScript) :
    (b.length ≤ (init ++ rest).length - init.length ∧
        bytesAt (init ++ rest) init.length b.length = b) ↔ b <+: rest := by
  have hbytes : bytesAt (init ++ rest) init.length b.length = rest.take b.length := by
    unfold bytesAt
    rw [List.drop_left]
  rw [hbytes, List.length_append, Nat.add_sub_cancel_left, List.prefix_iff_eq_take]
  constructor
  · rintro ⟨-, h⟩
    exact h.symm
  · intro h
    refine ⟨?_, h.symm⟩
    have hlength := congrArg List.length h
    rw [List.length_take] at hlength
    omega

theorem eraseAt_append (init rest : CScript) (nFound : ℤ) :
    eraseAt b hb init.length (init ++ (b ++ rest)) nFound =
      eraseAt b hb init.length (init ++ rest) (int32 (nFound + 1)) := by
  have htake : (init ++ (b ++ rest)).take init.length = init := List.take_left
  have hdrop : (init ++ (b ++ rest)).drop (init.length + b.length) = rest := by
    rw [← List.append_assoc, ← List.length_append, List.drop_left]
  rw [eraseAt, if_pos ((at_iff_starts init (b ++ rest)).mpr (List.prefix_append b rest)), htake,
    hdrop]

theorem eraseAt_none (init : CScript) {rest : CScript} (h : ¬ b <+: rest) (nFound : ℤ) :
    eraseAt b hb init.length (init ++ rest) nFound = (init ++ rest, nFound) := by
  rw [eraseAt, if_neg fun hat => h ((at_iff_starts init rest).mp hat)]

theorem findAndDeleteFrom_none {script erased : CScript} {pc : ℕ} {nFound nErased : ℤ}
    (herase : eraseAt b hb pc script nFound = (erased, nErased))
    (h : (GetOp2 erased pc).1 = none) :
    findAndDeleteFrom b hb script pc nFound = (erased, nErased) := by
  rw [findAndDeleteFrom]
  split
  · exact herase
  · next hsome =>
      rw [herase] at hsome
      rw [hsome] at h
      cases h

theorem findAndDeleteFrom_some {script erased : CScript} {pc pc' : ℕ} {nFound nErased : ℤ}
    {op : ℕ × valtype} (herase : eraseAt b hb pc script nFound = (erased, nErased))
    (h : GetOp2 erased pc = (some op, pc')) :
    findAndDeleteFrom b hb script pc nFound = findAndDeleteFrom b hb erased pc' nErased := by
  rw [findAndDeleteFrom]
  split
  · next hnone =>
      rw [herase, h] at hnone
      cases hnone
  · next hsome =>
      rw [herase, h] at hsome
      obtain ⟨-, rfl⟩ := Prod.mk.inj hsome
      rw [herase]

/-- An occurrence at the position is erased before anything else happens. -/
theorem findAndDeleteFrom_append (init rest : CScript) (nFound : ℤ) :
    findAndDeleteFrom b hb (init ++ (b ++ rest)) init.length nFound =
      findAndDeleteFrom b hb (init ++ rest) init.length (int32 (nFound + 1)) := by
  have hfirst := eraseAt_append hb init rest nFound
  generalize herase :
    eraseAt b hb init.length (init ++ rest) (int32 (nFound + 1)) = erased at hfirst
  obtain ⟨erased, nErased⟩ := erased
  cases hop : GetOp2 erased init.length with
  | mk op pc' =>
      cases op with
      | none =>
          rw [findAndDeleteFrom_none hb hfirst (by rw [hop]),
            findAndDeleteFrom_none hb herase (by rw [hop])]
      | some op => rw [findAndDeleteFrom_some hb hfirst hop, findAndDeleteFrom_some hb herase hop]

/-- The loops run a walk, and count what it erases. -/
theorem findAndDeleteFrom_deletes (init rest : CScript) (m : ℤ) :
    ∃ (rest' : CScript) (k : ℕ), Deletes b rest rest' k ∧
      findAndDeleteFrom b hb (init ++ rest) init.length (int32 m) =
        (init ++ rest', int32 (m + k)) := by
  induction hn : rest.length using Nat.strong_induction_on generalizing init rest m with
  | _ n ih =>
      subst hn
      by_cases hprefix : b <+: rest
      · obtain ⟨behind, rfl⟩ := hprefix
        have hpos := List.length_pos_iff.mpr hb
        obtain ⟨rest', k, hwalk, hrun⟩ := ih behind.length
          (by rw [List.length_append]; omega) init behind (m + 1) rfl
        refine ⟨rest', k + 1, hwalk.erase, ?_⟩
        rw [findAndDeleteFrom_append, int32_add_one, hrun]
        congr 2
        push_cast
        omega
      · have herase := eraseAt_none hb init hprefix (int32 m)
        have hat := getOp2_append init rest 0
        rw [Nat.add_zero] at hat
        cases hop : GetOp2 rest 0 with
        | mk op pc' =>
            rw [hop] at hat
            cases op with
            | none =>
                refine ⟨rest, 0, Deletes.stop hprefix (by rw [hop]), ?_⟩
                rw [findAndDeleteFrom_none hb herase (by rw [hat]), Int.natCast_zero, Int.add_zero]
            | some op =>
                obtain ⟨hadvance, hend⟩ := getOp2_advances hop
                have hsplit : rest.take pc' ++ rest.drop pc' = rest :=
                  List.take_append_drop pc' rest
                have htaken : (rest.take pc').length = pc' := List.length_take_of_le hend
                obtain ⟨rest', k, hwalk, hrun⟩ := ih (rest.drop pc').length
                  (by rw [List.length_drop]; omega) (init ++ rest.take pc') (rest.drop pc') m rfl
                refine ⟨rest.take pc' ++ rest', k, ?_, ?_⟩
                · have hkeep : Deletes b (rest.take pc' ++ rest.drop pc')
                      (rest.take pc' ++ rest') k :=
                    Deletes.keep (by rw [hsplit]; exact hprefix)
                      (by rw [hsplit, htaken, hop]) hwalk
                  rw [hsplit] at hkeep
                  exact hkeep
                · rw [List.append_assoc, hsplit, List.length_append, htaken] at hrun
                  rw [findAndDeleteFrom_some hb herase hat, hrun, List.append_assoc]

end Loops

/-! ### The whole -/

theorem int32_eq_iff (k : ℕ) : int32 k = k ↔ k < 2 ^ 31 := by
  unfold int32
  constructor
  · intro h
    rw [Int.bmod_def] at h
    split_ifs at h
    · omega
    · omega
  · intro h
    exact Int.bmod_eq_of_le (by omega) (by omega)

theorem length_pushData_long {b : valtype} (hb : 0xffff < b.length) :
    (pushData b).length = b.length + 5 := by
  unfold pushData
  rw [if_neg (by simp only [OP_PUSHDATA1]; omega), if_neg (by omega), if_neg (by omega),
    List.cons_append, List.length_cons, List.length_append, leBytes_length]
  omega

/-- Every script shorter than four gigabytes fits. -/
theorem fits_of_lt {tokens : List ScriptToken} (h : ∀ token ∈ tokens, token.Valid)
    (hlength : (tokenBytes tokens).length < 2 ^ 32) : PushesFit tokens := by
  induction tokens with
  | nil => trivial
  | cons token tokens ih =>
      obtain ⟨bytes, hbytes, hreads⟩ := readsAs_token (h token List.mem_cons_self)
      have hcons : tokenBytes (token :: tokens) = bytes ++ tokenBytes tokens := by
        simp [tokenBytes, hbytes]
      rw [hcons, List.length_append] at hlength
      have hdata := hreads.1
      refine ⟨?_, ih (fun t ht => h t (List.mem_cons_of_mem _ ht)) (by omega)⟩
      rw [uint32, Nat.mod_eq_of_lt (by omega)]
      omega

/-- The bytes a script is built from are read back under the condition `PushesFit`, an
iterator advances within the script, and a walk that erases counts what it erases as
long as an `int` holds the number. -/
theorem scriptBuilding_parsing (tokens : List ScriptToken) (script b : CScript) :
    ((∀ token ∈ tokens, token.Valid) →
      ∃ built : CScript, build tokens = some built ∧
        (GetOps built 0 = (tokens.map ScriptToken.read, built.length) ↔ PushesFit tokens) ∧
        (built.length < 2 ^ 32 → PushesFit tokens)) ∧
    (∀ (pc pc' : ℕ) (op : ℕ × valtype),
      GetOp2 script pc = (some op, pc') → pc < pc' ∧ pc' ≤ script.length) ∧
    (b ≠ [] →
      ∃ (script' : CScript) (k : ℕ), Deletes b script script' k ∧
        (FindAndDelete_int script b).1 = script' ∧ (k = 0 → script' = script) ∧
        ((FindAndDelete_int script b).2 = k ↔ k < 2 ^ 31)) := by
  refine ⟨fun h => ?_, fun pc pc' op => getOp2_advances, fun hb => ?_⟩
  · exact ⟨tokenBytes tokens, append_eq h [], getOps_tokens h [], fits_of_lt h⟩
  · obtain ⟨script', k, hwalk, hrun⟩ := findAndDeleteFrom_deletes hb [] script 0
    have hfind : FindAndDelete_int script b = (script', int32 k) := by
      unfold FindAndDelete_int
      rw [dif_neg hb]
      rw [List.nil_append, Int.zero_add] at hrun
      exact hrun
    refine ⟨script', k, hwalk, by rw [hfind], hwalk.unchanged, ?_⟩
    rw [hfind]
    dsimp only
    exact int32_eq_iff k

theorem scriptBuilding_parsing_some :
    (∃ built : CScript, build [.data [7], .int64 16] = some built ∧
      (GetOps built 0 = ([(1, [7]), (OP_16, [])], built.length) ↔
        PushesFit [.data [7], .int64 16]) ∧
      (built.length < 2 ^ 32 → PushesFit [.data [7], .int64 16])) ∧
    ∃ (script' : CScript) (k : ℕ), Deletes [OP_NOP.toUInt8] [1, 7] script' k ∧
      (FindAndDelete_int [1, 7] [OP_NOP.toUInt8]).1 = script' ∧ (k = 0 → script' = [1, 7]) ∧
      ((FindAndDelete_int [1, 7] [OP_NOP.toUInt8]).2 = k ↔ k < 2 ^ 31) :=
  ⟨(scriptBuilding_parsing [.data [7], .int64 16] [] []).1 (by
      intro token htoken
      simp only [List.mem_cons, List.not_mem_nil, or_false] at htoken
      rcases htoken with rfl | rfl
      · exact (by decide : 1 < 2 ^ 32)
      · exact (by decide : (-2 : ℤ) ^ 63 ≤ 16 ∧ (16 : ℤ) < 2 ^ 63)),
    (scriptBuilding_parsing [] [1, 7] [OP_NOP.toUInt8]).2.2 (List.cons_ne_nil _ _)⟩

/-- One byte and then four gigabytes less six bytes: the first push is not read back,
for the `2 ^ 32` bytes behind its length byte count as none. -/
theorem built_script_cut_off :
    ¬ ∀ tokens : List ScriptToken, (∀ token ∈ tokens, token.Valid) →
      ∀ script : CScript, build tokens = some script →
        GetOps script 0 = (tokens.map ScriptToken.read, script.length) := by
  intro h
  obtain ⟨n, hn⟩ : ∃ n, n = 2 ^ 32 - 6 := ⟨_, rfl⟩
  have hvalid : ∀ token ∈ [ScriptToken.data [0], .data (List.replicate n 0)], token.Valid := by
    intro token htoken
    simp only [List.mem_cons, List.not_mem_nil, or_false] at htoken
    rcases htoken with rfl | rfl
    · exact Nat.one_lt_two_pow (by decide)
    · change (List.replicate n (0 : UInt8)).length < 2 ^ 32
      rw [List.length_replicate]
      omega
  have hread := h _ hvalid _ (append_eq hvalid [])
  obtain ⟨hcut, -⟩ := (getOps_tokens hvalid []).mp hread
  apply hcut
  have hlength : (tokenBytes [ScriptToken.data (List.replicate n 0)]).length = n + 5 := by
    have hpush := length_pushData_long (b := List.replicate n 0)
      (by rw [List.length_replicate]; omega)
    rw [List.length_replicate] at hpush
    simpa [tokenBytes, ScriptToken.bytes] using hpush
  have hone : (ScriptToken.data [0]).read.2.length = 1 := rfl
  rw [hlength, hone, uint32]
  omega

end Ziftrcoin.Spec
