/-
Module: Ziftrcoin.Spec.ScriptBuilding
Purpose: How a script is put together token by token, how an iterator walks over it, and
  how occurrences of a byte string are erased during such a walk.
Trusted boundary: human-reviewed model of operator<<, GetOp2 and FindAndDelete of CScript
  in src/script.h; an iterator is a position, and sizes have the width of the source's
  types
Main exports: ScriptToken, ScriptToken.bytes, CScript.build
-/
import Ziftrcoin.Spec.CoinsFormat

namespace Ziftrcoin.Spec

/-! ### Building -/

/-- What `operator<<` appends. -/
inductive ScriptToken where
  /-- `opcodetype`. -/
  | opcode (op : ℕ)
  /-- `std::vector<unsigned char>`. -/
  | data (b : valtype)
  /-- `CScriptNum`. -/
  | scriptNum (m_value : ℤ)
  /-- `int64_t`. -/
  | int64 (n : ℤ)
  /-- `uint160`. -/
  | hash160 (b : ℕ)
  | hash256 (b : uint256)
  /-- The bytes of a `CPubKey`. -/
  | pubKey (key : valtype)
deriving DecidableEq

namespace ScriptToken

/-- The bytes that are appended; `none` where the operator throws or asserts. -/
def bytes : ScriptToken → Option CScript
  | opcode op => if 0xff < op then none else some [UInt8.ofNat op]
  | data b => some (pushData b)
  | scriptNum m_value => some (pushScriptNum m_value)
  | int64 n =>
      if n = -1 ∨ (1 ≤ n ∧ n ≤ 16) then some [UInt8.ofNat (n + (OP_1 - 1)).toNat]
      else some (pushData (CScriptNum.serialize n))
  | hash160 b => some (UInt8.ofNat 20 :: leBytes 20 b)
  | hash256 b => some (UInt8.ofNat 32 :: leBytes 32 b)
  | pubKey key =>
      if key.length < OP_PUSHDATA1 then some (UInt8.ofNat key.length :: key) else none

end ScriptToken

namespace CScript

/-- `operator<<` token by token. -/
def append (script : CScript) : List ScriptToken → Option CScript
  | [] => some script
  | token :: tokens => token.bytes.bind fun bytes => append (script ++ bytes) tokens

def build (tokens : List ScriptToken) : Option CScript := append [] tokens

/-! ### Walking -/

/-- Number of bytes that hold the length of an immediate operand. -/
def sizeWidth (opcode : ℕ) : ℕ :=
  if opcode < OP_PUSHDATA1 then 0
  else if opcode = OP_PUSHDATA1 then 1
  else if opcode = OP_PUSHDATA2 then 2
  else 4

/-- `nSize`, the length of the immediate operand, read at the position `pc`. -/
def operandSize (script : CScript) (opcode pc : ℕ) : ℕ :=
  if opcode < OP_PUSHDATA1 then opcode else readLE (script.bytesAt pc (sizeWidth opcode))

/-- The instruction at the position `pc`, if there is one, and the position that the
iterator is left at.  What is left of the script is compared as an `unsigned int`. -/
def GetOp2 (script : CScript) (pc : ℕ) : Option (ℕ × valtype) × ℕ :=
  if script.length ≤ pc then (none, pc)
  else
    let opcode := script.byteAt pc
    let pc := pc + 1
    if opcode ≤ OP_PUSHDATA4 then
      let width := sizeWidth opcode
      if script.length - pc < width then (none, pc)
      else
        let nSize := script.operandSize opcode pc
        let pc := pc + width
        if uint32 (script.length - pc) < nSize then (none, pc)
        else (some (opcode, script.bytesAt pc nSize), pc + nSize)
    else (some (opcode, []), pc)

theorem getOp2_advances {script : CScript} {pc pc' : ℕ} {op : ℕ × valtype}
    (h : script.GetOp2 pc = (some op, pc')) : pc < pc' ∧ pc' ≤ script.length := by
  unfold GetOp2 at h
  dsimp only at h
  split_ifs at h with hend hpush hwidth hsize
  · cases h
  · cases h
  · cases h
  · obtain ⟨-, rfl⟩ := Prod.mk.inj h
    have hsmall : uint32 (script.length - (pc + 1 + sizeWidth (script.byteAt pc))) ≤
        script.length - (pc + 1 + sizeWidth (script.byteAt pc)) := Nat.mod_le _ _
    omega
  · obtain ⟨-, rfl⟩ := Prod.mk.inj h
    omega

/-- Repeated `GetOp` from `pc` on: the instructions, and the position at which it
returns false. -/
def GetOps (script : CScript) (pc : ℕ) : List (ℕ × valtype) × ℕ :=
  match h : script.GetOp2 pc with
  | (none, _) => ([], pc)
  | (some op, pc') =>
      let rest := GetOps script pc'
      (op :: rest.1, rest.2)
termination_by script.length - pc
decreasing_by
  have hstep := getOp2_advances h
  omega

/-! ### Erasing -/

/-- The inner loop of `FindAndDelete`: `erase(pc, pc + b.size())` while `b` is there. -/
def eraseAt (b : CScript) (hb : b ≠ []) (pc : ℕ) (script : CScript) (nFound : ℤ) :
    CScript × ℤ :=
  if b.length ≤ script.length - pc ∧ script.bytesAt pc b.length = b then
    eraseAt b hb pc (script.take pc ++ script.drop (pc + b.length)) (int32 (nFound + 1))
  else (script, nFound)
termination_by script.length
decreasing_by
  have hpos := List.length_pos_iff.mpr hb
  rw [List.length_append, List.length_take, List.length_drop]
  omega

theorem length_eraseAt (b : CScript) (hb : b ≠ []) (pc : ℕ) (script : CScript) (nFound : ℤ) :
    (eraseAt b hb pc script nFound).1.length ≤ script.length := by
  induction script, nFound using eraseAt.induct b hb pc with
  | case1 script nFound h ih =>
      rw [eraseAt, if_pos h]
      refine ih.trans ?_
      rw [List.length_append, List.length_take, List.length_drop]
      omega
  | case2 script nFound h =>
      rw [eraseAt, if_neg h]

/-- The outer loop from the position `pc` on. -/
def findAndDeleteFrom (b : CScript) (hb : b ≠ []) (script : CScript) (pc : ℕ) (nFound : ℤ) :
    CScript × ℤ :=
  match h : (eraseAt b hb pc script nFound).1.GetOp2 pc with
  | (none, _) => eraseAt b hb pc script nFound
  | (some _, pc') =>
      findAndDeleteFrom b hb (eraseAt b hb pc script nFound).1 pc'
        (eraseAt b hb pc script nFound).2
termination_by script.length - pc
decreasing_by
  have hstep := getOp2_advances h
  have hlength := length_eraseAt b hb pc script nFound
  omega

/-- `FindAndDelete`: the script it leaves and the number it returns. -/
def FindAndDelete_int (script b : CScript) : CScript × ℤ :=
  if hb : b = [] then (script, 0) else findAndDeleteFrom b hb script 0 0

end CScript
end Ziftrcoin.Spec
