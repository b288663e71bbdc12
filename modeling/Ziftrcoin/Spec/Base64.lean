/-
Module: Ziftrcoin.Spec.Base64
Purpose: Byte strings as text in base 64 and base 32, phase by phase as the coders compute
  them.
Trusted boundary: human-reviewed model of EncodeBase64, DecodeBase64, EncodeBase32 and
  DecodeBase32 in src/util.cpp, the decoders with a flag to report to
Main exports: EncodeBase64, DecodeBase64, EncodeBase32
-/
import Ziftrcoin.Spec.Text

namespace Ziftrcoin.Spec

/-- The variables of a coder: the phase, the bits that are left over, and what it has
written. -/
structure CoderState where
  mode : ℕ
  left : ℕ
  ret : List UInt8

/-! ### Decoders -/

/-- The loop of a decoder over the memory from `p` on, and where it stops; nothing where it
would read behind the terminating NUL. -/
def decodeLoop (table : List ℤ) (phase : CoderState → ℕ → CoderState) :
    CoderState → (p : List UInt8) → Option (CoderState × List UInt8)
  | _, [] => none
  | state, c :: p =>
      let dec := table.getD c.toNat (-1)
      if dec = -1 then some (state, c :: p) else decodeLoop table phase (phase state dec.toNat) p

/-- `p[0] != '=' || .. || p[n-1] != '=' || table[p[n]] != -1`, read from the left up to the
first term that holds; nothing where it would read behind the NUL. -/
def badPadding (table : List ℤ) : (n : ℕ) → (p : List UInt8) → Option Bool
  | _, [] => none
  | 0, c :: _ => some (decide (table.getD c.toNat (-1) ≠ -1))
  | n + 1, c :: p => if c ≠ 61 then some true else badPadding table n p

/-- What a decoder returns, and the flag; `invalid` is the last switch. -/
def decodeText (table : List ℤ) (phase : CoderState → ℕ → CoderState)
    (invalid : CoderState → List UInt8 → Option Bool) (p : CString) : Option (valtype × Bool) := do
  let (state, p) ← decodeLoop table phase ⟨0, 0, []⟩ (p ++ [0])
  let fInvalid ← invalid state p
  return (state.ret, fInvalid)

/-! ### Base 64 -/

def pbase64 : CString :=
  chars "ABCDEFGHIJKLMNOPQRSTUVWXYZabcdefghijklmnopqrstuvwxyz0123456789+/".toList

/-- The switch of `EncodeBase64`. -/
def encodePhase64 (state : CoderState) (enc : ℕ) : CoderState :=
  match state.mode with
  | 0 => ⟨1, (enc &&& 3) <<< 4, state.ret ++ [charAt pbase64 (enc >>> 2)]⟩
  | 1 => ⟨2, (enc &&& 15) <<< 2, state.ret ++ [charAt pbase64 (state.left ||| enc >>> 4)]⟩
  | 2 => ⟨0, state.left, state.ret ++ [charAt pbase64 (state.left ||| enc >>> 6)] ++
      [charAt pbase64 (enc &&& 63)]⟩
  | _ => state

def EncodeBase64 (pch : valtype) : CString :=
  let state := (pch.map UInt8.toNat).foldl encodePhase64 ⟨0, 0, []⟩
  if state.mode ≠ 0 then
    state.ret ++ [charAt pbase64 state.left] ++ [61] ++ (if state.mode = 1 then [61] else [])
  else state.ret

def decode64_table : List ℤ :=
  [ -1,-1,-1,-1,-1,-1,-1,-1,-1,-1,-1,-1,-1,-1,-1,-1,-1,-1,-1,-1,
    -1,-1,-1,-1,-1,-1,-1,-1,-1,-1,-1,-1,-1,-1,-1,-1,-1,-1,-1,-1,
    -1,-1,-1,62,-1,-1,-1,63,52,53,54,55,56,57,58,59,60,61,-1,-1,
    -1,-1,-1,-1,-1,0,1,2,3,4,5,6,7,8,9,10,11,12,13,14,
    15,16,17,18,19,20,21,22,23,24,25,-1,-1,-1,-1,-1,-1,26,27,28,
    29,30,31,32,33,34,35,36,37,38,39,40,41,42,43,44,45,46,47,48,
    49,50,51,-1,-1,-1,-1,-1,-1,-1,-1,-1,-1,-1,-1,-1,-1,-1,-1,-1,
    -1,-1,-1,-1,-1,-1,-1,-1,-1,-1,-1,-1,-1,-1,-1,-1,-1,-1,-1,-1,
    -1,-1,-1,-1,-1,-1,-1,-1,-1,-1,-1,-1,-1,-1,-1,-1,-1,-1,-1,-1,
    -1,-1,-1,-1,-1,-1,-1,-1,-1,-1,-1,-1,-1,-1,-1,-1,-1,-1,-1,-1,
    -1,-1,-1,-1,-1,-1,-1,-1,-1,-1,-1,-1,-1,-1,-1,-1,-1,-1,-1,-1,
    -1,-1,-1,-1,-1,-1,-1,-1,-1,-1,-1,-1,-1,-1,-1,-1,-1,-1,-1,-1,
    -1,-1,-1,-1,-1,-1,-1,-1,-1,-1,-1,-1,-1,-1,-1,-1 ]

/-- The first switch of `DecodeBase64`. -/
def decodePhase64 (state : CoderState) (dec : ℕ) : CoderState :=
  match state.mode with
  | 0 => ⟨1, dec, state.ret⟩
  | 1 => ⟨2, dec &&& 15, state.ret ++ [UInt8.ofNat (state.left <<< 2 ||| dec >>> 4)]⟩
  | 2 => ⟨3, dec &&& 3, state.ret ++ [UInt8.ofNat (state.left <<< 4 ||| dec >>> 2)]⟩
  | 3 => ⟨0, state.left, state.ret ++ [UInt8.ofNat (state.left <<< 6 ||| dec)]⟩
  | _ => state

/-- The last switch of `DecodeBase64`. -/
def invalid64 (state : CoderState) (p : List UInt8) : Option Bool :=
  match state.mode with
  | 0 => some false
  | 1 => some true
  | 2 => if state.left ≠ 0 then some true else badPadding decode64_table 2 p
  | 3 => if state.left ≠ 0 then some true else badPadding decode64_table 1 p
  | _ => some false

def DecodeBase64 (p : CString) : Option (valtype × Bool) :=
  decodeText decode64_table decodePhase64 invalid64 p

/-! ### Base 32 -/

def pbase32 : CString := chars "abcdefghijklmnopqrstuvwxyz234567".toList

/-- The switch of `EncodeBase32`. -/
def encodePhase32 (state : CoderState) (enc : ℕ) : CoderState :=
  match state.mode with
  | 0 => ⟨1, (enc &&& 7) <<< 2, state.ret ++ [charAt pbase32 (enc >>> 3)]⟩
  | 1 => ⟨2, (enc &&& 1) <<< 4, state.ret ++ [charAt pbase32 (state.left ||| enc >>> 6)] ++
      [charAt pbase32 (enc >>> 1 &&& 31)]⟩
  | 2 => ⟨3, (enc &&& 15) <<< 1, state.ret ++ [charAt pbase32 (state.left ||| enc >>> 4)]⟩
  | 3 => ⟨4, (enc &&& 3) <<< 3, state.ret ++ [charAt pbase32 (state.left ||| enc >>> 7)] ++
      [charAt pbase32 (enc >>> 2 &&& 31)]⟩
  | 4 => ⟨0, state.left, state.ret ++ [charAt pbase32 (state.left ||| enc >>> 5)] ++
      [charAt pbase32 (enc &&& 31)]⟩
  | _ => state

def nPadding : List ℕ := [0, 6, 4, 3, 1]

def EncodeBase32 (pch : valtype) : CString :=
  let state := (pch.map UInt8.toNat).foldl encodePhase32 ⟨0, 0, []⟩
  if state.mode ≠ 0 then
    state.ret ++ [charAt pbase32 state.left] ++ List.replicate (nPadding.getD state.mode 0) 61
  else state.ret

def decode32_table : List ℤ :=
  [ -1,-1,-1,-1,-1,-1,-1,-1,-1,-1,-1,-1,-1,-1,-1,-1,-1,-1,-1,-1,
    -1,-1,-1,-1,-1,-1,-1,-1,-1,-1,-1,-1,-1,-1,-1,-1,-1,-1,-1,-1,
    -1,-1,-1,-1,-1,-1,-1,-1,-1,-1,26,27,28,29,30,31,-1,-1,-1,-1,
    -1,-1,-1,-1,-1,0,1,2,3,4,5,6,7,8,9,10,11,12,13,14,
    15,16,17,18,19,20,21,22,23,24,25,-1,-1,-1,-1,-1,-1,0,1,2,
    3,4,5,6,7,8,9,10,11,12,13,14,15,16,17,18,19,20,21,22,
    23,24,25,-1,-1,-1,-1,-1,-1,-1,-1,-1,-1,-1,-1,-1,-1,-1,-1,-1,
    -1,-1,-1,-1,-1,-1,-1,-1,-1,-1,-1,-1,-1,-1,-1,-1,-1,-1,-1,-1,
    -1,-1,-1,-1,-1,-1,-1,-1,-1,-1,-1,-1,-1,-1,-1,-1,-1,-1,-1,-1,
    -1,-1,-1,-1,-1,-1,-1,-1,-1,-1,-1,-1,-1,-1,-1,-1,-1,-1,-1,-1,
    -1,-1,-1,-1,-1,-1,-1,-1,-1,-1,-1,-1,-1,-1,-1,-1,-1,-1,-1,-1,
    -1,-1,-1,-1,-1,-1,-1,-1,-1,-1,-1,-1,-1,-1,-1,-1,-1,-1,-1,-1,
    -1,-1,-1,-1,-1,-1,-1,-1,-1,-1,-1,-1,-1,-1,-1,-1 ]

/-- The first switch of `DecodeBase32`. -/
def decodePhase32 (state : CoderState) (dec : ℕ) : CoderState :=
  match state.mode with
  | 0 => ⟨1, dec, state.ret⟩
  | 1 => ⟨2, dec &&& 3, state.ret ++ [UInt8.ofNat (state.left <<< 3 ||| dec >>> 2)]⟩
  | 2 => ⟨3, state.left <<< 5 ||| dec, state.ret⟩
  | 3 => ⟨4, dec &&& 15, state.ret ++ [UInt8.ofNat (state.left <<< 1 ||| dec >>> 4)]⟩
  | 4 => ⟨5, dec &&& 1, state.ret ++ [UInt8.ofNat (state.left <<< 4 ||| dec >>> 1)]⟩
  | 5 => ⟨6, state.left <<< 5 ||| dec, state.ret⟩
  | 6 => ⟨7, dec &&& 7, state.ret ++ [UInt8.ofNat (state.left <<< 2 ||| dec >>> 3)]⟩
  | 7 => ⟨0, state.left, state.ret ++ [UInt8.ofNat (state.left <<< 5 ||| dec)]⟩
  | _ => state

/-- The last switch of `DecodeBase32`. -/
def invalid32 (state : CoderState) (p : List UInt8) : Option Bool :=
  match state.mode with
  | 0 => some false
  | 1 | 3 | 6 => some true
  | 2 => if state.left ≠ 0 then some true else badPadding decode32_table 6 p
  | 4 => if state.left ≠ 0 then some true else badPadding decode32_table 4 p
  | 5 => if state.left ≠ 0 then some true else badPadding decode32_table 3 p
  | 7 => if state.left ≠ 0 then some true else badPadding decode32_table 1 p
  | _ => some false

def DecodeBase32 (p : CString) : Option (valtype × Bool) :=
  decodeText decode32_table decodePhase32 invalid32 p

end Ziftrcoin.Spec
