/-
Module: Ziftrcoin.Spec.Interpreter
Purpose: The script interpreter, one instruction at a time, with signature
  hashes and the pay-to-script-hash evaluation on top of it.
Trusted boundary: human-reviewed model of EvalScript, CheckSig, SignatureHash
  and VerifyScript in src/script.cpp
Main exports: ScriptFlags, ScriptState, evalStep
-/
import Ziftrcoin.Spec.Transaction

namespace Ziftrcoin.Spec

/-- The `SCRIPT_VERIFY_` flags.  `SCRIPT_VERIFY_NOCACHE` only governs the cache
of valid signatures, which never changes an answer, and is left out. -/
structure ScriptFlags where
  P2SH : Bool
  STRICTENC : Bool
  EVEN_S : Bool
deriving Repr, DecidableEq, Inhabited

def SCRIPT_VERIFY_NONE : ScriptFlags := ⟨false, false, false⟩

/-- `SCRIPT_VERIFY_P2SH | SCRIPT_VERIFY_STRICTENC`. -/
def SCRIPT_VERIFY_P2SH_STRICTENC : ScriptFlags := ⟨true, true, false⟩

def vchFalse : valtype := []
def vchTrue : valtype := [1]

/-- False is any string of zero bytes, the last one possibly `0x80`. -/
def CastToBool (vch : valtype) : Bool :=
  vch.dropLast.any (· != 0) ||
    match vch.getLast? with
    | none => false
    | some b => b != 0 && b != 0x80

/-! ### Canonical encodings -/

def IsCanonicalPubKey (vchPubKey : valtype) (flags : ScriptFlags) : Bool :=
  if flags.STRICTENC = false then true
  else if vchPubKey.length < 33 then false
  else if vchPubKey.getD 0 0 = 0x04 then vchPubKey.length == 65
  else if vchPubKey.getD 0 0 = 0x02 ∨ vchPubKey.getD 0 0 = 0x03 then
    vchPubKey.length == 33
  else false

/-- One of the two integers of a signature, with its length byte in front. -/
def canonicalInteger (vchSig : valtype) (start nLen : Nat) : Bool :=
  let byte := fun i => (vchSig.getD i 0).toNat
  byte (start - 2) == 0x02 && nLen != 0 && decide (byte start < 0x80) &&
    !(decide (1 < nLen) && byte start == 0 && decide (byte (start + 1) < 0x80))

def IsCanonicalSignature (vchSig : valtype) (flags : ScriptFlags) : Bool :=
  let byte := fun i => (vchSig.getD i 0).toNat
  let nLenR := byte 3
  let nLenS := byte (5 + nLenR)
  let nHashType := byte (vchSig.length - 1) % 0x80
  if flags.STRICTENC = false then true
  else if vchSig.length < 9 ∨ 73 < vchSig.length then false
  else if byte 0 ≠ 0x30 ∨ byte 1 ≠ vchSig.length - 3 then false
  else if vchSig.length ≤ 5 + nLenR then false
  else if nLenR + nLenS + 7 ≠ vchSig.length then false
  else if canonicalInteger vchSig 4 nLenR = false then false
  else if canonicalInteger vchSig (6 + nLenR) nLenS = false then false
  else if flags.EVEN_S = true ∧ byte (6 + nLenR + (nLenS - 1)) % 2 = 1 then
    false
  else decide (1 ≤ nHashType) && decide (nHashType ≤ 3)

/-! ### Signature hashes -/

def SIGHASH_NONE : Nat := 2
def SIGHASH_SINGLE : Nat := 3

/-- Bytes of a script without its `OP_CODESEPARATOR`s.  A truncated last
instruction contributes what `GetOp` read of it. -/
def scriptCodeBytes : (fuel : Nat) → CScript → valtype
  | 0, _ => []
  | fuel + 1, pc =>
      match getOp2 pc with
      | (none, rest) => pc.take (pc.length - rest.length)
      | (some (opcode, _), rest) =>
          if opcode = OP_CODESEPARATOR then scriptCodeBytes fuel rest
          else pc.take (pc.length - rest.length) ++ scriptCodeBytes fuel rest

/-- `SerializeScriptCode`. -/
def serializeScriptCode (scriptCode : CScript) : valtype :=
  let nCodeSeparators :=
    (ops scriptCode).1.countP fun op => op.1 == OP_CODESEPARATOR
  writeCompactSize (scriptCode.length - nCodeSeparators) ++
    scriptCodeBytes (scriptCode.length + 1) scriptCode

/-- `SignatureHash`, with the one-byte `nHashType` that `CheckSig` passes. -/
def SignatureHash (crypto : Crypto) (scriptCode : CScript)
    (txTo : CTransaction) (nIn nHashType : Nat) : uint256 :=
  let fAnyoneCanPay := decide (0x80 ≤ nHashType)
  let fHashSingle := nHashType % 0x20 == SIGHASH_SINGLE
  let fHashNone := nHashType % 0x20 == SIGHASH_NONE
  if txTo.vin.length ≤ nIn then 1
  else if fHashSingle ∧ txTo.vout.length ≤ nIn then 1
  else
    let serializeInput := fun (nInput : Nat) (txin : CTxIn) =>
      txin.prevout.serialize ++
        (if nInput ≠ nIn then serializeBytes []
          else serializeScriptCode scriptCode) ++
        (if nInput ≠ nIn ∧ (fHashSingle || fHashNone) then leBytes 4 0
          else leBytes 4 txin.nSequence)
    let vin :=
      if fAnyoneCanPay then
        writeCompactSize 1 ++ serializeInput nIn (txTo.vin.getD nIn default)
      else
        writeCompactSize txTo.vin.length ++
          (txTo.vin.mapIdx serializeInput).flatten
    let nOutputs := if fHashNone then 0
      else if fHashSingle then nIn + 1 else txTo.vout.length
    let vout := (txTo.vout.take nOutputs).mapIdx fun nOutput txout =>
      if fHashSingle ∧ nOutput ≠ nIn then CTxOut.null.serialize
      else txout.serialize
    crypto.Hash (leInt32 txTo.nVersion ++ vin ++
      (writeCompactSize nOutputs ++ vout.flatten) ++ leBytes 4 txTo.nLockTime ++
      leBytes 4 nHashType)

/-- `CPubKey::IsValid` of a key constructed from bytes. -/
def pubKeyIsValid (vchPubKey : valtype) : Bool :=
  match vchPubKey with
  | [] => false
  | chHeader :: _ =>
      if chHeader = 2 ∨ chHeader = 3 then vchPubKey.length == 33
      else if chHeader = 4 ∨ chHeader = 6 ∨ chHeader = 7 then
        vchPubKey.length == 65
      else false

/-- `CheckSig` with `nHashType` 0, the only value it is called with when a
script is verified: the hash type is the last byte of the signature. -/
def CheckSig (crypto : Crypto) (vchSig vchPubKey : valtype)
    (scriptCode : CScript) (txTo : CTransaction) (nIn : Nat) : Bool :=
  match vchSig.getLast? with
  | none => false
  | some nHashType =>
      pubKeyIsValid vchPubKey &&
        crypto.Verify vchPubKey
          (SignatureHash crypto scriptCode txTo nIn nHashType.toNat)
          vchSig.dropLast

/-- `CScript::FindAndDelete` for a non-empty `b`. -/
def findAndDelete (b : CScript) : (fuel : Nat) → CScript → CScript
  | 0, pc => pc
  | fuel + 1, pc =>
      if b.isPrefixOf pc then findAndDelete b fuel (pc.drop b.length)
      else
        match getOp pc with
        | none => pc
        | some (_, _, rest) =>
            pc.take (pc.length - rest.length) ++ findAndDelete b fuel rest

def CScript.FindAndDelete (script b : CScript) : CScript :=
  findAndDelete b (script.length + 1) script

/-! ### The machine -/

/-- What the evaluation loop carries.  Stacks have their top first, and
`vfExec` its innermost branch. -/
structure ScriptState where
  pc : CScript
  pbegincodehash : CScript
  stack : List valtype
  altstack : List valtype
  vfExec : List Bool
  nOpCount : Nat
deriving Repr, DecidableEq, Inhabited

/-- What an evaluation is about: the spending input and the rules. -/
structure ScriptContext where
  crypto : Crypto
  txTo : CTransaction
  nIn : Nat
  flags : ScriptFlags

namespace ScriptState

def push (s : ScriptState) (vch : valtype) : ScriptState :=
  { s with stack := vch :: s.stack }

/-- Not inside a branch that is skipped. -/
def fExec (s : ScriptState) : Bool := s.vfExec.all id

end ScriptState

/-- Opcodes that fail a script even in a branch that is skipped. -/
def disabledOpcodes : List Nat :=
  [OP_CAT, OP_SUBSTR, OP_LEFT, OP_RIGHT, OP_INVERT, OP_AND, OP_OR, OP_XOR,
    OP_2MUL, OP_2DIV, OP_MUL, OP_DIV, OP_MOD, OP_LSHIFT, OP_RSHIFT]

/-- A numeric operand in the default four bytes. -/
def scriptNum (vch : valtype) : Option Int := CScriptNum.ofVch vch 4

/-- `CScriptNum(bool)`, then `getvch`. -/
def boolNum (b : Bool) : Int := if b then 1 else 0

/-- Push the outcome of a check, or, for the `VERIFY` form of the opcode, go
on only when it holds. -/
def pushOrVerify (s : ScriptState) (verify fValue : Bool) :
    Option ScriptState :=
  if verify then if fValue then some s else none
  else some (s.push (if fValue then vchTrue else vchFalse))

/-- `OP_IF`, `OP_NOTIF`, `OP_ELSE`, `OP_ENDIF`. -/
def execBranch (opcode : Nat) (s : ScriptState) : Option ScriptState :=
  if opcode = OP_IF ∨ opcode = OP_NOTIF then
    if s.fExec then
      match s.stack with
      | [] => none
      | vch :: stack =>
          let fValue := if opcode = OP_NOTIF then !CastToBool vch
            else CastToBool vch
          some { s with stack, vfExec := fValue :: s.vfExec }
    else some { s with vfExec := false :: s.vfExec }
  else
    match s.vfExec with
    | [] => none
    | f :: vfExec =>
        if opcode = OP_ELSE then some { s with vfExec := (!f) :: vfExec }
        else if opcode = OP_ENDIF then some { s with vfExec }
        else none

/-- `OP_PICK` and `OP_ROLL`. -/
def execPickRoll (opcode : Nat) (s : ScriptState) : Option ScriptState :=
  match s.stack with
  | vch :: x :: stack =>
      (scriptNum vch).bind fun bn =>
        let n := CScriptNum.getint bn
        let stack := x :: stack
        if n < 0 ∨ (stack.length : Int) ≤ n then none
        else
          match stack[n.toNat]? with
          | none => none
          | some value =>
              let stack := if opcode = OP_ROLL then stack.eraseIdx n.toNat
                else stack
              some { s with stack := value :: stack }
  | _ => none

/-- The operations that move stack elements; `none` where too few are there
and for every other opcode. -/
def execStack (opcode : Nat) (s : ScriptState) : Option ScriptState :=
  if opcode = OP_TOALTSTACK then
    match s.stack with
    | x1 :: stack => some { s with stack, altstack := x1 :: s.altstack }
    | _ => none
  else if opcode = OP_FROMALTSTACK then
    match s.altstack with
    | x1 :: altstack => some { s with stack := x1 :: s.stack, altstack }
    | _ => none
  else if opcode = OP_2DROP then
    match s.stack with
    | _ :: _ :: stack => some { s with stack }
    | _ => none
  else if opcode = OP_2DUP then
    match s.stack with
    | x2 :: x1 :: stack =>
        some { s with stack := x2 :: x1 :: x2 :: x1 :: stack }
    | _ => none
  else if opcode = OP_3DUP then
    match s.stack with
    | x3 :: x2 :: x1 :: stack =>
        some { s with stack := x3 :: x2 :: x1 :: x3 :: x2 :: x1 :: stack }
    | _ => none
  else if opcode = OP_2OVER then
    match s.stack with
    | x4 :: x3 :: x2 :: x1 :: stack =>
        some { s with stack := x2 :: x1 :: x4 :: x3 :: x2 :: x1 :: stack }
    | _ => none
  else if opcode = OP_2ROT then
    match s.stack with
    | x6 :: x5 :: x4 :: x3 :: x2 :: x1 :: stack =>
        some { s with stack := x2 :: x1 :: x6 :: x5 :: x4 :: x3 :: stack }
    | _ => none
  else if opcode = OP_2SWAP then
    match s.stack with
    | x4 :: x3 :: x2 :: x1 :: stack =>
        some { s with stack := x2 :: x1 :: x4 :: x3 :: stack }
    | _ => none
  else if opcode = OP_IFDUP then
    match s.stack with
    | x1 :: stack =>
        some { s with
          stack := if CastToBool x1 then x1 :: x1 :: stack else x1 :: stack }
    | _ => none
  else if opcode = OP_DEPTH then
    some (s.push (CScriptNum.serialize s.stack.length))
  else if opcode = OP_DROP then
    match s.stack with
    | _ :: stack => some { s with stack }
    | _ => none
  else if opcode = OP_DUP then
    match s.stack with
    | x1 :: stack => some { s with stack := x1 :: x1 :: stack }
    | _ => none
  else if opcode = OP_NIP then
    match s.stack with
    | x2 :: _ :: stack => some { s with stack := x2 :: stack }
    | _ => none
  else if opcode = OP_OVER then
    match s.stack with
    | x2 :: x1 :: stack => some { s with stack := x1 :: x2 :: x1 :: stack }
    | _ => none
  else if opcode = OP_PICK ∨ opcode = OP_ROLL then execPickRoll opcode s
  else if opcode = OP_ROT then
    match s.stack with
    | x3 :: x2 :: x1 :: stack =>
        some { s with stack := x1 :: x3 :: x2 :: stack }
    | _ => none
  else if opcode = OP_SWAP then
    match s.stack with
    | x2 :: x1 :: stack => some { s with stack := x1 :: x2 :: stack }
    | _ => none
  else if opcode = OP_TUCK then
    match s.stack with
    | x2 :: x1 :: stack => some { s with stack := x2 :: x1 :: x2 :: stack }
    | _ => none
  else if opcode = OP_SIZE then
    match s.stack with
    | x1 :: _ => some (s.push (CScriptNum.serialize x1.length))
    | _ => none
  else none

/-- `OP_1ADD` to `OP_0NOTEQUAL` on their operand. -/
def unaryNum (opcode : Nat) (bn : Int) : Option Int :=
  if opcode = OP_1ADD then some (bn + 1)
  else if opcode = OP_1SUB then some (bn - 1)
  else if opcode = OP_NEGATE then some (-bn)
  else if opcode = OP_ABS then some (if bn < 0 then -bn else bn)
  else if opcode = OP_NOT then some (boolNum (bn == 0))
  else if opcode = OP_0NOTEQUAL then some (boolNum (bn != 0))
  else none

/-- `OP_ADD` to `OP_MAX` on their operands. -/
def binaryNum (opcode : Nat) (bn1 bn2 : Int) : Option Int :=
  if opcode = OP_ADD then some (bn1 + bn2)
  else if opcode = OP_SUB then some (bn1 - bn2)
  else if opcode = OP_BOOLAND then some (boolNum (bn1 != 0 && bn2 != 0))
  else if opcode = OP_BOOLOR then some (boolNum (bn1 != 0 || bn2 != 0))
  else if opcode = OP_NUMEQUAL ∨ opcode = OP_NUMEQUALVERIFY then
    some (boolNum (bn1 == bn2))
  else if opcode = OP_NUMNOTEQUAL then some (boolNum (bn1 != bn2))
  else if opcode = OP_LESSTHAN then some (boolNum (decide (bn1 < bn2)))
  else if opcode = OP_GREATERTHAN then some (boolNum (decide (bn2 < bn1)))
  else if opcode = OP_LESSTHANOREQUAL then
    some (boolNum (decide (bn1 ≤ bn2)))
  else if opcode = OP_GREATERTHANOREQUAL then
    some (boolNum (decide (bn2 ≤ bn1)))
  else if opcode = OP_MIN then some (if bn1 < bn2 then bn1 else bn2)
  else if opcode = OP_MAX then some (if bn2 < bn1 then bn1 else bn2)
  else none

/-- The numeric operations and the comparison of byte strings. -/
def execNumeric (opcode : Nat) (s : ScriptState) : Option ScriptState :=
  if opcode = OP_EQUAL ∨ opcode = OP_EQUALVERIFY then
    match s.stack with
    | vch2 :: vch1 :: stack =>
        pushOrVerify { s with stack } (opcode == OP_EQUALVERIFY)
          (vch1 == vch2)
    | _ => none
  else if OP_1ADD ≤ opcode ∧ opcode ≤ OP_0NOTEQUAL then
    match s.stack with
    | vch :: stack =>
        (scriptNum vch).bind fun bn =>
          (unaryNum opcode bn).map fun bn =>
            { s with stack := CScriptNum.serialize bn :: stack }
    | _ => none
  else if opcode = OP_WITHIN then
    match s.stack with
    | vch3 :: vch2 :: vch1 :: stack =>
        (scriptNum vch1).bind fun bn1 =>
          (scriptNum vch2).bind fun bn2 =>
            (scriptNum vch3).map fun bn3 =>
              { s with
                stack := (if bn2 ≤ bn1 ∧ bn1 < bn3 then vchTrue
                  else vchFalse) :: stack }
    | _ => none
  else
    match s.stack with
    | vch2 :: vch1 :: stack =>
        (scriptNum vch1).bind fun bn1 =>
          (scriptNum vch2).bind fun bn2 =>
            (binaryNum opcode bn1 bn2).bind fun bn =>
              if opcode = OP_NUMEQUALVERIFY then
                if bn ≠ 0 then some { s with stack } else none
              else some { s with stack := CScriptNum.serialize bn :: stack }
    | _ => none

/-- `OP_RIPEMD160` to `OP_HASH256`. -/
def execHash (crypto : Crypto) (opcode : Nat) (s : ScriptState) :
    Option ScriptState :=
  match s.stack with
  | [] => none
  | vch :: stack =>
      let vchHash :=
        if opcode = OP_RIPEMD160 then crypto.RIPEMD160 vch
        else if opcode = OP_SHA1 then crypto.SHA1 vch
        else if opcode = OP_SHA256 then crypto.SHA256 vch
        else if opcode = OP_HASH160 then crypto.Hash160 vch
        else leBytes 32 (crypto.Hash vch)
      some { s with stack := vchHash :: stack }

/-- A signature that is canonical under the flags, with a canonical key, and
that the key made. -/
def signatureOk (ctx : ScriptContext) (vchSig vchPubKey : valtype)
    (scriptCode : CScript) : Bool :=
  IsCanonicalSignature vchSig ctx.flags &&
    IsCanonicalPubKey vchPubKey ctx.flags &&
    CheckSig ctx.crypto vchSig vchPubKey scriptCode ctx.txTo ctx.nIn

/-- `OP_CHECKSIG`, `OP_CHECKSIGVERIFY`. -/
def execCheckSig (ctx : ScriptContext) (opcode : Nat) (s : ScriptState) :
    Option ScriptState :=
  match s.stack with
  | vchPubKey :: vchSig :: stack =>
      let scriptCode := s.pbegincodehash.FindAndDelete (pushData vchSig)
      pushOrVerify { s with stack } (opcode == OP_CHECKSIGVERIFY)
        (signatureOk ctx vchSig vchPubKey scriptCode)
  | _ => none

/-- The signature loop of `OP_CHECKMULTISIG`: each key is tried once, and the
loop gives up when fewer keys than signatures are left. -/
def multisigLoop (ctx : ScriptContext) (scriptCode : CScript) :
    (vchSigs vchPubKeys : List valtype) → Bool
  | [], _ => true
  | _ :: _, [] => false
  | vchSig :: vchSigs, vchPubKey :: vchPubKeys =>
      let left := if signatureOk ctx vchSig vchPubKey scriptCode then vchSigs
        else vchSig :: vchSigs
      if vchPubKeys.length < left.length then false
      else multisigLoop ctx scriptCode left vchPubKeys

/-- `OP_CHECKMULTISIG`, `OP_CHECKMULTISIGVERIFY`: below the counts, keys and
signatures lies one element more that is removed unused. -/
def execCheckMultiSig (ctx : ScriptContext) (opcode : Nat)
    (s : ScriptState) : Option ScriptState :=
  match s.stack with
  | [] => none
  | vchKeysCount :: rest =>
      (scriptNum vchKeysCount).bind fun bnKeys =>
        let nKeysCount := CScriptNum.getint bnKeys
        if nKeysCount < 0 ∨ 20 < nKeysCount then none
        else if 201 < s.nOpCount + nKeysCount.toNat then none
        else
          let vchPubKeys := rest.take nKeysCount.toNat
          match rest.drop nKeysCount.toNat with
          | [] => none
          | vchSigsCount :: rest =>
              (scriptNum vchSigsCount).bind fun bnSigs =>
                let nSigsCount := CScriptNum.getint bnSigs
                if nSigsCount < 0 ∨ nKeysCount < nSigsCount then none
                else if rest.length < nSigsCount.toNat + 1 then none
                else
                  let vchSigs := rest.take nSigsCount.toNat
                  let scriptCode := vchSigs.foldl
                    (fun scriptCode vchSig =>
                      scriptCode.FindAndDelete (pushData vchSig))
                    s.pbegincodehash
                  pushOrVerify
                    { s with
                      stack := rest.drop (nSigsCount.toNat + 1),
                      nOpCount := s.nOpCount + nKeysCount.toNat }
                    (opcode == OP_CHECKMULTISIGVERIFY)
                    (multisigLoop ctx scriptCode vchSigs vchPubKeys)

/-- `OP_CHECKLOCKTIME`, `OP_CHECKLOCKTIMEVERIFY`.  The index of the spending
input is below `vin.size()` in every call. -/
def execCheckLockTime (ctx : ScriptContext) (opcode : Nat)
    (s : ScriptState) : Option ScriptState :=
  match s.stack, ctx.txTo.vin[ctx.nIn]? with
  | vch :: stack, some txin =>
      (CScriptNum.ofVch vch 5).bind fun nLockTime =>
        let txLockTime : Int := ctx.txTo.nLockTime
        if nLockTime < 0 then none
        else if (txLockTime < LOCKTIME_THRESHOLD ∧
              LOCKTIME_THRESHOLD ≤ nLockTime) ∨
            (LOCKTIME_THRESHOLD ≤ txLockTime ∧
              nLockTime < LOCKTIME_THRESHOLD) then none
        else
          let fLockTimeSatisfied :=
            decide (nLockTime ≤ txLockTime) && !txin.IsFinal
          pushOrVerify { s with stack } (opcode == OP_CHECKLOCKTIMEVERIFY)
            fLockTimeSatisfied
  | _, _ => none

/-- The `switch` of `EvalScript`. -/
def execOp (ctx : ScriptContext) (opcode : Nat) (s : ScriptState) :
    Option ScriptState :=
  if opcode = OP_1NEGATE ∨ (OP_1 ≤ opcode ∧ opcode ≤ OP_16) then
    some (s.push (CScriptNum.serialize ((opcode : Int) - ((OP_1 : Int) - 1))))
  else if opcode = OP_NOP ∨ (OP_NOP1 ≤ opcode ∧ opcode ≤ OP_NOP10) then some s
  else if OP_IF ≤ opcode ∧ opcode ≤ OP_ENDIF then execBranch opcode s
  else if opcode = OP_VERIFY then
    match s.stack with
    | [] => none
    | vch :: stack => if CastToBool vch then some { s with stack } else none
  else if opcode = OP_RETURN then none
  else if OP_TOALTSTACK ≤ opcode ∧ opcode ≤ OP_SIZE then execStack opcode s
  else if OP_EQUAL ≤ opcode ∧ opcode ≤ OP_WITHIN then execNumeric opcode s
  else if OP_RIPEMD160 ≤ opcode ∧ opcode ≤ OP_HASH256 then
    execHash ctx.crypto opcode s
  else if opcode = OP_CODESEPARATOR then
    some { s with pbegincodehash := s.pc }
  else if opcode = OP_CHECKSIG ∨ opcode = OP_CHECKSIGVERIFY then
    execCheckSig ctx opcode s
  else if opcode = OP_CHECKMULTISIG ∨ opcode = OP_CHECKMULTISIGVERIFY then
    execCheckMultiSig ctx opcode s
  else if opcode = OP_CHECKLOCKTIME ∨ opcode = OP_CHECKLOCKTIMEVERIFY then
    execCheckLockTime ctx opcode s
  else none

/-- One round of the evaluation loop; `none` is `return false`, also from an
exception. -/
def evalStep (ctx : ScriptContext) (s : ScriptState) : Option ScriptState :=
  match getOp s.pc with
  | none => none
  | some (opcode, vchPushValue, pc) =>
      if MAX_SCRIPT_ELEMENT_SIZE < vchPushValue.length then none
      else
        let nOpCount := if OP_16 < opcode then s.nOpCount + 1 else s.nOpCount
        if OP_16 < opcode ∧ 201 < nOpCount then none
        else if opcode ∈ disabledOpcodes then none
        else
          let s := { s with pc, nOpCount }
          let next :=
            if s.fExec ∧ opcode ≤ OP_PUSHDATA4 then some (s.push vchPushValue)
            else if s.fExec ∨ (OP_IF ≤ opcode ∧ opcode ≤ OP_ENDIF) then
              execOp ctx opcode s
            else some s
          next.bind fun s =>
            if 1000 < s.stack.length + s.altstack.length then none else some s

/-- The evaluation loop.  Every round reads at least one byte. -/
def evalLoop (ctx : ScriptContext) : (fuel : Nat) → ScriptState →
    Option ScriptState
  | 0, s => if s.pc = [] then some s else none
  | fuel + 1, s =>
      if s.pc = [] then some s
      else
        match evalStep ctx s with
        | none => none
        | some s => evalLoop ctx fuel s

/-- The state an evaluation starts in. -/
def evalStart (stack : List valtype) (script : CScript) : ScriptState :=
  { pc := script, pbegincodehash := script, stack, altstack := [],
    vfExec := [], nOpCount := 0 }

/-- `EvalScript`: the final stack, or `none` where it returns false. -/
def EvalScript (ctx : ScriptContext) (stack : List valtype)
    (script : CScript) : Option (List valtype) :=
  if 10000 < script.length then none
  else
    match evalLoop ctx script.length (evalStart stack script) with
    | none => none
    | some s => if s.vfExec = [] then some s.stack else none

/-- The top of the stack exists and is true. -/
def topIsTrue (stack : List valtype) : Bool :=
  match stack with
  | [] => false
  | vch :: _ => CastToBool vch

/-- `VerifyScript`.  The assertion that the copied stack is not empty is the
only way it does not return. -/
def VerifyScript (ctx : ScriptContext) (scriptSig scriptPubKey : CScript) :
    Run Bool :=
  match EvalScript ctx [] scriptSig with
  | none => .ok false
  | some stackCopy =>
      match EvalScript ctx stackCopy scriptPubKey with
      | none => .ok false
      | some stack =>
          if topIsTrue stack = false then .ok false
          else if ctx.flags.P2SH ∧ scriptPubKey.IsPayToScriptHash then
            if scriptSig.IsPushOnly = false then .ok false
            else
              match stackCopy with
              | [] => Run.crash .VerifyScript_stackCopy
              | pubKeySerialized :: stackCopy =>
                  match EvalScript ctx stackCopy pubKeySerialized with
                  | none => .ok false
                  | some stack => .ok (topIsTrue stack)
          else .ok true

/-- What `VerifyScript` accepts. -/
theorem verifyScript_iff {ctx : ScriptContext} {scriptSig scriptPubKey : CScript} :
    VerifyScript ctx scriptSig scriptPubKey = .ok true ↔
      ∃ stackCopy stack, EvalScript ctx [] scriptSig = some stackCopy ∧
        EvalScript ctx stackCopy scriptPubKey = some stack ∧ topIsTrue stack = true ∧
        (ctx.flags.P2SH = true → scriptPubKey.IsPayToScriptHash = true →
          scriptSig.IsPushOnly = true ∧ ∃ pubKeySerialized rest out,
            stackCopy = pubKeySerialized :: rest ∧
              EvalScript ctx rest pubKeySerialized = some out ∧ topIsTrue out = true) := by
  unfold VerifyScript
  cases hsig : EvalScript ctx [] scriptSig with
  | none => simp
  | some stackCopy =>
      cases hkey : EvalScript ctx stackCopy scriptPubKey with
      | none => simp [hkey]
      | some stack =>
          cases htop : topIsTrue stack with
          | false => simp [hkey, htop]
          | true =>
              by_cases hredeem : ctx.flags.P2SH = true ∧ scriptPubKey.IsPayToScriptHash = true
              · cases hpush : scriptSig.IsPushOnly with
                | false => simp [hkey, htop, hredeem]
                | true =>
                    cases stackCopy with
                    | nil => simp [hkey, htop, hredeem, Run.crash]
                    | cons pubKeySerialized rest =>
                        cases hout : EvalScript ctx rest pubKeySerialized with
                        | none => simp [hkey, htop, hredeem, hout]
                        | some out => simp [hkey, htop, hredeem, hout]
              · simp only [hkey, htop, if_neg hredeem, Bool.true_eq_false, if_false, true_iff]
                exact ⟨stackCopy, stack, rfl, hkey, htop, fun hflag hhash =>
                  absurd ⟨hflag, hhash⟩ hredeem⟩

end Ziftrcoin.Spec
