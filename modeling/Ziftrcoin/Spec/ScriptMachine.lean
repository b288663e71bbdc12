/-
Module: Ziftrcoin.Spec.ScriptMachine
Purpose: The script interpreter with every access to a stack, every assertion and
  every exception spelled out, and with a tally of the work it does.
Trusted boundary: human-reviewed model of EvalScript, VerifyScript and the
  evaluations of CombineSignatures and AreInputsStandard in src/script.cpp and
  src/main.cpp, and of the arithmetic of CScriptNum in src/script.h
Main exports: Halt, EvalTally, Eval
-/
import Ziftrcoin.Lib.Tallied
import Ziftrcoin.Spec.Interpreter

namespace Ziftrcoin.Spec

open Ziftrcoin.Lib Ziftrcoin.Lib.Tallied

/-- Ways an evaluation ends before the end of its script. -/
inductive Halt where
  /-- `return false`. -/
  | returnFalse
  /-- An operand is longer than a number may be. -/
  | scriptnum_error
  /-- A stack is accessed outside of its size: `at` and `popstack` throw. -/
  | outOfRange
  /-- An assertion fails. -/
  | assertion
  /-- `txTo.vin[nIn]` is read although `vin` ends before. -/
  | vinOutOfRange
deriving Repr, DecidableEq

/-- The halts from which `EvalScript` returns: `catch (...)` covers exceptions. -/
def Halt.caught : Halt → Bool
  | .returnFalse | .scriptnum_error | .outOfRange => true
  | .assertion | .vinOutOfRange => false

/-- What an evaluation has done so far. -/
structure EvalTally where
  /-- Instructions other than pushes that were executed, and the keys of the
  `OP_CHECKMULTISIG`s among them. -/
  executed : Nat := 0
  /-- Calls of `CheckSig`. -/
  checks : Nat := 0
deriving Repr, DecidableEq

abbrev Eval := Tallied EvalTally Halt

namespace Machine

/-! ### Stacks -/

/-- `if (!c) return false`. -/
def require (c : Prop) [Decidable c] : Except Halt Unit :=
  if c then .ok () else .error .returnFalse

/-- `stacktop(-i)` and `altstacktop(-i)`. -/
def stacktop (stack : List valtype) (i : Nat) : Except Halt valtype :=
  if i = 0 then .error .outOfRange
  else
    match stack[i - 1]? with
    | none => .error .outOfRange
    | some vch => .ok vch

def popstack (stack : List valtype) : Except Halt (List valtype) :=
  match stack with
  | [] => .error .outOfRange
  | _ :: stack => .ok stack

/-- `while (i-- > 0) popstack(stack)`. -/
def popTimes : (i : Nat) → List valtype → Except Halt (List valtype)
  | 0, stack => .ok stack
  | i + 1, stack => do
      let stack ← popstack stack
      popTimes i stack

/-- `swap(stacktop(-i), stacktop(-j))`. -/
def swapTop (stack : List valtype) (i j : Nat) : Except Halt (List valtype) := do
  let vch1 ← stacktop stack i
  let vch2 ← stacktop stack j
  return (stack.set (i - 1) vch2).set (j - 1) vch1

/-- `stack.erase(stack.end() - i)`. -/
def eraseTop (stack : List valtype) (i : Nat) : Except Halt (List valtype) :=
  if i = 0 ∨ stack.length < i then .error .outOfRange else .ok (stack.eraseIdx (i - 1))

/-- `stack.insert(stack.end() - i, vch)`. -/
def insertTop (stack : List valtype) (i : Nat) (vch : valtype) : Except Halt (List valtype) :=
  if stack.length < i then .error .outOfRange else .ok (stack.insertIdx i vch)

/-! ### Numbers -/

/-- The constructor of an operand. -/
def operand (vch : valtype) (nMaxNumSize : Nat) : Except Halt Int :=
  match CScriptNum.ofVch vch nMaxNumSize with
  | none => .error .scriptnum_error
  | some bn => .ok bn

def INT64_MAX : Int := 9223372036854775807
def INT64_MIN : Int := -9223372036854775808

/-- `operator-()` asserts that the result exists. -/
def numNeg (m_value : Int) : Except Halt Int :=
  if m_value = INT64_MIN then .error .assertion else .ok (-m_value)

/-- `operator+=` asserts that the sum is in range. -/
def numAdd (m_value rhs : Int) : Except Halt Int :=
  if rhs = 0 ∨ (0 < rhs ∧ m_value ≤ INT64_MAX - rhs) ∨
      (rhs < 0 ∧ INT64_MIN - rhs ≤ m_value) then .ok (m_value + rhs)
  else .error .assertion

/-- `operator-=` asserts that the difference is in range. -/
def numSub (m_value rhs : Int) : Except Halt Int :=
  if rhs = 0 ∨ (0 < rhs ∧ INT64_MIN + rhs ≤ m_value) ∨
      (rhs < 0 ∧ m_value ≤ INT64_MAX + rhs) then .ok (m_value - rhs)
  else .error .assertion

/-! ### Instructions without signatures -/

/-- The end of an instruction that pushes an outcome: its `VERIFY` form takes the
outcome from the stack again. -/
def pushOutcome (s : ScriptState) (stack : List valtype) (verify fValue : Bool) :
    Except Halt ScriptState := do
  let stack := (if fValue then vchTrue else vchFalse) :: stack
  if verify then
    if fValue then
      let stack ← popstack stack
      return { s with stack }
    else .error .returnFalse
  else return { s with stack }

/-- `OP_IF`, `OP_NOTIF`, `OP_ELSE`, `OP_ENDIF`. -/
def execBranch (opcode : Nat) (s : ScriptState) : Except Halt ScriptState :=
  if opcode = OP_IF ∨ opcode = OP_NOTIF then
    if s.fExec then do
      require (1 ≤ s.stack.length)
      let vch ← stacktop s.stack 1
      let fValue := if opcode = OP_NOTIF then !CastToBool vch else CastToBool vch
      let stack ← popstack s.stack
      return { s with stack, vfExec := fValue :: s.vfExec }
    else .ok { s with vfExec := false :: s.vfExec }
  else
    match s.vfExec with
    | [] => .error .returnFalse
    | f :: vfExec =>
        if opcode = OP_ELSE then .ok { s with vfExec := (!f) :: vfExec }
        else if opcode = OP_ENDIF then .ok { s with vfExec }
        else .error .returnFalse

/-- `OP_PICK` and `OP_ROLL`. -/
def execPickRoll (opcode : Nat) (s : ScriptState) : Except Halt ScriptState := do
  require (2 ≤ s.stack.length)
  let bn ← operand (← stacktop s.stack 1) 4
  let n := CScriptNum.getint bn
  let stack ← popstack s.stack
  require (0 ≤ n ∧ n < (stack.length : Int))
  let vch ← stacktop stack (n.toNat + 1)
  let stack ← if opcode = OP_ROLL then eraseTop stack (n.toNat + 1) else pure stack
  return { s with stack := vch :: stack }

/-- `OP_TOALTSTACK` to `OP_SIZE`. -/
def execStack (opcode : Nat) (s : ScriptState) : Except Halt ScriptState :=
  if opcode = OP_TOALTSTACK then do
    require (1 ≤ s.stack.length)
    let vch ← stacktop s.stack 1
    let stack ← popstack s.stack
    return { s with stack, altstack := vch :: s.altstack }
  else if opcode = OP_FROMALTSTACK then do
    require (1 ≤ s.altstack.length)
    let vch ← stacktop s.altstack 1
    let altstack ← popstack s.altstack
    return { s with stack := vch :: s.stack, altstack }
  else if opcode = OP_2DROP then do
    require (2 ≤ s.stack.length)
    let stack ← popstack s.stack
    let stack ← popstack stack
    return { s with stack }
  else if opcode = OP_2DUP then do
    require (2 ≤ s.stack.length)
    let vch1 ← stacktop s.stack 2
    let vch2 ← stacktop s.stack 1
    return { s with stack := vch2 :: vch1 :: s.stack }
  else if opcode = OP_3DUP then do
    require (3 ≤ s.stack.length)
    let vch1 ← stacktop s.stack 3
    let vch2 ← stacktop s.stack 2
    let vch3 ← stacktop s.stack 1
    return { s with stack := vch3 :: vch2 :: vch1 :: s.stack }
  else if opcode = OP_2OVER then do
    require (4 ≤ s.stack.length)
    let vch1 ← stacktop s.stack 4
    let vch2 ← stacktop s.stack 3
    return { s with stack := vch2 :: vch1 :: s.stack }
  else if opcode = OP_2ROT then do
    require (6 ≤ s.stack.length)
    let vch1 ← stacktop s.stack 6
    let vch2 ← stacktop s.stack 5
    -- `erase` of two elements, the deeper one first
    let stack ← eraseTop s.stack 6
    let stack ← eraseTop stack 5
    return { s with stack := vch2 :: vch1 :: stack }
  else if opcode = OP_2SWAP then do
    require (4 ≤ s.stack.length)
    let stack ← swapTop s.stack 4 2
    let stack ← swapTop stack 3 1
    return { s with stack }
  else if opcode = OP_IFDUP then do
    require (1 ≤ s.stack.length)
    let vch ← stacktop s.stack 1
    return { s with stack := if CastToBool vch then vch :: s.stack else s.stack }
  else if opcode = OP_DEPTH then
    .ok (s.push (CScriptNum.serialize s.stack.length))
  else if opcode = OP_DROP then do
    require (1 ≤ s.stack.length)
    let stack ← popstack s.stack
    return { s with stack }
  else if opcode = OP_DUP then do
    require (1 ≤ s.stack.length)
    let vch ← stacktop s.stack 1
    return { s with stack := vch :: s.stack }
  else if opcode = OP_NIP then do
    require (2 ≤ s.stack.length)
    let stack ← eraseTop s.stack 2
    return { s with stack }
  else if opcode = OP_OVER then do
    require (2 ≤ s.stack.length)
    let vch ← stacktop s.stack 2
    return { s with stack := vch :: s.stack }
  else if opcode = OP_PICK ∨ opcode = OP_ROLL then execPickRoll opcode s
  else if opcode = OP_ROT then do
    require (3 ≤ s.stack.length)
    let stack ← swapTop s.stack 3 2
    let stack ← swapTop stack 2 1
    return { s with stack }
  else if opcode = OP_SWAP then do
    require (2 ≤ s.stack.length)
    let stack ← swapTop s.stack 2 1
    return { s with stack }
  else if opcode = OP_TUCK then do
    require (2 ≤ s.stack.length)
    let vch ← stacktop s.stack 1
    let stack ← insertTop s.stack 2 vch
    return { s with stack }
  else if opcode = OP_SIZE then do
    require (1 ≤ s.stack.length)
    let vch ← stacktop s.stack 1
    return s.push (CScriptNum.serialize vch.length)
  else .error .returnFalse

/-- The inner `switch` of `OP_1ADD` to `OP_0NOTEQUAL`. -/
def unaryNum (opcode : Nat) (bn : Int) : Except Halt Int :=
  if opcode = OP_1ADD then numAdd bn 1
  else if opcode = OP_1SUB then numSub bn 1
  else if opcode = OP_NEGATE then numNeg bn
  else if opcode = OP_ABS then if bn < 0 then numNeg bn else .ok bn
  else if opcode = OP_NOT then .ok (boolNum (bn == 0))
  else if opcode = OP_0NOTEQUAL then .ok (boolNum (bn != 0))
  else .error .assertion

/-- The inner `switch` of `OP_ADD` to `OP_MAX`. -/
def binaryNum (opcode : Nat) (bn1 bn2 : Int) : Except Halt Int :=
  match Spec.binaryNum opcode bn1 bn2 with
  | none => .error .assertion
  | some bn => .ok bn

/-- The opcodes of the two groups of numeric instructions. -/
def isUnaryNum (opcode : Nat) : Bool :=
  [OP_1ADD, OP_1SUB, OP_NEGATE, OP_ABS, OP_NOT, OP_0NOTEQUAL].contains opcode

def isBinaryNum (opcode : Nat) : Bool :=
  [OP_ADD, OP_SUB, OP_BOOLAND, OP_BOOLOR, OP_NUMEQUAL, OP_NUMEQUALVERIFY, OP_NUMNOTEQUAL,
    OP_LESSTHAN, OP_GREATERTHAN, OP_LESSTHANOREQUAL, OP_GREATERTHANOREQUAL, OP_MIN,
    OP_MAX].contains opcode

/-- `OP_EQUAL` to `OP_WITHIN`. -/
def execNumeric (opcode : Nat) (s : ScriptState) : Except Halt ScriptState :=
  if opcode = OP_EQUAL ∨ opcode = OP_EQUALVERIFY then do
    require (2 ≤ s.stack.length)
    let vch1 ← stacktop s.stack 2
    let vch2 ← stacktop s.stack 1
    let stack ← popstack s.stack
    let stack ← popstack stack
    pushOutcome s stack (opcode == OP_EQUALVERIFY) (vch1 == vch2)
  else if isUnaryNum opcode then do
    require (1 ≤ s.stack.length)
    let bn ← operand (← stacktop s.stack 1) 4
    let bn ← unaryNum opcode bn
    let stack ← popstack s.stack
    return { s with stack := CScriptNum.serialize bn :: stack }
  else if isBinaryNum opcode then do
    require (2 ≤ s.stack.length)
    let bn1 ← operand (← stacktop s.stack 2) 4
    let bn2 ← operand (← stacktop s.stack 1) 4
    let bn ← binaryNum opcode bn1 bn2
    let stack ← popstack s.stack
    let stack ← popstack stack
    let stack := CScriptNum.serialize bn :: stack
    if opcode = OP_NUMEQUALVERIFY then
      if CastToBool (← stacktop stack 1) then
        let stack ← popstack stack
        return { s with stack }
      else .error .returnFalse
    else return { s with stack }
  else if opcode = OP_WITHIN then do
    require (3 ≤ s.stack.length)
    let bn1 ← operand (← stacktop s.stack 3) 4
    let bn2 ← operand (← stacktop s.stack 2) 4
    let bn3 ← operand (← stacktop s.stack 1) 4
    let stack ← popTimes 3 s.stack
    return { s with
      stack := (if bn2 ≤ bn1 ∧ bn1 < bn3 then vchTrue else vchFalse) :: stack }
  else .error .returnFalse

/-- `OP_RIPEMD160` to `OP_HASH256`. -/
def execHash (crypto : Crypto) (opcode : Nat) (s : ScriptState) : Except Halt ScriptState := do
  require (1 ≤ s.stack.length)
  let vch ← stacktop s.stack 1
  let vchHash :=
    if opcode = OP_RIPEMD160 then crypto.RIPEMD160 vch
    else if opcode = OP_SHA1 then crypto.SHA1 vch
    else if opcode = OP_SHA256 then crypto.SHA256 vch
    else if opcode = OP_HASH160 then crypto.Hash160 vch
    else leBytes 32 (crypto.Hash vch)
  let stack ← popstack s.stack
  return { s with stack := vchHash :: stack }

/-- `OP_CHECKLOCKTIME`, `OP_CHECKLOCKTIMEVERIFY`.  The input is read only when the
lock time is not beyond that of the transaction. -/
def execCheckLockTime (ctx : ScriptContext) (opcode : Nat) (s : ScriptState) :
    Except Halt ScriptState := do
  require (1 ≤ s.stack.length)
  let nLockTime ← operand (← stacktop s.stack 1) 5
  let stack ← popstack s.stack
  let txLockTime : Int := ctx.txTo.nLockTime
  require (0 ≤ nLockTime)
  require (¬ ((txLockTime < LOCKTIME_THRESHOLD ∧ LOCKTIME_THRESHOLD ≤ nLockTime) ∨
    (LOCKTIME_THRESHOLD ≤ txLockTime ∧ nLockTime < LOCKTIME_THRESHOLD)))
  let fLockTimeSatisfied ←
    if nLockTime ≤ txLockTime then
      match ctx.txTo.vin[ctx.nIn]? with
      | none => .error .vinOutOfRange
      | some txin => .ok (!txin.IsFinal)
    else .ok false
  pushOutcome s stack (opcode == OP_CHECKLOCKTIMEVERIFY) fLockTimeSatisfied

/-! ### Signatures -/

/-- What the signature instructions ask about a signature and a key. -/
structure SigChecker where
  /-- `IsCanonicalSignature(vchSig, flags) && IsCanonicalPubKey(vchPubKey, flags)`. -/
  canonical : (vchSig vchPubKey : valtype) → Bool
  CheckSig : (vchSig vchPubKey : valtype) → (scriptCode : CScript) → Bool

/-- The checks of an evaluation. -/
def checker (ctx : ScriptContext) : SigChecker where
  canonical vchSig vchPubKey :=
    IsCanonicalSignature vchSig ctx.flags && IsCanonicalPubKey vchPubKey ctx.flags
  CheckSig vchSig vchPubKey scriptCode :=
    CheckSig ctx.crypto vchSig vchPubKey scriptCode ctx.txTo ctx.nIn

namespace SigChecker

/-- Canonical encodings and a valid signature. -/
def ok (k : SigChecker) (scriptCode : CScript) (vchSig vchPubKey : valtype) : Bool :=
  k.canonical vchSig vchPubKey && k.CheckSig vchSig vchPubKey scriptCode

/-- `CheckSig` is called for canonical encodings only. -/
def ask (k : SigChecker) (scriptCode : CScript) (vchSig vchPubKey : valtype) : Eval Bool :=
  if k.canonical vchSig vchPubKey then do
    tick fun t => { t with checks := t.checks + 1 }
    return k.CheckSig vchSig vchPubKey scriptCode
  else return false

end SigChecker

/-- `OP_CHECKSIG`, `OP_CHECKSIGVERIFY`. -/
def execCheckSig (k : SigChecker) (opcode : Nat) (s : ScriptState) : Eval ScriptState := do
  uncounted (require (2 ≤ s.stack.length))
  let vchSig ← uncounted (stacktop s.stack 2)
  let vchPubKey ← uncounted (stacktop s.stack 1)
  let scriptCode := s.pbegincodehash.FindAndDelete (pushData vchSig)
  let fSuccess ← k.ask scriptCode vchSig vchPubKey
  let stack ← uncounted (popTimes 2 s.stack)
  uncounted (pushOutcome s stack (opcode == OP_CHECKSIGVERIFY) fSuccess)

/-- The loop of `OP_CHECKMULTISIG` that drops the signatures from the script code:
`nSigsCount` of them from the depth `isig` on. -/
def dropSigs (stack : List valtype) : (nSigsCount isig : Nat) → (scriptCode : CScript) →
    Except Halt CScript
  | 0, _, scriptCode => .ok scriptCode
  | nSigsCount + 1, isig, scriptCode => do
      let vchSig ← stacktop stack isig
      dropSigs stack nSigsCount (isig + 1) (scriptCode.FindAndDelete (pushData vchSig))

/-- The loop of `OP_CHECKMULTISIG` over keys and signatures, which are read at the
depths `ikey` and `isig`. -/
def multisigLoop (k : SigChecker) (stack : List valtype) (scriptCode : CScript) :
    (nKeysCount nSigsCount ikey isig : Nat) → Eval Bool
  | _, 0, _, _ => return true
  | 0, _ + 1, ikey, isig => do
      let vchSig ← uncounted (stacktop stack isig)
      let vchPubKey ← uncounted (stacktop stack ikey)
      let _ ← k.ask scriptCode vchSig vchPubKey
      return false
  | nKeysCount + 1, nSigsCount + 1, ikey, isig => do
      let vchSig ← uncounted (stacktop stack isig)
      let vchPubKey ← uncounted (stacktop stack ikey)
      let fOk ← k.ask scriptCode vchSig vchPubKey
      let left := if fOk then nSigsCount else nSigsCount + 1
      if nKeysCount < left then return false
      else
        multisigLoop k stack scriptCode nKeysCount left (ikey + 1)
          (if fOk then isig + 1 else isig)

/-- `OP_CHECKMULTISIG`, `OP_CHECKMULTISIGVERIFY`. -/
def execCheckMultiSig (k : SigChecker) (opcode : Nat) (s : ScriptState) :
    Eval ScriptState := do
  let i := 1
  uncounted (require (i ≤ s.stack.length))
  let bnKeys ← uncounted (stacktop s.stack i >>= fun vch => operand vch 4)
  let nKeysCount := CScriptNum.getint bnKeys
  uncounted (require (0 ≤ nKeysCount ∧ nKeysCount ≤ 20))
  let nOpCount := s.nOpCount + nKeysCount.toNat
  uncounted (require (nOpCount ≤ 201))
  tick fun t => { t with executed := t.executed + nKeysCount.toNat }
  let ikey := i + 1
  let i := ikey + nKeysCount.toNat
  uncounted (require (i ≤ s.stack.length))
  let bnSigs ← uncounted (stacktop s.stack i >>= fun vch => operand vch 4)
  let nSigsCount := CScriptNum.getint bnSigs
  uncounted (require (0 ≤ nSigsCount ∧ nSigsCount ≤ nKeysCount))
  let isig := i + 1
  let i := isig + nSigsCount.toNat
  uncounted (require (i ≤ s.stack.length))
  let scriptCode ← uncounted (dropSigs s.stack nSigsCount.toNat isig s.pbegincodehash)
  let fSuccess ←
    multisigLoop k s.stack scriptCode nKeysCount.toNat nSigsCount.toNat ikey isig
  let stack ← uncounted (popTimes i s.stack)
  uncounted (pushOutcome { s with nOpCount } stack (opcode == OP_CHECKMULTISIGVERIFY)
    fSuccess)

/-! ### The evaluation loop -/

/-- The `switch` of `EvalScript`. -/
def execOp (ctx : ScriptContext) (opcode : Nat) (s : ScriptState) : Eval ScriptState :=
  if opcode = OP_1NEGATE ∨ (OP_1 ≤ opcode ∧ opcode ≤ OP_16) then
    return s.push (CScriptNum.serialize ((opcode : Int) - ((OP_1 : Int) - 1)))
  else if opcode = OP_NOP ∨ (OP_NOP1 ≤ opcode ∧ opcode ≤ OP_NOP10) then return s
  else if OP_IF ≤ opcode ∧ opcode ≤ OP_ENDIF then uncounted (execBranch opcode s)
  else if opcode = OP_VERIFY then uncounted do
    require (1 ≤ s.stack.length)
    let fValue := CastToBool (← stacktop s.stack 1)
    if fValue then
      let stack ← popstack s.stack
      return { s with stack }
    else .error .returnFalse
  else if opcode = OP_RETURN then halt .returnFalse
  else if OP_TOALTSTACK ≤ opcode ∧ opcode ≤ OP_SIZE then uncounted (execStack opcode s)
  else if OP_EQUAL ≤ opcode ∧ opcode ≤ OP_WITHIN then uncounted (execNumeric opcode s)
  else if OP_RIPEMD160 ≤ opcode ∧ opcode ≤ OP_HASH256 then
    uncounted (execHash ctx.crypto opcode s)
  else if opcode = OP_CODESEPARATOR then return { s with pbegincodehash := s.pc }
  else if opcode = OP_CHECKSIG ∨ opcode = OP_CHECKSIGVERIFY then
    execCheckSig (checker ctx) opcode s
  else if opcode = OP_CHECKMULTISIG ∨ opcode = OP_CHECKMULTISIGVERIFY then
    execCheckMultiSig (checker ctx) opcode s
  else if opcode = OP_CHECKLOCKTIME ∨ opcode = OP_CHECKLOCKTIMEVERIFY then
    uncounted (execCheckLockTime ctx opcode s)
  else halt .returnFalse

/-- The instruction that was read, in the state behind it: pushes and branches
apart, it is executed only outside of branches that are skipped. -/
def dispatch (ctx : ScriptContext) (opcode : Nat) (vchPushValue : valtype)
    (s : ScriptState) : Eval ScriptState :=
  if s.fExec ∧ opcode ≤ OP_PUSHDATA4 then return s.push vchPushValue
  else if s.fExec ∨ (OP_IF ≤ opcode ∧ opcode ≤ OP_ENDIF) then do
    tick fun t => { t with executed := t.executed + (if OP_16 < opcode then 1 else 0) }
    execOp ctx opcode s
  else return s

/-- One round of the evaluation loop. -/
def evalStep (ctx : ScriptContext) (s : ScriptState) : Eval ScriptState :=
  match getOp s.pc with
  | none => halt .returnFalse
  | some (opcode, vchPushValue, pc) =>
      if MAX_SCRIPT_ELEMENT_SIZE < vchPushValue.length then halt .returnFalse
      else
        let nOpCount := if OP_16 < opcode then s.nOpCount + 1 else s.nOpCount
        if OP_16 < opcode ∧ 201 < nOpCount then halt .returnFalse
        else if opcode ∈ disabledOpcodes then halt .returnFalse
        else do
          let s ← dispatch ctx opcode vchPushValue { s with pc, nOpCount }
          if 1000 < s.stack.length + s.altstack.length then halt .returnFalse
          else return s

/-- The evaluation loop.  Every round reads at least one byte. -/
def evalLoop (ctx : ScriptContext) : (fuel : Nat) → ScriptState → Eval ScriptState
  | 0, s => if s.pc = [] then return s else halt .returnFalse
  | fuel + 1, s =>
      if s.pc = [] then return s
      else do
        let s ← evalStep ctx s
        evalLoop ctx fuel s

/-- `EvalScript`, with the state it ends in where it returns true. -/
def EvalScript (ctx : ScriptContext) (stack : List valtype) (script : CScript) :
    Eval ScriptState :=
  if 10000 < script.length then halt .returnFalse
  else do
    let s ← evalLoop ctx script.length (evalStart stack script)
    if s.vfExec = [] then return s else halt .returnFalse

/-- `EvalScript` for its callers: `none` where it returns false. -/
def tryEvalScript (ctx : ScriptContext) (stack : List valtype) (script : CScript) :
    Eval (Option ScriptState) :=
  attempt Halt.caught (EvalScript ctx stack script)

/-- The end of `VerifyScript`, for a script hash: the redeem script. -/
def verifyRedeem (ctx : ScriptContext) (stackCopy : List valtype) : Eval Bool :=
  match stackCopy with
  | [] => halt .assertion
  | pubKeySerialized :: stackCopy => do
      match ← tryEvalScript ctx stackCopy pubKeySerialized with
      | none => return false
      | some s => return topIsTrue s.stack

/-- `VerifyScript` behind the evaluation of `scriptSig`. -/
def verifyPubKey (ctx : ScriptContext) (scriptSig scriptPubKey : CScript)
    (stackCopy : List valtype) : Eval Bool := do
  match ← tryEvalScript ctx stackCopy scriptPubKey with
  | none => return false
  | some s =>
      if topIsTrue s.stack = false then return false
      else if ctx.flags.P2SH ∧ scriptPubKey.IsPayToScriptHash then
        if scriptSig.IsPushOnly = false then return false
        else verifyRedeem ctx stackCopy
      else return true

def VerifyScript (ctx : ScriptContext) (scriptSig scriptPubKey : CScript) : Eval Bool := do
  match ← tryEvalScript ctx [] scriptSig with
  | none => return false
  | some s => verifyPubKey ctx scriptSig scriptPubKey s.stack

end Machine

/-! ### Callers -/

/-- `CTransaction()`. -/
def CTransaction.default : CTransaction :=
  { nVersion := CTransaction.CURRENT_VERSION, vin := [], vout := [], nLockTime := 0 }

/-- The calls of `EvalScript`.  `VerifyScript` and `AreInputsStandard` are about an
input of the transaction; `CombineSignatures` evaluates a signature script without
one. -/
inductive EvalScriptCall where
  | VerifyScript (ctx : ScriptContext) (input : ctx.nIn < ctx.txTo.vin.length)
      (stack : List valtype) (script : CScript)
  | AreInputsStandard (crypto : Crypto) (tx : CTransaction) (i : Nat)
      (input : i < tx.vin.length) (scriptSig : CScript)
  | CombineSignatures (crypto : Crypto) (scriptSig : CScript)

namespace EvalScriptCall

def context : EvalScriptCall → ScriptContext
  | .VerifyScript ctx _ _ _ => ctx
  | .AreInputsStandard crypto tx i _ _ => ⟨crypto, tx, i, SCRIPT_VERIFY_NONE⟩
  | .CombineSignatures crypto _ =>
      ⟨crypto, CTransaction.default, 0, { SCRIPT_VERIFY_NONE with STRICTENC := true }⟩

def stack : EvalScriptCall → List valtype
  | .VerifyScript _ _ stack _ => stack
  | _ => []

def script : EvalScriptCall → CScript
  | .VerifyScript _ _ _ script => script
  | .AreInputsStandard _ _ _ _ scriptSig => scriptSig
  | .CombineSignatures _ scriptSig => scriptSig

end EvalScriptCall

end Ziftrcoin.Spec
