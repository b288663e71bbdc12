/-
Module: Ziftrcoin.Spec.Signing
Purpose: Signing one input of a transaction with the keys of a key store, and how two
  partly signed signature scripts of an input become one.
Trusted boundary: human-reviewed model of Sign1, SignN, Solver, GetDelay and
  SignSignature in src/script.cpp, and of CombineMultisig and CombineSignatures there, on
  signature scripts that only push
Main exports: CKeyStore, Sign1, SignN
-/
import Ziftrcoin.Lib.Collecting
import Ziftrcoin.Spec.Interpreter

namespace Ziftrcoin.Spec

def SIGHASH_ALL : Nat := 1

/-- A key identifier: the hash of a public key. -/
abbrev CKeyID := valtype

/-- A script identifier: the hash of a script. -/
abbrev CScriptID := valtype

/-- What a key store answers.  Signatures are randomised, so the attempt within
one call tells them apart. -/
structure CKeyStore where
  /-- `GetPubKey`. -/
  GetPubKey : CKeyID → Option valtype
  /-- `GetKey`, then `CKey::Sign`. -/
  Sign : (attempt : Nat) → CKeyID → uint256 → Option valtype
  GetCScript : CScriptID → Option CScript

/-- The bytes a `CPubKey` made from `vch` holds. -/
def pubKeyBytes (vch : valtype) : valtype :=
  if pubKeyIsValid vch then vch else []

/-- `CPubKey(vch).GetID()`. -/
def keyIDOf (crypto : Crypto) (vch : valtype) : CKeyID :=
  crypto.Hash160 (pubKeyBytes vch)

/-! ### Solving a script -/

/-- `Sign1`: append a signature and its hash type. -/
def Sign1 (keystore : CKeyStore) (attempt : Nat) (address : CKeyID)
    (hash : uint256) (nHashType : Nat) (scriptSigRet : CScript) :
    Option CScript :=
  match keystore.Sign attempt address hash with
  | none => none
  | some vchSig =>
      some (scriptSigRet ++ pushData (vchSig ++ [UInt8.ofNat nHashType]))

/-- The loop of `SignN`: signatures of the first keys that can sign, as many as
are required. -/
def signKeys (crypto : Crypto) (keystore : CKeyStore) (hash : uint256)
    (nHashType nRequired : Nat) : (i : Nat) → (pubkeys : List valtype) →
    (nSigned : Nat) → (scriptSigRet : CScript) → Nat × CScript
  | _, [], nSigned, scriptSigRet => (nSigned, scriptSigRet)
  | i, pubkey :: pubkeys, nSigned, scriptSigRet =>
      if nSigned < nRequired then
        match Sign1 keystore i (keyIDOf crypto pubkey) hash nHashType
            scriptSigRet with
        | none =>
            signKeys crypto keystore hash nHashType nRequired (i + 1) pubkeys
              nSigned scriptSigRet
        | some scriptSigRet =>
            signKeys crypto keystore hash nHashType nRequired (i + 1) pubkeys
              (nSigned + 1) scriptSigRet
      else (nSigned, scriptSigRet)

/-- `SignN`.  The data start with the number of signatures and end with the
number of keys. -/
def SignN (crypto : Crypto) (multisigdata : List valtype)
    (keystore : CKeyStore) (hash : uint256) (nHashType : Nat)
    (scriptSigRet : CScript) : Option CScript :=
  let nRequired := ((multisigdata.headD []).headD 0).toNat
  let signed := signKeys crypto keystore hash nHashType nRequired 1
    (multisigdata.drop 1).dropLast 0 scriptSigRet
  if signed.1 = nRequired then some signed.2 else none

/-- The solutions behind the delay. -/
def undelayedSolutions (whichType : txnouttype) (vSolutions : List valtype) :
    List valtype :=
  if whichType.isDelayed then vSolutions.drop 1 else vSolutions

/-- The `switch` of the key store's `Solver`. -/
def solveType (crypto : Crypto) (keystore : CKeyStore)
    (whichType : txnouttype) (vSolutions : List valtype) (hash : uint256)
    (nHashType : Nat) : Option CScript :=
  let vch := vSolutions.headD []
  match whichType.undelayed with
  | .TX_PUBKEY => Sign1 keystore 0 (keyIDOf crypto vch) hash nHashType []
  | .TX_PUBKEYHASH =>
      match Sign1 keystore 0 vch hash nHashType [] with
      | none => none
      | some scriptSig =>
          some (scriptSig ++
            pushData (pubKeyBytes ((keystore.GetPubKey vch).getD [])))
  | .TX_SCRIPTHASH => keystore.GetCScript vch
  | .TX_MULTISIG =>
      SignN crypto vSolutions keystore hash nHashType [UInt8.ofNat OP_0]
  | _ => none

/-- `Solver` with a key store: what it puts into `scriptSigRet`, with the type
of the script; `none` where it returns false. -/
def keyStoreSolver (crypto : Crypto) (keystore : CKeyStore)
    (scriptPubKey : CScript) (hash : uint256) (nHashType : Nat) :
    Option (CScript × txnouttype) :=
  match Solver scriptPubKey with
  | none => none
  | some (whichType, vSolutions) =>
      match solveType crypto keystore whichType
          (undelayedSolutions whichType vSolutions) hash nHashType with
      | none => none
      | some scriptSigRet => some (scriptSigRet, whichType)

/-! ### Signing an input -/

/-- `CScript::GetDelay`.  The template lets no delay of more than five bytes
through, so the operand never throws. -/
def CScript.GetDelay (script : CScript) : Option Int :=
  match Solver script with
  | none => none
  | some (type, vSolutions) =>
      if type.isDelayed then CScriptNum.ofVch (vSolutions.headD []) 5 else none

namespace CTransaction

/-- Assignment to `vin[nIn].scriptSig`. -/
def setScriptSig (tx : CTransaction) (nIn : Nat) (scriptSig : CScript) :
    CTransaction :=
  { tx with vin := tx.vin.modify nIn fun txin => { txin with scriptSig } }

/-- Put a lock time into effect for the input. -/
def unsetFinal (tx : CTransaction) (nIn : Nat) : CTransaction :=
  { tx with
    vin := tx.vin.modify nIn fun txin =>
      if txin.nSequence = UINT_MAX then { txin with nSequence := UINT_MAX - 1 }
      else txin }

end CTransaction

/-- A delay in the range of `nLockTime`. -/
def lockTimeOfDelay (nDelay : Int) : Nat :=
  if (UINT_MAX : Int) < nDelay then UINT_MAX
  else if nDelay < 0 then 0
  else nDelay.toNat

/-- The start of `SignSignature`: an input whose script names a delay changes
its sequence number and the lock time of the transaction. -/
def putDelay (fromPubKey : CScript) (txTo : CTransaction) (nIn : Nat) :
    CTransaction :=
  match fromPubKey.GetDelay with
  | none => txTo
  | some nDelay =>
      let txTo := txTo.unsetFinal nIn
      { txTo with nLockTime := max (lockTimeOfDelay nDelay) txTo.nLockTime }

/-- The signature script of an input.  For a script hash it is the solution of
the redemption script, followed by that script. -/
def solveInput (crypto : Crypto) (keystore : CKeyStore)
    (fromPubKey : CScript) (txTo : CTransaction) (nIn nHashType : Nat) :
    Option CScript :=
  match keyStoreSolver crypto keystore fromPubKey
      (SignatureHash crypto fromPubKey txTo nIn nHashType) nHashType with
  | none => none
  | some (scriptSig, whichType) =>
      if whichType.undelayed = .TX_SCRIPTHASH then
        let subscript := scriptSig
        let txTo := txTo.setScriptSig nIn subscript
        match keyStoreSolver crypto keystore subscript
            (SignatureHash crypto subscript txTo nIn nHashType) nHashType with
        | none => none
        | some (scriptSig, subType) =>
            if subType.undelayed = .TX_SCRIPTHASH then none
            else some (scriptSig ++ pushData subscript)
      else some scriptSig

/-- `SignSignature`: the transaction with the input signed, or `none` where it
returns false. -/
def SignSignature (crypto : Crypto) (keystore : CKeyStore)
    (fromPubKey : CScript) (txTo : CTransaction) (nIn nHashType : Nat) :
    Run (Option CTransaction) :=
  let txTo := putDelay fromPubKey txTo nIn
  match solveInput crypto keystore fromPubKey txTo nIn nHashType with
  | none => .ok none
  | some scriptSig =>
      let txTo := txTo.setScriptSig nIn scriptSig
      -- test the solution
      match VerifyScript ⟨crypto, txTo, nIn, SCRIPT_VERIFY_P2SH_STRICTENC⟩
          scriptSig fromPubKey with
      | .ok true => .ok (some txTo)
      | .ok false => .ok none
      | .error stop => .error stop

/-- What `Solver` leaves in its parameters, whether it returns true or not. -/
def solvedFrom (scriptPubKey : CScript) :
    List (txnouttype × List Nat) → txnouttype × List valtype
  | [] => (.TX_NONSTANDARD, [])
  | (type, tplate) :: rest =>
      match matchTemplate (scriptPubKey.length + tplate.length + 1)
          scriptPubKey tplate [] with
      | none => solvedFrom scriptPubKey rest
      | some vSolutions => (type, vSolutions)

def CScript.Solved (scriptPubKey : CScript) : txnouttype × List valtype :=
  solvedFrom scriptPubKey mTemplates

/-! ### What a signature script pushes -/

/-- A script that `IsPushOnly` accepts. -/
structure PushScript where
  script : CScript
  isPushOnly : script.IsPushOnly = true

/-- The loop of `EvalScript` over a script of pushes.  It stops at an element that
is too large, at `OP_RESERVED` and once there are too many elements, and leaves
what is on the stack by then. -/
def pushedStack : (fuel : Nat) → (stack : List valtype) → (pc : CScript) → List valtype
  | 0, stack, _ => stack
  | fuel + 1, stack, pc =>
      match getOp pc with
      | none => stack
      | some (opcode, vchPushValue, rest) =>
          let next := fun vch =>
            let stack := vch :: stack
            if 1000 < stack.length then stack else pushedStack fuel stack rest
          if MAX_SCRIPT_ELEMENT_SIZE < vchPushValue.length then stack
          else if opcode ≤ OP_PUSHDATA4 then next vchPushValue
          else if opcode = OP_1NEGATE ∨ (OP_1 ≤ opcode ∧ opcode ≤ OP_16) then
            next (CScriptNum.serialize ((opcode : Int) - ((OP_1 : Int) - 1)))
          else stack

/-- The stack that `EvalScript` leaves of the script on an empty one, whether it
returns true or not; the top is in front. -/
def PushScript.stack (scriptSig : PushScript) : List valtype :=
  if 10000 < scriptSig.script.length then []
  else pushedStack scriptSig.script.length [] scriptSig.script

/-! ### Combining -/

/-- `PushAll`. -/
def PushAll (values : List valtype) : CScript := (values.map pushData).flatten

/-- `CombineMultisig`.  The set of signatures is in the order of `vector`, and the
keys are those between the numbers of signatures and of keys. -/
def CombineMultisig (crypto : Crypto) (scriptPubKey : CScript) (txTo : CTransaction)
    (nIn : Nat) (vSolutions : List valtype) (txType : txnouttype)
    (sigs1 sigs2 : List valtype) : CScript :=
  let allsigs := Lib.collect ((sigs1 ++ sigs2).filter fun v => !v.isEmpty)
  let delayed := if txType.isDelayed then 1 else 0
  let nSigsRequired := ((vSolutions.getD delayed []).headD 0).toNat
  let vPubKeys := (vSolutions.drop (1 + delayed)).dropLast
  let sigs := Lib.giveOut
    (fun sig pubkey => CheckSig crypto sig pubkey scriptPubKey txTo nIn) vPubKeys allsigs
  let result := (vPubKeys.filterMap fun pubkey => sigs.lookup pubkey).take nSigsRequired
  [UInt8.ofNat OP_0] ++ PushAll result ++
    List.replicate (nSigsRequired - result.length) (UInt8.ofNat OP_0)

/-- `CombineSignatures` on a solved script and two stacks, whose tops are in
front. -/
def combineSolved (crypto : Crypto) (txTo : CTransaction) (nIn : Nat) :
    (sigs1 sigs2 : List valtype) → (scriptPubKey : CScript) →
    (solved : txnouttype × List valtype) → CScript
  | sigs1, sigs2, scriptPubKey, (txType, vSolutions) =>
      match txType.undelayed with
      | .TX_PUBKEY | .TX_PUBKEYHASH =>
          if (sigs1.getLastD []).isEmpty then PushAll sigs2.reverse
          else PushAll sigs1.reverse
      | .TX_SCRIPTHASH =>
          match sigs1 with
          | [] => PushAll sigs2.reverse
          | spk :: rest1 =>
              if spk.isEmpty then PushAll sigs2.reverse
              else if (sigs2.headD []).isEmpty then PushAll (spk :: rest1).reverse
              else
                combineSolved crypto txTo nIn rest1 sigs2.tail spk (CScript.Solved spk) ++
                  pushData spk
      | .TX_MULTISIG =>
          CombineMultisig crypto scriptPubKey txTo nIn vSolutions txType sigs1 sigs2
      | _ =>
          if sigs2.length ≤ sigs1.length then PushAll sigs1.reverse
          else PushAll sigs2.reverse

/-- `CombineSignatures`. -/
def CombineSignatures (crypto : Crypto) (scriptPubKey : CScript) (txTo : CTransaction)
    (nIn : Nat) (scriptSig1 scriptSig2 : PushScript) : CScript :=
  combineSolved crypto txTo nIn scriptSig1.stack scriptSig2.stack scriptPubKey
    scriptPubKey.Solved

end Ziftrcoin.Spec
