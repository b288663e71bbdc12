/-
Module: Ziftrcoin.Spec.Script
Purpose: Scripts as byte strings: opcodes, script numbers, instruction parsing,
  signature-operation counting and the standard templates.
Trusted boundary: human-reviewed model of src/script.h, src/script.cpp
Main exports: getOp, ops, CScriptNum
-/
import Ziftrcoin.Spec.Bytes

namespace Ziftrcoin.Spec

/-! ### Opcodes

`opcodetype` is a C++ enumeration that any byte can be cast to, so an opcode
is a number below 256 and the enumerators are constants. -/

def OP_0 : Nat := 0x00
def OP_PUSHDATA1 : Nat := 0x4c
def OP_PUSHDATA2 : Nat := 0x4d
def OP_PUSHDATA4 : Nat := 0x4e
def OP_1NEGATE : Nat := 0x4f
def OP_1 : Nat := 0x51
def OP_16 : Nat := 0x60
def OP_NOP : Nat := 0x61
def OP_IF : Nat := 0x63
def OP_NOTIF : Nat := 0x64
def OP_ELSE : Nat := 0x67
def OP_ENDIF : Nat := 0x68
def OP_VERIFY : Nat := 0x69
def OP_RETURN : Nat := 0x6a
def OP_TOALTSTACK : Nat := 0x6b
def OP_FROMALTSTACK : Nat := 0x6c
def OP_2DROP : Nat := 0x6d
def OP_2DUP : Nat := 0x6e
def OP_3DUP : Nat := 0x6f
def OP_2OVER : Nat := 0x70
def OP_2ROT : Nat := 0x71
def OP_2SWAP : Nat := 0x72
def OP_IFDUP : Nat := 0x73
def OP_DEPTH : Nat := 0x74
def OP_DROP : Nat := 0x75
def OP_DUP : Nat := 0x76
def OP_NIP : Nat := 0x77
def OP_OVER : Nat := 0x78
def OP_PICK : Nat := 0x79
def OP_ROLL : Nat := 0x7a
def OP_ROT : Nat := 0x7b
def OP_SWAP : Nat := 0x7c
def OP_TUCK : Nat := 0x7d
def OP_CAT : Nat := 0x7e
def OP_SUBSTR : Nat := 0x7f
def OP_LEFT : Nat := 0x80
def OP_RIGHT : Nat := 0x81
def OP_SIZE : Nat := 0x82
def OP_INVERT : Nat := 0x83
def OP_AND : Nat := 0x84
def OP_OR : Nat := 0x85
def OP_XOR : Nat := 0x86
def OP_EQUAL : Nat := 0x87
def OP_EQUALVERIFY : Nat := 0x88
def OP_1ADD : Nat := 0x8b
def OP_1SUB : Nat := 0x8c
def OP_2MUL : Nat := 0x8d
def OP_2DIV : Nat := 0x8e
def OP_NEGATE : Nat := 0x8f
def OP_ABS : Nat := 0x90
def OP_NOT : Nat := 0x91
def OP_0NOTEQUAL : Nat := 0x92
def OP_ADD : Nat := 0x93
def OP_SUB : Nat := 0x94
def OP_MUL : Nat := 0x95
def OP_DIV : Nat := 0x96
def OP_MOD : Nat := 0x97
def OP_LSHIFT : Nat := 0x98
def OP_RSHIFT : Nat := 0x99
def OP_BOOLAND : Nat := 0x9a
def OP_BOOLOR : Nat := 0x9b
def OP_NUMEQUAL : Nat := 0x9c
def OP_NUMEQUALVERIFY : Nat := 0x9d
def OP_NUMNOTEQUAL : Nat := 0x9e
def OP_LESSTHAN : Nat := 0x9f
def OP_GREATERTHAN : Nat := 0xa0
def OP_LESSTHANOREQUAL : Nat := 0xa1
def OP_GREATERTHANOREQUAL : Nat := 0xa2
def OP_MIN : Nat := 0xa3
def OP_MAX : Nat := 0xa4
def OP_WITHIN : Nat := 0xa5
def OP_RIPEMD160 : Nat := 0xa6
def OP_SHA1 : Nat := 0xa7
def OP_SHA256 : Nat := 0xa8
def OP_HASH160 : Nat := 0xa9
def OP_HASH256 : Nat := 0xaa
def OP_CODESEPARATOR : Nat := 0xab
def OP_CHECKSIG : Nat := 0xac
def OP_CHECKSIGVERIFY : Nat := 0xad
def OP_CHECKMULTISIG : Nat := 0xae
def OP_CHECKMULTISIGVERIFY : Nat := 0xaf
def OP_NOP1 : Nat := 0xb0
def OP_NOP10 : Nat := 0xb9
def OP_CHECKLOCKTIME : Nat := 0xba
def OP_CHECKLOCKTIMEVERIFY : Nat := 0xbb
def OP_SCRIPTNUMBER : Nat := 0xf8
def OP_SMALLDATA : Nat := 0xf9
def OP_SMALLINTEGER : Nat := 0xfa
def OP_PUBKEYS : Nat := 0xfb
def OP_HASH160HASH : Nat := 0xfd
def OP_PUBKEY : Nat := 0xfe
def OP_INVALIDOPCODE : Nat := 0xff

/-- Largest element a script may push, in bytes. -/
def MAX_SCRIPT_ELEMENT_SIZE : Nat := 520

/-- Largest data carried by a standard `OP_RETURN` output, in bytes. -/
def MAX_OP_RETURN_RELAY : Nat := 80

/-- `nLockTime` below this value is a block number, otherwise a UNIX time. -/
def LOCKTIME_THRESHOLD : Int := 1200000000

/-- A serialised script. -/
abbrev CScript := List UInt8

/-! ### Script numbers -/

namespace CScriptNum

/-- Little-endian magnitude bytes without leading zero bytes.  The fuel is the
eight bytes of a `uint64_t`. -/
def absBytes : (fuel absvalue : Nat) → valtype
  | 0, _ => []
  | _ + 1, 0 => []
  | fuel + 1, absvalue + 1 =>
      UInt8.ofNat (absvalue + 1) :: absBytes fuel ((absvalue + 1) / 256)

/-- `CScriptNum::serialize`: magnitude bytes with the sign in the top bit of
the last one, in an extra byte when that bit is taken. -/
def serialize (value : Int) : valtype :=
  if value = 0 then []
  else
    let result := absBytes 8 value.natAbs
    let last := (result.getLastD 0).toNat
    if 0x80 ≤ last then result ++ [if value < 0 then 0x80 else 0]
    else if value < 0 then
      result.dropLast ++ [UInt8.ofNat (last + 0x80)]
    else result

/-- `CScriptNum::set_vch`.  The sign bit is cleared with
`~(0x80 << (8 * (vch.size() - 1)))` where `0x80` is an `int`: the shift count
is taken modulo 32, so for five bytes it is bit 7 that is cleared and not
bit 39. -/
def setVch (vch : valtype) : Int :=
  match vch with
  | [] => 0
  | _ =>
      let result := readLE vch
      if 0x80 ≤ (vch.getLastD 0).toNat then
        let bit := 7 + (8 * (vch.length - 1)) % 32
        let cleared := if result.testBit bit then result - 2 ^ bit else result
        Int.negOfNat cleared
      else result

/-- The operand constructor; `none` is the `scriptnum_error` it throws. -/
def ofVch (vch : valtype) (nMaxNumSize : Nat) : Option Int :=
  if nMaxNumSize < vch.length then none else some (setVch vch)

/-- `getint` clamps to the range of `int`. -/
def getint (m_value : Int) : Int :=
  if 2147483647 < m_value then 2147483647
  else if m_value < -2147483648 then -2147483648
  else m_value

end CScriptNum

theorem getint_of_le {n : Nat} (hn : n ≤ 20) : CScriptNum.getint (n : Int) = n := by
  rw [CScriptNum.getint, if_neg (by omega), if_neg (by omega)]

/-! ### Building scripts -/

/-- `operator<<(const std::vector<unsigned char>&)`. -/
def pushData (b : valtype) : CScript :=
  if b.length < OP_PUSHDATA1 then leBytes 1 b.length ++ b
  else if b.length ≤ 0xff then
    UInt8.ofNat OP_PUSHDATA1 :: leBytes 1 b.length ++ b
  else if b.length ≤ 0xffff then
    UInt8.ofNat OP_PUSHDATA2 :: leBytes 2 b.length ++ b
  else UInt8.ofNat OP_PUSHDATA4 :: leBytes 4 b.length ++ b

/-- `operator<<(const CScriptNum&)`. -/
def pushScriptNum (n : Int) : CScript := pushData (CScriptNum.serialize n)

/-! ### Parsing scripts -/

/-- Length of the immediate operand, with the position behind the length. -/
def readPushSize (opcode : Nat) (pc : CScript) : Option Nat × CScript :=
  if opcode < OP_PUSHDATA1 then (some opcode, pc)
  else
    let width := if opcode = OP_PUSHDATA1 then 1
      else if opcode = OP_PUSHDATA2 then 2 else 4
    if pc.length < width then (none, pc)
    else (some (readLE (pc.take width)), pc.drop width)

/-- `CScript::GetOp2` at the position whose remaining bytes are `pc`.  The
iterator moves also when the instruction turns out to be truncated, so the
new position is returned in every case. -/
def getOp2 (pc : CScript) : Option (Nat × valtype) × CScript :=
  match pc with
  | [] => (none, [])
  | b :: pc =>
      let opcode := b.toNat
      if opcode ≤ OP_PUSHDATA4 then
        match readPushSize opcode pc with
        | (none, pc) => (none, pc)
        | (some nSize, pc) =>
            if pc.length < nSize then (none, pc)
            else (some (opcode, pc.take nSize), pc.drop nSize)
      else (some (opcode, []), pc)

/-- A successful `GetOp`: opcode, immediate data and the rest. -/
def getOp (pc : CScript) : Option (Nat × valtype × CScript) :=
  match getOp2 pc with
  | (some (opcode, vch), pc) => some (opcode, vch, pc)
  | (none, _) => none

/-- The instructions `GetOp` yields one after the other, and whether they
reach the end of the script. -/
def getOps : (fuel : Nat) → CScript → List (Nat × valtype) × Bool
  | _, [] => ([], true)
  | 0, _ => ([], false)
  | fuel + 1, pc =>
      match getOp pc with
      | none => ([], false)
      | some (opcode, vch, pc) =>
          let rest := getOps fuel pc
          ((opcode, vch) :: rest.1, rest.2)

/-- Every instruction takes at least one byte, so the length is enough fuel. -/
def ops (script : CScript) : List (Nat × valtype) × Bool :=
  getOps script.length script

/-- `CScript::DecodeOP_N` for the opcodes it is called with. -/
def DecodeOP_N (opcode : Nat) : Nat :=
  if opcode = OP_0 then 0 else opcode - (OP_1 - 1)

theorem decodeOP_N_le {opcode : Nat} (h : opcode = OP_0 ∨ OP_1 ≤ opcode ∧ opcode ≤ OP_16) :
    DecodeOP_N opcode ≤ 16 := by
  unfold DecodeOP_N
  split
  · exact Nat.zero_le 16
  · simp only [OP_0, OP_1, OP_16] at *
    omega

theorem headD_byte {k : Nat} (hk : k ≤ 16) : ([UInt8.ofNat k].headD 0).toNat = k := by
  rw [List.headD_cons, UInt8.toNat_ofNat', Nat.mod_eq_of_lt (by omega)]

/-- Signature operations of an instruction list, given the instruction before
it. -/
def sigOpsFrom : (lastOpcode : Nat) → List (Nat × valtype) → Nat
  | _, [] => 0
  | lastOpcode, (opcode, _) :: rest =>
      let n :=
        if opcode = OP_CHECKSIG ∨ opcode = OP_CHECKSIGVERIFY then 1
        else if opcode = OP_CHECKMULTISIG ∨
            opcode = OP_CHECKMULTISIGVERIFY then
          if OP_1 ≤ lastOpcode ∧ lastOpcode ≤ OP_16 then
            DecodeOP_N lastOpcode
          else 20
        else 0
      n + sigOpsFrom opcode rest

/-- `CScript::GetSigOpCount()`; counting stops at a truncated instruction. -/
def CScript.GetSigOpCount (script : CScript) : Nat :=
  sigOpsFrom OP_INVALIDOPCODE (ops script).1

def CScript.IsPushOnly (script : CScript) : Bool :=
  (ops script).2 && (ops script).1.all fun op => op.1 ≤ OP_16

/-- `CScript::HasCanonicalPushes`: no push in a longer form than needed. -/
def CScript.HasCanonicalPushes (script : CScript) : Bool :=
  (ops script).2 && (ops script).1.all fun (opcode, data) =>
    decide (OP_16 < opcode) ||
      !(decide (opcode < OP_PUSHDATA1) && decide (OP_0 < opcode) &&
          (data.length == 1 && decide ((data.headD 0).toNat ≤ 16)) ||
        opcode == OP_PUSHDATA1 && decide (data.length < OP_PUSHDATA1) ||
        opcode == OP_PUSHDATA2 && decide (data.length ≤ 0xff) ||
        opcode == OP_PUSHDATA4 && decide (data.length ≤ 0xffff))

/-- A script that starts with `OP_RETURN` fails whatever the initial stack, so
its output never enters the UTXO set. -/
def CScript.IsUnspendable (script : CScript) : Bool :=
  match script with
  | [] => false
  | b :: _ => b.toNat == OP_RETURN

/-! ### Standard templates -/

inductive txnouttype where
  | TX_NONSTANDARD
  | TX_PUBKEY
  | TX_PUBKEYHASH
  | TX_SCRIPTHASH
  | TX_MULTISIG
  | TX_NULL_DATA
  | TX_DELAYEDPUBKEY
  | TX_DELAYEDPUBKEYHASH
  | TX_DELAYEDSCRIPTHASH
  | TX_DELAYEDMULTISIG
deriving Repr, DecidableEq, Inhabited

namespace txnouttype

/-- `type > DELAYED_DELTA`. -/
def isDelayed : txnouttype → Bool
  | TX_DELAYEDPUBKEY | TX_DELAYEDPUBKEYHASH | TX_DELAYEDSCRIPTHASH
  | TX_DELAYEDMULTISIG => true
  | _ => false

/-- `type % DELAYED_DELTA`. -/
def undelayed : txnouttype → txnouttype
  | TX_DELAYEDPUBKEY => TX_PUBKEY
  | TX_DELAYEDPUBKEYHASH => TX_PUBKEYHASH
  | TX_DELAYEDSCRIPTHASH => TX_SCRIPTHASH
  | TX_DELAYEDMULTISIG => TX_MULTISIG
  | type => type

end txnouttype

open txnouttype in
/-- `mTemplates` in the order in which the multimap is scanned. -/
def mTemplates : List (txnouttype × List Nat) :=
  [ (TX_PUBKEY, [OP_PUBKEY, OP_CHECKSIG]),
    (TX_PUBKEYHASH,
      [OP_DUP, OP_HASH160, OP_HASH160HASH, OP_EQUALVERIFY, OP_CHECKSIG]),
    (TX_SCRIPTHASH, [OP_HASH160, OP_HASH160HASH, OP_EQUAL]),
    (TX_MULTISIG,
      [OP_SMALLINTEGER, OP_PUBKEYS, OP_SMALLINTEGER, OP_CHECKMULTISIG]),
    (TX_NULL_DATA, [OP_RETURN, OP_SMALLDATA]),
    (TX_NULL_DATA, [OP_RETURN]),
    (TX_DELAYEDPUBKEY,
      [OP_SCRIPTNUMBER, OP_CHECKLOCKTIMEVERIFY, OP_PUBKEY, OP_CHECKSIG]),
    (TX_DELAYEDPUBKEYHASH,
      [OP_SCRIPTNUMBER, OP_CHECKLOCKTIMEVERIFY, OP_DUP, OP_HASH160,
        OP_HASH160HASH, OP_EQUALVERIFY, OP_CHECKSIG]),
    (TX_DELAYEDSCRIPTHASH,
      [OP_SCRIPTNUMBER, OP_CHECKLOCKTIMEVERIFY, OP_HASH160, OP_HASH160HASH,
        OP_EQUAL]),
    (TX_DELAYEDMULTISIG,
      [OP_SCRIPTNUMBER, OP_CHECKLOCKTIMEVERIFY, OP_SMALLINTEGER, OP_PUBKEYS,
        OP_SMALLINTEGER, OP_CHECKMULTISIG]) ]

/-- The `OP_PUBKEYS` loop: collects key-sized pushes and ends with the first
instruction that is none. -/
def matchPubKeys : (fuel : Nat) → (opcode1 : Nat) → (vch1 : valtype) →
    (pc1 : CScript) → (vSolutions : List valtype) →
    Nat × valtype × CScript × List valtype
  | 0, opcode1, vch1, pc1, vSolutions => (opcode1, vch1, pc1, vSolutions)
  | fuel + 1, opcode1, vch1, pc1, vSolutions =>
      if 33 ≤ vch1.length ∧ vch1.length ≤ 65 then
        match getOp pc1 with
        | none => (OP_INVALIDOPCODE, [], pc1, vSolutions ++ [vch1])
        | some (opcode1, vch1', pc1) =>
            matchPubKeys fuel opcode1 vch1' pc1 (vSolutions ++ [vch1])
      else (opcode1, vch1, pc1, vSolutions)

/-- One template instruction other than `OP_PUBKEYS`: the solution it adds,
or `none` where the comparison breaks off. -/
def matchTemplateOp (opcode2 opcode1 : Nat) (vch1 : valtype) :
    Option (List valtype) :=
  if opcode2 = OP_PUBKEY then
    if vch1.length < 33 ∨ 65 < vch1.length then none else some [vch1]
  else if opcode2 = OP_HASH160HASH then
    if vch1.length ≠ 20 then none else some [vch1]
  else if opcode2 = OP_SMALLINTEGER then
    if opcode1 = OP_0 ∨ (OP_1 ≤ opcode1 ∧ opcode1 ≤ OP_16) then
      some [[UInt8.ofNat (DecodeOP_N opcode1)]]
    else none
  else if opcode2 = OP_SCRIPTNUMBER then
    if opcode1 ≤ 0x05 then some [vch1] else none
  else if opcode2 = OP_SMALLDATA then
    if MAX_OP_RETURN_RELAY < vch1.length then none else some []
  else if opcode1 ≠ opcode2 ∨ vch1 ≠ [] then none
  else some []

/-- Compare a script with one template; the solutions when they match. -/
def matchTemplate : (fuel : Nat) → (pc1 : CScript) → (pc2 : List Nat) →
    (vSolutions : List valtype) → Option (List valtype)
  | 0, _, _, _ => none
  | fuel + 1, pc1, pc2, vSolutions =>
      if pc1 = [] ∧ pc2 = [] then some vSolutions
      else
        match getOp pc1, pc2 with
        | none, _ => none
        | _, [] => none
        | some (opcode1, vch1, pc1), opcode2 :: pc2 =>
            if opcode2 = OP_PUBKEYS then
              match matchPubKeys (fuel + 1) opcode1 vch1 pc1 vSolutions,
                  pc2 with
              | _, [] => none
              | (opcode1, vch1, pc1, vSolutions), opcode2 :: pc2 =>
                  match matchTemplateOp opcode2 opcode1 vch1 with
                  | none => none
                  | some found =>
                      matchTemplate fuel pc1 pc2 (vSolutions ++ found)
            else
              match matchTemplateOp opcode2 opcode1 vch1 with
              | none => none
              | some found => matchTemplate fuel pc1 pc2 (vSolutions ++ found)

/-- The additional checks on a matched multisig template.  For the delayed
form the count is compared with `vSolutionsRet.size() - 2` as well, although
the delay is one more solution. -/
def multisigOk (type : txnouttype) (vSolutions : List valtype) : Bool :=
  let m := ((vSolutions.getD (if type.isDelayed then 1 else 0) []).headD 0).toNat
  let n := ((vSolutions.getLastD []).headD 0).toNat
  !(decide (m < 1) || decide (n < 1) || decide (n < m) ||
    decide (vSolutions.length - 2 ≠ n))

/-- Scan the templates.  A multisig match that fails the additional checks
ends the scan. -/
def solverScan (scriptPubKey : CScript) :
    List (txnouttype × List Nat) → Option (txnouttype × List valtype)
  | [] => none
  | (type, tplate) :: rest =>
      match matchTemplate (scriptPubKey.length + tplate.length + 1)
          scriptPubKey tplate [] with
      | none => solverScan scriptPubKey rest
      | some vSolutions =>
          if type.undelayed = .TX_MULTISIG ∧ multisigOk type vSolutions = false
          then none
          else some (type, vSolutions)

/-- `Solver`: the template a script matches, with its solutions; `none` where
the source returns false. -/
def Solver (scriptPubKey : CScript) : Option (txnouttype × List valtype) :=
  solverScan scriptPubKey mTemplates

def CScript.IsPayToScriptHash (script : CScript) : Bool :=
  (script.length == 23 && (script.getD 0 0).toNat == OP_HASH160 &&
      script.getD 1 0 == 0x14 && (script.getD 22 0).toNat == OP_EQUAL) ||
    match Solver script with
    | none => false
    | some (typeRet, _) => typeRet == .TX_DELAYEDSCRIPTHASH

/-- `CScript::GetSigOpCount(const CScript& scriptSig)`: for a
pay-to-script-hash output, the count of the redeem script that `scriptSig`
pushes last. -/
def CScript.GetP2SHSigOpCount (script scriptSig : CScript) : Nat :=
  if script.IsPayToScriptHash = false then script.GetSigOpCount
  else if (ops scriptSig).2 = false ∨
      (ops scriptSig).1.any (fun op => decide (OP_16 < op.1)) then 0
  else
    match (ops scriptSig).1.getLast? with
    | none => CScript.GetSigOpCount []
    | some (_, data) => CScript.GetSigOpCount data

/-- `ScriptSigArgsExpected`; `none` stands for its result -1. -/
def ScriptSigArgsExpected (t : txnouttype) (vSolutions : List valtype) :
    Option Nat :=
  match t with
  | .TX_NONSTANDARD | .TX_NULL_DATA => none
  | .TX_PUBKEY | .TX_DELAYEDPUBKEY => some 1
  | .TX_PUBKEYHASH | .TX_DELAYEDPUBKEYHASH => some 2
  | .TX_MULTISIG | .TX_DELAYEDMULTISIG =>
      let delay := if t.isDelayed then 1 else 0
      match vSolutions[delay]? with
      | some (n :: _) => some (n.toNat + 1)
      | _ => none
  | .TX_SCRIPTHASH | .TX_DELAYEDSCRIPTHASH => some 1

/-- `IsStandard`: the template of a script that is relayed as standard. -/
def IsStandard (scriptPubKey : CScript) : Option txnouttype :=
  match Solver scriptPubKey with
  | none => none
  | some (whichType, vSolutions) =>
      let m := ((vSolutions.getD (if whichType.isDelayed then 1 else 0)
        []).headD 0).toNat
      let n := ((vSolutions.getLastD []).headD 0).toNat
      if whichType.undelayed = .TX_MULTISIG ∧
          (n < 1 ∨ 3 < n ∨ m < 1 ∨ n < m) then none
      else if whichType ≠ .TX_NONSTANDARD ∧ whichType.isDelayed = false then
        some whichType
      else none

end Ziftrcoin.Spec
