/-
Module: Ziftrcoin.Spec.Transaction
Purpose: Transactions, the hash functions they depend on, validation results,
  and the checks on a transaction that need no chain state.
Trusted boundary: human-reviewed model of src/core.h, src/core.cpp and the
  context-free checks of src/main.cpp
Main exports: Crypto, COutPoint, CTxIn
-/
import Ziftrcoin.Lib.Outcome
import Ziftrcoin.Spec.Script

namespace Ziftrcoin.Spec

/-- The hash functions and the signature check.  They are a parameter: no
modelled rule depends on what they compute. -/
structure Crypto where
  /-- Double SHA-256. -/
  Hash : valtype → uint256
  /-- The proof-of-work hash, a 512-bit number. -/
  HashZR5 : valtype → Nat
  Hash160 : valtype → valtype
  RIPEMD160 : valtype → valtype
  SHA1 : valtype → valtype
  SHA256 : valtype → valtype
  /-- `CPubKey::Verify`: key, message hash, signature. -/
  Verify : valtype → uint256 → valtype → Bool

/-! ### Transactions -/

structure COutPoint where
  hash : uint256
  n : Nat
deriving Repr, DecidableEq, Inhabited

/-- `(unsigned int) -1`, which is also the final sequence number. -/
def UINT_MAX : Nat := 0xffffffff

def COutPoint.IsNull (outpoint : COutPoint) : Bool :=
  outpoint.hash == 0 && outpoint.n == UINT_MAX

structure CTxIn where
  prevout : COutPoint
  scriptSig : CScript
  nSequence : Nat
deriving Repr, DecidableEq, Inhabited

def CTxIn.IsFinal (txin : CTxIn) : Bool := txin.nSequence == UINT_MAX

structure CTxOut where
  nValue : Int
  scriptPubKey : CScript
deriving Repr, DecidableEq, Inhabited

/-- The value an output is set to when it is spent. -/
def CTxOut.null : CTxOut := { nValue := -1, scriptPubKey := [] }

def CTxOut.IsNull (txout : CTxOut) : Bool := txout.nValue == -1

structure CTransaction where
  nVersion : Int
  vin : List CTxIn
  vout : List CTxOut
  nLockTime : Nat
deriving Repr, DecidableEq, Inhabited

def CTransaction.CURRENT_VERSION : Int := 1

def COutPoint.serialize (outpoint : COutPoint) : valtype :=
  leBytes 32 outpoint.hash ++ leBytes 4 outpoint.n

def CTxIn.serialize (txin : CTxIn) : valtype :=
  txin.prevout.serialize ++ serializeBytes txin.scriptSig ++
    leBytes 4 txin.nSequence

def CTxOut.serialize (txout : CTxOut) : valtype :=
  leInt64 txout.nValue ++ serializeBytes txout.scriptPubKey

def CTransaction.serialize (tx : CTransaction) : valtype :=
  leInt32 tx.nVersion ++ serializeVector CTxIn.serialize tx.vin ++
    serializeVector CTxOut.serialize tx.vout ++ leBytes 4 tx.nLockTime

def CTransaction.GetSerializeSize (tx : CTransaction) : Nat :=
  tx.serialize.length

def CTransaction.GetHash (crypto : Crypto) (tx : CTransaction) : uint256 :=
  crypto.Hash tx.serialize

/-- Every serialised transaction has room for the four bytes that a proof of
knowledge reads. -/
theorem four_le_serialize_length (tx : CTransaction) :
    4 ≤ tx.serialize.length := by
  simp only [CTransaction.serialize, leInt32, List.length_append,
    leBytes_length]
  omega

/-- A coinbase has between one and twenty-five inputs, all of them null. -/
def CTransaction.IsCoinBase (tx : CTransaction) : Bool :=
  if tx.vin.length = 0 ∨ 25 < tx.vin.length then false
  else tx.vin.all fun txin => txin.prevout.IsNull

/-! ### Results -/

/-- Reject codes of `main.h`; `none` is the default 0. -/
inductive RejectCode where
  | none
  | REJECT_INVALID
  | REJECT_OBSOLETE
  | REJECT_DUPLICATE
  | REJECT_NONSTANDARD
  | REJECT_DUST
  | REJECT_INSUFFICIENTFEE
  | REJECT_CHECKPOINT
deriving Repr, DecidableEq, Inhabited

inductive ValidationMode where
  | MODE_VALID
  | MODE_INVALID
  | MODE_ERROR
deriving Repr, DecidableEq, Inhabited

structure CValidationState where
  mode : ValidationMode
  nDoS : Nat
  strRejectReason : String
  chRejectCode : RejectCode
  corruptionPossible : Bool
deriving Repr, DecidableEq, Inhabited

namespace CValidationState

/-- The state a call starts with.  A function that returns false without
touching the state leaves this one. -/
def initial : CValidationState :=
  { mode := .MODE_VALID, nDoS := 0, strRejectReason := "",
    chRejectCode := .none, corruptionPossible := false }

/-- The state that `state.DoS(level, false, code, reason, corruption)` leaves
in a state that was valid before. -/
def DoS (level : Nat) (chRejectCode : RejectCode) (strRejectReason : String)
    (corruptionIn : Bool) : CValidationState :=
  { mode := .MODE_INVALID, nDoS := level, strRejectReason, chRejectCode,
    corruptionPossible := corruptionIn }

def Invalid (chRejectCode : RejectCode) (strRejectReason : String) :
    CValidationState :=
  DoS 0 chRejectCode strRejectReason false

/-- `state.Error` and `state.Abort`. -/
def Error : CValidationState := { initial with mode := .MODE_ERROR }

def IsInvalid (state : CValidationState) : Bool :=
  state.mode == .MODE_INVALID

def IsError (state : CValidationState) : Bool := state.mode == .MODE_ERROR

def CorruptionPossible (state : CValidationState) : Bool :=
  state.corruptionPossible

end CValidationState

/-- Places where the source asserts, or reads without a check. -/
inductive Site where
  | CalculatePoK_vtx
  | CalculatePoK_data
  | GetTxHash_tree
  | GetTxHash_index
  | GetCoins
  | UpdateCoins_Spend
  | GetOutputFor
  | CountMatureCoins_vout
  | CheckInputs_prev
  | CheckInputs_vout
  | ConnectBlock_prev
  | ConnectBlock_vtx
  | DisconnectBlock_best
  | DisconnectBlock_pprev
  | DisconnectTip_tip
  | ConnectTip_prev
  | AcceptBlock_scriptSig
  | blockIndex
  | chainMostWork
  | VerifyScript_stackCopy
  | mempoolRemove
deriving Repr, DecidableEq, Inhabited

/-- Ways the process does not come back from a call: a failed assertion or an
access outside a container at a given place, or a loop of the source that
used up the rounds it was given. -/
inductive Fault where
  | crash (site : Site)
  | outOfFuel
deriving Repr, DecidableEq, Inhabited

/-- A call that does not return true returns false with a validation state, or
does not return. -/
inductive Stop where
  | reject (state : CValidationState)
  | fault (fault : Fault)
deriving Repr, DecidableEq, Inhabited

abbrev Run (α : Type) := Except Stop α

namespace Run

def DoS {α : Type} (level : Nat) (code : RejectCode) (reason : String)
    (corruption : Bool) : Run α :=
  .error (.reject (.DoS level code reason corruption))

def Invalid {α : Type} (code : RejectCode) (reason : String) : Run α :=
  .error (.reject (.Invalid code reason))

/-- `return error(...)`: false, with the state untouched. -/
def fail {α : Type} : Run α := .error (.reject .initial)

def Abort {α : Type} : Run α := .error (.reject .Error)

def crash {α : Type} (site : Site) : Run α := .error (.fault (.crash site))

def outOfFuel {α : Type} : Run α := .error (.fault .outOfFuel)

/-- `assert` in the source. -/
def assert (site : Site) (c : Prop) [Decidable c] : Run Unit :=
  if c then .ok () else crash site

/-- `xs[i]` without a check in the source. -/
def get {α : Type} (site : Site) (xs : List α) (i : Nat) : Run α :=
  match xs[i]? with
  | some x => .ok x
  | none => crash site

end Run

/-! ### Checks that need no context -/

def MIN_MAX_BLOCK_SIZE : Nat := 1000000
def MIN_COINBASE_SCRIPTSIG_SIZE : Nat := 2
def MAX_COINBASE_SCRIPTSIG_SIZE : Nat := 250

/-- The loop of `CheckTransaction` over the outputs. -/
def checkOutputs : (nValueOut : Int) → List CTxOut → Run Unit
  | _, [] => .ok ()
  | nValueOut, txout :: rest =>
      if txout.nValue < 0 then
        .DoS 100 .REJECT_INVALID "bad-txns-vout-negative" false
      else if MAX_MONEY_SATOSHIS < txout.nValue then
        .DoS 100 .REJECT_INVALID "bad-txns-vout-toolarge" false
      else if MoneyRange (int64 (nValueOut + txout.nValue)) = false then
        .DoS 100 .REJECT_INVALID "bad-txns-txouttotal-toolarge" false
      else checkOutputs (int64 (nValueOut + txout.nValue)) rest

/-- The loop of `CheckTransaction` over the inputs. -/
def checkTxIns (fCoinbase : Bool) :
    (vInOutPoints : List COutPoint) → List CTxIn → Run Unit
  | _, [] => .ok ()
  | vInOutPoints, txin :: rest =>
      if fCoinbase then
        if txin.prevout.IsNull = false then
          .DoS 10 .REJECT_INVALID "bad-txns-prevout-null" false
        else if txin.scriptSig.length < MIN_COINBASE_SCRIPTSIG_SIZE ∨
            MAX_COINBASE_SCRIPTSIG_SIZE < txin.scriptSig.length then
          .DoS 100 .REJECT_INVALID "bad-cb-length" false
        else checkTxIns fCoinbase vInOutPoints rest
      else if txin.prevout.IsNull then
        .DoS 10 .REJECT_INVALID "bad-txns-prevout-null" false
      else if txin.prevout ∈ vInOutPoints then
        .DoS 100 .REJECT_INVALID "bad-txns-inputs-duplicate" false
      else checkTxIns fCoinbase (txin.prevout :: vInOutPoints) rest

def CheckTransaction (tx : CTransaction) : Run Unit := do
  if tx.vin = [] then
    Run.DoS 10 .REJECT_INVALID "bad-txns-vin-empty" false
  if tx.vout = [] then
    Run.DoS 10 .REJECT_INVALID "bad-txns-vout-empty" false
  if MIN_MAX_BLOCK_SIZE < tx.GetSerializeSize then
    Run.DoS 100 .REJECT_INVALID "bad-txns-oversize" false
  checkOutputs 0 tx.vout
  checkTxIns tx.IsCoinBase [] tx.vin

/-- `CTransaction::GetValueOut`; `none` is the `runtime_error` it throws. -/
def getValueOutFrom : (nValueOut : Int) → List CTxOut → Option Int
  | nValueOut, [] => some nValueOut
  | nValueOut, txout :: rest =>
      let nValueOut := int64 (nValueOut + txout.nValue)
      if MoneyRange txout.nValue = false ∨ MoneyRange nValueOut = false then
        none
      else getValueOutFrom nValueOut rest

def CTransaction.GetValueOut (tx : CTransaction) : Option Int :=
  getValueOutFrom 0 tx.vout

/-- `IsFinalTx`.  The two arguments that are zero by default are replaced by
the height of the active chain and the adjusted time. -/
def IsFinalTx (chainHeight nAdjustedTime : Int) (tx : CTransaction)
    (nBlockHeight nBlockTime : Int) : Bool :=
  if tx.nLockTime = 0 then true
  else
    let nBlockHeight := if nBlockHeight = 0 then chainHeight else nBlockHeight
    let nBlockTime := if nBlockTime = 0 then nAdjustedTime else nBlockTime
    if (tx.nLockTime : Int) <
        (if (tx.nLockTime : Int) < LOCKTIME_THRESHOLD then nBlockHeight
          else nBlockTime) then true
    else tx.vin.all CTxIn.IsFinal

def GetSigOpCount (tx : CTransaction) : Nat :=
  (if tx.IsCoinBase then 1 else 0) +
    (tx.vin.map fun txin => txin.scriptSig.GetSigOpCount).sum +
    (tx.vout.map fun txout => txout.scriptPubKey.GetSigOpCount).sum

/-! ### Relay policy -/

def MAX_STANDARD_TX_SIZE : Nat := 100000
def DEFAULT_BLOCK_PRIORITY_SIZE : Nat := 50000

/-- `CTxOut::IsDust`.  The size counts the output alone. -/
def CTxOut.IsDust (nMinRelayTxFee : Int) (txout : CTxOut) : Bool :=
  decide ((int64 (txout.nValue * 1000)).tdiv
    (3 * (txout.serialize.length + 148)) < nMinRelayTxFee)

/-- The loop of `IsStandardTx` over the outputs; counts data outputs. -/
def standardOutputs (nMinRelayTxFee : Int) :
    (nDataOut : Nat) → List CTxOut → Except String Nat
  | nDataOut, [] => .ok nDataOut
  | nDataOut, txout :: rest =>
      match IsStandard txout.scriptPubKey with
      | none => .error "scriptpubkey"
      | some .TX_NULL_DATA => standardOutputs nMinRelayTxFee (nDataOut + 1) rest
      | some _ =>
          if txout.IsDust nMinRelayTxFee then .error "dust"
          else standardOutputs nMinRelayTxFee nDataOut rest

/-- The checks of `IsStandardTx` on one input. -/
def standardInput (txin : CTxIn) : Except String Unit :=
  if 1650 < txin.scriptSig.length then .error "scriptsig-size"
  else if txin.scriptSig.IsPushOnly = false then
    .error "scriptsig-not-pushonly"
  else if txin.scriptSig.HasCanonicalPushes = false then
    .error "scriptsig-non-canonical-push"
  else .ok ()

/-- `IsStandardTx`; the error is the `reason` it sets. -/
def IsStandardTx (nMinRelayTxFee : Int) (tx : CTransaction) :
    Except String Unit := do
  if CTransaction.CURRENT_VERSION < tx.nVersion ∨ tx.nVersion < 1 then
    throw "version"
  if MAX_STANDARD_TX_SIZE ≤ tx.GetSerializeSize then
    throw "tx-size"
  tx.vin.forM standardInput
  let nDataOut ← standardOutputs nMinRelayTxFee 0 tx.vout
  if 1 < nDataOut then
    throw "multi-op-return"

/-- `GetMinFee` in the mode `GMF_RELAY` and with `fAllowFree` set, as
`AcceptToMemoryPool` calls it. -/
def GetMinFee (nMinRelayTxFee : Int) (nBytes : Nat) : Int :=
  let nMinFee := int64 ((1 + nBytes / 1000 : Nat) * nMinRelayTxFee)
  let nMinFee := if nBytes < DEFAULT_BLOCK_PRIORITY_SIZE - 1000 then 0
    else nMinFee
  if MoneyRange nMinFee = false then MAX_MONEY_SATOSHIS else nMinFee

end Ziftrcoin.Spec
