/-
Module: Ziftrcoin.Spec.CreateTransaction
Purpose: How the wallet makes a payment: the rounds that choose coins, add the
  change, sign every input and raise the fee until it is enough.
Trusted boundary: human-reviewed model of CWallet::CreateTransaction in
  src/wallet.cpp and of GetMinFee in src/main.cpp
Main exports: CTxDestination, SetDestination, Coin
-/
import Ziftrcoin.Spec.Signing

namespace Ziftrcoin.Spec

/-! ### Destinations -/

inductive CTxDestination where
  | CNoDestination
  | CKeyID (keyID : valtype)
  | CScriptID (scriptID : valtype)
deriving Repr, DecidableEq, Inhabited

/-- `CScript::SetDestination` on a new script. -/
def SetDestination : CTxDestination → CScript
  | .CNoDestination => []
  | .CKeyID keyID =>
      [UInt8.ofNat OP_DUP, UInt8.ofNat OP_HASH160] ++ pushData keyID ++
        [UInt8.ofNat OP_EQUALVERIFY, UInt8.ofNat OP_CHECKSIG]
  | .CScriptID scriptID =>
      [UInt8.ofNat OP_HASH160] ++ pushData scriptID ++ [UInt8.ofNat OP_EQUAL]

/-! ### What a payment is made of -/

/-- An output of a wallet transaction, `pair<const CWalletTx*, unsigned int>`. -/
structure Coin where
  wtx : CTransaction
  n : Nat
deriving Repr, DecidableEq, Inhabited

/-- What `CreateTransaction` reads outside of its arguments.  The calls that a
round makes may answer differently in another round: coin selection and the
position of the change are random, and keys are reserved in between. -/
structure CreateCalls where
  crypto : Crypto
  nTransactionFee : Int
  nMinTxFee : Int
  nMinRelayTxFee : Int
  /-- The chosen coins in the order of their set, with their total value. -/
  SelectCoins : (round : Nat) → (nTargetValue : Int) → Option (List Coin × Int)
  /-- `AllowFree` on the priority, a floating-point number. -/
  AllowFree : (round nBytes : Nat) → Bool
  GetReservedKey : (round : Nat) → Option valtype
  /-- `GetRandInt`, taken modulo its argument. -/
  random : (round : Nat) → Nat
  /-- The wallet's keys, as the signature of an input finds them. -/
  keystore : (round nIn : Nat) → CKeyStore
  /-- `coinControl->destChange`. -/
  destChange : Option CTxDestination

/-- Ways `CreateTransaction` does not return true. -/
inductive CreateStop where
  | failed (strFailReason : String)
  | noReservedKey
  | coinIndex
  | stopped (stop : Stop)
  | outOfFuel
deriving Repr, DecidableEq, Inhabited

abbrev Create (α : Type) := Except CreateStop α

/-- A transaction as it was returned, with the fee and with the coins that its
inputs spend. -/
structure Created where
  wtxNew : CTransaction
  nFeeRet : Int
  setCoins : List Coin
deriving Repr, DecidableEq, Inhabited

/-- The loop over the payees in front of the rounds. -/
def sumPayees : (nValue : Int) → List (CScript × Int) → Create Int
  | nValue, [] => .ok nValue
  | nValue, s :: vecSend =>
      if nValue < 0 then .error (.failed "Transaction amounts must be positive")
      else sumPayees (int64 (nValue + s.2)) vecSend

/-- The outputs to the payees. -/
def payeeOutputs (nMinRelayTxFee : Int) :
    List (CScript × Int) → Create (List CTxOut)
  | [] => .ok []
  | s :: vecSend =>
      let txout : CTxOut := { nValue := s.2, scriptPubKey := s.1 }
      if txout.IsDust nMinRelayTxFee then
        .error (.failed "Transaction amount too small")
      else do
        let vout ← payeeOutputs nMinRelayTxFee vecSend
        .ok (txout :: vout)

/-- `GetMinFee` in the mode `GMF_SEND`. -/
def GetMinFeeSend (nMinTxFee : Int) (tx : CTransaction) (nBytes : Nat)
    (fAllowFree : Bool) : Int :=
  let nMinFee := int64 ((1 + nBytes / 1000 : Nat) * nMinTxFee)
  let nMinFee := if fAllowFree ∧ nBytes < 1000 then 0 else nMinFee
  let nMinFee :=
    if nMinFee < nMinTxFee ∧ tx.vout.any (fun txout => decide (txout.nValue < CENT))
    then nMinTxFee else nMinFee
  if MoneyRange nMinFee = false then MAX_MONEY_SATOSHIS else nMinFee

/-! ### The parts of a round -/

/-- The script that the change is paid to. -/
def scriptChange (calls : CreateCalls) (round : Nat) : Create CScript :=
  match calls.destChange with
  | some (.CKeyID keyID) => .ok (SetDestination (.CKeyID keyID))
  | some (.CScriptID scriptID) => .ok (SetDestination (.CScriptID scriptID))
  | _ =>
      match calls.GetReservedKey round with
      | none => .error .noReservedKey
      | some vchPubKey =>
          .ok (SetDestination (.CKeyID (keyIDOf calls.crypto vchPubKey)))

/-- Pay the change to the wallet, at a random position; change that would be
dust goes to the fee. -/
def addChange (calls : CreateCalls) (round : Nat) (vout : List CTxOut)
    (nChange nFeeRet : Int) : Create (List CTxOut × Int) :=
  if 0 < nChange then do
    let script ← scriptChange calls round
    let newTxOut : CTxOut := { nValue := nChange, scriptPubKey := script }
    if newTxOut.IsDust calls.nMinRelayTxFee then
      .ok (vout, int64 (nFeeRet + nChange))
    else
      .ok (vout.insertIdx (calls.random round % (vout.length + 1)) newTxOut,
        nFeeRet)
  else .ok (vout, nFeeRet)

/-- The part of small change that is moved to a small fee. -/
def moveToFee (nMinTxFee nChange nFeeRet : Int) : Int :=
  if nFeeRet < nMinTxFee ∧ 0 < nChange ∧ nChange < CENT then
    min nChange (nMinTxFee - nFeeRet)
  else 0

/-- `CTxIn(coin.first->GetHash(), coin.second)`. -/
def Coin.txin (crypto : Crypto) (coin : Coin) : CTxIn :=
  { prevout := { hash := coin.wtx.GetHash crypto, n := coin.n },
    scriptSig := [], nSequence := UINT_MAX }

/-- The loop that signs the inputs, one coin after the other. -/
def signInputs (crypto : Crypto) (keystore : (nIn : Nat) → CKeyStore) :
    (nIn : Nat) → List Coin → CTransaction → Create CTransaction
  | _, [], wtxNew => .ok wtxNew
  | nIn, coin :: setCoins, wtxNew =>
      match coin.wtx.vout[coin.n]? with
      | none => .error .coinIndex
      | some txout =>
          match SignSignature crypto (keystore nIn) txout.scriptPubKey wtxNew nIn
              SIGHASH_ALL with
          | .error stop => .error (.stopped stop)
          | .ok none => .error (.failed "Signing transaction failed")
          | .ok (some wtxNew) =>
              signInputs crypto keystore (nIn + 1) setCoins wtxNew

/-- One round: the transaction it signs and, when the fee is not enough, the
fee to try next. -/
def createRound (calls : CreateCalls) (vecSend : List (CScript × Int))
    (nValue : Int) (round : Nat) (wtxNew : CTransaction) (nFeeRet : Int) :
    Create (Created × Option Int) := do
  let vout ← payeeOutputs calls.nMinRelayTxFee vecSend
  match calls.SelectCoins round (int64 (nValue + nFeeRet)) with
  | none => .error (.failed "Insufficient funds")
  | some (setCoins, nValueIn) => do
      let nChange := int64 (int64 (nValueIn - nValue) - nFeeRet)
      let nMoveToFee := moveToFee calls.nMinTxFee nChange nFeeRet
      let (vout, nFeeRet) ← addChange calls round vout (nChange - nMoveToFee)
        (nFeeRet + nMoveToFee)
      let vin := setCoins.map (Coin.txin calls.crypto)
      let wtxNew ← signInputs calls.crypto (calls.keystore round) 0 setCoins
        { wtxNew with vin, vout }
      let nBytes := wtxNew.GetSerializeSize
      if MAX_STANDARD_TX_SIZE ≤ nBytes then
        .error (.failed "Transaction too large")
      else
        let nPayFee := int64 (calls.nTransactionFee * (1 + nBytes / 1000 : Nat))
        let nMinFee := GetMinFeeSend calls.nMinTxFee wtxNew nBytes
          (calls.AllowFree round nBytes)
        .ok ({ wtxNew, nFeeRet, setCoins },
          if nFeeRet < max nPayFee nMinFee then some (max nPayFee nMinFee)
          else none)

/-- The `while (true)` of `CreateTransaction`.  The lock time of the transaction
is kept from one round to the next. -/
def createLoop (calls : CreateCalls) (vecSend : List (CScript × Int))
    (nValue : Int) : (fuel round : Nat) → CTransaction → (nFeeRet : Int) →
    Create Created
  | 0, _, _, _ => .error .outOfFuel
  | fuel + 1, round, wtxNew, nFeeRet =>
      match createRound calls vecSend nValue round wtxNew nFeeRet with
      | .error stop => .error stop
      | .ok (created, none) => .ok created
      | .ok (created, some nFeeRet) =>
          createLoop calls vecSend nValue fuel (round + 1) created.wtxNew nFeeRet

/-- `CWallet::CreateTransaction`: an `ok` where it returns true. -/
def CreateTransaction (calls : CreateCalls) (vecSend : List (CScript × Int))
    (wtxNew : CTransaction) (fuel : Nat) : Create Created := do
  let nValue ← sumPayees 0 vecSend
  if vecSend = [] ∨ nValue < 0 then
    .error (.failed "Transaction amounts must be positive")
  else createLoop calls vecSend nValue fuel 0 wtxNew calls.nTransactionFee

end Ziftrcoin.Spec
