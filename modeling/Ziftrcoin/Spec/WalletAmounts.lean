/-
Module: Ziftrcoin.Spec.WalletAmounts
Purpose: What a transaction takes out of the wallet and brings into it, as a whole and
  for each account.
Trusted boundary: human-reviewed model of IsMine for a destination in src/script.cpp,
  of GetDebit and GetCredit in src/wallet.h, and of IsChange, GetAmounts and
  GetAccountAmounts in src/wallet.cpp.  The sums that a transaction of the wallet
  caches are not modelled.
Main exports: WalletBook, AccountTx, IsMineDestination
-/
import Ziftrcoin.Spec.Addresses

namespace Ziftrcoin.Spec

/-- What the wallet looks up for the amounts of a transaction. -/
structure WalletBook where
  crypto : Crypto
  keystore : CKeyStore
  /-- How deep the script hashes of the key store lead. -/
  depth : Nat
  ends : ∀ scriptPubKey, (IsMine crypto keystore depth scriptPubKey).isSome = true
  mapWallet : uint256 → Option CTransaction
  /-- The names of the addresses. -/
  mapAddressBook : CTxDestination → Option String

/-- A transaction of the wallet. -/
structure AccountTx where
  tx : CTransaction
  strFromAccount : String
deriving Repr, DecidableEq

/-- What `GetAmounts` returns. -/
structure TxAmounts where
  listReceived : List (CTxDestination × Int)
  listSent : List (CTxDestination × Int)
  nFee : Int
  strSentAccount : String
deriving Repr, DecidableEq

/-- What `GetAccountAmounts` returns. -/
structure AccountAmounts where
  nReceived : Int
  nSent : Int
  nFee : Int
deriving Repr, DecidableEq

/-- `IsMine` for a destination. -/
def IsMineDestination (keystore : CKeyStore) : CTxDestination → Bool
  | .CNoDestination => false
  | .CKeyID keyID => keystore.HaveKey keyID
  | .CScriptID scriptID => (keystore.GetCScript scriptID).isSome

namespace WalletBook

variable (wallet : WalletBook)

/-- `IsMine` for an output. -/
def IsMine (txout : CTxOut) : Bool :=
  (Spec.IsMine wallet.crypto wallet.keystore wallet.depth txout.scriptPubKey).getD false

/-- `ExtractDestination` for the script of an output. -/
def destination (txout : CTxOut) : Option CTxDestination :=
  ExtractDestination wallet.crypto txout.scriptPubKey

/-! ### The wallet as a whole -/

/-- `GetDebit` for an input. -/
def GetDebitIn (txin : CTxIn) : Int :=
  match wallet.mapWallet txin.prevout.hash with
  | none => 0
  | some prev =>
      match prev.vout[txin.prevout.n]? with
      | none => 0
      | some txout => if wallet.IsMine txout then txout.nValue else 0

/-- The loop of `GetDebit`; `none` is the `runtime_error` it throws. -/
def getDebitFrom : (nDebit : Int) → List CTxIn → Option Int
  | nDebit, [] => some nDebit
  | nDebit, txin :: rest =>
      let nDebit := int64 (nDebit + wallet.GetDebitIn txin)
      if MoneyRange nDebit = false then none else getDebitFrom nDebit rest

def GetDebit (tx : CTransaction) : Option Int :=
  wallet.getDebitFrom 0 tx.vin

/-- The loop of `GetCredit`; `none` is the `runtime_error` that it throws, or that
`GetCredit` for an output throws. -/
def getCreditFrom : (nCredit : Int) → List CTxOut → Option Int
  | nCredit, [] => some nCredit
  | nCredit, txout :: rest =>
      if MoneyRange txout.nValue = false then none
      else
        let nCredit := int64 (nCredit + if wallet.IsMine txout then txout.nValue else 0)
        if MoneyRange nCredit = false then none else getCreditFrom nCredit rest

def GetCredit (tx : CTransaction) : Option Int :=
  wallet.getCreditFrom 0 tx.vout

/-! ### The accounts -/

/-- `IsChange`. -/
def IsChange (txout : CTxOut) : Bool :=
  match wallet.destination txout with
  | none => false
  | some address =>
      IsMineDestination wallet.keystore address && (wallet.mapAddressBook address).isNone

/-- The loop of `GetAmounts`: what is received and what is sent. -/
def listAmounts (nDebit : Int) :
    List CTxOut → List (CTxDestination × Int) × List (CTxDestination × Int)
  | [] => ([], [])
  | txout :: vout =>
      let rest := listAmounts nDebit vout
      let fIsMine := wallet.IsMine txout
      -- change is not reported, nor what has nothing to do with the wallet
      if (if 0 < nDebit then wallet.IsChange txout else !fIsMine) then rest
      else
        let address := (wallet.destination txout).getD .CNoDestination
        (if fIsMine then (address, txout.nValue) :: rest.1 else rest.1,
          if 0 < nDebit then (address, txout.nValue) :: rest.2 else rest.2)

/-- `GetAmounts`; `none` where `GetDebit` or `GetValueOut` throws. -/
def GetAmounts (wtx : AccountTx) : Option TxAmounts :=
  match wallet.GetDebit wtx.tx with
  | none => none
  | some nDebit =>
      let lists := wallet.listAmounts nDebit wtx.tx.vout
      if 0 < nDebit then
        match wtx.tx.GetValueOut with
        | none => none
        | some nValueOut =>
            some ⟨lists.1, lists.2, int64 (nDebit - nValueOut), wtx.strFromAccount⟩
      else some ⟨lists.1, lists.2, 0, wtx.strFromAccount⟩

/-- Whether what an address receives is put down to the account: unnamed addresses are
the empty account's. -/
def receivesFor (strAccount : String) (address : CTxDestination) : Bool :=
  match wallet.mapAddressBook address with
  | some name => name == strAccount
  | none => strAccount == ""

/-- `nSum += amount` for each of the amounts. -/
def addUp (amounts : List (CTxDestination × Int)) : Int :=
  amounts.foldl (fun nSum amount => int64 (nSum + amount.2)) 0

/-- `GetAccountAmounts`. -/
def GetAccountAmounts (wtx : AccountTx) (strAccount : String) : Option AccountAmounts :=
  match wallet.GetAmounts wtx with
  | none => none
  | some amounts =>
      let nReceived :=
        addUp (amounts.listReceived.filter fun r => wallet.receivesFor strAccount r.1)
      if strAccount = amounts.strSentAccount then
        some ⟨nReceived, addUp amounts.listSent, amounts.nFee⟩
      else some ⟨nReceived, 0, 0⟩

end WalletBook

end Ziftrcoin.Spec
