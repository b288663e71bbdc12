/-
Module: Ziftrcoin.Spec.Addresses
Purpose: Which scripts are the wallet's own and where they pay to, and destinations and
  private keys as text.
Trusted boundary: human-reviewed model of HaveKeys, IsMine, ExtractDestination and
  ExtractDestinations in src/script.cpp, of CBase58Data, CBitcoinAddress and CBitcoinSecret
  in src/base58.cpp and of the prefixes in src/chainparams.cpp
Main exports: HaveKeys, IsMine, ExtractDestination
-/
import Ziftrcoin.Spec.Base58
import Ziftrcoin.Spec.CreateTransaction
import Ziftrcoin.Spec.Validation
import Ziftrcoin.Spec.WalletCrypt

namespace Ziftrcoin.Spec

/-- `HaveKey`: locked or not, a key store knows the public key of every key it has. -/
def CKeyStore.HaveKey (keystore : CKeyStore) (address : CKeyID) : Bool :=
  (keystore.GetPubKey address).isSome

def HaveKeys (crypto : Crypto) (pubkeys : List valtype) (keystore : CKeyStore) : Nat :=
  pubkeys.countP fun pubkey => keystore.HaveKey (keyIDOf crypto pubkey)

/-- `IsMine`.  A script hash is mine when its script is: the recursion goes from script to
script of the key store, and `none` stands for one that has not ended. -/
def IsMine (crypto : Crypto) (keystore : CKeyStore) :
    (fuel : Nat) → (scriptPubKey : CScript) → Option Bool
  | 0, _ => none
  | fuel + 1, scriptPubKey =>
      match Solver scriptPubKey with
      | none => some false
      | some (whichType, vSolutions) =>
          let vSolutions := undelayedSolutions whichType vSolutions
          match whichType.undelayed with
          | .TX_PUBKEY => some (keystore.HaveKey (keyIDOf crypto (vSolutions.headD [])))
          | .TX_PUBKEYHASH => some (keystore.HaveKey (vSolutions.headD []))
          | .TX_SCRIPTHASH =>
              match keystore.GetCScript (vSolutions.headD []) with
              | none => some false
              | some subscript => IsMine crypto keystore fuel subscript
          | .TX_MULTISIG =>
              -- all the keys, without the numbers in front and behind
              let keys := (vSolutions.drop 1).dropLast
              some (HaveKeys crypto keys keystore == keys.length)
          | _ => some false

/-- `ExtractDestination`. -/
def ExtractDestination (crypto : Crypto) (scriptPubKey : CScript) : Option CTxDestination :=
  match Solver scriptPubKey with
  | none => none
  | some (whichType, vSolutions) =>
      let vSolutions := undelayedSolutions whichType vSolutions
      match whichType.undelayed with
      | .TX_PUBKEY => some (.CKeyID (keyIDOf crypto (vSolutions.headD [])))
      | .TX_PUBKEYHASH => some (.CKeyID (vSolutions.headD []))
      | .TX_SCRIPTHASH => some (.CScriptID (vSolutions.headD []))
      | _ => none

/-- `ExtractDestinations`: the type, the addresses and the number of signatures; `none`
where it returns false. -/
def ExtractDestinations (crypto : Crypto) (scriptPubKey : CScript) :
    Option (txnouttype × List CTxDestination × Int) :=
  match Solver scriptPubKey with
  | none => none
  | some (typeRet, vSolutions) =>
      if typeRet = .TX_NULL_DATA then none
      else
        let vSolutions := undelayedSolutions typeRet vSolutions
        if typeRet.undelayed = .TX_MULTISIG then
          let keys := (vSolutions.drop 1).dropLast
          some (typeRet, keys.map fun key => .CKeyID (keyIDOf crypto key),
            ((vSolutions.headD []).headD 0).toNat)
        else
          match ExtractDestination crypto scriptPubKey with
          | none => none
          | some address => some (typeRet, [address], 1)

/-! ### Text with a version -/

inductive Base58Type where
  | PUBKEY_ADDRESS
  | SCRIPT_ADDRESS
  | SECRET_KEY
  | EXT_PUBLIC_KEY
  | EXT_SECRET_KEY
deriving Repr, DecidableEq

/-- `base58Prefixes`; the regression test has those of the test network. -/
def Base58Prefix : Network → Base58Type → valtype
  | .MAIN, .PUBKEY_ADDRESS => [80]
  | .MAIN, .SCRIPT_ADDRESS => [5]
  | .MAIN, .SECRET_KEY => [208]
  | .MAIN, .EXT_PUBLIC_KEY => [0x04, 0x88, 0xB2, 0x1E]
  | .MAIN, .EXT_SECRET_KEY => [0x04, 0x88, 0xAD, 0xE4]
  | _, .PUBKEY_ADDRESS => [111]
  | _, .SCRIPT_ADDRESS => [196]
  | _, .SECRET_KEY => [239]
  | _, .EXT_PUBLIC_KEY => [0x04, 0x35, 0x87, 0xCF]
  | _, .EXT_SECRET_KEY => [0x04, 0x35, 0x83, 0x94]

structure CBase58Data where
  vchVersion : valtype
  vchData : valtype
deriving Repr, DecidableEq, Inhabited

namespace CBase58Data

/-- The constructor. -/
def empty : CBase58Data := { vchVersion := [], vchData := [] }

/-- `CBase58Data::SetString`: what it returns and the object; `none` when an assertion
fails. -/
def SetString (Hash : valtype → uint256) (psz : CString) (nVersionBytes : Nat) :
    Option (Bool × CBase58Data) :=
  match DecodeBase58Check Hash psz [] with
  | none => none
  | some (rc58, vchTemp) =>
      if rc58 = false ∨ vchTemp.length < nVersionBytes then some (false, empty)
      else
        some (true, { vchVersion := vchTemp.take nVersionBytes,
                      vchData := vchTemp.drop nVersionBytes })

/-- `CBase58Data::ToString`; `none` when an assertion fails. -/
def ToString (Hash : valtype → uint256) (data : CBase58Data) : Option CString :=
  EncodeBase58Check Hash (data.vchVersion ++ data.vchData)

end CBase58Data

/-! ### Addresses -/

namespace CBitcoinAddress

/-- `CBitcoinAddress::Set`: what it returns and the object. -/
def Set (net : Network) (addr : CBase58Data) : CTxDestination → Bool × CBase58Data
  | .CKeyID id => (true, { vchVersion := Base58Prefix net .PUBKEY_ADDRESS, vchData := id })
  | .CScriptID id => (true, { vchVersion := Base58Prefix net .SCRIPT_ADDRESS, vchData := id })
  | .CNoDestination => (false, addr)

def IsValid (net : Network) (addr : CBase58Data) : Bool :=
  addr.vchData.length == 20 &&
    (addr.vchVersion == Base58Prefix net .PUBKEY_ADDRESS ||
      addr.vchVersion == Base58Prefix net .SCRIPT_ADDRESS)

def Get (net : Network) (addr : CBase58Data) : CTxDestination :=
  if IsValid net addr = false then .CNoDestination
  else if addr.vchVersion = Base58Prefix net .PUBKEY_ADDRESS then .CKeyID addr.vchData
  else if addr.vchVersion = Base58Prefix net .SCRIPT_ADDRESS then .CScriptID addr.vchData
  else .CNoDestination

end CBitcoinAddress

namespace CBitcoinSecret

def SetKey (net : Network) (vchSecret : CKey) : CBase58Data :=
  { vchVersion := Base58Prefix net .SECRET_KEY
    vchData := vchSecret.vch ++ if vchSecret.fCompressed then [1] else [] }

/-- `CBitcoinSecret::GetKey`, for data of at least 32 bytes: the code looks no further
behind than that; `none` is a key that is not valid. -/
def GetKey (secret : CBase58Data) : Option CKey :=
  CKey.Set (secret.vchData.take 32)
    (decide (32 < secret.vchData.length) && secret.vchData.getD 32 0 == 1)

def IsValid (net : Network) (secret : CBase58Data) : Bool :=
  (secret.vchData.length == 32 ||
      secret.vchData.length == 33 && secret.vchData.getD 32 0 == 1) &&
    secret.vchVersion == Base58Prefix net .SECRET_KEY

/-- `CBitcoinSecret::SetString`. -/
def SetString (Hash : valtype → uint256) (net : Network) (psz : CString) :
    Option (Bool × CBase58Data) :=
  (CBase58Data.SetString Hash psz 1).map fun r => (r.1 && IsValid net r.2, r.2)

end CBitcoinSecret

end Ziftrcoin.Spec
