/-
Module: Ziftrcoin.Spec.WalletCrypt
Purpose: The keys of a wallet, plain or encrypted, the master keys that protect
  them, and the calls that encrypt, lock and unlock the wallet.
Trusted boundary: human-reviewed model of CCrypter, EncryptSecret, DecryptSecret
  and CCryptoKeyStore in src/crypter.cpp, of CKey::Check and CKey::Set, and of
  AddKeyPubKey, Unlock, ChangeWalletPassphrase, EncryptWallet and NewKeyPool in
  src/wallet.cpp; the cipher, the derivation of keys, random bytes and the clock
  are parameters, and writes to the database succeed
Main exports: CKey, KeyCrypto, CMasterKey
-/
import Mathlib.Tactic.Linarith.Parsing
import Ziftrcoin.Spec.Bytes

namespace Ziftrcoin.Spec

abbrev uint160 := Nat

/-! ### Private keys -/

/-- The largest private key. -/
def vchMax : valtype :=
  [0xFF, 0xFF, 0xFF, 0xFF, 0xFF, 0xFF, 0xFF, 0xFF, 0xFF, 0xFF, 0xFF, 0xFF, 0xFF, 0xFF, 0xFF, 0xFE,
    0xBA, 0xAE, 0xDC, 0xE6, 0xAF, 0x48, 0xA0, 0x3B, 0xBF, 0xD2, 0x5E, 0x8C, 0xD0, 0x36, 0x41, 0x40]

/-- The loop of `CKey::Check`: the first byte that differs decides. -/
def checkLoop : (vch vchMax : valtype) → Bool
  | v :: vch, m :: vchMax => if v < m then true else if m < v then false else checkLoop vch vchMax
  | _, _ => true

/-- `CKey::Check`: the bytes are a private key in the range of the curve. -/
def CheckKey (vch : valtype) : Bool := vch.any (· != 0) && checkLoop vch vchMax

/-- A private key that is valid. -/
structure CKey where
  vch : valtype
  fCompressed : Bool
  size : vch.length = 32
  valid : CheckKey vch = true
deriving DecidableEq

/-- `CKey::Set`; `none` is a key that is not valid. -/
def CKey.Set (vch : valtype) (fCompressed : Bool) : Option CKey :=
  if h : vch.length = 32 ∧ CheckKey vch = true then
    some { vch, fCompressed, size := h.1, valid := h.2 }
  else none

def WALLET_CRYPTO_KEY_SIZE : Nat := 32

def WALLET_CRYPTO_SALT_SIZE : Nat := 8

/-- What OpenSSL does for the wallet. -/
structure KeyCrypto where
  GetPubKey : CKey → valtype
  /-- `CPubKey::GetID`. -/
  GetID : valtype → uint160
  /-- `CPubKey::GetHash`. -/
  GetHash : valtype → uint256
  /-- The size of the key it derives, the key and the initialisation vector. -/
  EVP_BytesToKey : (strKeyData chSalt : valtype) → (nRounds : Nat) → Nat × valtype × valtype
  EVP_Encrypt : (chKey chIV vchPlaintext : valtype) → valtype
  /-- Decrypting fails on wrong padding. -/
  EVP_Decrypt : (chKey chIV vchCiphertext : valtype) → Option valtype

/-- `CPubKey::IsCompressed`. -/
def IsCompressedPubKey (vchPubKey : valtype) : Bool := vchPubKey.length == 33

structure CMasterKey where
  vchCryptedKey : valtype := []
  vchSalt : valtype := []
  nDerivationMethod : Nat := 0
  nDeriveIterations : Nat := 25000
deriving Repr, DecidableEq

/-- The part of a wallet that concerns its keys. -/
structure CWallet where
  mapKeys : Std.TreeMap uint160 CKey
  mapCryptedKeys : Std.TreeMap uint160 (valtype × valtype)
  vMasterKey : valtype
  fUseCrypto : Bool
  fFileBacked : Bool
  mapMasterKeys : Std.TreeMap Nat CMasterKey
  nMasterKeyMaxID : Nat

section Crypter

variable (c : KeyCrypto)

/-! ### Encrypting with a passphrase and with a master key -/

/-- `CCrypter::SetKeyFromPassphrase`: the key and the initialisation vector. -/
def SetKeyFromPassphrase (strKeyData chSalt : valtype) (nRounds nDerivationMethod : Nat) :
    Option (valtype × valtype) :=
  if nRounds < 1 ∨ chSalt.length ≠ WALLET_CRYPTO_SALT_SIZE then none
  else if nDerivationMethod = 0 then
    let (i, chKey, chIV) := c.EVP_BytesToKey strKeyData chSalt nRounds
    if i = WALLET_CRYPTO_KEY_SIZE then some (chKey, chIV) else none
  else none

def EncryptSecret (vMasterKey vchPlaintext : valtype) (nIV : uint256) : Option valtype :=
  if vMasterKey.length = WALLET_CRYPTO_KEY_SIZE then
    some (c.EVP_Encrypt vMasterKey (leBytes WALLET_CRYPTO_KEY_SIZE nIV) vchPlaintext)
  else none

def DecryptSecret (vMasterKey vchCiphertext : valtype) (nIV : uint256) : Option valtype :=
  if vMasterKey.length = WALLET_CRYPTO_KEY_SIZE then
    c.EVP_Decrypt vMasterKey (leBytes WALLET_CRYPTO_KEY_SIZE nIV) vchCiphertext
  else none

namespace CWallet

/-! ### CCryptoKeyStore -/

def SetCrypted (w : CWallet) : Bool × CWallet :=
  if w.fUseCrypto then (true, w)
  else if !w.mapKeys.isEmpty then (false, w)
  else (true, { w with fUseCrypto := true })

def IsLocked (w : CWallet) : Bool := w.fUseCrypto && w.vMasterKey.isEmpty

def Lock (w : CWallet) : Bool × CWallet :=
  match w.SetCrypted with
  | (false, w) => (false, w)
  | (true, w) => (true, { w with vMasterKey := [] })

/-- `CCryptoKeyStore::Unlock`.  Only the first key is tried.  `none`: the assertion
in `CKey::GetPubKey` fails, which ends the program. -/
def UnlockKeyStore (w : CWallet) (vMasterKeyIn : valtype) : Option (Bool × CWallet) :=
  match w.SetCrypted with
  | (false, w) => some (false, w)
  | (true, w) =>
      match w.mapCryptedKeys.toList.head? with
      | none => some (true, { w with vMasterKey := vMasterKeyIn })
      | some (_, vchPubKey, vchCryptedSecret) =>
          match DecryptSecret c vMasterKeyIn vchCryptedSecret (c.GetHash vchPubKey) with
          | none => some (false, w)
          | some vchSecret =>
              if vchSecret.length ≠ 32 then some (false, w)
              else
                match CKey.Set vchSecret (IsCompressedPubKey vchPubKey) with
                | none => none
                | some key =>
                    if c.GetPubKey key = vchPubKey then
                      some (true, { w with vMasterKey := vMasterKeyIn })
                    else some (false, w)

def AddCryptedKey (w : CWallet) (vchPubKey vchCryptedSecret : valtype) : Bool × CWallet :=
  match w.SetCrypted with
  | (false, w) => (false, w)
  | (true, w) => (true, { w with
      mapCryptedKeys := w.mapCryptedKeys.insert (c.GetID vchPubKey) (vchPubKey, vchCryptedSecret) })

def AddKeyPubKey (w : CWallet) (key : CKey) (pubkey : valtype) : Bool × CWallet :=
  if !w.fUseCrypto then (true, { w with mapKeys := w.mapKeys.insert (c.GetID pubkey) key })
  else if w.IsLocked then (false, w)
  else
    match EncryptSecret c w.vMasterKey key.vch (c.GetHash pubkey) with
    | none => (false, w)
    | some vchCryptedSecret => w.AddCryptedKey c pubkey vchCryptedSecret

/-- The result is the key that is handed out; the inner `none` is one that is not
valid. -/
def GetKey (w : CWallet) (address : uint160) : Option (Option CKey) :=
  if !w.fUseCrypto then w.mapKeys[address]?.map some
  else
    match w.mapCryptedKeys[address]? with
    | none => none
    | some (vchPubKey, vchCryptedSecret) =>
        match DecryptSecret c w.vMasterKey vchCryptedSecret (c.GetHash vchPubKey) with
        | none => none
        | some vchSecret =>
            if vchSecret.length ≠ 32 then none
            else some (CKey.Set vchSecret (IsCompressedPubKey vchPubKey))

/-- The loop of `EncryptKeys`. -/
def encryptLoop (vMasterKeyIn : valtype) : List (uint160 × CKey) → CWallet → Bool × CWallet
  | [], w => (true, w)
  | (_, key) :: rest, w =>
      let vchPubKey := c.GetPubKey key
      match EncryptSecret c vMasterKeyIn key.vch (c.GetHash vchPubKey) with
      | none => (false, w)
      | some vchCryptedSecret =>
          match w.AddCryptedKey c vchPubKey vchCryptedSecret with
          | (false, w) => (false, w)
          | (true, w) => encryptLoop vMasterKeyIn rest w

def EncryptKeys (w : CWallet) (vMasterKeyIn : valtype) : Bool × CWallet :=
  if !w.mapCryptedKeys.isEmpty || w.fUseCrypto then (false, w)
  else
    match encryptLoop c vMasterKeyIn w.mapKeys.toList { w with fUseCrypto := true } with
    | (false, w) => (false, w)
    | (true, w) => (true, { w with mapKeys := ∅ })

/-! ### Passphrases -/

/-- The loop of `CWallet::Unlock` over the master keys. -/
def unlockLoop (strWalletPassphrase : valtype) :
    List (Nat × CMasterKey) → CWallet → Option (Bool × CWallet)
  | [], w => some (false, w)
  | (_, kMasterKey) :: rest, w =>
      match SetKeyFromPassphrase c strWalletPassphrase kMasterKey.vchSalt
          kMasterKey.nDeriveIterations kMasterKey.nDerivationMethod with
      | none => some (false, w)
      | some (chKey, chIV) =>
          match c.EVP_Decrypt chKey chIV kMasterKey.vchCryptedKey with
          | none => unlockLoop strWalletPassphrase rest w
          | some vMasterKey =>
              match w.UnlockKeyStore c vMasterKey with
              | none => none
              | some (true, w) => some (true, w)
              | some (false, w) => unlockLoop strWalletPassphrase rest w

def Unlock (strWalletPassphrase : valtype) (w : CWallet) : Option (Bool × CWallet) :=
  unlockLoop c strWalletPassphrase w.mapMasterKeys.toList w

/-- The number of iterations that the clock suggests, but not too few. -/
def deriveIterations (measured : Nat) : Nat := if measured < 25000 then 25000 else measured

/-- The loop of `ChangeWalletPassphrase` over the master keys. -/
def changeLoop (strOldWalletPassphrase strNewWalletPassphrase : valtype) (measured : Nat)
    (fWasLocked : Bool) : List (Nat × CMasterKey) → CWallet → Option (Bool × CWallet)
  | [], w => some (false, w)
  | (nID, kMasterKey) :: rest, w =>
      match SetKeyFromPassphrase c strOldWalletPassphrase kMasterKey.vchSalt
          kMasterKey.nDeriveIterations kMasterKey.nDerivationMethod with
      | none => some (false, w)
      | some (chKey, chIV) =>
          match c.EVP_Decrypt chKey chIV kMasterKey.vchCryptedKey with
          -- no other master key is tried
          | none => some (false, w)
          | some vMasterKey =>
              match w.UnlockKeyStore c vMasterKey with
              | none => none
              | some (false, w) =>
                  changeLoop strOldWalletPassphrase strNewWalletPassphrase measured fWasLocked
                    rest w
              | some (true, w) =>
                  let kMasterKey := { kMasterKey with
                    nDeriveIterations := deriveIterations measured }
                  match SetKeyFromPassphrase c strNewWalletPassphrase kMasterKey.vchSalt
                      kMasterKey.nDeriveIterations kMasterKey.nDerivationMethod with
                  | none =>
                      some (false, { w with
                        mapMasterKeys := w.mapMasterKeys.insert nID kMasterKey })
                  | some (chKey, chIV) =>
                      let kMasterKey := { kMasterKey with
                        vchCryptedKey := c.EVP_Encrypt chKey chIV vMasterKey }
                      let w := { w with mapMasterKeys := w.mapMasterKeys.insert nID kMasterKey }
                      some (true, if fWasLocked then w.Lock.2 else w)

def ChangeWalletPassphrase (strOldWalletPassphrase strNewWalletPassphrase : valtype)
    (measured : Nat) (w : CWallet) : Option (Bool × CWallet) :=
  changeLoop c strOldWalletPassphrase strNewWalletPassphrase measured w.IsLocked
    w.mapMasterKeys.toList w.Lock.2

/-- The keys of a new pool; `none`: `GenerateNewKey` throws. -/
def newKeyLoop : List CKey → CWallet → Option CWallet
  | [], w => some w
  | key :: rest, w =>
      match w.AddKeyPubKey c key (c.GetPubKey key) with
      | (false, _) => none
      | (true, w) => newKeyLoop rest w

/-- `NewKeyPool` with the keys that it generates; the result has those that it
adds. -/
def NewKeyPool (generated : List CKey) (w : CWallet) : Option (List CKey × CWallet) :=
  if w.IsLocked then some ([], w) else (newKeyLoop c generated w).map fun w => (generated, w)

/-- What a call of `EncryptWallet` finds: random bytes, the clock, the results of
the database, and the keys that `NewKeyPool` generates. -/
structure Draws where
  vMasterKey : valtype
  vchSalt : valtype
  measured : Nat
  TxnBegin : Bool
  TxnCommit : Bool
  generated : List CKey

/-- The rest of `EncryptWallet`, once the keys are encrypted. -/
def finishEncrypting (strWalletPassphrase : valtype) (generated : List CKey) (w : CWallet) :
    Option (Bool × List CKey × CWallet) :=
  match Unlock c strWalletPassphrase w.Lock.2 with
  | none => none
  | some (_, w) =>
      (NewKeyPool c generated w).map fun (pool, w) => (true, pool, w.Lock.2)

/-- `EncryptWallet`, with the keys of the new pool; `none`: the program ends. -/
def EncryptWallet (strWalletPassphrase : valtype) (draws : Draws) (w : CWallet) :
    Option (Bool × List CKey × CWallet) :=
  if w.fUseCrypto then some (false, [], w)
  else
    let nDeriveIterations := deriveIterations draws.measured
    match SetKeyFromPassphrase c strWalletPassphrase draws.vchSalt nDeriveIterations 0 with
    | none => some (false, [], w)
    | some (chKey, chIV) =>
        let kMasterKey : CMasterKey :=
          { vchCryptedKey := c.EVP_Encrypt chKey chIV draws.vMasterKey
            vchSalt := draws.vchSalt
            nDeriveIterations }
        let nID := uint32 (w.nMasterKeyMaxID + 1)
        let w := { w with
          nMasterKeyMaxID := nID, mapMasterKeys := w.mapMasterKeys.insert nID kMasterKey }
        if w.fFileBacked && !draws.TxnBegin then some (false, [], w)
        else
          match w.EncryptKeys c draws.vMasterKey with
          | (false, _) => none
          | (true, w) =>
              if w.fFileBacked && !draws.TxnCommit then none
              else finishEncrypting c strWalletPassphrase draws.generated w

end CWallet
end Crypter

/-! ### Runs -/

inductive WalletCall where
  | AddKeyPubKey (key : CKey)
  | EncryptWallet (strWalletPassphrase : valtype) (draws : CWallet.Draws)
  | Lock
  | Unlock (strWalletPassphrase : valtype)
  | ChangeWalletPassphrase (strOldWalletPassphrase strNewWalletPassphrase : valtype)
      (measured : Nat)

/-- A wallet, the passphrase that the last successful call has set, and all keys
that were ever added. -/
structure WalletHistory where
  wallet : CWallet
  passphrase : Option valtype
  added : List CKey

/-- A new wallet with its first key. -/
def WalletHistory.start (c : KeyCrypto) (fFileBacked : Bool) (key : CKey) : WalletHistory :=
  { wallet :=
      { mapKeys := (∅ : Std.TreeMap uint160 CKey).insert (c.GetID (c.GetPubKey key)) key
        mapCryptedKeys := ∅
        vMasterKey := []
        fUseCrypto := false
        fFileBacked
        mapMasterKeys := ∅
        nMasterKeyMaxID := 0 }
    passphrase := none
    added := [key] }

/-- One call; `none`: the program ends in it. -/
def WalletHistory.call (c : KeyCrypto) (h : WalletHistory) : WalletCall → Option WalletHistory
  | .AddKeyPubKey key =>
      let (added, wallet) := h.wallet.AddKeyPubKey c key (c.GetPubKey key)
      some { h with wallet, added := if added then key :: h.added else h.added }
  | .EncryptWallet strWalletPassphrase draws =>
      (h.wallet.EncryptWallet c strWalletPassphrase draws).map fun (encrypted, pool, wallet) =>
        { wallet
          passphrase := if encrypted then some strWalletPassphrase else h.passphrase
          added := pool ++ h.added }
  | .Lock => some { h with wallet := h.wallet.Lock.2 }
  | .Unlock strWalletPassphrase =>
      (h.wallet.Unlock c strWalletPassphrase).map fun (_, wallet) => { h with wallet }
  | .ChangeWalletPassphrase strOldWalletPassphrase strNewWalletPassphrase measured =>
      (h.wallet.ChangeWalletPassphrase c strOldWalletPassphrase strNewWalletPassphrase
        measured).map fun (changed, wallet) =>
          { h with wallet, passphrase := if changed then some strNewWalletPassphrase
            else h.passphrase }

end Ziftrcoin.Spec
