/-
Module: Ziftrcoin.Spec.WalletFailures
Purpose: The encryption of a wallet and the change of its passphrase when any call
  of the cipher or of the database may report failure.
Trusted boundary: human-reviewed model of EncryptWallet, ChangeWalletPassphrase and
  AddCryptedKey in src/wallet.cpp, over the model of src/crypter.cpp, and of
  WalletModel::getEncryptionStatus; which calls fail is a parameter
Main exports: Faults, FileWallet, Faults.EncryptWallet
-/
import Ziftrcoin.Spec.WalletCrypt

namespace Ziftrcoin.Spec

/-- The calls that report failure.  A failed `Encrypt` leaves something in its
buffer. -/
structure Faults where
  primitive : Nat → Bool
  leftover : Nat → valtype
  database : Nat → Bool

/-- A wallet with the database that it is encrypted to, or `false` for `NULL`. -/
structure FileWallet extends CWallet where
  pwalletdbEncryption : Bool

/-- `WalletModel::EncryptionStatus`. -/
inductive EncryptionStatus where
  | Unencrypted
  | Locked
  | Unlocked
deriving Repr, DecidableEq

def CWallet.getEncryptionStatus (w : CWallet) : EncryptionStatus :=
  if !w.fUseCrypto then .Unencrypted else if w.IsLocked then .Locked else .Unlocked

/-- Nothing that a failed call is to leave alone differs, and every passphrase opens
the wallet that opened it before. -/
structure Unchanged (c : KeyCrypto) (w w' : FileWallet) : Prop where
  mapMasterKeys : ∀ nID : Nat, w'.mapMasterKeys[nID]? = w.mapMasterKeys[nID]?
  nMasterKeyMaxID : w'.nMasterKeyMaxID = w.nMasterKeyMaxID
  pwalletdbEncryption : w'.pwalletdbEncryption = w.pwalletdbEncryption
  mapKeys : w'.mapKeys = w.mapKeys
  mapCryptedKeys : w'.mapCryptedKeys = w.mapCryptedKeys
  status : w'.getEncryptionStatus = w.getEncryptionStatus
  unlocks : ∀ strWalletPassphrase,
    (w'.toCWallet.Unlock c strWalletPassphrase).map Prod.fst =
      (w.toCWallet.Unlock c strWalletPassphrase).map Prod.fst

namespace Faults

/-- No call fails. -/
def never : Faults where
  primitive _ := false
  leftover _ := []
  database _ := false

variable (c : KeyCrypto) (f : Faults)

/-! ### The primitives -/

/-- The cipher as the `n`-th call finds it. -/
def crypto (n : Nat) : KeyCrypto :=
  if f.primitive n then
    { c with EVP_BytesToKey := fun _ _ _ => (0, [], []), EVP_Decrypt := fun _ _ _ => none }
  else c

/-- `CCrypter::Encrypt`: whether it succeeds, and its buffer. -/
def Encrypt (n : Nat) (chKey chIV vchPlaintext : valtype) : Bool × valtype :=
  if f.primitive n then (false, f.leftover n) else (true, c.EVP_Encrypt chKey chIV vchPlaintext)

def EncryptSecret (n : Nat) (vMasterKey vchPlaintext : valtype) (nIV : uint256) :
    Option valtype :=
  if f.primitive n then none else Spec.EncryptSecret c vMasterKey vchPlaintext nIV

/-- `CWallet::AddCryptedKey`, which also writes the key to the file. -/
def AddCryptedKey (n : Nat) (w : CWallet) (vchPubKey vchCryptedSecret : valtype) :
    Bool × CWallet :=
  match w.AddCryptedKey c vchPubKey vchCryptedSecret with
  | (false, w) => (false, w)
  | (true, w) => (!(w.fFileBacked && f.database n), w)

/-! ### Keys -/

def encryptLoop (vMasterKeyIn : valtype) :
    List (uint160 × CKey) → (n : Nat) → CWallet → Bool × CWallet
  | [], _, w => (true, w)
  | (_, key) :: rest, n, w =>
      let vchPubKey := c.GetPubKey key
      match f.EncryptSecret c n vMasterKeyIn key.vch (c.GetHash vchPubKey) with
      | none => (false, w)
      | some vchCryptedSecret =>
          match f.AddCryptedKey c n w vchPubKey vchCryptedSecret with
          | (false, w) => (false, w)
          | (true, w) => encryptLoop vMasterKeyIn rest (n + 1) w

def EncryptKeys (n : Nat) (w : CWallet) (vMasterKeyIn : valtype) : Bool × CWallet :=
  if !w.mapCryptedKeys.isEmpty || w.fUseCrypto then (false, w)
  else
    match encryptLoop c f vMasterKeyIn w.mapKeys.toList n { w with fUseCrypto := true } with
    | (false, w) => (false, w)
    | (true, w) => (true, { w with mapKeys := ∅ })

def AddKeyPubKey (n : Nat) (w : CWallet) (key : CKey) (pubkey : valtype) : Bool × CWallet :=
  if !w.fUseCrypto then
    -- the key is kept even when it cannot be written
    (!(w.fFileBacked && f.database n), (w.AddKeyPubKey c key pubkey).2)
  else if w.IsLocked then (false, w)
  else
    match f.EncryptSecret c n w.vMasterKey key.vch (c.GetHash pubkey) with
    | none => (false, w)
    | some vchCryptedSecret => f.AddCryptedKey c n w pubkey vchCryptedSecret

def newKeyLoop : List CKey → (n : Nat) → CWallet → Option CWallet
  | [], _, w => some w
  | key :: rest, n, w =>
      match f.AddKeyPubKey c n w key (c.GetPubKey key) with
      | (false, _) => none
      | (true, w) => newKeyLoop rest (n + 1) w

def NewKeyPool (generated : List CKey) (n : Nat) (w : CWallet) : Option (List CKey × CWallet) :=
  if w.IsLocked then some ([], w) else (newKeyLoop c f generated n w).map fun w => (generated, w)

/-! ### Passphrases -/

def unlockLoop (strWalletPassphrase : valtype) :
    List (Nat × CMasterKey) → (n : Nat) → CWallet → Option (Bool × CWallet)
  | [], _, w => some (false, w)
  | (_, kMasterKey) :: rest, n, w =>
      match SetKeyFromPassphrase (f.crypto c n) strWalletPassphrase kMasterKey.vchSalt
          kMasterKey.nDeriveIterations kMasterKey.nDerivationMethod with
      | none => some (false, w)
      | some (chKey, chIV) =>
          match (f.crypto c (n + 1)).EVP_Decrypt chKey chIV kMasterKey.vchCryptedKey with
          | none => unlockLoop strWalletPassphrase rest (n + 3) w
          | some vMasterKey =>
              match w.UnlockKeyStore (f.crypto c (n + 2)) vMasterKey with
              | none => none
              | some (true, w) => some (true, w)
              | some (false, w) => unlockLoop strWalletPassphrase rest (n + 3) w

/-- What `ChangeWalletPassphrase` does with the master key that opens the key
store.  The calls `n` and `n + 1` measure the time; their results are ignored. -/
def rekey (strNewWalletPassphrase : valtype) (measured : Nat) (fWasLocked : Bool)
    (nID : Nat) (kMasterKey : CMasterKey) (vMasterKey : valtype) (n : Nat) (w : CWallet) :
    Bool × CWallet :=
  let kMasterKey := { kMasterKey with nDeriveIterations := CWallet.deriveIterations measured }
  match SetKeyFromPassphrase (f.crypto c (n + 2)) strNewWalletPassphrase kMasterKey.vchSalt
      kMasterKey.nDeriveIterations kMasterKey.nDerivationMethod with
  | none => (false, { w with mapMasterKeys := w.mapMasterKeys.insert nID kMasterKey })
  | some (chKey, chIV) =>
      let (encrypted, vchCryptedKey) := f.Encrypt c (n + 3) chKey chIV vMasterKey
      let kMasterKey := { kMasterKey with vchCryptedKey }
      let w := { w with mapMasterKeys := w.mapMasterKeys.insert nID kMasterKey }
      if !encrypted then (false, w) else (true, if fWasLocked then w.Lock.2 else w)

def changeLoop (strOldWalletPassphrase strNewWalletPassphrase : valtype) (measured : Nat)
    (fWasLocked : Bool) :
    List (Nat × CMasterKey) → (n : Nat) → CWallet → Option (Bool × CWallet)
  | [], _, w => some (false, w)
  | (nID, kMasterKey) :: rest, n, w =>
      match SetKeyFromPassphrase (f.crypto c n) strOldWalletPassphrase kMasterKey.vchSalt
          kMasterKey.nDeriveIterations kMasterKey.nDerivationMethod with
      | none => some (false, w)
      | some (chKey, chIV) =>
          match (f.crypto c (n + 1)).EVP_Decrypt chKey chIV kMasterKey.vchCryptedKey with
          | none => some (false, w)
          | some vMasterKey =>
              match w.UnlockKeyStore (f.crypto c (n + 2)) vMasterKey with
              | none => none
              | some (false, w) =>
                  changeLoop strOldWalletPassphrase strNewWalletPassphrase measured fWasLocked
                    rest (n + 3) w
              | some (true, w) =>
                  some (rekey c f strNewWalletPassphrase measured fWasLocked nID kMasterKey
                    vMasterKey (n + 3) w)

def ChangeWalletPassphrase (strOldWalletPassphrase strNewWalletPassphrase : valtype)
    (measured : Nat) (w : FileWallet) : Option (Bool × FileWallet) :=
  (changeLoop c f strOldWalletPassphrase strNewWalletPassphrase measured w.IsLocked
    w.mapMasterKeys.toList 0 w.Lock.2).map fun (changed, wallet) =>
      (changed, { w with toCWallet := wallet })

def finishEncrypting (strWalletPassphrase : valtype) (generated : List CKey) (n : Nat)
    (w : CWallet) : Option (Bool × List CKey × CWallet) :=
  match unlockLoop c f strWalletPassphrase w.mapMasterKeys.toList n w.Lock.2 with
  | none => none
  | some (_, w) =>
      (NewKeyPool c f generated (n + 3 * w.mapMasterKeys.size) w).map fun (pool, w) =>
        (true, pool, w.Lock.2)

/-- The rest of `EncryptWallet`, once the transaction has begun. -/
def encryptInTransaction (strWalletPassphrase : valtype) (draws : CWallet.Draws)
    (w : FileWallet) : Option (Bool × List CKey × FileWallet) :=
  match f.EncryptKeys c 4 w.toCWallet draws.vMasterKey with
  | (false, _) => none
  | (true, wallet) =>
      if wallet.fFileBacked && !draws.TxnCommit then none
      else
        (finishEncrypting c f strWalletPassphrase draws.generated
          (4 + wallet.mapCryptedKeys.size) wallet).map fun (encrypted, pool, wallet) =>
            (encrypted, pool, .mk wallet (!w.fFileBacked && w.pwalletdbEncryption))

/-- `EncryptWallet`.  The calls 0 and 1 measure the time. -/
def EncryptWallet (strWalletPassphrase : valtype) (draws : CWallet.Draws) (w : FileWallet) :
    Option (Bool × List CKey × FileWallet) :=
  if w.fUseCrypto then some (false, [], w)
  else
    let nDeriveIterations := CWallet.deriveIterations draws.measured
    match SetKeyFromPassphrase (f.crypto c 2) strWalletPassphrase draws.vchSalt
        nDeriveIterations 0 with
    | none => some (false, [], w)
    | some (chKey, chIV) =>
        let (encrypted, vchCryptedKey) := f.Encrypt c 3 chKey chIV draws.vMasterKey
        if !encrypted then some (false, [], w)
        else
          let nID := uint32 (w.nMasterKeyMaxID + 1)
          let kMasterKey : CMasterKey :=
            { vchCryptedKey, vchSalt := draws.vchSalt, nDeriveIterations }
          let w : FileWallet :=
            { w with
              nMasterKeyMaxID := nID, mapMasterKeys := w.mapMasterKeys.insert nID kMasterKey
              pwalletdbEncryption := w.fFileBacked || w.pwalletdbEncryption }
          if w.fFileBacked && !draws.TxnBegin then some (false, [], w)
          else encryptInTransaction c f strWalletPassphrase draws w

end Faults

end Ziftrcoin.Spec
