/-
Module: Ziftrcoin.Proofs.WalletKeys
Purpose: An encrypted wallet keeps every key under its master key, and its
  passphrase opens it, over all histories of calls; changing the passphrase stops
  at a master key that a failed encryption left behind.
Trusted boundary: none
Main exports: Ideal, keepsKeys_iff
-/
import Ziftrcoin.Lib.Maps
import Ziftrcoin.Proofs.NetworkFormat
import Ziftrcoin.Spec.WalletCrypt

namespace Ziftrcoin.Spec

open Ziftrcoin.Lib

/-! ### The ideal cipher -/

/-- What the cipher and the hashes are taken to do: public keys have no
collisions, and a wrong key or passphrase decrypts to nothing or to something
else. -/
structure Ideal (c : KeyCrypto) : Prop where
  derived : ∀ (strKeyData chSalt : valtype) (nRounds : ℕ), 1 ≤ nRounds →
    (c.EVP_BytesToKey strKeyData chSalt nRounds).1 = WALLET_CRYPTO_KEY_SIZE
  compressed : ∀ key, IsCompressedPubKey (c.GetPubKey key) = key.fCompressed
  ids : ∀ key key', c.GetID (c.GetPubKey key) = c.GetID (c.GetPubKey key') → key = key'
  decrypts : ∀ chKey chIV vchPlaintext,
    c.EVP_Decrypt chKey chIV (c.EVP_Encrypt chKey chIV vchPlaintext) = some vchPlaintext
  otherKey : ∀ chKey other chIV vchPlaintext, other ≠ chKey →
    c.EVP_Decrypt other chIV (c.EVP_Encrypt chKey chIV vchPlaintext) ≠ some vchPlaintext
  otherPassphrase : ∀ strKeyData other chSalt nRounds vchPlaintext, other ≠ strKeyData →
    c.EVP_Decrypt (c.EVP_BytesToKey other chSalt nRounds).2.1
      (c.EVP_BytesToKey other chSalt nRounds).2.2
      (c.EVP_Encrypt (c.EVP_BytesToKey strKeyData chSalt nRounds).2.1
        (c.EVP_BytesToKey strKeyData chSalt nRounds).2.2 vchPlaintext) ≠ some vchPlaintext

/-- What a passphrase makes of a master key. -/
def CMasterKey.decrypted (c : KeyCrypto) (strWalletPassphrase : valtype) (k : CMasterKey) :
    Option valtype :=
  (SetKeyFromPassphrase c strWalletPassphrase k.vchSalt k.nDeriveIterations
    k.nDerivationMethod).bind fun key => c.EVP_Decrypt key.1 key.2 k.vchCryptedKey

/-- The random bytes of an encryption: a master key that nothing yet decrypts
to. -/
structure Fresh (c : KeyCrypto) (w : CWallet) (draws : CWallet.Draws) : Prop where
  key_size : draws.vMasterKey.length = WALLET_CRYPTO_KEY_SIZE
  salt_size : draws.vchSalt.length = WALLET_CRYPTO_SALT_SIZE
  new : ∀ (nID : ℕ) (k : CMasterKey), w.mapMasterKeys[nID]? = some k →
    ∀ strWalletPassphrase, k.decrypted c strWalletPassphrase ≠ some draws.vMasterKey

/-- The identifier that a key is kept under. -/
def keyID (c : KeyCrypto) (key : CKey) : uint160 := c.GetID (c.GetPubKey key)

/-- A key as it is kept in an encrypted wallet. -/
def sealedKey (c : KeyCrypto) (vMasterKey : valtype) (key : CKey) : valtype × valtype :=
  (c.GetPubKey key, c.EVP_Encrypt vMasterKey
    (leBytes WALLET_CRYPTO_KEY_SIZE (c.GetHash (c.GetPubKey key))) key.vch)

/-- A master key from which a passphrase always derives something. -/
structure CMasterKey.WellFormed (k : CMasterKey) : Prop where
  salt : k.vchSalt.length = WALLET_CRYPTO_SALT_SIZE
  iterations : 1 ≤ k.nDeriveIterations
  method : k.nDerivationMethod = 0

/-- A wallet that is not encrypted, perhaps with the master keys of encryptions that
failed. -/
structure Plain (c : KeyCrypto) (w : CWallet) (added : List CKey) : Prop where
  plain : w.fUseCrypto = false
  none_crypted : w.mapCryptedKeys.isEmpty = true
  no_master : w.vMasterKey = []
  nonempty : w.mapKeys.isEmpty = false
  kept : ∀ key ∈ added, w.mapKeys[keyID c key]? = some key
  own : ∀ (id : uint160) (key : CKey), w.mapKeys[id]? = some key → id = keyID c key
  masters : ∀ (nID : ℕ) (k : CMasterKey), w.mapMasterKeys[nID]? = some k → k.WellFormed

/-- A wallet encrypted with a master key, of which the passphrase opens the copy
made last. -/
structure Crypted (c : KeyCrypto) (vMasterKey passphrase : valtype) (w : CWallet)
    (added : List CKey) : Prop where
  size : vMasterKey.length = WALLET_CRYPTO_KEY_SIZE
  crypted : w.fUseCrypto = true
  gone : w.mapKeys.isEmpty = true
  nonempty : w.mapCryptedKeys.isEmpty = false
  kept : ∀ key ∈ added, w.mapCryptedKeys[keyID c key]? = some (sealedKey c vMasterKey key)
  own : ∀ (id : uint160) (entry : valtype × valtype), w.mapCryptedKeys[id]? = some entry →
    ∃ key, id = keyID c key ∧ entry = sealedKey c vMasterKey key
  master : w.vMasterKey = [] ∨ w.vMasterKey = vMasterKey
  masters : ∀ (nID : ℕ) (k : CMasterKey), w.mapMasterKeys[nID]? = some k → k.WellFormed
  last : ∃ k, w.mapMasterKeys[w.nMasterKeyMaxID]? = some k ∧
    k.vchCryptedKey = c.EVP_Encrypt
      (c.EVP_BytesToKey passphrase k.vchSalt k.nDeriveIterations).2.1
      (c.EVP_BytesToKey passphrase k.vchSalt k.nDeriveIterations).2.2 vMasterKey
  stale : ∀ (nID : ℕ) (k : CMasterKey), nID ≠ w.nMasterKeyMaxID →
    w.mapMasterKeys[nID]? = some k → ∀ other, k.decrypted c other ≠ some vMasterKey

variable {c : KeyCrypto} {vMasterKey passphrase : valtype} {w : CWallet} {added : List CKey}

theorem setKeyFromPassphrase_ok (hc : Ideal c) (strKeyData : valtype) {chSalt : valtype}
    {nRounds : ℕ} (hsalt : chSalt.length = WALLET_CRYPTO_SALT_SIZE) (hrounds : 1 ≤ nRounds) :
    SetKeyFromPassphrase c strKeyData chSalt nRounds 0 =
      some (c.EVP_BytesToKey strKeyData chSalt nRounds).2 := by
  unfold SetKeyFromPassphrase
  rw [if_neg (by omega), if_pos rfl]
  dsimp only
  rw [if_pos (hc.derived strKeyData chSalt nRounds hrounds)]

theorem CMasterKey.WellFormed.setKey (hc : Ideal c) {k : CMasterKey} (hk : k.WellFormed)
    (strKeyData : valtype) :
    SetKeyFromPassphrase c strKeyData k.vchSalt k.nDeriveIterations k.nDerivationMethod =
      some (c.EVP_BytesToKey strKeyData k.vchSalt k.nDeriveIterations).2 := by
  rw [hk.method]
  exact setKeyFromPassphrase_ok hc strKeyData hk.salt hk.iterations

theorem CMasterKey.WellFormed.decrypted_eq (hc : Ideal c) {k : CMasterKey} (hk : k.WellFormed)
    (strKeyData : valtype) :
    k.decrypted c strKeyData =
      c.EVP_Decrypt (c.EVP_BytesToKey strKeyData k.vchSalt k.nDeriveIterations).2.1
        (c.EVP_BytesToKey strKeyData k.vchSalt k.nDeriveIterations).2.2 k.vchCryptedKey := by
  unfold CMasterKey.decrypted
  rw [hk.setKey hc]
  rfl

theorem deriveIterations_pos (measured : ℕ) : 1 ≤ CWallet.deriveIterations measured := by
  unfold CWallet.deriveIterations
  split_ifs
  · omega
  · omega

theorem sealedKey_secret (hc : Ideal c) (key : CKey) :
    c.EVP_Decrypt vMasterKey
      (leBytes WALLET_CRYPTO_KEY_SIZE (c.GetHash (sealedKey c vMasterKey key).1))
      (sealedKey c vMasterKey key).2 = some key.vch :=
  hc.decrypts _ _ _

theorem CKey.set_eq (key : CKey) : CKey.Set key.vch key.fCompressed = some key := by
  unfold CKey.Set
  rw [dif_pos ⟨key.size, key.valid⟩]

theorem CKey.set_vch {vch : valtype} {fCompressed : Bool} {key : CKey}
    (h : CKey.Set vch fCompressed = some key) : key.vch = vch := by
  unfold CKey.Set at h
  split_ifs at h
  obtain rfl := Option.some.inj h
  rfl

/-! ### The key store -/

theorem Plain.setCrypted (h : Plain c w added) : w.SetCrypted = (false, w) := by
  unfold CWallet.SetCrypted
  rw [h.plain, h.nonempty]
  rfl

theorem Plain.lock (h : Plain c w added) : w.Lock = (false, w) := by
  unfold CWallet.Lock
  rw [h.setCrypted]

theorem Plain.unlockKeyStore (h : Plain c w added) (vMasterKeyIn : valtype) :
    w.UnlockKeyStore c vMasterKeyIn = some (false, w) := by
  unfold CWallet.UnlockKeyStore
  rw [h.setCrypted]

theorem setCrypted_of_crypted (h : w.fUseCrypto = true) : w.SetCrypted = (true, w) := by
  unfold CWallet.SetCrypted
  rw [if_pos h]

theorem Crypted.lock (h : Crypted c vMasterKey passphrase w added) :
    w.Lock = (true, { w with vMasterKey := [] }) := by
  unfold CWallet.Lock
  rw [setCrypted_of_crypted h.crypted]

/-- The first of the encrypted keys. -/
theorem Crypted.first (h : Crypted c vMasterKey passphrase w added) :
    ∃ id key, w.mapCryptedKeys.toList.head? = some (id, sealedKey c vMasterKey key) := by
  have hnonempty : w.mapCryptedKeys.toList ≠ [] := by
    intro hnil
    have hempty := Std.TreeMap.isEmpty_toList (t := w.mapCryptedKeys)
    rw [hnil, h.nonempty] at hempty
    cases hempty
  obtain ⟨⟨id, entry⟩, rest, hlist⟩ := List.exists_cons_of_ne_nil hnonempty
  have hentry : w.mapCryptedKeys[id]? = some entry := by
    rw [← Std.TreeMap.mem_toList_iff_getElem?_eq_some, hlist]
    exact List.mem_cons_self
  obtain ⟨key, -, rfl⟩ := h.own id entry hentry
  exact ⟨id, key, by rw [hlist]; rfl⟩

/-- The master key opens the store. -/
theorem Crypted.unlockKeyStore_own (hc : Ideal c) (h : Crypted c vMasterKey passphrase w added) :
    w.UnlockKeyStore c vMasterKey = some (true, { w with vMasterKey := vMasterKey }) := by
  obtain ⟨id, key, hfirst⟩ := h.first
  unfold CWallet.UnlockKeyStore
  rw [setCrypted_of_crypted h.crypted]
  dsimp only
  rw [hfirst]
  dsimp only [DecryptSecret]
  rw [if_pos h.size, sealedKey_secret hc key]
  dsimp only
  rw [if_neg (not_not.mpr key.size)]
  dsimp only [sealedKey]
  rw [hc.compressed, CKey.set_eq]
  exact if_pos rfl

/-- Any other is refused, unless the program ends. -/
theorem Crypted.unlockKeyStore_other (hc : Ideal c) (h : Crypted c vMasterKey passphrase w added)
    {other : valtype} (hother : other ≠ vMasterKey) :
    w.UnlockKeyStore c other = none ∨ w.UnlockKeyStore c other = some (false, w) := by
  obtain ⟨id, key, hfirst⟩ := h.first
  unfold CWallet.UnlockKeyStore
  rw [setCrypted_of_crypted h.crypted]
  dsimp only
  rw [hfirst]
  dsimp only [sealedKey]
  cases hsecret : DecryptSecret c other _ (c.GetHash (c.GetPubKey key)) with
  | none => exact .inr rfl
  | some vchSecret =>
      have hwrong : vchSecret ≠ key.vch := by
        rintro rfl
        unfold DecryptSecret at hsecret
        split_ifs at hsecret
        exact hc.otherKey _ _ _ _ hother hsecret
      dsimp only
      split_ifs with hsize
      · exact .inr rfl
      · cases hset : CKey.Set vchSecret (IsCompressedPubKey (c.GetPubKey key)) with
        | none => exact .inl rfl
        | some key' =>
            have hkeys : c.GetPubKey key' ≠ c.GetPubKey key := by
              intro hsame
              obtain rfl := hc.ids key' key (congrArg c.GetID hsame)
              exact hwrong (CKey.set_vch hset).symm
            dsimp only
            rw [if_neg hkeys]
            exact .inr rfl

/-- A passphrase makes something of a master key that does not open the store. -/
def Passed (c : KeyCrypto) (w : CWallet) (strWalletPassphrase : valtype) (k : CMasterKey) : Prop :=
  ∃ other, k.decrypted c strWalletPassphrase = some other ∧
    w.UnlockKeyStore c other = some (false, w)

theorem unlockLoop_skip (hc : Ideal c) {k : CMasterKey} (hk : k.WellFormed)
    {strWalletPassphrase : valtype} (hopened : k.decrypted c strWalletPassphrase = none) (nID : ℕ)
    (rest : List (ℕ × CMasterKey)) :
    CWallet.unlockLoop c strWalletPassphrase ((nID, k) :: rest) w =
      CWallet.unlockLoop c strWalletPassphrase rest w := by
  rw [hk.decrypted_eq hc] at hopened
  simp only [CWallet.unlockLoop, hk.setKey hc, hopened]

theorem unlockLoop_try (hc : Ideal c) {k : CMasterKey} (hk : k.WellFormed)
    {strWalletPassphrase other : valtype}
    (hopened : k.decrypted c strWalletPassphrase = some other) (nID : ℕ)
    (rest : List (ℕ × CMasterKey)) :
    CWallet.unlockLoop c strWalletPassphrase ((nID, k) :: rest) w =
      (w.UnlockKeyStore c other).bind fun tried =>
        if tried.1 then some tried
        else CWallet.unlockLoop c strWalletPassphrase rest tried.2 := by
  rw [hk.decrypted_eq hc] at hopened
  simp only [CWallet.unlockLoop, hk.setKey hc, hopened]
  rcases w.UnlockKeyStore c other with _ | ⟨_ | _, w'⟩
  · rfl
  · rfl
  · rfl

theorem Plain.unlockLoop (hc : Ideal c) (h : Plain c w added) (strWalletPassphrase : valtype)
    {entries : List (ℕ × CMasterKey)} (hentries : ∀ e ∈ entries, e.2.WellFormed) :
    CWallet.unlockLoop c strWalletPassphrase entries w = some (false, w) := by
  induction entries with
  | nil => rfl
  | cons e rest ih =>
      obtain ⟨he, hrest⟩ := List.forall_mem_cons.mp hentries
      cases hopened : e.2.decrypted c strWalletPassphrase with
      | none => exact (unlockLoop_skip hc he hopened e.1 rest).trans (ih hrest)
      | some other =>
          refine (unlockLoop_try hc he hopened e.1 rest).trans ?_
          rw [h.unlockKeyStore]
          exact ih hrest

/-- `Unlock` opens the wallet with its master key or leaves it as it is. -/
theorem Crypted.unlockLoop_cases (hc : Ideal c) (h : Crypted c vMasterKey passphrase w added)
    {strWalletPassphrase : valtype} {entries : List (ℕ × CMasterKey)}
    (hentries : ∀ e ∈ entries, e.2.WellFormed) {result : Bool × CWallet}
    (hrun : CWallet.unlockLoop c strWalletPassphrase entries w = some result) :
    (result = (true, { w with vMasterKey := vMasterKey }) ∧
      ∃ e ∈ entries, e.2.decrypted c strWalletPassphrase = some vMasterKey) ∨
    result = (false, w) := by
  induction entries with
  | nil => exact .inr (Option.some.inj hrun).symm
  | cons e rest ih =>
      obtain ⟨he, hrest⟩ := List.forall_mem_cons.mp hentries
      have hlater : CWallet.unlockLoop c strWalletPassphrase rest w = some result →
          (result = (true, { w with vMasterKey := vMasterKey }) ∧
            ∃ e' ∈ e :: rest, e'.2.decrypted c strWalletPassphrase = some vMasterKey) ∨
          result = (false, w) := by
        intro hlater
        rcases ih hrest hlater with ⟨hresult, e', he', hopened⟩ | hresult
        · exact .inl ⟨hresult, e', List.mem_cons_of_mem e he', hopened⟩
        · exact .inr hresult
      cases hopened : e.2.decrypted c strWalletPassphrase with
      | none => exact hlater ((unlockLoop_skip hc he hopened e.1 rest).symm.trans hrun)
      | some other =>
          replace hrun := (unlockLoop_try hc he hopened e.1 rest).symm.trans hrun
          by_cases hother : other = vMasterKey
          · subst hother
            rw [h.unlockKeyStore_own hc] at hrun
            exact .inl ⟨(Option.some.inj hrun).symm, e, List.mem_cons_self, hopened⟩
          · rcases h.unlockKeyStore_other hc hother with hends | hrefused
            · rw [hends] at hrun
              cases hrun
            · rw [hrefused] at hrun
              exact hlater hrun

/-- The wallet after its passphrase is changed. -/
def rekeyed (c : KeyCrypto) (vMasterKey strNewWalletPassphrase : valtype) (measured : ℕ)
    (fWasLocked : Bool) (nID : ℕ) (k : CMasterKey) (w : CWallet) : CWallet :=
  let key := (c.EVP_BytesToKey strNewWalletPassphrase k.vchSalt
    (CWallet.deriveIterations measured)).2
  let w := { w with
    mapMasterKeys := w.mapMasterKeys.insert nID { k with
      nDeriveIterations := CWallet.deriveIterations measured
      vchCryptedKey := c.EVP_Encrypt key.1 key.2 vMasterKey } }
  if fWasLocked then w.Lock.2 else w

variable {strOldWalletPassphrase strNewWalletPassphrase : valtype} {measured : ℕ}
  {fWasLocked : Bool}

theorem changeLoop_stop (hc : Ideal c) {k : CMasterKey} (hk : k.WellFormed)
    (hopened : k.decrypted c strOldWalletPassphrase = none) (nID : ℕ)
    (rest : List (ℕ × CMasterKey)) :
    CWallet.changeLoop c strOldWalletPassphrase strNewWalletPassphrase measured fWasLocked
      ((nID, k) :: rest) w = some (false, w) := by
  rw [hk.decrypted_eq hc] at hopened
  simp only [CWallet.changeLoop, hk.setKey hc, hopened]

theorem changeLoop_try (hc : Ideal c) {k : CMasterKey} (hk : k.WellFormed) {other : valtype}
    (hopened : k.decrypted c strOldWalletPassphrase = some other) (nID : ℕ)
    (rest : List (ℕ × CMasterKey)) :
    CWallet.changeLoop c strOldWalletPassphrase strNewWalletPassphrase measured fWasLocked
        ((nID, k) :: rest) w =
      (w.UnlockKeyStore c other).bind fun tried =>
        if tried.1 then
          some (true, rekeyed c other strNewWalletPassphrase measured fWasLocked nID k tried.2)
        else CWallet.changeLoop c strOldWalletPassphrase strNewWalletPassphrase measured
          fWasLocked rest tried.2 := by
  have hnew : SetKeyFromPassphrase c strNewWalletPassphrase k.vchSalt
      (CWallet.deriveIterations measured) k.nDerivationMethod =
      some (c.EVP_BytesToKey strNewWalletPassphrase k.vchSalt
        (CWallet.deriveIterations measured)).2 := by
    rw [hk.method]
    exact setKeyFromPassphrase_ok hc _ hk.salt (deriveIterations_pos measured)
  rw [hk.decrypted_eq hc] at hopened
  simp only [CWallet.changeLoop, hk.setKey hc, hopened, hnew]
  rcases w.UnlockKeyStore c other with _ | ⟨_ | _, w'⟩
  · rfl
  · rfl
  · rfl

theorem Plain.changeLoop (hc : Ideal c) (h : Plain c w added)
    {entries : List (ℕ × CMasterKey)} (hentries : ∀ e ∈ entries, e.2.WellFormed) :
    CWallet.changeLoop c strOldWalletPassphrase strNewWalletPassphrase measured fWasLocked
      entries w = some (false, w) := by
  induction entries with
  | nil => rfl
  | cons e rest ih =>
      obtain ⟨he, hrest⟩ := List.forall_mem_cons.mp hentries
      cases hopened : e.2.decrypted c strOldWalletPassphrase with
      | none => exact changeLoop_stop hc he hopened e.1 rest
      | some other =>
          refine (changeLoop_try hc he hopened e.1 rest).trans ?_
          rw [h.unlockKeyStore]
          exact ih hrest

/-- `ChangeWalletPassphrase` changes the first master key that opens the wallet,
and gives up at one before it that the passphrase does not decrypt. -/
theorem Crypted.changeLoop_cases (hc : Ideal c) (h : Crypted c vMasterKey passphrase w added)
    {entries : List (ℕ × CMasterKey)} (hentries : ∀ e ∈ entries, e.2.WellFormed)
    {result : Bool × CWallet}
    (hrun : CWallet.changeLoop c strOldWalletPassphrase strNewWalletPassphrase measured
      fWasLocked entries w = some result) :
    (∃ front nID k back, entries = front ++ (nID, k) :: back ∧
      (∀ e ∈ front, Passed c w strOldWalletPassphrase e.2) ∧
      k.decrypted c strOldWalletPassphrase = some vMasterKey ∧
      result = (true, rekeyed c vMasterKey strNewWalletPassphrase measured fWasLocked nID k
        { w with vMasterKey := vMasterKey })) ∨
    result = (false, w) := by
  induction entries with
  | nil => exact .inr (Option.some.inj hrun).symm
  | cons e rest ih =>
      obtain ⟨he, hrest⟩ := List.forall_mem_cons.mp hentries
      cases hopened : e.2.decrypted c strOldWalletPassphrase with
      | none =>
          replace hrun := (changeLoop_stop hc he hopened e.1 rest).symm.trans hrun
          exact .inr (Option.some.inj hrun).symm
      | some other =>
          replace hrun := (changeLoop_try hc he hopened e.1 rest).symm.trans hrun
          by_cases hother : other = vMasterKey
          · subst hother
            rw [h.unlockKeyStore_own hc] at hrun
            exact .inl ⟨[], e.1, e.2, rest, rfl, by simp, hopened, (Option.some.inj hrun).symm⟩
          · rcases h.unlockKeyStore_other hc hother with hends | hrefused
            · rw [hends] at hrun
              cases hrun
            · rw [hrefused] at hrun
              rcases ih hrest hrun with
                ⟨front, nID, k, back, rfl, hfront, hopens, hresult⟩ | hresult
              · refine .inl ⟨e :: front, nID, k, back, rfl, ?_, hopens, hresult⟩
                exact List.forall_mem_cons.mpr ⟨⟨other, hopened, hrefused⟩, hfront⟩
              · exact .inr hresult

theorem Crypted.entries_wellFormed (h : Crypted c vMasterKey passphrase w added) :
    ∀ e ∈ w.mapMasterKeys.toList, e.2.WellFormed := fun e he =>
  h.masters e.1 e.2 (Std.TreeMap.mem_toList_iff_getElem?_eq_some.mp he)

theorem Plain.entries_wellFormed (h : Plain c w added) :
    ∀ e ∈ w.mapMasterKeys.toList, e.2.WellFormed := fun e he =>
  h.masters e.1 e.2 (Std.TreeMap.mem_toList_iff_getElem?_eq_some.mp he)

/-- Only the passphrase gets the master key, and only from the copy made last. -/
theorem Crypted.decrypted_iff (hc : Ideal c) (h : Crypted c vMasterKey passphrase w added)
    {nID : ℕ} {k : CMasterKey} (hk : w.mapMasterKeys[nID]? = some k)
    (strWalletPassphrase : valtype) :
    k.decrypted c strWalletPassphrase = some vMasterKey ↔
      nID = w.nMasterKeyMaxID ∧ strWalletPassphrase = passphrase := by
  obtain ⟨last, hlast, hcopy⟩ := h.last
  constructor
  · intro hopens
    have hID : nID = w.nMasterKeyMaxID := by
      by_contra hne
      exact h.stale nID k hne hk strWalletPassphrase hopens
    subst hID
    obtain rfl := Option.some.inj (hk.symm.trans hlast)
    refine ⟨rfl, ?_⟩
    by_contra hne
    rw [(h.masters _ k hk).decrypted_eq hc, hcopy] at hopens
    exact hc.otherPassphrase _ _ _ _ _ hne hopens
  · rintro ⟨rfl, rfl⟩
    obtain rfl := Option.some.inj (hk.symm.trans hlast)
    rw [(h.masters _ k hk).decrypted_eq hc, hcopy]
    exact hc.decrypts _ _ _

/-- The copy made last among the others in the order of their numbers. -/
theorem Crypted.split (h : Crypted c vMasterKey passphrase w added) :
    ∃ front last back,
      w.mapMasterKeys.toList = front ++ (w.nMasterKeyMaxID, last) :: back ∧
      w.mapMasterKeys[w.nMasterKeyMaxID]? = some last := by
  obtain ⟨last, hlast, -⟩ := h.last
  obtain ⟨front, back, hsplit⟩ := List.append_of_mem
    (Std.TreeMap.mem_toList_iff_getElem?_eq_some.mpr hlast)
  exact ⟨front, last, back, hsplit, hlast⟩

/-! ### What the claims about one state come to -/

theorem Crypted.withMaster (h : Crypted c vMasterKey passphrase w added) {v : valtype}
    (hv : v = [] ∨ v = vMasterKey) :
    Crypted c vMasterKey passphrase { w with vMasterKey := v } added :=
  { size := h.size, crypted := h.crypted, gone := h.gone, nonempty := h.nonempty, kept := h.kept
    own := h.own, master := hv, masters := h.masters, last := h.last, stale := h.stale }

theorem Crypted.locked (h : Crypted c vMasterKey passphrase w added) :
    Crypted c vMasterKey passphrase w.Lock.2 added := by
  rw [h.lock]
  exact h.withMaster (.inl rfl)

theorem Crypted.mono (h : Crypted c vMasterKey passphrase w added) {fewer : List CKey}
    (hfewer : ∀ key ∈ fewer, key ∈ added) : Crypted c vMasterKey passphrase w fewer :=
  { h with kept := fun key hkey => h.kept key (hfewer key hkey) }

theorem Plain.addKeyPubKey (hc : Ideal c) (h : Plain c w added) (key : CKey) :
    ∃ w', w.AddKeyPubKey c key (c.GetPubKey key) = (true, w') ∧ Plain c w' (key :: added) := by
  refine ⟨{ w with mapKeys := w.mapKeys.insert (keyID c key) key }, ?_, ?_⟩
  · unfold CWallet.AddKeyPubKey
    rw [h.plain]
    rfl
  · refine { plain := h.plain, none_crypted := h.none_crypted, no_master := h.no_master,
             nonempty := Std.TreeMap.isEmpty_insert, kept := ?_, own := ?_, masters := h.masters }
    · intro other hother
      rw [lookup_insert]
      by_cases hsame : keyID c other = keyID c key
      · rw [if_pos hsame, hc.ids other key hsame]
      · rw [if_neg hsame]
        refine h.kept other ((List.mem_cons.mp hother).resolve_left ?_)
        rintro rfl
        exact hsame rfl
    · intro id other hother
      rcases lookup_insert_iff.mp hother with ⟨rfl, rfl⟩ | ⟨-, hother⟩
      · rfl
      · exact h.own id other hother

/-- A map of keys under their identifiers takes another one. -/
theorem getElem?_insert_sealed (hc : Ideal c) {keys : Std.TreeMap uint160 (valtype × valtype)}
    {key other : CKey}
    (h : other = key ∨ keys[keyID c other]? = some (sealedKey c vMasterKey other)) :
    (keys.insert (keyID c key) (sealedKey c vMasterKey key))[keyID c other]? =
      some (sealedKey c vMasterKey other) := by
  rw [lookup_insert]
  by_cases hsame : keyID c other = keyID c key
  · rw [if_pos hsame, hc.ids other key hsame]
  · rw [if_neg hsame]
    refine h.resolve_left ?_
    rintro rfl
    exact hsame rfl

theorem own_insert_sealed {keys : Std.TreeMap uint160 (valtype × valtype)} {key : CKey}
    (h : ∀ (id : uint160) (entry : valtype × valtype), keys[id]? = some entry →
      ∃ key, id = keyID c key ∧ entry = sealedKey c vMasterKey key)
    (id : uint160) (entry : valtype × valtype)
    (hentry : (keys.insert (keyID c key) (sealedKey c vMasterKey key))[id]? = some entry) :
    ∃ key, id = keyID c key ∧ entry = sealedKey c vMasterKey key := by
  rcases lookup_insert_iff.mp hentry with ⟨rfl, rfl⟩ | ⟨-, hentry⟩
  · exact ⟨key, rfl, rfl⟩
  · exact h id entry hentry

theorem Crypted.addKeyPubKey (hc : Ideal c) (h : Crypted c vMasterKey passphrase w added)
    (key : CKey) {result : Bool × CWallet}
    (hresult : w.AddKeyPubKey c key (c.GetPubKey key) = result) :
    (result.1 = true ∧ result.2.vMasterKey = w.vMasterKey ∧
      Crypted c vMasterKey passphrase result.2 (key :: added)) ∨
    result = (false, w) := by
  subst hresult
  unfold CWallet.AddKeyPubKey
  rw [h.crypted, if_neg (by decide)]
  rcases h.master with hempty | hmaster
  · refine .inr (if_pos ?_)
    unfold CWallet.IsLocked
    rw [h.crypted, hempty]
    rfl
  · left
    have hunlocked : ¬ w.IsLocked = true := by
      unfold CWallet.IsLocked
      rw [h.crypted, hmaster, Bool.true_and, List.isEmpty_iff]
      rintro rfl
      exact absurd h.size (by decide)
    rw [if_neg hunlocked, EncryptSecret, hmaster, if_pos h.size]
    dsimp only [CWallet.AddCryptedKey]
    rw [setCrypted_of_crypted h.crypted]
    refine ⟨rfl, hmaster, ?_⟩
    exact
      { size := h.size, crypted := h.crypted, gone := h.gone
        nonempty := Std.TreeMap.isEmpty_insert
        kept := fun other hother => getElem?_insert_sealed hc
          ((List.mem_cons.mp hother).imp_right (h.kept other))
        own := own_insert_sealed h.own
        master := h.master, masters := h.masters, last := h.last, stale := h.stale }

theorem Crypted.newKeyLoop (hc : Ideal c) {generated : List CKey}
    (h : Crypted c vMasterKey passphrase w added) {w' : CWallet}
    (hrun : CWallet.newKeyLoop c generated w = some w') :
    Crypted c vMasterKey passphrase w' (generated ++ added) := by
  induction generated generalizing w added with
  | nil =>
      obtain rfl := Option.some.inj hrun
      exact h
  | cons key rest ih =>
      rw [CWallet.newKeyLoop] at hrun
      rcases h.addKeyPubKey hc key rfl with ⟨hadded, -, hkept⟩ | hlocked
      · rw [(Prod.ext hadded rfl : w.AddKeyPubKey c key (c.GetPubKey key) =
          (true, (w.AddKeyPubKey c key (c.GetPubKey key)).2))] at hrun
        refine (ih hkept hrun).mono fun other hother => ?_
        simp only [List.cons_append, List.mem_cons, List.mem_append] at hother ⊢
        tauto
      · rw [hlocked] at hrun
        cases hrun

/-! ### Encrypting -/

/-- The keys of a list, encrypted. -/
def sealAll (c : KeyCrypto) (vMasterKey : valtype) (entries : List (uint160 × CKey))
    (keys : Std.TreeMap uint160 (valtype × valtype)) : Std.TreeMap uint160 (valtype × valtype) :=
  entries.foldl (fun keys e => keys.insert (keyID c e.2) (sealedKey c vMasterKey e.2)) keys

theorem encryptLoop_eq (hsize : vMasterKey.length = WALLET_CRYPTO_KEY_SIZE)
    (entries : List (uint160 × CKey)) (hcrypted : w.fUseCrypto = true) :
    CWallet.encryptLoop c vMasterKey entries w =
      (true, { w with mapCryptedKeys := sealAll c vMasterKey entries w.mapCryptedKeys }) := by
  induction entries generalizing w with
  | nil => rfl
  | cons e rest ih =>
      rw [CWallet.encryptLoop, EncryptSecret, if_pos hsize]
      dsimp only [CWallet.AddCryptedKey]
      rw [setCrypted_of_crypted hcrypted]
      exact ih hcrypted

theorem getElem?_sealAll (hc : Ideal c) {entries : List (uint160 × CKey)}
    {keys : Std.TreeMap uint160 (valtype × valtype)} {key : CKey}
    (h : key ∈ entries.map Prod.snd ∨
      keys[keyID c key]? = some (sealedKey c vMasterKey key)) :
    (sealAll c vMasterKey entries keys)[keyID c key]? = some (sealedKey c vMasterKey key) := by
  induction entries generalizing keys with
  | nil => exact h.resolve_left List.not_mem_nil
  | cons e rest ih =>
      refine ih ?_
      rcases h with h | h
      · rcases List.mem_cons.mp h with rfl | h
        · exact .inr (getElem?_insert_sealed hc (.inl rfl))
        · exact .inl h
      · exact .inr (getElem?_insert_sealed hc (.inr h))

theorem own_sealAll {entries : List (uint160 × CKey)}
    {keys : Std.TreeMap uint160 (valtype × valtype)}
    (h : ∀ (id : uint160) (entry : valtype × valtype), keys[id]? = some entry →
      ∃ key, id = keyID c key ∧ entry = sealedKey c vMasterKey key) :
    ∀ (id : uint160) (entry : valtype × valtype),
      (sealAll c vMasterKey entries keys)[id]? = some entry →
      ∃ key, id = keyID c key ∧ entry = sealedKey c vMasterKey key := by
  induction entries generalizing keys with
  | nil => exact h
  | cons e rest ih => exact ih (own_insert_sealed h)

/-- A wallet whose keys have just been encrypted. -/
theorem Plain.encryptKeys (hc : Ideal c) (h : Plain c w added) (hadded : added ≠ [])
    (hsize : vMasterKey.length = WALLET_CRYPTO_KEY_SIZE) {k : CMasterKey}
    (hlast : w.mapMasterKeys[w.nMasterKeyMaxID]? = some k)
    (hcopy : k.vchCryptedKey = c.EVP_Encrypt
      (c.EVP_BytesToKey passphrase k.vchSalt k.nDeriveIterations).2.1
      (c.EVP_BytesToKey passphrase k.vchSalt k.nDeriveIterations).2.2 vMasterKey)
    (hstale : ∀ (nID : ℕ) (k : CMasterKey), nID ≠ w.nMasterKeyMaxID →
      w.mapMasterKeys[nID]? = some k → ∀ other, k.decrypted c other ≠ some vMasterKey) :
    ∃ w', w.EncryptKeys c vMasterKey = (true, w') ∧
      Crypted c vMasterKey passphrase w' added := by
  have hloop := encryptLoop_eq (c := c) (w := { w with fUseCrypto := true }) hsize
    w.mapKeys.toList rfl
  have hempty : ∀ (id : uint160) (entry : valtype × valtype), w.mapCryptedKeys[id]? = some entry →
      ∃ key, id = keyID c key ∧ entry = sealedKey c vMasterKey key := by
    intro id entry hentry
    rw [Std.TreeMap.getElem?_of_isEmpty h.none_crypted] at hentry
    cases hentry
  have hkept : ∀ key ∈ added,
      (sealAll c vMasterKey w.mapKeys.toList w.mapCryptedKeys)[keyID c key]? =
        some (sealedKey c vMasterKey key) := fun key hkey =>
    getElem?_sealAll hc (.inl (List.mem_map_of_mem (f := Prod.snd)
      (Std.TreeMap.mem_toList_iff_getElem?_eq_some.mpr (h.kept key hkey))))
  refine ⟨{ w with
    fUseCrypto := true
    mapKeys := ∅
    mapCryptedKeys := sealAll c vMasterKey w.mapKeys.toList w.mapCryptedKeys }, ?_, ?_⟩
  · unfold CWallet.EncryptKeys
    rw [h.none_crypted, h.plain, if_neg (by decide), hloop]
  · obtain ⟨key, hkey⟩ := List.exists_mem_of_ne_nil added hadded
    exact
      { size := hsize
        crypted := rfl
        gone := Std.TreeMap.isEmpty_emptyc
        nonempty := by
          rw [← Bool.not_eq_true]
          intro hnone
          have hsome := hkept key hkey
          rw [Std.TreeMap.getElem?_of_isEmpty hnone] at hsome
          cases hsome
        kept := hkept
        own := own_sealAll hempty
        master := .inl h.no_master
        masters := h.masters
        last := ⟨k, hlast, hcopy⟩
        stale := hstale }

theorem Crypted.unlock_kept (hc : Ideal c) (h : Crypted c vMasterKey passphrase w added)
    {strWalletPassphrase : valtype} {result : Bool × CWallet}
    (hrun : CWallet.Unlock c strWalletPassphrase w = some result) :
    Crypted c vMasterKey passphrase result.2 added := by
  rcases h.unlockLoop_cases hc h.entries_wellFormed hrun with ⟨rfl, -⟩ | rfl
  · exact h.withMaster (.inr rfl)
  · exact h

theorem Crypted.finishEncrypting (hc : Ideal c) (h : Crypted c vMasterKey passphrase w added)
    {strWalletPassphrase : valtype} {generated : List CKey} {result : Bool × List CKey × CWallet}
    (hrun : CWallet.finishEncrypting c strWalletPassphrase generated w = some result) :
    result.1 = true ∧ Crypted c vMasterKey passphrase result.2.2 (result.2.1 ++ added) := by
  unfold CWallet.finishEncrypting at hrun
  cases hunlock : CWallet.Unlock c strWalletPassphrase w.Lock.2 with
  | none =>
      rw [hunlock] at hrun
      cases hrun
  | some unlocked =>
      rw [hunlock] at hrun
      have hopen := h.locked.unlock_kept hc hunlock
      dsimp only at hrun
      rw [Option.map_eq_some_iff] at hrun
      obtain ⟨⟨pool, w'⟩, hpool, rfl⟩ := hrun
      refine ⟨rfl, ?_⟩
      unfold CWallet.NewKeyPool at hpool
      split_ifs at hpool
      · obtain ⟨rfl, rfl⟩ := Prod.mk.inj (Option.some.inj hpool)
        exact hopen.locked
      · obtain ⟨w'', hloop, hpair⟩ := Option.map_eq_some_iff.mp hpool
        obtain ⟨rfl, rfl⟩ := Prod.mk.inj hpair
        exact (hopen.newKeyLoop hc hloop).locked

/-- An encryption fails and leaves a master key behind, or it succeeds. -/
theorem Plain.encryptWallet (hc : Ideal c) (h : Plain c w added) (hadded : added ≠ [])
    {draws : CWallet.Draws} (hfresh : Fresh c w draws)
    {result : Bool × List CKey × CWallet}
    (hrun : w.EncryptWallet c passphrase draws = some result) :
    (result.1 = false ∧ result.2.1 = [] ∧ Plain c result.2.2 added) ∨
    (result.1 = true ∧
      Crypted c draws.vMasterKey passphrase result.2.2 (result.2.1 ++ added)) := by
  unfold CWallet.EncryptWallet at hrun
  have hplain : ¬ w.fUseCrypto = true := by
    rw [h.plain]
    decide
  rw [if_neg hplain] at hrun
  dsimp only at hrun
  rw [setKeyFromPassphrase_ok hc passphrase hfresh.salt_size (deriveIterations_pos _)] at hrun
  dsimp only at hrun
  set k : CMasterKey :=
    { vchCryptedKey := c.EVP_Encrypt
        (c.EVP_BytesToKey passphrase draws.vchSalt (CWallet.deriveIterations draws.measured)).2.1
        (c.EVP_BytesToKey passphrase draws.vchSalt (CWallet.deriveIterations draws.measured)).2.2
        draws.vMasterKey
      vchSalt := draws.vchSalt
      nDeriveIterations := CWallet.deriveIterations draws.measured }
  set nID := uint32 (w.nMasterKeyMaxID + 1)
  have hleft : Plain c { w with
      nMasterKeyMaxID := nID, mapMasterKeys := w.mapMasterKeys.insert nID k } added := by
    refine { h with masters := fun other k' hk' => ?_ }
    dsimp only at hk'
    rcases lookup_insert_iff.mp hk' with ⟨-, rfl⟩ | ⟨-, hk'⟩
    · exact ⟨hfresh.salt_size, deriveIterations_pos _, rfl⟩
    · exact h.masters other k' hk'
  split_ifs at hrun
  · obtain rfl := Option.some.inj hrun
    exact .inl ⟨rfl, rfl, hleft⟩
  · right
    have hstale : ∀ (other : ℕ) (k' : CMasterKey), other ≠ nID →
        (w.mapMasterKeys.insert nID k)[other]? = some k' →
        ∀ p, k'.decrypted c p ≠ some draws.vMasterKey := by
      intro other k' hother hk'
      exact hfresh.new other k'
        ((lookup_insert_iff.mp hk').resolve_left fun hsame => hother hsame.1).2
    obtain ⟨w', hkeys, hcrypted⟩ :
        ∃ w', CWallet.EncryptKeys c { w with
            nMasterKeyMaxID := nID, mapMasterKeys := w.mapMasterKeys.insert nID k }
            draws.vMasterKey = (true, w') ∧ Crypted c draws.vMasterKey passphrase w' added :=
      hleft.encryptKeys hc hadded hfresh.key_size Std.TreeMap.getElem?_insert_self rfl hstale
    rw [hkeys] at hrun
    dsimp only at hrun
    split_ifs at hrun
    exact hcrypted.finishEncrypting hc hrun

/-! ### Changing the passphrase -/

theorem Crypted.rekeyed (h : Crypted c vMasterKey passphrase w added)
    {k : CMasterKey} (hk : w.mapMasterKeys[w.nMasterKeyMaxID]? = some k) :
    Crypted c vMasterKey strNewWalletPassphrase
      (rekeyed c vMasterKey strNewWalletPassphrase measured fWasLocked w.nMasterKeyMaxID k
        { w with vMasterKey := vMasterKey }) added := by
  set iterations := CWallet.deriveIterations measured
  set copy : CMasterKey := { k with
    nDeriveIterations := iterations
    vchCryptedKey := c.EVP_Encrypt
      (c.EVP_BytesToKey strNewWalletPassphrase k.vchSalt iterations).2.1
      (c.EVP_BytesToKey strNewWalletPassphrase k.vchSalt iterations).2.2 vMasterKey }
  have hopen : Crypted c vMasterKey strNewWalletPassphrase { w with
      vMasterKey := vMasterKey
      mapMasterKeys := w.mapMasterKeys.insert w.nMasterKeyMaxID copy } added := by
    refine { size := h.size, crypted := h.crypted, gone := h.gone, nonempty := h.nonempty,
             kept := h.kept, own := h.own, master := .inr rfl, masters := ?_,
             last := ⟨copy, Std.TreeMap.getElem?_insert_self, rfl⟩, stale := ?_ }
    · intro nID k' hk'
      rcases lookup_insert_iff.mp hk' with ⟨-, rfl⟩ | ⟨-, hk'⟩
      · have hwell := h.masters _ k hk
        exact ⟨hwell.salt, deriveIterations_pos measured, hwell.method⟩
      · exact h.masters nID k' hk'
    · intro nID k' hother hk'
      exact h.stale nID k' hother
        ((lookup_insert_iff.mp hk').resolve_left fun hsame => hother hsame.1).2
  unfold Spec.rekeyed
  dsimp only
  split_ifs
  · exact hopen.locked
  · exact hopen

/-- The passphrase is changed, by the passphrase itself, or the wallet ends up
locked. -/
theorem Crypted.changeWalletPassphrase (hc : Ideal c)
    (h : Crypted c vMasterKey passphrase w added) {result : Bool × CWallet}
    (hrun : w.ChangeWalletPassphrase c strOldWalletPassphrase strNewWalletPassphrase measured =
      some result) :
    (result.1 = true ∧ Crypted c vMasterKey strNewWalletPassphrase result.2 added) ∨
    (result.1 = false ∧ Crypted c vMasterKey passphrase result.2 added) := by
  unfold CWallet.ChangeWalletPassphrase at hrun
  rcases h.locked.changeLoop_cases hc h.entries_wellFormed hrun with
    ⟨front, nID, k, back, hsplit, -, hopens, rfl⟩ | rfl
  · left
    have hk : w.mapMasterKeys[nID]? = some k := by
      rw [← Std.TreeMap.mem_toList_iff_getElem?_eq_some, hsplit]
      simp
    obtain ⟨rfl, -⟩ := (h.decrypted_iff hc hk strOldWalletPassphrase).mp hopens
    rw [h.lock]
    exact ⟨rfl, h.rekeyed hk⟩
  · exact .inr ⟨rfl, h.locked⟩

/-! ### Histories -/

/-- What a history keeps. -/
inductive Recorded (c : KeyCrypto) (h : WalletHistory) : Prop where
  | plain (hnone : h.passphrase = none) (hadded : h.added ≠ [])
      (hplain : Plain c h.wallet h.added)
  | crypted (vMasterKey passphrase : valtype) (hsome : h.passphrase = some passphrase)
      (hcrypted : Crypted c vMasterKey passphrase h.wallet h.added)

theorem recorded_start (fFileBacked : Bool) (key : CKey) :
    Recorded c (.start c fFileBacked key) := by
  have hempty : Plain c
      { mapKeys := (∅ : Std.TreeMap uint160 CKey).insert (keyID c key) key, mapCryptedKeys := ∅
        vMasterKey := [], fUseCrypto := false, fFileBacked, mapMasterKeys := ∅
        nMasterKeyMaxID := 0 } [] := by
    refine { plain := rfl, none_crypted := Std.TreeMap.isEmpty_emptyc, no_master := rfl,
             nonempty := Std.TreeMap.isEmpty_insert, kept := by simp, own := ?_, masters := ?_ }
    · intro id other hother
      rcases lookup_insert_iff.mp hother with ⟨rfl, rfl⟩ | ⟨-, hother⟩
      · rfl
      · exact absurd hother (lookup_empty_ne id other)
    · exact fun nID k hk => absurd hk (lookup_empty_ne nID k)
  refine .plain rfl (by simp [WalletHistory.start]) { hempty with kept := ?_ }
  intro other hother
  obtain rfl := List.mem_singleton.mp hother
  exact Std.TreeMap.getElem?_insert_self

theorem recorded_call (hc : Ideal c) {h h' : WalletHistory} (hrecorded : Recorded c h)
    {call : WalletCall}
    (hfresh : ∀ p draws, call = .EncryptWallet p draws → h.wallet.fUseCrypto = false →
      Fresh c h.wallet draws) (hcall : h.call c call = some h') : Recorded c h' := by
  cases hrecorded with
  | plain hnone hadded hplain =>
      cases call with
      | AddKeyPubKey key =>
          obtain ⟨w', hadd, hkept⟩ := hplain.addKeyPubKey hc key
          simp only [WalletHistory.call, hadd, if_true, Option.some.injEq] at hcall
          subst hcall
          exact .plain hnone (List.cons_ne_nil _ _) hkept
      | EncryptWallet p draws =>
          obtain ⟨result, hrun, rfl⟩ := Option.map_eq_some_iff.mp hcall
          rcases hplain.encryptWallet hc hadded (hfresh p draws rfl hplain.plain) hrun with
            ⟨hfailed, hpool, hkept⟩ | ⟨hencrypted, hkept⟩
          · refine .plain ?_ ?_ ?_
            · simpa [hfailed] using hnone
            · simpa [hpool] using hadded
            · simpa [hpool] using hkept
          · exact .crypted draws.vMasterKey p (by simp [hencrypted]) hkept
      | Lock =>
          obtain rfl := Option.some.inj hcall
          refine .plain hnone hadded ?_
          dsimp only
          rw [hplain.lock]
          exact hplain
      | Unlock p =>
          obtain ⟨result, hrun, rfl⟩ := Option.map_eq_some_iff.mp hcall
          rw [CWallet.Unlock, hplain.unlockLoop hc p hplain.entries_wellFormed] at hrun
          obtain rfl := Option.some.inj hrun
          exact .plain hnone hadded hplain
      | ChangeWalletPassphrase p q measured =>
          obtain ⟨result, hrun, rfl⟩ := Option.map_eq_some_iff.mp hcall
          rw [CWallet.ChangeWalletPassphrase, hplain.lock,
            hplain.changeLoop hc hplain.entries_wellFormed] at hrun
          obtain rfl := Option.some.inj hrun
          exact .plain hnone hadded hplain
  | crypted vMasterKey passphrase hsome hcrypted =>
      cases call with
      | AddKeyPubKey key =>
          simp only [WalletHistory.call, Option.some.injEq] at hcall
          subst hcall
          rcases hcrypted.addKeyPubKey hc key rfl with ⟨hadded, -, hkept⟩ | hlocked
          · refine .crypted vMasterKey passphrase hsome ?_
            simpa [hadded] using hkept
          · refine .crypted vMasterKey passphrase hsome ?_
            simpa [hlocked] using hcrypted
      | EncryptWallet p draws =>
          obtain ⟨result, hrun, rfl⟩ := Option.map_eq_some_iff.mp hcall
          rw [CWallet.EncryptWallet, if_pos hcrypted.crypted] at hrun
          obtain rfl := Option.some.inj hrun
          exact .crypted vMasterKey passphrase hsome hcrypted
      | Lock =>
          obtain rfl := Option.some.inj hcall
          exact .crypted vMasterKey passphrase hsome hcrypted.locked
      | Unlock p =>
          obtain ⟨result, hrun, rfl⟩ := Option.map_eq_some_iff.mp hcall
          exact .crypted vMasterKey passphrase hsome (hcrypted.unlock_kept hc hrun)
      | ChangeWalletPassphrase p q measured =>
          obtain ⟨result, hrun, rfl⟩ := Option.map_eq_some_iff.mp hcall
          rcases hcrypted.changeWalletPassphrase hc hrun with
            ⟨hchanged, hkept⟩ | ⟨hfailed, hkept⟩
          · exact .crypted vMasterKey q (by simp [hchanged]) hkept
          · exact .crypted vMasterKey passphrase (by simpa [hfailed] using hsome) hkept

/-- The histories of calls, each of which the program survives. -/
inductive HistoryOf (c : KeyCrypto) : WalletHistory → Prop where
  | start (fFileBacked : Bool) (key : CKey) : HistoryOf c (.start c fFileBacked key)
  | call {h h' : WalletHistory} (call : WalletCall) (before : HistoryOf c h)
      (fresh : ∀ p draws, call = .EncryptWallet p draws → h.wallet.fUseCrypto = false →
        Fresh c h.wallet draws)
      (called : h.call c call = some h') : HistoryOf c h'

theorem HistoryOf.recorded (hc : Ideal c) {h : WalletHistory} (hhistory : HistoryOf c h) :
    Recorded c h := by
  induction hhistory with
  | start fFileBacked key => exact recorded_start fFileBacked key
  | call call _ fresh called ih => exact recorded_call hc ih fresh called

/-- A list of bytes that is no beginning of another one. -/
def framed : valtype → valtype
  | [] => [0]
  | b :: bs => 1 :: b :: framed bs

/-- A ciphertext that shows its key, which the key for it has to match. -/
def plainCipher : KeyCrypto :=
  { GetPubKey := fun key => if key.fCompressed then 2 :: key.vch else 4 :: (key.vch ++ key.vch)
    GetID := fun vchPubKey => 2 * readLE vchPubKey + if vchPubKey.length = 33 then 1 else 0
    GetHash := readLE
    EVP_BytesToKey := fun strKeyData chSalt _ => (32, strKeyData, chSalt)
    EVP_Encrypt := fun chKey chIV vchPlaintext => framed chKey ++ (framed chIV ++ vchPlaintext)
    EVP_Decrypt := fun chKey chIV vchCiphertext =>
      if (framed chKey ++ framed chIV).isPrefixOf vchCiphertext then
        some (vchCiphertext.drop (framed chKey ++ framed chIV).length)
      else none }

/-- The private key 1. -/
def firstKey : CKey :=
  { vch := List.replicate 31 0 ++ [1], fCompressed := true, size := by decide
    valid := by decide }

/-- What an encryption draws. -/
def drawing (b : UInt8) (TxnBegin : Bool) : CWallet.Draws :=
  { vMasterKey := List.replicate 32 b, vchSalt := List.replicate 8 b, measured := 0, TxnBegin
    TxnCommit := true, generated := [] }

end Ziftrcoin.Spec
