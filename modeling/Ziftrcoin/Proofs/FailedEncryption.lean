/-
Module: Ziftrcoin.Proofs.FailedEncryption
Purpose: When a failed encryption or a failed change of the passphrase leaves the
  wallet as it was, for every wallet and every pattern of failures.
Trusted boundary: none
Main exports: Opened, ChangeHarmless
-/
import Ziftrcoin.Proofs.WalletKeys
import Ziftrcoin.Spec.WalletFailures

namespace Ziftrcoin.Spec

/-! ### Which wallets one passphrase opens -/

/-- The parts of a wallet that unlocking reads. -/
structure SameLock (w w' : CWallet) : Prop where
  fUseCrypto : w'.fUseCrypto = w.fUseCrypto
  mapKeys : w'.mapKeys = w.mapKeys
  mapCryptedKeys : w'.mapCryptedKeys = w.mapCryptedKeys

/-- What `CCryptoKeyStore::Unlock` makes of a wallet. -/
theorem unlockKeyStore_cases {c : KeyCrypto} {w : CWallet} {v : valtype}
    {r : Option (Bool × CWallet)} (h : w.UnlockKeyStore c v = r) :
    r = none ∨ r = some (false, w.SetCrypted.2) ∨
      r = some (true, { w.SetCrypted.2 with vMasterKey := v }) ∧ w.SetCrypted.1 = true := by
  subst h
  unfold CWallet.UnlockKeyStore
  rcases hset : w.SetCrypted with ⟨_ | _, w₀⟩
  · exact .inr (.inl rfl)
  simp only
  split
  · exact .inr (.inr ⟨rfl, trivial⟩)
  · split
    · exact .inr (.inl rfl)
    · split_ifs
      · exact .inr (.inl rfl)
      · split
        · exact .inl rfl
        · split_ifs
          · exact .inr (.inr ⟨rfl, trivial⟩)
          · exact .inr (.inl rfl)

theorem SameLock.setCrypted {w w' : CWallet} (h : SameLock w w') :
    w'.SetCrypted.1 = w.SetCrypted.1 ∧ SameLock w.SetCrypted.2 w'.SetCrypted.2 := by
  unfold CWallet.SetCrypted
  rw [h.fUseCrypto, h.mapKeys]
  split_ifs
  · exact ⟨rfl, h⟩
  · exact ⟨rfl, h⟩
  · exact ⟨rfl, rfl, rfl, h.mapCryptedKeys⟩

/-- Two outcomes of an unlocking that agree on the result and on what the next one
reads. -/
def SameOutcome (r r' : Option (Bool × CWallet)) : Prop :=
  (r = none ∧ r' = none) ∨
    ∃ b w w', r = some (b, w) ∧ r' = some (b, w') ∧ SameLock w w'

theorem SameLock.unlockKeyStore {w w' : CWallet} (h : SameLock w w') (c : KeyCrypto)
    (v : valtype) : SameOutcome (w.UnlockKeyStore c v) (w'.UnlockKeyStore c v) := by
  obtain ⟨hb, hsame⟩ := h.setCrypted
  unfold CWallet.UnlockKeyStore
  rcases hset : w.SetCrypted with ⟨_ | _, w₀⟩ <;> rcases hset' : w'.SetCrypted with ⟨_ | _, w₀'⟩ <;>
    rw [hset, hset'] at hb hsame
  · exact .inr ⟨_, _, _, rfl, rfl, hsame⟩
  · cases hb
  · cases hb
  have hkeys : w₀'.mapCryptedKeys = w₀.mapCryptedKeys := hsame.mapCryptedKeys
  have hopen : SameLock { w₀ with vMasterKey := v }
      { w₀' with vMasterKey := v, mapCryptedKeys := w₀.mapCryptedKeys } :=
    ⟨hsame.fUseCrypto, hsame.mapKeys, rfl⟩
  simp only [hkeys]
  split
  · exact .inr ⟨_, _, _, rfl, rfl, hopen⟩
  · split
    · exact .inr ⟨_, _, _, rfl, rfl, hsame⟩
    · split_ifs
      · exact .inr ⟨_, _, _, rfl, rfl, hsame⟩
      · split
        · exact .inl ⟨rfl, rfl⟩
        · split_ifs
          · exact .inr ⟨_, _, _, rfl, rfl, hopen⟩
          · exact .inr ⟨_, _, _, rfl, rfl, hsame⟩

theorem SameLock.unlockLoop {w w' : CWallet} (h : SameLock w w') (c : KeyCrypto)
    (strWalletPassphrase : valtype) (entries : List (ℕ × CMasterKey)) :
    SameOutcome (CWallet.unlockLoop c strWalletPassphrase entries w)
      (CWallet.unlockLoop c strWalletPassphrase entries w') := by
  induction entries generalizing w w' with
  | nil => exact .inr ⟨_, _, _, rfl, rfl, h⟩
  | cons entry entries ih =>
      unfold CWallet.unlockLoop
      split
      · exact .inr ⟨_, _, _, rfl, rfl, h⟩
      · split
        · exact ih h
        · next v hv =>
          rcases h.unlockKeyStore c v with ⟨hr, hr'⟩ | ⟨b, w₁, w₁', hr, hr', hsame⟩
          · rw [hr, hr']
            exact .inl ⟨rfl, rfl⟩
          · rw [hr, hr']
            cases b with
            | false => exact ih hsame
            | true => exact .inr ⟨_, _, _, rfl, rfl, hsame⟩

/-- The same passphrases open wallets that agree on their keys and master keys. -/
theorem SameLock.unlock {w w' : CWallet} (h : SameLock w w')
    (hmasters : ∀ nID : ℕ, w'.mapMasterKeys[nID]? = w.mapMasterKeys[nID]?) (c : KeyCrypto)
    (strWalletPassphrase : valtype) :
    (w'.Unlock c strWalletPassphrase).map Prod.fst =
      (w.Unlock c strWalletPassphrase).map Prod.fst := by
  have hlist : w'.mapMasterKeys.toList = w.mapMasterKeys.toList :=
    (Std.TreeMap.Equiv.of_forall_constGet?_eq hmasters).toList_eq
  unfold CWallet.Unlock
  rw [hlist]
  rcases h.unlockLoop c strWalletPassphrase w.mapMasterKeys.toList with
    ⟨hr, hr'⟩ | ⟨b, w₁, w₁', hr, hr', -⟩
  · rw [hr, hr']
  · rw [hr, hr']
    rfl

/-! ### Which master key opens the key store -/

section Loop

variable (c : KeyCrypto) (f : Faults) (strOldWalletPassphrase : valtype) (w : CWallet)

/-- The call that starts with call `n` of a primitive comes to the master key `k`,
which gives the key store's own key `v`; the next call of a primitive is `m`. -/
inductive Opened : List (ℕ × CMasterKey) → (n nID : ℕ) → (k : CMasterKey) → (v : valtype) →
    (m : ℕ) → Prop where
  | first {nID k rest n chKey chIV v w'}
      (hkey : SetKeyFromPassphrase (f.crypto c n) strOldWalletPassphrase k.vchSalt
        k.nDeriveIterations k.nDerivationMethod = some (chKey, chIV))
      (hv : (f.crypto c (n + 1)).EVP_Decrypt chKey chIV k.vchCryptedKey = some v)
      (hunlock : w.UnlockKeyStore (f.crypto c (n + 2)) v = some (true, w')) :
      Opened ((nID, k) :: rest) n nID k v (n + 3)
  | later {other k₀ rest n chKey chIV v₀ w' nID k v m}
      (hkey : SetKeyFromPassphrase (f.crypto c n) strOldWalletPassphrase k₀.vchSalt
        k₀.nDeriveIterations k₀.nDerivationMethod = some (chKey, chIV))
      (hv : (f.crypto c (n + 1)).EVP_Decrypt chKey chIV k₀.vchCryptedKey = some v₀)
      (hunlock : w.UnlockKeyStore (f.crypto c (n + 2)) v₀ = some (false, w'))
      (more : Opened rest (n + 3) nID k v m) :
      Opened ((other, k₀) :: rest) n nID k v m

/-- The call comes to no master key that opens the key store. -/
inductive Missed : List (ℕ × CMasterKey) → (n : ℕ) → Prop where
  | none {n} : Missed [] n
  | notDerived {nID k rest n}
      (hkey : SetKeyFromPassphrase (f.crypto c n) strOldWalletPassphrase k.vchSalt
        k.nDeriveIterations k.nDerivationMethod = Option.none) : Missed ((nID, k) :: rest) n
  | notDecrypted {nID k rest n chKey chIV}
      (hkey : SetKeyFromPassphrase (f.crypto c n) strOldWalletPassphrase k.vchSalt
        k.nDeriveIterations k.nDerivationMethod = some (chKey, chIV))
      (hv : (f.crypto c (n + 1)).EVP_Decrypt chKey chIV k.vchCryptedKey = Option.none) :
      Missed ((nID, k) :: rest) n
  | later {other k₀ rest n chKey chIV v₀ w'}
      (hkey : SetKeyFromPassphrase (f.crypto c n) strOldWalletPassphrase k₀.vchSalt
        k₀.nDeriveIterations k₀.nDerivationMethod = some (chKey, chIV))
      (hv : (f.crypto c (n + 1)).EVP_Decrypt chKey chIV k₀.vchCryptedKey = some v₀)
      (hunlock : w.UnlockKeyStore (f.crypto c (n + 2)) v₀ = some (false, w'))
      (more : Missed rest (n + 3)) : Missed ((other, k₀) :: rest) n

variable {c f strOldWalletPassphrase w}
variable {strNewWalletPassphrase : valtype} {measured : ℕ} {fWasLocked : Bool}
  {entries : List (ℕ × CMasterKey)} {n nID m : ℕ} {k : CMasterKey} {v : valtype}

theorem Opened.mem (h : Opened c f strOldWalletPassphrase w entries n nID k v m) :
    (nID, k) ∈ entries := by
  induction h with
  | first => exact List.mem_cons_self
  | later _ _ _ _ ih => exact List.mem_cons_of_mem _ ih

theorem Opened.settled (h : Opened c f strOldWalletPassphrase w entries n nID k v m) :
    w.SetCrypted.1 = true := by
  induction h with
  | first _ _ hunlock =>
      rcases unlockKeyStore_cases hunlock with h | h | h
      · cases h
      · cases h
      · exact h.2
  | later _ _ _ _ ih => exact ih

/-- A master key that gives another key is passed over. -/
theorem changeLoop_later (hsettled : w.SetCrypted.2 = w) {other : ℕ} {k₀ : CMasterKey}
    {rest : List (ℕ × CMasterKey)} {chKey chIV v₀ : valtype} {w' : CWallet}
    (hkey : SetKeyFromPassphrase (f.crypto c n) strOldWalletPassphrase k₀.vchSalt
      k₀.nDeriveIterations k₀.nDerivationMethod = some (chKey, chIV))
    (hv : (f.crypto c (n + 1)).EVP_Decrypt chKey chIV k₀.vchCryptedKey = some v₀)
    (hunlock : w.UnlockKeyStore (f.crypto c (n + 2)) v₀ = some (false, w')) :
    f.changeLoop c strOldWalletPassphrase strNewWalletPassphrase measured fWasLocked
        ((other, k₀) :: rest) n w =
      f.changeLoop c strOldWalletPassphrase strNewWalletPassphrase measured fWasLocked
        rest (n + 3) w := by
  rcases unlockKeyStore_cases hunlock with h | h | ⟨h, -⟩
  · cases h
  · rw [hsettled] at h
    obtain rfl := (Prod.mk.inj (Option.some.inj h)).2
    rw [Faults.changeLoop]
    simp only [hkey, hv, hunlock]
  · cases h

theorem Opened.changeLoop (hsettled : w.SetCrypted.2 = w)
    (h : Opened c f strOldWalletPassphrase w entries n nID k v m) :
    f.changeLoop c strOldWalletPassphrase strNewWalletPassphrase measured fWasLocked entries n w =
      some (f.rekey c strNewWalletPassphrase measured fWasLocked nID k v m
        { w with vMasterKey := v }) := by
  induction h with
  | first hkey hv hunlock =>
      unfold Faults.changeLoop
      simp only [hkey, hv, hunlock]
      rcases unlockKeyStore_cases hunlock with h | h | ⟨h, -⟩
      · cases h
      · cases h
      · rw [hsettled] at h
        obtain rfl := (Prod.mk.inj (Option.some.inj h)).2
        rfl
  | later hkey hv hunlock _ ih => exact (changeLoop_later hsettled hkey hv hunlock).trans ih

theorem Missed.changeLoop (hsettled : w.SetCrypted.2 = w)
    (h : Missed c f strOldWalletPassphrase w entries n) :
    f.changeLoop c strOldWalletPassphrase strNewWalletPassphrase measured fWasLocked entries n w =
      some (false, w) := by
  induction h with
  | none => rfl
  | notDerived hkey =>
      unfold Faults.changeLoop
      simp only [hkey]
  | notDecrypted hkey hv =>
      unfold Faults.changeLoop
      simp only [hkey, hv]
  | later hkey hv hunlock _ ih => exact (changeLoop_later hsettled hkey hv hunlock).trans ih

/-- A call that returns has come to a master key that opens the key store, or to
none. -/
theorem opened_or_missed {r : Bool × CWallet} (hsettled : w.SetCrypted.2 = w)
    (h : f.changeLoop c strOldWalletPassphrase strNewWalletPassphrase measured fWasLocked entries
      n w = some r) :
    (∃ nID k v m, Opened c f strOldWalletPassphrase w entries n nID k v m) ∨
      Missed c f strOldWalletPassphrase w entries n := by
  induction entries generalizing n with
  | nil => exact .inr .none
  | cons entry entries ih =>
      obtain ⟨other, k₀⟩ := entry
      unfold Faults.changeLoop at h
      rcases hkey : SetKeyFromPassphrase (f.crypto c n) strOldWalletPassphrase k₀.vchSalt
        k₀.nDeriveIterations k₀.nDerivationMethod with _ | ⟨chKey, chIV⟩
      · exact .inr (.notDerived hkey)
      rcases hv : (f.crypto c (n + 1)).EVP_Decrypt chKey chIV k₀.vchCryptedKey with _ | v₀
      · exact .inr (.notDecrypted hkey hv)
      rcases hunlock : w.UnlockKeyStore (f.crypto c (n + 2)) v₀ with _ | ⟨_ | _, w'⟩
      · simp only [hkey, hv, hunlock] at h
        cases h
      · simp only [hkey, hv, hunlock] at h
        rcases unlockKeyStore_cases hunlock with hw | hw | ⟨hw, -⟩
        · cases hw
        · rw [hsettled] at hw
          obtain rfl := (Prod.mk.inj (Option.some.inj hw)).2
          rcases ih h with ⟨nID, k, v, m, hmore⟩ | hmore
          · exact .inl ⟨nID, k, v, m, .later hkey hv hunlock hmore⟩
          · exact .inr (.later hkey hv hunlock hmore)
        · cases hw
      · exact .inl ⟨other, k₀, v₀, n + 3, .first hkey hv hunlock⟩

end Loop

/-! ### What is left of a failed call -/

/-- A plain wallet with keys is not locked. -/
def RefusesLock (w : CWallet) : Prop := w.fUseCrypto = false ∧ w.mapKeys.isEmpty = false

theorem RefusesLock.lock {w : CWallet} (h : RefusesLock w) : w.Lock = (false, w) := by
  simp [CWallet.Lock, CWallet.SetCrypted, h.1, h.2]

theorem lock_of_not_refuses {w : CWallet} (h : ¬ RefusesLock w) :
    w.Lock = (true, { w with fUseCrypto := true, vMasterKey := [] }) := by
  obtain ⟨mapKeys, mapCryptedKeys, vMasterKey, fUseCrypto, fFileBacked, masters, last⟩ := w
  cases fUseCrypto with
  | true => rfl
  | false =>
      have hempty : mapKeys.isEmpty = true := by
        cases hempty : mapKeys.isEmpty with
        | true => rfl
        | false => exact absurd ⟨rfl, hempty⟩ h
      simp [CWallet.Lock, CWallet.SetCrypted, hempty]

theorem settled_lock (w : CWallet) : w.Lock.2.SetCrypted.2 = w.Lock.2 := by
  by_cases h : RefusesLock w
  · rw [h.lock]
    simp [CWallet.SetCrypted, h.1, h.2]
  · rw [lock_of_not_refuses h]
    rfl

theorem unchanged_self (c : KeyCrypto) (w : FileWallet) : Unchanged c w w where
  mapMasterKeys _ := rfl
  nMasterKeyMaxID := rfl
  pwalletdbEncryption := rfl
  mapKeys := rfl
  mapCryptedKeys := rfl
  status := rfl
  unlocks _ := rfl

/-- A wallet in which one master key and the key of the key store are replaced. -/
theorem unchanged_replaced_iff {c : KeyCrypto} {w : FileWallet} {nID : ℕ} {k k' : CMasterKey}
    {v : valtype} (hk : w.mapMasterKeys[nID]? = some k) :
    Unchanged c w (.mk { w.toCWallet with fUseCrypto := true, vMasterKey := v
                                          mapMasterKeys := w.mapMasterKeys.insert nID k' }
        w.pwalletdbEncryption) ↔
      w.fUseCrypto = true ∧ v.isEmpty = w.vMasterKey.isEmpty ∧ k' = k := by
  constructor
  · intro h
    have hmaster := h.mapMasterKeys nID
    have hstatus := h.status
    simp only [Std.TreeMap.getElem?_insert_self, hk, Option.some.injEq] at hmaster
    simp only [CWallet.getEncryptionStatus, CWallet.IsLocked] at hstatus
    cases hcrypto : w.fUseCrypto with
    | false => cases hv : v.isEmpty <;> simp [hcrypto, hv] at hstatus
    | true =>
        refine ⟨rfl, ?_, hmaster⟩
        cases hv : v.isEmpty <;> cases hw : w.vMasterKey.isEmpty <;>
          simp [hcrypto, hv, hw] at hstatus ⊢
  · rintro ⟨hcrypto, hv, rfl⟩
    have hmasters : ∀ other : ℕ,
        (w.mapMasterKeys.insert nID k')[other]? = w.mapMasterKeys[other]? := by
      intro other
      rw [Lib.lookup_insert]
      split_ifs with hsame
      · rw [hsame, hk]
      · rfl
    have hlock : SameLock w.toCWallet { w.toCWallet with
        fUseCrypto := true, vMasterKey := v, mapMasterKeys := w.mapMasterKeys.insert nID k' } :=
      ⟨hcrypto.symm, rfl, rfl⟩
    exact
      { mapMasterKeys := hmasters
        nMasterKeyMaxID := rfl
        pwalletdbEncryption := rfl
        mapKeys := rfl
        mapCryptedKeys := rfl
        status := by simp [CWallet.getEncryptionStatus, CWallet.IsLocked, hcrypto, hv]
        unlocks := hlock.unlock hmasters c }

theorem unchanged_locked_iff {c : KeyCrypto} {w : FileWallet} :
    Unchanged c w (.mk w.Lock.2 w.pwalletdbEncryption) ↔
      w.IsLocked = true ∨ RefusesLock w.toCWallet := by
  by_cases hrefuses : RefusesLock w.toCWallet
  · rw [hrefuses.lock]
    exact iff_of_true (unchanged_self c w) (.inr hrefuses)
  rw [lock_of_not_refuses hrefuses, or_iff_left hrefuses]
  constructor
  · intro h
    have hstatus := h.status
    simp only [CWallet.getEncryptionStatus, CWallet.IsLocked] at hstatus
    cases hcrypto : w.fUseCrypto with
    | false => simp [hcrypto] at hstatus
    | true =>
        cases hw : w.vMasterKey.isEmpty with
        | false => simp [hcrypto, hw] at hstatus
        | true => simp [CWallet.IsLocked, hcrypto, hw]
  · intro hlocked
    simp only [CWallet.IsLocked, Bool.and_eq_true, List.isEmpty_iff] at hlocked
    have hsame : ({ w.toCWallet with fUseCrypto := true, vMasterKey := [] } : CWallet) =
        w.toCWallet := by
      rw [← hlocked.1, ← hlocked.2]
    rw [hsame]
    exact unchanged_self c w

/-- A failure after the key store is opened shows nowhere: the wallet was unlocked
before if it is unlocked now, and the iterations measured are those of the master key. -/
structure Traceless (w : CWallet) (k : CMasterKey) (v : valtype) (measured : ℕ) : Prop where
  crypted : w.fUseCrypto = true
  status : v.isEmpty = w.vMasterKey.isEmpty
  iterations : CWallet.deriveIterations measured = k.nDeriveIterations

/-! ### Calls that fail without a change -/

section Calls

variable (c : KeyCrypto) (f : Faults)

/-- When a failed change of the passphrase changes nothing. -/
structure ChangeHarmless (strOldWalletPassphrase strNewWalletPassphrase : valtype) (measured : ℕ)
    (w : CWallet) : Prop where
  missed : Missed c f strOldWalletPassphrase w.Lock.2 w.mapMasterKeys.toList 0 →
    w.IsLocked = true ∨ RefusesLock w
  derived : ∀ nID k v m,
    Opened c f strOldWalletPassphrase w.Lock.2 w.mapMasterKeys.toList 0 nID k v m →
    SetKeyFromPassphrase (f.crypto c (m + 2)) strNewWalletPassphrase k.vchSalt
      (CWallet.deriveIterations measured) k.nDerivationMethod = none →
    Traceless w k v measured
  encrypted : ∀ nID k v m,
    Opened c f strOldWalletPassphrase w.Lock.2 w.mapMasterKeys.toList 0 nID k v m →
    SetKeyFromPassphrase (f.crypto c (m + 2)) strNewWalletPassphrase k.vchSalt
      (CWallet.deriveIterations measured) k.nDerivationMethod ≠ none →
    f.primitive (m + 3) = true →
    Traceless w k v measured ∧ f.leftover (m + 3) = k.vchCryptedKey

/-- When a failed encryption changes nothing. -/
def EncryptHarmless (strWalletPassphrase : valtype) (draws : CWallet.Draws) (w : CWallet) : Prop :=
  w.fUseCrypto = true ∨
    SetKeyFromPassphrase (f.crypto c 2) strWalletPassphrase draws.vchSalt
      (CWallet.deriveIterations draws.measured) 0 = none ∨
    f.primitive 3 = true ∨ w.fFileBacked = false ∨ draws.TxnBegin = true

variable {c f} {strOldWalletPassphrase strNewWalletPassphrase : valtype} {measured nID m : ℕ}
  {fWasLocked : Bool} {k : CMasterKey} {v : valtype} {w : FileWallet}

theorem Opened.record {nID n m : ℕ} {start : CWallet}
    (h : Opened c f strOldWalletPassphrase start w.mapMasterKeys.toList n nID k v m) :
    w.mapMasterKeys[nID]? = some k :=
  Std.TreeMap.mem_toList_iff_getElem?_eq_some.mp h.mem

theorem Opened.not_refuses {nID n m : ℕ} {entries : List (ℕ × CMasterKey)}
    (h : Opened c f strOldWalletPassphrase w.Lock.2 entries n nID k v m) :
    ¬ RefusesLock w.toCWallet := by
  intro hrefuses
  have hsettled := h.settled
  rw [hrefuses.lock] at hsettled
  simp [CWallet.SetCrypted, hrefuses.1, hrefuses.2] at hsettled

theorem Opened.call (h : Opened c f strOldWalletPassphrase w.Lock.2 w.mapMasterKeys.toList 0
      nID k v m) :
    f.ChangeWalletPassphrase c strOldWalletPassphrase strNewWalletPassphrase measured w =
      some ((f.rekey c strNewWalletPassphrase measured w.IsLocked nID k v m
          { w.toCWallet with fUseCrypto := true, vMasterKey := v }).1,
        .mk (f.rekey c strNewWalletPassphrase measured w.IsLocked nID k v m
          { w.toCWallet with fUseCrypto := true, vMasterKey := v }).2 w.pwalletdbEncryption) := by
  unfold Faults.ChangeWalletPassphrase
  rw [h.changeLoop (settled_lock w.toCWallet), lock_of_not_refuses h.not_refuses]
  rfl

theorem Missed.call (h : Missed c f strOldWalletPassphrase w.Lock.2 w.mapMasterKeys.toList 0) :
    f.ChangeWalletPassphrase c strOldWalletPassphrase strNewWalletPassphrase measured w =
      some (false, .mk w.Lock.2 w.pwalletdbEncryption) := by
  unfold Faults.ChangeWalletPassphrase
  rw [h.changeLoop (settled_lock w.toCWallet)]
  rfl

/-- The new passphrase gives no key. -/
theorem rekey_notDerived {wallet : CWallet}
    (hkey : SetKeyFromPassphrase (f.crypto c (m + 2)) strNewWalletPassphrase k.vchSalt
      (CWallet.deriveIterations measured) k.nDerivationMethod = none) :
    f.rekey c strNewWalletPassphrase measured fWasLocked nID k v m wallet =
      (false, { wallet with mapMasterKeys := wallet.mapMasterKeys.insert nID
                              { k with
                                nDeriveIterations := CWallet.deriveIterations measured } }) := by
  unfold Faults.rekey
  simp only [hkey]

/-- `Encrypt` fails. -/
theorem rekey_notEncrypted {wallet : CWallet}
    (hkey : SetKeyFromPassphrase (f.crypto c (m + 2)) strNewWalletPassphrase k.vchSalt
      (CWallet.deriveIterations measured) k.nDerivationMethod ≠ none)
    (hfails : f.primitive (m + 3) = true) :
    f.rekey c strNewWalletPassphrase measured fWasLocked nID k v m wallet =
      (false, { wallet with mapMasterKeys := wallet.mapMasterKeys.insert nID
                              { k with nDeriveIterations := CWallet.deriveIterations measured
                                       vchCryptedKey := f.leftover (m + 3) } }) := by
  obtain ⟨⟨chKey, chIV⟩, hkey⟩ := Option.ne_none_iff_exists'.mp hkey
  unfold Faults.rekey
  simp only [hkey, Faults.Encrypt, hfails, if_true, Bool.not_false]

theorem rekey_encrypted {wallet : CWallet}
    (hkey : SetKeyFromPassphrase (f.crypto c (m + 2)) strNewWalletPassphrase k.vchSalt
      (CWallet.deriveIterations measured) k.nDerivationMethod ≠ none)
    (hworks : f.primitive (m + 3) = false) :
    (f.rekey c strNewWalletPassphrase measured fWasLocked nID k v m wallet).1 = true := by
  obtain ⟨⟨chKey, chIV⟩, hkey⟩ := Option.ne_none_iff_exists'.mp hkey
  unfold Faults.rekey
  simp [hkey, Faults.Encrypt, hworks]

/-- The records of a master key and of the same one with other iterations. -/
theorem iterations_eq_iff {iterations : ℕ} :
    ({ k with nDeriveIterations := iterations } : CMasterKey) = k ↔
      iterations = k.nDeriveIterations := by
  constructor
  · intro h
    exact congrArg CMasterKey.nDeriveIterations h
  · rintro rfl
    rfl

theorem record_eq_iff {iterations : ℕ} {vchCryptedKey : valtype} :
    ({ k with nDeriveIterations := iterations, vchCryptedKey } : CMasterKey) = k ↔
      iterations = k.nDeriveIterations ∧ vchCryptedKey = k.vchCryptedKey := by
  constructor
  · intro h
    exact ⟨congrArg CMasterKey.nDeriveIterations h, congrArg CMasterKey.vchCryptedKey h⟩
  · rintro ⟨rfl, rfl⟩
    rfl

theorem changeWalletPassphrase_harmless_iff :
    (∀ w', f.ChangeWalletPassphrase c strOldWalletPassphrase strNewWalletPassphrase measured w =
        some (false, w') → Unchanged c w w') ↔
      ChangeHarmless c f strOldWalletPassphrase strNewWalletPassphrase measured w.toCWallet := by
  constructor
  · intro h
    refine ⟨fun hmissed => ?_, ?_, ?_⟩
    · exact unchanged_locked_iff.mp (h _ hmissed.call)
    · intro nID k v m hopened hkey
      have hcall : f.ChangeWalletPassphrase c strOldWalletPassphrase strNewWalletPassphrase
          measured w = _ := hopened.call
      rw [rekey_notDerived hkey] at hcall
      obtain ⟨hcrypted, hstatus, hrecord⟩ := (unchanged_replaced_iff hopened.record).mp (h _ hcall)
      exact ⟨hcrypted, hstatus, iterations_eq_iff.mp hrecord⟩
    · intro nID k v m hopened hkey hfails
      have hcall : f.ChangeWalletPassphrase c strOldWalletPassphrase strNewWalletPassphrase
          measured w = _ := hopened.call
      rw [rekey_notEncrypted hkey hfails] at hcall
      obtain ⟨hcrypted, hstatus, hrecord⟩ := (unchanged_replaced_iff hopened.record).mp (h _ hcall)
      obtain ⟨hiterations, hleft⟩ := record_eq_iff.mp hrecord
      exact ⟨⟨hcrypted, hstatus, hiterations⟩, hleft⟩
  · intro h w' hcall
    have hloop : ∃ r, f.changeLoop c strOldWalletPassphrase strNewWalletPassphrase measured
        w.IsLocked w.mapMasterKeys.toList 0 w.Lock.2 = some r := by
      obtain ⟨r, hr, -⟩ := Option.map_eq_some_iff.mp hcall
      exact ⟨r, hr⟩
    obtain ⟨r, hloop⟩ := hloop
    rcases opened_or_missed (settled_lock w.toCWallet) hloop with
      ⟨nID, k, v, m, hopened⟩ | hmissed
    · rw [hopened.call] at hcall
      obtain ⟨hresult, rfl⟩ := Prod.mk.inj (Option.some.inj hcall)
      cases hkey : SetKeyFromPassphrase (f.crypto c (m + 2)) strNewWalletPassphrase k.vchSalt
          (CWallet.deriveIterations measured) k.nDerivationMethod with
      | none =>
          have htraceless := h.derived nID k v m hopened hkey
          rw [rekey_notDerived hkey]
          exact (unchanged_replaced_iff hopened.record).mpr ⟨htraceless.crypted, htraceless.status,
            iterations_eq_iff.mpr htraceless.iterations⟩
      | some key =>
          have hne := Option.ne_none_iff_exists'.mpr ⟨key, hkey⟩
          cases hfails : f.primitive (m + 3) with
          | false =>
              rw [rekey_encrypted hne hfails] at hresult
              cases hresult
          | true =>
              obtain ⟨htraceless, hleft⟩ := h.encrypted nID k v m hopened hne hfails
              rw [rekey_notEncrypted hne hfails]
              exact (unchanged_replaced_iff hopened.record).mpr ⟨htraceless.crypted,
                htraceless.status, record_eq_iff.mpr ⟨htraceless.iterations, hleft⟩⟩
    · rw [hmissed.call] at hcall
      obtain ⟨-, rfl⟩ := Prod.mk.inj (Option.some.inj hcall)
      exact unchanged_locked_iff.mpr (h.missed hmissed)

variable {strWalletPassphrase : valtype} {draws : CWallet.Draws}

theorem finishEncrypting_true {generated : List CKey} {n : ℕ} {wallet : CWallet}
    {r : Bool × List CKey × CWallet}
    (h : f.finishEncrypting c strWalletPassphrase generated n wallet = some r) : r.1 = true := by
  unfold Faults.finishEncrypting at h
  split at h
  · cases h
  · obtain ⟨_, -, rfl⟩ := Option.map_eq_some_iff.mp h
    rfl

/-- An encryption does not return `false` in its transaction. -/
theorem encryptInTransaction_true {r : Bool × List CKey × FileWallet}
    (h : f.encryptInTransaction c strWalletPassphrase draws w = some r) : r.1 = true := by
  unfold Faults.encryptInTransaction at h
  split at h
  · cases h
  · split_ifs at h
    obtain ⟨r', hr', rfl⟩ := Option.map_eq_some_iff.mp h
    exact finishEncrypting_true hr'

theorem encryptWallet_harmless_iff :
    (∀ pool w', f.EncryptWallet c strWalletPassphrase draws w = some (false, pool, w') →
        Unchanged c w w') ↔
      EncryptHarmless c f strWalletPassphrase draws w.toCWallet := by
  unfold EncryptHarmless
  cases hcrypto : w.fUseCrypto with
  | true =>
      refine iff_of_true (fun pool w' h => ?_) (.inl rfl)
      unfold Faults.EncryptWallet at h
      rw [if_pos hcrypto] at h
      cases h
      exact unchanged_self c w
  | false =>
  rcases hkey : SetKeyFromPassphrase (f.crypto c 2) strWalletPassphrase draws.vchSalt
    (CWallet.deriveIterations draws.measured) 0 with _ | ⟨chKey, chIV⟩
  · refine iff_of_true (fun pool w' h => ?_) (.inr (.inl rfl))
    unfold Faults.EncryptWallet at h
    simp only [hcrypto, hkey, Bool.false_eq_true, if_false, Option.some.injEq, Prod.mk.injEq] at h
    obtain ⟨-, -, rfl⟩ := h
    exact unchanged_self c w
  cases hfails : f.primitive 3 with
  | true =>
      refine iff_of_true (fun pool w' h => ?_) (.inr (.inr (.inl rfl)))
      unfold Faults.EncryptWallet at h
      simp only [hcrypto, hkey, Faults.Encrypt, hfails, Bool.false_eq_true, if_false, if_true,
        Bool.not_false, Option.some.injEq, Prod.mk.injEq] at h
      obtain ⟨-, -, rfl⟩ := h
      exact unchanged_self c w
  | false =>
  cases hbegin : w.fFileBacked && !draws.TxnBegin with
  | true =>
      simp only [Bool.and_eq_true, Bool.not_eq_true'] at hbegin
      refine iff_of_false (fun h => ?_) (by simp [hbegin.1, hbegin.2])
      -- the new master key stays, and the number that it was given
      have hlast := (h [] (.mk { w.toCWallet with
        nMasterKeyMaxID := uint32 (w.nMasterKeyMaxID + 1)
        mapMasterKeys := w.mapMasterKeys.insert (uint32 (w.nMasterKeyMaxID + 1))
          { vchCryptedKey := c.EVP_Encrypt chKey chIV draws.vMasterKey, vchSalt := draws.vchSalt
            nDeriveIterations := CWallet.deriveIterations draws.measured } } true) (by
          unfold Faults.EncryptWallet
          simp [hcrypto, hkey, Faults.Encrypt, hfails, hbegin.1, hbegin.2])).nMasterKeyMaxID
      simp only [uint32] at hlast
      omega
  | false =>
      refine iff_of_true (fun pool w' h => ?_) ?_
      · unfold Faults.EncryptWallet at h
        simp only [hcrypto, hkey, Faults.Encrypt, hfails, hbegin, Bool.false_eq_true, if_false,
          Bool.not_true] at h
        cases encryptInTransaction_true h
      · cases hfile : w.fFileBacked with
        | false => exact .inr (.inr (.inr (.inl rfl)))
        | true =>
            rw [hfile, Bool.true_and, Bool.not_eq_false'] at hbegin
            exact .inr (.inr (.inr (.inr hbegin)))

end Calls

/-! ### Failed calls -/

/-- **A failed call leaves the wallet as it was.**  This holds of an encryption
exactly when it does not fail at the start of its transaction, and of a change of the
passphrase exactly when no failure comes after the wallet is opened with the old
passphrase, and none comes before while it was unlocked. -/
theorem failedCalls_change_nothing_iff (c : KeyCrypto) (f : Faults) (w : FileWallet) :
    (∀ strWalletPassphrase draws,
      (∀ pool w', f.EncryptWallet c strWalletPassphrase draws w = some (false, pool, w') →
        Unchanged c w w') ↔ EncryptHarmless c f strWalletPassphrase draws w.toCWallet) ∧
    ∀ strOldWalletPassphrase strNewWalletPassphrase measured,
      (∀ w', f.ChangeWalletPassphrase c strOldWalletPassphrase strNewWalletPassphrase measured w =
          some (false, w') → Unchanged c w w') ↔
        ChangeHarmless c f strOldWalletPassphrase strNewWalletPassphrase measured w.toCWallet :=
  ⟨fun _ _ => encryptWallet_harmless_iff, fun _ _ _ => changeWalletPassphrase_harmless_iff⟩

/-- A new wallet with its first key. -/
def plainFile : FileWallet := .mk (WalletHistory.start plainCipher true firstKey).wallet false

/-- The wallet encrypted and then unlocked. -/
def unlockedFile : Option FileWallet :=
  (Faults.never.EncryptWallet plainCipher [2] (drawing 1 true) plainFile).bind fun encrypted =>
    (encrypted.2.2.toCWallet.Unlock plainCipher [2]).map fun unlocked =>
      .mk unlocked.2 encrypted.2.2.pwalletdbEncryption

/-- The database cannot begin a transaction, and a wrong passphrase is given for an
unlocked wallet. -/
theorem failedCalls_change_something :
    (∃ pool w', Faults.never.EncryptWallet plainCipher [1] (drawing 1 false) plainFile =
        some (false, pool, w') ∧ ¬ Unchanged plainCipher plainFile w') ∧
      ∃ w w', unlockedFile = some w ∧
        Faults.never.ChangeWalletPassphrase plainCipher [1] [3] 0 w = some (false, w') ∧
        ¬ Unchanged plainCipher w w' := by
  constructor
  · have hresult : (Faults.never.EncryptWallet plainCipher [1] (drawing 1 false) plainFile).map
        (fun r => (r.1, r.2.2.nMasterKeyMaxID)) = some (false, 1) := by decide +kernel
    obtain ⟨⟨failed, pool, w'⟩, hcall, hr⟩ := Option.map_eq_some_iff.mp hresult
    obtain ⟨rfl, hlast⟩ := Prod.mk.inj hr
    refine ⟨pool, w', hcall, fun h => ?_⟩
    have hsame := h.nMasterKeyMaxID
    rw [hlast] at hsame
    cases hsame
  · have hresult : (unlockedFile.bind fun w =>
        (Faults.never.ChangeWalletPassphrase plainCipher [1] [3] 0 w).map fun r =>
          (w.getEncryptionStatus, r.1, r.2.getEncryptionStatus)) =
        some (.Unlocked, false, .Locked) := by decide +kernel
    obtain ⟨w, hw, hcall⟩ := Option.bind_eq_some_iff.mp hresult
    obtain ⟨⟨failed, w'⟩, hcall, hr⟩ := Option.map_eq_some_iff.mp hcall
    simp only [Prod.mk.injEq] at hr
    obtain ⟨hunlocked, rfl, hlocked⟩ := hr
    refine ⟨w, w', hw, hcall, fun h => ?_⟩
    have hsame := h.status
    rw [hunlocked, hlocked] at hsame
    cases hsame

end Ziftrcoin.Spec
