/-
Module: Ziftrcoin.Proofs.OwnSignatures
Purpose: What a key store with all private keys signs: for every script of its own
  keys the solver's items open the script, except behind a delayed multisig script.
Trusted boundary: none
Main exports: OwnKeys, OwnKeys.opens_multisig
-/
import Ziftrcoin.Proofs.TemplateRuns

namespace Ziftrcoin.Spec

open Ziftrcoin.Lib

/-! ### Key stores -/

/-- A key store with all private keys, for an ideal signature scheme: public keys are
canonical and have no collisions, every key makes canonical signatures that it verifies,
and redeem scripts lie under their own hash. -/
structure OwnKeys (crypto : Crypto) (keystore : CKeyStore) : Prop where
  pubKey : ∀ keyID vchPubKey, keystore.GetPubKey keyID = some vchPubKey →
    crypto.Hash160 vchPubKey = keyID ∧
      IsCanonicalPubKey vchPubKey SCRIPT_VERIFY_P2SH_STRICTENC = true
  unique : ∀ keyID vchPubKey vch, keystore.GetPubKey keyID = some vchPubKey →
    crypto.Hash160 vch = keyID → vch = vchPubKey
  sign : ∀ keyID vchPubKey attempt hash, keystore.GetPubKey keyID = some vchPubKey →
    ∃ vchSig, keystore.Sign attempt keyID hash = some vchSig ∧
      IsCanonicalSignature (vchSig ++ [UInt8.ofNat SIGHASH_ALL])
        SCRIPT_VERIFY_P2SH_STRICTENC = true ∧
      crypto.Verify vchPubKey hash vchSig = true ∧ vchSig ++ [UInt8.ofNat SIGHASH_ALL] ≠ keyID
  script : ∀ scriptID subscript, keystore.GetCScript scriptID = some subscript →
    crypto.Hash160 subscript = scriptID ∧ subscript.length ≤ MAX_SCRIPT_ELEMENT_SIZE

/-- A canonical signature of the key, with its hash type. -/
structure GoodSig (crypto : Crypto) (hash : uint256) (vchSig vchPubKey : valtype) : Prop where
  canonical : IsCanonicalSignature vchSig SCRIPT_VERIFY_P2SH_STRICTENC = true
  made : ∃ sig, vchSig = sig ++ [UInt8.ofNat SIGHASH_ALL] ∧
    crypto.Verify vchPubKey hash sig = true

section Keys

variable {crypto : Crypto} {keystore : CKeyStore} {hash : uint256} {vchSig vchPubKey : valtype}

theorem canonicalSignature_shape
    (h : IsCanonicalSignature vchSig SCRIPT_VERIFY_P2SH_STRICTENC = true) :
    9 ≤ vchSig.length ∧ vchSig.length ≤ 73 ∧ (vchSig.getD 0 0).toNat = 0x30 := by
  unfold IsCanonicalSignature at h
  simp only [SCRIPT_VERIFY_P2SH_STRICTENC, Bool.true_eq_false, if_false] at h
  split_ifs at h with hlen hfirst
  all_goals omega

theorem canonicalPubKey_shape
    (h : IsCanonicalPubKey vchPubKey SCRIPT_VERIFY_P2SH_STRICTENC = true) :
    33 ≤ vchPubKey.length ∧ vchPubKey.length ≤ 65 ∧ pubKeyIsValid vchPubKey = true ∧
      (vchPubKey.getD 0 0).toNat ≠ 0x30 := by
  unfold IsCanonicalPubKey at h
  simp only [SCRIPT_VERIFY_P2SH_STRICTENC, Bool.true_eq_false, if_false] at h
  cases vchPubKey with
  | nil => simp at h
  | cons chHeader tail =>
      simp only [List.getD_cons_zero] at h ⊢
      split_ifs at h with hshort huncompressed hcompressed
      · rw [beq_iff_eq] at h
        subst huncompressed
        refine ⟨by omega, by omega, ?_, by decide⟩
        simp only [pubKeyIsValid, h]
        decide
      · rw [beq_iff_eq] at h
        refine ⟨by omega, by omega, ?_, ?_⟩
        · simp only [pubKeyIsValid, if_pos hcompressed, h]
          decide
        · rcases hcompressed with rfl | rfl <;> decide

/-- No key is a signature. -/
theorem GoodSig.ne_pubKey {other : valtype} (h : GoodSig crypto hash vchSig other)
    (hpub : IsCanonicalPubKey vchPubKey SCRIPT_VERIFY_P2SH_STRICTENC = true) :
    vchPubKey ≠ vchSig := by
  rintro rfl
  exact (canonicalPubKey_shape hpub).2.2.2 (canonicalSignature_shape h.canonical).2.2

theorem GoodSig.ok {ctx : ScriptContext} {code : CScript}
    (h : GoodSig ctx.crypto hash vchSig vchPubKey)
    (hflags : ctx.flags = SCRIPT_VERIFY_P2SH_STRICTENC)
    (hpub : IsCanonicalPubKey vchPubKey SCRIPT_VERIFY_P2SH_STRICTENC = true)
    (hhash : SignatureHash ctx.crypto code ctx.txTo ctx.nIn SIGHASH_ALL = hash) :
    signatureOk ctx vchSig vchPubKey code = true := by
  have hcanonical := h.canonical
  obtain ⟨sig, rfl, hverify⟩ := h.made
  have htype : (UInt8.ofNat SIGHASH_ALL).toNat = SIGHASH_ALL := by decide
  unfold signatureOk CheckSig
  rw [hflags, hcanonical, hpub, List.getLast?_concat, List.dropLast_concat]
  simp only [htype, hhash, hverify, (canonicalPubKey_shape hpub).2.2.1, Bool.and_self]

/-- The key that a key store has under the identifier of some bytes is those bytes. -/
theorem OwnKeys.key (h : OwnKeys crypto keystore) {vch : valtype}
    (hhave : keystore.HaveKey (keyIDOf crypto vch) = true) :
    keystore.GetPubKey (keyIDOf crypto vch) = some vch ∧
      IsCanonicalPubKey vch SCRIPT_VERIFY_P2SH_STRICTENC = true := by
  obtain ⟨key, hkey⟩ := Option.isSome_iff_exists.mp hhave
  have hcanonical := (h.pubKey _ _ hkey).2
  have hbytes := h.unique _ _ (pubKeyBytes vch) hkey rfl
  have hsame : key = vch := by
    unfold pubKeyBytes at hbytes
    split_ifs at hbytes with hvalid
    · exact hbytes.symm
    · have hsize := (canonicalPubKey_shape hcanonical).1
      rw [← hbytes] at hsize
      exact absurd hsize (by decide)
  rw [← hsame] at hkey ⊢
  exact ⟨hkey, hcanonical⟩

theorem OwnKeys.sign1 (h : OwnKeys crypto keystore) {keyID : CKeyID}
    (hkey : keystore.GetPubKey keyID = some vchPubKey) (attempt : ℕ) (hash : uint256)
    (scriptSigRet : CScript) :
    ∃ vchSig, Sign1 keystore attempt keyID hash SIGHASH_ALL scriptSigRet =
        some (scriptSigRet ++ pushData vchSig) ∧
      GoodSig crypto hash vchSig vchPubKey ∧ keyID ≠ vchSig := by
  obtain ⟨sig, hsign, hcanonical, hverify, hne⟩ := h.sign keyID vchPubKey attempt hash hkey
  refine ⟨_, ?_, ⟨hcanonical, sig, rfl, hverify⟩, hne.symm⟩
  unfold Sign1
  rw [hsign]

/-- The loop of `SignN` over keys that all sign: the first ones do. -/
theorem OwnKeys.signKeys (h : OwnKeys crypto keystore) {nRequired : ℕ} {pubkeys : List valtype}
    (hhave : ∀ pubkey ∈ pubkeys, keystore.HaveKey (keyIDOf crypto pubkey) = true) :
    ∀ (i nSigned : ℕ) (scriptSigRet : CScript), nSigned ≤ nRequired → ∃ sigs,
      List.Forall₂ (GoodSig crypto hash) sigs (pubkeys.take (nRequired - nSigned)) ∧
      signKeys crypto keystore hash SIGHASH_ALL nRequired i pubkeys nSigned scriptSigRet =
        (nSigned + sigs.length, scriptSigRet ++ pushAll sigs) := by
  induction pubkeys with
  | nil =>
      intro i nSigned scriptSigRet _
      exact ⟨[], by simp, by simp [Spec.signKeys, pushAll]⟩
  | cons pubkey pubkeys ih =>
      intro i nSigned scriptSigRet hle
      rw [Spec.signKeys]
      split_ifs with hmore
      · obtain ⟨hkey, -⟩ := h.key (hhave pubkey List.mem_cons_self)
        obtain ⟨vchSig, hsign, hgood, -⟩ := h.sign1 hkey i hash scriptSigRet
        obtain ⟨sigs, hsigs, hrun⟩ := ih (fun key hmem => hhave key (List.mem_cons_of_mem _ hmem))
          (i + 1) (nSigned + 1) (scriptSigRet ++ pushData vchSig) (by omega)
        have htake : nRequired - nSigned = (nRequired - (nSigned + 1)) + 1 := by omega
        refine ⟨vchSig :: sigs, ?_, ?_⟩
        · rw [htake, List.take_succ_cons]
          exact .cons hgood hsigs
        · simp only [hsign, hrun, List.length_cons, Prod.mk.injEq]
          refine ⟨by omega, ?_⟩
          rw [List.append_assoc]
          rfl
      · have hzero : nRequired - nSigned = 0 := by omega
        exact ⟨[], by rw [hzero]; exact .nil, by simp [pushAll]⟩

end Keys

/-! ### Scripts without a delay -/

/-- The items fit into a signature script, and into the stack. -/
structure SmallItems (items : List valtype) : Prop where
  count : items.length ≤ 17
  size : ∀ item ∈ items, item.length ≤ 73

/-- Code that pushes nothing longer than a delay but the solutions. -/
def PushesOnly (code : CScript) (sols : List valtype) : Prop :=
  ∀ op ∈ (ops code).1, op.2.length ≤ 5 ∨ op.2 ∈ sols

/-- The items open what is left of a script: they leave true on the stack. -/
def Opens (crypto : Crypto) (hash : uint256) (items : List valtype) (pc : CScript)
    (sols : List valtype) : Prop :=
  ∀ (ctx : ScriptContext) (code : CScript) (n : ℕ), ctx.crypto = crypto →
    ctx.flags = SCRIPT_VERIFY_P2SH_STRICTENC →
    SignatureHash crypto code ctx.txTo ctx.nIn SIGHASH_ALL = hash → n ≤ 2 →
    PushesOnly code sols →
    ∃ n', RunsTo ctx (standing pc code items.reverse n) (standing [] code [vchTrue] n')

section Templates

variable {crypto : Crypto} {keystore : CKeyStore} {hash : uint256} {type : txnouttype}
  {pc code : CScript} {sols : List valtype} {vchSig vchPubKey : valtype}

theorem GoodSig.code_unchanged {other : valtype} (h : GoodSig crypto hash vchSig other)
    (hcode : PushesOnly code sols) (hne : vchSig ∉ sols) :
    code.FindAndDelete (pushData vchSig) = code := by
  obtain ⟨hlong, hshort, -⟩ := canonicalSignature_shape h.canonical
  refine findAndDelete_eq_self (by omega) fun op hmem heq => ?_
  rcases hcode op hmem with hsize | hsol
  · rw [heq] at hsize
    omega
  · exact hne (heq ▸ hsol)

theorem pubKey_shape (h : MatchesTemplate (baseTemplate .TX_PUBKEY) pc sols) :
    ∃ vchPubKey, sols = [vchPubKey] := by
  obtain ⟨opcode, vch, rest, found, more, hop, hfound, hmore, rfl⟩ :=
    (matchesTemplate_cons_iff (by decide)).mp h
  obtain ⟨_, -, hend⟩ := (matchesTemplate_plain_iff (by decide)).mp hmore
  cases hend
  obtain ⟨-, rfl⟩ := matchTemplateOp_pubKey hfound
  exact ⟨vch, rfl⟩

theorem pubKeyHash_shape (h : MatchesTemplate (baseTemplate .TX_PUBKEYHASH) pc sols) :
    ∃ keyID, keyID.length = 20 ∧ sols = [keyID] := by
  obtain ⟨pc₁, rfl, h₁⟩ := (matchesTemplate_plain_iff (by decide)).mp h
  obtain ⟨pc₂, rfl, h₂⟩ := (matchesTemplate_plain_iff (by decide)).mp h₁
  obtain ⟨_, keyID, _, pc₃, more, -, hlen, -, h₃, rfl⟩ := matchesTemplate_hash_iff.mp h₂
  obtain ⟨pc₄, rfl, h₄⟩ := (matchesTemplate_plain_iff (by decide)).mp h₃
  obtain ⟨pc₅, -, h₅⟩ := (matchesTemplate_plain_iff (by decide)).mp h₄
  cases h₅
  exact ⟨keyID, hlen, rfl⟩

/-- A signature opens a script of the key. -/
theorem OwnKeys.opens_pubKey (h : OwnKeys crypto keystore) (htype : type.undelayed = .TX_PUBKEY)
    (hmatch : MatchesTemplate (baseTemplate .TX_PUBKEY) pc sols)
    (hmine : keystore.HaveKey (keyIDOf crypto (sols.headD [])) = true) :
    ∃ items, solveType crypto keystore type sols hash SIGHASH_ALL = some (pushAll items) ∧
      SmallItems items ∧ Opens crypto hash items pc sols := by
  obtain ⟨vchPubKey, rfl⟩ := pubKey_shape hmatch
  obtain ⟨hkey, hpub⟩ := h.key hmine
  obtain ⟨vchSig, hsign, hgood, -⟩ := h.sign1 hkey 0 hash []
  refine ⟨[vchSig], ?_, ⟨by simp, ?_⟩, ?_⟩
  · rw [pushAll_singleton]
    simp only [solveType, htype]
    exact hsign
  · intro item hitem
    rw [List.mem_singleton.mp hitem]
    exact (canonicalSignature_shape hgood.canonical).2.1
  · rintro ctx code n rfl hflags hhash hn hcode
    have hne : vchSig ∉ [vchPubKey] := fun hmem =>
      hgood.ne_pubKey hpub (List.mem_singleton.mp hmem).symm
    have hdelete := hgood.code_unchanged hcode hne
    have hok : signatureOk ctx vchSig vchPubKey (code.FindAndDelete (pushData vchSig)) = true := by
      rw [hdelete]
      exact hgood.ok hflags hpub hhash
    exact ⟨n + 1, runsTo_pubKey hmatch hok (by decide) (by omega)⟩

/-- A signature and the key open a script of the key's hash. -/
theorem OwnKeys.opens_pubKeyHash (h : OwnKeys crypto keystore)
    (htype : type.undelayed = .TX_PUBKEYHASH)
    (hmatch : MatchesTemplate (baseTemplate .TX_PUBKEYHASH) pc sols)
    (hmine : keystore.HaveKey (sols.headD []) = true) :
    ∃ items, solveType crypto keystore type sols hash SIGHASH_ALL = some (pushAll items) ∧
      SmallItems items ∧ Opens crypto hash items pc sols := by
  obtain ⟨keyID, hlen, rfl⟩ := pubKeyHash_shape hmatch
  obtain ⟨vchPubKey, hkey⟩ := Option.isSome_iff_exists.mp hmine
  obtain ⟨hid, hpub⟩ := h.pubKey _ _ hkey
  obtain ⟨vchSig, hsign, hgood, hne⟩ := h.sign1 hkey 0 hash []
  have hbytes : pubKeyBytes vchPubKey = vchPubKey := if_pos (canonicalPubKey_shape hpub).2.2.1
  refine ⟨[vchSig, vchPubKey], ?_, ⟨by simp, ?_⟩, ?_⟩
  · simp only [List.headD_cons] at hkey hsign
    simp only [solveType, htype, List.headD_cons, hsign, hkey, Option.getD_some, hbytes]
    simp [pushAll]
  · intro item hitem
    rcases List.mem_cons.mp hitem with rfl | hitem
    · exact (canonicalSignature_shape hgood.canonical).2.1
    · rw [List.mem_singleton.mp hitem]
      exact (canonicalPubKey_shape hpub).2.1.trans (by decide)
  · rintro ctx code n rfl hflags hhash hn hcode
    have hne' : vchSig ∉ [keyID] := fun hmem => hne (List.mem_singleton.mp hmem).symm
    have hdelete := hgood.code_unchanged hcode hne'
    have hok : signatureOk ctx vchSig vchPubKey (code.FindAndDelete (pushData vchSig)) = true := by
      rw [hdelete]
      exact hgood.ok hflags hpub hhash
    rw [List.headD_cons] at hid
    rw [← hid] at hmatch
    exact ⟨n + 4, runsTo_pubKeyHash hmatch hok (by decide) (by omega)⟩

/-- What a key store with all the keys signs for a multisig script. -/
theorem OwnKeys.signN (h : OwnKeys crypto keystore) {m k : ℕ} {keys : List valtype} (hm : m ≤ 16)
    (hhave : ∀ key ∈ keys, keystore.HaveKey (keyIDOf crypto key) = true) :
    ∃ sigs, List.Forall₂ (GoodSig crypto hash) sigs (keys.take m) ∧
      SignN crypto ([UInt8.ofNat m] :: keys ++ [[UInt8.ofNat k]]) keystore hash SIGHASH_ALL
          [UInt8.ofNat OP_0] =
        if sigs.length = m then some (pushAll ([] :: sigs)) else none := by
  obtain ⟨sigs, hsigs, hrun⟩ := @OwnKeys.signKeys crypto keystore hash h m keys hhave 1 0
    [UInt8.ofNat OP_0] (Nat.zero_le _)
  refine ⟨sigs, by simpa using hsigs, ?_⟩
  have hkeys : (([UInt8.ofNat m] :: keys ++ [[UInt8.ofNat k]]).drop 1).dropLast = keys := by
    rw [List.cons_append, List.drop_one, List.tail_cons, List.dropLast_concat]
  have hhead : ((([UInt8.ofNat m] :: keys ++ [[UInt8.ofNat k]]).headD []).headD 0).toNat = m :=
    headD_byte hm
  unfold SignN
  simp only [hhead, hkeys, hrun, Nat.zero_add]
  rfl

/-- What own keys have made is accepted. -/
theorem goodSigs_ok {ctx : ScriptContext} {sigs used : List valtype}
    (hsigs : List.Forall₂ (GoodSig ctx.crypto hash) sigs used)
    (hflags : ctx.flags = SCRIPT_VERIFY_P2SH_STRICTENC)
    (hpub : ∀ key ∈ used, IsCanonicalPubKey key SCRIPT_VERIFY_P2SH_STRICTENC = true)
    (hhash : SignatureHash ctx.crypto code ctx.txTo ctx.nIn SIGHASH_ALL = hash) :
    List.Forall₂ (fun sig key => signatureOk ctx sig key code = true) sigs used := by
  induction hsigs with
  | nil => exact .nil
  | cons hgood _ ih =>
      refine .cons (hgood.ok hflags (hpub _ List.mem_cons_self) hhash)
        (ih fun key hmem => hpub key (List.mem_cons_of_mem _ hmem))

/-- The signatures of a list of keys, one by one. -/
theorem goodSigs_canonical {sigs used : List valtype}
    (h : List.Forall₂ (GoodSig crypto hash) sigs used) :
    ∀ vchSig ∈ sigs, ∃ vchPubKey, GoodSig crypto hash vchSig vchPubKey := by
  induction h with
  | nil => exact fun _ hmem => absurd hmem List.not_mem_nil
  | cons hgood _ ih =>
      intro vchSig hmem
      rcases List.mem_cons.mp hmem with rfl | hmem
      · exact ⟨_, hgood⟩
      · exact ih vchSig hmem

/-- The items for a multisig script, with the empty one that the check leaves over. -/
theorem smallItems_sigs {sigs used : List valtype}
    (h : List.Forall₂ (GoodSig crypto hash) sigs used) (hfew : sigs.length ≤ 16) :
    SmallItems ([] :: sigs) where
  count := by
    rw [List.length_cons]
    omega
  size := by
    intro item hitem
    rcases List.mem_cons.mp hitem with rfl | hitem
    · exact Nat.zero_le _
    · obtain ⟨_, hgood⟩ := goodSigs_canonical h item hitem
      exact (canonicalSignature_shape hgood.canonical).2.1

/-- The first keys' signatures open a multisig script. -/
theorem OwnKeys.opens_multisig (h : OwnKeys crypto keystore) {m : ℕ} {keys : List valtype}
    (htype : type.undelayed = .TX_MULTISIG) (hscript : MultisigScript pc m keys.length keys)
    (hle : m ≤ keys.length)
    (hmine : ∀ key ∈ keys, keystore.HaveKey (keyIDOf crypto key) = true) :
    ∃ items, solveType crypto keystore type
        ([UInt8.ofNat m] :: keys ++ [[UInt8.ofNat keys.length]]) hash SIGHASH_ALL =
          some (pushAll items) ∧
      SmallItems items ∧
      Opens crypto hash items pc ([UInt8.ofNat m] :: keys ++ [[UInt8.ofNat keys.length]]) := by
  have hm := hscript.2.1
  have hk := hscript.2.2
  obtain ⟨sigs, hsigs, hsign⟩ := @OwnKeys.signN crypto keystore hash h m keys.length keys hm hmine
  have hlen : sigs.length = m := by
    rw [hsigs.length_eq, List.length_take, Nat.min_eq_left hle]
  have hgood := goodSigs_canonical hsigs
  have hpub : ∀ key ∈ keys, IsCanonicalPubKey key SCRIPT_VERIFY_P2SH_STRICTENC = true :=
    fun key hmem => (h.key (hmine key hmem)).2
  refine ⟨[] :: sigs, ?_, smallItems_sigs hsigs (hlen ▸ hm), ?_⟩
  · simp only [solveType, htype, hsign, if_pos hlen]
  · rintro ctx code n rfl hflags hhash hn hcode
    have hdelete : ∀ vchSig ∈ sigs, code.FindAndDelete (pushData vchSig) = code := by
      intro vchSig hmem
      obtain ⟨_, hsig⟩ := hgood vchSig hmem
      refine hsig.code_unchanged hcode fun hsol => ?_
      have hlong := (canonicalSignature_shape hsig.canonical).1
      simp only [List.cons_append, List.mem_cons, List.mem_append, List.not_mem_nil,
        or_false] at hsol
      rcases hsol with rfl | hkey | rfl
      · exact absurd hlong (by simp)
      · exact hsig.ne_pubKey (hpub _ hkey) rfl
      · exact absurd hlong (by simp)
    have hok := goodSigs_ok hsigs hflags (fun key hmem => hpub key (List.mem_of_mem_take hmem))
      hhash
    exact ⟨_, runsTo_signedMultisig hscript hlen hok (List.take_sublist m keys) hdelete hn⟩

end Templates

end Ziftrcoin.Spec
