/-
Module: Ziftrcoin.Proofs.KeyDerivation
Purpose: Deriving children of a private key and of its public key comes to the same, and
  extended keys come back from the bytes that they are written as.
Trusted boundary: none
Main exports: KeyGroup.Lawful, CExtKey.deriveAll_neuter
-/
import Mathlib.Data.ZMod.Basic
import Ziftrcoin.Proofs.NetworkFormat
import Ziftrcoin.Spec.ExtKey

namespace Ziftrcoin.Spec

section

variable {P : Type} [AddCommGroup P] [DecidableEq P] {E : KeyGroup P}

/-- What is known of the curve: the order of the generator, and that a point other than
infinity has 33 bytes when it is compressed, from which it comes back. -/
structure KeyGroup.Lawful (E : KeyGroup P) : Prop where
  order : ∀ n : ℕ, n • E.generator = 0 ↔ curveOrder ∣ n
  compressed : ∀ p, p ≠ 0 →
    pubKeyIsValid (E.toBytes true p) = true ∧ (E.toBytes true p).length = 33
  ofBytes_toBytes : ∀ p, p ≠ 0 → E.ofBytes (E.toBytes true p) = some p

/-! ### Private keys -/

theorem CKey.secret_range (key : CKey) : 0 < key.secret ∧ key.secret < curveOrder :=
  (checkKey_iff key.size).mp key.valid

@[simp] theorem CKey.secret_ofSecret (n : ℕ) (h : 0 < n ∧ n < curveOrder) :
    (CKey.ofSecret n h).secret = n :=
  readBigEndian_beBytes (h.2.trans curveOrder_lt)

namespace KeyGroup.Lawful

variable (hE : E.Lawful)
include hE

omit [DecidableEq P] in
theorem mod_smul (n : ℕ) : (n % curveOrder) • E.generator = n • E.generator := by
  have hmultiple : (curveOrder * (n / curveOrder)) • E.generator = 0 :=
    (hE.order _).mpr (Dvd.intro _ rfl)
  calc (n % curveOrder) • E.generator
      = (n % curveOrder) • E.generator + (curveOrder * (n / curveOrder)) • E.generator := by
        rw [hmultiple, add_zero]
    _ = n • E.generator := by rw [← add_nsmul, Nat.mod_add_div]

omit [DecidableEq P] in
theorem secret_smul_ne_zero (key : CKey) : key.secret • E.generator ≠ 0 := by
  obtain ⟨hpos, hlt⟩ := key.secret_range
  rw [ne_eq, hE.order]
  exact Nat.not_dvd_of_pos_of_lt hpos hlt

omit [DecidableEq P] in
/-- The public key of a compressed key: its bytes and the point that they are. -/
theorem getPubKey {key : CKey} (hcompressed : key.fCompressed = true) :
    ∃ header data, key.GetPubKey E = header :: data ∧ data.length = 32 ∧
      pubKeyIsValid (key.GetPubKey E) = true ∧
      E.ofBytes (key.GetPubKey E) = some (key.secret • E.generator) := by
  unfold CKey.GetPubKey
  rw [hcompressed]
  obtain ⟨hvalid, hlength⟩ := hE.compressed _ (hE.secret_smul_ne_zero key)
  cases hbytes : E.toBytes true (key.secret • E.generator) with
  | nil => simp [hbytes] at hlength
  | cons header data =>
      rw [← hbytes]
      exact ⟨header, data, hbytes, by simpa [hbytes] using hlength, hvalid,
        hE.ofBytes_toBytes _ (hE.secret_smul_ne_zero key)⟩

/-- Adding to the number of a private key and adding to its point come to the same. -/
theorem tweak (key : CKey) (nTweak : ℕ) :
    (TweakPublic E (key.secret • E.generator) nTweak).2 =
        (TweakSecret key.secret nTweak).isSome ∧
      ∀ n, TweakSecret key.secret nTweak = some n →
        (TweakPublic E (key.secret • E.generator) nTweak).1 = n.1 • E.generator := by
  have hsum : nTweak • E.generator + key.secret • E.generator =
      ((key.secret + nTweak) % curveOrder) • E.generator := by
    rw [hE.mod_smul, Nat.add_comm, add_nsmul]
  have hzero : nTweak • E.generator + key.secret • E.generator = 0 ↔
      (key.secret + nTweak) % curveOrder = 0 := by
    rw [hsum, hE.mod_smul, hE.order, Nat.dvd_iff_mod_eq_zero]
  unfold TweakPublic TweakSecret
  dsimp only
  split
  · next h =>
      refine ⟨?_, fun n hn => ?_⟩
      · rw [decide_eq_true h.1, Bool.true_and, Option.isSome_some, decide_eq_true_eq, ne_eq,
          hzero]
        exact h.2
      · rw [← Option.some.inj hn]
        exact hsum
  · next h =>
      refine ⟨?_, fun n hn => nomatch hn⟩
      rw [Option.isSome_none, Bool.and_eq_false_iff, decide_eq_false_iff_not,
        decide_eq_false_iff_not, not_not, hzero]
      exact (not_and_or.mp h).imp_right not_not.mp

end KeyGroup.Lawful

/-! ### Children -/

theorem CKey.compressed_of_tweaked {key key' : CKey} {out : ByteArrayOf (32 + 32)}
    (h : (key.tweaked out).1 = some key') : key'.fCompressed = true := by
  unfold CKey.tweaked at h
  obtain ⟨n, -, rfl⟩ := Option.map_eq_some_iff.mp h
  rfl

/-- Deriving a child of a compressed key fails no assertion. -/
theorem CKey.derive_spec (hE : E.Lawful) {key : CKey} (hcompressed : key.fCompressed = true)
    (nChild : UInt32) (cc : ByteArrayOf 32) :
    ∃ out, key.Derive E nChild cc = some (key.tweaked out) ∧
      (IsPublicChild nChild = true → PubKeyDerive E (key.GetPubKey E) nChild cc =
        some (E.toBytes true (TweakPublic E (key.secret • E.generator)
          (readBigEndian (out.1.take 32))).1, out.behind 32, (key.tweaked out).1.isSome)) := by
  obtain ⟨header, data, hbytes, hlength, hvalid, hpoint⟩ := hE.getPubKey hcompressed
  unfold CKey.Derive PubKeyDerive
  rw [hcompressed, if_neg (by decide), hvalid, hpoint, hbytes]
  cases hpublic : IsPublicChild nChild with
  | false => exact ⟨_, rfl, fun h => nomatch h⟩
  | true =>
      refine ⟨BIP32Hash E cc nChild header data, ?_, fun _ => ?_⟩
      · exact if_pos hlength
      · rw [if_neg (by simp)]
        dsimp only
        rw [if_pos hlength]
        unfold CKey.tweaked
        rw [Option.isSome_map, ← (hE.tweak key _).1]

/-- A key from which children can be derived. -/
def CExtKey.Ready (k : CExtKey) : Prop := ∃ key, k.key = some key ∧ key.fCompressed = true

omit [AddCommGroup P] [DecidableEq P] in
/-- A master key is ready, unless its seed hashes to bytes that are no private key. -/
theorem CExtKey.setMaster_ready {seed : valtype} (h : (SetMaster E seed).key.isSome = true) :
    (SetMaster E seed).Ready := by
  obtain ⟨key, hkey⟩ := Option.isSome_iff_exists.1 h
  refine ⟨key, hkey, ?_⟩
  unfold SetMaster CKey.Set at hkey
  dsimp only at hkey
  split at hkey
  · exact (Option.some.inj hkey) ▸ rfl
  · exact nomatch hkey

omit [DecidableEq P] in
theorem CExtKey.derive_eq {k : CExtKey} {key : CKey} {nChild : UInt32}
    {r : Option CKey × ByteArrayOf 32} (hkey : k.key = some key)
    (hr : key.Derive E nChild k.vchChainCode = some r) :
    k.Derive E nChild =
      some (⟨k.toExtKeyData.child E (key.GetPubKey E) nChild r.2, r.1⟩, r.1.isSome) := by
  unfold CExtKey.Derive
  rw [hkey, Option.bind_eq_bind, Option.bind_some, hr]
  rfl

/-- Deriving a child of a ready key fails no assertion, and returns true when the child is
ready. -/
theorem CExtKey.derive_spec (hE : E.Lawful) {k : CExtKey} (hk : k.Ready) (nChild : UInt32) :
    ∃ child, k.Derive E nChild = some (child, child.key.isSome) ∧
      (child.key.isSome = true → child.Ready) := by
  obtain ⟨key, hkey, hcompressed⟩ := hk
  obtain ⟨out, hout, -⟩ := key.derive_spec hE hcompressed nChild k.vchChainCode
  refine ⟨_, CExtKey.derive_eq hkey hout, fun hsome => ?_⟩
  obtain ⟨key', hkey'⟩ := Option.isSome_iff_exists.mp hsome
  exact ⟨key', hkey', CKey.compressed_of_tweaked hkey'⟩

/-- Deriving a public child and dropping the private key is dropping the private key and
deriving the child. -/
theorem CExtKey.derive_neuter (hE : E.Lawful) {k : CExtKey} {p : CExtPubKey} (hk : k.Ready)
    (hp : k.Neuter E = some p) {nChild : UInt32} (hpublic : IsPublicChild nChild = true) :
    ∃ child childPub, k.Derive E nChild = some (child, child.key.isSome) ∧
      p.Derive E nChild = some (childPub, child.key.isSome) ∧
      (child.key.isSome = true → child.Ready ∧ child.Neuter E = some childPub) := by
  obtain ⟨key, hkey, hcompressed⟩ := hk
  obtain ⟨out, hout, hpub⟩ := key.derive_spec hE hcompressed nChild k.vchChainCode
  unfold CExtKey.Neuter at hp
  rw [hkey, Option.map_some, Option.some.injEq] at hp
  subst hp
  refine ⟨_, ⟨k.toExtKeyData.child E (key.GetPubKey E) nChild (out.behind 32), E.toBytes true
    (TweakPublic E (key.secret • E.generator) (readBigEndian (out.1.take 32))).1⟩,
    CExtKey.derive_eq hkey hout, ?_, fun hsome => ?_⟩
  · unfold CExtPubKey.Derive
    rw [hpub hpublic]
    rfl
  · obtain ⟨key', hkey'⟩ := Option.isSome_iff_exists.mp hsome
    refine ⟨⟨key', hkey', CKey.compressed_of_tweaked hkey'⟩, ?_⟩
    have htweaked := hkey'
    unfold CKey.tweaked at htweaked
    obtain ⟨n, hn, rfl⟩ := Option.map_eq_some_iff.mp htweaked
    unfold CExtKey.Neuter
    rw [hkey', Option.map_some, (hE.tweak key _).2 n hn]
    unfold CKey.GetPubKey
    rw [CKey.secret_ofSecret]
    rfl

end

/-! ### A group to try them with -/

instance : NeZero curveOrder := ⟨by decide⟩

/-- The residues, which are a group of that order; a residue is its own point. -/
def residueGroup : KeyGroup (ZMod curveOrder) :=
  { generator := 1
    toBytes := fun _ p => 2 :: beBytes 32 p.val
    ofBytes := fun vch => some (readBigEndian vch.tail)
    HMAC_SHA512 := fun _ _ => ⟨List.replicate 64 1, rfl⟩
    GetID := fun _ => ⟨List.replicate 20 0, rfl⟩ }

theorem lawful_residueGroup : residueGroup.Lawful where
  order := by
    intro n
    change n • (1 : ZMod curveOrder) = 0 ↔ _
    rw [nsmul_one, ZMod.natCast_eq_zero_iff]
  compressed := by
    intro p _
    simp [residueGroup, pubKeyIsValid]
  ofBytes_toBytes := by
    intro p _
    change some (readBigEndian (beBytes 32 p.val) : ZMod curveOrder) = some p
    rw [readBigEndian_beBytes ((ZMod.val_lt p).trans curveOrder_lt), ZMod.natCast_zmod_val]

theorem length_zeros (n : ℕ) : (List.replicate n (0 : UInt8)).length = n :=
  List.length_replicate

theorem one_inRange : 0 < 1 ∧ 1 < curveOrder := by decide

/-- An extended key of the smallest private key. -/
def smallestExtKey : CExtKey :=
  let zeros (n : ℕ) : ByteArrayOf n := ⟨List.replicate n 0, length_zeros n⟩
  ⟨⟨0, zeros 4, 0, zeros 32⟩, some (.ofSecret 1 one_inRange)⟩

theorem ready_smallestExtKey : smallestExtKey.Ready := ⟨_, rfl, rfl⟩

/-! ### Paths -/

section

variable {P : Type} [AddCommGroup P] [DecidableEq P] {E : KeyGroup P}

/-- **Public derivation is enough.**  From a valid key with a compressed public key, down
any path of children that are derived from public keys, deriving private keys and deriving
public keys fail no assertion, stop at the same child if they stop, and otherwise end at a
private key and at its public key. -/
theorem CExtKey.deriveAll_neuter (hE : E.Lawful) :
    ∀ {path : List UInt32} {k : CExtKey} {p : CExtPubKey}, k.Ready → k.Neuter E = some p →
      (∀ nChild ∈ path, IsPublicChild nChild = true) →
      ∃ r, deriveAll (CExtKey.Derive E) k path = some r ∧
        deriveAll (CExtPubKey.Derive E) p path = some (r.bind (CExtKey.Neuter E)) ∧
        ∀ k' ∈ r, (k'.Neuter E).isSome = true
  | [], k, p, _, hp, _ => by
      refine ⟨some k, rfl, ?_, ?_⟩
      · rw [Option.bind_some, hp]
        rfl
      · rintro k' ⟨⟩
        rw [hp]
        rfl
  | nChild :: path, k, p, hk, hp, hpath => by
      rw [List.forall_mem_cons] at hpath
      obtain ⟨child, childPub, hchild, hchildPub, hready⟩ := derive_neuter hE hk hp hpath.1
      rw [deriveAll, deriveAll, hchild, hchildPub]
      cases hret : child.key.isSome with
      | false => exact ⟨none, rfl, rfl, fun _ h => nomatch h⟩
      | true =>
          obtain ⟨hnext, hneuter⟩ := hready hret
          exact deriveAll_neuter hE hnext hneuter hpath.2

theorem deriveAll_neuter_smallestExtKey :
    ∃ r, deriveAll (CExtKey.Derive residueGroup) smallestExtKey [0, 5] = some r ∧
      deriveAll (CExtPubKey.Derive residueGroup)
        ⟨smallestExtKey.toExtKeyData, (CKey.ofSecret 1 (by decide)).GetPubKey residueGroup⟩
        [0, 5] = some (r.bind (CExtKey.Neuter residueGroup)) ∧
      ∀ k' ∈ r, (k'.Neuter residueGroup).isSome = true :=
  CExtKey.deriveAll_neuter lawful_residueGroup ready_smallestExtKey rfl
    (List.forall_mem_cons.2 ⟨by decide, List.forall_mem_singleton.2 (by decide)⟩)

/-- A path of any children from a ready key fails no assertion and ends at a ready key. -/
theorem CExtKey.deriveAll_ready (hE : E.Lawful) :
    ∀ (path : List UInt32) {k : CExtKey}, k.Ready →
      ∃ r, deriveAll (CExtKey.Derive E) k path = some r ∧ ∀ k' ∈ r, k'.Ready
  | [], k, hk => ⟨some k, rfl, fun _ h => Option.some.inj h ▸ hk⟩
  | nChild :: path, k, hk => by
      obtain ⟨child, hchild, hready⟩ := derive_spec hE hk nChild
      rw [deriveAll, hchild]
      cases hret : child.key.isSome with
      | false => exact ⟨none, rfl, fun _ h => nomatch h⟩
      | true => exact deriveAll_ready hE path (hready hret)

end

/-! ### The bytes of a key -/

/-- The fields of the bytes, one behind the other. -/
structure Fields (code : valtype) (nDepth : UInt8) (fingerprint num chainCode key : valtype) :
    Prop where
  eq : code = nDepth :: (fingerprint ++ (num ++ (chainCode ++ key)))
  fingerprint_length : fingerprint.length = 4
  num_length : num.length = 4
  chainCode_length : chainCode.length = 32

namespace Fields

variable {code fingerprint num chainCode key : valtype} {nDepth : UInt8}

theorem drop_five (h : Fields code nDepth fingerprint num chainCode key) :
    code.drop 5 = num ++ (chainCode ++ key) := by
  rw [h.eq]
  exact List.drop_left' h.fingerprint_length

theorem drop_nine (h : Fields code nDepth fingerprint num chainCode key) :
    code.drop 9 = chainCode ++ key := by
  rw [show 9 = 5 + 4 from rfl, ← List.drop_drop, h.drop_five]
  exact List.drop_left' h.num_length

/-- Reading the fields. -/
theorem decode (h : Fields code nDepth fingerprint num chainCode key) (hcode : code.length = 74) :
    ExtKeyData.decode ⟨code, hcode⟩ =
      ⟨nDepth, ⟨fingerprint, h.fingerprint_length⟩, UInt32.ofNat (readBigEndian num),
        ⟨chainCode, h.chainCode_length⟩⟩ := by
  have hnum : (code.drop 5).take 4 = num := by
    rw [h.drop_five]
    exact List.take_left' h.num_length
  have hchainCode : (code.drop 9).take 32 = chainCode := by
    rw [h.drop_nine]
    exact List.take_left' h.chainCode_length
  have hfingerprint : (code.drop 1).take 4 = fingerprint := by
    rw [h.eq]
    exact List.take_left' h.fingerprint_length
  have hdepth : code.headD 0 = nDepth := by
    rw [h.eq]
    rfl
  unfold ExtKeyData.decode
  simp only [hnum, hchainCode, hfingerprint, hdepth]

end Fields

theorem fields_encode (data : ExtKeyData) (key : valtype) :
    Fields (data.encode ++ key) data.nDepth data.vchFingerprint.1
      (beBytes 4 data.nChild.toNat) data.vchChainCode.1 key :=
  ⟨by simp [ExtKeyData.encode], data.vchFingerprint.2, length_beBytes 4 _, data.vchChainCode.2⟩

theorem ExtKeyData.length_encode (data : ExtKeyData) : data.encode.length = 41 := by
  simp [ExtKeyData.encode, data.vchFingerprint.2, data.vchChainCode.2]

theorem ExtKeyData.decode_encode {data : ExtKeyData} {key : valtype}
    (h : (data.encode ++ key).length = 74) :
    ExtKeyData.decode ⟨data.encode ++ key, h⟩ = data := by
  rw [(fields_encode data key).decode h, readBigEndian_beBytes data.nChild.toNat_lt,
    UInt32.ofNat_toNat]

theorem CKey.set_self (key : CKey) : CKey.Set key.vch key.fCompressed = some key := by
  unfold CKey.Set
  rw [dif_pos ⟨key.size, key.valid⟩]

/-- A compressed key comes back from its bytes. -/
theorem CExtKey.Ready.decode_encode {k : CExtKey} (h : k.Ready) :
    ∃ code : ByteArrayOf 74, k.Encode = some code.1 ∧ CExtKey.Decode code = k := by
  obtain ⟨key, hkey, hcompressed⟩ := h
  have hlength : (k.toExtKeyData.encode ++ 0 :: key.vch).length = 74 := by
    simp [ExtKeyData.length_encode, key.size]
  refine ⟨⟨_, hlength⟩, ?_, ?_⟩
  · unfold CExtKey.Encode
    rw [hkey, Option.map_some]
  · have hdrop : (k.toExtKeyData.encode ++ 0 :: key.vch).drop 42 = key.vch := by
      rw [show 42 = 41 + 1 from rfl, ← List.drop_drop,
        List.drop_left' k.toExtKeyData.length_encode, List.drop_one, List.tail_cons]
    unfold CExtKey.Decode
    dsimp only
    rw [ExtKeyData.decode_encode hlength, hdrop, ← hcompressed, key.set_self, ← hkey]

theorem CExtPubKey.decode_encode {p : CExtPubKey} (hvalid : pubKeyIsValid p.pubkey = true)
    (hsize : p.pubkey.length = 33) :
    ∃ code : ByteArrayOf 74, p.Encode = some code.1 ∧ CExtPubKey.Decode code = p := by
  have hlength : (p.toExtKeyData.encode ++ p.pubkey).length = 74 := by
    simp [ExtKeyData.length_encode, hsize]
  refine ⟨⟨_, hlength⟩, if_pos ⟨hvalid, hsize⟩, ?_⟩
  unfold CExtPubKey.Decode
  dsimp only
  rw [ExtKeyData.decode_encode hlength, List.drop_left' p.toExtKeyData.length_encode,
    if_pos hvalid]

section

variable {P : Type} [AddCommGroup P] [DecidableEq P] {E : KeyGroup P}

/-- **Extended keys come back from their bytes**: every key that can be derived from a valid
one, and its public key, however the children are derived. -/
theorem CExtKey.derived_roundTrip (hE : E.Lawful) {k : CExtKey} (hk : k.Ready)
    (path : List UInt32) :
    ∃ r, deriveAll (CExtKey.Derive E) k path = some r ∧ ∀ k' ∈ r,
      (∃ code : ByteArrayOf 74, k'.Encode = some code.1 ∧ CExtKey.Decode code = k') ∧
      ∃ p, k'.Neuter E = some p ∧
        ∃ code : ByteArrayOf 74, p.Encode = some code.1 ∧ CExtPubKey.Decode code = p := by
  obtain ⟨r, hr, hready⟩ := CExtKey.deriveAll_ready hE path hk
  refine ⟨r, hr, fun k' hk' => ⟨(hready k' hk').decode_encode, ?_⟩⟩
  obtain ⟨key, hkey, hcompressed⟩ := hready k' hk'
  obtain ⟨header, data, hbytes, hlength, hvalid, -⟩ := hE.getPubKey hcompressed
  refine ⟨⟨k'.toExtKeyData, key.GetPubKey E⟩, ?_, CExtPubKey.decode_encode hvalid ?_⟩
  · unfold CExtKey.Neuter
    rw [hkey, Option.map_some]
  · dsimp only
    rw [hbytes, List.length_cons, hlength]

theorem derived_roundTrip_smallestExtKey :
    ∃ r, deriveAll (CExtKey.Derive residueGroup) smallestExtKey [0, 0x80000000] = some r ∧
      ∀ k' ∈ r,
        (∃ code : ByteArrayOf 74, k'.Encode = some code.1 ∧ CExtKey.Decode code = k') ∧
        ∃ p, k'.Neuter residueGroup = some p ∧
          ∃ code : ByteArrayOf 74, p.Encode = some code.1 ∧ CExtPubKey.Decode code = p :=
  CExtKey.derived_roundTrip lawful_residueGroup ready_smallestExtKey [0, 0x80000000]

end

end Ziftrcoin.Spec
