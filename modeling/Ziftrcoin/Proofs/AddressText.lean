/-
Module: Ziftrcoin.Proofs.AddressText
Purpose: From the text of an address to the script that pays to it and back, and from the
  text of a private key to the key and back.
Trusted boundary: none
Main exports: CTxDestination.Sized, secret_text
-/
import Ziftrcoin.Proofs.Base58
import Ziftrcoin.Proofs.TemplateShapes
import Ziftrcoin.Spec.Addresses

namespace Ziftrcoin.Spec

/-! ### The script of a destination -/

/-- A destination that is one, with a hash of 160 bits. -/
def CTxDestination.Sized : CTxDestination → Prop
  | .CNoDestination => False
  | .CKeyID id => id.length = 20
  | .CScriptID id => id.length = 20

/-- A script pays to the destination that it was made for. -/
theorem extractDestination_setDestination (crypto : Crypto) {dest : CTxDestination}
    (h : dest.Sized) : ExtractDestination crypto (SetDestination dest) = some dest := by
  cases dest with
  | CNoDestination => exact h.elim
  | CKeyID id =>
      have hid : id.length = 20 := h
      obtain ⟨opcode, -, hinstr⟩ := instruction_pushData (b := id) (by omega)
      have hmatches : MatchesTemplate [OP_DUP, OP_HASH160, OP_HASH160HASH, OP_EQUALVERIFY,
          OP_CHECKSIG] (SetDestination (.CKeyID id)) [id] := by
        rw [matchesTemplate_plain_iff (by decide)]
        refine ⟨_, rfl, ?_⟩
        rw [matchesTemplate_plain_iff (by decide)]
        refine ⟨_, rfl, ?_⟩
        rw [matchesTemplate_hash_iff]
        refine ⟨opcode, id, _, _, [], hinstr, hid, rfl, ?_, rfl⟩
        rw [matchesTemplate_plain_iff (by decide)]
        refine ⟨_, rfl, ?_⟩
        rw [matchesTemplate_plain_iff (by decide)]
        exact ⟨_, rfl, .nil⟩
      have hsolver : Solver (SetDestination (.CKeyID id)) = some (.TX_PUBKEYHASH, [id]) :=
        (solver_iff (by decide)).mpr ⟨_, by decide, hmatches, fun h => nomatch h⟩
      unfold ExtractDestination
      rw [hsolver]
      rfl
  | CScriptID id =>
      have hid : id.length = 20 := h
      obtain ⟨opcode, -, hinstr⟩ := instruction_pushData (b := id) (by omega)
      have hmatches : MatchesTemplate [OP_HASH160, OP_HASH160HASH, OP_EQUAL]
          (SetDestination (.CScriptID id)) [id] := by
        rw [matchesTemplate_plain_iff (by decide)]
        refine ⟨_, rfl, ?_⟩
        rw [matchesTemplate_hash_iff]
        refine ⟨opcode, id, _, _, [], hinstr, hid, rfl, ?_, rfl⟩
        rw [matchesTemplate_plain_iff (by decide)]
        exact ⟨_, rfl, .nil⟩
      have hsolver : Solver (SetDestination (.CScriptID id)) = some (.TX_SCRIPTHASH, [id]) :=
        (solver_iff (by decide)).mpr ⟨_, by decide, hmatches, fun h => nomatch h⟩
      unfold ExtractDestination
      rw [hsolver]
      rfl

/-! ### Text with a version -/

section

variable (Hash : valtype → uint256)

/-- What is written with a version of one byte is read back. -/
theorem setString_toString {data : CBase58Data} (h : data.vchVersion.length = 1) :
    ∃ text, data.ToString Hash = some text ∧
      CBase58Data.SetString Hash text 1 = some (true, data) := by
  obtain ⟨text, hencode, hdecode⟩ :=
    decodeBase58Check_encode Hash (data.vchVersion ++ data.vchData) []
  refine ⟨text, hencode, ?_⟩
  unfold CBase58Data.SetString
  rw [hdecode]
  dsimp only
  rw [if_neg (by simp [h]), List.take_left' h, List.drop_left' h]

/-- What has been read is written without the spaces around it. -/
theorem toString_of_setString {text : CString} {data : CBase58Data}
    (h : CBase58Data.SetString Hash text 1 = some (true, data)) :
    data.ToString Hash = some (stripSpaces text) := by
  unfold CBase58Data.SetString at h
  split at h
  · cases h
  · next rc58 vchTemp hdecode =>
      split at h
      · cases h
      · next hread =>
          rw [not_or, Bool.not_eq_false] at hread
          rw [hread.1] at hdecode
          rw [Option.some.injEq, Prod.mk.injEq] at h
          rw [← h.2]
          unfold CBase58Data.ToString
          dsimp only
          rw [List.take_append_drop]
          exact encodeBase58Check_of_decode Hash hdecode

/-! ### Addresses -/

theorem isValid_iff {net : Network} {addr : CBase58Data} :
    CBitcoinAddress.IsValid net addr = true ↔ addr.vchData.length = 20 ∧
      (addr.vchVersion = Base58Prefix net .PUBKEY_ADDRESS ∨
        addr.vchVersion = Base58Prefix net .SCRIPT_ADDRESS) := by
  simp [CBitcoinAddress.IsValid]

/-- The versions of the networks, of which the last two share theirs. -/
theorem prefix_eq_iff {net net' : Network} {type type' : Base58Type}
    (h : Base58Prefix net type = Base58Prefix net' type') :
    (net = .MAIN ↔ net' = .MAIN) ∧ type = type' := by
  revert h
  cases net <;> cases net' <;> cases type <;> cases type' <;> decide

theorem prefix_congr {net net' : Network} (h : net = .MAIN ↔ net' = .MAIN)
    (type : Base58Type) : Base58Prefix net type = Base58Prefix net' type := by
  revert h
  cases net <;> cases net' <;> cases type <;> decide

theorem scriptPrefix_ne (net : Network) :
    Base58Prefix net .SCRIPT_ADDRESS ≠ Base58Prefix net .PUBKEY_ADDRESS :=
  fun heq => nomatch (prefix_eq_iff heq).2

/-- A valid address is what its destination sets. -/
theorem set_get {net : Network} {addr : CBase58Data}
    (h : CBitcoinAddress.IsValid net addr = true) (any : CBase58Data) :
    (CBitcoinAddress.Get net addr).Sized ∧
      CBitcoinAddress.Set net any (CBitcoinAddress.Get net addr) = (true, addr) := by
  obtain ⟨hsize, hversion⟩ := isValid_iff.mp h
  unfold CBitcoinAddress.Get
  rw [h, if_neg (by decide)]
  rcases hversion with hversion | hversion
  · rw [if_pos hversion]
    refine ⟨hsize, ?_⟩
    rw [CBitcoinAddress.Set, ← hversion]
  · rw [if_neg (hversion ▸ scriptPrefix_ne net), if_pos hversion]
    refine ⟨hsize, ?_⟩
    rw [CBitcoinAddress.Set, ← hversion]

/-- Setting a destination makes a valid address of it, with a version of one byte. -/
theorem get_set {dest : CTxDestination} (h : dest.Sized) (net : Network) (any : CBase58Data) :
    ∃ addr, CBitcoinAddress.Set net any dest = (true, addr) ∧ addr.vchVersion.length = 1 ∧
      CBitcoinAddress.IsValid net addr = true ∧ CBitcoinAddress.Get net addr = dest := by
  cases dest with
  | CNoDestination => exact h.elim
  | CKeyID id =>
      have hvalid : CBitcoinAddress.IsValid net
          ⟨Base58Prefix net .PUBKEY_ADDRESS, id⟩ = true := isValid_iff.mpr ⟨h, .inl rfl⟩
      refine ⟨_, rfl, by cases net <;> rfl, hvalid, ?_⟩
      unfold CBitcoinAddress.Get
      rw [hvalid, if_neg (by decide), if_pos rfl]
  | CScriptID id =>
      have hvalid : CBitcoinAddress.IsValid net
          ⟨Base58Prefix net .SCRIPT_ADDRESS, id⟩ = true := isValid_iff.mpr ⟨h, .inr rfl⟩
      refine ⟨_, rfl, by cases net <;> rfl, hvalid, ?_⟩
      unfold CBitcoinAddress.Get
      rw [hvalid, if_neg (by decide), if_neg (scriptPrefix_ne net), if_pos rfl]

/-- An address is valid on networks that share the versions, and is no private key. -/
theorem isValid_networks {net : Network} {addr : CBase58Data}
    (h : CBitcoinAddress.IsValid net addr = true) (net' : Network) :
    (CBitcoinAddress.IsValid net' addr = true ↔ (net = .MAIN ↔ net' = .MAIN)) ∧
      CBitcoinSecret.IsValid net' addr = false := by
  obtain ⟨hsize, hversion⟩ := isValid_iff.mp h
  constructor
  · constructor
    · intro h'
      obtain ⟨-, hversion'⟩ := isValid_iff.mp h'
      rcases hversion with heq | heq <;> rcases hversion' with heq' | heq'
      all_goals exact (prefix_eq_iff (heq.symm.trans heq')).1
    · intro hshared
      rw [isValid_iff, ← prefix_congr hshared, ← prefix_congr hshared]
      exact ⟨hsize, hversion⟩
  · have hne : addr.vchVersion ≠ Base58Prefix net' .SECRET_KEY := by
      intro heq
      rcases hversion with heq' | heq'
      all_goals cases (prefix_eq_iff (heq'.symm.trans heq)).2
    simp [CBitcoinSecret.IsValid, hne]

/-- **From a destination to text and back, and to the script.**  The text of a destination is
read as a valid address of it, and the script that pays to that address pays to the
destination. -/
theorem address_roundTrip (crypto : Crypto) (net : Network) {dest : CTxDestination}
    (h : dest.Sized) :
    ∃ addr text, CBitcoinAddress.Set net .empty dest = (true, addr) ∧
      addr.ToString Hash = some text ∧
      CBase58Data.SetString Hash text 1 = some (true, addr) ∧
      CBitcoinAddress.IsValid net addr = true ∧
      ExtractDestination crypto (SetDestination (CBitcoinAddress.Get net addr)) = some dest := by
  obtain ⟨addr, hset, hversion, hvalid, hget⟩ := get_set h net .empty
  obtain ⟨text, htext, hread⟩ := setString_toString Hash hversion
  refine ⟨addr, text, hset, htext, hread, hvalid, ?_⟩
  rw [hget, extractDestination_setDestination crypto h]

theorem address_roundTrip_keyID :
    ∃ addr text,
      CBitcoinAddress.Set .MAIN .empty (.CKeyID (List.replicate 20 1)) = (true, addr) ∧
      addr.ToString smallCrypto.Hash = some text ∧
      CBase58Data.SetString smallCrypto.Hash text 1 = some (true, addr) ∧
      CBitcoinAddress.IsValid .MAIN addr = true ∧
      ExtractDestination smallCrypto (SetDestination (CBitcoinAddress.Get .MAIN addr)) =
        some (.CKeyID (List.replicate 20 1)) :=
  address_roundTrip smallCrypto.Hash smallCrypto .MAIN (List.length_replicate)

/-- **From text to a script and back.**  If a text is read as a valid address, the script
that pays to it pays to the same destination, the text of which is the text without the
spaces around it.  No other network than one that shares the versions takes it for an
address, and none takes it for a private key. -/
theorem address_text (crypto : Crypto) {net : Network} {text : CString} {addr : CBase58Data}
    (hread : CBase58Data.SetString Hash text 1 = some (true, addr))
    (hvalid : CBitcoinAddress.IsValid net addr = true) :
    (∃ dest, ExtractDestination crypto (SetDestination (CBitcoinAddress.Get net addr)) =
        some dest ∧
      (CBitcoinAddress.Set net .empty dest).2.ToString Hash = some (stripSpaces text)) ∧
    ∀ net', (CBitcoinAddress.IsValid net' addr = true ↔ (net = .MAIN ↔ net' = .MAIN)) ∧
      CBitcoinSecret.IsValid net' addr = false := by
  obtain ⟨hsized, hset⟩ := set_get hvalid .empty
  refine ⟨⟨_, extractDestination_setDestination crypto hsized, ?_⟩, isValid_networks hvalid⟩
  rw [hset]
  exact toString_of_setString Hash hread

theorem address_text_scriptID :
    ∃ text addr, CBase58Data.SetString smallCrypto.Hash text 1 = some (true, addr) ∧
      (∃ dest, ExtractDestination smallCrypto
          (SetDestination (CBitcoinAddress.Get .TESTNET addr)) = some dest ∧
        (CBitcoinAddress.Set .TESTNET .empty dest).2.ToString smallCrypto.Hash =
          some (stripSpaces text)) ∧
      ∀ net', (CBitcoinAddress.IsValid net' addr = true ↔
          (Network.TESTNET = .MAIN ↔ net' = .MAIN)) ∧
        CBitcoinSecret.IsValid net' addr = false := by
  have hsized : (CTxDestination.CScriptID (List.replicate 20 2)).Sized :=
    List.length_replicate
  obtain ⟨addr, -, hversion, hvalid, -⟩ := get_set hsized .TESTNET .empty
  obtain ⟨text, -, hread⟩ := setString_toString smallCrypto.Hash hversion
  exact ⟨text, addr, hread, address_text smallCrypto.Hash smallCrypto hread hvalid⟩

/-! ### Private keys -/

theorem getKey_setKey (net : Network) (key : CKey) :
    CBitcoinSecret.GetKey (CBitcoinSecret.SetKey net key) = some key ∧
      CBitcoinSecret.IsValid net (CBitcoinSecret.SetKey net key) = true := by
  obtain ⟨vch, fCompressed, hsize, hvalid⟩ := key
  unfold CBitcoinSecret.GetKey CBitcoinSecret.IsValid CBitcoinSecret.SetKey CKey.Set
  cases fCompressed with
  | true => simp [hsize, hvalid, List.take_left' hsize]
  | false => simp [hsize, hvalid, List.take_of_length_le hsize.le]

theorem CKey.eq_of_set {vch : valtype} {fCompressed : Bool} {key : CKey}
    (h : CKey.Set vch fCompressed = some key) :
    key.vch = vch ∧ key.fCompressed = fCompressed := by
  unfold CKey.Set at h
  split at h
  · rw [← Option.some.inj h]
    exact ⟨rfl, rfl⟩
  · cases h

/-- Data in the expected format are those of the key in them. -/
theorem setKey_getKey {net : Network} {secret : CBase58Data} {key : CKey}
    (h : CBitcoinSecret.IsValid net secret = true)
    (hkey : CBitcoinSecret.GetKey secret = some key) :
    CBitcoinSecret.SetKey net key = secret := by
  obtain ⟨vchVersion, vchData⟩ := secret
  unfold CBitcoinSecret.IsValid at h
  rw [Bool.and_eq_true, Bool.or_eq_true, Bool.and_eq_true, beq_iff_eq, beq_iff_eq, beq_iff_eq,
    beq_iff_eq] at h
  obtain ⟨hformat, hversion⟩ := h
  obtain ⟨hvch, hcompressed⟩ := CKey.eq_of_set hkey
  unfold CBitcoinSecret.SetKey
  rw [hvch, hcompressed, ← hversion]
  dsimp only at hformat ⊢
  congr 1
  rcases hformat with hplain | ⟨hsize, hlast⟩
  · simp [hplain, List.take_of_length_le hplain.le]
  · have hdrop : vchData.drop 32 = [1] := by
      have hone : (vchData.drop 32).length = 1 := by rw [List.length_drop, hsize]
      obtain ⟨b, hb⟩ := List.length_eq_one_iff.mp hone
      have hget : vchData.getD 32 0 = b := by
        rw [← List.take_append_drop 32 vchData, hb]
        simp [hsize]
      rw [hb, ← hget, hlast]
    rw [hlast, hsize, if_pos (by decide), ← hdrop, List.take_append_drop]

/-- **From a private key to text and back.** -/
theorem secret_roundTrip (net : Network) (key : CKey) :
    ∃ text, (CBitcoinSecret.SetKey net key).ToString Hash = some text ∧
      CBitcoinSecret.SetString Hash net text = some (true, CBitcoinSecret.SetKey net key) ∧
      CBitcoinSecret.GetKey (CBitcoinSecret.SetKey net key) = some key := by
  obtain ⟨hget, hvalid⟩ := getKey_setKey net key
  have hversion : (CBitcoinSecret.SetKey net key).vchVersion.length = 1 := by
    cases net <;> rfl
  obtain ⟨text, htext, hread⟩ := setString_toString Hash hversion
  refine ⟨text, htext, ?_, hget⟩
  unfold CBitcoinSecret.SetString
  rw [hread, Option.map_some, hvalid]
  rfl

/-- **From text to a private key and back.**  A text that is read as a private key holds 32
bytes, which are a key when they are in the range of the curve; the text of that key is the
text without the spaces around it, and no network takes it for an address. -/
theorem secret_text {net : Network} {text : CString} {secret : CBase58Data}
    (h : CBitcoinSecret.SetString Hash net text = some (true, secret)) :
    ((CBitcoinSecret.GetKey secret).isSome = true ↔
      CheckKey (secret.vchData.take 32) = true) ∧
    (∀ key, CBitcoinSecret.GetKey secret = some key →
      (CBitcoinSecret.SetKey net key).ToString Hash = some (stripSpaces text)) ∧
    ∀ net', CBitcoinAddress.IsValid net' secret = false := by
  obtain ⟨⟨fRead, data⟩, hread, heq⟩ := Option.map_eq_some_iff.mp h
  rw [Prod.mk.injEq, Bool.and_eq_true] at heq
  obtain ⟨⟨rfl, hvalid⟩, rfl⟩ := heq
  dsimp only at hvalid
  refine ⟨?_, fun key hkey => ?_, fun net' => ?_⟩
  · have hsize : (data.vchData.take 32).length = 32 := by
      rw [List.length_take]
      simp [CBitcoinSecret.IsValid] at hvalid
      omega
    unfold CBitcoinSecret.GetKey CKey.Set
    split
    · next hset => exact iff_of_true rfl hset.2
    · next hset => exact iff_of_false (by simp) fun hcheck => hset ⟨hsize, hcheck⟩
  · rw [setKey_getKey hvalid hkey]
    exact toString_of_setString Hash hread
  · by_contra haddr
    rw [Bool.not_eq_false] at haddr
    rw [(isValid_networks haddr net).2] at hvalid
    cases hvalid

/-- A private key with an uncompressed public key. -/
def plainKey : CKey :=
  { vch := List.replicate 32 1, fCompressed := false, size := rfl, valid := by decide }

theorem secret_text_plainKey :
    ∃ text secret,
      CBitcoinSecret.SetString smallCrypto.Hash .MAIN text = some (true, secret) ∧
      ((CBitcoinSecret.GetKey secret).isSome = true ↔
        CheckKey (secret.vchData.take 32) = true) ∧
      (∀ key, CBitcoinSecret.GetKey secret = some key →
        (CBitcoinSecret.SetKey .MAIN key).ToString smallCrypto.Hash =
          some (stripSpaces text)) ∧
      ∀ net', CBitcoinAddress.IsValid net' secret = false := by
  obtain ⟨-, hvalid⟩ := getKey_setKey .MAIN plainKey
  have hversion : (CBitcoinSecret.SetKey .MAIN plainKey).vchVersion.length = 1 := rfl
  obtain ⟨text, -, hread⟩ := setString_toString smallCrypto.Hash hversion
  have hset : CBitcoinSecret.SetString smallCrypto.Hash .MAIN text =
      some (true, CBitcoinSecret.SetKey .MAIN plainKey) := by
    unfold CBitcoinSecret.SetString
    rw [hread, Option.map_some, hvalid]
    rfl
  exact ⟨text, _, hset, secret_text smallCrypto.Hash hset⟩

end

end Ziftrcoin.Spec
