/-
Module: Ziftrcoin.Proofs.Knowledge
Purpose: The proof of knowledge of a block does not depend on itself, and a
  miner's cache of serialised transactions never gives a wrong one.
Trusted boundary: none
Main exports: setPoK_and, proofOfKnowledge_consistent
-/
import Ziftrcoin.Proofs.SmallNetwork
import Ziftrcoin.Spec.Miner

namespace Ziftrcoin.Spec

open Ziftrcoin.Lib.Outcome

/-! ### The version field -/

/-- What a mask selects of a value that was replaced under another mask. -/
theorem replace_and {v x D M : BitVec 32} :
    ((v &&& ~~~D) ||| (D &&& x)) &&& M =
      (v &&& (~~~D &&& M)) ||| (x &&& (D &&& M)) := by
  ext i
  simp only [BitVec.getElem_and, BitVec.getElem_or, BitVec.getElem_not]
  cases v[i] <;> cases x[i] <;> cases D[i] <;> cases M[i] <;> rfl

theorem replace_replace {v x y D : BitVec 32} :
    (((v &&& ~~~D) ||| (D &&& x)) &&& ~~~D) ||| (D &&& y) =
      (v &&& ~~~D) ||| (D &&& y) := by
  ext i
  simp only [BitVec.getElem_and, BitVec.getElem_or, BitVec.getElem_not]
  cases v[i] <;> cases x[i] <;> cases D[i] <;> cases y[i] <;> rfl

section SetPoK

variable (header : CBlockHeader) (nPoK : BitVec 32)

/-- Outside of its data the proof of knowledge changes nothing. -/
theorem setPoK_and {M : BitVec 32} (h : POK_DATA_MASK &&& M = 0#32)
    (h' : ~~~POK_DATA_MASK &&& M = M) :
    (header.SetPoK nPoK).nVersion &&& M = header.nVersion &&& M := by
  unfold CBlockHeader.SetPoK
  dsimp only
  rw [replace_and, h, h', BitVec.and_zero, BitVec.or_zero]

theorem isPoKBlock_setPoK : (header.SetPoK nPoK).IsPoKBlock = header.IsPoKBlock := by
  unfold CBlockHeader.IsPoKBlock
  rw [setPoK_and header nPoK (by decide) (by decide)]

theorem getVersion_setPoK : (header.SetPoK nPoK).GetVersion = header.GetVersion :=
  setPoK_and header nPoK (by decide) (by decide)

theorem getPoK_setPoK : (header.SetPoK nPoK).GetPoK = nPoK &&& POK_DATA_MASK := by
  unfold CBlockHeader.GetPoK CBlockHeader.SetPoK
  dsimp only
  rw [replace_and, BitVec.and_self]
  have hnone : ~~~POK_DATA_MASK &&& POK_DATA_MASK = 0#32 := by decide
  rw [hnone, BitVec.and_zero, BitVec.zero_or]

theorem setPoK_setPoK (nPoK' : BitVec 32) :
    (header.SetPoK nPoK).SetPoK nPoK' = header.SetPoK nPoK' := by
  unfold CBlockHeader.SetPoK
  dsimp only
  rw [replace_replace]

end SetPoK

/-! ### Calculating the proof of knowledge -/

/-- The part of `CalculatePoK` that reads the data of the chosen transaction. -/
def pokOfData (hashTxChooser : Nat) (vTxData : valtype) : Run (BitVec 32) := do
  Run.assert .CalculatePoK_data (4 ≤ vTxData.length)
  return (BitVec.ofNat 32 (readLE ((vTxData.drop (CBlock.getinnerint hashTxChooser 1 %
      (vTxData.length - 3))).take 4)) ^^^
    BitVec.ofNat 32 (CBlock.getinnerint hashTxChooser 2)) &&& POK_DATA_MASK

theorem calculatePoK_noPoK {crypto : Crypto} {block : CBlock}
    (h : block.IsPoKBlock = false) :
    block.CalculatePoK crypto = .ok (BitVec.ofNat 32
      (CBlock.getinnerint (block.hashTxChooser crypto) 0) &&& POK_DATA_MASK) := by
  unfold CBlock.CalculatePoK
  rw [if_pos h]
  rfl

theorem calculatePoK_PoK {crypto : Crypto} {block : CBlock}
    (h : block.IsPoKBlock = true) (hvtx : 0 < block.vtx.length) :
    block.CalculatePoK crypto = (do
      let tx ← Run.get .CalculatePoK_vtx block.vtx
        (CBlock.getinnerint (block.hashTxChooser crypto) 0 % block.vtx.length)
      pokOfData (block.hashTxChooser crypto) tx.serialize) := by
  unfold CBlock.CalculatePoK pokOfData Run.assert
  rw [if_neg (by rw [h]; decide), if_pos hvtx]
  rfl

/-- The four bytes are inside the data. -/
theorem randIndex_inside {nDeterRand2 length : Nat} (h : 4 ≤ length) :
    nDeterRand2 % (length - 3) + 4 ≤ length := by
  have hlt := Nat.mod_lt nDeterRand2 (show 0 < length - 3 by omega)
  omega

theorem pokOfData_ok (hashTxChooser : Nat) {vTxData : valtype}
    (h : 4 ≤ vTxData.length) :
    ∃ nPoK, pokOfData hashTxChooser vTxData = .ok (nPoK &&& POK_DATA_MASK) := by
  unfold pokOfData Run.assert
  rw [if_pos h]
  exact ⟨_, rfl⟩

/-- A block with transactions has a proof of knowledge, which fits into the
data of the version field. -/
theorem calculatePoK_ok (crypto : Crypto) {block : CBlock} (h : block.vtx ≠ []) :
    ∃ nPoK, block.CalculatePoK crypto = .ok (nPoK &&& POK_DATA_MASK) := by
  cases hpok : block.IsPoKBlock with
  | false => exact ⟨_, calculatePoK_noPoK hpok⟩
  | true =>
      have hpos : 0 < block.vtx.length := List.length_pos_iff.mpr h
      rw [calculatePoK_PoK hpok hpos]
      have hlt := Nat.mod_lt (CBlock.getinnerint (block.hashTxChooser crypto) 0) hpos
      unfold Run.get
      rw [List.getElem?_eq_getElem hlt]
      exact pokOfData_ok _ (four_le_serialize_length _)

theorem hashTxChooser_setPoK (crypto : Crypto) (block : CBlock) (nPoK : BitVec 32) :
    (block.SetPoK nPoK).hashTxChooser crypto = block.hashTxChooser crypto := by
  have hversion := setPoK_and block.toCBlockHeader nPoK (M := ~~~POK_DATA_MASK)
    (by decide) (by decide)
  unfold CBlock.hashTxChooser CBlock.SetPoK
  dsimp only
  rw [hversion]
  rfl

/-- The proof of knowledge does not depend on the one in the header. -/
theorem calculatePoK_setPoK (crypto : Crypto) (block : CBlock) (nPoK : BitVec 32) :
    (block.SetPoK nPoK).CalculatePoK crypto = block.CalculatePoK crypto := by
  have hflag : (block.SetPoK nPoK).IsPoKBlock = block.IsPoKBlock :=
    isPoKBlock_setPoK block.toCBlockHeader nPoK
  have hvtx : (block.SetPoK nPoK).vtx = block.vtx := rfl
  have hhash := hashTxChooser_setPoK crypto block nPoK
  cases hpok : block.IsPoKBlock with
  | false =>
      rw [calculatePoK_noPoK hpok, calculatePoK_noPoK (hflag.trans hpok), hhash]
  | true =>
      by_cases hpos : 0 < block.vtx.length
      · rw [calculatePoK_PoK hpok hpos, calculatePoK_PoK (hflag.trans hpok) hpos, hhash]
        rfl
      · unfold CBlock.CalculatePoK Run.assert
        rw [hflag, hpok, hvtx, if_neg hpos]
        rfl

/-! ### The cache -/

/-- A miner that started with an empty cache and has only seen lists of
transactions of the set `S`. -/
inductive Mining (crypto : Crypto) (S : Set (List CTransaction)) : Miner → Prop where
  | start {m : Miner} (empty : m.mapTxSerialized = fun _ => none)
      (root : m.block.hashMerkleRoot = CBlock.merkleRootOf crypto m.block.vtx)
      (seen : m.block.vtx ∈ S) : Mining crypto S m
  | step {m m' : Miner} (before : Mining crypto S m) (step : MinerStep crypto m m')
      (seen : m'.block.vtx ∈ S) : Mining crypto S m'

/-- Whatever is in the cache is a transaction of a list with that root. -/
def CacheSound (crypto : Crypto) (S : Set (List CTransaction))
    (mapTxSerialized : MapTxSerialized) : Prop :=
  ∀ root nTxIndex vTxData, mapTxSerialized (root, nTxIndex) = some vTxData →
    ∃ vtx ∈ S, CBlock.merkleRootOf crypto vtx = root ∧
      ∃ tx, vtx[nTxIndex]? = some tx ∧ vTxData = tx.serialize

/-- The block's root is that of its transactions, and the cache is sound. -/
structure MinerSound (crypto : Crypto) (S : Set (List CTransaction)) (m : Miner) :
    Prop where
  root : m.block.hashMerkleRoot = CBlock.merkleRootOf crypto m.block.vtx
  cache : CacheSound crypto S m.mapTxSerialized
  seen : m.block.vtx ∈ S

section Cache

variable {crypto : Crypto} {S : Set (List CTransaction)}

/-- With or without the cache, the data is that of the transaction. -/
theorem txData_spec (hinj : Set.InjOn (CBlock.merkleRootOf crypto) S) {block : CBlock}
    {mapTxSerialized : MapTxSerialized}
    (hroot : block.hashMerkleRoot = CBlock.merkleRootOf crypto block.vtx)
    (hcache : CacheSound crypto S mapTxSerialized) (hseen : block.vtx ∈ S)
    {nTxIndex : Nat} {tx : CTransaction} (htx : block.vtx[nTxIndex]? = some tx) :
    ∃ mapTxSerialized', block.txData nTxIndex mapTxSerialized =
        .ok (tx.serialize, mapTxSerialized') ∧
      CacheSound crypto S mapTxSerialized' := by
  unfold CBlock.txData
  cases hfind : mapTxSerialized (block.hashMerkleRoot, nTxIndex) with
  | some vTxData =>
      obtain ⟨vtx, hvtx, hroot', tx', htx', rfl⟩ := hcache _ _ _ hfind
      have heq : vtx = block.vtx := hinj hvtx hseen (hroot'.trans hroot)
      rw [heq, htx, Option.some.injEq] at htx'
      subst htx'
      exact ⟨mapTxSerialized, rfl, hcache⟩
  | none =>
      unfold Run.get
      rw [htx]
      refine ⟨_, rfl, ?_⟩
      intro root i vTxData hlookup
      by_cases hkey : (root, i) = (block.hashMerkleRoot, nTxIndex)
      · rw [hkey, Function.update_self, Option.some.injEq] at hlookup
        obtain ⟨rfl, rfl⟩ := Prod.mk.inj hkey
        exact ⟨block.vtx, hseen, hroot.symm, tx, htx, hlookup.symm⟩
      · rw [Function.update_of_ne hkey] at hlookup
        exact hcache _ _ _ hlookup

/-- A sound cache does not change the proof of knowledge, and stays sound. -/
theorem calculatePoKWith_eq (hinj : Set.InjOn (CBlock.merkleRootOf crypto) S)
    {block : CBlock} {mapTxSerialized : MapTxSerialized}
    (hroot : block.hashMerkleRoot = CBlock.merkleRootOf crypto block.vtx)
    (hcache : CacheSound crypto S mapTxSerialized) (hseen : block.vtx ∈ S) :
    (block.CalculatePoKWith crypto mapTxSerialized).map Prod.fst =
        block.CalculatePoK crypto ∧
      ∀ nPoK mapTxSerialized', block.CalculatePoKWith crypto mapTxSerialized =
        .ok (nPoK, mapTxSerialized') → CacheSound crypto S mapTxSerialized' := by
  cases hpok : block.IsPoKBlock with
  | false =>
      rw [calculatePoK_noPoK hpok]
      unfold CBlock.CalculatePoKWith
      rw [if_pos hpok]
      refine ⟨rfl, fun nPoK mapTxSerialized' h => ?_⟩
      injection h with h
      rw [← (Prod.mk.inj h).2]
      exact hcache
  | true =>
      by_cases hpos : 0 < block.vtx.length
      · have hlt := Nat.mod_lt (CBlock.getinnerint (block.hashTxChooser crypto) 0) hpos
        obtain ⟨mapTxSerialized', hdata, hsound⟩ := txData_spec hinj hroot hcache hseen
          (List.getElem?_eq_getElem hlt)
        rw [calculatePoK_PoK hpok hpos]
        unfold CBlock.CalculatePoKWith pokOfData Run.assert Run.get
        rw [if_neg (by rw [hpok]; decide), if_pos hpos, List.getElem?_eq_getElem hlt]
        simp only [ok_bind, hdata, if_pos (four_le_serialize_length _)]
        refine ⟨rfl, fun nPoK map' h => ?_⟩
        injection h with h
        rw [← (Prod.mk.inj h).2]
        exact hsound
      · unfold CBlock.CalculatePoKWith CBlock.CalculatePoK Run.assert
        rw [hpok, if_neg hpos]
        refine ⟨rfl, fun nPoK map' h => ?_⟩
        cases h

theorem merkleRoot_withMerkleRoot (block : CBlock) :
    (block.withMerkleRoot crypto).hashMerkleRoot =
      CBlock.merkleRootOf crypto (block.withMerkleRoot crypto).vtx := rfl

/-- One step of a miner keeps the cache sound. -/
theorem MinerSound.step (hinj : Set.InjOn (CBlock.merkleRootOf crypto) S)
    {m m' : Miner} (hm : MinerSound crypto S m) (hstep : MinerStep crypto m m')
    (hseen : m'.block.vtx ∈ S) : MinerSound crypto S m' := by
  cases hstep with
  | scan h =>
      unfold scanRound at h
      rw [bind_eq_ok] at h
      obtain ⟨⟨nPoK, map'⟩, hpok, h⟩ := h
      injection h with h
      subst h
      have hroot : ({ m.block with
          nNonce := uint32 (m.block.nNonce + 1) } : CBlock).hashMerkleRoot =
          CBlock.merkleRootOf crypto m.block.vtx := hm.root
      exact ⟨hm.root, (calculatePoKWith_eq hinj hroot hm.cache hm.seen).2 nPoK map'
        hpok, hm.seen⟩
  | header nVersion nTime nNonce => exact ⟨hm.root, hm.cache, hm.seen⟩
  | extraNonce nHeight => exact ⟨merkleRoot_withMerkleRoot _, hm.cache, hseen⟩
  | template block nHeight => exact ⟨merkleRoot_withMerkleRoot _, hm.cache, hseen⟩

/-- In every state of a miner the cache is sound. -/
theorem Mining.sound (hinj : Set.InjOn (CBlock.merkleRootOf crypto) S) {m : Miner}
    (hm : Mining crypto S m) : MinerSound crypto S m := by
  induction hm with
  | start empty root seen =>
      refine ⟨root, fun _ _ _ h => ?_, seen⟩
      rw [empty] at h
      cases h
  | step before step seen ih => exact ih.step hinj step seen

end Cache

/-- The proof of knowledge of a block with transactions does not depend on the
one in its header; setting it makes the check succeed, changes neither the flag
nor the version, and need not be done twice; the four bytes it reads are inside
the transaction; and a miner's cache gives the same proof, as long as Merkle
roots identify the lists of transactions that the miner sees. -/
theorem proofOfKnowledge_consistent (crypto : Crypto) :
    (∀ block : CBlock, block.vtx ≠ [] →
      (∀ nPoK, (block.SetPoK nPoK).CalculatePoK crypto = block.CalculatePoK crypto) ∧
      (∃ nPoK, block.CalculatePoK crypto = .ok nPoK ∧
        nPoK &&& POK_DATA_MASK = nPoK ∧
        (block.SetPoK nPoK).CalculatePoK crypto = .ok (block.SetPoK nPoK).GetPoK ∧
        (block.SetPoK nPoK).IsPoKBlock = block.IsPoKBlock ∧
        (block.SetPoK nPoK).GetVersion = block.GetVersion ∧
        (block.SetPoK nPoK).SetPoK nPoK = block.SetPoK nPoK) ∧
      ∃ tx, block.vtx[CBlock.getinnerint (block.hashTxChooser crypto) 0 %
          block.vtx.length]? = some tx ∧
        CBlock.getinnerint (block.hashTxChooser crypto) 1 %
          (tx.serialize.length - 3) + 4 ≤ tx.serialize.length) ∧
    ∀ S : Set (List CTransaction), Set.InjOn (CBlock.merkleRootOf crypto) S →
      ∀ m, Mining crypto S m →
        (m.block.CalculatePoKWith crypto m.mapTxSerialized).map Prod.fst =
          m.block.CalculatePoK crypto := by
  refine ⟨fun block hvtx => ⟨calculatePoK_setPoK crypto block, ?_, ?_⟩, ?_⟩
  · obtain ⟨nPoK, hpok⟩ := calculatePoK_ok crypto hvtx
    have hmask : nPoK &&& POK_DATA_MASK &&& POK_DATA_MASK = nPoK &&& POK_DATA_MASK := by
      rw [BitVec.and_assoc, BitVec.and_self]
    refine ⟨_, hpok, hmask, ?_, isPoKBlock_setPoK _ _, getVersion_setPoK _ _, ?_⟩
    · rw [calculatePoK_setPoK, hpok]
      have hget : (block.SetPoK (nPoK &&& POK_DATA_MASK)).GetPoK =
          nPoK &&& POK_DATA_MASK := (getPoK_setPoK _ _).trans hmask
      rw [hget]
    · unfold CBlock.SetPoK
      dsimp only
      rw [setPoK_setPoK]
  · have hpos : 0 < block.vtx.length := List.length_pos_iff.mpr hvtx
    have hlt := Nat.mod_lt (CBlock.getinnerint (block.hashTxChooser crypto) 0) hpos
    exact ⟨_, List.getElem?_eq_getElem hlt, randIndex_inside (four_le_serialize_length _)⟩
  · intro S hinj m hm
    have hsound := hm.sound hinj
    exact (calculatePoKWith_eq hinj hsound.root hsound.cache hsound.seen).1

/-- A miner with a block that claims a proof of knowledge. -/
def flaggedMiner : Miner :=
  { block := ({ smallBlock 2 1 (hashOfNonce 1) [coinbaseTx 2 1 [⟨50, anyoneCanSpend⟩]] with
      nVersion := 0x8001 } : CBlock).withMerkleRoot smallCrypto
    mapTxSerialized := fun _ => none
    nExtraNonce := 0
    hashPrevBlock := 0 }

/-- The miner's proof of knowledge after another nonce. -/
theorem proofOfKnowledge_flaggedMiner :
    (∃ nPoK, flaggedMiner.block.CalculatePoK smallCrypto = .ok nPoK ∧
      nPoK &&& POK_DATA_MASK = nPoK) ∧
    (({ flaggedMiner.block with nNonce := 7 } : CBlock).CalculatePoKWith smallCrypto
      fun _ => none).map Prod.fst =
      ({ flaggedMiner.block with nNonce := 7 } : CBlock).CalculatePoK smallCrypto := by
  have hvtx : flaggedMiner.block.vtx ≠ [] := List.cons_ne_nil _ _
  have hmining : Mining smallCrypto {flaggedMiner.block.vtx}
      { flaggedMiner with block := { flaggedMiner.block with nNonce := 7 } } :=
    .step (.start rfl rfl rfl)
      (.header flaggedMiner flaggedMiner.block.nVersion flaggedMiner.block.nTime 7) rfl
  obtain ⟨nPoK, hpok, hmask, _⟩ :=
    ((proofOfKnowledge_consistent smallCrypto).1 flaggedMiner.block hvtx).2.1
  exact ⟨⟨nPoK, hpok, hmask⟩, (proofOfKnowledge_consistent smallCrypto).2 _
    (Set.injOn_singleton _ _) _ hmining⟩

end Ziftrcoin.Spec
