/-
Module: Ziftrcoin.Proofs.BlockSource
Purpose: Under which hash a node notes who sent a block, and under which hash
  it keeps the block.
Trusted boundary: none
Main exports: StoredUnder, not_rightlyNoted_otherBits
-/
import Ziftrcoin.Proofs.Downloading
import Ziftrcoin.Proofs.Knowledge
import Ziftrcoin.Proofs.Receiving

namespace Ziftrcoin.Spec

open Ziftrcoin.Lib
open Ziftrcoin.Lib.Outcome

/-! ### Two hashes of one block -/

/-- The hash under which `ProcessBlock` looks a block up, stores it and puts it
into the index: that of the header with the calculated proof of knowledge. -/
def StoredUnder (crypto : Crypto) (block : CBlock) (hash : uint256) : Prop :=
  ∃ nPoK, block.CalculatePoK crypto = .ok nPoK ∧
    hash = (block.SetPoK nPoK).GetHash crypto

/-- What `ProcessBlock` leaves after it returned. -/
theorem processBlock_stored {cfg : Config} {s s' : NodeState} {fuel : ℕ} {block : CBlock}
    {hash : uint256} (hs : Reachable cfg s) (hhash : StoredUnder cfg.crypto block hash)
    (h : ProcessBlock cfg fuel true block.readBack s = .done () s') : Known s' hash := by
  obtain ⟨nPoK, hpok, rfl⟩ := hhash
  have hchecks : block.readBack.IsPoKBlock = false ∨ block.readBack.vtx ≠ [] := by
    by_contra hbad
    rw [not_or, Bool.not_eq_false, not_not] at hbad
    rw [processBlock_emptyPoK hbad.1 hbad.2] at h
    cases h
  have hsafe : ReceivedSafely cfg fuel block.readBack s :=
    receivedSafely_of_errs hs.settled fun _ => errs_preliminaryChecks hchecks
  unfold ReceivedSafely at hsafe
  rw [h] at hsafe
  obtain ⟨nPoK', hpok', hknown⟩ := hsafe
  have hsame : block.CalculatePoK cfg.crypto = .ok nPoK' := hpok'
  rw [hpok] at hsame
  injection hsame with hsame
  exact hsame ▸ hknown

/-- What the handler notes about a block speaks of it under `hash`. -/
structure NotedUnder (crypto : Crypto) (pfrom : NodeId) (block : CBlock)
    (hash : uint256) (books books' : PeerBooks) : Prop where
  /-- The key of `mapBlockSource` and the argument of `MarkBlockAsReceived`. -/
  key : block.GetHash crypto = hash
  /-- The block is no longer on its way. -/
  arrived : books'.downloads.mapBlocksInFlight hash = none ∧
    books'.downloads.mapBlocksToDownload hash = none
  /-- Should the block be invalid, its sender is held responsible. -/
  sender : blamed books' hash = some pfrom
  /-- Nothing has been noted about any other hash. -/
  noOther : ∀ k, k ≠ hash → books'.mapBlockSource k = books.mapBlockSource k

/-- The handler notes a block under the hash under which it is stored. -/
def RightlyNoted (cfg : Config) (pfrom : NodeId) (block : CBlock)
    (books : PeerBooks) : Prop :=
  ∀ hash, StoredUnder cfg.crypto block hash →
    ∃ books', noteBlock cfg.crypto pfrom block books = .done () books' ∧
      NotedUnder cfg.crypto pfrom block hash books books'

/-! ### When they are the same -/

section Handler

variable {crypto : Crypto} {pfrom : NodeId} {block : CBlock}

/-- The books are kept under the hash the block came with. -/
theorem noteBlock_run {books : PeerBooks} (h : BooksKept books.downloads)
    (hfrom : (books.downloads.State pfrom).isSome = true) :
    ∃ books', noteBlock crypto pfrom block books = .done () books' ∧
      NotedUnder crypto pfrom block (block.GetHash crypto) books books' := by
  obtain ⟨s', hrun, hkept, hpeers, -, hqueue, hflight, -⟩ :=
    markBlockAsReceived_run h (block.GetHash crypto) pfrom
  refine ⟨⟨s', Function.update books.mapBlockSource (block.GetHash crypto) (some pfrom)⟩,
    ?_, rfl, ⟨hflight, hqueue⟩, ?_, ?_⟩
  · unfold noteBlock
    dsimp only
    rw [hrun]
  · unfold blamed
    dsimp only
    rw [Function.update_self, Option.filter_some, if_pos]
    exact (hpeers pfrom).trans hfrom
  · exact fun k hk => Function.update_of_ne hk ..

end Handler

section Bits

variable {crypto : Crypto} {block : CBlock} {nPoK : BitVec 32}

/-- A calculated proof of knowledge fits into its bits of the header. -/
theorem calculatePoK_masked (h : block.CalculatePoK crypto = .ok nPoK) :
    nPoK &&& POK_DATA_MASK = nPoK := by
  have hmasked : ∃ n, block.CalculatePoK crypto = .ok (n &&& POK_DATA_MASK) := by
    by_cases hvtx : block.vtx = []
    · cases hflag : block.IsPoKBlock with
      | false => exact ⟨_, calculatePoK_noPoK hflag⟩
      | true =>
          unfold CBlock.CalculatePoK Run.assert at h
          rw [hflag, hvtx] at h
          cases h
    · exact calculatePoK_ok crypto hvtx
  obtain ⟨n, hn⟩ := hmasked
  rw [hn] at h
  injection h with h
  rw [← h, BitVec.and_assoc, BitVec.and_self]

theorem setPoK_getPoK (header : CBlockHeader) : header.SetPoK header.GetPoK = header := by
  have hversion : (header.nVersion &&& ~~~POK_DATA_MASK) |||
      (POK_DATA_MASK &&& (header.nVersion &&& POK_DATA_MASK)) = header.nVersion := by
    generalize POK_DATA_MASK = mask
    ext i
    simp only [BitVec.getElem_and, BitVec.getElem_or, BitVec.getElem_not]
    cases header.nVersion[i] <;> cases mask[i] <;> rfl
  unfold CBlockHeader.SetPoK CBlockHeader.GetPoK
  rw [hversion]

/-- The header came with the proof of knowledge that is calculated for it, or
with another one that makes no difference to its hash. -/
def CarriesPoK (crypto : Crypto) (block : CBlock) (nPoK : BitVec 32) : Prop :=
  block.GetPoK = nPoK ∨
    block.toCBlockHeader ≠ block.toCBlockHeader.SetPoK nPoK ∧
      block.toCBlockHeader.GetHash crypto =
        (block.toCBlockHeader.SetPoK nPoK).GetHash crypto

theorem getHash_setPoK_iff (h : block.CalculatePoK crypto = .ok nPoK) :
    block.GetHash crypto = (block.SetPoK nPoK).GetHash crypto ↔
      CarriesPoK crypto block nPoK := by
  constructor
  · intro hhash
    by_cases hsame : block.GetPoK = nPoK
    · exact .inl hsame
    · refine .inr ⟨fun heq => hsame ?_, hhash⟩
      have hpok : block.toCBlockHeader.GetPoK = nPoK &&& POK_DATA_MASK :=
        (congrArg CBlockHeader.GetPoK heq).trans (getPoK_setPoK block.toCBlockHeader nPoK)
      rw [hpok, calculatePoK_masked h]
  · rintro (hsame | ⟨-, hhash⟩)
    · have heq : block.toCBlockHeader.SetPoK nPoK = block.toCBlockHeader :=
        hsame ▸ setPoK_getPoK block.toCBlockHeader
      exact congrArg (CBlockHeader.GetHash crypto) heq.symm
    · exact hhash

end Bits

/-- What is noted about a block is noted under the hash under which it is then
stored, exactly when the proof of knowledge in its header is the calculated
one, or the hash does not see it. -/
theorem rightlyNoted_iff {cfg : Config} {banscore : ℤ} {limited : Prop} {n : Connections}
    {pfrom : NodeId} (h : n.Reachable banscore limited) (hfrom : pfrom ∈ n.nodes)
    (block : CBlock) (mapBlockSource : uint256 → Option NodeId) :
    (∀ hash, StoredUnder cfg.crypto block hash → ∀ fuel s s', Reachable cfg s →
      ProcessBlock cfg fuel true block.readBack s = .done () s' → Known s' hash) ∧
    (RightlyNoted cfg pfrom block ⟨n.downloads, mapBlockSource⟩ ↔
      ∀ nPoK, block.CalculatePoK cfg.crypto = .ok nPoK →
        CarriesPoK cfg.crypto block nPoK) := by
  obtain ⟨hsound, -⟩ := h.sound
  refine ⟨fun hash hhash fuel s s' hs hrun => processBlock_stored hs hhash hrun, ?_, ?_⟩
  · intro hnoted nPoK hpok
    obtain ⟨books', -, hunder⟩ := hnoted _ ⟨nPoK, hpok, rfl⟩
    exact (getHash_setPoK_iff hpok).mp hunder.key
  · intro hcarries hash hstored
    obtain ⟨nPoK, hpok, rfl⟩ := hstored
    obtain ⟨books', hrun, hunder⟩ := @noteBlock_run cfg.crypto pfrom block
      ⟨n.downloads, mapBlockSource⟩ hsound.kept ((hsound.alive pfrom).mpr hfrom)
    rw [(getHash_setPoK_iff hpok).mpr (hcarries nPoK hpok)] at hunder
    exact ⟨books', hrun, hunder⟩

/-! ### A header with other bits -/

/-- Hash functions that also show the version of a block. -/
def versionCrypto : Crypto :=
  { smallCrypto with
    HashZR5 := fun header => readLE (header.drop 76) * 2 ^ 32 + readLE (header.take 4) }

/-- The small network with these hash functions. -/
def versionNet : Config :=
  { smallNet (smallGenesis [⟨50, anyoneCanSpend⟩]) with crypto := versionCrypto }

/-- A block on top of the genesis block with bits for a proof of knowledge. -/
def blockWithPoK (nVersion : BitVec 32) : CBlock :=
  { smallBlock 2 1 (hashOfNonce 1 + 1) [coinbaseTx 2 1 [⟨50, anyoneCanSpend⟩]] with
    nVersion }

/-- The hash under which the block is stored, whatever bits it comes with. -/
def storedHash : uint256 := 2 * 2 ^ 32 + 1

theorem storedUnder_blockWithPoK :
    StoredUnder versionCrypto (blockWithPoK 0x00010001) storedHash :=
  ⟨0, by decide +kernel, by decide +kernel⟩

/-- The block is noted rightly when it comes with the bits it has to have. -/
theorem rightlyNoted_ownBits :
    ∃ n : Connections, 0 ∈ n.nodes ∧
      RightlyNoted versionNet 0 (blockWithPoK 1) ⟨n.downloads, fun _ => none⟩ := by
  have connected : Connections.Reachable 100 True
      (Connections.after _ (.initializeNode "peer") _) :=
    (Connections.Reachable.init fun _ => 0).step trivial rfl
  have hpok : (blockWithPoK 1).CalculatePoK versionCrypto = .ok 0 := by decide +kernel
  refine ⟨_, List.mem_cons_self, (rightlyNoted_iff connected List.mem_cons_self
    (blockWithPoK 1) fun _ => none).2.mpr fun nPoK h => ?_⟩
  rw [show versionNet.crypto = versionCrypto from rfl, hpok] at h
  injection h with h
  exact .inl (h ▸ by decide)

/-- A block that was requested arrives with other bits: it is connected, but it
stays in flight, its sender is not known under the hash it has in the index,
and the sender stays noted under a hash that no block has. -/
theorem not_rightlyNoted_otherBits :
    ∃ n : Connections, n.Reachable 100 True ∧ 0 ∈ n.nodes ∧
      ¬RightlyNoted versionNet 0 (blockWithPoK 0x00010001) ⟨n.downloads, fun _ => none⟩ ∧
      ∃ books, noteBlock versionCrypto 0 (blockWithPoK 0x00010001)
          ⟨n.downloads, fun _ => none⟩ = .done () books ∧
        (books.downloads.mapBlocksInFlight storedHash).isSome = true ∧
        blamed books storedHash = none ∧
        books.mapBlockSource (2 * 2 ^ 32 + 0x00010001) = some 0 ∧
        (stateAfter (ProcessBlock versionNet 20 true (blockWithPoK 0x00010001))
          (started versionNet fun _ => quiet)).mapBlockIndex.map CBlockIndex.hash =
          [hashOfNonce 1 + 1, storedHash] := by
  have connected : Connections.Reachable 100 True
      (Connections.after _ (.initializeNode "peer") _) :=
    (Connections.Reachable.init fun _ => 0).step trivial rfl
  have queued : Connections.Reachable 100 True
      (Connections.after _ (.addBlockToQueue 0 storedHash) _) := connected.step trivial rfl
  have requested : Connections.Reachable 100 True
      (Connections.after _ (.sendMessages 0 false 129) _) :=
    queued.step List.mem_cons_self rfl
  refine ⟨_, requested, List.mem_cons_self, ?_, _, rfl, rfl, rfl, rfl, by decide +kernel⟩
  intro hnoted
  obtain ⟨books, -, hunder⟩ := hnoted storedHash storedUnder_blockWithPoK
  exact absurd hunder.key (by decide +kernel)

end Ziftrcoin.Spec
