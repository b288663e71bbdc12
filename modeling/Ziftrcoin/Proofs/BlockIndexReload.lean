/-
Module: Ziftrcoin.Proofs.BlockIndexReload
Purpose: The block index that is loaded from the database is the one that was
  written, with the sums that are not written.
Trusted boundary: none
Main exports: unserialize_serialize, blockIndex_reload
-/
import Ziftrcoin.Proofs.CoinsRoundTrip
import Ziftrcoin.Proofs.NetworkFormat
import Ziftrcoin.Proofs.OrphanPool
import Ziftrcoin.Spec.BlockIndexStore

namespace Ziftrcoin.Spec.IndexStore

open Ziftrcoin.Lib

/-! ### The format -/

/-- The ranges of the types; a height, a file number or a position is not negative. -/
structure CDiskBlockIndex.InRange (diskindex : CDiskBlockIndex) : Prop where
  nHeight : 0 ≤ diskindex.pindex.nHeight ∧ diskindex.pindex.nHeight < 2 ^ 31
  nSize : diskindex.pindex.nSize < 2 ^ 32
  nTx : diskindex.pindex.nTx < 2 ^ 32
  nFile : 0 ≤ diskindex.pindex.nFile ∧ diskindex.pindex.nFile < 2 ^ 31
  nDataPos : diskindex.pindex.nDataPos < 2 ^ 32
  nUndoPos : diskindex.pindex.nUndoPos < 2 ^ 32
  hashPrev : diskindex.hashPrev < 2 ^ 256
  hashMerkleRoot : diskindex.pindex.hashMerkleRoot < 2 ^ 256
  nTime : diskindex.pindex.nTime < 2 ^ 32
  nBits : diskindex.pindex.nBits < 2 ^ 32
  nNonce : diskindex.pindex.nNonce < 2 ^ 32

/-- What is read of an entry: its positions as far as its status says that there are
some, and neither its predecessor nor its sums. -/
def CDiskBlockIndex.stored (diskindex : CDiskBlockIndex) : CDiskBlockIndex :=
  let pindex := diskindex.pindex
  { diskindex with
    pindex := { pindex with
      pprev := none
      nChainSize := 0
      nChainWork := 0
      nChainTx := 0
      nFile := if pindex.nStatus &&& (BLOCK_HAVE_DATA ||| BLOCK_HAVE_UNDO) ≠ 0
        then pindex.nFile else 0
      nDataPos := if pindex.nStatus &&& BLOCK_HAVE_DATA ≠ 0 then pindex.nDataPos else 0
      nUndoPos := if pindex.nStatus &&& BLOCK_HAVE_UNDO ≠ 0 then pindex.nUndoPos else 0 } }

theorem readIf_run {α : Type} {P : Prop} [Decidable P] {present : Bool}
    (hpresent : present = decide P) {read : Stream α} {bytes rest : valtype} {a absent : α}
    (hread : read (bytes ++ rest) = .ok (a, rest)) :
    CDiskBlockIndex.readIf present read absent ((if P then bytes else []) ++ rest) =
      .ok (if P then a else absent, rest) := by
  subst hpresent
  unfold CDiskBlockIndex.readIf
  by_cases h : P
  · rw [if_pos h, if_pos h, if_pos (decide_eq_true h)]
    exact hread
  · rw [if_neg h, if_neg h, if_neg (by simpa using h)]
    rfl

/-- An entry that is written is read back, whatever its status. -/
theorem unserialize_serialize {diskindex : CDiskBlockIndex} (h : diskindex.InRange)
    (rest : valtype) :
    CDiskBlockIndex.Unserialize (diskindex.Serialize ++ rest) = .ok (diskindex.stored, rest) := by
  have hbne : ∀ status : BitVec 32, (status != 0) = decide (status ≠ 0) := by
    intro status
    rw [Bool.eq_iff_iff, bne_iff_ne, decide_eq_true_iff]
  have hint : ∀ {n : ℤ}, 0 ≤ n ∧ n < 2 ^ 31 → ∀ rest,
      ReadVarInt_int (WriteVarInt n ++ rest) = .ok (n, rest) :=
    fun hn rest => roundTrips_varInt_int _ hn rest
  have hstatus : diskindex.pindex.nStatus.toNat < 2 ^ 32 := diskindex.pindex.nStatus.isLt
  have hversion : diskindex.pindex.nVersion.toNat < 256 ^ 4 := diskindex.pindex.nVersion.isLt
  unfold CDiskBlockIndex.Unserialize CDiskBlockIndex.Serialize
  simp only [List.append_assoc]
  rw [Reader.bind_run_ok (hint (by decide) _), Reader.bind_run_ok (hint h.nHeight _),
    Reader.bind_run_ok (readVarInt_write h.nSize _),
    Reader.bind_run_ok (readVarInt_write hstatus _),
    Reader.bind_run_ok (readVarInt_write h.nTx _)]
  rw [BitVec.ofNat_toNat, BitVec.setWidth_eq]
  rw [Reader.bind_run_ok (readIf_run (hbne _) (hint h.nFile _)),
    Reader.bind_run_ok (readIf_run (hbne _) (readVarInt_write h.nDataPos _)),
    Reader.bind_run_ok (readIf_run (hbne _) (readVarInt_write h.nUndoPos _)),
    Reader.bind_run_ok (readUInt_run hversion _),
    Reader.bind_run_ok (readUInt_run (by exact h.hashPrev) _),
    Reader.bind_run_ok (readUInt_run (by exact h.hashMerkleRoot) _),
    Reader.bind_run_ok (readUInt_run (by exact h.nNonce) _),
    Reader.bind_run_ok (readUInt_run (by exact h.nTime) _),
    Reader.bind_run_ok (readUInt_run (by exact h.nBits) _)]
  rw [BitVec.ofNat_toNat, BitVec.setWidth_eq]
  rfl

/-! ### The tree -/

section Tree

variable (crypto : Crypto) (ProofOfWorkLimit : ℤ)

/-- The block indexes that are built: `AddToBlockIndex` with blocks that have passed
`CheckBlock` and whose predecessor is indexed, unless it is the null hash; the changes of
`ConnectBlock`; and flags of failed blocks.  No height is too large for its type, and no block
has the null hash. -/
inductive Built : BlockMap → Prop
  | empty : Built ∅
  | add {index index' : BlockMap} {block : CBlock} {nFile : ℤ} {nPos : ℕ} : Built index →
      block.toCBlockHeader.InRange →
      block.toCBlockHeader.CheckProofOfWork crypto ProofOfWorkLimit = true →
      block.GetHash crypto ≠ 0 →
      block.hashPrevBlock = 0 ∨ index.contains block.hashPrevBlock = true →
      (∀ prev, index[block.hashPrevBlock]? = some prev → prev.nHeight + 1 < 2 ^ 31) →
      0 ≤ nFile ∧ nFile < 2 ^ 31 → nPos < 2 ^ 32 →
      AddToBlockIndex crypto block nFile nPos index = some index' → Built index'
  | connect {index : BlockMap} {hash : uint256} {pindex : CBlockIndex} {nUndoPos : ℕ} :
      Built index → index[hash]? = some pindex → nUndoPos < 2 ^ 32 →
      Built (index.insert hash (pindex.ConnectBlock nUndoPos))
  | fail {index : BlockMap} {hash : uint256} {pindex : CBlockIndex} (fChild : Bool) :
      Built index → index[hash]? = some pindex →
      Built (index.insert hash (pindex.setFailed fChild))

/-- What holds of an entry by itself. -/
structure Sound (hash : uint256) (pindex : CBlockIndex) : Prop where
  own : pindex.GetBlockHeader.GetHash crypto = hash
  nonzero : hash ≠ 0
  range : (CDiskBlockIndex.make pindex).InRange
  work : pindex.CheckIndex crypto ProofOfWorkLimit = true
  haveData : pindex.nStatus &&& BLOCK_HAVE_DATA ≠ 0
  noUndo : pindex.nStatus &&& BLOCK_HAVE_UNDO = 0 → pindex.nUndoPos = 0

/-- A block index is a tree, with the heights and the sums along it. -/
structure IndexTree (index : BlockMap) : Prop where
  sound : ∀ (hash : uint256) (pindex : CBlockIndex), index[hash]? = some pindex →
    Sound crypto ProofOfWorkLimit hash pindex
  parent : ∀ (hash : uint256) (pindex : CBlockIndex), index[hash]? = some pindex →
    ∀ q, pindex.pprev = some q → ∃ prev, index[q]? = some prev ∧
      pindex.nHeight = prev.nHeight + 1
  sums : ∀ (hash : uint256) (pindex : CBlockIndex), index[hash]? = some pindex →
    pindex.addToChain (pindex.pprev.bind fun q => index[q]?) = pindex

variable {crypto ProofOfWorkLimit}

theorem indexTree_empty : IndexTree crypto ProofOfWorkLimit ∅ :=
  ⟨fun hash pindex h => absurd h (lookup_empty_ne hash pindex),
    fun hash pindex h => absurd h (lookup_empty_ne hash pindex),
    fun hash pindex h => absurd h (lookup_empty_ne hash pindex)⟩

/-- Changing the status and the undo position of an entry. -/
theorem IndexTree.setStatus {index : BlockMap} (h : IndexTree crypto ProofOfWorkLimit index)
    {hash : uint256} {pindex : CBlockIndex} (hindex : index[hash]? = some pindex)
    (nStatus : BitVec 32) {nUndoPos : ℕ} (hpos : nUndoPos < 2 ^ 32)
    (hdata : nStatus &&& BLOCK_HAVE_DATA ≠ 0)
    (hundo : nStatus &&& BLOCK_HAVE_UNDO = 0 → nUndoPos = 0) :
    IndexTree crypto ProofOfWorkLimit
      (index.insert hash { pindex with nStatus, nUndoPos }) := by
  have hown := h.sound hash pindex hindex
  -- The entry that stands for a predecessor has the same height and the same sums.
  have hprev : ∀ (q : uint256) (prev : CBlockIndex), index[q]? = some prev →
      ∃ prev', (index.insert hash { pindex with nStatus, nUndoPos })[q]? = some prev' ∧
        prev'.nHeight = prev.nHeight ∧
        ∀ entry : CBlockIndex, entry.addToChain (some prev') = entry.addToChain (some prev) := by
    intro q prev hq
    by_cases hsame : q = hash
    · subst hsame
      obtain rfl := Option.some.inj (hindex.symm.trans hq)
      exact ⟨_, lookup_insert_iff.mpr (.inl ⟨rfl, rfl⟩), rfl, fun _ => rfl⟩
    · exact ⟨prev, lookup_insert_iff.mpr (.inr ⟨hsame, hq⟩), rfl, fun _ => rfl⟩
  have hparent : ∀ (entry : CBlockIndex), (∀ q, entry.pprev = some q → ∃ prev,
      index[q]? = some prev ∧ entry.nHeight = prev.nHeight + 1) →
      entry.addToChain (entry.pprev.bind fun q => index[q]?) = entry →
      (∀ q, entry.pprev = some q → ∃ prev,
        (index.insert hash { pindex with nStatus, nUndoPos })[q]? = some prev ∧
          entry.nHeight = prev.nHeight + 1) ∧
      entry.addToChain (entry.pprev.bind fun q =>
        (index.insert hash { pindex with nStatus, nUndoPos })[q]?) = entry := by
    intro entry hentry hsums
    cases hnone : entry.pprev with
    | none =>
        rw [hnone] at hsums
        exact ⟨fun q hq => (by cases hq), hsums⟩
    | some q =>
        obtain ⟨prev, hq, hheight⟩ := hentry q hnone
        obtain ⟨prev', hq', hheight', hchain⟩ := hprev q prev hq
        rw [hnone, Option.bind_some, hq] at hsums
        refine ⟨fun q' hsame => ?_, ?_⟩
        · obtain rfl := Option.some.inj hsame
          exact ⟨prev', hq', hheight.trans (congrArg (· + 1) hheight'.symm)⟩
        · rw [Option.bind_some, hq', hchain, hsums]
  refine ⟨fun k entry hk => ?_, fun k entry hk => ?_, fun k entry hk => ?_⟩
  · rcases lookup_insert_iff.mp hk with ⟨rfl, rfl⟩ | ⟨-, hk⟩
    · exact ⟨hown.own, hown.nonzero, { hown.range with nUndoPos := hpos }, hown.work, hdata, hundo⟩
    · exact h.sound k entry hk
  · rcases lookup_insert_iff.mp hk with ⟨rfl, rfl⟩ | ⟨-, hk⟩
    · exact (hparent { pindex with nStatus, nUndoPos } (h.parent k pindex hindex)
        (congrArg (fun e : CBlockIndex => { e with nStatus, nUndoPos })
          (h.sums k pindex hindex))).1
    · exact (hparent entry (h.parent k entry hk) (h.sums k entry hk)).1
  · rcases lookup_insert_iff.mp hk with ⟨rfl, rfl⟩ | ⟨-, hk⟩
    · exact (hparent { pindex with nStatus, nUndoPos } (h.parent k pindex hindex)
        (congrArg (fun e : CBlockIndex => { e with nStatus, nUndoPos })
          (h.sums k pindex hindex))).2
    · exact (hparent entry (h.parent k entry hk) (h.sums k entry hk)).2

/-! ### Status bits -/

theorem haveData_iff {status : BitVec 32} :
    status &&& BLOCK_HAVE_DATA ≠ 0 ↔ status.getLsbD 3 = true := by
  rw [show BLOCK_HAVE_DATA = BitVec.twoPow 32 3 from rfl, BitVec.and_twoPow]
  split_ifs with h
  · exact iff_of_true (by decide) h
  · exact iff_of_false (by decide) h

theorem haveUndo_iff {status : BitVec 32} :
    status &&& BLOCK_HAVE_UNDO ≠ 0 ↔ status.getLsbD 4 = true := by
  rw [show BLOCK_HAVE_UNDO = BitVec.twoPow 32 4 from rfl, BitVec.and_twoPow]
  split_ifs with h
  · exact iff_of_true (by decide) h
  · exact iff_of_false (by decide) h

/-- Setting the state of validity leaves the other bits. -/
theorem getLsbD_validScripts (status : BitVec 32) {i : ℕ} (hi : 3 ≤ i) (hlt : i < 32) :
    ((status &&& ~~~BLOCK_VALID_MASK) ||| BLOCK_VALID_SCRIPTS).getLsbD i = status.getLsbD i := by
  have hhigh : ∀ i < 32, 3 ≤ i →
      BLOCK_VALID_MASK.getLsbD i = false ∧ BLOCK_VALID_SCRIPTS.getLsbD i = false := by decide
  obtain ⟨hmask, hscripts⟩ := hhigh i hlt hi
  rw [BitVec.getLsbD_or, BitVec.getLsbD_and, BitVec.getLsbD_not, hmask, hscripts]
  simp [hlt]

theorem IndexTree.connect {index : BlockMap} (h : IndexTree crypto ProofOfWorkLimit index)
    {hash : uint256} {pindex : CBlockIndex} (hindex : index[hash]? = some pindex) {nUndoPos : ℕ}
    (hpos : nUndoPos < 2 ^ 32) :
    IndexTree crypto ProofOfWorkLimit (index.insert hash (pindex.ConnectBlock nUndoPos)) := by
  have hsound := h.sound hash pindex hindex
  have hdata := haveData_iff.mp hsound.haveData
  have hsame := h.setStatus hindex pindex.nStatus hsound.range.nUndoPos hsound.haveData
    hsound.noUndo
  unfold CBlockIndex.ConnectBlock
  by_cases hnone : pindex.GetUndoPos = none
  · rw [if_pos (.inl hnone), if_pos hnone]
    refine h.setStatus hindex _ hpos (haveData_iff.mpr ?_) fun hundo => ?_
    · rw [getLsbD_validScripts _ (by decide) (by decide), BitVec.getLsbD_or, hdata, Bool.true_or]
    · refine absurd hundo (haveUndo_iff.mpr ?_)
      rw [getLsbD_validScripts _ (by decide) (by decide), BitVec.getLsbD_or,
        show BLOCK_HAVE_UNDO.getLsbD 4 = true from rfl, Bool.or_true]
  · have hundo : pindex.nStatus &&& BLOCK_HAVE_UNDO ≠ 0 := by
      intro hzero
      exact hnone (if_neg (not_not.mpr hzero))
    split_ifs
    · refine h.setStatus hindex _ hsound.range.nUndoPos (haveData_iff.mpr ?_) fun hzero => ?_
      · rw [getLsbD_validScripts _ (by decide) (by decide), hdata]
      · refine absurd hzero (haveUndo_iff.mpr ?_)
        rw [getLsbD_validScripts _ (by decide) (by decide), haveUndo_iff.mp hundo]
    · exact hsame

theorem IndexTree.fail {index : BlockMap} (h : IndexTree crypto ProofOfWorkLimit index)
    {hash : uint256} {pindex : CBlockIndex} (hindex : index[hash]? = some pindex) (fChild : Bool) :
    IndexTree crypto ProofOfWorkLimit (index.insert hash (pindex.setFailed fChild)) := by
  have hsound := h.sound hash pindex hindex
  refine h.setStatus hindex _ hsound.range.nUndoPos (haveData_iff.mpr ?_) fun hzero =>
    hsound.noUndo ?_
  · rw [BitVec.getLsbD_or, haveData_iff.mp hsound.haveData, Bool.true_or]
  · by_contra hundo
    refine absurd hzero (haveUndo_iff.mpr ?_)
    rw [BitVec.getLsbD_or, haveUndo_iff.mp hundo, Bool.true_or]

theorem IndexTree.insert {index : BlockMap} (h : IndexTree crypto ProofOfWorkLimit index)
    {hash : uint256} {entry : CBlockIndex} (hfresh : index[hash]? = none)
    (hsound : Sound crypto ProofOfWorkLimit hash entry)
    (hparent : ∀ q, entry.pprev = some q → ∃ prev, index[q]? = some prev ∧
      entry.nHeight = prev.nHeight + 1)
    (hsums : entry.addToChain (entry.pprev.bind fun q => index[q]?) = entry) :
    IndexTree crypto ProofOfWorkLimit (index.insert hash entry) := by
  have hkept : ∀ (q : uint256) (prev : CBlockIndex), index[q]? = some prev →
      (index.insert hash entry)[q]? = some prev := by
    intro q prev hq
    refine lookup_insert_iff.mpr (.inr ⟨?_, hq⟩)
    rintro rfl
    rw [hfresh] at hq
    cases hq
  have hsame : ∀ other : CBlockIndex, (∀ q, other.pprev = some q → ∃ prev,
      index[q]? = some prev ∧ other.nHeight = prev.nHeight + 1) →
      (other.pprev.bind fun q => (index.insert hash entry)[q]?) =
        other.pprev.bind fun q => index[q]? := by
    intro other hother
    cases hnone : other.pprev with
    | none => rfl
    | some q =>
        obtain ⟨prev, hq, -⟩ := hother q hnone
        rw [Option.bind_some, Option.bind_some, hkept q prev hq, hq]
  refine ⟨fun k other hk => ?_, fun k other hk q hq => ?_, fun k other hk => ?_⟩
  · rcases lookup_insert_iff.mp hk with ⟨rfl, rfl⟩ | ⟨-, hk⟩
    · exact hsound
    · exact h.sound k other hk
  · have hold : ∃ prev, index[q]? = some prev ∧ other.nHeight = prev.nHeight + 1 := by
      rcases lookup_insert_iff.mp hk with ⟨rfl, rfl⟩ | ⟨-, hk⟩
      · exact hparent q hq
      · exact h.parent k other hk q hq
    obtain ⟨prev, hprev, hheight⟩ := hold
    exact ⟨prev, hkept q prev hprev, hheight⟩
  · rcases lookup_insert_iff.mp hk with ⟨rfl, rfl⟩ | ⟨-, hk⟩
    · rw [hsame other hparent, hsums]
    · rw [hsame other (h.parent k other hk), h.sums k other hk]

/-- A new entry is behind one that is there, or a root. -/
theorem IndexTree.add {index index' : BlockMap} (h : IndexTree crypto ProofOfWorkLimit index)
    {block : CBlock} {nFile : ℤ} {nPos : ℕ} (hrange : block.toCBlockHeader.InRange)
    (hwork : block.toCBlockHeader.CheckProofOfWork crypto ProofOfWorkLimit = true)
    (hnonzero : block.GetHash crypto ≠ 0)
    (hprev : block.hashPrevBlock = 0 ∨ index.contains block.hashPrevBlock = true)
    (hheight : ∀ prev, index[block.hashPrevBlock]? = some prev → prev.nHeight + 1 < 2 ^ 31)
    (hfile : 0 ≤ nFile ∧ nFile < 2 ^ 31) (hpos : nPos < 2 ^ 32)
    (hadd : AddToBlockIndex crypto block nFile nPos index = some index') :
    IndexTree crypto ProofOfWorkLimit index' := by
  unfold AddToBlockIndex at hadd
  dsimp only at hadd
  split_ifs at hadd with hknown
  obtain rfl := Option.some.inj hadd
  have hfresh : index[block.GetHash crypto]? = none :=
    Std.TreeMap.getElem?_eq_none_of_contains_eq_false (Bool.eq_false_iff.mpr hknown)
  obtain ⟨hprevRange, hmerkle, htime, hbits, hnonce⟩ := hrange
  have hpprev : (index[block.hashPrevBlock]?.map fun _ => block.hashPrevBlock).getD 0 =
      block.hashPrevBlock := by
    cases hprevCase : index[block.hashPrevBlock]? with
    | some entry => rfl
    | none =>
        rcases hprev with hzero | hcontains
        · exact hzero.symm
        · rw [Std.TreeMap.contains_eq_isSome_getElem?, hprevCase] at hcontains
          cases hcontains
  have hheader : ({ block.toCBlockHeader with
      hashPrevBlock := (index[block.hashPrevBlock]?.map fun _ => block.hashPrevBlock).getD 0 } :
        CBlockHeader) = block.toCBlockHeader := by
    rw [hpprev]
  have hrangeHeight : 0 ≤ (index[block.hashPrevBlock]?.map fun q => q.nHeight + 1).getD 0 ∧
      (index[block.hashPrevBlock]?.map fun q => q.nHeight + 1).getD 0 < 2 ^ 31 := by
    cases hprevCase : index[block.hashPrevBlock]? with
    | none => exact ⟨le_rfl, by decide⟩
    | some entry =>
        have hnonneg := (h.sound _ entry hprevCase).range.nHeight.1
        refine ⟨?_, hheight entry hprevCase⟩
        exact hnonneg.trans (Int.le_add_one le_rfl)
  apply h.insert hfresh
  · constructor
    · exact (congrArg (CBlockHeader.GetHash crypto) hheader)
    · exact hnonzero
    · exact ⟨hrangeHeight, Nat.mod_lt _ (by decide), Nat.mod_lt _ (by decide), hfile, hpos,
        (by decide : (0 : ℕ) < 2 ^ 32), hpprev.trans_lt hprevRange, hmerkle, htime, hbits, hnonce⟩
    · exact (congrArg (CBlockHeader.CheckProofOfWork crypto ProofOfWorkLimit) hheader).trans hwork
    · exact (by decide : (BLOCK_VALID_TRANSACTIONS ||| BLOCK_HAVE_DATA) &&& BLOCK_HAVE_DATA ≠ 0)
    · exact fun _ => rfl
  · intro q hq
    obtain ⟨prev, hentry, rfl⟩ := Option.map_eq_some_iff.mp hq
    refine ⟨prev, hentry, ?_⟩
    dsimp only [CBlockIndex.addToChain]
    rw [hentry]
    rfl
  · have hbind : ((index[block.hashPrevBlock]?.map fun _ => block.hashPrevBlock).bind
        fun q => index[q]?) = index[block.hashPrevBlock]? := by
      cases hprevCase : index[block.hashPrevBlock]? with
      | none => rfl
      | some entry =>
          rw [Option.map_some, Option.bind_some]
          exact hprevCase
    dsimp only [CBlockIndex.addToChain]
    rw [hbind]
    rfl

theorem Built.indexTree {index : BlockMap} (h : Built crypto ProofOfWorkLimit index) :
    IndexTree crypto ProofOfWorkLimit index := by
  induction h with
  | empty => exact indexTree_empty
  | add _ hrange hwork hnonzero hprev hheight hfile hpos hadd ih =>
      exact ih.add hrange hwork hnonzero hprev hheight hfile hpos hadd
  | connect _ hindex hpos ih => exact ih.connect hindex hpos
  | fail fChild _ hindex ih => exact ih.fail hindex fChild

/-! ### Loading the entries -/

/-- An entry without its sums. -/
def bare (pindex : CBlockIndex) : CBlockIndex :=
  { pindex with nChainSize := 0, nChainWork := 0, nChainTx := 0 }

/-- What is read of a sound entry is the entry without its predecessor and its sums. -/
theorem Sound.stored {hash : uint256} {pindex : CBlockIndex}
    (h : Sound crypto ProofOfWorkLimit hash pindex) :
    (CDiskBlockIndex.make pindex).stored =
      { pindex := { bare pindex with pprev := none }, hashPrev := pindex.pprev.getD 0 } := by
  have hfile : pindex.nStatus &&& (BLOCK_HAVE_DATA ||| BLOCK_HAVE_UNDO) ≠ 0 := by
    intro hzero
    have hbit := congrArg (BitVec.getLsbD · 3) hzero
    rw [BitVec.getLsbD_and, haveData_iff.mp h.haveData] at hbit
    exact absurd hbit (by decide)
  unfold CDiskBlockIndex.stored CDiskBlockIndex.make bare
  dsimp only
  rw [if_pos hfile, if_pos h.haveData]
  by_cases hundo : pindex.nStatus &&& BLOCK_HAVE_UNDO = 0
  · rw [if_neg (not_not.mpr hundo), h.noUndo hundo]
  · rw [if_pos hundo]

theorem insertBlockIndex_spec {hash : uint256} (hhash : hash ≠ 0) (index : BlockMap) :
    ∃ index', InsertBlockIndex hash index = (index', some hash) ∧ ∀ k : uint256,
      index'[k]? = if k = hash then some ((index[hash]?).getD CBlockIndex.empty)
        else index[k]? := by
  unfold InsertBlockIndex
  rw [if_neg hhash]
  cases hentry : index[hash]? with
  | none =>
      have hnot : index.contains hash = false := by
        rw [Std.TreeMap.contains_eq_isSome_getElem?, hentry]
        rfl
      rw [hnot, if_neg Bool.false_ne_true]
      exact ⟨_, rfl, lookup_insert hash CBlockIndex.empty⟩
  | some entry =>
      have hknown : index.contains hash = true := by
        rw [Std.TreeMap.contains_eq_isSome_getElem?, hentry]
        rfl
      rw [hknown, if_pos rfl]
      refine ⟨_, rfl, fun k => ?_⟩
      by_cases hk : k = hash
      · rw [if_pos hk, hk, hentry]
        rfl
      · rw [if_neg hk]

/-- The map while the values are loaded: the entries that were read, and empty ones for
predecessors that were not. -/
structure Loaded (done : List (uint256 × CBlockIndex)) (index : BlockMap) : Prop where
  read : ∀ item ∈ done, index[item.1]? = some (bare item.2)
  waiting : ∀ k, k ∉ done.map Prod.fst → (∃ item ∈ done, item.2.pprev = some k) →
    index[k]? = some CBlockIndex.empty
  absent : ∀ k, k ∉ done.map Prod.fst → (¬ ∃ item ∈ done, item.2.pprev = some k) →
    index[k]? = none

theorem Loaded.fresh {done : List (uint256 × CBlockIndex)} {index : BlockMap}
    (h : Loaded done index) {k : uint256} (hk : k ∉ done.map Prod.fst) :
    (index[k]?).getD CBlockIndex.empty = CBlockIndex.empty := by
  by_cases hwaiting : ∃ item ∈ done, item.2.pprev = some k
  · rw [h.waiting k hk hwaiting]
    rfl
  · rw [h.absent k hk hwaiting]
    rfl

/-- Loading a value adds its entry, and an empty one for its predecessor if there is
none yet. -/
theorem loadValue_spec {done : List (uint256 × CBlockIndex)} {index : BlockMap}
    (h : Loaded done index) {hash : uint256} {pindex : CBlockIndex}
    (hsound : Sound crypto ProofOfWorkLimit hash pindex) (hnew : hash ∉ done.map Prod.fst)
    (hprev : ∀ q, pindex.pprev = some q → q ≠ 0 ∧ q ≠ hash) :
    ∃ index', loadValue crypto ProofOfWorkLimit index
        (CDiskBlockIndex.make pindex).Serialize = some index' ∧
      Loaded (done ++ [(hash, pindex)]) index' := by
  have hread := unserialize_serialize hsound.range []
  rw [List.append_nil, hsound.stored] at hread
  obtain ⟨index₁, hown, hlookup₁⟩ := insertBlockIndex_spec hsound.nonzero index
  rw [h.fresh hnew] at hlookup₁
  -- The predecessor gets an entry, if it is not the null hash.
  obtain ⟨index₂, hpprev, hlookup₂⟩ : ∃ index₂,
      InsertBlockIndex (pindex.pprev.getD 0) index₁ = (index₂, pindex.pprev) ∧
      ∀ k : uint256, index₂[k]? = if pindex.pprev = some k
        then some ((index₁[k]?).getD CBlockIndex.empty) else index₁[k]? := by
    cases hcase : pindex.pprev with
    | none =>
        refine ⟨index₁, if_pos rfl, fun k => ?_⟩
        rw [if_neg (Option.some_ne_none k).symm]
    | some q =>
        obtain ⟨index₂, hinsert, hlookup⟩ := insertBlockIndex_spec (hprev q hcase).1 index₁
        refine ⟨index₂, hinsert, fun k => ?_⟩
        rw [hlookup]
        by_cases hk : k = q
        · rw [if_pos hk, if_pos (congrArg some hk.symm), hk]
        · rw [if_neg hk, if_neg fun hsame => hk (Option.some.inj hsame).symm]
  have hold : index₂[hash]? = some CBlockIndex.empty := by
    rw [hlookup₂, hlookup₁, if_pos rfl]
    split_ifs <;> rfl
  refine ⟨index₂.insert hash (bare pindex), ?_, ?_⟩
  · unfold loadValue
    have hhash : CDiskBlockIndex.GetBlockHash crypto
        { pindex := { bare pindex with pprev := none }, hashPrev := pindex.pprev.getD 0 } = hash :=
      hsound.own
    rw [hread]
    dsimp only
    rw [hhash, hown]
    dsimp only
    rw [Option.bind_some, hpprev]
    dsimp only
    rw [hold, Option.bind_some]
    exact if_pos hsound.work
  · have hlookup : ∀ k : uint256, (index₂.insert hash (bare pindex))[k]? =
        if k = hash then some (bare pindex)
        else if pindex.pprev = some k then some ((index[k]?).getD CBlockIndex.empty)
        else index[k]? := by
      intro k
      rw [lookup_insert]
      by_cases hk : k = hash
      · rw [if_pos hk, if_pos hk]
      · rw [if_neg hk, if_neg hk, hlookup₂, hlookup₁, if_neg hk]
    have hmem : ∀ k, k ∉ (done ++ [(hash, pindex)]).map Prod.fst ↔
        k ∉ done.map Prod.fst ∧ k ≠ hash := by
      intro k
      rw [List.map_append, List.mem_append, not_or, List.map_singleton, List.mem_singleton]
    refine ⟨fun item hitem => ?_, fun k hk hwaiting => ?_, fun k hk hnone => ?_⟩
    · rw [hlookup]
      rcases List.mem_append.mp hitem with hitem | hitem
      · have hne : item.1 ≠ hash := fun hsame => hnew (hsame ▸ List.mem_map_of_mem hitem)
        rw [if_neg hne, h.read item hitem]
        split_ifs <;> rfl
      · rw [List.mem_singleton.mp hitem, if_pos rfl]
    · obtain ⟨hold', hne⟩ := (hmem k).mp hk
      rw [hlookup, if_neg hne, h.fresh hold']
      split_ifs with hsame
      · rfl
      · obtain ⟨item, hitem, hpp⟩ := hwaiting
        rcases List.mem_append.mp hitem with hitem | hitem
        · exact h.waiting k hold' ⟨item, hitem, hpp⟩
        · rw [List.mem_singleton.mp hitem] at hpp
          exact absurd hpp hsame
    · obtain ⟨hold', hne⟩ := (hmem k).mp hk
      rw [hlookup, if_neg hne, if_neg fun hsame => hnone
        ⟨(hash, pindex), List.mem_append_right _ List.mem_cons_self, hsame⟩]
      exact h.absent k hold' fun ⟨item, hitem, hpp⟩ =>
        hnone ⟨item, List.mem_append_left _ hitem, hpp⟩

theorem loadValues_spec : ∀ (items : List (uint256 × CBlockIndex))
    {done : List (uint256 × CBlockIndex)} {index : BlockMap}, Loaded done index →
    ((done ++ items).map Prod.fst).Nodup →
    (∀ item ∈ items, Sound crypto ProofOfWorkLimit item.1 item.2 ∧
      ∀ q, item.2.pprev = some q → q ≠ 0 ∧ q ≠ item.1) →
    ∃ index', (writtenIndex items).foldlM (loadValue crypto ProofOfWorkLimit) index =
        some index' ∧
      Loaded (done ++ items) index'
  | [], done, index, h, _, _ => ⟨index, rfl, (List.append_nil done).symm ▸ h⟩
  | (hash, pindex) :: items, done, index, h, hnodup, hitems => by
      obtain ⟨⟨hsound, hprev⟩, hrest⟩ := List.forall_mem_cons.mp hitems
      have hsplit : done ++ (hash, pindex) :: items = done ++ [(hash, pindex)] ++ items :=
        List.append_cons _ _ _
      have hnew : hash ∉ done.map Prod.fst := by
        rw [List.map_append, List.map_cons] at hnodup
        exact fun hmem => (List.disjoint_of_nodup_append hnodup) hmem List.mem_cons_self
      obtain ⟨index₁, hload, hloaded⟩ := loadValue_spec h hsound hnew hprev
      rw [hsplit] at hnodup ⊢
      obtain ⟨index', hrun, hfinal⟩ := loadValues_spec items hloaded hnodup hrest
      refine ⟨index', ?_, hfinal⟩
      rw [writtenIndex, List.map_cons, List.foldlM_cons, hload]
      exact hrun

/-- In whatever order the database shows what was written, all entries are loaded. -/
theorem loadBlockIndexGuts_spec {index : BlockMap} (h : IndexTree crypto ProofOfWorkLimit index)
    {items : List (uint256 × CBlockIndex)} (hitems : items.Perm index.toList) :
    ∃ loaded, LoadBlockIndexGuts crypto ProofOfWorkLimit (writtenIndex items) = some loaded ∧
      ∀ hash : uint256, loaded[hash]? = (index[hash]?).map bare := by
  have hmem : ∀ item : uint256 × CBlockIndex, item ∈ items ↔ index[item.1]? = some item.2 := by
    intro item
    rw [hitems.mem_iff, ← Std.TreeMap.mem_toList_iff_getElem?_eq_some]
  have hempty : Loaded [] (∅ : BlockMap) :=
    ⟨fun _ hitem => absurd hitem List.not_mem_nil,
      fun _ _ ⟨_, hitem, _⟩ => absurd hitem List.not_mem_nil,
      fun _ _ _ => Std.TreeMap.getElem?_emptyc⟩
  have hsound : ∀ item ∈ items, Sound crypto ProofOfWorkLimit item.1 item.2 ∧
      ∀ q, item.2.pprev = some q → q ≠ 0 ∧ q ≠ item.1 := by
    intro item hitem
    have hentry := (hmem item).mp hitem
    refine ⟨h.sound _ _ hentry, fun q hq => ?_⟩
    obtain ⟨prev, hprev, hheight⟩ := h.parent _ _ hentry q hq
    refine ⟨(h.sound q prev hprev).nonzero, ?_⟩
    rintro rfl
    obtain rfl := Option.some.inj (hentry.symm.trans hprev)
    omega
  obtain ⟨loaded, hrun, hloaded⟩ := loadValues_spec items hempty
    ((hitems.map Prod.fst).nodup_iff.mpr (nodup_keys index)) hsound
  rw [List.nil_append] at hloaded
  refine ⟨loaded, hrun, fun hash => ?_⟩
  cases hentry : index[hash]? with
  | some pindex => exact hloaded.read (hash, pindex) ((hmem (hash, pindex)).mpr hentry)
  | none =>
      have hnot : hash ∉ items.map Prod.fst := by
        intro hkey
        obtain ⟨item, hitem, rfl⟩ := List.mem_map.mp hkey
        rw [(hmem item).mp hitem] at hentry
        cases hentry
      refine hloaded.absent hash hnot ?_
      rintro ⟨item, hitem, hprev⟩
      obtain ⟨prev, hq, -⟩ := h.parent _ _ ((hmem item).mp hitem) hash hprev
      rw [hentry] at hq
      cases hq

/-! ### The sums -/

/-- An entry that may be a tip. -/
def Candidate (pindex : CBlockIndex) : Prop :=
  BLOCK_VALID_TRANSACTIONS.toNat ≤ (pindex.nStatus &&& BLOCK_VALID_MASK).toNat ∧
    pindex.nStatus &&& BLOCK_FAILED_MASK = 0

/-- The state of the loop by height: the entries it has been at have their sums. -/
structure Summed (index : BlockMap) (done : List (ℤ × uint256))
    (state : BlockMap × List uint256) : Prop where
  entries : ∀ k : uint256, state.1[k]? =
    if k ∈ done.map Prod.snd then index[k]? else (index[k]?).map bare
  members : ∀ k : uint256, k ∈ state.2 ↔ k ∈ done.map Prod.snd ∧
    ∃ pindex, index[k]? = some pindex ∧ Candidate pindex
  nodup : state.2.Nodup

/-- An entry gets its sums when its predecessor has them. -/
theorem chainRound_spec {index : BlockMap} {done : List (ℤ × uint256)}
    {state : BlockMap × List uint256} (h : Summed index done state) {item : ℤ × uint256}
    {pindex : CBlockIndex} (hentry : index[item.2]? = some pindex)
    (hnew : item.2 ∉ done.map Prod.snd)
    (hprev : ∀ q, pindex.pprev = some q → q ∈ done.map Prod.snd)
    (hsums : pindex.addToChain (pindex.pprev.bind fun q => index[q]?) = pindex) :
    Summed index (done ++ [item]) (chainRound state item) := by
  have hnow : state.1[item.2]? = some (bare pindex) := by
    rw [h.entries, if_neg hnew, hentry]
    rfl
  have hparent : ((bare pindex).pprev.bind fun q => state.1[q]?) =
      pindex.pprev.bind fun q => index[q]? := by
    cases hcase : pindex.pprev with
    | none =>
        rw [show (bare pindex).pprev = none from hcase]
        rfl
    | some q =>
        rw [show (bare pindex).pprev = some q from hcase, Option.bind_some, Option.bind_some,
          h.entries, if_pos (hprev q hcase)]
  have hchain : (bare pindex).addToChain ((bare pindex).pprev.bind fun q => state.1[q]?) =
      pindex := by
    rw [hparent]
    exact hsums
  have hround : chainRound state item = (state.1.insert item.2 pindex,
      if BLOCK_VALID_TRANSACTIONS.toNat ≤ (pindex.nStatus &&& BLOCK_VALID_MASK).toNat ∧
        pindex.nStatus &&& BLOCK_FAILED_MASK = 0 then item.2 :: state.2 else state.2) := by
    unfold chainRound
    rw [hnow]
    dsimp only
    rw [hchain]
  have hmem : ∀ k, k ∈ (done ++ [item]).map Prod.snd ↔ k ∈ done.map Prod.snd ∨ k = item.2 := by
    intro k
    rw [List.map_append, List.mem_append, List.map_singleton, List.mem_singleton]
  rw [hround]
  refine ⟨fun k => ?_, fun k => ?_, ?_⟩
  · dsimp only
    rw [lookup_insert]
    by_cases hk : k = item.2
    · rw [if_pos hk, if_pos ((hmem k).mpr (.inr hk)), hk, hentry]
    · rw [if_neg hk, h.entries]
      by_cases hdone : k ∈ done.map Prod.snd
      · rw [if_pos hdone, if_pos ((hmem k).mpr (.inl hdone))]
      · rw [if_neg hdone, if_neg fun hnot => ((hmem k).mp hnot).elim hdone hk]
  · rw [hmem]
    dsimp only
    split_ifs with hcandidate
    · rw [List.mem_cons, h.members]
      constructor
      · rintro (rfl | ⟨hdone, hpindex⟩)
        · exact ⟨.inr rfl, pindex, hentry, hcandidate⟩
        · exact ⟨.inl hdone, hpindex⟩
      · rintro ⟨hdone | rfl, hpindex⟩
        · exact .inr ⟨hdone, hpindex⟩
        · exact .inl rfl
    · rw [h.members]
      constructor
      · rintro ⟨hdone, hpindex⟩
        exact ⟨.inl hdone, hpindex⟩
      · rintro ⟨hdone | rfl, own, hown, hmay⟩
        · exact ⟨hdone, own, hown, hmay⟩
        · obtain rfl := Option.some.inj (hentry.symm.trans hown)
          exact absurd hmay hcandidate
  · dsimp only
    split_ifs
    · exact List.nodup_cons.mpr ⟨fun hin => hnew ((h.members _).mp hin).1, h.nodup⟩
    · exact h.nodup

theorem sortedBefore_iff {address : uint256 → ℕ} {item other : ℤ × uint256} :
    sortedBefore address item other = true ↔
      item.1 < other.1 ∨ (item.1 = other.1 ∧ address item.2 ≤ address other.2) := by
  simp [sortedBefore]

/-- Going by height, every entry comes after its predecessor. -/
theorem chainRounds_spec {index : BlockMap} (h : IndexTree crypto ProofOfWorkLimit index)
    {sorted : List (ℤ × uint256)} (hkeys : (sorted.map Prod.snd).Nodup)
    (hentries : ∀ item : ℤ × uint256, item ∈ sorted ↔
      ∃ pindex, index[item.2]? = some pindex ∧ pindex.nHeight = item.1)
    (hsorted : sorted.Pairwise fun item other => item.1 ≤ other.1) :
    ∀ (rest : List (ℤ × uint256)) {done : List (ℤ × uint256)} {state : BlockMap × List uint256},
      done ++ rest = sorted → Summed index done state →
      Summed index sorted (rest.foldl chainRound state)
  | [], done, state, hall, hstate => by
      rw [List.append_nil] at hall
      exact hall ▸ hstate
  | item :: rest, done, state, hall, hstate => by
      obtain ⟨pindex, hentry, hheight⟩ := (hentries item).mp
        (hall ▸ List.mem_append_right _ List.mem_cons_self)
      have hnew : item.2 ∉ done.map Prod.snd := by
        rw [← hall, List.map_append, List.map_cons] at hkeys
        exact fun hmem => (List.disjoint_of_nodup_append hkeys) hmem List.mem_cons_self
      have hprev : ∀ q, pindex.pprev = some q → q ∈ done.map Prod.snd := by
        intro q hq
        obtain ⟨prev, hprevEntry, hnext⟩ := h.parent _ _ hentry q hq
        have hin : (prev.nHeight, q) ∈ sorted := (hentries _).mpr ⟨prev, hprevEntry, rfl⟩
        rw [← hall] at hin hsorted
        rcases List.mem_append.mp hin with hdone | hlater
        · exact List.mem_map.mpr ⟨_, hdone, rfl⟩
        · have hbefore : item.1 ≤ prev.nHeight := by
            rcases List.mem_cons.mp hlater with hsame | hrest
            · rw [← hsame]
            · exact (List.pairwise_cons.mp (List.pairwise_append.mp hsorted).2.1).1 _ hrest
          omega
      refine chainRounds_spec h hkeys hentries hsorted rest ?_
        (chainRound_spec hstate hentry hnew hprev (h.sums _ _ hentry))
      rw [List.append_assoc, List.singleton_append, hall]

variable (crypto ProofOfWorkLimit)

/-- The block index that is loaded is the one that was written: the same entries with the
same fields, predecessors and sums, in whatever order the database shows them and
wherever the entries are in memory.  `setBlockIndexValid` has exactly the entries whose
transactions are valid and that are not flagged as failed. -/
theorem blockIndex_reload (address : uint256 → ℕ) {index : BlockMap}
    (hbuilt : Built crypto ProofOfWorkLimit index) {items : List (uint256 × CBlockIndex)}
    (hitems : items.Perm index.toList) :
    ∃ (loaded : BlockMap) (setBlockIndexValid : List uint256),
      LoadBlockIndexDB crypto ProofOfWorkLimit address (writtenIndex items) =
        some (loaded, setBlockIndexValid) ∧
      (∀ hash : uint256, loaded[hash]? = index[hash]?) ∧
      setBlockIndexValid.Nodup ∧
      ∀ hash : uint256, hash ∈ setBlockIndexValid ↔ ∃ pindex, index[hash]? = some pindex ∧
        BLOCK_VALID_TRANSACTIONS.toNat ≤ (pindex.nStatus &&& BLOCK_VALID_MASK).toNat ∧
        pindex.nStatus &&& BLOCK_FAILED_MASK = 0 := by
  have h := hbuilt.indexTree
  obtain ⟨loaded, hload, hbare⟩ := loadBlockIndexGuts_spec h hitems
  let pairs := loaded.toList.map fun item => (item.2.nHeight, item.1)
  let sorted := pairs.mergeSort (sortedBefore address)
  have hperm : sorted.Perm pairs := List.mergeSort_perm _ _
  have hpairs : pairs.map Prod.snd = loaded.toList.map Prod.fst := List.map_map
  have hkeys : (sorted.map Prod.snd).Nodup := by
    rw [(hperm.map Prod.snd).nodup_iff, hpairs]
    exact nodup_keys loaded
  have hentries : ∀ item : ℤ × uint256, item ∈ sorted ↔
      ∃ pindex, index[item.2]? = some pindex ∧ pindex.nHeight = item.1 := by
    rintro ⟨nHeight, hash⟩
    rw [hperm.mem_iff, List.mem_map]
    constructor
    · rintro ⟨⟨k, entry⟩, hentry, hsame⟩
      obtain ⟨rfl, rfl⟩ := Prod.mk.inj hsame
      rw [Std.TreeMap.mem_toList_iff_getElem?_eq_some, hbare, Option.map_eq_some_iff] at hentry
      obtain ⟨pindex, hpindex, rfl⟩ := hentry
      exact ⟨pindex, hpindex, rfl⟩
    · rintro ⟨pindex, hpindex, rfl⟩
      refine ⟨(hash, bare pindex), ?_, rfl⟩
      rw [Std.TreeMap.mem_toList_iff_getElem?_eq_some, hbare, hpindex]
      rfl
  have hsorted : sorted.Pairwise fun item other => item.1 ≤ other.1 := by
    refine (List.pairwise_mergeSort (fun a b c hab hbc => ?_) (fun a b => ?_) pairs).imp ?_
    · rw [sortedBefore_iff] at hab hbc ⊢
      omega
    · rw [Bool.or_eq_true, sortedBefore_iff, sortedBefore_iff]
      omega
    · intro item other hbefore
      rw [sortedBefore_iff] at hbefore
      omega
  have hstart : Summed index [] (loaded, []) := by
    refine ⟨fun k => ?_, fun k => ?_, List.nodup_nil⟩
    · rw [hbare]
      rfl
    · simp
  have hfinal := chainRounds_spec h hkeys hentries hsorted sorted rfl hstart
  have hin : ∀ (hash : uint256) (pindex : CBlockIndex), index[hash]? = some pindex →
      hash ∈ sorted.map Prod.snd := fun hash pindex hentry =>
    List.mem_map.mpr ⟨(pindex.nHeight, hash), (hentries _).mpr ⟨pindex, hentry, rfl⟩, rfl⟩
  refine ⟨(sorted.foldl chainRound (loaded, [])).1, (sorted.foldl chainRound (loaded, [])).2,
    ?_, fun hash => ?_, hfinal.nodup, fun hash => ?_⟩
  · unfold LoadBlockIndexDB
    rw [hload]
    rfl
  · rw [hfinal.entries]
    split_ifs with hdone
    · rfl
    · cases hentry : index[hash]? with
      | none => rfl
      | some pindex => exact absurd (hin hash pindex hentry) hdone
  · rw [hfinal.members]
    constructor
    · rintro ⟨-, pindex, hentry, hcandidate⟩
      exact ⟨pindex, hentry, hcandidate⟩
    · rintro ⟨pindex, hentry, hcandidate⟩
      exact ⟨hin hash pindex hentry, pindex, hentry, hcandidate⟩

end Tree

/-! ### Two entries -/

/-- A block of which only the version and the predecessor matter. -/
def easyBlock (nVersion : BitVec 32) (prev : uint256) : CBlock :=
  { nVersion, hashPrevBlock := prev, hashMerkleRoot := 7, nTime := 3, nBits := 0x2000ffff
    nNonce := 5, vtx := [], vMerkleTree := [] }

/-- A root with a negative version. -/
def rootIndex : BlockMap :=
  (AddToBlockIndex readingCrypto (easyBlock 0x80000001 0) 0 8 ∅).get (by decide +kernel)

/-- An entry behind it. -/
def smallIndex : BlockMap :=
  (AddToBlockIndex readingCrypto (easyBlock 2 0x80000001) 0 300 rootIndex).get
    (by decide +kernel)

theorem inRange_easyBlock (nVersion : BitVec 32) {prev : uint256} (hprev : prev < 2 ^ 256) :
    (easyBlock nVersion prev).toCBlockHeader.InRange :=
  ⟨hprev, (by decide : 7 < 2 ^ 256), (by decide : 3 < 2 ^ 32),
    (by decide : 0x2000ffff < 2 ^ 32), (by decide : 5 < 2 ^ 32)⟩

theorem built_smallIndex : Built readingCrypto (2 ^ 256) smallIndex := by
  have hfirst : AddToBlockIndex readingCrypto (easyBlock 0x80000001 0) 0 8 ∅ = some rootIndex :=
    (Option.some_get _).symm
  have hsecond : AddToBlockIndex readingCrypto (easyBlock 2 0x80000001) 0 300 rootIndex =
      some smallIndex := (Option.some_get _).symm
  have hroot : Built readingCrypto (2 ^ 256) rootIndex := by
    refine .add .empty (inRange_easyBlock _ (by decide)) (by decide +kernel) (by decide +kernel)
      (.inl rfl) (fun prev hprev => ?_) (by decide) (by decide) hfirst
    exact absurd hprev (lookup_empty_ne _ prev)
  refine .add hroot (inRange_easyBlock _ (by decide)) (by decide +kernel) (by decide +kernel)
    (.inr (by decide +kernel)) (fun prev hprev => ?_) (by decide) (by decide) hsecond
  have hheight : (rootIndex[(easyBlock 2 0x80000001).hashPrevBlock]?).map CBlockIndex.nHeight =
      some 0 := by decide +kernel
  rw [hprev] at hheight
  rw [Option.some.inj hheight]
  decide

theorem blockIndex_reload_small :
    ∃ (loaded : BlockMap) (setBlockIndexValid : List uint256),
      LoadBlockIndexDB readingCrypto (2 ^ 256) id (writtenIndex smallIndex.toList.reverse) =
        some (loaded, setBlockIndexValid) ∧
      (∀ hash : uint256, loaded[hash]? = smallIndex[hash]?) ∧
      0x80000001 ∈ setBlockIndexValid := by
  obtain ⟨loaded, setBlockIndexValid, hload, hsame, -, hvalid⟩ :=
    blockIndex_reload readingCrypto (2 ^ 256) id built_smallIndex
      (List.reverse_perm smallIndex.toList)
  refine ⟨loaded, setBlockIndexValid, hload, hsame, (hvalid _).mpr ?_⟩
  have hentry : (smallIndex[0x80000001]?).map CBlockIndex.nStatus =
      some (BLOCK_VALID_TRANSACTIONS ||| BLOCK_HAVE_DATA) := by decide +kernel
  obtain ⟨pindex, hpindex, hstatus⟩ := Option.map_eq_some_iff.mp hentry
  refine ⟨pindex, hpindex, ?_⟩
  rw [hstatus]
  decide

end Ziftrcoin.Spec.IndexStore
