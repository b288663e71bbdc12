/-
Module: Ziftrcoin.Proofs.Malleability
Purpose: A block is known from its header: no other list of transactions with
  the same Merkle root passes the checks.
Trusted boundary: none
Main exports: HashesApart, merkle_malleability_excluded
-/
import Ziftrcoin.Proofs.Connecting
import Ziftrcoin.Proofs.MerkleTree
import Ziftrcoin.Proofs.NetworkFormat

namespace Ziftrcoin.Spec

open Ziftrcoin.Lib
open Ziftrcoin.Lib.Outcome
open Ziftrcoin.Lib.Merkle

/-! ### Hashes that tell their arguments apart -/

def txids (crypto : Crypto) (vtx : List CTransaction) : List uint256 :=
  vtx.map (CTransaction.GetHash crypto)

/-- All nodes of the Merkle trees of two lists of transactions. -/
def treeNodes (crypto : Crypto) (vtx vtx' : List CTransaction) : List uint256 :=
  merkleTree crypto vtx.length (txids crypto vtx) ++
    merkleTree crypto vtx'.length (txids crypto vtx')

/-- What is asked of the hash function, for two lists of transactions: it tells
their transactions apart, it tells the pairs of nodes of their trees apart, and
no transaction has the hash of a pair. -/
structure HashesApart (crypto : Crypto) (vtx vtx' : List CTransaction) : Prop where
  txs : ∀ tx ∈ vtx ++ vtx', ∀ tx' ∈ vtx ++ vtx', tx.GetHash crypto = tx'.GetHash crypto →
    tx = tx'
  pairs : ∀ a ∈ treeNodes crypto vtx vtx', ∀ b ∈ treeNodes crypto vtx vtx',
    ∀ c ∈ treeNodes crypto vtx vtx', ∀ d ∈ treeNodes crypto vtx vtx',
    merkleNode crypto a b = merkleNode crypto c d → a = c ∧ b = d
  leaves : ∀ tx ∈ vtx ++ vtx', ∀ a ∈ treeNodes crypto vtx vtx',
    ∀ b ∈ treeNodes crypto vtx vtx', tx.GetHash crypto ≠ merkleNode crypto a b

theorem mem_treeNodes_left {crypto : Crypto} {vtx vtx' : List CTransaction} {k : ℕ}
    (hk : k ≤ treeHeight (txids crypto vtx).length) {hash : uint256}
    (hmem : hash ∈ merkleLevels crypto (txids crypto vtx) k) :
    hash ∈ treeNodes crypto vtx vtx' := by
  refine List.mem_append_left _ ?_
  have hlength : (txids crypto vtx).length = vtx.length := List.length_map _
  rw [treeHeight, hlength] at hk
  exact mem_merkleTree (Nat.zero_le k) (hlength ▸ hk) hmem

theorem mem_treeNodes_comm {crypto : Crypto} {vtx vtx' : List CTransaction} {hash : uint256} :
    hash ∈ treeNodes crypto vtx vtx' ↔ hash ∈ treeNodes crypto vtx' vtx := by
  rw [treeNodes, treeNodes, List.mem_append, List.mem_append, or_comm]

/-- A function that tells the elements of two lists apart tells the lists
apart. -/
theorem map_injOn {α β : Type} {f : α → β} {xs ys : List α}
    (hf : ∀ x ∈ xs ++ ys, ∀ y ∈ xs ++ ys, f x = f y → x = y) (h : xs.map f = ys.map f) :
    xs = ys := by
  have hlength : xs.length = ys.length := by
    rw [← List.length_map f, h, List.length_map]
  refine List.ext_getElem hlength fun i hi hi' => ?_
  refine hf _ (List.mem_append_left _ (List.getElem_mem hi)) _
    (List.mem_append_right _ (List.getElem_mem hi')) ?_
  rw [← List.getElem_map f (h := by simpa using hi), ← List.getElem_map f (h := by simpa using hi')]
  simp only [h]

/-- Two lists without repeated transaction hashes that have one root are the
same. -/
theorem vtx_eq_of_merkleTreeRoot_eq {crypto : Crypto} {vtx vtx' : List CTransaction}
    (h : HashesApart crypto vtx vtx') (hne : vtx ≠ []) (hne' : vtx' ≠ [])
    (hnodup : (txids crypto vtx).Nodup) (hnodup' : (txids crypto vtx').Nodup)
    (hroot : merkleTreeRoot crypto (txids crypto vtx) =
      merkleTreeRoot crypto (txids crypto vtx')) : vtx = vtx' := by
  have htxids : txids crypto vtx ≠ [] := by
    rwa [Ne, txids, List.map_eq_nil_iff]
  have htxids' : txids crypto vtx' ≠ [] := by
    rwa [Ne, txids, List.map_eq_nil_iff]
  have htop : merkleLevels crypto (txids crypto vtx) (treeHeight (txids crypto vtx).length) =
      merkleLevels crypto (txids crypto vtx') (treeHeight (txids crypto vtx').length) := by
    rw [merkleLevels_treeHeight htxids, merkleLevels_treeHeight htxids', hroot]
  refine map_injOn h.txs (eq_of_level_eq (S := {hash | hash ∈ treeNodes crypto vtx vtx'})
    h.pairs hnodup hnodup' htxids htxids' ?_ ?_ ?_ htop)
  · intro x hx a ha b hb
    simp only [← List.map_append, List.mem_map] at hx
    obtain ⟨tx, htx, rfl⟩ := hx
    exact h.leaves tx htx a ha b hb
  · exact fun i hi x hx => mem_treeNodes_left hi.le hx
  · exact fun i hi x hx => mem_treeNodes_comm.mp (mem_treeNodes_left hi.le hx)

/-! ### Checked blocks -/

/-- What `CheckBlock` finds of the transaction hashes of a block. -/
theorem merkle_of_checkBlock {cfg : Config} {nAdjustedTime : ℤ} {block block' : CBlock}
    {nMaxBlockSize : ℕ} {fCheckPOW : Bool}
    (h : CheckBlock cfg nAdjustedTime block nMaxBlockSize fCheckPOW true = .ok block') :
    block.vtx ≠ [] ∧ (txids cfg.crypto block.vtx).Nodup ∧
      block.hashMerkleRoot = merkleTreeRoot cfg.crypto (txids cfg.crypto block.vtx) := by
  unfold CheckBlock at h
  simp only [Run.DoS, Run.Invalid, guard_eq_ok, error_bind, bind_eq_ok] at h
  obtain ⟨hvtx, _, _, _, _, _, _, _, _, _, hashes, hhashes, hnodup, _, hroot, _⟩ := h
  rw [txHashes_buildMerkleTree, Except.ok.injEq] at hhashes
  refine ⟨hvtx, ?_, ?_⟩
  · rw [← hhashes] at hnodup
    exact not_not.mp hnodup
  · have hlast : (block.BuildMerkleTree cfg.crypto).vMerkleTree.getLast? =
        some block.hashMerkleRoot := by
      simpa [CBlock.BuildMerkleTree] using hroot
    have hlength : (txids cfg.crypto block.vtx).length = block.vtx.length := List.length_map _
    rw [merkleTreeRoot, hlength]
    change (block.BuildMerkleTree cfg.crypto).vMerkleTree.getLast? = _ at hlast
    rw [CBlock.BuildMerkleTree] at hlast
    rw [txids, hlast]
    rfl

theorem vtx_eq_of_checkBlock {cfg : Config} {nAdjustedTime : ℤ} {block block' checked : CBlock}
    {nMaxBlockSize : ℕ} {fCheckPOW : Bool} (h : HashesApart cfg.crypto block.vtx block'.vtx)
    (hne : block.vtx ≠ []) (hnodup : (txids cfg.crypto block.vtx).Nodup)
    (hroot : block.hashMerkleRoot = merkleTreeRoot cfg.crypto (txids cfg.crypto block.vtx))
    (hheader : block'.toCBlockHeader = block.toCBlockHeader)
    (hcheck : CheckBlock cfg nAdjustedTime block' nMaxBlockSize fCheckPOW true = .ok checked) :
    block'.vtx = block.vtx := by
  obtain ⟨hne', hnodup', hroot'⟩ := merkle_of_checkBlock hcheck
  refine (vtx_eq_of_merkleTreeRoot_eq h hne hne' hnodup hnodup' ?_).symm
  rw [← hroot, ← hroot', hheader]

/-! ### The tree of a block -/

/-- A different list of transactions with the Merkle root of a block repeats a
transaction, so none with the block's header passes `CheckBlock`; and a branch
of the tree, the tree itself and the node that a partial tree calculates at its
top all give one root. -/
theorem merkle_malleability_excluded :
    (∀ (crypto : Crypto) (block : CBlock) (vtx : List CTransaction),
      HashesApart crypto block.vtx vtx → block.vtx ≠ [] → vtx ≠ [] →
      (txids crypto block.vtx).Nodup → vtx ≠ block.vtx →
      merkleTreeRoot crypto (txids crypto vtx) =
        merkleTreeRoot crypto (txids crypto block.vtx) →
      ¬ (txids crypto vtx).Nodup) ∧
    (∀ (cfg : Config) (nAdjustedTime : ℤ) (block block' checked : CBlock) (nMaxBlockSize : ℕ)
      (fCheckPOW : Bool), HashesApart cfg.crypto block.vtx block'.vtx → block.vtx ≠ [] →
      (txids cfg.crypto block.vtx).Nodup →
      block.hashMerkleRoot = merkleTreeRoot cfg.crypto (txids cfg.crypto block.vtx) →
      block'.toCBlockHeader = block.toCBlockHeader →
      CheckBlock cfg nAdjustedTime block' nMaxBlockSize fCheckPOW true = .ok checked →
      block'.vtx = block.vtx) ∧
    (∀ (crypto : Crypto) (block : CBlock) (nIndex : ℕ) (tx : CTransaction),
      block.vtx[nIndex]? = some tx →
      ∃ branch, (block.BuildMerkleTree crypto).GetMerkleBranch crypto nIndex = some branch ∧
        CheckMerkleBranch crypto (tx.GetHash crypto) branch nIndex =
          merkleTreeRoot crypto (txids crypto block.vtx)) ∧
    (∀ (crypto : Crypto) (vtx : List CTransaction), vtx ≠ [] →
      CalcHash crypto (txids crypto vtx) (treeHeight vtx.length) 0 =
        some (merkleTreeRoot crypto (txids crypto vtx))) := by
  refine ⟨?_, ?_, ?_, ?_⟩
  · intro crypto block vtx h hne hne' hnodup hdiffer hroot hnodup'
    exact hdiffer (vtx_eq_of_merkleTreeRoot_eq h hne hne' hnodup hnodup' hroot.symm).symm
  · intro cfg nAdjustedTime block block' checked nMaxBlockSize fCheckPOW h hne hnodup hroot
      hheader hcheck
    exact vtx_eq_of_checkBlock h hne hnodup hroot hheader hcheck
  · intro crypto block nIndex tx htx
    exact checkMerkleBranch_getMerkleBranch htx
  · intro crypto vtx hne
    have hlength : (txids crypto vtx).length = vtx.length := List.length_map _
    have htxids : txids crypto vtx ≠ [] := by
      rwa [Ne, txids, List.map_eq_nil_iff]
    rw [← hlength]
    exact calcHash_treeHeight htxids

/-! ### Four transactions and three -/

def plainTx (nVersion : ℤ) : CTransaction :=
  { nVersion, vin := [], vout := [], nLockTime := 0 }

/-- Hash functions of a size that can be computed with. -/
def remainderCrypto : Crypto :=
  { Hash := fun bs => (readLE bs) ^ 5 % 1000003
    HashZR5 := readLE
    Hash160 := fun bs => bs
    RIPEMD160 := fun bs => bs
    SHA1 := fun bs => bs
    SHA256 := fun bs => bs
    Verify := fun _ _ _ => true }

def threeTxBlock : CBlock :=
  { (default : CBlock) with vtx := [plainTx 1, plainTx 2, plainTx 3] }

/-- The last of an odd number of transactions is paired with itself, and may
as well be there twice. -/
theorem merkle_malleability_excluded_fourth :
    ¬ (txids remainderCrypto [plainTx 1, plainTx 2, plainTx 3, plainTx 3]).Nodup :=
  merkle_malleability_excluded.1 remainderCrypto threeTxBlock
    [plainTx 1, plainTx 2, plainTx 3, plainTx 3]
    ⟨by decide +kernel, by decide +kernel, by decide +kernel⟩ (by decide) (by decide)
    (by decide +kernel) (by decide) (by decide +kernel)

/-! ### A transaction with the hash 0 -/

/-- The byte strings numbered in order, but for one that gets the number 0. -/
def numberingCrypto (first : valtype) : Crypto :=
  { remainderCrypto with Hash := fun bs => if bs = first then 0 else readLE (bs ++ [1]) }

theorem readLE_append_one (bs : valtype) : readLE (bs ++ [1]) = readLE bs + 256 ^ bs.length := by
  have hone : readLE [1] = 1 := by decide
  rw [readLE_append, hone, Nat.mul_one]

/-- Shorter strings have smaller numbers. -/
theorem readLE_append_one_lt {bs bs' : valtype} (h : bs.length < bs'.length) :
    readLE (bs ++ [1]) < readLE (bs' ++ [1]) := by
  have hlt := readLE_lt bs
  have hpow : 256 ^ (bs.length + 1) ≤ 256 ^ bs'.length := Nat.pow_le_pow_right (by decide) h
  rw [readLE_append_one, readLE_append_one]
  rw [Nat.pow_succ] at hpow
  omega

theorem hash_numberingCrypto_injective (first : valtype) :
    Function.Injective (numberingCrypto first).Hash := by
  have hnumber : ∀ bs bs' : valtype, readLE (bs ++ [1]) = readLE (bs' ++ [1]) → bs = bs' := by
    intro bs bs' h
    have hlength : bs.length = bs'.length := by
      rcases Nat.lt_trichotomy bs.length bs'.length with hlt | heq | hlt
      · exact absurd h (readLE_append_one_lt hlt).ne
      · exact heq
      · exact absurd h (readLE_append_one_lt hlt).ne'
    rw [readLE_append_one, readLE_append_one, hlength] at h
    rw [← leBytes_readLE bs, ← leBytes_readLE bs', hlength, Nat.add_right_cancel h]
  intro bs bs' h
  change (if bs = first then 0 else readLE (bs ++ [1])) =
    (if bs' = first then 0 else readLE (bs' ++ [1])) at h
  have hpos : ∀ bs : valtype, readLE (bs ++ [1]) ≠ 0 := by
    intro bs
    rw [readLE_append_one]
    exact Nat.ne_of_gt (Nat.lt_of_lt_of_le (Nat.pow_pos (by decide)) (Nat.le_add_left _ _))
  split_ifs at h with hfirst hfirst' hfirst'
  · rw [hfirst, hfirst']
  · exact absurd h.symm (hpos bs')
  · exact absurd h (hpos bs)
  · exact hnumber bs bs' h

/-- `BuildMerkleTree` returns 0 for no transactions, and for one transaction
its hash, which may be 0. -/
theorem not_merkle_malleability_excluded :
    ¬ ∀ (crypto : Crypto) (block : CBlock) (vtx : List CTransaction),
      Function.Injective crypto.Hash → HashesApart crypto block.vtx vtx →
      (txids crypto block.vtx).Nodup → vtx ≠ block.vtx →
      merkleTreeRoot crypto (txids crypto vtx) =
        merkleTreeRoot crypto (txids crypto block.vtx) →
      ¬ (txids crypto vtx).Nodup := by
  intro h
  refine h (numberingCrypto (plainTx 1).serialize) { threeTxBlock with vtx := [plainTx 1] } []
    (hash_numberingCrypto_injective _) ⟨?_, ?_, ?_⟩ ?_ ?_ ?_ ?_
  all_goals decide +kernel

end Ziftrcoin.Spec
