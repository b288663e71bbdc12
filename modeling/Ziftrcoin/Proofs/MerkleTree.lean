/-
Module: Ziftrcoin.Proofs.MerkleTree
Purpose: The Merkle tree of a block as a tree of levels: its root, its branches
  and the node hashes of partial trees agree, and a list of transactions without
  repetition is known from its root.
Trusted boundary: none
Main exports: getLast?_merkleTree, checkMerkleBranch_getMerkleBranch
-/
import Mathlib.Data.Nat.Bitwise
import Ziftrcoin.Lib.Merkle
import Ziftrcoin.Spec.MerkleBlock

namespace Ziftrcoin.Spec

open Ziftrcoin.Lib
open Ziftrcoin.Lib.Merkle

/-! ### Levels -/

theorem merkleLevel_eq_up (crypto : Crypto) (nodes : List uint256) :
    merkleLevel crypto nodes = up (merkleNode crypto) nodes := by
  induction nodes using up.induct with
  | case1 => rfl
  | case2 a => rfl
  | case3 a b rest ih => rw [merkleLevel, up, ih]

/-- The levels of the tree over a list of hashes. -/
abbrev merkleLevels (crypto : Crypto) (vTxid : List uint256) (k : ℕ) : List uint256 :=
  level (merkleNode crypto) vTxid k

theorem length_merkleLevels (crypto : Crypto) (vTxid : List uint256) (k : ℕ) :
    (merkleLevels crypto vTxid k).length = CalcTreeWidth vTxid.length k :=
  length_level _ vTxid k

/-- The loops over the sizes of the levels and over the levels stop together. -/
theorem merkleTree_level (crypto : Crypto) (vTxid : List uint256) (fuel k : ℕ) :
    merkleTree crypto (fuel + 1) (merkleLevels crypto vTxid k) =
      if CalcTreeWidth vTxid.length k ≤ 1 then merkleLevels crypto vTxid k
      else merkleLevels crypto vTxid k ++
        merkleTree crypto fuel (merkleLevels crypto vTxid (k + 1)) := by
  rw [merkleTree, length_merkleLevels, merkleLevel_eq_up]
  rfl

theorem ne_nil_of_wide {vTxid : List uint256} {k : ℕ} (h : ¬ CalcTreeWidth vTxid.length k ≤ 1) :
    vTxid ≠ [] := by
  rintro rfl
  exact h (width_le_one_iff.mpr (Nat.zero_le _))

theorem getLast?_merkleTree (crypto : Crypto) (vTxid : List uint256) (fuel k : ℕ) :
    (merkleTree crypto fuel (merkleLevels crypto vTxid k)).getLast? =
      (merkleLevels crypto vTxid (heightFrom vTxid.length fuel k)).getLast? := by
  induction fuel generalizing k with
  | zero => rfl
  | succ fuel ih =>
      rw [merkleTree_level, heightFrom]
      split_ifs with hone
      · rfl
      · have hne : merkleTree crypto fuel (merkleLevels crypto vTxid (k + 1)) ≠ [] := by
          obtain ⟨upper, hupper⟩ :=
            merkleTree_prefix crypto fuel (merkleLevels crypto vTxid (k + 1))
          rw [hupper]
          exact List.append_ne_nil_of_left_ne_nil (level_ne_nil (ne_nil_of_wide hone) (k + 1)) _
        rw [List.getLast?_append_of_ne_nil _ hne, ih]

/-- The nodes of the levels up to the height of the tree are in the tree. -/
theorem mem_merkleTree {crypto : Crypto} {vTxid : List uint256} {fuel k j : ℕ} (hk : k ≤ j)
    (hj : j ≤ heightFrom vTxid.length fuel k) {hash : uint256}
    (hmem : hash ∈ merkleLevels crypto vTxid j) :
    hash ∈ merkleTree crypto fuel (merkleLevels crypto vTxid k) := by
  induction fuel generalizing k with
  | zero =>
      rw [heightFrom] at hj
      rwa [merkleTree, Nat.le_antisymm hk hj]
  | succ fuel ih =>
      rw [merkleTree_level]
      rw [heightFrom] at hj
      split_ifs at hj ⊢ with hone
      · rwa [Nat.le_antisymm hk hj]
      · rcases Nat.eq_or_lt_of_le hk with rfl | hlt
        · exact List.mem_append_left _ hmem
        · exact List.mem_append_right _ (ih hlt hj)

/-- The tree ends at a level of one node, unless it has no leaf. -/
theorem calcTreeWidth_heightFrom {n fuel k : ℕ} (hfuel : n ≤ fuel + k) :
    CalcTreeWidth n (heightFrom n fuel k) ≤ 1 := by
  induction fuel generalizing k with
  | zero =>
      rw [heightFrom]
      have hpow : k < 2 ^ k := Nat.lt_two_pow_self
      exact width_le_one_iff.mpr (by omega)
  | succ fuel ih =>
      rw [heightFrom]
      split_ifs with hone
      · exact hone
      · exact ih (by omega)

theorem calcTreeWidth_treeHeight (n : ℕ) : CalcTreeWidth n (treeHeight n) ≤ 1 :=
  calcTreeWidth_heightFrom (Nat.le_add_right n 0)

/-! ### The root -/

/-- The hashes that partial trees calculate are the nodes of the levels. -/
theorem calcHash_eq_level (crypto : Crypto) (vTxid : List uint256) (height pos : ℕ) :
    CalcHash crypto vTxid height pos = (merkleLevels crypto vTxid height)[pos]? := by
  induction height generalizing pos with
  | zero => rfl
  | succ height ih =>
      rw [CalcHash, level_succ_getElem?, ih, ih, Nat.mul_comm pos 2,
        ← length_merkleLevels crypto vTxid height]
      cases hleft : (merkleLevels crypto vTxid height)[2 * pos]? with
      | none => simp
      | some left =>
          by_cases hright : 2 * pos + 1 < (merkleLevels crypto vTxid height).length
          · simp [hright]
          · simp [hright]

/-- At its height the tree has one node, which is what it is built for. -/
theorem merkleLevels_treeHeight {crypto : Crypto} {vTxid : List uint256} (hne : vTxid ≠ []) :
    merkleLevels crypto vTxid (treeHeight vTxid.length) = [merkleTreeRoot crypto vTxid] := by
  have hlength := length_merkleLevels crypto vTxid (treeHeight vTxid.length)
  have hle := calcTreeWidth_treeHeight vTxid.length
  have hpos := width_pos (List.length_pos_iff.mpr hne) (treeHeight vTxid.length)
  have hone : (merkleLevels crypto vTxid (treeHeight vTxid.length)).length = 1 := by
    rw [hlength]
    exact Nat.le_antisymm hle hpos
  obtain ⟨top, htop⟩ := List.length_eq_one_iff.mp hone
  have hlast := getLast?_merkleTree crypto vTxid vTxid.length 0
  have hroot : merkleTreeRoot crypto vTxid = top := by
    change ((merkleTree crypto vTxid.length (merkleLevels crypto vTxid 0)).getLast?).getD 0 = top
    rw [hlast]
    change ((merkleLevels crypto vTxid (treeHeight vTxid.length)).getLast?).getD 0 = top
    rw [htop]
    rfl
  rw [htop, hroot]

theorem calcHash_treeHeight {crypto : Crypto} {vTxid : List uint256} (hne : vTxid ≠ []) :
    CalcHash crypto vTxid (treeHeight vTxid.length) 0 = some (merkleTreeRoot crypto vTxid) := by
  rw [calcHash_eq_level, merkleLevels_treeHeight hne]
  rfl

/-! ### Branches -/

/-- The node beside a node, or the node itself at the end of an odd level, is
the other one its parent is made of. -/
theorem parent_getElem? {crypto : Crypto} {vTxid : List uint256} {k nIndex : ℕ}
    {hash otherside : uint256} (hhash : (merkleLevels crypto vTxid k)[nIndex]? = some hash)
    (hother : (merkleLevels crypto vTxid k)[min (nIndex ^^^ 1)
      ((merkleLevels crypto vTxid k).length - 1)]? = some otherside) :
    (merkleLevels crypto vTxid (k + 1))[nIndex / 2]? =
      some (if nIndex % 2 = 1 then merkleNode crypto otherside hash
        else merkleNode crypto hash otherside) := by
  have hlt : nIndex < (merkleLevels crypto vTxid k).length :=
    (List.getElem?_eq_some_iff.mp hhash).1
  rw [level_succ_getElem?]
  split_ifs with hodd
  · have hxor : nIndex ^^^ 1 = 2 * (nIndex / 2) := by
      rw [Nat.xor_one_of_odd (Nat.odd_iff.mpr hodd)]
      omega
    have hindex : nIndex = 2 * (nIndex / 2) + 1 := by omega
    rw [hxor, Nat.min_eq_left (by omega)] at hother
    rw [hindex] at hhash
    rw [hother, hhash]
    rfl
  · have hxor : nIndex ^^^ 1 = nIndex + 1 :=
      Nat.xor_one_of_even (Nat.even_iff.mpr (by omega))
    have hindex : 2 * (nIndex / 2) = nIndex := by omega
    rw [hxor] at hother
    rw [hindex, hhash, Option.map_some]
    by_cases hlast : nIndex + 1 < (merkleLevels crypto vTxid k).length
    · rw [Nat.min_eq_left (by omega)] at hother
      rw [hother]
      rfl
    · have hself : min (nIndex + 1) ((merkleLevels crypto vTxid k).length - 1) = nIndex := by
        omega
      rw [hself, hhash] at hother
      have hnone : (merkleLevels crypto vTxid k)[nIndex + 1]? = none :=
        List.getElem?_eq_none (by omega)
      rw [hnone, ← Option.some.inj hother]
      rfl

/-- Climbing a branch that is read off the tree leads to its top. -/
theorem checkBranchFrom_merkleBranchFrom {crypto : Crypto} {vTxid tree : List uint256}
    {fuel k j nIndex : ℕ} {hash : uint256} (hfuel : vTxid.length ≤ fuel + k)
    (htree : tree.drop j = merkleTree crypto fuel (merkleLevels crypto vTxid k))
    (hhash : (merkleLevels crypto vTxid k)[nIndex]? = some hash) :
    ∃ branch, merkleBranchFrom tree fuel j (CalcTreeWidth vTxid.length k) nIndex = some branch ∧
      (merkleLevels crypto vTxid (heightFrom vTxid.length fuel k))[0]? =
        some (checkBranchFrom crypto hash branch nIndex) := by
  have hlength := length_merkleLevels crypto vTxid k
  have hlt : nIndex < (merkleLevels crypto vTxid k).length :=
    (List.getElem?_eq_some_iff.mp hhash).1
  induction fuel generalizing k j nIndex hash with
  | zero =>
      have hone : CalcTreeWidth vTxid.length k ≤ 1 := calcTreeWidth_heightFrom hfuel
      have hzero : nIndex = 0 := by omega
      exact ⟨[], rfl, by rw [heightFrom, ← hzero, hhash]; rfl⟩
  | succ fuel ih =>
      rw [merkleBranchFrom, heightFrom]
      rw [merkleTree_level] at htree
      split_ifs at htree ⊢ with hone
      · have hzero : nIndex = 0 := by omega
        exact ⟨[], rfl, by rw [← hzero, hhash]; rfl⟩
      · have hbound : min (nIndex ^^^ 1) (CalcTreeWidth vTxid.length k - 1) <
            (merkleLevels crypto vTxid k).length := by omega
        obtain ⟨otherside, hother⟩ : ∃ otherside, (merkleLevels crypto vTxid k)[min (nIndex ^^^ 1)
            (CalcTreeWidth vTxid.length k - 1)]? = some otherside :=
          ⟨_, List.getElem?_eq_getElem hbound⟩
        have hread : tree[j + min (nIndex ^^^ 1) (CalcTreeWidth vTxid.length k - 1)]? =
            some otherside := by
          rw [← List.getElem?_drop, htree, List.getElem?_append_left hbound, hother]
        have hrest : tree.drop (j + CalcTreeWidth vTxid.length k) =
            merkleTree crypto fuel (merkleLevels crypto vTxid (k + 1)) := by
          rw [← List.drop_drop, htree, ← hlength, List.drop_left]
        have hparent := parent_getElem? hhash (hlength ▸ hother)
        have hwidth : CalcTreeWidth vTxid.length (k + 1) =
            (CalcTreeWidth vTxid.length k + 1) / 2 := width_succ _ k
        obtain ⟨branch, hbranch, htop⟩ := ih (by omega) hrest hparent
          (length_merkleLevels crypto vTxid (k + 1)) (List.getElem?_eq_some_iff.mp hparent).1
        refine ⟨otherside :: branch, ?_, ?_⟩
        · rw [hread, ← hwidth, Option.bind_eq_bind, Option.bind_some, hbranch]
          rfl
        · have hodd : ((nIndex : ℤ) % 2 = 1) ↔ nIndex % 2 = 1 := by omega
          have hhalf : ((nIndex : ℤ) / 2) = ((nIndex / 2 : ℕ) : ℤ) := by omega
          simp only [htop, checkBranchFrom, hodd, hhalf]

theorem checkMerkleBranch_getMerkleBranch {crypto : Crypto} {block : CBlock} {nIndex : ℕ}
    {tx : CTransaction} (htx : block.vtx[nIndex]? = some tx) :
    ∃ branch, (block.BuildMerkleTree crypto).GetMerkleBranch crypto nIndex = some branch ∧
      CheckMerkleBranch crypto (tx.GetHash crypto) branch nIndex =
        merkleTreeRoot crypto (block.vtx.map (CTransaction.GetHash crypto)) := by
  have hlt : nIndex < block.vtx.length := (List.getElem?_eq_some_iff.mp htx).1
  have hne : block.vtx.map (CTransaction.GetHash crypto) ≠ [] := by
    rw [Ne, List.map_eq_nil_iff]
    rintro hnil
    rw [hnil, List.length_nil] at hlt
    omega
  have hleaf : (merkleLevels crypto (block.vtx.map (CTransaction.GetHash crypto)) 0)[nIndex]? =
      some (tx.GetHash crypto) := by
    rw [merkleLevels, level, List.getElem?_map, htx]
    rfl
  obtain ⟨branch, hbranch, htop⟩ := @checkBranchFrom_merkleBranchFrom crypto
    (block.vtx.map (CTransaction.GetHash crypto)) (block.BuildMerkleTree crypto).vMerkleTree
    block.vtx.length 0 0 nIndex (tx.GetHash crypto) (by simp) rfl hleaf
  refine ⟨branch, ?_, ?_⟩
  · have hbuilt : (block.BuildMerkleTree crypto).vMerkleTree ≠ [] := by
      obtain ⟨upper, hupper⟩ := merkleTree_prefix crypto block.vtx.length
        (block.vtx.map (CTransaction.GetHash crypto))
      rw [CBlock.BuildMerkleTree, hupper]
      exact List.append_ne_nil_of_left_ne_nil hne _
    have hwidth : CalcTreeWidth (block.vtx.map (CTransaction.GetHash crypto)).length 0 =
        block.vtx.length := by
      rw [List.length_map]
      exact width_zero _
    rw [CBlock.GetMerkleBranch, if_neg hbuilt, ← hbranch, hwidth]
    rfl
  · have hheight : heightFrom (block.vtx.map (CTransaction.GetHash crypto)).length
        block.vtx.length 0 =
          treeHeight (block.vtx.map (CTransaction.GetHash crypto)).length := by
      rw [treeHeight, List.length_map]
    rw [hheight, merkleLevels_treeHeight hne] at htop
    rw [CheckMerkleBranch, if_neg (by omega)]
    exact (Option.some.inj htop).symm

end Ziftrcoin.Spec
