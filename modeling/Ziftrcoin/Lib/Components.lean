/-
Module: Ziftrcoin.Lib.Components
Purpose: The connected components of overlapping groups: which blocks they are, and how
  they change when one more group comes in and merges all the blocks that it meets.
Trusted boundary: none
Main exports: Joined, Components, Components.mem_iff
-/
import Mathlib.Data.Finset.Disjoint
import Mathlib.Data.Set.Pairwise.Basic
import Mathlib.Logic.Relation

namespace Ziftrcoin.Lib

variable {α : Type} {gs gs' : Set (Finset α)} {P : Set (Finset α)} {a b c : α}

/-- A chain of groups, each of which meets the next one, leads from `a` to `b`. -/
def Joined (gs : Set (Finset α)) : α → α → Prop :=
  Relation.ReflTransGen fun a b => ∃ g ∈ gs, a ∈ g ∧ b ∈ g

namespace Joined

theorem of_mem {g : Finset α} (hg : g ∈ gs) (ha : a ∈ g) (hb : b ∈ g) : Joined gs a b :=
  .single ⟨g, hg, ha, hb⟩

theorem symm (h : Joined gs a b) : Joined gs b a := by
  induction h with
  | refl => exact .refl
  | tail _ hstep ih =>
      obtain ⟨g, hg, hb, hc⟩ := hstep
      exact .head ⟨g, hg, hc, hb⟩ ih

theorem trans (h : Joined gs a b) (h' : Joined gs b c) : Joined gs a c :=
  Relation.ReflTransGen.trans h h'

theorem mono (hsub : gs ⊆ gs') (h : Joined gs a b) : Joined gs' a b :=
  Relation.ReflTransGen.mono (fun _ _ ⟨g, hg, hab⟩ => ⟨g, hsub hg, hab⟩) a b h

end Joined

/-- The blocks are the connected components of the groups. -/
structure Components (gs P : Set (Finset α)) : Prop where
  nonempty : ∀ C ∈ P, C.Nonempty
  disjoint : P.Pairwise Disjoint
  covers : ∀ g ∈ gs, ∀ a ∈ g, ∃ C ∈ P, a ∈ C
  covered : ∀ C ∈ P, ∀ a ∈ C, ∃ g ∈ gs, a ∈ g
  closed : ∀ g ∈ gs, ∀ C ∈ P, ∀ a ∈ g, a ∈ C → g ⊆ C
  joined : ∀ C ∈ P, ∀ a ∈ C, ∀ b ∈ C, Joined gs a b

namespace Components

theorem empty : Components (∅ : Set (Finset α)) ∅ where
  nonempty := by simp
  disjoint := Set.pairwise_empty _
  covers := by simp
  covered := by simp
  closed := by simp
  joined := by simp

/-- A chain of groups does not leave a block. -/
theorem mem_of_joined (h : Components gs P) {C : Finset α} (hC : C ∈ P) (ha : a ∈ C)
    (hab : Joined gs a b) : b ∈ C := by
  induction hab with
  | refl => exact ha
  | tail _ hstep ih =>
      obtain ⟨g, hg, hb, hc⟩ := hstep
      exact h.closed g hg C hC _ hb ih hc

/-- A block is what one can reach from an element of a group. -/
theorem mem_iff (h : Components gs P) {C : Finset α} :
    C ∈ P ↔ ∃ a, (∃ g ∈ gs, a ∈ g) ∧ ∀ b, b ∈ C ↔ Joined gs a b := by
  constructor
  · intro hC
    obtain ⟨a, ha⟩ := h.nonempty C hC
    exact ⟨a, h.covered C hC a ha, fun b =>
      ⟨h.joined C hC a ha b, h.mem_of_joined hC ha⟩⟩
  · rintro ⟨a, ⟨g, hg, hag⟩, hmem⟩
    obtain ⟨D, hD, haD⟩ := h.covers g hg a hag
    obtain rfl : C = D := by
      ext b
      rw [hmem]
      exact ⟨h.mem_of_joined hD haD, h.joined D hD a haD b⟩
    exact hD

/-- The blocks are determined by the groups. -/
theorem unique {Q : Set (Finset α)} (h : Components gs P) (h' : Components gs Q) : P = Q := by
  ext C
  rw [h.mem_iff, h'.mem_iff]

/-- A new group and all the blocks that it meets become one block. -/
theorem add (h : Components gs P) {g M : Finset α} (hg : g.Nonempty)
    (hM : ∀ a, a ∈ M ↔ a ∈ g ∨ ∃ C ∈ P, ¬ Disjoint C g ∧ a ∈ C) :
    Components (insert g gs) (insert M {C ∈ P | Disjoint C g}) := by
  have hgM : g ⊆ M := fun a ha => (hM a).mpr (.inl ha)
  have hsub : gs ⊆ insert g gs := Set.subset_insert g gs
  have hunmet : ∀ C ∈ P, Disjoint C g → Disjoint C M := by
    intro C hC hdisj
    rw [Finset.disjoint_left]
    intro a ha haM
    rcases (hM a).mp haM with hag | ⟨D, hD, hmeets, haD⟩
    · exact Finset.disjoint_left.mp hdisj ha hag
    · by_cases heq : C = D
      · exact hmeets (heq ▸ hdisj)
      · exact Finset.disjoint_left.mp (h.disjoint hC hD heq) ha haD
  -- whatever the new block holds is joined with the elements of the group
  have hreach : ∀ a ∈ M, ∃ b ∈ g, Joined (insert g gs) a b := by
    intro a ha
    rcases (hM a).mp ha with hag | ⟨D, hD, hmeets, haD⟩
    · exact ⟨a, hag, .refl⟩
    · obtain ⟨b, hbD, hbg⟩ := Finset.not_disjoint_iff.mp hmeets
      exact ⟨b, hbg, (h.joined D hD a haD b hbD).mono hsub⟩
  refine ⟨?_, ?_, ?_, ?_, ?_, ?_⟩
  · rintro C (rfl | ⟨hC, -⟩)
    · exact hg.mono hgM
    · exact h.nonempty C hC
  · rintro C (rfl | ⟨hC, hdisj⟩) D (rfl | ⟨hD, hdisj'⟩) hne
    · exact absurd rfl hne
    · exact (hunmet D hD hdisj').symm
    · exact hunmet C hC hdisj
    · exact h.disjoint hC hD hne
  · rintro g' (rfl | hg') a ha
    · exact ⟨M, .inl rfl, hgM ha⟩
    · obtain ⟨C, hC, haC⟩ := h.covers g' hg' a ha
      by_cases hdisj : Disjoint C g
      · exact ⟨C, .inr ⟨hC, hdisj⟩, haC⟩
      · exact ⟨M, .inl rfl, (hM a).mpr (.inr ⟨C, hC, hdisj, haC⟩)⟩
  · rintro C (rfl | ⟨hC, -⟩) a ha
    · rcases (hM a).mp ha with hag | ⟨D, hD, -, haD⟩
      · exact ⟨g, .inl rfl, hag⟩
      · obtain ⟨g', hg', hag'⟩ := h.covered D hD a haD
        exact ⟨g', .inr hg', hag'⟩
    · obtain ⟨g', hg', hag'⟩ := h.covered C hC a ha
      exact ⟨g', .inr hg', hag'⟩
  · rintro g' (rfl | hg') C (rfl | ⟨hC, hdisj⟩) a hag haC
    · exact hgM
    · exact absurd hag (Finset.disjoint_left.mp hdisj haC)
    · obtain ⟨D, hD, haD⟩ := h.covers g' hg' a hag
      have hsubD := h.closed g' hg' D hD a hag haD
      have hmeets : ¬ Disjoint D g := by
        intro hdisj
        exact Finset.disjoint_left.mp (hunmet D hD hdisj) haD haC
      exact fun b hb => (hM b).mpr (.inr ⟨D, hD, hmeets, hsubD hb⟩)
    · exact h.closed g' hg' C hC a hag haC
  · rintro C (rfl | ⟨hC, -⟩) a ha b hb
    · obtain ⟨x, hx, hax⟩ := hreach a ha
      obtain ⟨y, hy, hby⟩ := hreach b hb
      exact (hax.trans (.of_mem (.inl rfl) hx hy)).trans hby.symm
    · exact (h.joined C hC a ha b hb).mono hsub

end Components

end Ziftrcoin.Lib
