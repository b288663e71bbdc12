/-
Module: Ziftrcoin.Lib.Regions
Purpose: Half-open regions of storage media, and high-water marks above all the
  regions that were handed out so far.
Trusted boundary: none
Main exports: Region, Region.Apart, BelowMark
-/
import Mathlib.Order.Interval.Set.Defs
import Mathlib.Algebra.Order.Group.Nat
import Mathlib.Logic.Function.Basic
import Mathlib.Order.Lattice.Nat

namespace Ziftrcoin.Lib

/-- `size` places of a medium, from `start` on. -/
structure Region (κ : Type) where
  medium : κ
  start : ℕ
  size : ℕ
deriving Repr, DecidableEq

namespace Region

variable {κ : Type}

def stop (r : Region κ) : ℕ := r.start + r.size

def places (r : Region κ) : Set ℕ := Set.Ico r.start r.stop

/-- Two regions of one medium share no place. -/
def Apart (r r' : Region κ) : Prop :=
  r.medium = r'.medium → ∀ place ∈ r.places, place ∉ r'.places

theorem apart_of_le {r r' : Region κ}
    (h : r.medium = r'.medium → r'.stop ≤ r.start) : r.Apart r' := by
  intro hmedium place hr hr'
  exact absurd (hr'.2.trans_le (h hmedium)) (not_lt.mpr hr.1)

end Region

/-! ### High-water marks -/

/-- Every region ends at or below the mark of its medium. -/
def BelowMark {κ : Type} (mark : κ → ℕ) (regions : List (Region κ)) : Prop :=
  ∀ r ∈ regions, r.stop ≤ mark r.medium

namespace BelowMark

variable {κ : Type} {mark mark' : κ → ℕ} {regions : List (Region κ)} {r : Region κ}

theorem nil : BelowMark mark [] := by
  intro r hr
  cases hr

/-- What begins at the mark touches nothing that was handed out. -/
theorem apart (h : BelowMark mark regions) (hr : mark r.medium ≤ r.start) :
    ∀ r' ∈ regions, r.Apart r' := by
  intro r' hmem
  apply Region.apart_of_le
  intro hmedium
  have hstop := h r' hmem
  rw [← hmedium] at hstop
  exact hstop.trans hr

/-- One medium gets a new mark. -/
theorem update [DecidableEq κ] {k : κ} {m : ℕ} (h : BelowMark mark regions)
    (hk : ∀ r ∈ regions, r.medium = k → r.stop ≤ m) :
    BelowMark (Function.update mark k m) regions := by
  intro r hr
  by_cases hmedium : r.medium = k
  · rw [hmedium, Function.update_self]
    exact hk r hr hmedium
  · rw [Function.update_of_ne hmedium]
    exact h r hr

theorem cons (h : BelowMark mark regions) (hr : r.stop ≤ mark r.medium) :
    BelowMark mark (r :: regions) := by
  intro r' hmem
  rcases List.mem_cons.mp hmem with rfl | hmem
  · exact hr
  · exact h r' hmem

end BelowMark

end Ziftrcoin.Lib
