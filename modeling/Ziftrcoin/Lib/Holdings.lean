/-
Module: Ziftrcoin.Lib.Holdings
Purpose: How much a collection of valued things is worth at most, when things
  are taken out of it and put into it.  The collection is given by the value
  of each thing, zero where it is not there, and need not be finite.
Trusted boundary: none
Main exports: TotalAtMost, TotalAtMost.remove, TotalAtMost.replace
-/
import Mathlib.Algebra.BigOperators.Fin
import Mathlib.Algebra.Order.BigOperators.Group.Finset
import Mathlib.Algebra.Order.Ring.Int
import Mathlib.Tactic.Linarith

namespace Ziftrcoin.Lib

variable {ι : Type} {value value' : ι → ℤ} {bound bound' : ℤ}

/-- However one picks finitely many things, they are worth at most `bound`
together. -/
def TotalAtMost (value : ι → ℤ) (bound : ℤ) : Prop :=
  ∀ S : Finset ι, ∑ o ∈ S, value o ≤ bound

namespace TotalAtMost

/-- The things one does not pick are worth nothing. -/
theorem nonneg (h : TotalAtMost value bound) : 0 ≤ bound := by
  simpa using h ∅

theorem mono (h : TotalAtMost value bound) (hle : bound ≤ bound') :
    TotalAtMost value bound' :=
  fun S => (h S).trans hle

/-- Taking some things out lowers the bound by their value. -/
theorem remove [DecidableEq ι] (h : TotalAtMost value bound) (I : Finset ι)
    (hvalue : ∀ o, value' o = if o ∈ I then 0 else value o) :
    TotalAtMost value' (bound - ∑ o ∈ I, value o) := by
  intro S
  have hkept : ∑ o ∈ S, value' o = ∑ o ∈ S \ I, value o := by
    rw [← Finset.sum_filter_add_sum_filter_not S (· ∈ I) value']
    have hgone : ∑ o ∈ S.filter (· ∈ I), value' o = 0 := by
      apply Finset.sum_eq_zero
      intro o ho
      rw [hvalue, if_pos (Finset.mem_filter.mp ho).2]
    rw [hgone, zero_add, Finset.filter_notMem_eq_sdiff]
    apply Finset.sum_congr rfl
    intro o ho
    rw [hvalue, if_neg (Finset.mem_sdiff.mp ho).2]
  have hboth : ∑ o ∈ S \ I, value o + ∑ o ∈ I, value o =
      ∑ o ∈ (S \ I) ∪ I, value o :=
    (Finset.sum_union Finset.sdiff_disjoint).symm
  have hbound := h ((S \ I) ∪ I)
  linarith

/-- Replacing some things by others raises the bound by what the others are
worth. -/
theorem replace {P : ι → Prop} [DecidablePred P] (h : TotalAtMost value bound)
    (hnew : TotalAtMost (fun o => if P o then value' o else 0) bound')
    (hold : ∀ o, ¬ P o → value' o = value o) :
    TotalAtMost value' (bound + bound') := by
  intro S
  have hfresh : ∑ o ∈ S.filter P, value' o =
      ∑ o ∈ S.filter P, if P o then value' o else 0 := by
    apply Finset.sum_congr rfl
    intro o ho
    rw [if_pos (Finset.mem_filter.mp ho).2]
  have hkept : ∑ o ∈ S.filter (¬ P ·), value' o =
      ∑ o ∈ S.filter (¬ P ·), value o := by
    apply Finset.sum_congr rfl
    intro o ho
    exact hold o (Finset.mem_filter.mp ho).2
  have hsplit := Finset.sum_filter_add_sum_filter_not S P value'
  have hone := hnew (S.filter P)
  have htwo := h (S.filter (¬ P ·))
  linarith

/-- Things that have a name each, no two the same one, are worth at most what
the names are. -/
theorem comap {κ : Type} [DecidableEq κ] {f : κ → ℤ} (h : TotalAtMost f bound)
    {P : ι → Prop} [DecidablePred P] {name : ι → κ}
    (hname : ∀ a b, P a → P b → name a = name b → a = b) :
    TotalAtMost (fun o => if P o then f (name o) else 0) bound := by
  intro S
  have himage : ∑ k ∈ (S.filter P).image name, f k =
      ∑ o ∈ S.filter P, f (name o) := by
    apply Finset.sum_image
    intro a ha b hb
    exact hname a b (Finset.mem_filter.mp ha).2 (Finset.mem_filter.mp hb).2
  rw [← Finset.sum_filter, ← himage]
  exact h _

end TotalAtMost

/-- The entries of a list of amounts, named by their positions. -/
theorem totalAtMost_list {xs : List ℤ} (h : ∀ x ∈ xs, 0 ≤ x) :
    TotalAtMost (fun n => xs.getD n 0) xs.sum := by
  have hnonneg : ∀ n, 0 ≤ xs.getD n 0 := by
    intro n
    rw [List.getD_eq_getElem?_getD]
    cases hn : xs[n]? with
    | none => rfl
    | some x => exact h x (List.mem_of_getElem? hn)
  have hall : ∑ n ∈ Finset.range xs.length, xs.getD n 0 = xs.sum := by
    rw [Finset.sum_range, ← Fin.sum_univ_getElem xs]
    apply Finset.sum_congr rfl
    intro n _
    simp
  intro S
  have hbeyond : ∑ n ∈ S \ Finset.range xs.length, xs.getD n 0 = 0 := by
    apply Finset.sum_eq_zero
    intro n hn
    have hge : xs.length ≤ n := by simpa using (Finset.mem_sdiff.mp hn).2
    simp [List.getD_eq_getElem?_getD, List.getElem?_eq_none hge]
  have hsplit := Finset.sum_inter_add_sum_sdiff S (Finset.range xs.length)
    fun n => xs.getD n 0
  have hsub : ∑ n ∈ S ∩ Finset.range xs.length, xs.getD n 0 ≤
      ∑ n ∈ Finset.range xs.length, xs.getD n 0 :=
    Finset.sum_le_sum_of_subset_of_nonneg Finset.inter_subset_right
      fun n _ _ => hnonneg n
  linarith

end Ziftrcoin.Lib
