/-
Module: Ziftrcoin.Lib.Median
Purpose: The upper median of a list, and what becomes of it when the list slides
  or grows; the median that takes the mean of two middle entries.
Trusted boundary: none
Main exports: upperMedian, upperMedian_lt_iff, upperMedian_grows
-/
import Mathlib.Data.List.GetD
import Mathlib.Data.List.Sort

namespace Ziftrcoin.Lib

variable {α : Type} [LinearOrder α] {xs : List α} {v x y d : α}

/-- The middle of the sorted list, the upper one of two. -/
def upperMedian (xs : List α) (d : α) : α :=
  let sorted := xs.insertionSort (· ≤ ·)
  sorted.getD (sorted.length / 2) d

/-- The entry at a place of a sorted list is smaller than `v` if the place is among those of
the entries that are. -/
theorem getElem_lt_iff {k : ℕ} (hsorted : xs.Pairwise (· ≤ ·)) (hk : k < xs.length) :
    xs[k] < v ↔ k < xs.countP (· < v) := by
  induction xs generalizing k with
  | nil => exact absurd hk (Nat.not_lt_zero k)
  | cons a xs ih =>
      obtain ⟨hle, hsorted⟩ := List.pairwise_cons.mp hsorted
      by_cases ha : a < v
      · rw [List.countP_cons_of_pos (by simpa using ha)]
        cases k with
        | zero => exact iff_of_true ha (Nat.succ_pos _)
        | succ k =>
            rw [List.getElem_cons_succ, Nat.succ_lt_succ_iff]
            exact ih hsorted (Nat.lt_of_succ_lt_succ hk)
      · have hnone : (a :: xs).countP (· < v) = 0 := by
          rw [List.countP_eq_zero]
          intro b hb
          rcases List.mem_cons.mp hb with rfl | hb
          · simpa using ha
          · simpa using (not_lt.mp ha).trans (hle b hb)
        rw [hnone]
        refine iff_of_false (fun hlt => ?_) (Nat.not_lt_zero k)
        have hmem : (a :: xs)[k] ∈ a :: xs := List.getElem_mem hk
        exact List.countP_eq_zero.mp hnone _ hmem (by simpa using hlt)

/-- The median is smaller than `v` if more than half of the entries are. -/
theorem upperMedian_lt_iff (hne : xs ≠ []) :
    upperMedian xs d < v ↔ xs.length / 2 < xs.countP (· < v) := by
  have hperm := List.perm_insertionSort (· ≤ ·) xs
  have hpos : 0 < xs.length := List.length_pos_of_ne_nil hne
  have hk : (xs.insertionSort (· ≤ ·)).length / 2 < (xs.insertionSort (· ≤ ·)).length := by
    rw [hperm.length_eq]
    omega
  unfold upperMedian
  dsimp only
  rw [List.getD_eq_getElem _ _ hk,
    getElem_lt_iff (List.pairwise_insertionSort (· ≤ ·) xs) hk, hperm.countP_eq,
    hperm.length_eq]

theorem upperMedian_mem (xs : List α) (d : α) :
    upperMedian xs d = d ∨ upperMedian xs d ∈ xs := by
  unfold upperMedian
  dsimp only
  rcases Nat.lt_or_ge ((xs.insertionSort (· ≤ ·)).length / 2)
    (xs.insertionSort (· ≤ ·)).length with hlt | hge
  · rw [List.getD_eq_getElem _ _ hlt]
    exact .inr ((List.mem_insertionSort _).mp (List.getElem_mem hlt))
  · exact .inl (List.getD_eq_default _ _ hge)

theorem le_upperMedian_iff (hne : xs ≠ []) :
    v ≤ upperMedian xs d ↔ xs.countP (· < v) ≤ xs.length / 2 := by
  rw [← not_lt, upperMedian_lt_iff hne, not_lt]

/-- An entry that is no smaller than the median does not lower it. -/
theorem upperMedian_grows (hne : xs ≠ []) (hx : upperMedian xs d ≤ x) :
    upperMedian xs d ≤ upperMedian (x :: xs) d := by
  have hcount := (le_upperMedian_iff (d := d) hne).mp le_rfl
  rw [le_upperMedian_iff (List.cons_ne_nil x xs),
    List.countP_cons_of_neg (by simpa using hx), List.length_cons]
  omega

/-- Nor does it if the list loses an entry in exchange. -/
theorem upperMedian_slides (hx : upperMedian (xs ++ [y]) d ≤ x) :
    upperMedian (xs ++ [y]) d ≤ upperMedian (x :: xs) d := by
  have hcount := (le_upperMedian_iff (d := d) (List.concat_ne_nil y xs)).mp le_rfl
  rw [List.countP_append, List.length_append, List.length_singleton] at hcount
  rw [le_upperMedian_iff (List.cons_ne_nil x xs),
    List.countP_cons_of_neg (by simpa using hx), List.length_cons]
  omega

/-! ### The mean of the two middle entries -/

/-- The middle of the sorted list, the lower one of two. -/
def lowerMedian (xs : List α) (d : α) : α :=
  let sorted := xs.insertionSort (· ≤ ·)
  sorted.getD (sorted.length / 2 - 1) d

/-- The median, for a way to take the mean of two entries. -/
def medianBy (mean : α → α → α) (xs : List α) (d : α) : α :=
  if xs.length % 2 = 1 then upperMedian xs d else mean (lowerMedian xs d) (upperMedian xs d)

theorem medianBy_of_odd (mean : α → α → α) (hodd : xs.length % 2 = 1) :
    medianBy mean xs d = upperMedian xs d := if_pos hodd

/-- The middle entry is an entry. -/
theorem upperMedian_mem_of_ne (hne : xs ≠ []) (d : α) : upperMedian xs d ∈ xs := by
  have hpos := List.length_pos_of_ne_nil hne
  have hlt : (xs.insertionSort (· ≤ ·)).length / 2 < (xs.insertionSort (· ≤ ·)).length := by
    rw [List.length_insertionSort]
    omega
  unfold upperMedian
  dsimp only
  rw [List.getD_eq_getElem _ _ hlt]
  exact (List.mem_insertionSort _).mp (List.getElem_mem hlt)

end Ziftrcoin.Lib
