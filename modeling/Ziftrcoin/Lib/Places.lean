/-
Module: Ziftrcoin.Lib.Places
Purpose: A vector whose elements know where they stand, and what swapping two
  of them, adding one and taking the last one away does to that.
Trusted boundary: none
Main exports: Placed, Placed.nodup, Placed.mem_iff
-/
import Mathlib.Data.List.Nodup
import Mathlib.Logic.Function.Basic

namespace Ziftrcoin.Lib

variable {α : Type} {xs : List α} {pos : α → Option ℕ} {a b : α} {i j : ℕ}

/-- The element at a position is the one whose position it is. -/
def Placed (xs : List α) (pos : α → Option ℕ) : Prop :=
  ∀ i a, xs[i]? = some a ↔ pos a = some i

namespace Placed

theorem nil : Placed ([] : List α) fun _ => none := by
  intro i a
  simp

theorem unique (h : Placed xs pos) (hi : xs[i]? = some a) (hj : xs[j]? = some a) : i = j := by
  have heq := ((h i a).mp hi).symm.trans ((h j a).mp hj)
  exact Option.some.inj heq

theorem nodup (h : Placed xs pos) : xs.Nodup := by
  rw [List.nodup_iff_getElem?_ne_getElem?]
  intro i j hij hj heq
  have hsome : xs[j]? = some xs[j] := List.getElem?_eq_getElem hj
  exact Nat.ne_of_lt hij (h.unique (heq.trans hsome) hsome)

theorem mem_iff (h : Placed xs pos) : a ∈ xs ↔ (pos a).isSome = true := by
  rw [List.mem_iff_getElem?, Option.isSome_iff_exists]
  exact exists_congr fun i => h i a

theorem lt_length (h : Placed xs pos) (ha : pos a = some i) : i < xs.length := by
  obtain ⟨hlt, -⟩ := List.getElem?_eq_some_iff.mp ((h i a).mpr ha)
  exact hlt

variable [DecidableEq α]

/-- An element that is new goes to the end. -/
theorem push (h : Placed xs pos) (ha : pos a = none) :
    Placed (xs ++ [a]) (Function.update pos a (some xs.length)) := by
  intro i c
  rcases Nat.lt_trichotomy i xs.length with hlt | rfl | hgt
  · rw [List.getElem?_append_left hlt, h i c]
    by_cases hc : c = a
    · subst hc
      simp [ha, Nat.ne_of_gt hlt]
    · rw [Function.update_of_ne hc]
  · rw [List.getElem?_concat_length]
    by_cases hc : c = a
    · simp [hc]
    · rw [Function.update_of_ne hc]
      constructor
      · intro heq
        exact absurd (Option.some.inj heq).symm hc
      · intro hpos
        exact absurd (h.lt_length hpos) (Nat.lt_irrefl _)
  · have hnone : (xs ++ [a])[i]? = none := by
      apply List.getElem?_eq_none
      simpa using Nat.succ_le_of_lt hgt
    rw [hnone]
    constructor
    · intro heq
      cases heq
    · intro hpos
      by_cases hc : c = a
      · subst hc
        rw [Function.update_self] at hpos
        exact absurd (Option.some.inj hpos) (Nat.ne_of_lt hgt)
      · rw [Function.update_of_ne hc] at hpos
        exact absurd (h.lt_length hpos) (Nat.not_lt.mpr (Nat.le_of_lt hgt))

/-- Two elements trade places. -/
theorem swap (h : Placed xs pos) (ha : xs[i]? = some a) (hb : xs[j]? = some b) (hij : i ≠ j) :
    Placed ((xs.set i b).set j a)
      (Function.update (Function.update pos a (some j)) b (some i)) := by
  have hab : a ≠ b := by
    rintro rfl
    exact hij (h.unique ha hb)
  have hi : i < xs.length := h.lt_length ((h i a).mp ha)
  have hj : j < xs.length := h.lt_length ((h j b).mp hb)
  intro k c
  rw [List.getElem?_set, List.getElem?_set, List.length_set]
  by_cases hcb : c = b
  · subst hcb
    rw [Function.update_self]
    by_cases hjk : j = k
    · simp [hjk, hab]
      omega
    · rw [if_neg hjk]
      by_cases hik : i = k
      · simp [hik, hik ▸ hi]
      · rw [if_neg hik]
        constructor
        · intro hk
          exact absurd (h.unique hb hk) hjk
        · intro hk
          exact absurd (Option.some.inj hk) hik
  · rw [Function.update_of_ne hcb]
    by_cases hca : c = a
    · subst hca
      rw [Function.update_self]
      by_cases hjk : j = k
      · simp [hjk, hjk ▸ hj]
      · rw [if_neg hjk]
        by_cases hik : i = k
        · simp [hik, hik ▸ hi, Ne.symm hcb, hjk]
        · rw [if_neg hik]
          constructor
          · intro hk
            exact absurd (h.unique ha hk) hik
          · intro hk
            exact absurd (Option.some.inj hk) hjk
    · rw [Function.update_of_ne hca, ← h k c]
      by_cases hjk : j = k
      · subst hjk
        rw [if_pos rfl, if_pos hj, hb]
        simp [Ne.symm hca, Ne.symm hcb]
      · rw [if_neg hjk]
        by_cases hik : i = k
        · subst hik
          rw [if_pos rfl, if_pos hi, ha]
          simp [Ne.symm hca, Ne.symm hcb]
        · rw [if_neg hik]

/-- The last element goes. -/
theorem pop (h : Placed xs pos) (ha : xs[xs.length - 1]? = some a) :
    Placed xs.dropLast (Function.update pos a none) := by
  have hlast : xs.length - 1 < xs.length := h.lt_length ((h _ a).mp ha)
  intro i c
  rw [List.getElem?_dropLast]
  by_cases hc : c = a
  · subst hc
    rw [Function.update_self]
    split
    · rename_i hi
      constructor
      · intro hc
        exact absurd (h.unique hc ha) (Nat.ne_of_lt hi)
      · intro hnone
        cases hnone
    · simp
  · rw [Function.update_of_ne hc, ← h i c]
    split
    · rfl
    · rename_i hi
      constructor
      · intro hnone
        cases hnone
      · intro hi'
        obtain ⟨hlt, -⟩ := List.getElem?_eq_some_iff.mp hi'
        have heq : i = xs.length - 1 := by omega
        rw [heq, ha] at hi'
        exact absurd (Option.some.inj hi').symm hc

/-- Each number up to a length at its own place. -/
theorem of_range {len : ℕ} {pos : ℕ → Option ℕ}
    (h : ∀ i, pos i = if i < len then some i else none) : Placed (List.range len) pos := by
  intro i a
  rw [h a, List.getElem?_eq_some_iff]
  constructor
  · rintro ⟨hlt, heq⟩
    rw [List.getElem_range] at heq
    subst heq
    rw [if_pos (by simpa using hlt)]
  · intro heq
    split_ifs at heq with hlt
    obtain rfl := Option.some.inj heq
    exact ⟨by simpa using hlt, List.getElem_range _⟩

end Placed

end Ziftrcoin.Lib
