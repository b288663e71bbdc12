/-
Module: Ziftrcoin.Lib.Shuffling
Purpose: The first steps of a shuffle of a list by exchanges: what a step draws
  moves to the place of the step and stays there.  And the first step that draws a
  least value.
Trusted boundary: none
Main exports: swapAt, shuffled, shuffled_perm
-/
import Mathlib.Data.Int.Order.Basic
import Mathlib.Data.List.Nodup

namespace Ziftrcoin.Lib

variable {α : Type}

/-- The entries at two places change places. -/
def swapAt (xs : List α) (i j : ℕ) : List α :=
  match xs[j]?, xs[i]? with
  | some y, some x => (xs.set j x).set i y
  | _, _ => xs

/-- A list after the first `k` steps.  A step exchanges its place with the place that it
draws. -/
def shuffled (draw : ℕ → ℕ) : ℕ → List α → List α
  | 0, xs => xs
  | k + 1, xs => swapAt (shuffled draw k xs) k (draw k)

/-- What step `i` draws. -/
def drawnEntry (draw : ℕ → ℕ) (xs : List α) (i : ℕ) : Option α := (shuffled draw i xs)[draw i]?

variable {xs : List α} {i j : ℕ}

theorem swapAt_eq (hi : i < xs.length) (hj : j < xs.length) :
    swapAt xs i j = (xs.set j xs[i]).set i xs[j] := by
  unfold swapAt
  rw [List.getElem?_eq_getElem hi, List.getElem?_eq_getElem hj]

theorem swapAt_perm (xs : List α) (i j : ℕ) : (swapAt xs i j).Perm xs := by
  by_cases h : i < xs.length ∧ j < xs.length
  · rw [swapAt_eq h.1 h.2]
    exact List.set_set_perm h.2 h.1
  · unfold swapAt
    split
    · next y x hy hx =>
      exact absurd ⟨(List.getElem?_eq_some_iff.mp hx).1, (List.getElem?_eq_some_iff.mp hy).1⟩ h
    · exact .refl _

theorem getElem?_swapAt_left (hi : i < xs.length) (hj : j < xs.length) :
    (swapAt xs i j)[i]? = xs[j]? := by
  rw [swapAt_eq hi hj, List.getElem?_set_self (by rwa [List.length_set]),
    List.getElem?_eq_getElem hj]

theorem getElem?_swapAt_of_ne {n : ℕ} (hi : n ≠ i) (hj : n ≠ j) :
    (swapAt xs i j)[n]? = xs[n]? := by
  unfold swapAt
  split
  · rw [List.getElem?_set_ne hi.symm, List.getElem?_set_ne hj.symm]
  · rfl

variable {draw : ℕ → ℕ}

theorem shuffled_perm (draw : ℕ → ℕ) (xs : List α) : ∀ k, (shuffled draw k xs).Perm xs
  | 0 => .refl _
  | k + 1 => (swapAt_perm _ _ _).trans (shuffled_perm draw xs k)

@[simp] theorem length_shuffled (k : ℕ) : (shuffled draw k xs).length = xs.length :=
  (shuffled_perm draw xs k).length_eq

/-- A step draws from its own place on, so no later one touches the places before. -/
theorem getElem?_shuffled {draw : ℕ → ℕ} (xs : List α)
    (hdraw : ∀ i < xs.length, i ≤ draw i ∧ draw i < xs.length) :
    ∀ {k : ℕ}, k ≤ xs.length → ∀ i < k, (shuffled draw k xs)[i]? = drawnEntry draw xs i := by
  intro k
  induction k with
  | zero => exact fun _ i hi => absurd hi (Nat.not_lt_zero i)
  | succ k ih =>
      intro hk i hi
      have hfrom := hdraw k hk
      unfold shuffled
      rcases Nat.lt_succ_iff_lt_or_eq.mp hi with hlt | rfl
      · rw [getElem?_swapAt_of_ne (by omega) (by omega)]
        exact ih (by omega) i hlt
      · exact getElem?_swapAt_left (by rwa [length_shuffled]) (by rw [length_shuffled]; omega)

theorem drawnEntry_mem {x : α} (h : drawnEntry draw xs i = some x) : x ∈ xs :=
  (shuffled_perm draw xs i).mem_iff.mp (List.mem_of_getElem? h)

theorem isSome_drawnEntry (xs : List α) (h : draw i < xs.length) :
    (drawnEntry draw xs i).isSome = true := by
  unfold drawnEntry
  rw [List.getElem?_eq_getElem (by rwa [length_shuffled])]
  rfl

/-- The entry of a place that the steps were done with is one that they drew there, if no
entry occurs twice. -/
theorem lt_of_drawnEntry (hdraw : ∀ i < xs.length, i ≤ draw i ∧ draw i < xs.length)
    (hnodup : xs.Nodup) {k p : ℕ} (hk : k ≤ xs.length) {x : α}
    (hp : (shuffled draw k xs)[p]? = some x) (hi : i < k) (hx : drawnEntry draw xs i = some x) :
    p < k := by
  rw [← getElem?_shuffled xs hdraw hk i hi] at hx
  have hnodup' : (shuffled draw k xs).Nodup := (shuffled_perm draw xs k).nodup_iff.mpr hnodup
  obtain ⟨hlt, hpx⟩ := List.getElem?_eq_some_iff.mp hp
  obtain ⟨hlt', hix⟩ := List.getElem?_eq_some_iff.mp hx
  have heq := (List.Nodup.getElem_inj_iff hnodup').mp (hpx.trans hix.symm)
  omega

/-! ### The first of the least -/

/-- Of the first `k` numbers, the first one where `f` is least. -/
def firstLeast (f : ℕ → ℤ) : (k : ℕ) → Option ℕ
  | 0 => none
  | k + 1 =>
      match firstLeast f k with
      | none => some k
      | some w => if f k < f w then some k else some w

theorem firstLeast_succ_of_none {f : ℕ → ℤ} {k : ℕ} (h : firstLeast f k = none) :
    firstLeast f (k + 1) = some k := by
  unfold firstLeast
  rw [h]

theorem firstLeast_succ_of_some {f : ℕ → ℤ} {k w : ℕ} (h : firstLeast f k = some w) :
    firstLeast f (k + 1) = if f k < f w then some k else some w := by
  rw [firstLeast, h]

theorem isSome_firstLeast (f : ℕ → ℤ) (k : ℕ) : (firstLeast f (k + 1)).isSome = true := by
  unfold firstLeast
  split
  · rfl
  · split_ifs <;> rfl

theorem firstLeast_spec {f : ℕ → ℤ} :
    ∀ {k w : ℕ}, firstLeast f k = some w → w < k ∧ ∀ i < k, f w ≤ f i
  | k + 1, w, h => by
      unfold firstLeast at h
      cases hold : firstLeast f k with
      | none =>
          simp only [hold, Option.some.injEq] at h
          subst h
          cases k with
          | zero => simp
          | succ k => simpa [hold] using isSome_firstLeast f k
      | some v =>
          obtain ⟨hv, hle⟩ := firstLeast_spec hold
          simp only [hold] at h
          split_ifs at h with hlt
          all_goals
            obtain rfl := Option.some.inj h
            refine ⟨by omega, fun i hi => ?_⟩
            rcases Nat.lt_succ_iff_lt_or_eq.mp hi with hi | rfl
          · exact le_trans (le_of_lt hlt) (hle i hi)
          · exact le_rfl
          · exact hle i hi
          · exact not_lt.mp hlt

end Ziftrcoin.Lib
