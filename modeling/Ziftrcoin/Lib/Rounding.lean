/-
Module: Ziftrcoin.Lib.Rounding
Purpose: Rounding natural numbers down to a grid whose step grows with the number.
Trusted boundary: none
Main exports: roundDown, Grid, Grid.roundDown_mono
-/
import Mathlib.Algebra.Order.Group.Nat
import Mathlib.Tactic.Ring

namespace Ziftrcoin.Lib

/-- Round down to a multiple of the step at the number. -/
def roundDown (step : ℕ → ℕ) (n : ℕ) : ℕ := n / step n * step n

/-- Where the step changes there is a point of the wider grid, and a number has
the step of the point it is rounded to. -/
structure Grid (step : ℕ → ℕ) : Prop where
  pos : ∀ n, 0 < step n
  cross : ∀ {m n : ℕ}, m ≤ n → step m ≠ step n → ∃ t, m ≤ t ∧ t ≤ n ∧ step n ∣ t
  stable : ∀ n, step (n / step n * step n) = step n

variable {step : ℕ → ℕ}

theorem roundDown_le (step : ℕ → ℕ) (n : ℕ) : roundDown step n ≤ n :=
  Nat.div_mul_le_self n (step n)

theorem le_roundDown_of_dvd {t n : ℕ} (hle : t ≤ n) (hdvd : step n ∣ t) :
    t ≤ roundDown step n := by
  obtain ⟨k, rfl⟩ := hdvd
  unfold roundDown
  rcases Nat.eq_zero_or_pos (step n) with hzero | hpos
  · simp [hzero]
  · rw [Nat.mul_comm (step n)] at hle ⊢
    exact Nat.mul_le_mul_right _ ((Nat.le_div_iff_mul_le hpos).mpr hle)

theorem roundDown_eq_self_of_dvd {n : ℕ} (hdvd : step n ∣ n) : roundDown step n = n :=
  Nat.le_antisymm (roundDown_le step n) (le_roundDown_of_dvd (le_refl n) hdvd)

theorem roundDown_zero : roundDown step 0 = 0 := by
  unfold roundDown
  rw [Nat.zero_div, Nat.zero_mul]

namespace Grid

theorem lt_roundDown_add (h : Grid step) (n : ℕ) : n < roundDown step n + step n := by
  have hdiv := Nat.div_add_mod n (step n)
  have hmod := Nat.mod_lt n (h.pos n)
  unfold roundDown
  rw [Nat.mul_comm]
  omega

/-- Rounding keeps the order. -/
theorem roundDown_mono (h : Grid step) {m n : ℕ} (hle : m ≤ n) :
    roundDown step m ≤ roundDown step n := by
  by_cases hstep : step m = step n
  · unfold roundDown
    rw [hstep]
    exact Nat.mul_le_mul_right _ (Nat.div_le_div_right hle)
  · obtain ⟨t, hmt, htn, hdvd⟩ := h.cross hle hstep
    calc roundDown step m ≤ m := roundDown_le step m
      _ ≤ t := hmt
      _ ≤ roundDown step n := le_roundDown_of_dvd htn hdvd

/-- What is lost is a small part of the number where the step is. -/
theorem error_lt (h : Grid step) {n c : ℕ} (hstep : step n * c ≤ n) (hc : 0 < c) :
    (n - roundDown step n) * c < n := by
  have hlt := h.lt_roundDown_add n
  have hsub : n - roundDown step n + 1 ≤ step n := by
    have := roundDown_le step n
    omega
  calc (n - roundDown step n) * c < (n - roundDown step n + 1) * c :=
        Nat.mul_lt_mul_of_pos_right (Nat.lt_succ_self _) hc
    _ ≤ step n * c := Nat.mul_le_mul_right _ hsub
    _ ≤ n := hstep

end Grid

end Ziftrcoin.Lib
