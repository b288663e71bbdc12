/-
Module: Ziftrcoin.Lib.Doubling
Purpose: Walks that take unit steps first and then steps that double, and how
  far beyond a goal such a walk ends.
Trusted boundary: none
-/
import Mathlib.Tactic.Ring
import Mathlib.Data.Nat.Find
import Mathlib.Order.Monotone.Basic

namespace Ziftrcoin.Lib

/-- The distance after `k` steps, of which the first `n + 1` have length one. -/
def doubling (n : ℕ) : ℕ → ℕ
  | 0 => 0
  | k + 1 => doubling n k + 2 ^ (k - n)

variable {n k x : ℕ}

theorem doubling_of_le : ∀ {k : ℕ}, k ≤ n + 1 → doubling n k = k
  | 0, _ => rfl
  | k + 1, hk => by
      have hzero : k - n = 0 := by omega
      rw [doubling, doubling_of_le (Nat.le_of_succ_le hk), hzero, Nat.pow_zero]

theorem doubling_strictMono (n : ℕ) : StrictMono (doubling n) :=
  strictMono_nat_of_lt_succ fun _ => Nat.lt_add_of_pos_right (Nat.two_pow_pos _)

theorem le_doubling (n : ℕ) : ∀ k, k ≤ doubling n k
  | 0 => Nat.le_refl 0
  | k + 1 => Nat.add_le_add (le_doubling n k) (Nat.two_pow_pos _)

/-- Beyond the unit steps, a step is shorter than the way up to it. -/
theorem two_pow_lt_doubling (hn : 0 < n) (hk : n ≤ k) : 2 ^ (k - n) ≤ doubling n k := by
  induction k, hk using Nat.le_induction with
  | base =>
      rw [Nat.sub_self, Nat.pow_zero, doubling_of_le (Nat.le_succ n)]
      exact hn
  | succ k hk ih =>
      rw [doubling, Nat.succ_sub hk, Nat.pow_succ, Nat.mul_two]
      exact Nat.add_le_add_right ih _

/-- The first time the walk is at the goal or beyond, it is beyond it by no more than the
distance of the goal, and right at it if the goal is near. -/
theorem exists_first_doubling (hn : 0 < n) (x : ℕ) :
    ∃ k, x ≤ doubling n k ∧ (∀ i < k, doubling n i < x) ∧ doubling n k - x ≤ x ∧
      (x ≤ n → doubling n k = x) := by
  have hex : ∃ k, x ≤ doubling n k := ⟨x, le_doubling n x⟩
  have hmin : ∀ i < Nat.find hex, doubling n i < x := fun i hi =>
    Nat.lt_of_not_le (Nat.find_min hex hi)
  refine ⟨Nat.find hex, Nat.find_spec hex, hmin, ?_, ?_⟩
  · cases hk : Nat.find hex with
    | zero =>
        rw [doubling, Nat.zero_sub]
        exact Nat.zero_le x
    | succ k =>
        have hlt := hmin k (by omega)
        rcases Nat.lt_or_ge k n with hnear | hfar
        · have hzero : k - n = 0 := by omega
          rw [doubling, hzero, Nat.pow_zero]
          omega
        · have hstep := two_pow_lt_doubling hn hfar
          rw [doubling]
          omega
  · intro hx
    apply Nat.le_antisymm _ (Nat.find_spec hex)
    have hle : Nat.find hex ≤ x := Nat.find_min' hex (le_doubling n x)
    have hmono := (doubling_strictMono n).monotone hle
    rwa [doubling_of_le (by omega : x ≤ n + 1)] at hmono

end Ziftrcoin.Lib
