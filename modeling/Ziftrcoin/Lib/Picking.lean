/-
Module: Ziftrcoin.Lib.Picking
Purpose: Choosing a part of a list by a list of flags, and what the part weighs.
Trusted boundary: none
Main exports: pick, pickWeight, pickWeight_set
-/
import Mathlib.Algebra.Order.BigOperators.Group.List
import Mathlib.Algebra.BigOperators.Group.List.Basic
import Mathlib.Algebra.Ring.Int.Defs

namespace Ziftrcoin.Lib

variable {α : Type}

/-- The entries whose flags are set. -/
def pick : List α → List Bool → List α
  | x :: xs, b :: bs => if b then x :: pick xs bs else pick xs bs
  | _, _ => []

theorem pick_replicate_true : ∀ xs : List α, pick xs (List.replicate xs.length true) = xs
  | [] => rfl
  | x :: xs => congrArg (x :: ·) (pick_replicate_true xs)

theorem pick_replicate_false : ∀ (xs : List α) (n : ℕ), pick xs (List.replicate n false) = []
  | [], 0 => rfl
  | [], _ + 1 => rfl
  | _ :: _, 0 => rfl
  | _ :: xs, n + 1 => pick_replicate_false xs n

theorem pick_sublist : ∀ (xs : List α) (bs : List Bool), (pick xs bs).Sublist xs
  | [], _ => List.nil_sublist _
  | _ :: _, [] => List.nil_sublist _
  | x :: xs, true :: bs => (pick_sublist xs bs).cons_cons x
  | x :: xs, false :: bs => (pick_sublist xs bs).cons x

theorem pick_map {β : Type} (g : α → β) : ∀ (xs : List α) (bs : List Bool),
    pick (xs.map g) bs = (pick xs bs).map g
  | [], _ => rfl
  | _ :: _, [] => rfl
  | x :: xs, true :: bs => congrArg (g x :: ·) (pick_map g xs bs)
  | _ :: xs, false :: bs => pick_map g xs bs

section Weights

variable (w : α → ℤ)

/-- What the chosen entries weigh. -/
def pickWeight (xs : List α) (bs : List Bool) : ℤ := ((pick xs bs).map w).sum

theorem pickWeight_replicate_true (xs : List α) :
    pickWeight w xs (List.replicate xs.length true) = (xs.map w).sum := by
  rw [pickWeight, pick_replicate_true]

theorem pickWeight_replicate_false (xs : List α) (n : ℕ) :
    pickWeight w xs (List.replicate n false) = 0 := by
  rw [pickWeight, pick_replicate_false]
  rfl

/-- One more entry adds its weight. -/
theorem pickWeight_set : ∀ {xs : List α} {bs : List Bool} {i : ℕ} {x : α}, xs[i]? = some x →
    bs[i]? = some false → pickWeight w xs (bs.set i true) = pickWeight w xs bs + w x
  | [], _, _, _, hx, _ => by cases hx
  | _ :: _, [], _, _, _, hb => by cases hb
  | y :: xs, b :: bs, 0, x, hx, hb => by
      obtain rfl := Option.some.inj hx
      obtain rfl := Option.some.inj hb
      simp [pickWeight, pick, add_comm]
  | y :: xs, b :: bs, i + 1, x, hx, hb => by
      have hx' : xs[i]? = some x := hx
      have hb' : bs[i]? = some false := hb
      have ih := pickWeight_set hx' hb'
      unfold pickWeight at ih ⊢
      cases b with
      | true => simp [pick, ih, add_assoc]
      | false => simpa [pick] using ih

/-- A part of positive entries weighs no more than all of them. -/
theorem pickWeight_bounds {xs : List α} (hpos : ∀ x ∈ xs, 0 < w x) (bs : List Bool) :
    0 ≤ pickWeight w xs bs ∧ pickWeight w xs bs ≤ (xs.map w).sum := by
  have hsub := (pick_sublist xs bs).map w
  refine ⟨List.sum_nonneg fun v hv => ?_, hsub.sum_le_sum fun v hv => ?_⟩
  · obtain ⟨x, hx, rfl⟩ := List.mem_map.mp (hsub.subset hv)
    exact (hpos x hx).le
  · obtain ⟨x, hx, rfl⟩ := List.mem_map.mp hv
    exact (hpos x hx).le

end Weights

end Ziftrcoin.Lib
