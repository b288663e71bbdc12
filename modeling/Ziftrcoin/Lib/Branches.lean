/-
Module: Ziftrcoin.Lib.Branches
Purpose: Branches of a tree that is given by parent pointers, as lists from the
  root to a node.
Trusted boundary: none
Main exports: Branch, Branch.take_eq, Branch.index_unique
-/
import Mathlib.Data.List.Nodup
import Mathlib.Data.List.Induction

namespace Ziftrcoin.Lib

variable {α : Type}

/-- The list starts at a root, and each node is the parent of the next. -/
def Branch (parent : α → Option α) (xs : List α) : Prop :=
  ∀ i p, xs[i]? = some p → parent p = if i = 0 then none else xs[i - 1]?

namespace Branch

variable {parent : α → Option α} {xs ys : List α}

theorem nil : Branch parent ([] : List α) := by
  intro i p h
  simp at h

theorem parent_zero (h : Branch parent xs) {p : α} (hp : xs[0]? = some p) :
    parent p = none := by
  rw [h 0 p hp, if_pos rfl]

theorem parent_succ (h : Branch parent xs) {i : Nat} {p : α}
    (hp : xs[i + 1]? = some p) : parent p = xs[i]? := by
  rw [h (i + 1) p hp, if_neg (Nat.succ_ne_zero i), Nat.add_sub_cancel]

theorem take (h : Branch parent xs) (n : Nat) : Branch parent (xs.take n) := by
  intro i p hp
  rw [List.getElem?_take, Option.ite_none_right_eq_some] at hp
  rw [h i p hp.2]
  split
  · rfl
  · rw [List.getElem?_take, if_pos (by omega)]

theorem of_prefix (h : Branch parent xs) (hpre : ys <+: xs) : Branch parent ys := by
  rw [List.prefix_iff_eq_take.mp hpre]
  exact h.take _

/-- A branch grows by a child of its last node, or by a root if it is empty. -/
theorem concat (h : Branch parent xs) {p : α} (hp : parent p = xs.getLast?) :
    Branch parent (xs ++ [p]) := by
  intro i q hq
  by_cases hi : i < xs.length
  · rw [List.getElem?_append_left hi] at hq
    rw [h i q hq]
    split
    · rfl
    · rw [List.getElem?_append_left (by omega)]
  · rw [List.getElem?_append_right (Nat.le_of_not_lt hi),
      List.getElem?_singleton, Option.ite_none_right_eq_some, Option.some.injEq] at hq
    obtain ⟨hzero, rfl⟩ := hq
    have hlen : i = xs.length := by omega
    subst hlen
    rw [hp, List.getLast?_eq_getElem?]
    split
    · simp_all
    · rw [List.getElem?_append_left (by omega)]

/-- A node has one place, the same in all branches. -/
theorem index_unique (hx : Branch parent xs) (hy : Branch parent ys) :
    ∀ {i j : Nat} {p : α}, xs[i]? = some p → ys[j]? = some p → i = j
  | 0, 0, _, _, _ => rfl
  | 0, j + 1, p, hi, hj => by
      have hnone := hx.parent_zero hi
      rw [hy.parent_succ hj] at hnone
      have hlt := (List.getElem?_eq_some_iff.mp hj).1
      rw [List.getElem?_eq_none_iff] at hnone
      omega
  | i + 1, 0, p, hi, hj => by
      have hnone := hy.parent_zero hj
      rw [hx.parent_succ hi] at hnone
      have hlt := (List.getElem?_eq_some_iff.mp hi).1
      rw [List.getElem?_eq_none_iff] at hnone
      omega
  | i + 1, j + 1, p, hi, hj => by
      have hlt := (List.getElem?_eq_some_iff.mp hi).1
      have hparent : xs[i]? = some xs[i] := List.getElem?_eq_getElem (by omega)
      have hparent' : ys[j]? = some xs[i] := by
        rw [← hy.parent_succ hj, hx.parent_succ hi, hparent]
      rw [index_unique hx hy hparent hparent']

/-- Branches that share a node share everything below it. -/
theorem take_eq (hx : Branch parent xs) (hy : Branch parent ys) :
    ∀ {i : Nat} {p : α}, xs[i]? = some p → ys[i]? = some p →
      xs.take (i + 1) = ys.take (i + 1)
  | 0, p, hi, hj => by
      rw [List.take_add_one, List.take_add_one, hi, hj, List.take_zero, List.take_zero]
  | i + 1, p, hi, hj => by
      have hlt := (List.getElem?_eq_some_iff.mp hi).1
      have hparent : xs[i]? = some xs[i] := List.getElem?_eq_getElem (by omega)
      have hparent' : ys[i]? = some xs[i] := by
        rw [← hy.parent_succ hj, hx.parent_succ hi, hparent]
      rw [List.take_add_one, List.take_add_one (l := ys), hi, hj,
        take_eq hx hy hparent hparent']

/-- The branch of a child ends with the child, after the branch of the parent. -/
theorem eq_concat (hx : Branch parent xs) {p : α} (hlast : xs.getLast? = some p) :
    ∃ ys, xs = ys ++ [p] ∧ Branch parent ys ∧ parent p = ys.getLast? := by
  obtain ⟨ys, rfl⟩ := List.getLast?_eq_some_iff.mp hlast
  refine ⟨ys, rfl, hx.of_prefix (List.prefix_append ys [p]), ?_⟩
  have hp : (ys ++ [p])[ys.length]? = some p := by simp
  rw [hx ys.length p hp, List.getLast?_eq_getElem?]
  split
  · next hzero => rw [List.length_eq_zero_iff.mp hzero]; rfl
  · next hne => rw [List.getElem?_append_left (by omega)]

end Branch

/-- When parents come before their children, every node has a branch, and is
the last to come of it. -/
theorem exists_branch {parent : Nat → Option Nat} (h : ∀ p q, parent p = some q → q < p)
    (p : Nat) : ∃ xs, Branch parent xs ∧ xs.getLast? = some p ∧ ∀ q ∈ xs, q ≤ p := by
  induction p using Nat.strongRecOn with
  | _ p ih =>
      cases hparent : parent p with
      | none => exact ⟨[p], Branch.nil.concat hparent, rfl, by simp⟩
      | some q =>
          have hlt := h p q hparent
          obtain ⟨xs, hxs, hlast, hle⟩ := ih q hlt
          refine ⟨xs ++ [p], hxs.concat (hparent.trans hlast.symm), by simp, ?_⟩
          intro r hr
          rcases List.mem_append.mp hr with hr | hr
          · exact Nat.le_trans (hle r hr) (Nat.le_of_lt hlt)
          · exact Nat.le_of_eq (List.mem_singleton.mp hr)

end Ziftrcoin.Lib
