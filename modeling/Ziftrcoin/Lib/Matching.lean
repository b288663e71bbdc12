/-
Module: Ziftrcoin.Lib.Matching
Purpose: Matching a list in order into another one.  Taking the first partner that
  fits, and giving up once too few are left, finds a matching whenever there is one.
Trusted boundary: none
Main exports: Matching, greedy, greedy_iff
-/
import Mathlib.Data.List.Forall2
import Mathlib.Data.List.NodupEquivFin

namespace Ziftrcoin.Lib

universe u v

variable {α : Type u} {β : Type v}

/-- The elements of the first list have partners in the second one, in order. -/
abbrev Matching (ok : α → β → Bool) : List α → List β → Prop :=
  List.SublistForall₂ fun x y => ok x y = true

/-- Try the partners in order, each of them once. -/
def greedy (ok : α → β → Bool) : List α → List β → Bool
  | [], _ => true
  | _ :: _, [] => false
  | x :: xs, y :: ys =>
      let left := if ok x y then xs else x :: xs
      if ys.length < left.length then false else greedy ok left ys

variable {ok : α → β → Bool} {x : α} {y : β} {xs : List α} {ys : List β}

theorem Matching.length_le (h : Matching ok xs ys) : xs.length ≤ ys.length := by
  induction h with
  | nil => exact Nat.zero_le _
  | cons _ _ ih => exact Nat.succ_le_succ ih
  | cons_right _ ih => exact Nat.le_succ_of_le ih

/-- What needs no partner any more needs no more partners. -/
theorem Matching.of_cons (h : Matching ok (x :: xs) ys) : Matching ok xs ys := by
  generalize hzs : x :: xs = zs at h
  induction h with
  | nil => cases hzs
  | cons _ hrest _ =>
      cases hzs
      exact .cons_right hrest
  | cons_right _ ih => exact .cons_right (ih hzs)

/-- The first element that fits may be taken: a matching that leaves it out can be
exchanged for one that uses it. -/
theorem matching_cons_of_ok (h : ok x y = true) :
    Matching ok (x :: xs) (y :: ys) ↔ Matching ok xs ys := by
  constructor
  · intro hmatch
    cases hmatch with
    | cons _ hrest => exact hrest
    | cons_right hrest => exact Matching.of_cons hrest
  · exact .cons h

theorem matching_cons_of_not_ok (h : ok x y = false) :
    Matching ok (x :: xs) (y :: ys) ↔ Matching ok (x :: xs) ys := by
  constructor
  · intro hmatch
    cases hmatch with
    | cons hok _ => rw [h] at hok; cases hok
    | cons_right hrest => exact hrest
  · exact .cons_right

/-- The greedy loop decides whether there is a matching. -/
theorem greedy_iff : greedy ok xs ys = true ↔ Matching ok xs ys := by
  induction ys generalizing xs with
  | nil =>
      cases xs with
      | nil => exact ⟨fun _ => .nil, fun _ => rfl⟩
      | cons x xs => exact ⟨fun h => (nomatch h), fun h => (nomatch h)⟩
  | cons y ys ih =>
      cases xs with
      | nil => exact ⟨fun _ => .nil, fun _ => rfl⟩
      | cons x xs =>
          have hstep : ∀ left, (if ys.length < left.length then false
              else greedy ok left ys) = true ↔ Matching ok left ys := by
            intro left
            by_cases hshort : ys.length < left.length
            · rw [if_pos hshort]
              exact ⟨fun h => (nomatch h), fun h => absurd h.length_le (by omega)⟩
            · rw [if_neg hshort]
              exact ih
          cases hok : ok x y with
          | true =>
              rw [matching_cons_of_ok hok, ← hstep xs]
              simp [greedy, hok]
          | false =>
              rw [matching_cons_of_not_ok hok, ← hstep (x :: xs)]
              simp [greedy, hok]

/-- A matching is a strictly increasing map between the positions. -/
theorem matching_iff_strictMono :
    Matching ok xs ys ↔ ∃ f : Fin xs.length → Fin ys.length, StrictMono f ∧
      ∀ i, ok (xs.get i) (ys.get (f i)) = true := by
  rw [Matching, List.sublistForall₂_iff]
  constructor
  · rintro ⟨zs, hforall, hsub⟩
    obtain ⟨f, hf⟩ := List.sublist_iff_exists_fin_orderEmbedding_get_eq.mp hsub
    have hlen : xs.length = zs.length := hforall.length_eq
    refine ⟨fun i => f (Fin.cast hlen i), fun i j hij => f.strictMono hij, fun i => ?_⟩
    rw [← hf]
    exact hforall.get i.isLt (hlen ▸ i.isLt)
  · rintro ⟨f, hmono, hok⟩
    refine ⟨List.ofFn fun i => ys.get (f i), ?_, ?_⟩
    · rw [List.forall₂_iff_get]
      refine ⟨by simp, fun i hi hi' => ?_⟩
      simpa using hok ⟨i, hi⟩
    · rw [List.sublist_iff_exists_fin_orderEmbedding_get_eq]
      have hlen : (List.ofFn fun i => ys.get (f i)).length = xs.length := List.length_ofFn
      refine ⟨(Fin.castOrderIso hlen).toOrderEmbedding.trans
        (OrderEmbedding.ofStrictMono f hmono), fun i => ?_⟩
      simp only [List.get_ofFn]
      rfl

end Ziftrcoin.Lib
