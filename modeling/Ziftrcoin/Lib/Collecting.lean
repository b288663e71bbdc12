/-
Module: Ziftrcoin.Lib.Collecting
Purpose: Items that are collected in an ordered set, and given in its order to the
  first taker that has none.  A taker gets the first item that suits it, where that
  suits no other.
Trusted boundary: none
Main exports: insertItem, collect, collect_congr
-/
import Mathlib.Data.List.Perm.Subperm

namespace Ziftrcoin.Lib

universe u v

/-! ### Ordered sets -/

section Ordered

variable {α : Type u} [LT α] [DecidableLT α]

/-- Insert an item where it belongs, unless it is there. -/
def insertItem (x : α) : List α → List α
  | [] => [x]
  | y :: ys => if x < y then x :: y :: ys else if y < x then y :: insertItem x ys else y :: ys

/-- The items of a list, as an ordered set. -/
def collect (xs : List α) : List α := xs.foldl (fun items x => insertItem x items) []

variable (hirrefl : ∀ x : α, ¬ x < x) (htrans : ∀ {x y z : α}, x < y → y < z → x < z)
  (htotal : ∀ {x y : α}, ¬ x < y → ¬ y < x → x = y)

include htotal in
theorem mem_insertItem {x z : α} : ∀ {ys : List α}, z ∈ insertItem x ys ↔ z = x ∨ z ∈ ys
  | [] => by simp [insertItem]
  | y :: ys => by
      rw [insertItem]
      split
      · exact List.mem_cons
      · next hlt =>
          split
          · rw [List.mem_cons, mem_insertItem, List.mem_cons]
            exact or_left_comm
          · next hgt =>
              obtain rfl := htotal hlt hgt
              simp

include htrans htotal in
theorem insertItem_sorted {x : α} : ∀ {ys : List α}, ys.Pairwise (· < ·) →
    (insertItem x ys).Pairwise (· < ·)
  | [], _ => List.pairwise_singleton _ _
  | y :: ys, h => by
      rw [insertItem]
      obtain ⟨hy, hys⟩ := List.pairwise_cons.mp h
      split
      · next hlt =>
          refine List.pairwise_cons.mpr ⟨fun z hz => ?_, h⟩
          rcases List.mem_cons.mp hz with rfl | hz
          · exact hlt
          · exact htrans hlt (hy z hz)
      · split
        · next hgt =>
            refine List.pairwise_cons.mpr ⟨fun z hz => ?_, insertItem_sorted hys⟩
            rcases (mem_insertItem htotal).mp hz with rfl | hz
            · exact hgt
            · exact hy z hz
        · exact h

include htrans htotal in
theorem collect_spec (xs : List α) :
    (collect xs).Pairwise (· < ·) ∧ ∀ z, z ∈ collect xs ↔ z ∈ xs := by
  have hfold : ∀ (xs items : List α), items.Pairwise (· < ·) →
      (xs.foldl (fun items x => insertItem x items) items).Pairwise (· < ·) ∧
        ∀ z, z ∈ xs.foldl (fun items x => insertItem x items) items ↔ z ∈ items ∨ z ∈ xs := by
    intro xs
    induction xs with
    | nil => exact fun items h => ⟨h, fun z => by simp⟩
    | cons x xs ih =>
        intro items h
        obtain ⟨hsorted, hmem⟩ := ih (insertItem x items) (insertItem_sorted htrans htotal h)
        refine ⟨hsorted, fun z => (hmem z).trans ?_⟩
        rw [mem_insertItem htotal, List.mem_cons, or_assoc, or_left_comm]
  obtain ⟨hsorted, hmem⟩ := hfold xs [] List.Pairwise.nil
  exact ⟨hsorted, fun z => (hmem z).trans (by simp)⟩

include hirrefl htrans htotal in
/-- An ordered set depends on its items only. -/
theorem collect_congr {xs ys : List α} (h : ∀ z, z ∈ xs ↔ z ∈ ys) : collect xs = collect ys := by
  obtain ⟨hsorted, hmem⟩ := collect_spec htrans htotal xs
  obtain ⟨hsorted', hmem'⟩ := collect_spec htrans htotal ys
  have hnodup : ∀ {l : List α}, l.Pairwise (· < ·) → l.Nodup := by
    intro l hl
    change l.Pairwise (· ≠ ·)
    refine hl.imp ?_
    rintro a b hlt rfl
    exact hirrefl a hlt
  have hperm : (collect xs).Perm (collect ys) :=
    (List.perm_ext_iff_of_nodup (hnodup hsorted) (hnodup hsorted')).mpr fun z =>
      (hmem z).trans ((h z).trans (hmem' z).symm)
  exact hperm.eq_of_pairwise
    (fun a b _ _ hab hba => absurd (htrans hab hba) (hirrefl a)) hsorted hsorted'

end Ordered

/-! ### Giving out -/

section GivingOut

variable {α : Type u} {β : Type v} [BEq β] [LawfulBEq β]

/-- Give an item to the first taker that it suits and that has none. -/
def giveItem (suits : α → β → Bool) (takers : List β) (given : List (β × α)) (x : α) :
    List (β × α) :=
  match takers.find? fun y => !(given.lookup y).isSome && suits x y with
  | none => given
  | some y => (y, x) :: given

def giveOut (suits : α → β → Bool) (takers : List β) (items : List α) : List (β × α) :=
  items.foldl (giveItem suits takers) []

variable {suits : α → β → Bool} {takers : List β} {given : List (β × α)} {x : α} {y : β}

/-- What a taker has, it keeps. -/
theorem lookup_giveItem_of_some {z : α} (h : given.lookup y = some z) :
    (giveItem suits takers given x).lookup y = some z := by
  rw [giveItem]
  cases hfind : takers.find? fun y => !(given.lookup y).isSome && suits x y with
  | none => exact h
  | some taker =>
      have hfree := List.find?_some hfind
      simp only [Bool.and_eq_true, Bool.not_eq_true', Option.isSome_eq_false_iff,
        Option.isNone_iff_eq_none] at hfree
      have hne : (y == taker) = false := by
        rw [beq_eq_false_iff_ne]
        rintro rfl
        rw [h] at hfree
        cases hfree.1
      simp only [List.lookup_cons, hne]
      exact h

/-- A taker gets no item that does not suit it. -/
theorem lookup_giveItem_of_not (h : given.lookup y = none) (hno : suits x y = false) :
    (giveItem suits takers given x).lookup y = none := by
  rw [giveItem]
  cases hfind : takers.find? fun y => !(given.lookup y).isSome && suits x y with
  | none => exact h
  | some taker =>
      have hsuits := List.find?_some hfind
      have hne : (y == taker) = false := by
        rw [beq_eq_false_iff_ne]
        rintro rfl
        simp [hno] at hsuits
      simp only [List.lookup_cons, hne]
      exact h

/-- An item goes to the taker that it alone suits, if that has none. -/
theorem lookup_giveItem_of_only (hy : y ∈ takers) (h : given.lookup y = none)
    (hsuits : suits x y = true) (honly : ∀ y' ∈ takers, suits x y' = true → y' = y) :
    (giveItem suits takers given x).lookup y = some x := by
  rw [giveItem]
  cases hfind : takers.find? fun y => !(given.lookup y).isSome && suits x y with
  | none => simpa [h, hsuits] using List.find?_eq_none.mp hfind y hy
  | some taker =>
      have hprop := List.find?_some hfind
      simp only [Bool.and_eq_true] at hprop
      obtain rfl := honly taker (List.mem_of_find?_eq_some hfind) hprop.2
      simp

theorem lookup_foldl_of_some {z : α} : ∀ {items : List α} {given : List (β × α)},
    given.lookup y = some z → (items.foldl (giveItem suits takers) given).lookup y = some z
  | [], _, h => h
  | _ :: _, _, h => by
      rw [List.foldl_cons]
      exact lookup_foldl_of_some (lookup_giveItem_of_some h)

theorem lookup_foldl_of_not : ∀ {items : List α} {given : List (β × α)},
    given.lookup y = none → (∀ x ∈ items, suits x y = false) →
      (items.foldl (giveItem suits takers) given).lookup y = none
  | [], _, h, _ => h
  | _ :: _, _, h, hno => by
      rw [List.foldl_cons]
      exact lookup_foldl_of_not (lookup_giveItem_of_not h (hno _ List.mem_cons_self))
        fun x hx => hno x (List.mem_cons_of_mem _ hx)

/-- Where nothing suits a taker, it has nothing. -/
theorem lookup_giveOut_none {items : List α}
    (hfind : (items.find? fun x => suits x y) = none) :
    (giveOut suits takers items).lookup y = none :=
  lookup_foldl_of_not rfl fun x hx => by simpa using List.find?_eq_none.mp hfind x hx

/-- A taker has the first item that suits it, if that suits no other. -/
theorem lookup_giveOut_some {items : List α} (hy : y ∈ takers)
    (hfind : (items.find? fun x => suits x y) = some x)
    (honly : ∀ y' ∈ takers, suits x y' = true → y' = y) :
    (giveOut suits takers items).lookup y = some x := by
  obtain ⟨hsuits, front, back, rfl, hfront⟩ := List.find?_eq_some_iff_append.mp hfind
  rw [giveOut, List.foldl_append, List.foldl_cons]
  refine lookup_foldl_of_some (lookup_giveItem_of_only hy (lookup_foldl_of_not rfl ?_)
    hsuits honly)
  exact fun z hz => by simpa using hfront z hz

/-- The first item that suits a taker goes to it, or to one before it. -/
theorem lookup_giveOut_before {items : List α} (hy : y ∈ takers)
    (hfind : (items.find? fun x => suits x y) = some x) :
    ∃ front y' back, takers = front ++ y' :: back ∧ y ∈ y' :: back ∧
      (giveOut suits takers items).lookup y' = some x := by
  obtain ⟨hsuits, before, after, rfl, hbefore⟩ := List.find?_eq_some_iff_append.mp hfind
  have hfree : (giveOut suits takers before).lookup y = none :=
    lookup_foldl_of_not rfl fun z hz => by simpa using hbefore z hz
  have hgiven : ∃ front y' back, takers = front ++ y' :: back ∧ y ∈ y' :: back ∧
      (giveItem suits takers (giveOut suits takers before) x).lookup y' = some x := by
    rw [giveItem]
    cases hfirst : takers.find? fun y =>
        !((giveOut suits takers before).lookup y).isSome && suits x y with
    | none => simpa [hfree, hsuits] using List.find?_eq_none.mp hfirst y hy
    | some y' =>
        obtain ⟨-, front, back, heq, hfront⟩ := List.find?_eq_some_iff_append.mp hfirst
        refine ⟨front, y', back, heq, ?_, by simp⟩
        rw [heq] at hy
        rcases List.mem_append.mp hy with hmem | hmem
        · simpa [hfree, hsuits] using hfront y hmem
        · exact hmem
  obtain ⟨front, y', back, heq, hmem, hlookup⟩ := hgiven
  refine ⟨front, y', back, heq, hmem, ?_⟩
  rw [giveOut, List.foldl_append, List.foldl_cons]
  exact lookup_foldl_of_some hlookup

/-- An item that suits one taker only leaves it with something. -/
theorem isSome_lookup_giveOut {items : List α} (hx : x ∈ items) (hy : y ∈ takers)
    (hsuits : suits x y = true) (honly : ∀ y' ∈ takers, suits x y' = true → y' = y) :
    ((giveOut suits takers items).lookup y).isSome = true := by
  obtain ⟨before, after, rfl⟩ := List.append_of_mem hx
  rw [giveOut, List.foldl_append, List.foldl_cons]
  cases hbefore : (before.foldl (giveItem suits takers) []).lookup y with
  | none => rw [lookup_foldl_of_some (lookup_giveItem_of_only hy hbefore hsuits honly)]; rfl
  | some z => rw [lookup_foldl_of_some (lookup_giveItem_of_some hbefore)]; rfl

/-- What a taker has is an item that suits it. -/
theorem suits_of_lookup_giveOut {items : List α}
    (h : (giveOut suits takers items).lookup y = some x) : x ∈ items ∧ suits x y = true := by
  have hfold : ∀ (rest : List α) (given : List (β × α)), (∀ z ∈ rest, z ∈ items) →
      (∀ y x, given.lookup y = some x → x ∈ items ∧ suits x y = true) →
      ∀ y x, (rest.foldl (giveItem suits takers) given).lookup y = some x →
        x ∈ items ∧ suits x y = true := by
    intro rest
    induction rest with
    | nil => exact fun _ _ h => h
    | cons z rest ih =>
        intro given hrest hgiven
        rw [List.foldl_cons]
        refine ih _ (fun w hw => hrest w (List.mem_cons_of_mem _ hw)) fun y x hlookup => ?_
        rw [giveItem] at hlookup
        cases hfind : takers.find? fun y => !(given.lookup y).isSome && suits z y with
        | none => exact hgiven y x (by simpa only [hfind] using hlookup)
        | some taker =>
            have hprop := List.find?_some hfind
            simp only [Bool.and_eq_true] at hprop
            simp only [hfind, List.lookup_cons] at hlookup
            by_cases hsame : y = taker
            · subst hsame
              obtain rfl : z = x := by simpa using hlookup
              exact ⟨hrest z List.mem_cons_self, hprop.2⟩
            · rw [beq_eq_false_iff_ne.mpr hsame] at hlookup
              exact hgiven y x hlookup
  exact hfold items [] (fun _ hz => hz) (fun _ _ hnone => by cases hnone) y x h

end GivingOut

end Ziftrcoin.Lib
