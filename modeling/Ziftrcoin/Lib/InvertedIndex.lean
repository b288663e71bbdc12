/-
Module: Ziftrcoin.Lib.InvertedIndex
Purpose: An index from values to the set of keys that refer to them, kept without
  empty sets beside the table it is made from.
Trusted boundary: none
Main exports: InvertedIndex, InvertedIndex.add, InvertedIndex.drop
-/
import Mathlib.Tactic.Linarith.Parsing

set_option linter.unusedSectionVars false

namespace Ziftrcoin.Lib

/-- For each value the set of keys that refer to it. -/
abbrev InvertedIndex (P K : Type) [Ord P] [Ord K] := Std.TreeMap P (Std.TreeSet K)

namespace InvertedIndex

variable {P K : Type} [Ord P] [Ord K]

/-- `index[p].insert(k)`, which makes an empty set first where there is none. -/
def add (index : InvertedIndex P K) (p : P) (k : K) : InvertedIndex P K :=
  index.insert p ((index[p]?.getD ∅).insert k)

/-- Take `k` out of the set of `p`, and the set away with its last element. -/
def drop (index : InvertedIndex P K) (p : P) (k : K) : InvertedIndex P K :=
  match index[p]? with
  | none => index
  | some keys =>
      if (keys.erase k).isEmpty then index.erase p else index.insert p (keys.erase k)

/-- `k` is in the set of `p`. -/
def Has (index : InvertedIndex P K) (p : P) (k : K) : Prop :=
  ∃ keys, index[p]? = some keys ∧ k ∈ keys

/-- There is no empty set. -/
def Tidy (index : InvertedIndex P K) : Prop :=
  ∀ (p : P) (keys : Std.TreeSet K), index[p]? = some keys → keys.isEmpty = false

variable [Std.TransOrd P] [Std.LawfulEqOrd P] [Std.TransOrd K] [Std.LawfulEqOrd K]
  {index : InvertedIndex P K} {p q : P} {k l : K}

theorem getElem?_empty (p : P) : (∅ : InvertedIndex P K)[p]? = none :=
  Std.TreeMap.getElem?_emptyc

theorem has_empty (p : P) (k : K) : ¬ Has (∅ : InvertedIndex P K) p k := by
  rintro ⟨keys, hkeys, -⟩
  rw [getElem?_empty] at hkeys
  cases hkeys

theorem tidy_empty : Tidy (∅ : InvertedIndex P K) := by
  intro p keys hkeys
  rw [getElem?_empty] at hkeys
  cases hkeys

theorem mem_insert_iff {keys : Std.TreeSet K} : l ∈ keys.insert k ↔ l ∈ keys ∨ l = k := by
  rw [Std.TreeSet.mem_insert, Std.compare_eq_iff_eq, or_comm, eq_comm]

theorem mem_erase_iff {keys : Std.TreeSet K} : l ∈ keys.erase k ↔ l ∈ keys ∧ l ≠ k := by
  rw [Std.TreeSet.mem_erase, Ne, Std.compare_eq_iff_eq, and_comm, eq_comm]

theorem has_add : Has (add index p k) q l ↔ Has index q l ∨ (q = p ∧ l = k) := by
  unfold Has add
  by_cases hq : q = p
  · subst hq
    cases hkeys : index[q]? with
    | none =>
        simp only [Std.TreeMap.getElem?_insert_self, Option.getD_none, Option.some.injEq,
          exists_eq_left', mem_insert_iff, reduceCtorEq, false_and, exists_false, true_and,
          false_or]
        exact or_iff_right Std.TreeSet.not_mem_emptyc
    | some keys =>
        simp only [Std.TreeMap.getElem?_insert_self, Option.getD_some, Option.some.injEq,
          exists_eq_left', mem_insert_iff, true_and]
  · have hpq : ¬ p = q := Ne.symm hq
    simp [Std.TreeMap.getElem?_insert, hq, hpq]

theorem tidy_add (h : Tidy index) : Tidy (add index p k) := by
  intro q keys hkeys
  unfold add at hkeys
  by_cases hq : p = q
  · subst hq
    rw [Std.TreeMap.getElem?_insert_self, Option.some.injEq] at hkeys
    rw [← hkeys]
    exact Std.TreeSet.isEmpty_insert
  · rw [Std.TreeMap.getElem?_insert, if_neg (by simpa using hq)] at hkeys
    exact h q keys hkeys

theorem getElem?_drop_self : (drop index p k)[p]? =
    (index[p]?.map fun keys => keys.erase k).filter fun keys => !keys.isEmpty := by
  unfold drop
  cases hkeys : index[p]? with
  | none => simpa using hkeys
  | some keys =>
      dsimp only
      split_ifs with hempty
      · rw [Std.TreeMap.getElem?_erase_self, Option.map_some, Option.filter_some_neg]
        rw [hempty]
        rfl
      · rw [Std.TreeMap.getElem?_insert_self, Option.map_some, Option.filter_some_pos]
        rw [Bool.eq_false_iff.mpr hempty]
        rfl

theorem getElem?_drop_of_ne (h : q ≠ p) : (drop index p k)[q]? = index[q]? := by
  unfold drop
  cases hkeys : index[p]? with
  | none => rfl
  | some keys =>
      dsimp only
      split_ifs
      · rw [Std.TreeMap.getElem?_erase, if_neg (by simpa using Ne.symm h)]
      · rw [Std.TreeMap.getElem?_insert, if_neg (by simpa using Ne.symm h)]

theorem has_drop : Has (drop index p k) q l ↔ Has index q l ∧ ¬ (q = p ∧ l = k) := by
  unfold Has
  by_cases hq : q = p
  · subst hq
    rw [getElem?_drop_self]
    cases hkeys : index[q]? with
    | none => simp
    | some keys =>
        have hnonempty : ∀ l ∈ keys.erase k, (keys.erase k).isEmpty = false :=
          fun l hl => Std.TreeSet.isEmpty_eq_false_iff_exists_mem.mpr ⟨l, hl⟩
        constructor
        · rintro ⟨rest, hrest, hl⟩
          simp only [Option.map_some, Option.filter_eq_some_iff, Option.some.injEq] at hrest
          obtain ⟨rfl, -⟩ := hrest
          rw [mem_erase_iff] at hl
          exact ⟨⟨keys, rfl, hl.1⟩, fun h => hl.2 h.2⟩
        · rintro ⟨⟨keys', hkeys', hl⟩, hne⟩
          obtain rfl := Option.some.inj hkeys'
          have hmem : l ∈ keys.erase k := mem_erase_iff.mpr ⟨hl, fun h => hne ⟨rfl, h⟩⟩
          exact ⟨keys.erase k, by simp [hnonempty l hmem], hmem⟩
  · rw [getElem?_drop_of_ne hq]
    simp [hq]

theorem tidy_drop (h : Tidy index) : Tidy (drop index p k) := by
  intro q keys hkeys
  by_cases hq : q = p
  · subst hq
    rw [getElem?_drop_self, Option.filter_eq_some_iff] at hkeys
    simpa using hkeys.2
  · rw [getElem?_drop_of_ne hq] at hkeys
    exact h q keys hkeys

/-! ### One key and the values it refers to -/

theorem has_foldl_add (refs : List P) :
    Has (refs.foldl (fun index p => add index p k) index) q l ↔
      Has index q l ∨ (q ∈ refs ∧ l = k) := by
  induction refs generalizing index with
  | nil => simp
  | cons p refs ih =>
      rw [List.foldl_cons, ih, has_add, List.mem_cons, or_assoc, or_and_right]

theorem tidy_foldl_add (refs : List P) (h : Tidy index) :
    Tidy (refs.foldl (fun index p => add index p k) index) := by
  induction refs generalizing index with
  | nil => exact h
  | cons p refs ih => exact ih (tidy_add h)

theorem has_foldl_drop (refs : List P) :
    Has (refs.foldl (fun index p => drop index p k) index) q l ↔
      Has index q l ∧ ¬ (q ∈ refs ∧ l = k) := by
  induction refs generalizing index with
  | nil => simp
  | cons p refs ih =>
      rw [List.foldl_cons, ih, has_drop, List.mem_cons, or_and_right, not_or, and_assoc]

theorem tidy_foldl_drop (refs : List P) (h : Tidy index) :
    Tidy (refs.foldl (fun index p => drop index p k) index) := by
  induction refs generalizing index with
  | nil => exact h
  | cons p refs ih => exact ih (tidy_drop h)

end InvertedIndex
end Ziftrcoin.Lib
