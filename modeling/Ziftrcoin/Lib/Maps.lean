/-
Module: Ziftrcoin.Lib.Maps
Purpose: What is found in a map after an insertion or a removal, with equality of
  keys in place of the comparison, and its keys as a list.
Trusted boundary: none
Main exports: lookup_empty_ne, lookup_insert, lookup_insert_iff
-/
import Mathlib.Tactic.Linarith.Parsing

namespace Ziftrcoin.Lib

variable {K V : Type} [Ord K] [Std.TransOrd K] [Std.LawfulEqOrd K] {map : Std.TreeMap K V}

omit [Std.LawfulEqOrd K] in
theorem lookup_empty_ne (a : K) (b : V) : (∅ : Std.TreeMap K V)[a]? ≠ some b := by
  rw [Std.TreeMap.getElem?_emptyc]
  exact (Option.some_ne_none b).symm

theorem lookup_insert [DecidableEq K] (k : K) (v : V) (a : K) :
    (map.insert k v)[a]? = if a = k then some v else map[a]? := by
  rw [Std.TreeMap.getElem?_insert]
  by_cases ha : a = k
  · rw [if_pos (Std.ReflCmp.cmp_eq_of_eq ha.symm), if_pos ha]
  · rw [if_neg fun hsame => ha (Std.LawfulEqCmp.eq_of_compare hsame).symm, if_neg ha]

theorem lookup_insert_iff {k a : K} {v b : V} :
    (map.insert k v)[a]? = some b ↔ (a = k ∧ b = v) ∨ (a ≠ k ∧ map[a]? = some b) := by
  classical
  rw [lookup_insert]
  split_ifs with ha
  · simp [ha, eq_comm]
  · simp [ha]

theorem lookup_erase_iff {k a : K} {b : V} :
    (map.erase k)[a]? = some b ↔ a ≠ k ∧ map[a]? = some b := by
  rw [Std.TreeMap.getElem?_erase]
  by_cases ha : a = k
  · rw [if_pos (Std.ReflCmp.cmp_eq_of_eq ha.symm)]
    exact iff_of_false (Option.some_ne_none b).symm fun h => h.1 ha
  · rw [if_neg fun hsame => ha (Std.LawfulEqCmp.eq_of_compare hsame).symm]
    exact (and_iff_right ha).symm

omit [Std.LawfulEqOrd K] in
theorem nodup_keys (map : Std.TreeMap K V) : (map.toList.map Prod.fst).Nodup := by
  refine List.pairwise_map.mpr (Std.TreeMap.distinct_keys_toList.imp ?_)
  intro entry other hne hsame
  exact hne (Std.ReflCmp.cmp_eq_of_eq hsame)

end Ziftrcoin.Lib
