/-
Module: Ziftrcoin.Lib.Buckets
Purpose: Lists of buckets, which are sets or lists: in how many of them an
  element is, and what changing a single bucket does to that.
Trusted boundary: none
Main exports: holders, holders_insert, holders_erase
-/
import Mathlib.Data.List.Count
import Mathlib.Data.List.Perm.Basic
import Mathlib.Tactic.Linarith.Parsing

namespace Ziftrcoin.Lib

/-! ### Lists of lists -/

section

variable {α : Type}

/-- What is in the other buckets does not matter for what a bucket is replaced by. -/
theorem perm_flatten_set : ∀ {bs : List (List α)} {k : ℕ} {b : List α}, bs[k]? = some b →
    ∃ rest, bs.flatten.Perm (b ++ rest) ∧ ∀ b', (bs.set k b').flatten.Perm (b' ++ rest)
  | b :: bs, 0, _, rfl => ⟨bs.flatten, .refl _, fun _ => .refl _⟩
  | c :: bs, k + 1, b, h => by
      have hb : bs[k]? = some b := h
      obtain ⟨rest, hold, hnew⟩ := perm_flatten_set hb
      refine ⟨c ++ rest, ?_, fun b' => ?_⟩
      · exact (hold.append_left c).trans (List.perm_append_comm_assoc c b rest)
      · exact ((hnew b').append_left c).trans (List.perm_append_comm_assoc c b' rest)

/-- What is in some bucket. -/
theorem mem_flatten_iff_getD {bs : List (List α)} {a : α} :
    a ∈ bs.flatten ↔ ∃ k, a ∈ bs.getD k [] := by
  rw [List.mem_flatten]
  constructor
  · rintro ⟨b, hb, ha⟩
    obtain ⟨k, hk⟩ := List.mem_iff_getElem?.mp hb
    refine ⟨k, ?_⟩
    rw [List.getD_eq_getElem?_getD, hk]
    exact ha
  · rintro ⟨k, ha⟩
    rw [List.getD_eq_getElem?_getD] at ha
    cases hk : bs[k]? with
    | none =>
        rw [hk] at ha
        exact absurd ha List.not_mem_nil
    | some b =>
        rw [hk] at ha
        exact ⟨b, List.mem_of_getElem? hk, ha⟩

/-- Buckets of at most so many elements hold at most that many in all. -/
theorem length_flatten_le {size : ℕ} {bs : List (List α)} (h : ∀ b ∈ bs, b.length ≤ size) :
    bs.flatten.length ≤ bs.length * size := by
  induction bs with
  | nil => exact Nat.zero_le _
  | cons b bs ih =>
      have hb := h b List.mem_cons_self
      have hrest := ih fun c hc => h c (List.mem_cons_of_mem _ hc)
      rw [List.flatten_cons, List.length_append, List.length_cons, Nat.succ_mul]
      omega

/-- A bucket is changed into one with another measure. -/
theorem countP_modify {p : α → Bool} {f : α → α} : ∀ {bs : List α} {k : ℕ} {b : α},
    bs[k]? = some b →
      (bs.modify k f).countP p + (if p b then 1 else 0) =
        bs.countP p + if p (f b) then 1 else 0
  | b :: bs, 0, _, rfl => by
      simp only [List.modify_zero_cons, List.countP_cons]
      omega
  | c :: bs, k + 1, b, h => by
      have hb : bs[k]? = some b := h
      have ih := countP_modify (p := p) (f := f) hb
      simp only [List.modify_succ_cons, List.countP_cons]
      omega

/-- A bucket is changed, and all buckets are as they should be. -/
theorem forall_mem_modify {P : α → Prop} {bs : List α} {b : α} {f : α → α} {i : ℕ}
    (h : ∀ b ∈ bs, P b) (hb : bs[i]? = some b) (hf : P (f b)) : ∀ b ∈ bs.modify i f, P b := by
  intro c hc
  obtain ⟨j, hj⟩ := List.mem_iff_getElem?.mp hc
  rw [List.getElem?_modify] at hj
  by_cases hij : i = j
  · subst hij
    rw [hb] at hj
    obtain rfl : f b = c := by simpa using hj
    exact hf
  · have hget : bs[j]? = some c := by simpa [hij] using hj
    exact h c (List.mem_of_getElem? hget)

end

/-! ### Lists of sets -/

section

variable {α : Type} [Ord α] {bs : List (Std.TreeSet α)} {b : Std.TreeSet α} {a a' : α} {k : ℕ}

/-- The number of buckets that an element is in. -/
def holders (bs : List (Std.TreeSet α)) (a : α) : ℕ := bs.countP fun b => b.contains a

theorem holders_pos : 0 < holders bs a ↔ ∃ b ∈ bs, b.contains a = true := by
  rw [holders, List.countP_pos_iff]

variable [Std.TransOrd α] [Std.LawfulEqOrd α]

theorem contains_insert_iff : (b.insert a).contains a' = true ↔ a = a' ∨ b.contains a' = true := by
  simp

theorem contains_erase_iff :
    (b.erase a).contains a' = true ↔ a ≠ a' ∧ b.contains a' = true := by
  simp

theorem nodup_toList (b : Std.TreeSet α) : b.toList.Nodup := by
  refine List.Pairwise.imp ?_ Std.TreeSet.distinct_toList
  intro x y hxy heq
  exact hxy (by rw [heq]; exact Std.ReflOrd.compare_self)

variable [DecidableEq α]

theorem holders_insert (hb : bs[k]? = some b) (ha : b.contains a = false) :
    holders (bs.modify k fun b => b.insert a) a' =
      holders bs a' + if a' = a then 1 else 0 := by
  have h := countP_modify (p := fun b => b.contains a') (f := fun b => b.insert a) hb
  unfold holders
  by_cases haa : a' = a
  · subst haa
    simpa [ha] using h
  · have hinsert : (b.insert a).contains a' = b.contains a' := by
      rw [Bool.eq_iff_iff, contains_insert_iff]
      simp [Ne.symm haa]
    rw [hinsert] at h
    simpa [haa] using h

theorem holders_erase (hb : bs[k]? = some b) (ha : b.contains a = true) :
    holders (bs.modify k fun b => b.erase a) a' + (if a' = a then 1 else 0) =
      holders bs a' := by
  have h := countP_modify (p := fun b => b.contains a') (f := fun b => b.erase a) hb
  unfold holders
  by_cases haa : a' = a
  · subst haa
    simpa [ha] using h
  · have herase : (b.erase a).contains a' = b.contains a' := by
      rw [Bool.eq_iff_iff, contains_erase_iff]
      simp [Ne.symm haa]
    rw [herase] at h
    simpa [haa] using h

theorem holders_eraseAll (bs : List (Std.TreeSet α)) (a a' : α) :
    holders (bs.map fun b => b.erase a) a' = if a' = a then 0 else holders bs a' := by
  unfold holders
  rw [List.countP_map]
  split
  · rename_i haa
    subst haa
    rw [List.countP_eq_zero]
    intro b _
    simp
  · rename_i haa
    apply List.countP_congr
    intro b _
    rw [Function.comp_apply, contains_erase_iff]
    simp [Ne.symm haa]

/-- An element is walked over once for each bucket that it is in. -/
theorem count_flatMap_toList (bs : List (Std.TreeSet α)) (a : α) :
    (bs.flatMap Std.TreeSet.toList).count a = holders bs a := by
  unfold holders
  induction bs with
  | nil => rfl
  | cons b bs ih =>
      rw [List.flatMap_cons, List.count_append, ih, List.countP_cons, Nat.add_comm]
      congr 1
      by_cases ha : b.contains a = true
      · rw [if_pos ha, (nodup_toList b).count, if_pos (Std.TreeSet.mem_toList.mpr ha)]
      · rw [if_neg ha, List.count_eq_zero]
        intro hmem
        exact ha (Std.TreeSet.mem_toList.mp hmem)

end

end Ziftrcoin.Lib
