/-
Module: Ziftrcoin.Lib.Merkle
Purpose: Binary hash trees over a list of leaves, built level by level, where an
  odd last node is paired with itself.  The pairing function is a parameter;
  what is needed of it is said for the nodes of the trees at hand only.
Trusted boundary: none
Main exports: up, level, width
-/
import Mathlib.Data.List.Nodup
import Mathlib.Data.Nat.Log
import Mathlib.Tactic.Ring

namespace Ziftrcoin.Lib.Merkle

variable {H : Type} (node : H → H → H)

/-- One level up. -/
def up : List H → List H
  | [] => []
  | [a] => [node a a]
  | a :: b :: rest => node a b :: up rest

/-- The `k`-th level over the leaves. -/
def level (leaves : List H) : ℕ → List H
  | 0 => leaves
  | k + 1 => up node (level leaves k)

/-- The number of nodes of the `k`-th level over `n` leaves. -/
def width (n k : ℕ) : ℕ := (n + 2 ^ k - 1) / 2 ^ k

/-! ### The shape of a tree -/

theorem length_up (nodes : List H) : (up node nodes).length = (nodes.length + 1) / 2 := by
  induction nodes using up.induct with
  | case1 => simp [up]
  | case2 a => simp [up]
  | case3 a b rest ih =>
      simp only [up, List.length_cons, ih]
      omega

theorem width_zero (n : ℕ) : width n 0 = n := by
  rw [width, pow_zero, Nat.div_one, Nat.add_sub_cancel]

theorem width_succ (n k : ℕ) : width n (k + 1) = (width n k + 1) / 2 := by
  have hpos : 0 < 2 ^ k := Nat.two_pow_pos k
  have hround : (n + 2 ^ k - 1) / 2 ^ k + 1 = (n + 2 ^ (k + 1) - 1) / 2 ^ k := by
    rw [← Nat.add_div_right _ hpos, pow_succ]
    congr 1
    omega
  rw [width, width, hround, Nat.div_div_eq_div_mul, pow_succ]

theorem length_level (leaves : List H) (k : ℕ) :
    (level node leaves k).length = width leaves.length k := by
  induction k with
  | zero => rw [level, width_zero]
  | succ k ih => rw [level, length_up, ih, width_succ]

theorem width_pos {n : ℕ} (hn : 0 < n) (k : ℕ) : 0 < width n k := by
  have hpos : 0 < 2 ^ k := Nat.two_pow_pos k
  exact Nat.div_pos (by omega) hpos

/-- The first level that is no wider than one node. -/
theorem width_le_one_iff {n k : ℕ} : width n k ≤ 1 ↔ n ≤ 2 ^ k := by
  have hpos : 0 < 2 ^ k := Nat.two_pow_pos k
  rw [width, ← Nat.lt_succ_iff, Nat.div_lt_iff_lt_mul hpos]
  omega

/-- A node is the pairing of the two below it, or of the one below it with
itself. -/
theorem up_getElem? (nodes : List H) (i : ℕ) :
    (up node nodes)[i]? = (nodes[2 * i]?).map fun a => node a ((nodes[2 * i + 1]?).getD a) := by
  induction nodes using up.induct generalizing i with
  | case1 => rfl
  | case2 a =>
      cases i with
      | zero => rfl
      | succ i => simp [up, Nat.mul_succ]
  | case3 a b rest ih =>
      cases i with
      | zero => rfl
      | succ i =>
          rw [up, List.getElem?_cons_succ, ih]
          rfl

theorem level_succ_getElem? (leaves : List H) (k i : ℕ) :
    (level node leaves (k + 1))[i]? = ((level node leaves k)[2 * i]?).map fun a =>
      node a (((level node leaves k)[2 * i + 1]?).getD a) :=
  up_getElem? node _ i

/-! ### Leaves below a node -/

/-- The leaves below a node. -/
def leavesBelow {α : Type} (leaves : List α) (k i : ℕ) : List α :=
  (leaves.drop (i * 2 ^ k)).take (2 ^ k)

/-- Different pairs of nodes from `S` have different parents. -/
def PairsApart (S : Set H) : Prop :=
  ∀ a ∈ S, ∀ b ∈ S, ∀ c ∈ S, ∀ d ∈ S, node a b = node c d → a = c ∧ b = d

variable {node} {S : Set H}

theorem mem_up {nodes : List H} {x : H} (hx : x ∈ up node nodes) :
    ∃ a ∈ nodes, ∃ b ∈ nodes, x = node a b := by
  induction nodes using up.induct with
  | case1 => simp [up] at hx
  | case2 a =>
      rw [up, List.mem_singleton] at hx
      exact ⟨a, by simp, a, by simp, hx⟩
  | case3 a b rest ih =>
      rw [up, List.mem_cons] at hx
      rcases hx with rfl | hx
      · exact ⟨a, by simp, b, by simp, rfl⟩
      · obtain ⟨c, hc, d, hd, rfl⟩ := ih hx
        exact ⟨c, by simp [hc], d, by simp [hd], rfl⟩

/-- The first children of the nodes of a level are different, so its nodes
are. -/
theorem up_nodup (hS : PairsApart node S) {nodes : List H} (hmem : ∀ x ∈ nodes, x ∈ S)
    (hnodup : nodes.Nodup) : (up node nodes).Nodup := by
  induction nodes using up.induct with
  | case1 => exact List.nodup_nil
  | case2 a => exact List.nodup_singleton _
  | case3 a b rest ih =>
      have hrest : ∀ x ∈ rest, x ∈ S := fun x hx => hmem x (by simp [hx])
      have hnodupRest : rest.Nodup := (List.nodup_cons.mp (List.nodup_cons.mp hnodup).2).2
      refine List.nodup_cons.mpr ⟨fun hup => ?_, ih hrest hnodupRest⟩
      obtain ⟨c, hc, d, hd, heq⟩ := mem_up hup
      have hac := (hS a (hmem a (by simp)) b (hmem b (by simp)) c (hrest c hc) d (hrest d hd)
        heq).1
      exact (List.nodup_cons.mp hnodup).1 (by simp [hac, hc])

/-- Only a list that ends with a node twice has the parents of another. -/
theorem up_injective (hS : PairsApart node S) {nodes nodes' : List H}
    (hmem : ∀ x ∈ nodes, x ∈ S) (hmem' : ∀ x ∈ nodes', x ∈ S) (hnodup : nodes.Nodup)
    (hnodup' : nodes'.Nodup) (heq : up node nodes = up node nodes') : nodes = nodes' := by
  induction nodes using up.induct generalizing nodes' with
  | case1 =>
      rcases nodes' with _ | ⟨c, _ | ⟨d, rest'⟩⟩
      · rfl
      · simp [up] at heq
      · simp [up] at heq
  | case2 a =>
      have ha := hmem a (by simp)
      rcases nodes' with _ | ⟨c, _ | ⟨d, rest'⟩⟩
      · simp [up] at heq
      · have hc := hmem' c (by simp)
        rw [(hS a ha a ha c hc c hc (List.cons.inj heq).1).1]
      · have hc := hmem' c (by simp)
        have hd := hmem' d (by simp)
        obtain ⟨rfl, rfl⟩ := hS a ha a ha c hc d hd (List.cons.inj heq).1
        simp at hnodup'
  | case3 a b rest ih =>
      have ha := hmem a (by simp)
      have hb := hmem b (by simp)
      rcases nodes' with _ | ⟨c, _ | ⟨d, rest'⟩⟩
      · simp [up] at heq
      · have hc := hmem' c (by simp)
        obtain ⟨rfl, rfl⟩ := hS a ha b hb c hc c hc (List.cons.inj heq).1
        simp at hnodup
      · have hc := hmem' c (by simp)
        have hd := hmem' d (by simp)
        obtain ⟨rfl, rfl⟩ := hS a ha b hb c hc d hd (List.cons.inj heq).1
        have hrest : rest = rest' := by
          refine ih (fun x hx => hmem x (by simp [hx])) (fun x hx => hmem' x (by simp [hx]))
            ?_ ?_ (List.cons.inj heq).2
          · exact (List.nodup_cons.mp (List.nodup_cons.mp hnodup).2).2
          · exact (List.nodup_cons.mp (List.nodup_cons.mp hnodup').2).2
        rw [hrest]

theorem level_nodup (hS : PairsApart node S) {leaves : List H} (hnodup : leaves.Nodup) :
    ∀ {k : ℕ}, (∀ j < k, ∀ x ∈ level node leaves j, x ∈ S) → (level node leaves k).Nodup
  | 0, _ => hnodup
  | k + 1, hmem =>
      up_nodup hS (hmem k (Nat.lt_succ_self k))
        (level_nodup hS hnodup fun j hj => hmem j (Nat.lt_succ_of_lt hj))

theorem level_ne_nil {leaves : List H} (hne : leaves ≠ []) (k : ℕ) :
    level node leaves k ≠ [] := by
  have hlength := length_level node leaves k
  have hpos := width_pos (List.length_pos_iff.mpr hne) k
  intro hnil
  rw [hnil, List.length_nil] at hlength
  omega

/-- A list is no higher level over another one, if its elements are no
parents. -/
theorem ne_level_of_leaf {leaves leaves' : List H} (hne : leaves ≠ [])
    (hleaf : ∀ x ∈ leaves, ∀ a ∈ S, ∀ b ∈ S, x ≠ node a b) {k : ℕ}
    (hmem' : ∀ x ∈ level node leaves' k, x ∈ S) :
    leaves ≠ level node leaves' (k + 1) := by
  rintro heq
  obtain ⟨x, hx⟩ := List.exists_mem_of_ne_nil _ hne
  obtain ⟨a, ha, b, hb, hnode⟩ := mem_up (heq ▸ hx)
  exact hleaf x hx a (hmem' a ha) b (hmem' b hb) hnode

/-- Two lists without repetition that meet after any numbers of levels are the
same, if no leaf is a parent. -/
theorem eq_of_level_eq (hS : PairsApart node S) {leaves leaves' : List H}
    (hnodup : leaves.Nodup) (hnodup' : leaves'.Nodup) (hne : leaves ≠ []) (hne' : leaves' ≠ [])
    (hleaf : ∀ x ∈ leaves ++ leaves', ∀ a ∈ S, ∀ b ∈ S, x ≠ node a b) {j k : ℕ}
    (hmem : ∀ i < j, ∀ x ∈ level node leaves i, x ∈ S)
    (hmem' : ∀ i < k, ∀ x ∈ level node leaves' i, x ∈ S)
    (heq : level node leaves j = level node leaves' k) : leaves = leaves' := by
  induction j generalizing k with
  | zero =>
      cases k with
      | zero => exact heq
      | succ k =>
          have hleaf' := fun x hx => hleaf x (List.mem_append_left _ hx)
          exact absurd heq (ne_level_of_leaf hne hleaf' (hmem' k (Nat.lt_succ_self k)))
  | succ j ih =>
      cases k with
      | zero =>
          have hleaf' := fun x hx => hleaf x (List.mem_append_right _ hx)
          exact absurd heq.symm (ne_level_of_leaf hne' hleaf' (hmem j (Nat.lt_succ_self j)))
      | succ k =>
          have hbelow : ∀ i < j, ∀ x ∈ level node leaves i, x ∈ S :=
            fun i hi => hmem i (Nat.lt_succ_of_lt hi)
          have hbelow' : ∀ i < k, ∀ x ∈ level node leaves' i, x ∈ S :=
            fun i hi => hmem' i (Nat.lt_succ_of_lt hi)
          refine ih hbelow hbelow' (up_injective hS ?_ ?_ ?_ ?_ heq)
          · exact hmem j (Nat.lt_succ_self j)
          · exact hmem' k (Nat.lt_succ_self k)
          · exact level_nodup hS hnodup hbelow
          · exact level_nodup hS hnodup' hbelow'

end Ziftrcoin.Lib.Merkle
