/-
Module: Ziftrcoin.Proofs.LimitedMap
Purpose: The two indexes of the limited map stay in step in every run, and the map keeps
  what it is to keep exactly in the runs that never insert a new key with fewer than two
  free places.
Trusted boundary: none
Main exports: Paired, limitedmap_runs
-/
import Ziftrcoin.Spec.LimitedMap
import Ziftrcoin.Lib.Outcome
import Mathlib.Data.List.Perm.Basic
import Mathlib.Data.List.Nodup
import Mathlib.Order.Nat

set_option linter.unusedSectionVars false

namespace Ziftrcoin.Spec

namespace limitedmap

open Ziftrcoin.Lib.Outcome

variable {K V : Type} [DecidableEq K] [LinearOrder V] {m m' : limitedmap K V}

/-- Each element of the map has one node in `rmap`, with its current value, and `rmap` is
in the order of the values. -/
structure Paired (m : limitedmap K V) : Prop where
  keys : (m.map.map Prod.fst).Nodup
  nodes : m.rmap.Perm (m.map.map Prod.swap)
  sorted : m.rmap.Pairwise fun a b => a.1 ≤ b.1

theorem paired_empty (n : ℕ) : Paired (empty n : limitedmap K V) :=
  ⟨List.nodup_nil, List.Perm.refl _, List.Pairwise.nil⟩

/-! ### The two indexes -/

theorem find_eq_some {k : K} {x : K × V} (h : m.find k = some x) : x ∈ m.map ∧ x.1 = k := by
  unfold find at h
  exact ⟨List.mem_of_find?_eq_some h, by simpa using List.find?_some h⟩

theorem find_eq_none {k : K} (h : m.find k = none) : k ∉ m.map.map Prod.fst := by
  unfold find at h
  rw [List.find?_eq_none] at h
  intro hk
  obtain ⟨x, hx, rfl⟩ := List.mem_map.mp hk
  exact h x hx (by simp)

/-- The element of a key, and the others. -/
theorem perm_eraseKey {map : List (K × V)} (hkeys : (map.map Prod.fst).Nodup) {x : K × V}
    (hx : x ∈ map) : map.Perm (x :: eraseKey x.1 map) := by
  obtain ⟨a, before, behind, -, ha, hmap, herase⟩ :=
    List.exists_of_eraseP (p := fun y : K × V => decide (y.1 = x.1)) hx (by simp)
  have hax : a = x := by
    refine List.inj_on_of_nodup_map hkeys ?_ hx (by simpa using ha)
    rw [hmap]
    exact List.mem_append_right _ List.mem_cons_self
  unfold eraseKey
  rw [herase, hmap, hax]
  exact List.perm_middle

theorem length_eraseKey {map : List (K × V)} (hkeys : (map.map Prod.fst).Nodup) {x : K × V}
    (hx : x ∈ map) : (eraseKey x.1 map).length + 1 = map.length :=
  (perm_eraseKey hkeys hx).length_eq.symm

theorem perm_insertNode (v : V) (k : K) (rmap : List (V × K)) :
    (insertNode v k rmap).Perm ((v, k) :: rmap) := by
  induction rmap with
  | nil => exact List.Perm.refl _
  | cons node rmap ih =>
      rw [insertNode]
      split_ifs
      · exact (ih.cons node).trans (List.Perm.swap _ _ _)
      · exact List.Perm.refl _

theorem sorted_insertNode {v : V} {k : K} {rmap : List (V × K)}
    (h : rmap.Pairwise fun a b => a.1 ≤ b.1) :
    (insertNode v k rmap).Pairwise fun a b => a.1 ≤ b.1 := by
  induction rmap with
  | nil => exact List.pairwise_singleton _ _
  | cons node rmap ih =>
      obtain ⟨hnode, hrest⟩ := List.pairwise_cons.mp h
      rw [insertNode]
      split_ifs with hle
      · refine List.pairwise_cons.mpr ⟨fun b hb => ?_, ih hrest⟩
        rcases List.mem_cons.mp ((perm_insertNode v k rmap).mem_iff.mp hb) with rfl | hb
        · exact hle
        · exact hnode b hb
      · refine List.pairwise_cons.mpr ⟨fun b hb => ?_, h⟩
        have hless : v ≤ node.1 := le_of_not_ge hle
        rcases List.mem_cons.mp hb with rfl | hb
        · exact hless
        · exact le_trans hless (hnode b hb)

/-- The elements up to their order, and nodes to match. -/
theorem Paired.of_perm {map : List (K × V)} {rmap : List (V × K)} {n : ℕ}
    (hkeys : (map.map Prod.fst).Nodup) (hnodes : rmap.Perm (map.map Prod.swap))
    (hsorted : rmap.Pairwise fun a b => a.1 ≤ b.1) : Paired ⟨map, rmap, n⟩ :=
  ⟨hkeys, hnodes, hsorted⟩

/-- The first node belongs to an element, and what is left are the nodes of the others. -/
theorem eraseFirst {map : List (K × V)} {node : V × K} {rmap : List (V × K)}
    (hkeys : (map.map Prod.fst).Nodup) (hnodes : (node :: rmap).Perm (map.map Prod.swap)) :
    (eraseKey node.2 map).length + 1 = map.length ∧
      ((eraseKey node.2 map).map Prod.fst).Nodup ∧
      rmap.Perm ((eraseKey node.2 map).map Prod.swap) := by
  have hx : (node.2, node.1) ∈ map := by
    obtain ⟨x, hx, hswap⟩ := List.mem_map.mp (hnodes.mem_iff.mp List.mem_cons_self)
    rw [← hswap]
    exact hx
  have hperm := perm_eraseKey hkeys hx
  refine ⟨length_eraseKey hkeys hx, ?_, ?_⟩
  · have hall := (hperm.map Prod.fst).nodup_iff.mp hkeys
    exact (List.nodup_cons.mp hall).2
  · exact List.Perm.cons_inv (hnodes.trans (hperm.map Prod.swap))

/-! ### Insertion -/

theorem keys_append {x : K × V} (hkeys : (m.map.map Prod.fst).Nodup) (hx : m.find x.1 = none) :
    ((m.map ++ [x]).map Prod.fst).Nodup := by
  rw [List.map_append]
  refine List.Nodup.append hkeys (List.nodup_singleton _) fun k hk hsingle => ?_
  rw [List.map_singleton, List.mem_singleton] at hsingle
  exact find_eq_none hx (hsingle ▸ hk)

/-- Without an eviction nothing is lost. -/
theorem insert_keeps (h : Paired m) {x : K × V} (hx : m.find x.1 = none)
    (hroom : ¬ (m.nMaxSize ≠ 0 ∧ m.size + 1 = m.nMaxSize)) :
    ∃ m', m.insert x = .ok m' ∧ Paired m' ∧ m'.map = m.map ++ [x] ∧
      m'.nMaxSize = m.nMaxSize := by
  have hsize : ({ m with map := m.map ++ [x] } : limitedmap K V).size = m.size + 1 := by
    simp [size]
  unfold insert
  rw [hx]
  dsimp only
  rw [hsize, if_neg hroom, ok_bind]
  refine ⟨_, rfl, Paired.of_perm (keys_append h.keys hx) ?_ (sorted_insertNode h.sorted), rfl, rfl⟩
  refine (perm_insertNode _ _ _).trans ?_
  rw [List.map_append]
  exact (h.nodes.cons _).trans (List.perm_append_singleton _ _).symm

/-- With one an old element goes, or `rmap` has none to take. -/
theorem insert_evicts (h : Paired m) {x : K × V} (hx : m.find x.1 = none)
    (hfull : m.nMaxSize ≠ 0 ∧ m.size + 1 = m.nMaxSize) :
    m.insert x = .error .beginOfEmpty ∨
      ∃ m', m.insert x = .ok m' ∧ Paired m' ∧ m'.size = m.size ∧ m'.nMaxSize = m.nMaxSize := by
  have hsize : ({ m with map := m.map ++ [x] } : limitedmap K V).size = m.size + 1 := by
    simp [size]
  unfold insert
  rw [hx]
  dsimp only
  rw [hsize, if_pos hfull]
  unfold eraseLowest
  cases hrmap : m.rmap with
  | nil => exact .inl rfl
  | cons node rmap =>
      right
      dsimp only
      rw [ok_bind]
      have hnodes := h.nodes
      have hsorted := h.sorted
      rw [hrmap] at hnodes hsorted
      have hall : (node :: insertNode x.2 x.1 rmap).Perm ((m.map ++ [x]).map Prod.swap) := by
        refine ((perm_insertNode _ _ _).cons node).trans ((List.Perm.swap _ _ _).trans ?_)
        rw [List.map_append]
        exact (hnodes.cons _).trans (List.perm_append_singleton _ _).symm
      obtain ⟨hlength, hkeys, hperm⟩ := eraseFirst (keys_append h.keys hx) hall
      refine ⟨_, rfl, Paired.of_perm hkeys hperm
        (sorted_insertNode (List.pairwise_cons.mp hsorted).2), ?_, rfl⟩
      rw [List.length_append, List.length_singleton] at hlength
      unfold size
      dsimp only
      omega

/-! ### The other calls -/

theorem eraseNode_eq (h : Paired m) {x : K × V} (hx : x ∈ m.map) :
    eraseNode x.2 x.1 m.rmap = .ok (m.rmap.erase (x.2, x.1)) :=
  if_pos (h.nodes.mem_iff.mpr (List.mem_map.mpr ⟨x, hx, rfl⟩))

/-- The nodes of the other elements. -/
theorem perm_erase_node (h : Paired m) {x : K × V} (hx : x ∈ m.map) :
    (m.rmap.erase (x.2, x.1)).Perm ((eraseKey x.1 m.map).map Prod.swap) := by
  have hmem : (x.2, x.1) ∈ m.rmap := h.nodes.mem_iff.mpr (List.mem_map.mpr ⟨x, hx, rfl⟩)
  apply List.Perm.cons_inv (a := (x.2, x.1))
  exact (List.perm_cons_erase hmem).symm.trans
    (h.nodes.trans ((perm_eraseKey h.keys hx).map Prod.swap))

theorem keys_eraseKey {map : List (K × V)} (hkeys : (map.map Prod.fst).Nodup) {x : K × V}
    (hx : x ∈ map) :
    ((eraseKey x.1 map).map Prod.fst).Nodup ∧ x.1 ∉ (eraseKey x.1 map).map Prod.fst := by
  have hall := ((perm_eraseKey hkeys hx).map Prod.fst).nodup_iff.mp hkeys
  exact ⟨(List.nodup_cons.mp hall).2, (List.nodup_cons.mp hall).1⟩

/-- The assertion of `erase` is not reached. -/
theorem erase_paired (h : Paired m) (k : K) :
    ∃ m', m.erase k = .ok m' ∧ Paired m' ∧ m'.size ≤ m.size ∧ m'.nMaxSize = m.nMaxSize := by
  unfold erase
  cases hfind : m.find k with
  | none => exact ⟨m, rfl, h, Nat.le_refl _, rfl⟩
  | some x =>
      obtain ⟨hx, rfl⟩ := find_eq_some hfind
      dsimp only
      rw [eraseNode_eq h hx, ok_bind]
      refine ⟨_, rfl, Paired.of_perm (keys_eraseKey h.keys hx).1 (perm_erase_node h hx)
        (h.sorted.sublist List.erase_sublist), ?_, rfl⟩
      have hlength := length_eraseKey h.keys hx
      unfold size
      dsimp only
      omega

/-- The element with its new value, and the others. -/
theorem perm_assign {map : List (K × V)} (hkeys : (map.map Prod.fst).Nodup) {x : K × V}
    (hx : x ∈ map) (v : V) : (assign x.1 v map).Perm ((x.1, v) :: eraseKey x.1 map) := by
  have hothers : assign x.1 v (eraseKey x.1 map) = eraseKey x.1 map := by
    conv_rhs => rw [← List.map_id (eraseKey x.1 map)]
    exact List.map_congr_left fun y hy => if_neg fun hsame =>
      (keys_eraseKey hkeys hx).2 (List.mem_map.mpr ⟨y, hy, hsame⟩)
  have hperm := (perm_eraseKey hkeys hx).map fun y => if y.1 = x.1 then (x.1, v) else y
  rw [List.map_cons, if_pos rfl] at hperm
  rw [← hothers]
  exact hperm

/-- Nor is that of `update`. -/
theorem update_paired (h : Paired m) (k : K) (v : V) :
    ∃ m', m.update k v = .ok m' ∧ Paired m' ∧ m'.size = m.size ∧ m'.nMaxSize = m.nMaxSize := by
  unfold update
  cases hfind : m.find k with
  | none => exact ⟨m, rfl, h, rfl, rfl⟩
  | some x =>
      obtain ⟨hx, rfl⟩ := find_eq_some hfind
      dsimp only
      rw [eraseNode_eq h hx, ok_bind]
      have hperm := perm_assign h.keys hx v
      refine ⟨_, rfl, Paired.of_perm ?_ ?_
        (sorted_insertNode (h.sorted.sublist List.erase_sublist)), ?_, rfl⟩
      · obtain ⟨hkeys, hnew⟩ := keys_eraseKey h.keys hx
        exact (hperm.map Prod.fst).nodup_iff.mpr (List.nodup_cons.mpr ⟨hnew, hkeys⟩)
      · exact (perm_insertNode _ _ _).trans
          (((perm_erase_node h hx).cons _).trans (hperm.map Prod.swap).symm)
      · unfold size assign
        dsimp only
        rw [List.length_map]

theorem shrink_paired {s : ℕ} {rmap : List (V × K)} {map : List (K × V)}
    (hkeys : (map.map Prod.fst).Nodup) (hnodes : rmap.Perm (map.map Prod.swap))
    (hsorted : rmap.Pairwise fun a b => a.1 ≤ b.1) :
    ∃ map' rmap', shrink s rmap map = .ok (map', rmap') ∧ Paired ⟨map', rmap', s⟩ ∧
      map'.length ≤ s := by
  induction rmap generalizing map with
  | nil =>
      have hnil : map = [] := by
        have hmap := hnodes.nil_eq.symm
        exact List.map_eq_nil_iff.mp hmap
      rw [hnil] at hkeys ⊢
      exact ⟨[], [], if_neg (Nat.not_lt_zero s), Paired.of_perm hkeys (List.Perm.refl _) hsorted,
        Nat.zero_le s⟩
  | cons node rmap ih =>
      rw [shrink]
      split_ifs with hmore
      · obtain ⟨-, hkeys', hnodes'⟩ := eraseFirst hkeys hnodes
        exact ih hkeys' hnodes' (List.pairwise_cons.mp hsorted).2
      · exact ⟨map, node :: rmap, rfl, Paired.of_perm hkeys hnodes hsorted, Nat.le_of_not_lt hmore⟩

theorem set_max_size_paired (h : Paired m) (s : ℕ) :
    ∃ m', m.set_max_size s = .ok m' ∧ Paired m' ∧ m'.nMaxSize = s ∧ (s ≠ 0 → m'.size ≤ s) := by
  unfold set_max_size
  by_cases hs : s = 0
  · rw [if_neg (not_not.mpr hs)]
    exact ⟨_, rfl, Paired.of_perm h.keys h.nodes h.sorted, rfl, fun hne => absurd hs hne⟩
  · obtain ⟨map', rmap', hrun, hpaired, hlength⟩ := shrink_paired (s := s) h.keys h.nodes h.sorted
    rw [if_pos hs, hrun, ok_bind]
    exact ⟨_, rfl, hpaired, rfl, fun _ => hlength⟩

/-! ### Runs -/

theorem insert_present {x y : K × V} (hx : m.find x.1 = some y) : m.insert x = .ok m := by
  unfold insert
  rw [hx]

/-- A call leaves the indexes in step; only an insertion can fail, and not in an
assertion. -/
theorem step_paired (h : Paired m) (call : Call K V) :
    (∃ m', m.step call = .ok m' ∧ Paired m') ∨ m.step call = .error .beginOfEmpty := by
  cases call with
  | insert x =>
      unfold step
      cases hfind : m.find x.1 with
      | some y => exact .inl ⟨m, insert_present hfind, h⟩
      | none =>
          by_cases hfull : m.nMaxSize ≠ 0 ∧ m.size + 1 = m.nMaxSize
          · rcases insert_evicts h hfind hfull with herror | ⟨m', hrun, hpaired, -⟩
            · exact .inr herror
            · exact .inl ⟨m', hrun, hpaired⟩
          · obtain ⟨m', hrun, hpaired, -⟩ := insert_keeps h hfind hfull
            exact .inl ⟨m', hrun, hpaired⟩
  | erase k =>
      obtain ⟨m', hrun, hpaired, -⟩ := erase_paired h k
      exact .inl ⟨m', hrun, hpaired⟩
  | update k v =>
      obtain ⟨m', hrun, hpaired, -⟩ := update_paired h k v
      exact .inl ⟨m', hrun, hpaired⟩
  | max_size s =>
      obtain ⟨m', hrun, hpaired, -⟩ := set_max_size_paired h s
      exact .inl ⟨m', hrun, hpaired⟩

theorem run_paired (h : Paired m) (calls : List (Call K V)) :
    (∃ m', m.run calls = .ok m' ∧ Paired m') ∨ m.run calls = .error .beginOfEmpty := by
  unfold run
  induction calls generalizing m with
  | nil => exact .inl ⟨m, rfl, h⟩
  | cons call calls ih =>
      rw [List.foldlM_cons]
      rcases step_paired h call with ⟨m', hstep, hpaired⟩ | herror
      · rw [hstep, ok_bind]
        exact ih hpaired
      · rw [herror]
        exact .inr rfl

/-- Of all elements the `n` with the highest values are kept. -/
def KeepsHighest (n : ℕ) (all kept : List (K × V)) : Prop :=
  ∃ dropped, all.Perm (kept ++ dropped) ∧ kept.length = n ∧
    ∀ x ∈ dropped, ∀ y ∈ kept, x.2 ≤ y.2

/-- What the insertion of an element with a new key is to do. -/
def InsertKeeps (m : limitedmap K V) (x : K × V) (m' : limitedmap K V) : Prop :=
  (m.nMaxSize ≠ 0 → m.size = m.nMaxSize → KeepsHighest m.nMaxSize (m.map ++ [x]) m'.map) ∧
    (m.nMaxSize = 0 ∨ m.size < m.nMaxSize → m'.map.Perm (m.map ++ [x]))

def Within (m : limitedmap K V) : Prop := m.nMaxSize ≠ 0 → m.size ≤ m.nMaxSize

/-- Every state of the run has its indexes in step and is within its limit, no call
fails, and every insertion keeps what it is to keep. -/
def Correct : limitedmap K V → List (Call K V) → Prop
  | m, [] => Paired m ∧ Within m
  | m, call :: calls =>
      Paired m ∧ Within m ∧ ∃ m', m.step call = .ok m' ∧
        (∀ x, call = .insert x → m.find x.1 = none → InsertKeeps m x m') ∧ Correct m' calls

/-- An insertion of a new key finds no limit or two free places. -/
def RoomFor (m : limitedmap K V) (call : Call K V) : Prop :=
  ∀ x, call = .insert x → m.find x.1 = none → m.nMaxSize = 0 ∨ m.size + 1 < m.nMaxSize

def Roomy : limitedmap K V → List (Call K V) → Prop
  | _, [] => True
  | m, call :: calls => RoomFor m call ∧ ∀ m', m.step call = .ok m' → Roomy m' calls

/-- With room every call does what it is to do. -/
theorem step_correct (h : Paired m) (hwithin : Within m) {call : Call K V}
    (hroom : RoomFor m call) :
    ∃ m', m.step call = .ok m' ∧ Paired m' ∧ Within m' ∧
      ∀ x, call = .insert x → m.find x.1 = none → InsertKeeps m x m' := by
  cases call with
  | insert x =>
      cases hfind : m.find x.1 with
      | some y =>
          refine ⟨m, insert_present hfind, h, hwithin, ?_⟩
          rintro _ ⟨⟩ hnone
          rw [hfind] at hnone
          cases hnone
      | none =>
          have hfree := hroom x rfl hfind
          obtain ⟨m', hrun, hpaired, hmap, hmax⟩ := insert_keeps h hfind (by omega)
          have hsize : m'.size = m.size + 1 := by
            unfold size
            rw [hmap, List.length_append, List.length_singleton]
          refine ⟨m', hrun, hpaired, fun hne => by omega, ?_⟩
          rintro _ ⟨⟩ -
          exact ⟨fun hne hfull => by omega, fun _ => by rw [hmap]⟩
  | erase k =>
      obtain ⟨m', hrun, hpaired, hsize, hmax⟩ := erase_paired h k
      refine ⟨m', hrun, hpaired, fun hne => ?_, by rintro _ ⟨⟩⟩
      have hle := hwithin (hmax ▸ hne)
      omega
  | update k v =>
      obtain ⟨m', hrun, hpaired, hsize, hmax⟩ := update_paired h k v
      refine ⟨m', hrun, hpaired, fun hne => ?_, by rintro _ ⟨⟩⟩
      have hle := hwithin (hmax ▸ hne)
      omega
  | max_size s =>
      obtain ⟨m', hrun, hpaired, hmax, hsize⟩ := set_max_size_paired h s
      refine ⟨m', hrun, hpaired, fun hne => ?_, by rintro _ ⟨⟩⟩
      have hle := hsize (hmax ▸ hne)
      omega

/-- Without room the insertion fails, or loses an element that there was a place for, or
leaves the map beyond its limit. -/
theorem step_without_room (h : Paired m) {call : Call K V} (hroom : ¬ RoomFor m call)
    (hwithin : Within m) {m' : limitedmap K V} (hstep : m.step call = .ok m')
    (hkeeps : ∀ x, call = .insert x → m.find x.1 = none → InsertKeeps m x m') :
    ¬ Within m' := by
  unfold RoomFor at hroom
  push Not at hroom
  obtain ⟨x, rfl, hfind, hne, hfew⟩ := hroom
  have hkeep := hkeeps x rfl hfind
  by_cases hlast : m.size + 1 = m.nMaxSize
  · -- the last free place: an element is evicted
    rcases insert_evicts h hfind ⟨hne, hlast⟩ with herror | ⟨m'', hrun, -, hsize, -⟩
    · change m.insert x = .ok m' at hstep
      rw [herror] at hstep
      cases hstep
    · have hsame : m'' = m' := by
        change m.insert x = .ok m' at hstep
        rw [hrun] at hstep
        exact Except.ok.inj hstep
      have hperm := (hkeep.2 (.inr (by omega))).length_eq
      rw [List.length_append, List.length_singleton] at hperm
      subst hsame
      unfold size at hsize
      omega
  · -- no free place: nothing is evicted
    obtain ⟨m'', hrun, -, hmap, hmax⟩ := insert_keeps h hfind (by omega)
    have hsame : m'' = m' := by
      change m.insert x = .ok m' at hstep
      rw [hrun] at hstep
      exact Except.ok.inj hstep
    subst hsame
    intro hwithin'
    have hle := hwithin hne
    have hle' := hwithin' (hmax ▸ hne)
    have hsize : m''.size = m.size + 1 := by
      unfold size
      rw [hmap, List.length_append, List.length_singleton]
    omega

theorem Correct.within {calls : List (Call K V)} (h : Correct m calls) : Within m := by
  cases calls with
  | nil => exact h.2
  | cons call calls => exact h.2.1

theorem correct_iff_roomy (h : Paired m) (hwithin : Within m) (calls : List (Call K V)) :
    Correct m calls ↔ Roomy m calls := by
  induction calls generalizing m with
  | nil => exact iff_of_true ⟨h, hwithin⟩ trivial
  | cons call calls ih =>
      constructor
      · rintro ⟨-, -, m', hstep, hkeeps, hrest⟩
        have hroom : RoomFor m call := by
          by_contra hroom
          exact step_without_room h hroom hwithin hstep hkeeps hrest.within
        refine ⟨hroom, fun m'' hstep' => ?_⟩
        obtain ⟨m₁, hrun, hpaired, hwithin', -⟩ := step_correct h hwithin hroom
        rw [hrun] at hstep hstep'
        obtain rfl := Except.ok.inj hstep
        obtain rfl := Except.ok.inj hstep'
        exact (ih hpaired hwithin').mp hrest
      · rintro ⟨hroom, hrest⟩
        obtain ⟨m', hrun, hpaired, hwithin', hkeeps⟩ := step_correct h hwithin hroom
        exact ⟨h, hwithin, m', hrun, hkeeps, (ih hpaired hwithin').mpr (hrest m' hrun)⟩

/-- In every run the indexes stay in step up to a failure, which is none of an assertion;
and the map does what it is for exactly in the runs that leave room. -/
theorem limitedmap_runs (nMaxSizeIn : ℕ) (calls : List (Call K V)) :
    ((∃ m', (empty nMaxSizeIn : limitedmap K V).run calls = .ok m' ∧ Paired m') ∨
      (empty nMaxSizeIn : limitedmap K V).run calls = .error .beginOfEmpty) ∧
    (Correct (empty nMaxSizeIn : limitedmap K V) calls ↔ Roomy (empty nMaxSizeIn) calls) :=
  ⟨run_paired (paired_empty nMaxSizeIn) calls,
    correct_iff_roomy (paired_empty nMaxSizeIn) (fun _ => Nat.zero_le _) calls⟩

/-- The second element takes the place of the first one, although two are allowed. -/
theorem limitedmap_loses :
    ¬ ∀ (nMaxSizeIn : ℕ) (calls : List (Call ℕ ℕ)), Correct (empty nMaxSizeIn) calls := by
  intro h
  obtain ⟨-, -, m', hstep, -, hrest⟩ := h 2 [.insert (0, 5), .insert (1, 6)]
  obtain rfl := Except.ok.inj hstep
  obtain ⟨-, -, m'', hstep', hkeeps, -⟩ := hrest
  obtain rfl := Except.ok.inj hstep'
  have hperm := ((hkeeps (1, 6) rfl rfl).2 (.inr (by decide))).length_eq
  exact absurd hperm (by decide)

end limitedmap
end Ziftrcoin.Spec
