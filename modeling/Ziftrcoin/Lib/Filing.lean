/-
Module: Ziftrcoin.Lib.Filing
Purpose: Linked lists of records, one for each owner, with an index that finds
  a record by its key: whose list it is in, and in which cell.  Rules for
  filing a record, taking one out, and dismissing an owner.
Trusted boundary: none
Main exports: Cell, Linked, Linked.erase?
-/
import Mathlib.Data.List.Nodup
import Mathlib.Logic.Function.Basic

namespace Ziftrcoin.Lib

/-- A cell of a linked list.  An iterator is the cell it points at. -/
abbrev Cell := Nat

/-- A linked list: its cells in order, each with what it holds. -/
abbrev Linked (α : Type) := List (Cell × α)

namespace Linked

variable {α : Type}

def pushBack (xs : Linked α) (it : Cell) (a : α) : Linked α := xs ++ [(it, a)]

/-- Take out the cell that the iterator points at.  An iterator that points at
no cell of the list must not be used. -/
def erase? (xs : Linked α) (it : Cell) : Option (Linked α) :=
  if it ∈ xs.map Prod.fst then some (xs.eraseP fun x => x.1 == it) else none

@[simp] theorem length_pushBack (xs : Linked α) (it : Cell) (a : α) :
    (xs.pushBack it a).length = xs.length + 1 := by
  simp [pushBack]

theorem mem_pushBack {xs : Linked α} {it : Cell} {a : α} {x : Cell × α} :
    x ∈ xs.pushBack it a ↔ x ∈ xs ∨ x = (it, a) := by
  simp [pushBack]

theorem cells_pushBack {xs : Linked α} {it : Cell} {a : α}
    (h : (xs.map Prod.fst).Nodup) (hit : it ∉ xs.map Prod.fst) :
    ((xs.pushBack it a).map Prod.fst).Nodup := by
  rw [pushBack, List.map_append]
  apply List.Nodup.append h (List.nodup_singleton it)
  intro c hc hsingle
  rw [List.mem_singleton] at hsingle
  exact hit (hsingle ▸ hc)

theorem mem_eraseP_iff {xs : Linked α} (h : (xs.map Prod.fst).Nodup) {it : Cell}
    {x : Cell × α} :
    x ∈ xs.eraseP (fun y => y.1 == it) ↔ x ∈ xs ∧ x.1 ≠ it := by
  induction xs with
  | nil => simp
  | cons y ys ih =>
      rw [List.map_cons, List.nodup_cons] at h
      by_cases hy : y.1 = it
      · rw [List.eraseP_cons_of_pos (by simpa using hy)]
        constructor
        · intro hx
          refine ⟨List.mem_cons_of_mem y hx, fun hxit => h.1 ?_⟩
          rw [hy, ← hxit]
          exact List.mem_map_of_mem hx
        · rintro ⟨hx, hxit⟩
          rcases List.mem_cons.mp hx with rfl | hx
          · exact absurd hy hxit
          · exact hx
      · rw [List.eraseP_cons_of_neg (by simpa using hy), List.mem_cons,
          List.mem_cons, ih h.2]
        constructor
        · rintro (rfl | ⟨hx, hxit⟩)
          · exact ⟨.inl rfl, hy⟩
          · exact ⟨.inr hx, hxit⟩
        · rintro ⟨rfl | hx, hxit⟩
          · exact .inl rfl
          · exact .inr ⟨hx, hxit⟩

/-- What an erasure through a valid iterator leaves. -/
theorem erase?_spec {xs : Linked α} (h : (xs.map Prod.fst).Nodup) {it : Cell}
    {a : α} (hit : (it, a) ∈ xs) :
    ∃ rest, xs.erase? it = some rest ∧ rest.length + 1 = xs.length ∧
      (rest.map Prod.fst).Nodup ∧ ∀ x, x ∈ rest ↔ x ∈ xs ∧ x.1 ≠ it := by
  have hcell : it ∈ xs.map Prod.fst := List.mem_map_of_mem hit
  refine ⟨_, if_pos hcell, ?_, ?_, fun x => mem_eraseP_iff h⟩
  · have hlength := List.length_eraseP_of_mem (p := fun y => y.1 == it) hit
      (by simp)
    have hpos : 0 < xs.length := List.length_pos_of_mem hit
    omega
  · exact h.sublist (List.eraseP_sublist.map Prod.fst)

end Linked

/-! ### Filed records -/

variable {κ ω α : Type} {key : α → κ} {lists : ω → Linked α}
  {index : κ → Option (ω × Cell)}

/-- The index finds exactly the records that are in the lists. -/
structure Filed (key : α → κ) (lists : ω → Linked α)
    (index : κ → Option (ω × Cell)) : Prop where
  finds : ∀ {k : κ} {o : ω} {it : Cell},
    index k = some (o, it) ↔ ∃ a, (it, a) ∈ lists o ∧ key a = k
  cells : ∀ o, ((lists o).map Prod.fst).Nodup

namespace Filed

theorem empty : Filed key (fun _ : ω => []) fun _ => none :=
  ⟨by simp, fun _ => List.nodup_nil⟩

theorem index_eq (h : Filed key lists index) {o : ω} {it : Cell} {a : α}
    (hmem : (it, a) ∈ lists o) : index (key a) = some (o, it) :=
  h.finds.mpr ⟨a, hmem, rfl⟩

/-- Two records with one key are in one list and in one cell. -/
theorem unique (h : Filed key lists index) {o o' : ω} {it it' : Cell} {a a' : α}
    (hmem : (it, a) ∈ lists o) (hmem' : (it', a') ∈ lists o')
    (hkey : key a = key a') : o = o' ∧ it = it' := by
  have heq := h.index_eq hmem
  rw [hkey, h.index_eq hmem'] at heq
  injection heq with heq
  injection heq with ho hit
  exact ⟨ho.symm, hit.symm⟩

theorem index_eq_none (h : Filed key lists index) {k : κ} :
    index k = none ↔ ∀ o, ∀ x ∈ lists o, key x.2 ≠ k := by
  constructor
  · intro hnone o x hx hkey
    rw [← hkey, h.index_eq hx] at hnone
    cases hnone
  · intro hall
    rcases hk : index k with _ | ⟨o, it⟩
    · rfl
    · obtain ⟨a, hmem, hkey⟩ := h.finds.mp hk
      exact absurd hkey (hall o _ hmem)

section Changes

variable [DecidableEq κ] [DecidableEq ω]

theorem pushBack (h : Filed key lists index) {o : ω} {it : Cell} {a : α}
    (hnew : index (key a) = none) (hit : it ∉ (lists o).map Prod.fst) :
    Filed key (Function.update lists o ((lists o).pushBack it a))
      (Function.update index (key a) (some (o, it))) := by
  constructor
  · intro k o' it'
    by_cases hk : k = key a
    · subst hk
      rw [Function.update_self]
      constructor
      · intro heq
        injection heq with heq
        injection heq with ho hcell
        subst ho hcell
        rw [Function.update_self]
        exact ⟨a, Linked.mem_pushBack.mpr (.inr rfl), rfl⟩
      · rintro ⟨b, hmem, hkey⟩
        by_cases ho : o' = o
        · subst ho
          rw [Function.update_self, Linked.mem_pushBack] at hmem
          rcases hmem with hmem | hmem
          · exact absurd hkey (h.index_eq_none.mp hnew _ _ hmem)
          · injection hmem with hcell _
            rw [hcell]
        · rw [Function.update_of_ne ho] at hmem
          exact absurd hkey (h.index_eq_none.mp hnew _ _ hmem)
    · rw [Function.update_of_ne hk, h.finds]
      by_cases ho : o' = o
      · subst ho
        rw [Function.update_self]
        constructor
        · rintro ⟨b, hmem, hkey⟩
          exact ⟨b, Linked.mem_pushBack.mpr (.inl hmem), hkey⟩
        · rintro ⟨b, hmem, hkey⟩
          rcases Linked.mem_pushBack.mp hmem with hmem | hmem
          · exact ⟨b, hmem, hkey⟩
          · injection hmem with _ hb
            exact absurd (hb ▸ hkey).symm hk
      · rw [Function.update_of_ne ho]
  · intro o'
    by_cases ho : o' = o
    · subst ho
      rw [Function.update_self]
      exact Linked.cells_pushBack (h.cells o') hit
    · rw [Function.update_of_ne ho]
      exact h.cells o'

/-- The iterator that the index gives for a key is valid, and what is left
after both are gone is filed. -/
theorem erase (h : Filed key lists index) {k : κ} {o : ω} {it : Cell}
    (hk : index k = some (o, it)) :
    ∃ rest, (lists o).erase? it = some rest ∧
      rest.length + 1 = (lists o).length ∧
      (∀ x ∈ rest, x ∈ lists o) ∧
      Filed key (Function.update lists o rest) (Function.update index k none) := by
  obtain ⟨a, hmem, hkey⟩ := h.finds.mp hk
  obtain ⟨rest, herase, hlength, hcells, hrest⟩ :=
    Linked.erase?_spec (h.cells o) hmem
  refine ⟨rest, herase, hlength, fun x hx => ((hrest x).mp hx).1, ?_, ?_⟩
  · intro k' o' it'
    have hother : ∀ b, (it', b) ∈ lists o' → key b = k → o' = o ∧ it' = it :=
      fun b hb hbk => h.unique hb hmem (hbk.trans hkey.symm)
    by_cases hk' : k' = k
    · subst hk'
      rw [Function.update_self]
      constructor
      · intro hnone
        cases hnone
      · rintro ⟨b, hb, hbk⟩
        by_cases ho : o' = o
        · subst ho
          rw [Function.update_self, hrest] at hb
          exact absurd (hother b hb.1 hbk).2 hb.2
        · rw [Function.update_of_ne ho] at hb
          exact absurd (hother b hb hbk).1 ho
    · rw [Function.update_of_ne hk', h.finds]
      by_cases ho : o' = o
      · subst ho
        rw [Function.update_self]
        constructor
        · rintro ⟨b, hb, hbk⟩
          refine ⟨b, (hrest _).mpr ⟨hb, fun hcell => hk' ?_⟩, hbk⟩
          have hb' : index k' = some (o', it) := h.finds.mpr ⟨b, hcell ▸ hb, hbk⟩
          obtain ⟨b', hb'mem, hb'key⟩ := h.finds.mp hb'
          have hsame : (it, b') = (it, a) :=
            List.inj_on_of_nodup_map (h.cells o') hb'mem hmem rfl
          injection hsame with _ hsame
          rw [← hb'key, hsame, hkey]
        · rintro ⟨b, hb, hbk⟩
          exact ⟨b, ((hrest _).mp hb).1, hbk⟩
      · rw [Function.update_of_ne ho]
  · intro o'
    by_cases ho : o' = o
    · subst ho
      rw [Function.update_self]
      exact hcells
    · rw [Function.update_of_ne ho]
      exact h.cells o'

omit [DecidableEq ω] in
/-- Forgetting every key of a list, one after the other. -/
theorem foldl_forget (key : α → κ) (xs : Linked α)
    (index : κ → Option (ω × Cell)) (k : κ) :
    xs.foldl (fun index x => Function.update index (key x.2) none) index k =
      if k ∈ xs.map (fun x => key x.2) then none else index k := by
  induction xs generalizing index with
  | nil => simp
  | cons x xs ih =>
      rw [List.foldl_cons, ih, List.map_cons]
      by_cases hk : k ∈ xs.map fun x => key x.2
      · rw [if_pos hk, if_pos (List.mem_cons_of_mem _ hk)]
      · rw [if_neg hk]
        by_cases hx : k = key x.2
        · rw [hx, Function.update_self, if_pos List.mem_cons_self]
        · rw [Function.update_of_ne hx,
            if_neg fun hmem => (List.mem_cons.mp hmem).elim hx hk]

/-- An owner leaves together with all that is filed under it. -/
theorem dismiss (h : Filed key lists index) (o : ω) :
    Filed key (Function.update lists o [])
      ((lists o).foldl (fun index x => Function.update index (key x.2) none)
        index) := by
  constructor
  · intro k o' it
    rw [foldl_forget]
    by_cases hk : k ∈ (lists o).map fun x => key x.2
    · rw [if_pos hk]
      obtain ⟨x, hx, rfl⟩ := List.mem_map.mp hk
      constructor
      · intro hnone
        cases hnone
      · rintro ⟨a, ha, hkey⟩
        by_cases ho : o' = o
        · subst ho
          rw [Function.update_self] at ha
          cases ha
        · rw [Function.update_of_ne ho] at ha
          exact absurd (h.unique ha hx hkey).1 ho
    · rw [if_neg hk, h.finds]
      by_cases ho : o' = o
      · subst ho
        rw [Function.update_self]
        constructor
        · rintro ⟨a, ha, hkey⟩
          exact absurd (List.mem_map.mpr ⟨(it, a), ha, hkey⟩) hk
        · rintro ⟨a, ha, _⟩
          cases ha
      · rw [Function.update_of_ne ho]
  · intro o'
    by_cases ho : o' = o
    · subst ho
      rw [Function.update_self]
      exact List.nodup_nil
    · rw [Function.update_of_ne ho]
      exact h.cells o'

end Changes

end Filed

end Ziftrcoin.Lib
