/-
Module: Ziftrcoin.Lib.Worklist
Purpose: Loops over a queue that grows while it is worked off: each item may
  append others.  Such a loop comes to an end when what an item appends is below
  it in a well-founded relation, whatever else its work depends on; so does a walk
  from item to item.
Trusted boundary: none
Main exports: Worklist.run, Worklist.run_terminates, Worklist.run_invariant
-/
import Mathlib.Data.Finset.Card
import Mathlib.Logic.Hydra
import Mathlib.Logic.Relation

namespace Ziftrcoin.Lib

variable {S α : Type}

namespace Worklist

/-- Work off a queue: the item in front is processed, which changes the state
and appends items.  The result is the state at the end and all items in the order
they were processed; `none` means that the fuel did not suffice. -/
def run (process : S → α → S × List α) : (fuel : ℕ) → S → (queue : List α) →
    Option (S × List α)
  | _, s, [] => some (s, [])
  | 0, _, _ :: _ => none
  | fuel + 1, s, a :: rest =>
      (run process fuel (process s a).1 (rest ++ (process s a).2)).map fun result =>
        (result.1, a :: result.2)

variable {process : S → α → S × List α}

/-! ### Invariants -/

/-- What processing an item keeps, the loop keeps; and what holds of the items in
the queue, while the state changes, holds of all of them at the end. -/
theorem run_invariant {I : S → Prop} {P : S → α → Prop}
    (hprocess : ∀ s a, I s → P s a → I (process s a).1 ∧
      (∀ b, P s b → P (process s a).1 b) ∧ ∀ b ∈ (process s a).2, P (process s a).1 b) :
    ∀ {fuel : ℕ} {s s' : S} {queue done : List α}, run process fuel s queue = some (s', done) →
      I s → (∀ a ∈ queue, P s a) → I s' ∧ (∀ b, P s b → P s' b) ∧ ∀ a ∈ done, P s' a := by
  intro fuel
  induction fuel with
  | zero =>
      intro s s' queue done h hI hP
      cases queue with
      | nil =>
          obtain ⟨rfl, rfl⟩ := Prod.mk.inj (Option.some.inj h)
          exact ⟨hI, fun b hb => hb, hP⟩
      | cons a rest => cases h
  | succ fuel ih =>
      intro s s' queue done h hI hP
      cases queue with
      | nil =>
          obtain ⟨rfl, rfl⟩ := Prod.mk.inj (Option.some.inj h)
          exact ⟨hI, fun b hb => hb, hP⟩
      | cons a rest =>
          rw [run, Option.map_eq_some_iff] at h
          obtain ⟨⟨final, processed⟩, hrun, hresult⟩ := h
          obtain ⟨rfl, rfl⟩ := Prod.mk.inj hresult
          have ha : P s a := hP a List.mem_cons_self
          obtain ⟨hI', hkept, hnew⟩ := hprocess s a hI ha
          have hqueue : ∀ b ∈ rest ++ (process s a).2, P (process s a).1 b := by
            intro b hb
            rcases List.mem_append.mp hb with hb | hb
            · exact hkept b (hP b (List.mem_cons_of_mem a hb))
            · exact hnew b hb
          obtain ⟨hfinal, hlater, hdone⟩ := ih hrun hI' hqueue
          exact ⟨hfinal, fun b hb => hlater b (hkept b hb),
            List.forall_mem_cons.mpr ⟨hlater a (hkept a ha), hdone⟩⟩

/-- What each round keeps of the state and the queue holds of the state when the
queue is empty. -/
theorem run_queue {J : S → List α → Prop}
    (hround : ∀ s a rest, J s (a :: rest) → J (process s a).1 (rest ++ (process s a).2)) :
    ∀ {fuel : ℕ} {s s' : S} {queue done : List α}, run process fuel s queue = some (s', done) →
      J s queue → J s' [] := by
  intro fuel
  induction fuel with
  | zero =>
      intro s s' queue done h hJ
      cases queue with
      | nil =>
          obtain ⟨rfl, -⟩ := Prod.mk.inj (Option.some.inj h)
          exact hJ
      | cons a rest => cases h
  | succ fuel ih =>
      intro s s' queue done h hJ
      cases queue with
      | nil =>
          obtain ⟨rfl, -⟩ := Prod.mk.inj (Option.some.inj h)
          exact hJ
      | cons a rest =>
          rw [run, Option.map_eq_some_iff] at h
          obtain ⟨⟨final, processed⟩, hrun, hresult⟩ := h
          obtain ⟨rfl, -⟩ := Prod.mk.inj hresult
          exact ih hrun (hround s a rest hJ)

/-- Every item of the first queue is processed. -/
theorem mem_of_mem_queue :
    ∀ {fuel : ℕ} {s s' : S} {queue done : List α}, run process fuel s queue = some (s', done) →
      ∀ a ∈ queue, a ∈ done := by
  intro fuel
  induction fuel with
  | zero =>
      intro s s' queue done h a ha
      cases queue with
      | nil => cases ha
      | cons b rest => cases h
  | succ fuel ih =>
      intro s s' queue done h a ha
      cases queue with
      | nil => cases ha
      | cons b rest =>
          rw [run, Option.map_eq_some_iff] at h
          obtain ⟨⟨final, processed⟩, hrun, hresult⟩ := h
          obtain ⟨rfl, rfl⟩ := Prod.mk.inj hresult
          rcases List.mem_cons.mp ha with rfl | ha
          · exact List.mem_cons_self
          · exact List.mem_cons_of_mem b (ih hrun a (List.mem_append_left _ ha))

/-- More fuel gives the same result. -/
theorem run_mono : ∀ {fuel fuel' : ℕ} {s : S} {queue : List α} {result : S × List α},
    fuel ≤ fuel' → run process fuel s queue = some result →
    run process fuel' s queue = some result := by
  intro fuel
  induction fuel with
  | zero =>
      intro fuel' s queue result _ h
      cases queue with
      | nil => cases fuel' <;> exact h
      | cons a rest => cases h
  | succ fuel ih =>
      intro fuel' s queue result hfuel h
      obtain ⟨more, rfl⟩ : ∃ more, fuel' = more + 1 := ⟨fuel' - 1, by omega⟩
      cases queue with
      | nil => exact h
      | cons a rest =>
          rw [run, Option.map_eq_some_iff] at h ⊢
          obtain ⟨later, hrun, hresult⟩ := h
          exact ⟨later, ih (Nat.le_of_succ_le_succ hfuel) hrun, hresult⟩

/-! ### Termination -/

/-- With what an item appends below the item, the loop has a result, which every
large enough amount of fuel gives. -/
theorem run_terminates {r : α → α → Prop} (hr : WellFounded r) {I : S → Prop}
    (hprocess : ∀ s a, I s → I (process s a).1 ∧ ∀ b ∈ (process s a).2, r b a) {s : S}
    (hI : I s) (queue : List α) :
    ∃ result enough, ∀ fuel, enough ≤ fuel → run process fuel s queue = some result := by
  have hcut : ∀ items : Multiset α, ∀ (s : S) (queue : List α), I s → ↑queue = items →
      ∃ result enough, ∀ fuel, enough ≤ fuel → run process fuel s queue = some result := by
    intro items
    induction items using hr.cutExpand.induction with
    | _ items ih =>
        intro s queue hI hitems
        cases queue with
        | nil => exact ⟨(s, []), 0, fun fuel _ => by cases fuel <;> rfl⟩
        | cons a rest =>
            obtain ⟨hI', hbelow⟩ := hprocess s a hI
            have hless : Relation.CutExpand r ↑(rest ++ (process s a).2) items := by
              refine ⟨↑(process s a).2, a, fun b hb => hbelow b hb, ?_⟩
              rw [← hitems, ← Multiset.coe_add, ← Multiset.cons_coe, ← Multiset.singleton_add]
              exact (add_comm _ _).trans (add_assoc _ _ _).symm
            obtain ⟨result, enough, henough⟩ := ih _ hless _ _ hI' rfl
            refine ⟨(result.1, a :: result.2), enough + 1, fun fuel hfuel => ?_⟩
            cases fuel with
            | zero => omega
            | succ fuel =>
                rw [run, henough fuel (by omega)]
                rfl
  exact hcut _ s queue hI rfl

end Worklist

/-! ### Walks -/

namespace Walk

/-- Go on from item to item until there is no next one.  The next item may not be
there to be looked for, which ends the walk without a result, as does too little
fuel. -/
def run (next : α → Option (Option α)) : (fuel : ℕ) → α → Option α
  | 0, a => (next a).bind fun b => if b.isNone then some a else none
  | fuel + 1, a => (next a).bind fun b => b.elim (some a) (run next fuel)

/-- More fuel gives the same result. -/
theorem run_mono {next : α → Option (Option α)} : ∀ {fuel fuel' : ℕ} {a last : α},
    fuel ≤ fuel' → run next fuel a = some last → run next fuel' a = some last := by
  intro fuel
  induction fuel with
  | zero =>
      intro fuel' a last _ h
      obtain ⟨b, hb, hend⟩ := Option.bind_eq_some_iff.mp h
      cases b with
      | none => cases fuel' <;> simpa [run, hb] using hend
      | some c => cases hend
  | succ fuel ih =>
      intro fuel' a last hfuel h
      obtain ⟨more, rfl⟩ : ∃ more, fuel' = more + 1 := ⟨fuel' - 1, by omega⟩
      obtain ⟨b, hb, hstep⟩ := Option.bind_eq_some_iff.mp h
      rw [run, hb, Option.bind_some]
      cases b with
      | none => exact hstep
      | some c => exact ih (Nat.le_of_succ_le_succ hfuel) hstep

/-- A walk downwards in a well-founded relation comes to an end, at an item that
has no next one. -/
theorem run_terminates {next : α → Option (Option α)} {r : α → α → Prop} (hr : WellFounded r)
    {I : α → Prop}
    (hnext : ∀ a, I a → ∃ b, next a = some b ∧ ∀ c, b = some c → I c ∧ r c a) {a : α} (ha : I a) :
    ∃ last enough, I last ∧ next last = some none ∧
      ∀ fuel, enough ≤ fuel → run next fuel a = some last := by
  induction a using hr.induction with
  | _ a ih =>
      obtain ⟨b, hb, hbelow⟩ := hnext a ha
      cases b with
      | none =>
          refine ⟨a, 0, ha, hb, fun fuel _ => ?_⟩
          cases fuel with
          | zero =>
              rw [run, hb]
              rfl
          | succ fuel =>
              rw [run, hb]
              rfl
      | some c =>
          obtain ⟨hc, hless⟩ := hbelow c rfl
          obtain ⟨last, enough, hlast, hend, hrun⟩ := ih c hless hc
          refine ⟨last, enough + 1, hlast, hend, fun fuel hfuel => ?_⟩
          cases fuel with
          | zero => omega
          | succ fuel =>
              rw [run, hb]
              exact hrun fuel (by omega)

end Walk

/-- A relation whose smaller elements are among finitely many, and that has no
cycle, is well-founded. -/
theorem wellFounded_of_acyclic {r : α → α → Prop} {keys : Finset α}
    (hkeys : ∀ a b, r a b → a ∈ keys) (hacyclic : ∀ a, ¬ Relation.TransGen r a a) :
    WellFounded r := by
  classical
  let below : α → ℕ := fun a => (keys.filter fun k => Relation.TransGen r k a).card
  refine Subrelation.wf (fun {a b} hab => ?_) (measure below).wf
  refine Finset.card_lt_card (Finset.ssubset_iff_of_subset ?_ |>.mpr ⟨a, ?_, ?_⟩)
  · intro k hk
    obtain ⟨hk, hka⟩ := Finset.mem_filter.mp hk
    exact Finset.mem_filter.mpr ⟨hk, hka.tail hab⟩
  · exact Finset.mem_filter.mpr ⟨hkeys a b hab, .single hab⟩
  · exact fun ha => hacyclic a (Finset.mem_filter.mp ha).2

/-- Steps that only go down never lead back. -/
theorem not_transGen_of_lt [Preorder α] {r : α → α → Prop} (hr : ∀ a b, r a b → b < a) (a : α) :
    ¬ Relation.TransGen r a a := by
  have hdown : ∀ b, Relation.TransGen r a b → b < a := by
    intro b hchain
    induction hchain with
    | single hstep => exact hr _ _ hstep
    | tail _ hstep ih => exact (hr _ _ hstep).trans ih
  exact fun hchain => lt_irrefl a (hdown a hchain)

end Ziftrcoin.Lib
