/-
Module: Ziftrcoin.Lib.Ranking
Purpose: Rankings by a level, then by a key that counts only between members of
  one group, then by arrival: when they are strict orders.  And the best
  element of a list under a strict order.
Trusted boundary: none
Main exports: StrictTotalOn, Ranking, Ranking.Worse
-/
import Mathlib.Data.Set.Function
import Mathlib.Order.Defs.LinearOrder

namespace Ziftrcoin.Lib

/-! ### Strict orders on a set -/

/-- A strict order on a set in which any two different elements compare. -/
structure StrictTotalOn {α : Type} (R : α → α → Prop) (S : Set α) : Prop where
  irrefl : ∀ a ∈ S, ¬ R a a
  trans : ∀ a ∈ S, ∀ b ∈ S, ∀ c ∈ S, R a b → R b c → R a c
  total : ∀ a ∈ S, ∀ b ∈ S, a ≠ b → R a b ∨ R b a

namespace StrictTotalOn

variable {α : Type} {R : α → α → Prop} {S : Set α}

theorem asymm (h : StrictTotalOn R S) {a b : α} (ha : a ∈ S) (hb : b ∈ S)
    (hab : R a b) : ¬ R b a := fun hba =>
  h.irrefl a ha (h.trans a ha b hb a ha hab hba)

/-- Elements that do not compare are equal, so this is a strict weak order. -/
theorem incomparable_trans (h : StrictTotalOn R S) {a b c : α} (ha : a ∈ S)
    (hb : b ∈ S) (hc : c ∈ S) (hab : ¬ R a b ∧ ¬ R b a)
    (hbc : ¬ R b c ∧ ¬ R c b) : ¬ R a c ∧ ¬ R c a := by
  have heq : a = b := by
    by_contra hne
    rcases h.total a ha b hb hne with hR | hR
    · exact hab.1 hR
    · exact hab.2 hR
  have heq' : b = c := by
    by_contra hne
    rcases h.total b hb c hc hne with hR | hR
    · exact hbc.1 hR
    · exact hbc.2 hR
  subst heq heq'
  exact hab

theorem mono (h : StrictTotalOn R S) {T : Set α} (hT : T ⊆ S) :
    StrictTotalOn R T where
  irrefl := fun a ha => h.irrefl a (hT ha)
  trans := fun a ha b hb c hc => h.trans a (hT ha) b (hT hb) c (hT hc)
  total := fun a ha b hb => h.total a (hT ha) b (hT hb)

theorem congr (h : StrictTotalOn R S) {R' : α → α → Prop}
    (hR : ∀ a ∈ S, ∀ b ∈ S, R a b ↔ R' a b) : StrictTotalOn R' S where
  irrefl := fun a ha h' => h.irrefl a ha ((hR a ha a ha).mpr h')
  trans := fun a ha b hb c hc hab hbc => (hR a ha c hc).mp
    (h.trans a ha b hb c hc ((hR a ha b hb).mpr hab) ((hR b hb c hc).mpr hbc))
  total := fun a ha b hb hne => by
    rcases h.total a ha b hb hne with hab | hba
    · exact .inl ((hR a ha b hb).mp hab)
    · exact .inr ((hR b hb a ha).mp hba)

end StrictTotalOn

/-! ### Rankings -/

/-- What a ranking looks at: a level, a group and a key within it, and the time
of arrival. -/
structure Ranking (α W G K A : Type) where
  level : α → W
  group : α → Option G
  key : α → K
  arrival : α → A

namespace Ranking

section Groups

variable {α W G K A : Type}

/-- Both belong to a group, and to the same one. -/
def SameGroup (r : Ranking α W G K A) (a b : α) : Prop :=
  ∃ g, r.group a = some g ∧ r.group b = some g

variable {r : Ranking α W G K A} {a b c : α}

theorem SameGroup.symm (h : r.SameGroup a b) : r.SameGroup b a := by
  obtain ⟨g, ha, hb⟩ := h
  exact ⟨g, hb, ha⟩

theorem SameGroup.trans (h : r.SameGroup a b) (h' : r.SameGroup b c) :
    r.SameGroup a c := by
  obtain ⟨g, ha, hb⟩ := h
  obtain ⟨g', hb', hc⟩ := h'
  rw [hb, Option.some.injEq] at hb'
  subst hb'
  exact ⟨g, ha, hc⟩

end Groups

variable {α W G K A : Type} [LinearOrder W] [LinearOrder K] [LinearOrder A]

/-- Lower by level; else, within one group, by key; else, by later arrival. -/
def Worse (r : Ranking α W G K A) (a b : α) : Prop :=
  r.level a < r.level b ∨ r.level a = r.level b ∧
    ((r.SameGroup a b ∧ r.key a < r.key b) ∨
      (¬ (r.SameGroup a b ∧ r.key a ≠ r.key b) ∧ r.arrival b < r.arrival a))

/-- At one level, `b` overtakes the earlier `a` of its group by its key, and
`c`, which is not of that group, arrived between them. -/
structure Overtaken (r : Ranking α W G K A) (a b c : α) : Prop where
  level_b : r.level a = r.level b
  level_c : r.level a = r.level c
  group : r.SameGroup a b
  stranger : ¬ r.SameGroup a c
  key : r.key a < r.key b
  before : r.arrival a < r.arrival c
  after : r.arrival c < r.arrival b

variable {r : Ranking α W G K A} {a b c : α}

/-- Between strangers only the arrival counts. -/
theorem worse_stranger (hlevel : r.level a = r.level b)
    (h : ¬ r.SameGroup a b) : r.Worse a b ↔ r.arrival b < r.arrival a := by
  unfold Worse
  constructor
  · rintro (hlt | ⟨_, ⟨hgroup, _⟩ | ⟨_, harr⟩⟩)
    · exact absurd hlevel hlt.ne
    · exact absurd hgroup h
    · exact harr
  · intro harr
    exact .inr ⟨hlevel, .inr ⟨fun hg => h hg.1, harr⟩⟩

/-- Within a group the key counts first. -/
theorem worse_sameGroup (hlevel : r.level a = r.level b) (h : r.SameGroup a b) :
    r.Worse a b ↔ r.key a < r.key b ∨
      r.key a = r.key b ∧ r.arrival b < r.arrival a := by
  unfold Worse
  constructor
  · rintro (hlt | ⟨_, ⟨_, hkey⟩ | ⟨hkey, harr⟩⟩)
    · exact absurd hlevel hlt.ne
    · exact .inl hkey
    · exact .inr ⟨by_contra fun hne => hkey ⟨h, hne⟩, harr⟩
  · rintro (hkey | ⟨hkey, harr⟩)
    · exact .inr ⟨hlevel, .inl ⟨h, hkey⟩⟩
    · exact .inr ⟨hlevel, .inr ⟨fun hg => hg.2 hkey, harr⟩⟩

theorem Worse.level_le (h : r.Worse a b) : r.level a ≤ r.level b := by
  rcases h with hlt | ⟨heq, _⟩
  · exact hlt.le
  · exact heq.le

theorem not_worse_self : ¬ r.Worse a a := by
  rintro (hlt | ⟨_, ⟨_, hkey⟩ | ⟨_, harr⟩⟩)
  · exact lt_irrefl _ hlt
  · exact lt_irrefl _ hkey
  · exact lt_irrefl _ harr

theorem worse_or_worse (h : r.arrival a ≠ r.arrival b) :
    r.Worse a b ∨ r.Worse b a := by
  rcases lt_trichotomy (r.level a) (r.level b) with hlt | heq | hlt
  · exact .inl (.inl hlt)
  · by_cases hgroup : r.SameGroup a b
    · rw [worse_sameGroup heq hgroup, worse_sameGroup heq.symm hgroup.symm]
      rcases lt_trichotomy (r.key a) (r.key b) with hkey | hkey | hkey
      · exact .inl (.inl hkey)
      · rcases lt_or_gt_of_ne h with harr | harr
        · exact .inr (.inr ⟨hkey.symm, harr⟩)
        · exact .inl (.inr ⟨hkey, harr⟩)
      · exact .inr (.inl hkey)
    · rw [worse_stranger heq hgroup,
        worse_stranger heq.symm fun h => hgroup h.symm]
      exact (lt_or_gt_of_ne h).symm
  · exact .inr (.inl hlt)

/-- One who is overtaken is worse than the one who overtakes, who is worse than
the stranger between them, who is worse than the first. -/
theorem Overtaken.cycle (h : r.Overtaken a b c) :
    r.Worse a b ∧ r.Worse b c ∧ ¬ r.Worse a c := by
  have hbc : ¬ r.SameGroup b c := fun hg => h.stranger (h.group.trans hg)
  refine ⟨?_, ?_, ?_⟩
  · rw [worse_sameGroup h.level_b h.group]
    exact .inl h.key
  · rw [worse_stranger (h.level_b.symm.trans h.level_c) hbc]
    exact h.after
  · rw [worse_stranger h.level_c h.stranger]
    exact h.before.not_gt

/-- Without a stranger in between, being worse is transitive.  The cases are
which of the pairs share a group. -/
theorem Worse.trans_of_not_overtaken (hinj : r.arrival a = r.arrival c → a = c)
    (h₁ : ¬ r.Overtaken a b c) (h₂ : ¬ r.Overtaken b c a)
    (h₃ : ¬ r.Overtaken c a b) (hab : r.Worse a b) (hbc : r.Worse b c) :
    r.Worse a c := by
  by_cases hlt : r.level a < r.level c
  · exact .inl hlt
  have hle := hab.level_le.trans hbc.level_le
  have hac : r.level a = r.level c := le_antisymm hle (not_lt.mp hlt)
  have hab' : r.level a = r.level b :=
    le_antisymm hab.level_le (hac ▸ hbc.level_le)
  have hbc' : r.level b = r.level c := hab'.symm.trans hac
  by_cases hgab : r.SameGroup a b
  · rw [worse_sameGroup hab' hgab] at hab
    by_cases hgbc : r.SameGroup b c
    · rw [worse_sameGroup hbc' hgbc] at hbc
      rw [worse_sameGroup hac (hgab.trans hgbc)]
      rcases hab with hab | ⟨hab, harr⟩
      · rcases hbc with hbc | ⟨hbc, _⟩
        · exact .inl (hab.trans hbc)
        · exact .inl (hbc ▸ hab)
      · rcases hbc with hbc | ⟨hbc, harr'⟩
        · exact .inl (hab ▸ hbc)
        · exact .inr ⟨hab.trans hbc, harr'.trans harr⟩
    · have hgac : ¬ r.SameGroup a c := fun h => hgbc (hgab.symm.trans h)
      rw [worse_stranger hbc' hgbc] at hbc
      rw [worse_stranger hac hgac]
      rcases hab with hkey | ⟨_, harr⟩
      · by_contra hnot
        have hne : r.arrival a ≠ r.arrival c := by
          intro heq
          rw [hinj heq] at hgab
          exact hgbc hgab.symm
        exact h₁ ⟨hab', hac, hgab, hgac, hkey, lt_of_le_of_ne (not_lt.mp hnot) hne,
          hbc⟩
      · exact hbc.trans harr
  · rw [worse_stranger hab' hgab] at hab
    by_cases hgbc : r.SameGroup b c
    · have hgac : ¬ r.SameGroup a c := fun h => hgab (h.trans hgbc.symm)
      rw [worse_sameGroup hbc' hgbc] at hbc
      rw [worse_stranger hac hgac]
      rcases hbc with hkey | ⟨_, harr⟩
      · by_contra hnot
        have hne : r.arrival a ≠ r.arrival c := by
          intro heq
          rw [← hinj heq] at hgbc
          exact hgab hgbc.symm
        exact h₂ ⟨hbc', hab'.symm, hgbc, fun h => hgab h.symm, hkey, hab,
          lt_of_le_of_ne (not_lt.mp hnot) hne⟩
      · exact harr.trans hab
    · rw [worse_stranger hbc' hgbc] at hbc
      by_cases hgac : r.SameGroup a c
      · rw [worse_sameGroup hac hgac]
        rcases lt_trichotomy (r.key a) (r.key c) with hkey | hkey | hkey
        · exact .inl hkey
        · exact .inr ⟨hkey, hbc.trans hab⟩
        · exact absurd ⟨hac.symm, hbc'.symm, hgac.symm, fun h => hgbc h.symm, hkey,
            hbc, hab⟩ h₃
      · rw [worse_stranger hac hgac]
        exact hbc.trans hab

/-- A ranking is a strict total order on a set exactly when nobody in the set
is overtaken with a stranger in between. -/
theorem strictTotalOn_iff {S : Set α} (hinj : Set.InjOn r.arrival S) :
    StrictTotalOn r.Worse S ↔
      ¬ ∃ a ∈ S, ∃ b ∈ S, ∃ c ∈ S, r.Overtaken a b c := by
  constructor
  · rintro h ⟨a, ha, b, hb, c, hc, hover⟩
    obtain ⟨hab, hbc, hac⟩ := hover.cycle
    exact hac (h.trans a ha b hb c hc hab hbc)
  · intro h
    have hnot : ∀ a ∈ S, ∀ b ∈ S, ∀ c ∈ S, ¬ r.Overtaken a b c :=
      fun a ha b hb c hc hover => h ⟨a, ha, b, hb, c, hc, hover⟩
    refine ⟨fun a _ => not_worse_self, ?_, ?_⟩
    · intro a ha b hb c hc hab hbc
      exact hab.trans_of_not_overtaken (hinj ha hc) (hnot a ha b hb c hc)
        (hnot b hb c hc a ha) (hnot c hc a ha b hb) hbc
    · intro a ha b hb hne
      exact worse_or_worse fun heq => hne (hinj ha hb heq)

end Ranking

/-! ### The best of a list -/

/-- The element that a scan keeps when it prefers better ones. -/
def best {α : Type} (worse : α → α → Bool) (xs : List α) : Option α :=
  xs.foldl (fun kept x =>
    match kept with
    | none => some x
    | some y => if worse y x then some x else some y) none

/-- A scan that has kept `y` ends with an element that nothing scanned beats. -/
theorem foldl_best_spec {α : Type} {worse : α → α → Bool} {S : Set α}
    (h : StrictTotalOn (fun a b => worse a b = true) S) :
    ∀ {xs : List α} {y : α}, y ∈ S → (∀ x ∈ xs, x ∈ S) →
      ∃ z, xs.foldl (fun kept x =>
          match kept with
          | none => some x
          | some y => if worse y x then some x else some y) (some y) = some z ∧
        (z = y ∨ z ∈ xs) ∧ (z = y ∨ worse y z = true) ∧
        ∀ x ∈ xs, x = z ∨ worse x z = true
  | [], y, _, _ => ⟨y, rfl, .inl rfl, .inl rfl, by simp⟩
  | x :: xs, y, hy, hxs => by
      have hx : x ∈ S := hxs x List.mem_cons_self
      have hrest : ∀ x' ∈ xs, x' ∈ S := fun x' h' =>
        hxs x' (List.mem_cons_of_mem x h')
      rw [List.foldl_cons]
      dsimp only
      by_cases hworse : worse y x = true
      · rw [if_pos hworse]
        obtain ⟨z, hz, hmem, hge, hall⟩ := foldl_best_spec h hx hrest
        have hzS : z ∈ S := by
          rcases hmem with rfl | hmem
          · exact hx
          · exact hrest z hmem
        refine ⟨z, hz, .inr ?_, .inr ?_, ?_⟩
        · rcases hmem with rfl | hmem
          · exact List.mem_cons_self
          · exact List.mem_cons_of_mem x hmem
        · rcases hge with rfl | hge
          · exact hworse
          · exact h.trans y hy x hx z hzS hworse hge
        · intro x' hx'
          rcases List.mem_cons.mp hx' with rfl | hx'
          · exact hge.imp Eq.symm id
          · exact hall x' hx'
      · rw [if_neg hworse]
        obtain ⟨z, hz, hmem, hge, hall⟩ := foldl_best_spec h hy hrest
        refine ⟨z, hz, hmem.imp id (List.mem_cons_of_mem x), hge, ?_⟩
        intro x' hx'
        rcases List.mem_cons.mp hx' with rfl | hx'
        · have hzS : z ∈ S := by
            rcases hmem with rfl | hmem
            · exact hy
            · exact hrest z hmem
          by_cases heq : x' = y
          · exact hge.imp (fun hzy => heq.trans hzy.symm) (fun hlt => heq ▸ hlt)
          · have hlt : worse x' y = true :=
              (h.total x' hx y hy heq).resolve_right hworse
            rcases hge with rfl | hge
            · exact .inr hlt
            · exact .inr (h.trans x' hx y hy z hzS hlt hge)
        · exact hall x' hx'

/-- Under a strict total order the scan finds the element that all others are
worse than. -/
theorem best_spec {α : Type} {worse : α → α → Bool} {xs : List α}
    (h : StrictTotalOn (fun a b => worse a b = true) {x | x ∈ xs}) :
    (best worse xs = none ↔ xs = []) ∧
      ∀ z, best worse xs = some z →
        z ∈ xs ∧ ∀ x ∈ xs, x = z ∨ worse x z = true := by
  cases xs with
  | nil => simp [best]
  | cons y xs =>
      have hrest : ∀ x ∈ xs, x ∈ {x | x ∈ y :: xs} :=
        fun x hx => List.mem_cons_of_mem y hx
      obtain ⟨z, hz, hmem, hge, hall⟩ := foldl_best_spec h List.mem_cons_self hrest
      have hbest : best worse (y :: xs) = some z := hz
      rw [hbest]
      refine ⟨by simp, fun z' hz' => ?_⟩
      injection hz' with hz'
      subst hz'
      refine ⟨?_, ?_⟩
      · rcases hmem with rfl | hmem
        · exact List.mem_cons_self
        · exact List.mem_cons_of_mem y hmem
      · intro x hx
        rcases List.mem_cons.mp hx with rfl | hx
        · exact hge.imp Eq.symm id
        · exact hall x hx

end Ziftrcoin.Lib
