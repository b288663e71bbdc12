/-
Module: Ziftrcoin.Proofs.AddressGroups
Purpose: The address groupings are the connected components of the addresses that came
  together in transactions, and no group is used after it has been deleted.
Trusted boundary: none
Main exports: GroupState.Tidy, addressGroupings_components
-/
import Mathlib.Data.Fintype.EquivFin
import Ziftrcoin.Lib.Components
import Ziftrcoin.Spec.Groupings

namespace Ziftrcoin.Spec

open Ziftrcoin.Lib

/-! ### The heap -/

namespace GroupState

variable {s : GroupState} {gs : Set Grouping} {grouping : Grouping}

/-- Just the groups that are pointed to are in memory, the map leads each address to the
group that it is in, and the groups are the components of what has been merged. -/
structure Tidy (s : GroupState) (gs : Set Grouping) : Prop where
  live : ∀ p, p ∈ s.uniqueGroupings ↔ ∃ S, s.heap p = some S
  mapped : ∀ a p, s.setmap a = some p ↔ ∃ S, s.heap p = some S ∧ a ∈ S
  components : Components gs {S | ∃ p, s.heap p = some S}

theorem start_tidy : start.Tidy ∅ where
  live := by simp [start]
  mapped := by simp [start]
  components := by simpa [start] using Components.empty

/-- The groups that are merged leave the heap, and what they held goes to the new one. -/
theorem absorb_spec {merged : ℕ} : ∀ {hits : List ℕ} {s : GroupState} {M : Grouping},
    hits.Nodup → merged ∉ hits → s.heap merged = some M →
    (∀ hit ∈ hits, ∃ S, s.heap hit = some S) →
    ∃ s' M', absorb merged hits s = some s' ∧ s'.heap merged = some M' ∧
      (∀ a, a ∈ M' ↔ a ∈ M ∨ ∃ hit ∈ hits, ∃ S, s.heap hit = some S ∧ a ∈ S) ∧
      (∀ p, p ≠ merged → s'.heap p = if p ∈ hits then none else s.heap p) ∧
      s'.uniqueGroupings = s.uniqueGroupings \ hits.toFinset ∧ s'.setmap = s.setmap
  | [], s, M, _, _, hM, _ => ⟨s, M, rfl, hM, by simp, by simp, by simp, rfl⟩
  | hit :: hits, s, M, hnodup, hnew, hM, hlive => by
      obtain ⟨hfresh, hnodup⟩ := List.nodup_cons.mp hnodup
      obtain ⟨hne, hnew⟩ := not_or.mp (List.mem_cons.not.mp hnew)
      obtain ⟨S, hS⟩ := hlive hit List.mem_cons_self
      have hkeeps : ∀ p ∈ hits, p ≠ merged ∧ p ≠ hit := by
        rintro p hp
        exact ⟨fun heq => hnew (heq ▸ hp), fun heq => hfresh (heq ▸ hp)⟩
      let next : GroupState :=
        { s.put merged (some (M ∪ S)) with
          uniqueGroupings := s.uniqueGroupings.erase hit }
      have hnext : ∀ p ∈ hits, (next.put hit none).heap p = s.heap p := fun p hp => by
        simp [next, put, (hkeeps p hp).1, (hkeeps p hp).2]
      obtain ⟨s', M', hrun, hM', hmem, hheap, hunique, hmap⟩ :=
        absorb_spec (s := next.put hit none) (M := M ∪ S) hnodup hnew
          (by simp [next, put, hne])
          fun p hp => by
            rw [hnext p hp]
            exact hlive p (List.mem_cons_of_mem hit hp)
      refine ⟨s', M', ?_, hM', fun a => ?_, fun p hp => ?_, ?_, hmap⟩
      · simp only [absorb, hM, hS]
        exact hrun
      · rw [hmem]
        constructor
        · rintro (ha | ⟨p, hp, T, hT, ha⟩)
          · rcases Finset.mem_union.mp ha with ha | ha
            · exact .inl ha
            · exact .inr ⟨hit, List.mem_cons_self, S, hS, ha⟩
          · rw [hnext p hp] at hT
            exact .inr ⟨p, List.mem_cons_of_mem hit hp, T, hT, ha⟩
        · rintro (ha | ⟨p, hp, T, hT, ha⟩)
          · exact .inl (Finset.mem_union_left S ha)
          · rcases List.mem_cons.mp hp with rfl | hp
            · obtain rfl := Option.some.inj (hS.symm.trans hT)
              exact .inl (Finset.mem_union_right M ha)
            · exact .inr ⟨p, hp, T, (hnext p hp).trans hT, ha⟩
      · rw [hheap p hp]
        by_cases hhit : p = hit
        · simp [hhit, next, put]
        · simp [hhit, hp, next, put]
      · rw [hunique]
        ext p
        simp only [next, put, Finset.mem_sdiff, Finset.mem_erase, List.mem_toFinset,
          List.mem_cons]
        tauto

theorem mem_hits (h : s.Tidy gs) {p : ℕ} :
    p ∈ s.hits grouping ↔ ∃ S, s.heap p = some S ∧ ¬ Disjoint S grouping := by
  simp only [hits, Finset.mem_biUnion, Option.mem_toFinset, Option.mem_def, h.mapped,
    Finset.not_disjoint_iff]
  constructor
  · rintro ⟨a, ha, S, hS, haS⟩
    exact ⟨S, hS, a, haS, ha⟩
  · rintro ⟨S, hS, a, haS, ha⟩
    exact ⟨a, ha, S, hS, haS⟩

/-- What a round does: the group `M` is made at `merged` of the new one and of those that
it hits, which are deleted. -/
structure Merges (s s' : GroupState) (grouping : Grouping) (merged : ℕ) (M : Grouping) :
    Prop where
  fresh : s.heap merged = none
  group : s'.heap merged = some M
  mem : ∀ a, a ∈ M ↔ a ∈ grouping ∨
    ∃ C ∈ {S | ∃ p, s.heap p = some S}, ¬ Disjoint C grouping ∧ a ∈ C
  others : ∀ p S, p ≠ merged →
    (s'.heap p = some S ↔ s.heap p = some S ∧ Disjoint S grouping)
  unique : ∀ p, p ∈ s'.uniqueGroupings ↔
    p = merged ∨ p ∈ s.uniqueGroupings ∧ ∀ S, s.heap p = some S → Disjoint S grouping
  setmap : ∀ a, s'.setmap a = if a ∈ M then some merged else s.setmap a

theorem Merges.ne_merged {s' : GroupState} {merged p : ℕ} {M S : Grouping}
    (h : s.Merges s' grouping merged M) (hS : s.heap p = some S) : p ≠ merged := by
  rintro rfl
  rw [h.fresh] at hS
  cases hS

/-- With a free address for the new group, a round only reads and deletes groups that are
in memory. -/
theorem Tidy.exists_merges (h : s.Tidy gs) (alloc : Allocator) (grouping : Grouping) :
    ∃ s' merged M, s.mergeGrouping alloc grouping = some s' ∧
      s.Merges s' grouping merged M := by
  have hfree : s.heap (alloc.next s.heap) = none := by
    obtain ⟨p, hp⟩ := Infinite.exists_notMem_finset s.uniqueGroupings
    refine alloc.free s.heap ⟨p, ?_⟩
    rw [h.live] at hp
    exact Option.eq_none_iff_forall_not_mem.mpr fun S hS => hp ⟨S, hS⟩
  generalize hmerged : alloc.next s.heap = merged at hfree
  have hother : ∀ {p S}, s.heap p = some S → p ≠ merged := by
    rintro p S hS rfl
    rw [hfree] at hS
    cases hS
  have hsort : ∀ {p}, p ∈ (s.hits grouping).sort (· ≤ ·) ↔
      ∃ S, s.heap p = some S ∧ ¬ Disjoint S grouping := by
    intro p
    rw [Finset.mem_sort, mem_hits h]
  have hput : ∀ {p}, p ≠ merged → (s.put merged (some grouping)).heap p = s.heap p :=
    fun hp => if_neg hp
  have hnodup : ((s.hits grouping).sort (· ≤ ·)).Nodup := (s.hits grouping).sort_nodup (· ≤ ·)
  have hmiss : merged ∉ (s.hits grouping).sort (· ≤ ·) := fun hmem => by
    obtain ⟨S, hS, -⟩ := hsort.mp hmem
    exact hother hS rfl
  have hlive : ∀ hit ∈ (s.hits grouping).sort (· ≤ ·),
      ∃ S, (s.put merged (some grouping)).heap hit = some S := fun hit hhit => by
    obtain ⟨S, hS, -⟩ := hsort.mp hhit
    exact ⟨S, (hput (hother hS)).trans hS⟩
  obtain ⟨s', M, hrun, hM, hmem, hheap, hunique, hmap⟩ :=
    absorb_spec hnodup hmiss (if_pos rfl) hlive
  refine ⟨{ s' with
    uniqueGroupings := insert merged s'.uniqueGroupings
    setmap := fun element => if element ∈ M then some merged else s'.setmap element },
    merged, M, ?_, hfree, hM, fun a => ?_, fun p S hp => ?_, fun p => ?_, fun a => ?_⟩
  · simp only [GroupState.mergeGrouping, hmerged, hrun, hM]
  · rw [hmem]
    apply or_congr Iff.rfl
    constructor
    · rintro ⟨hit, hhit, S, hS, ha⟩
      obtain ⟨T, hT, hmeets⟩ := hsort.mp hhit
      rw [hput (hother hT), hT, Option.some.injEq] at hS
      exact ⟨T, ⟨hit, hT⟩, hmeets, hS ▸ ha⟩
    · rintro ⟨C, ⟨p, hp⟩, hmeets, ha⟩
      exact ⟨p, hsort.mpr ⟨C, hp, hmeets⟩, C, (hput (hother hp)).trans hp, ha⟩
  · rw [hheap p hp, hput hp]
    split_ifs with hhit
    · obtain ⟨T, hT, hmeets⟩ := hsort.mp hhit
      simp only [hT, Option.some.injEq, false_iff, not_and]
      rintro rfl
      exact hmeets
    · refine ⟨fun hS => ⟨hS, ?_⟩, And.left⟩
      by_contra hmeets
      exact hhit (hsort.mpr ⟨S, hS, hmeets⟩)
  · simp only [Finset.mem_insert, hunique, Finset.mem_sdiff, List.mem_toFinset, hsort,
      not_exists, not_and, not_not]
    rfl
  · rw [hmap]
    rfl

/-- One more group: it and the groups that it hits become one. -/
theorem Tidy.of_merges (h : s.Tidy gs) (hne : grouping.Nonempty) {s' : GroupState}
    {merged : ℕ} {M : Grouping} (hstep : s.Merges s' grouping merged M) :
    s'.Tidy (insert grouping gs) where
  live p := by
    rw [hstep.unique, h.live]
    by_cases hp : p = merged
    · exact ⟨fun _ => ⟨M, hp ▸ hstep.group⟩, fun _ => .inl hp⟩
    · constructor
      · rintro (heq | ⟨⟨S, hS⟩, hmiss⟩)
        · exact absurd heq hp
        · exact ⟨S, (hstep.others p S hp).mpr ⟨hS, hmiss S hS⟩⟩
      · rintro ⟨S, hS⟩
        obtain ⟨hS, hdisj⟩ := (hstep.others p S hp).mp hS
        refine .inr ⟨⟨S, hS⟩, fun T hT => ?_⟩
        obtain rfl := Option.some.inj (hS.symm.trans hT)
        exact hdisj
  mapped a p := by
    rw [hstep.setmap]
    by_cases ha : a ∈ M
    · rw [if_pos ha, Option.some.injEq]
      constructor
      · rintro rfl
        exact ⟨M, hstep.group, ha⟩
      · rintro ⟨S, hS, haS⟩
        by_contra hp
        obtain ⟨hS, hdisj⟩ := (hstep.others p S (Ne.symm hp)).mp hS
        rcases (hstep.mem a).mp ha with hag | ⟨C, ⟨q, hq⟩, hmeets, haC⟩
        · exact Finset.disjoint_left.mp hdisj haS hag
        · obtain rfl := Option.some.inj
            (((h.mapped a p).mpr ⟨S, hS, haS⟩).symm.trans ((h.mapped a q).mpr ⟨C, hq, haC⟩))
          obtain rfl := Option.some.inj (hS.symm.trans hq)
          exact hmeets hdisj
    · rw [if_neg ha, h.mapped]
      constructor
      · rintro ⟨S, hS, haS⟩
        refine ⟨S, (hstep.others p S (hstep.ne_merged hS)).mpr ⟨hS, ?_⟩, haS⟩
        by_contra hmeets
        exact ha ((hstep.mem a).mpr (.inr ⟨S, ⟨p, hS⟩, hmeets, haS⟩))
      · rintro ⟨S, hS, haS⟩
        have hp : p ≠ merged := by
          rintro rfl
          obtain rfl := Option.some.inj (hstep.group.symm.trans hS)
          exact ha haS
        exact ⟨S, ((hstep.others p S hp).mp hS).1, haS⟩
  components := by
    have hcontents : {S | ∃ p, s'.heap p = some S} =
        insert M {C ∈ {S | ∃ p, s.heap p = some S} | Disjoint C grouping} := by
      ext S
      constructor
      · rintro ⟨p, hS⟩
        by_cases hp : p = merged
        · rw [hp, hstep.group] at hS
          exact .inl (Option.some.inj hS).symm
        · obtain ⟨hS, hdisj⟩ := (hstep.others p S hp).mp hS
          exact .inr ⟨⟨p, hS⟩, hdisj⟩
      · rintro (rfl | ⟨⟨p, hS⟩, hdisj⟩)
        · exact ⟨merged, hstep.group⟩
        · exact ⟨p, (hstep.others p S (hstep.ne_merged hS)).mpr ⟨hS, hdisj⟩⟩
    rw [hcontents]
    exact h.components.add hne hstep.mem

theorem Tidy.mergeAll (alloc : Allocator) {groupings : List Grouping} {s : GroupState}
    {gs : Set Grouping} (h : s.Tidy gs) (hne : ∀ g ∈ groupings, g.Nonempty) :
    ∃ s', s.mergeAll alloc groupings = some s' ∧ s'.Tidy ({g | g ∈ groupings} ∪ gs) := by
  induction groupings generalizing s gs with
  | nil => exact ⟨s, rfl, by simpa using h⟩
  | cons grouping groupings ih =>
      obtain ⟨s', merged, M, hrun, hstep⟩ := h.exists_merges alloc grouping
      obtain ⟨s'', hrest, htidy⟩ := ih (h.of_merges (hne grouping List.mem_cons_self) hstep)
        fun g hg => hne g (List.mem_cons_of_mem grouping hg)
      refine ⟨s'', ?_, ?_⟩
      · rw [GroupState.mergeAll, hrun]
        exact hrest
      · convert htidy using 1
        ext g
        simp only [List.mem_cons, Set.mem_union, Set.mem_ofPred_eq, Set.mem_insert_iff]
        tauto

/-- Each group is copied before it is deleted. -/
theorem release_spec {ps : List ℕ} (ret : Finset Grouping) {s : GroupState} (hnodup : ps.Nodup)
    (hlive : ∀ p ∈ ps, ∃ S, s.heap p = some S) :
    ∃ ret', release ps ret s = some ret' ∧
      ∀ S, S ∈ ret' ↔ S ∈ ret ∨ ∃ p ∈ ps, s.heap p = some S := by
  induction ps generalizing ret s with
  | nil => exact ⟨ret, rfl, by simp⟩
  | cons p ps ih =>
      obtain ⟨hp, hnodup⟩ := List.nodup_cons.mp hnodup
      obtain ⟨S, hS⟩ := hlive p List.mem_cons_self
      have hkeeps : ∀ q ∈ ps, (s.put p none).heap q = s.heap q :=
        fun q hq => if_neg fun heq : q = p => hp (heq ▸ hq)
      obtain ⟨ret', hrun, hmem⟩ := ih (insert S ret) hnodup fun q hq => by
        rw [hkeeps q hq]
        exact hlive q (List.mem_cons_of_mem p hq)
      refine ⟨ret', ?_, fun T => ?_⟩
      · simp only [release, hS]
        exact hrun
      · rw [hmem, Finset.mem_insert]
        constructor
        · rintro ((rfl | hT) | ⟨q, hq, hT⟩)
          · exact .inr ⟨p, List.mem_cons_self, hS⟩
          · exact .inl hT
          · exact .inr ⟨q, List.mem_cons_of_mem p hq, (hkeeps q hq).symm.trans hT⟩
        · rintro (hT | ⟨q, hq, hT⟩)
          · exact .inl (.inr hT)
          · rcases List.mem_cons.mp hq with rfl | hq
            · exact .inl (.inl (Option.some.inj (hS.symm.trans hT)).symm)
            · exact .inr ⟨q, hq, (hkeeps q hq).trans hT⟩

end GroupState

/-! ### The graph of the addresses -/

namespace WalletBook

/-- The addresses that a transaction joins: those of its own inputs and, if there is one,
those of its change. -/
def Links (wallet : WalletBook) (tx : CTransaction) (a : CTxDestination) : Prop :=
  (∃ txin ∈ tx.vin, wallet.inputAddress txin = some a) ∨
    (∃ txin ∈ tx.vin, ∃ b, wallet.inputAddress txin = some b) ∧
      ∃ txout ∈ tx.vout, wallet.changeAddress txout = some a

/-- A transaction of the wallet joins the two addresses. -/
def Together (wallet : WalletBook) (mapWallet : List CTransaction) (a b : CTxDestination) :
    Prop :=
  ∃ tx ∈ mapWallet, wallet.Links tx a ∧ wallet.Links tx b

/-- The address is joined with others, or one of the wallet's own outputs pays to it. -/
def Vertex (wallet : WalletBook) (mapWallet : List CTransaction) (a : CTxDestination) : Prop :=
  ∃ tx ∈ mapWallet, wallet.Links tx a ∨ ∃ txout ∈ tx.vout, wallet.ownAddress txout = some a

variable {wallet : WalletBook} {mapWallet : List CTransaction} {a b : CTxDestination}

theorem mem_txGrouping {tx : CTransaction} : a ∈ wallet.txGrouping tx ↔ wallet.Links tx a := by
  have hsome : tx.vin.filterMap wallet.inputAddress ≠ [] ↔
      ∃ txin ∈ tx.vin, ∃ b, wallet.inputAddress txin = some b := by
    constructor
    · intro hne
      obtain ⟨b, hb⟩ := List.exists_mem_of_ne_nil _ hne
      obtain ⟨txin, hmem, hb⟩ := List.mem_filterMap.mp hb
      exact ⟨txin, hmem, b, hb⟩
    · rintro ⟨txin, hmem, b, hb⟩
      exact List.ne_nil_of_mem (List.mem_filterMap.mpr ⟨txin, hmem, hb⟩)
  unfold txGrouping Links
  rw [← hsome]
  by_cases hnone : tx.vin.filterMap wallet.inputAddress = []
  · have hempty : ¬ ∃ txin ∈ tx.vin, wallet.inputAddress txin = some a := fun hex =>
      List.ne_nil_of_mem (List.mem_filterMap.mpr hex) hnone
    simp [hnone, hempty]
  · simp [hnone]

theorem mem_initialGroupings {g : Grouping} :
    g ∈ wallet.initialGroupings mapWallet ↔ ∃ tx ∈ mapWallet,
      (g = wallet.txGrouping tx ∧ g.Nonempty) ∨
        ∃ txout ∈ tx.vout, ∃ a, wallet.ownAddress txout = some a ∧ g = {a} := by
  unfold initialGroupings groupingsOf
  rw [List.mem_flatMap]
  refine exists_congr fun tx => and_congr_right fun _ => ?_
  rw [List.mem_append]
  apply or_congr
  · split_ifs with hcard
    · rw [List.mem_singleton]
      exact ⟨fun h => ⟨h, h ▸ Finset.card_pos.mp hcard⟩, And.left⟩
    · refine ⟨fun h => absurd h List.not_mem_nil, ?_⟩
      rintro ⟨rfl, hne⟩
      exact absurd (Finset.card_pos.mpr hne) hcard
  · simp only [List.mem_map, List.mem_filterMap]
    constructor
    · rintro ⟨a, ⟨txout, hmem, ha⟩, rfl⟩
      exact ⟨txout, hmem, a, ha, rfl⟩
    · rintro ⟨txout, hmem, a, ha, rfl⟩
      exact ⟨a, ⟨txout, hmem, ha⟩, rfl⟩

theorem initialGroupings_nonempty (wallet : WalletBook) (mapWallet : List CTransaction) :
    ∀ g ∈ wallet.initialGroupings mapWallet, g.Nonempty := by
  intro g hg
  obtain ⟨tx, -, ⟨-, hne⟩ | ⟨txout, -, a, -, rfl⟩⟩ := mem_initialGroupings.mp hg
  · exact hne
  · exact Finset.singleton_nonempty a

theorem vertex_iff :
    wallet.Vertex mapWallet a ↔ ∃ g ∈ {g | g ∈ wallet.initialGroupings mapWallet}, a ∈ g := by
  constructor
  · rintro ⟨tx, htx, hlinks | ⟨txout, hmem, ha⟩⟩
    · rw [← mem_txGrouping] at hlinks
      exact ⟨_, mem_initialGroupings.mpr ⟨tx, htx, .inl ⟨rfl, a, hlinks⟩⟩, hlinks⟩
    · exact ⟨_, mem_initialGroupings.mpr ⟨tx, htx, .inr ⟨txout, hmem, a, ha, rfl⟩⟩,
        Finset.mem_singleton_self a⟩
  · rintro ⟨g, hg, ha⟩
    obtain ⟨tx, htx, ⟨rfl, -⟩ | ⟨txout, hmem, b, hb, rfl⟩⟩ := mem_initialGroupings.mp hg
    · exact ⟨tx, htx, .inl (mem_txGrouping.mp ha)⟩
    · obtain rfl := Finset.mem_singleton.mp ha
      exact ⟨tx, htx, .inr ⟨txout, hmem, hb⟩⟩

/-- The addresses by themselves join nothing. -/
theorem joined_iff : Joined {g | g ∈ wallet.initialGroupings mapWallet} a b ↔
    Relation.ReflTransGen (wallet.Together mapWallet) a b := by
  constructor
  · intro h
    induction h with
    | refl => exact .refl
    | tail _ hstep ih =>
        obtain ⟨g, hg, hb, hc⟩ := hstep
        obtain ⟨tx, htx, ⟨rfl, -⟩ | ⟨txout, -, d, -, rfl⟩⟩ := mem_initialGroupings.mp hg
        · exact ih.tail ⟨tx, htx, mem_txGrouping.mp hb, mem_txGrouping.mp hc⟩
        · rw [Finset.mem_singleton] at hb hc
          rw [hc, ← hb]
          exact ih
  · intro h
    induction h with
    | refl => exact .refl
    | tail _ hstep ih =>
        obtain ⟨tx, htx, hb, hc⟩ := hstep
        rw [← mem_txGrouping] at hb hc
        exact ih.trans (.of_mem (mem_initialGroupings.mpr ⟨tx, htx, .inl ⟨rfl, _, hb⟩⟩) hb hc)

end WalletBook

/-- What `GetAddressGroupings` returns are the components of the groups to begin with. -/
theorem getAddressGroupings_spec (wallet : WalletBook) (order : VisitOrder) (alloc : Allocator)
    (mapWallet : List CTransaction) :
    ∃ ret, GetAddressGroupings wallet order alloc mapWallet = some ret ∧
      Components {g | g ∈ wallet.initialGroupings mapWallet} {g | g ∈ ret} := by
  obtain ⟨s, hrun, htidy⟩ := GroupState.start_tidy.mergeAll alloc
    fun g hg => WalletBook.initialGroupings_nonempty wallet mapWallet g ((order.mem_iff _ g).mp hg)
  obtain ⟨ret, hret, hmem⟩ := GroupState.release_spec ∅
    (s.uniqueGroupings.sort_nodup (· ≤ ·)) fun p hp =>
      (htidy.live p).mp ((Finset.mem_sort _).mp hp)
  refine ⟨ret, ?_, ?_⟩
  · simp only [GetAddressGroupings, hrun]
    exact hret
  · convert htidy.components using 1
    · ext g
      simp [order.mem_iff]
    · ext g
      simp only [Set.mem_ofPred_eq, hmem, Finset.notMem_empty, false_or, Finset.mem_sort]
      exact ⟨fun ⟨p, _, hp⟩ => ⟨p, hp⟩, fun ⟨p, hp⟩ => ⟨p, (htidy.live p).mpr ⟨g, hp⟩, hp⟩⟩

/-- For every wallet, and whatever the order of the transactions and the groups and the
addresses that the allocator chooses: no group is used after it has been deleted, and the
result is the set of the connected components of the addresses. -/
theorem addressGroupings_components (wallet : WalletBook) (order : VisitOrder)
    (alloc : Allocator) (mapWallet : List CTransaction) :
    ∃ ret, GetAddressGroupings wallet order alloc mapWallet = some ret ∧
      (∀ g ∈ ret, g.Nonempty) ∧ (∀ g ∈ ret, ∀ g' ∈ ret, g ≠ g' → Disjoint g g') ∧
      (∀ g, g ∈ ret ↔ ∃ a, wallet.Vertex mapWallet a ∧
        ∀ b, b ∈ g ↔ Relation.ReflTransGen (wallet.Together mapWallet) a b) ∧
      ∀ (order' : VisitOrder) (alloc' : Allocator) (mapWallet' : List CTransaction),
        mapWallet'.Perm mapWallet →
          GetAddressGroupings wallet order' alloc' mapWallet' = some ret := by
  obtain ⟨ret, hrun, hcomponents⟩ := getAddressGroupings_spec wallet order alloc mapWallet
  refine ⟨ret, hrun, hcomponents.nonempty, fun g hg g' hg' hne =>
    hcomponents.disjoint hg hg' hne, fun g => ?_, fun order' alloc' mapWallet' hperm => ?_⟩
  · rw [show g ∈ ret ↔ _ from hcomponents.mem_iff]
    simp only [WalletBook.vertex_iff, WalletBook.joined_iff]
  · obtain ⟨ret', hrun', hcomponents'⟩ :=
      getAddressGroupings_spec wallet order' alloc' mapWallet'
    have hsame : {g | g ∈ wallet.initialGroupings mapWallet'} =
        {g | g ∈ wallet.initialGroupings mapWallet} := by
      ext g
      exact (hperm.flatMap_right _).mem_iff
    rw [hsame] at hcomponents'
    have hret : ret' = ret := by
      ext g
      exact Set.ext_iff.mp (hcomponents'.unique hcomponents) g
    rw [hrun', hret]

end Ziftrcoin.Spec
