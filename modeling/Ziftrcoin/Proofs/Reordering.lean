/-
Module: Ziftrcoin.Proofs.Reordering
Purpose: The order that ReorderTransactions gives to the items of a wallet, and for
  which wallets it is one.
Trusted boundary: none
Main exports: ValidOrder, reorderTransactions_valid_iff
-/
import Ziftrcoin.Proofs.Supply
import Ziftrcoin.Spec.WalletOrder

namespace Ziftrcoin.Spec

/-! ### What is asked of an order -/

/-- Items with their positions afterwards are in order: no position is taken twice, all lie
below `nOrderPosNext`, items with a position keep their order, and items without one come
in the order of their times. -/
structure ValidOrder (pairs : List (TxPair × ℤ)) (nOrderPosNext : ℤ) : Prop where
  distinct : (pairs.map Prod.snd).Nodup
  range : ∀ x ∈ pairs, 0 ≤ x.2 ∧ x.2 < nOrderPosNext
  ordered : ∀ x ∈ pairs, ∀ y ∈ pairs, x.1.nOrderPos ≠ -1 → y.1.nOrderPos ≠ -1 →
    x.1.nOrderPos < y.1.nOrderPos → x.2 < y.2
  unordered : ∀ x ∈ pairs, ∀ y ∈ pairs, x.1.nOrderPos = -1 → y.1.nOrderPos = -1 →
    x.1.time < y.1.time → x.2 < y.2

/-- What two items with their positions afterwards have to do with each other. -/
structure KeepsOrder (x y : TxPair × ℤ) : Prop where
  ne : x.2 ≠ y.2
  ordered : x.1.nOrderPos ≠ -1 → y.1.nOrderPos ≠ -1 →
    (x.1.nOrderPos < y.1.nOrderPos → x.2 < y.2) ∧ (y.1.nOrderPos < x.1.nOrderPos → y.2 < x.2)
  unordered : x.1.nOrderPos = -1 → y.1.nOrderPos = -1 →
    (x.1.time < y.1.time → x.2 < y.2) ∧ (y.1.time < x.1.time → y.2 < x.2)

theorem KeepsOrder.symm {x y : TxPair × ℤ} (h : KeepsOrder x y) : KeepsOrder y x where
  ne := h.ne.symm
  ordered hy hx := (h.ordered hx hy).symm
  unordered hy hx := (h.unordered hx hy).symm

instance : Std.Symm KeepsOrder := ⟨fun _ _ h => h.symm⟩

theorem validOrder_of_pairwise {pairs : List (TxPair × ℤ)} {nOrderPosNext : ℤ}
    (h : pairs.Pairwise KeepsOrder) (hrange : ∀ x ∈ pairs, 0 ≤ x.2 ∧ x.2 < nOrderPosNext) :
    ValidOrder pairs nOrderPosNext := by
  have hall : ∀ x ∈ pairs, ∀ y ∈ pairs, x ≠ y → KeepsOrder x y := fun x hx y hy hne =>
    h.forall hx hy hne
  refine ⟨?_, hrange, fun x hx y hy hox hoy hlt => ?_, fun x hx y hy hux huy hlt => ?_⟩
  · exact List.pairwise_map.mpr (h.imp KeepsOrder.ne)
  · exact ((hall x hx y hy (by rintro rfl; exact lt_irrefl _ hlt)).ordered hox hoy).1 hlt
  · exact ((hall x hx y hy (by rintro rfl; exact lt_irrefl _ hlt)).unordered hux huy).1 hlt

/-! ### The loop -/

namespace ReorderState

/-- A position raised by the insertion points that lie at or below it. -/
def raised (st : ReorderState) (item : TxPair) : ℤ :=
  item.nOrderPos + st.nOrderPosOff item.nOrderPos

/-- The new positions of the items. -/
def newPositions : ReorderState → List TxPair → List ℤ
  | _, [] => []
  | st, item :: items => st.newPos item :: newPositions (st.next item) items

/-- The variables after all items. -/
def after (st : ReorderState) (items : List TxPair) : ReorderState := items.foldl next st

/-- The items with their new positions. -/
def pairs (st : ReorderState) (items : List TxPair) : List (TxPair × ℤ) :=
  items.zip (st.newPositions items)

theorem length_newPositions : ∀ (st : ReorderState) (items : List TxPair),
    (st.newPositions items).length = items.length
  | _, [] => rfl
  | st, item :: items => congrArg (· + 1) (length_newPositions (st.next item) items)

theorem pairs_cons (st : ReorderState) (item : TxPair) (items : List TxPair) :
    st.pairs (item :: items) = (item, st.newPos item) :: (st.next item).pairs items := rfl

theorem pairs_fst (st : ReorderState) (items : List TxPair) :
    (st.pairs items).map Prod.fst = items :=
  List.map_fst_zip (length_newPositions st items).ge

/-- The positions below 2^63 - 1 are those that a position above them leaves room for.  A step
goes well if its position is one of them, is not an insertion point, and is not taken and
not passed by an item of the others, which keep their positions. -/
def GoesWell (kept : List ℤ) (st : ReorderState) (item : TxPair) : Prop :=
  if item.nOrderPos = -1 then st.nOrderPosNext < 2 ^ 63 - 1 ∧ st.nOrderPosNext ∉ kept
  else st.raised item < 2 ^ 63 - 1 ∧ st.raised item ∉ st.nOrderPosOffsets ∧
    ∀ r ∈ kept, item.nOrderPos < r → st.raised item < r

end ReorderState

open ReorderState

/-- Every step goes well, and at the end the items that keep their positions lie below
`nOrderPosNext`. -/
def ReorderFits (kept : List ℤ) : ReorderState → List TxPair → Prop
  | st, [] => ∀ r ∈ kept, r < st.nOrderPosNext
  | st, item :: items => st.GoesWell kept item ∧ ReorderFits kept (st.next item) items

theorem reorderItems_eq {fWritten : TxPair → Bool} (hwritten : ∀ item, fWritten item = true) :
    ∀ (st : ReorderState) (items : List TxPair),
      reorderItems fWritten st items =
        ((st.pairs items).map fun x => x.1.setOrderPos x.2, (st.after items).nOrderPosNext,
          .DB_LOAD_OK)
  | _, [] => rfl
  | st, item :: items => by
      have hstay : (st.mustWrite item &&
          !fWritten (item.setOrderPos (st.newPos item))) = false := by
        rw [hwritten, Bool.not_true, Bool.and_false]
      unfold reorderItems
      dsimp only
      rw [hstay, if_neg Bool.false_ne_true, reorderItems_eq hwritten]
      rfl

/-! ### One step -/

/-- The variables are in order: the insertion points lie below `nOrderPosNext`, and there
are no more of them than that. -/
structure Numbered (st : ReorderState) : Prop where
  next : 0 ≤ st.nOrderPosNext ∧ st.nOrderPosNext < 2 ^ 63
  offsets : ∀ g ∈ st.nOrderPosOffsets, g < st.nOrderPosNext
  count : (st.nOrderPosOffsets.length : ℤ) ≤ st.nOrderPosNext

theorem numbered_start : Numbered .start where
  next := by decide
  offsets := by simp [start]
  count := by decide

/-- What an item may hold: no position, or one of 64 bits. -/
def Assignable (item : TxPair) : Prop :=
  item.nOrderPos = -1 ∨ 0 ≤ item.nOrderPos ∧ item.nOrderPos < 2 ^ 63

namespace Numbered

variable {st : ReorderState} {item : TxPair} {kept : List ℤ}

theorem nOrderPosOff_le (h : Numbered st) (n : ℤ) : (st.nOrderPosOff n : ℤ) ≤ st.nOrderPosNext := by
  have hle : st.nOrderPosOff n ≤ st.nOrderPosOffsets.length := List.countP_le_length
  have := h.count
  omega

/-- A step that goes well: the position is the exact one, and the variables stay in
order. -/
theorem step (h : Numbered st) (hitem : Assignable item) (hfits : st.GoesWell kept item) :
    Numbered (st.next item) ∧ st.nOrderPosNext ≤ (st.next item).nOrderPosNext ∧
      0 ≤ st.newPos item ∧ st.newPos item < (st.next item).nOrderPosNext ∧
      (item.nOrderPos ≠ -1 → st.newPos item = st.raised item) := by
  obtain ⟨hnonneg, hbound⟩ := h.next
  unfold GoesWell at hfits
  unfold ReorderState.next newPos
  split
  · next hnew =>
    rw [if_pos hnew] at hfits
    have hnext : int64 (st.nOrderPosNext + 1) = st.nOrderPosNext + 1 :=
      int64_eq_self (by omega) (by omega)
    rw [hnext]
    refine ⟨⟨?_, fun g hg => ?_, ?_⟩, ?_, ?_, ?_, fun hold => absurd hnew hold⟩
    · dsimp only
      omega
    · rcases List.mem_append.mp hg with hg | hg
      · exact (h.offsets g hg).trans (lt_add_one _)
      · rw [List.mem_singleton.mp hg]
        exact lt_add_one _
    · have := h.count
      rw [List.length_append, List.length_singleton]
      dsimp only
      omega
    · dsimp only
      omega
    · exact hnonneg
    · exact lt_add_one _
  · next hold =>
    rw [if_neg hold] at hfits
    have hq := hitem.resolve_left hold
    have hraised : st.raised item = item.nOrderPos + st.nOrderPosOff item.nOrderPos := rfl
    have hpos : int64 (item.nOrderPos + st.nOrderPosOff item.nOrderPos) = st.raised item :=
      int64_eq_self (by omega) (by omega)
    have hnext : int64 (st.raised item + 1) = st.raised item + 1 :=
      int64_eq_self (by omega) (by omega)
    rw [hpos, hnext]
    refine ⟨⟨?_, fun g hg => ?_, ?_⟩, le_max_left _ _, by omega, ?_, fun _ => rfl⟩
    · dsimp only
      omega
    · exact lt_max_of_lt_left (h.offsets g hg)
    · exact h.count.trans (le_max_left _ _)
    · exact lt_max_of_lt_right (lt_add_one _)

end Numbered

/-! ### All steps -/

namespace ReorderState

/-- A step adds at most one insertion point, which lies above everything so far. -/
theorem offsets_next (st : ReorderState) (item : TxPair) :
    ∃ more, (st.next item).nOrderPosOffsets = st.nOrderPosOffsets ++ more ∧
      ∀ g ∈ more, st.nOrderPosNext ≤ g := by
  unfold next
  split
  · exact ⟨[st.nOrderPosNext], rfl, by simp⟩
  · exact ⟨[], (List.append_nil _).symm, by simp⟩

/-- Where an item that comes later goes: an item without a position above everything so
far, an item with one as far up as the insertion points at or below it demand. -/
structure PlacedFrom (kept : List ℤ) (st : ReorderState) (nEnd : ℤ) (x : TxPair × ℤ) : Prop where
  range : 0 ≤ x.2 ∧ x.2 < nEnd
  new : x.1.nOrderPos = -1 → st.nOrderPosNext ≤ x.2 ∧ x.2 ∉ kept
  free : x.1.nOrderPos ≠ -1 → x.2 ∉ st.nOrderPosOffsets
  old : x.1.nOrderPos ≠ -1 → ∃ more, (∀ g ∈ more, st.nOrderPosNext ≤ g) ∧
    x.2 = x.1.nOrderPos +
      (st.nOrderPosOffsets ++ more).countP fun nOffsetStart => nOffsetStart ≤ x.1.nOrderPos
  below : x.1.nOrderPos ≠ -1 → ∀ r ∈ kept, x.1.nOrderPos < r → x.2 < r

theorem PlacedFrom.of_next {kept : List ℤ} {st : ReorderState} {item : TxPair} {nEnd : ℤ}
    {x : TxPair × ℤ} (h : PlacedFrom kept (st.next item) nEnd x)
    (hle : st.nOrderPosNext ≤ (st.next item).nOrderPosNext) : PlacedFrom kept st nEnd x := by
  obtain ⟨more, hoffsets, hmore⟩ := offsets_next st item
  refine ⟨h.range, fun hx => ⟨hle.trans (h.new hx).1, (h.new hx).2⟩, fun hx hmem => ?_,
    fun hx => ?_, h.below⟩
  · refine h.free hx ?_
    rw [hoffsets]
    exact List.mem_append_left _ hmem
  · obtain ⟨more', hmore', hpos⟩ := h.old hx
    refine ⟨more ++ more', fun g hg => ?_, ?_⟩
    · rcases List.mem_append.mp hg with hg | hg
      · exact hmore g hg
      · exact hle.trans (hmore' g hg)
    · rw [hpos, hoffsets, List.append_assoc]

end ReorderState

variable {kept : List ℤ}

/-- The first item goes where the later ones see it. -/
theorem placedFrom_head {st : ReorderState} (h : Numbered st) {item : TxPair}
    (hitem : Assignable item) (hfits : st.GoesWell kept item) {nEnd : ℤ}
    (hend : (st.next item).nOrderPosNext ≤ nEnd) :
    PlacedFrom kept st nEnd (item, st.newPos item) := by
  obtain ⟨-, -, hnonneg, hlt, hexact⟩ := h.step hitem hfits
  unfold GoesWell at hfits
  refine ⟨⟨hnonneg, hlt.trans_le hend⟩, fun hnew => ?_, fun hold => ?_, fun hold => ?_,
    fun hold => ?_⟩
  · rw [if_pos hnew] at hfits
    dsimp only
    unfold newPos
    rw [if_pos hnew]
    exact ⟨le_rfl, hfits.2⟩
  · rw [if_neg hold] at hfits
    dsimp only
    rw [hexact hold]
    exact hfits.2.1
  · refine ⟨[], by simp, ?_⟩
    dsimp only
    rw [hexact hold, List.append_nil]
    rfl
  · rw [if_neg hold] at hfits
    dsimp only
    rw [hexact hold]
    exact hfits.2.2

theorem placedFrom_of_reorderFits : ∀ {st : ReorderState} {items : List TxPair}, Numbered st →
    (∀ item ∈ items, Assignable item) → ReorderFits kept st items →
      (∀ x ∈ st.pairs items, PlacedFrom kept st (st.after items).nOrderPosNext x) ∧
      st.nOrderPosNext ≤ (st.after items).nOrderPosNext ∧
      ∀ r ∈ kept, r < (st.after items).nOrderPosNext
  | st, [], _, _, hfits => ⟨fun x hx => absurd hx List.not_mem_nil, le_rfl, hfits⟩
  | st, item :: items, h, hitems, hfits => by
      obtain ⟨hstep, hrest⟩ := hfits
      have hitem := hitems item List.mem_cons_self
      obtain ⟨hnumbered, hle, -, -, -⟩ := h.step hitem hstep
      obtain ⟨hplaced, hle', hkept⟩ := placedFrom_of_reorderFits hnumbered
        (fun item' hitem' => hitems item' (List.mem_cons_of_mem item hitem')) hrest
      refine ⟨fun x hx => ?_, hle.trans hle', hkept⟩
      rw [pairs_cons] at hx
      rcases List.mem_cons.mp hx with rfl | hx
      · exact placedFrom_head h hitem hstep hle'
      · exact (hplaced x hx).of_next hle

/-- The first item against a later one. -/
theorem keepsOrder_head {st : ReorderState} (h : Numbered st) {item : TxPair}
    (hitem : Assignable item) (hfits : st.GoesWell kept item) {nEnd : ℤ} {y : TxPair × ℤ}
    (hy : PlacedFrom kept (st.next item) nEnd y)
    (hne : item.nOrderPos ≠ -1 → y.1.nOrderPos ≠ -1 → item.nOrderPos ≠ y.1.nOrderPos)
    (htime : item.time ≤ y.1.time) : KeepsOrder (item, st.newPos item) y := by
  obtain ⟨-, -, -, hlt, hexact⟩ := h.step hitem hfits
  by_cases hnewY : y.1.nOrderPos = -1
  · have habove : st.newPos item < y.2 := hlt.trans_le (hy.new hnewY).1
    exact ⟨habove.ne, fun _ hold => absurd hnewY hold,
      fun _ _ => ⟨fun _ => habove, fun hlater => absurd htime (not_le.mpr hlater)⟩⟩
  by_cases hnew : item.nOrderPos = -1
  · refine ⟨fun heq => hy.free hnewY ?_, fun hold => absurd hnew hold,
      fun _ hnewY' => absurd hnewY' hnewY⟩
    -- the position of an item without one is an insertion point for all later ones
    have hpos : st.newPos item = st.nOrderPosNext := if_pos hnew
    have hoffsets : (st.next item).nOrderPosOffsets =
        st.nOrderPosOffsets ++ [st.nOrderPosNext] := by
      unfold ReorderState.next
      rw [if_pos hnew]
    rw [← heq, hpos, hoffsets]
    exact List.mem_append_right _ (List.mem_singleton_self _)
  · obtain ⟨more, hmore, hposY⟩ := hy.old hnewY
    have hoffsets : (st.next item).nOrderPosOffsets = st.nOrderPosOffsets := by
      unfold ReorderState.next
      rw [if_neg hnew]
    have hpos : st.newPos item = item.nOrderPos + st.nOrderPosOff item.nOrderPos := hexact hnew
    rw [hoffsets, List.countP_append] at hposY
    have hboth : (item.nOrderPos < y.1.nOrderPos → st.newPos item < y.2) ∧
        (y.1.nOrderPos < item.nOrderPos → y.2 < st.newPos item) := by
      constructor
      · intro hless
        have hcount : st.nOrderPosOff item.nOrderPos ≤ st.nOrderPosOff y.1.nOrderPos :=
          List.countP_mono_left fun g _ hg => by
            rw [decide_eq_true_eq] at hg ⊢
            exact hg.trans hless.le
        unfold nOrderPosOff at hcount hpos
        omega
      · intro hmoreThan
        have hcount : st.nOrderPosOff y.1.nOrderPos ≤ st.nOrderPosOff item.nOrderPos :=
          List.countP_mono_left fun g _ hg => by
            rw [decide_eq_true_eq] at hg ⊢
            exact hg.trans hmoreThan.le
        -- insertion points from later on lie above both
        have hnone : (more.countP fun nOffsetStart => nOffsetStart ≤ y.1.nOrderPos) = 0 := by
          refine List.countP_eq_zero.mpr fun g hg => ?_
          have := hmore g hg
          rw [decide_eq_true_eq]
          omega
        rw [hnone] at hposY
        unfold nOrderPosOff at hcount hpos
        omega
    refine ⟨fun heq => ?_, fun _ _ => hboth, fun hnew' => absurd hnew' hnew⟩
    rcases lt_or_gt_of_ne (hne hnew hnewY) with hless | hmoreThan
    · exact absurd heq (hboth.1 hless).ne
    · exact absurd heq (hboth.2 hmoreThan).ne'

/-- No two items have the same position, unless they have none. -/
def DistinctPositions (items : List TxPair) : Prop :=
  items.Pairwise fun a b => a.nOrderPos ≠ -1 → b.nOrderPos ≠ -1 → a.nOrderPos ≠ b.nOrderPos

theorem mem_of_mem_pairs {st : ReorderState} {items : List TxPair} {x : TxPair × ℤ}
    (hx : x ∈ st.pairs items) : x.1 ∈ items :=
  (List.of_mem_zip hx).1

theorem pairwise_of_reorderFits : ∀ {st : ReorderState} {items : List TxPair}, Numbered st →
    (∀ item ∈ items, Assignable item) → ReorderFits kept st items → DistinctPositions items →
      items.Pairwise (fun a b => a.time ≤ b.time) → (st.pairs items).Pairwise KeepsOrder
  | _, [], _, _, _, _, _ => List.Pairwise.nil
  | st, item :: items, h, hitems, hfits, hdistinct, hsorted => by
      obtain ⟨hstep, hrest⟩ := hfits
      obtain ⟨hne, hdistinct⟩ := List.pairwise_cons.mp hdistinct
      obtain ⟨htime, hsorted⟩ := List.pairwise_cons.mp hsorted
      have hitem := hitems item List.mem_cons_self
      have hitems' := fun item' hitem' => hitems item' (List.mem_cons_of_mem item hitem')
      obtain ⟨hnumbered, -⟩ := h.step hitem hstep
      rw [pairs_cons, List.pairwise_cons]
      refine ⟨fun y hy => ?_, pairwise_of_reorderFits hnumbered hitems' hrest hdistinct hsorted⟩
      exact keepsOrder_head h hitem hstep
        ((placedFrom_of_reorderFits hnumbered hitems' hrest).1 y hy)
        (hne _ (mem_of_mem_pairs hy)) (htime _ (mem_of_mem_pairs hy))

/-- Items with the positions that they have. -/
def unmoved (items : List TxPair) : List (TxPair × ℤ) :=
  items.map fun item => (item, item.nOrderPos)

/-- An item that keeps its position, and one that does not. -/
theorem ReorderState.PlacedFrom.keepsOrder {others : List TxPair} {st : ReorderState} {nEnd : ℤ}
    {x : TxPair × ℤ} (hx : PlacedFrom (others.map TxPair.nOrderPos) st nEnd x) {item : TxPair}
    (hitem : item ∈ others) (hold : item.nOrderPos ≠ -1)
    (hne : x.1.nOrderPos ≠ -1 → x.1.nOrderPos ≠ item.nOrderPos) :
    KeepsOrder x (item, item.nOrderPos) := by
  have hmem : item.nOrderPos ∈ others.map TxPair.nOrderPos := List.mem_map_of_mem hitem
  by_cases hnew : x.1.nOrderPos = -1
  · refine ⟨fun heq => (hx.new hnew).2 ?_, fun hold' => absurd hnew hold',
      fun _ hnew' => absurd hnew' hold⟩
    rw [heq]
    exact hmem
  · obtain ⟨more, -, hpos⟩ := hx.old hnew
    have hbelow := hx.below hnew _ hmem
    have hboth : (x.1.nOrderPos < item.nOrderPos → x.2 < item.nOrderPos) ∧
        (item.nOrderPos < x.1.nOrderPos → item.nOrderPos < x.2) :=
      ⟨hbelow, fun habove => by omega⟩
    refine ⟨fun heq => ?_, fun _ _ => hboth, fun _ hnew' => absurd hnew' hold⟩
    rcases lt_or_gt_of_ne (hne hnew) with hless | hmoreThan
    · exact absurd heq (hboth.1 hless).ne
    · exact absurd heq (hboth.2 hmoreThan).ne'

theorem validOrder_of_reorderFits {items others : List TxPair}
    (hitems : ∀ item ∈ items ++ others, Assignable item)
    (hdistinct : DistinctPositions (items ++ others))
    (hsorted : items.Pairwise fun a b => a.time ≤ b.time)
    (hothers : ∀ item ∈ others, item.nOrderPos ≠ -1)
    (hfits : ReorderFits (others.map TxPair.nOrderPos) .start items) :
    ValidOrder (ReorderState.start.pairs items ++ unmoved others)
      (ReorderState.start.after items).nOrderPosNext := by
  obtain ⟨hself, hkept, hcross⟩ := List.pairwise_append.mp hdistinct
  have hitems' : ∀ item ∈ items, Assignable item := fun item hitem =>
    hitems item (List.mem_append_left _ hitem)
  obtain ⟨hplaced, -, hbelow⟩ := placedFrom_of_reorderFits numbered_start hitems' hfits
  refine validOrder_of_pairwise ?_ fun x hx => ?_
  · refine List.pairwise_append.mpr
      ⟨pairwise_of_reorderFits numbered_start hitems' hfits hself hsorted, ?_, fun x hx y hy => ?_⟩
    · refine List.pairwise_map.mpr (List.Pairwise.imp_of_mem ?_ hkept)
      intro a b ha hb hne
      exact ⟨hne (hothers a ha) (hothers b hb), fun _ _ => ⟨id, id⟩,
        fun hnew => absurd hnew (hothers a ha)⟩
    · obtain ⟨item, hitem, rfl⟩ := List.mem_map.mp hy
      exact (hplaced x hx).keepsOrder hitem (hothers item hitem) fun hold =>
        hcross _ (mem_of_mem_pairs hx) item hitem hold (hothers item hitem)
  · rcases List.mem_append.mp hx with hx | hx
    · exact (hplaced x hx).range
    · obtain ⟨item, hitem, rfl⟩ := List.mem_map.mp hx
      have hpos := (hitems item (List.mem_append_right _ hitem)).resolve_left
        (hothers item hitem)
      exact ⟨hpos.1, hbelow _ (List.mem_map_of_mem hitem)⟩

/-! ### The other direction -/

theorem nOrderPosNext_lt : ∀ (st : ReorderState) (items : List TxPair),
    st.nOrderPosNext < 2 ^ 63 → (st.after items).nOrderPosNext < 2 ^ 63
  | _, [], h => h
  | st, item :: items, h => by
      refine nOrderPosNext_lt (st.next item) items ?_
      unfold next
      split
      · exact int64_lt _
      · exact max_lt h (int64_lt _)

/-- A step whose position is in order went well. -/
theorem goesWell_of_newPos {st : ReorderState} (h : Numbered st) {item : TxPair}
    (hitem : Assignable item) (hrange : 0 ≤ st.newPos item ∧ st.newPos item < 2 ^ 63 - 1)
    (hfree : item.nOrderPos ≠ -1 → st.newPos item ∉ st.nOrderPosOffsets)
    (hnew : item.nOrderPos = -1 → st.newPos item ∉ kept)
    (hbelow : item.nOrderPos ≠ -1 → ∀ r ∈ kept, item.nOrderPos < r → st.newPos item < r) :
    st.GoesWell kept item := by
  unfold GoesWell
  split
  · next hnone =>
    have hpos : st.newPos item = st.nOrderPosNext := if_pos hnone
    rw [← hpos]
    exact ⟨hrange.2, hnew hnone⟩
  · next hold =>
    have hq := hitem.resolve_left hold
    have hle := h.nOrderPosOff_le item.nOrderPos
    have hnext := h.next
    have hpos : st.newPos item = int64 (st.raised item) := if_neg hold
    have hraised : st.raised item = item.nOrderPos + st.nOrderPosOff item.nOrderPos := rfl
    have hexact : int64 (st.raised item) = st.raised item := by
      rw [hpos] at hrange
      unfold int64 at hrange ⊢
      rw [Int.bmod_def] at hrange ⊢
      split at hrange <;> omega
    rw [← hexact, ← hpos]
    exact ⟨hrange.2, hfree hold, hbelow hold⟩

theorem reorderFits_of_valid : ∀ {st : ReorderState} {items : List TxPair}, Numbered st →
    (∀ item ∈ items, Assignable item) →
    (∀ x ∈ st.pairs items, 0 ≤ x.2 ∧ x.2 < 2 ^ 63 - 1 ∧ x.2 ∉ st.nOrderPosOffsets ∧
      (x.1.nOrderPos = -1 → x.2 ∉ kept) ∧
      (x.1.nOrderPos ≠ -1 → ∀ r ∈ kept, x.1.nOrderPos < r → x.2 < r)) →
    ((st.pairs items).map Prod.snd).Nodup →
    (∀ r ∈ kept, r < (st.after items).nOrderPosNext) → ReorderFits kept st items
  | _, [], _, _, _, _, hkept => hkept
  | st, item :: items, h, hitems, hall, hnodup, hkept => by
      rw [pairs_cons] at hall hnodup
      obtain ⟨hnotMem, hnodup⟩ := List.nodup_cons.mp hnodup
      obtain ⟨hnonneg, hlt, hfree, hnew, hbelow⟩ := hall _ List.mem_cons_self
      have hitem := hitems item List.mem_cons_self
      have hstep : st.GoesWell kept item :=
        goesWell_of_newPos h hitem ⟨hnonneg, hlt⟩ (fun _ => hfree) hnew hbelow
      obtain ⟨hnumbered, -⟩ := h.step hitem hstep
      refine ⟨hstep, reorderFits_of_valid hnumbered
        (fun item' hitem' => hitems item' (List.mem_cons_of_mem item hitem'))
        (fun x hx => ?_) hnodup hkept⟩
      obtain ⟨hnonneg', hlt', hfree', hrest⟩ := hall x (List.mem_cons_of_mem _ hx)
      refine ⟨hnonneg', hlt', fun hmem => ?_, hrest⟩
      -- the insertion points are the old ones and the position of the first item
      unfold next at hmem
      split at hmem
      · next hnone =>
        rcases List.mem_append.mp hmem with hmem | hmem
        · exact hfree' hmem
        · refine hnotMem (List.mem_map.mpr ⟨x, hx, ?_⟩)
          dsimp only
          rw [List.mem_singleton.mp hmem]
          exact (if_pos hnone).symm
      · exact hfree' hmem

/-! ### Wallets -/

/-- The entries that `ReorderTransactions` does not get to see. -/
def otherAccounts (entries : List CAccountingEntry) : List TxPair :=
  (entries.filter fun acentry => acentry.strAccount ≠ "").map .acentry

/-- All items of a wallet. -/
def walletItems (mapWallet : List ReceivedTx) (entries : List CAccountingEntry) : List TxPair :=
  mapWallet.map .wtx ++ entries.map .acentry

theorem txByTime_perm (mapWallet : List ReceivedTx) (entries : List CAccountingEntry) :
    (txByTime mapWallet entries ++ otherAccounts entries).Perm
      (walletItems mapWallet entries) := by
  have hlisted : ListAccountCreditDebit entries "" =
      entries.filter fun acentry => acentry.strAccount = "" := if_neg (by decide)
  have hsplit : (entries.filter (fun acentry => acentry.strAccount = "") ++
      entries.filter fun acentry => acentry.strAccount ≠ "").Perm entries := by
    have hperm := List.filter_append_perm (fun acentry => acentry.strAccount = "") entries
    simpa only [decide_not] using hperm
  unfold txByTime sortByTime otherAccounts walletItems
  rw [hlisted]
  refine ((List.perm_insertionSort _ _).append_right _).trans ?_
  rw [List.append_assoc, ← List.map_append]
  exact (hsplit.map _).append_left _

theorem txByTime_sorted (mapWallet : List ReceivedTx) (entries : List CAccountingEntry) :
    (txByTime mapWallet entries).Pairwise fun a b => a.time ≤ b.time := by
  have : Std.Total fun a b : TxPair => a.time ≤ b.time := ⟨fun a b => le_total a.time b.time⟩
  have : IsTrans TxPair fun a b => a.time ≤ b.time := ⟨fun _ _ _ hab hbc => hab.trans hbc⟩
  exact List.pairwise_insertionSort _ _

theorem DistinctPositions.perm {items items' : List TxPair} (h : DistinctPositions items)
    (hperm : items.Perm items') : DistinctPositions items' := by
  have hsymm : Std.Symm fun a b : TxPair =>
      a.nOrderPos ≠ -1 → b.nOrderPos ≠ -1 → a.nOrderPos ≠ b.nOrderPos :=
    ⟨fun _ _ hab hb ha => (hab ha hb).symm⟩
  exact (hperm.pairwise_iff fun {_ _} hab => hsymm.symm _ _ hab).mp h

/-- For every wallet and without a failure of the database: the items get a valid order
just when each entry of another account has a position, and every step goes well. -/
theorem reorderTransactions_valid_iff {mapWallet : List ReceivedTx}
    {entries : List CAccountingEntry}
    (hitems : ∀ item ∈ walletItems mapWallet entries, Assignable item)
    (hdistinct : DistinctPositions (walletItems mapWallet entries))
    {fWritten : TxPair → Bool} (hwritten : ∀ item, fWritten item = true) :
    ∃ (moved : List (TxPair × ℤ)) (nOrderPosNext : ℤ),
      moved.map Prod.fst = txByTime mapWallet entries ∧
      ReorderTransactions fWritten mapWallet entries =
        (moved.map fun x => x.1.setOrderPos x.2, nOrderPosNext, .DB_LOAD_OK) ∧
      (ValidOrder (moved ++ unmoved (otherAccounts entries)) nOrderPosNext ↔
        (∀ item ∈ otherAccounts entries, item.nOrderPos ≠ -1) ∧
        ReorderFits ((otherAccounts entries).map TxPair.nOrderPos) .start
          (txByTime mapWallet entries)) := by
  have hperm := txByTime_perm mapWallet entries
  have hitems' := fun item hitem => hitems item (hperm.mem_iff.mp hitem)
  have hdistinct' := hdistinct.perm hperm.symm
  refine ⟨ReorderState.start.pairs (txByTime mapWallet entries),
    (ReorderState.start.after (txByTime mapWallet entries)).nOrderPosNext, pairs_fst _ _,
    reorderItems_eq hwritten _ _, fun hvalid => ?_, fun hfits => ?_⟩
  · have hothers : ∀ item ∈ otherAccounts entries,
        (item, item.nOrderPos) ∈ unmoved (otherAccounts entries) :=
      fun item hitem => List.mem_map_of_mem hitem
    have hpositions : ∀ item ∈ otherAccounts entries, 0 ≤ item.nOrderPos ∧ item.nOrderPos <
        (ReorderState.start.after (txByTime mapWallet entries)).nOrderPosNext :=
      fun item hitem => hvalid.range _ (List.mem_append_right _ (hothers item hitem))
    have hsome : ∀ item ∈ otherAccounts entries, item.nOrderPos ≠ -1 := fun item hitem => by
      have := (hpositions item hitem).1
      omega
    have hdisjoint := hvalid.distinct
    rw [List.map_append, List.nodup_append] at hdisjoint
    obtain ⟨hnodup, -, hapart⟩ := hdisjoint
    have hend := nOrderPosNext_lt .start (txByTime mapWallet entries) (by decide)
    refine ⟨hsome, reorderFits_of_valid numbered_start
      (fun item hitem => hitems' item (List.mem_append_left _ hitem)) (fun x hx => ?_) hnodup
      fun r hr => ?_⟩
    · have hxrange := hvalid.range x (List.mem_append_left _ hx)
      refine ⟨hxrange.1, by omega, List.not_mem_nil, fun _ hmem => ?_, fun hold r hr hlt => ?_⟩
      · obtain ⟨item, hitem, hpos⟩ := List.mem_map.mp hmem
        exact hapart _ (List.mem_map_of_mem hx) _ (List.mem_map_of_mem (hothers item hitem))
          hpos.symm
      · obtain ⟨item, hitem, rfl⟩ := List.mem_map.mp hr
        exact hvalid.ordered x (List.mem_append_left _ hx) _
          (List.mem_append_right _ (hothers item hitem)) hold (hsome item hitem) hlt
    · obtain ⟨item, hitem, rfl⟩ := List.mem_map.mp hr
      exact (hpositions item hitem).2
  · exact validOrder_of_reorderFits hitems' hdistinct' (txByTime_sorted _ _) hfits.1 hfits.2

/-- Two transactions without a position, and a later one with the position 0. -/
def olderPair : List ReceivedTx := [⟨1, 1, -1⟩, ⟨2, 2, -1⟩, ⟨3, 3, 0⟩]

/-- The later one comes between the two others, but a place is left for one only. -/
theorem reorderTransactions_collision :
    (∀ item ∈ walletItems olderPair [], Assignable item) ∧
      DistinctPositions (walletItems olderPair []) ∧
      ReorderTransactions (fun _ => true) olderPair [] =
        ([.wtx ⟨1, 1, 0⟩, .wtx ⟨2, 2, 1⟩, .wtx ⟨3, 3, 1⟩], 2, .DB_LOAD_OK) := by
  refine ⟨?_, ?_, by decide⟩
  · simp [walletItems, olderPair, Assignable, TxPair.nOrderPos]
  · simp [DistinctPositions, walletItems, olderPair, TxPair.nOrderPos]

/-- A transaction without a position between two with one. -/
def onePending : List ReceivedTx := [⟨1, 1, 0⟩, ⟨2, 2, -1⟩, ⟨3, 3, 1⟩]

/-- It comes in between, and an entry of the account "" goes to the end. -/
theorem reorderTransactions_onePending :
    ∃ (moved : List (TxPair × ℤ)) (nOrderPosNext : ℤ),
      ReorderTransactions (fun _ => true) onePending [⟨"", 1, 4, -1⟩] =
        (moved.map fun x => x.1.setOrderPos x.2, nOrderPosNext, .DB_LOAD_OK) ∧
      ValidOrder moved nOrderPosNext := by
  obtain ⟨moved, nOrderPosNext, -, hrun, hvalid⟩ :=
    @reorderTransactions_valid_iff onePending [⟨"", 1, 4, -1⟩]
      (by simp [walletItems, onePending, Assignable, TxPair.nOrderPos])
      (by simp [DistinctPositions, walletItems, onePending, TxPair.nOrderPos])
      (fun _ => true) fun _ => rfl
  have hnone : otherAccounts [⟨"", 1, 4, -1⟩] = [] := by decide
  rw [hnone] at hvalid
  unfold unmoved at hvalid
  rw [List.map_nil, List.map_nil, List.append_nil] at hvalid
  refine ⟨moved, nOrderPosNext, hrun,
    hvalid.mpr ⟨fun item hitem => absurd hitem List.not_mem_nil, ?_⟩⟩
  have hitems : txByTime onePending [⟨"", 1, 4, -1⟩] =
      [.wtx ⟨1, 1, 0⟩, .wtx ⟨2, 2, -1⟩, .wtx ⟨3, 3, 1⟩, .acentry ⟨"", 1, 4, -1⟩] := by decide
  rw [hitems]
  refine ⟨?_, ?_, ?_, ?_, ?_⟩
  · unfold GoesWell
    decide
  · unfold GoesWell
    decide
  · unfold GoesWell
    decide
  · unfold GoesWell
    decide
  · exact fun r hr => absurd hr List.not_mem_nil

end Ziftrcoin.Spec
