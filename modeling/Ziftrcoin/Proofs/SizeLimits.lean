/-
Module: Ziftrcoin.Proofs.SizeLimits
Purpose: The block size limits of the active chain are a function of the sizes
  of its blocks, however the chain came about.
Trusted boundary: none
Main exports: periodSizes, maxBlockSize_function_of_chain
-/
import Mathlib.Algebra.Order.BigOperators.Group.List
import Mathlib.Algebra.Group.Action.Defs
import Mathlib.Algebra.Order.Ring.Nat
import Ziftrcoin.Proofs.SmallNetwork
import Ziftrcoin.Proofs.Tree

namespace Ziftrcoin.Spec

open Ziftrcoin.Lib

/-! ### The rule -/

/-- The sizes of the blocks of the period number `k`. -/
def periodSizes (sizes : Nat → Nat) (k : Nat) : List Nat :=
  (List.range MAX_BLOCK_SIZE_RECALC_PERIOD).map fun i =>
    sizes (k * MAX_BLOCK_SIZE_RECALC_PERIOD + i)

def averageSize (sizes : List Nat) : Nat := sizes.sum / MAX_BLOCK_SIZE_RECALC_PERIOD

def medianSize (sizes : List Nat) : Nat :=
  (sizes.insertionSort (· ≤ ·)).getD (MAX_BLOCK_SIZE_RECALC_PERIOD / 2) 0

/-- The limit after a period, as 32-bit arithmetic has it. -/
def limitAfterPeriod (nPrevLimit : Nat) (sizes : List Nat) : Nat :=
  let nNewLimit :=
    if uint32 (2 * nPrevLimit) < uint32 (3 * uint32 (averageSize sizes)) then
      if nPrevLimit < uint32 (medianSize sizes * 2) then
        uint32 (11 * nPrevLimit) / 10
      else nPrevLimit
    else nPrevLimit
  max (max nNewLimit nPrevLimit) MIN_MAX_BLOCK_SIZE

/-- The limit of the period number `k`, computed from the first block on. -/
def limitOfPeriod (sizes : Nat → Nat) : (k : Nat) → Nat
  | 0 => MIN_MAX_BLOCK_SIZE
  | k + 1 => limitAfterPeriod (limitOfPeriod sizes k) (periodSizes sizes k)

theorem period_pos : 0 < MAX_BLOCK_SIZE_RECALC_PERIOD := by decide

theorem min_le_limitOfPeriod (sizes : Nat → Nat) :
    ∀ k, MIN_MAX_BLOCK_SIZE ≤ limitOfPeriod sizes k
  | 0 => Nat.le_refl _
  | _ + 1 => Nat.le_max_right _ _

theorem limitOfPeriod_le_succ (sizes : Nat → Nat) (k : Nat) :
    limitOfPeriod sizes k ≤ limitOfPeriod sizes (k + 1) := by
  rw [limitOfPeriod, limitAfterPeriod]
  exact (Nat.le_max_right _ _).trans (Nat.le_max_left _ _)

/-- The limit of a period depends on the blocks before it only. -/
theorem limitOfPeriod_congr {sizes sizes' : Nat → Nat} {k : Nat}
    (h : ∀ i < k * MAX_BLOCK_SIZE_RECALC_PERIOD, sizes i = sizes' i) :
    limitOfPeriod sizes k = limitOfPeriod sizes' k := by
  induction k with
  | zero => rfl
  | succ k ih =>
      have hmul : (k + 1) * MAX_BLOCK_SIZE_RECALC_PERIOD =
          k * MAX_BLOCK_SIZE_RECALC_PERIOD + MAX_BLOCK_SIZE_RECALC_PERIOD :=
        Nat.succ_mul k _
      have hbefore : limitOfPeriod sizes k = limitOfPeriod sizes' k :=
        ih fun i hi => h i (by omega)
      have hperiod : periodSizes sizes k = periodSizes sizes' k := by
        refine List.map_congr_left fun i hi => h _ ?_
        have hlt := List.mem_range.mp hi
        omega
      rw [limitOfPeriod, limitOfPeriod, hbefore, hperiod]

/-! ### Sizes in the index -/

/-- The index is a tree, and `nChainSize` adds up the sizes of a branch. -/
structure Indexed (tree : BlockTree) : Prop extends WellLinked tree where
  chainSize : ∀ {p : Ptr} {pindex : CBlockIndex}, tree[p]? = some pindex →
    pindex.nChainSize =
      ((tree.deref pindex.pprev).map CBlockIndex.nChainSize).getD 0 + pindex.nSize

/-- The size of the block at a height. -/
def sizeAt (tree : BlockTree) (xs : List Ptr) (i : Nat) : Nat :=
  ((tree.deref xs[i]?).map CBlockIndex.nSize).getD 0

/-- The sizes of the blocks below a height. -/
def sizeBelow (tree : BlockTree) (xs : List Ptr) (n : Nat) : Nat :=
  ((List.range n).map (sizeAt tree xs)).sum

theorem sizeBelow_succ (tree : BlockTree) (xs : List Ptr) (n : Nat) :
    sizeBelow tree xs (n + 1) = sizeBelow tree xs n + sizeAt tree xs n := by
  unfold sizeBelow
  rw [List.range_succ, List.map_append, List.sum_append]
  simp

/-- `nChainSize` is the size of the branch up to the entry. -/
theorem Indexed.chainSize_eq {tree : BlockTree} (h : Indexed tree) {xs : List Ptr}
    (hxs : Branch tree.pprev xs) :
    ∀ {i : Nat} {p : Ptr} {pindex : CBlockIndex}, xs[i]? = some p →
      tree[p]? = some pindex → pindex.nChainSize = sizeBelow tree xs (i + 1)
  | 0, p, pindex, hi, hp => by
      have hroot := hxs.parent_zero hi
      rw [pprev_of_getElem? hp] at hroot
      have hsize : sizeAt tree xs 0 = pindex.nSize := by
        simp [sizeAt, BlockTree.deref, hi, hp]
      rw [h.chainSize hp, hroot, sizeBelow_succ, hsize]
      rfl
  | i + 1, p, pindex, hi, hp => by
      have hlt := (List.getElem?_eq_some_iff.mp hi).1
      have hget : xs[i]? = some xs[i] := List.getElem?_eq_getElem (by omega)
      have hparent := hxs.parent_succ hi
      rw [pprev_of_getElem? hp, hget] at hparent
      obtain ⟨_, prev, hprev, _⟩ := h.child hp hparent
      have hsize : sizeAt tree xs (i + 1) = pindex.nSize := by
        simp [sizeAt, BlockTree.deref, hi, hp]
      have hderef : tree.deref pindex.pprev = some prev := by
        rw [hparent]
        exact hprev
      rw [h.chainSize hp, hderef, sizeBelow_succ, hsize,
        ← h.chainSize_eq hxs hget hprev]
      rfl

/-! ### One more limit -/

/-- The size of a part of a branch. -/
theorem sum_periodSizes (tree : BlockTree) (xs : List Ptr) (k n : Nat) :
    sizeBelow tree xs (k + n) =
      sizeBelow tree xs k + ((List.range n).map fun i => sizeAt tree xs (k + i)).sum := by
  induction n with
  | zero => simp
  | succ n ih =>
      rw [← Nat.add_assoc, sizeBelow_succ, ih, List.range_succ, List.map_append,
        List.sum_append]
      simp [Nat.add_assoc]

/-- What `nextLimit` computes at the end of the period number `k`. -/
theorem nextLimit_eq {tree : BlockTree} (h : Indexed tree) {chain : CChain}
    {xs : List Ptr} (hpath : Path tree chain xs) {k : Nat} {pStart : CBlockIndex}
    (hstart : tree.deref xs[k * MAX_BLOCK_SIZE_RECALC_PERIOD +
      (MAX_BLOCK_SIZE_RECALC_PERIOD - 1)]? = some pStart)
    (hlimit : chain.MaxBlockSize (k * MAX_BLOCK_SIZE_RECALC_PERIOD) =
      limitOfPeriod (sizeAt tree xs) k) :
    CChain.nextLimit tree chain pStart = limitOfPeriod (sizeAt tree xs) (k + 1) := by
  have hpos := period_pos
  obtain ⟨p, hp, hentry⟩ := Option.bind_eq_some_iff.mp hstart
  have hlt := (List.getElem?_eq_some_iff.mp hp).1
  have hheight := h.height_eq hpath.branch hp hentry
  have hmod : (k * MAX_BLOCK_SIZE_RECALC_PERIOD + (MAX_BLOCK_SIZE_RECALC_PERIOD - 1)) %
      MAX_BLOCK_SIZE_RECALC_PERIOD = MAX_BLOCK_SIZE_RECALC_PERIOD - 1 := by
    rw [Nat.mul_comm, Nat.mul_add_mod, Nat.mod_eq_of_lt (by omega)]
  have hfirst : pStart.nHeight - pStart.nHeight % MAX_BLOCK_SIZE_RECALC_PERIOD =
      k * MAX_BLOCK_SIZE_RECALC_PERIOD := by
    rw [hheight, hmod, Nat.add_sub_cancel]
  have hprev : chain.MaxBlockSize pStart.nHeight = limitOfPeriod (sizeAt tree xs) k := by
    rw [← hlimit]
    unfold CChain.MaxBlockSize
    rw [hfirst, Nat.mul_mod_left, Nat.sub_zero]
  -- The first block of the period.
  obtain ⟨q, hq⟩ : ∃ q, xs[k * MAX_BLOCK_SIZE_RECALC_PERIOD]? = some q :=
    ⟨_, List.getElem?_eq_getElem (by omega)⟩
  obtain ⟨pBegin, hbegin⟩ : ∃ pBegin, tree[q]? = some pBegin :=
    ⟨_, List.getElem?_eq_getElem (hpath.known q (List.mem_of_getElem? hq))⟩
  have hderef : tree.deref (chain.atHeight (k * MAX_BLOCK_SIZE_RECALC_PERIOD)) =
      some pBegin := by
    rw [hpath.atHeight_eq, hq]
    exact hbegin
  have hsizes : CChain.blockSizes tree chain (k * MAX_BLOCK_SIZE_RECALC_PERIOD) =
      periodSizes (sizeAt tree xs) k := by
    unfold CChain.blockSizes periodSizes sizeAt
    simp only [hpath.atHeight_eq]
  have haverage : pStart.nChainSize - pBegin.nChainSize + pBegin.nSize =
      (periodSizes (sizeAt tree xs) k).sum := by
    have hsizeBegin : sizeAt tree xs (k * MAX_BLOCK_SIZE_RECALC_PERIOD) =
        pBegin.nSize := by
      simp [sizeAt, BlockTree.deref, hq, hbegin]
    have hlast := h.chainSize_eq hpath.branch hp hentry
    have hfirst' := h.chainSize_eq hpath.branch hq hbegin
    rw [Nat.add_assoc, Nat.sub_add_cancel hpos, sum_periodSizes] at hlast
    rw [sizeBelow_succ, hsizeBegin] at hfirst'
    have hmem : pBegin.nSize ∈ periodSizes (sizeAt tree xs) k := by
      refine List.mem_map.mpr ⟨0, List.mem_range.mpr hpos, ?_⟩
      rw [Nat.add_zero, hsizeBegin]
    have hge := List.le_sum_of_mem hmem
    unfold periodSizes at hge ⊢
    omega
  unfold CChain.nextLimit
  simp only [hfirst, hderef, hprev, hsizes, Option.getD_some, haverage]
  rfl

/-! ### The loop of `SetTip` -/

/-- The limits of the periods that start up to `n` are those of the rule, no
other limit is wrong, and there is none beyond the next block. -/
structure LimitsUpTo (tree : BlockTree) (chain : CChain) (xs : List Ptr) (n : Nat) :
    Prop where
  path : Path tree chain xs
  right : ∀ k, k * MAX_BLOCK_SIZE_RECALC_PERIOD ≤ n →
    chain.mapBlockSizeLimits (k * MAX_BLOCK_SIZE_RECALC_PERIOD) =
      some (limitOfPeriod (sizeAt tree xs) k)
  notWrong : ∀ k, chain.mapBlockSizeLimits (k * MAX_BLOCK_SIZE_RECALC_PERIOD) = none ∨
    chain.mapBlockSizeLimits (k * MAX_BLOCK_SIZE_RECALC_PERIOD) =
      some (limitOfPeriod (sizeAt tree xs) k)
  beyond : ∀ h, xs.length < h → chain.mapBlockSizeLimits h = none

/-- All limits are those of the rule. -/
def LimitsRight (tree : BlockTree) (chain : CChain) (xs : List Ptr) : Prop :=
  LimitsUpTo tree chain xs xs.length

theorem multiple_le {j k : Nat} (h : k * MAX_BLOCK_SIZE_RECALC_PERIOD <
    (j + 1) * MAX_BLOCK_SIZE_RECALC_PERIOD) :
    k * MAX_BLOCK_SIZE_RECALC_PERIOD ≤ j * MAX_BLOCK_SIZE_RECALC_PERIOD :=
  Nat.mul_le_mul_right _ (Nat.le_of_lt_succ (Nat.lt_of_mul_lt_mul_right h))

theorem multiple_inj {j k : Nat} (h : j * MAX_BLOCK_SIZE_RECALC_PERIOD =
    k * MAX_BLOCK_SIZE_RECALC_PERIOD) : j = k :=
  Nat.eq_of_mul_eq_mul_right period_pos h

namespace LimitsUpTo

variable {tree : BlockTree} {chain : CChain} {xs : List Ptr} {n : Nat}

theorem maxBlockSize_eq (h : LimitsUpTo tree chain xs n) {nHeight : Nat}
    (hle : nHeight ≤ n) :
    chain.MaxBlockSize nHeight = limitOfPeriod (sizeAt tree xs)
      (nHeight / MAX_BLOCK_SIZE_RECALC_PERIOD) := by
  have hdiv := Nat.div_add_mod' nHeight MAX_BLOCK_SIZE_RECALC_PERIOD
  have hfirst : nHeight - nHeight % MAX_BLOCK_SIZE_RECALC_PERIOD =
      nHeight / MAX_BLOCK_SIZE_RECALC_PERIOD * MAX_BLOCK_SIZE_RECALC_PERIOD := by omega
  unfold CChain.MaxBlockSize
  rw [hfirst, h.right _ (by omega)]
  rfl

/-- One round of the loop: the end of a period. -/
theorem endOfPeriod (hindexed : Indexed tree) {k : Nat}
    (h : LimitsUpTo tree chain xs (k * MAX_BLOCK_SIZE_RECALC_PERIOD +
      (MAX_BLOCK_SIZE_RECALC_PERIOD - 1)))
    {pStart : CBlockIndex} (hstart : tree.deref xs[k * MAX_BLOCK_SIZE_RECALC_PERIOD +
      (MAX_BLOCK_SIZE_RECALC_PERIOD - 1)]? = some pStart) :
    LimitsUpTo tree
      (if (chain.mapBlockSizeLimits ((k + 1) * MAX_BLOCK_SIZE_RECALC_PERIOD)).getD 0 = 0
        then { chain with
          mapBlockSizeLimits := Function.update chain.mapBlockSizeLimits
            ((k + 1) * MAX_BLOCK_SIZE_RECALC_PERIOD)
            (some (CChain.nextLimit tree chain pStart)) }
        else chain) xs ((k + 1) * MAX_BLOCK_SIZE_RECALC_PERIOD) := by
  have hpos := period_pos
  have hmul : (k + 1) * MAX_BLOCK_SIZE_RECALC_PERIOD =
      k * MAX_BLOCK_SIZE_RECALC_PERIOD + MAX_BLOCK_SIZE_RECALC_PERIOD :=
    Nat.succ_mul k _
  obtain ⟨p, hp, _⟩ := Option.bind_eq_some_iff.mp hstart
  have hlt := (List.getElem?_eq_some_iff.mp hp).1
  have hlimit : chain.MaxBlockSize (k * MAX_BLOCK_SIZE_RECALC_PERIOD) =
      limitOfPeriod (sizeAt tree xs) k := by
    rw [h.maxBlockSize_eq (by omega), Nat.mul_div_cancel _ hpos]
  have hnext := nextLimit_eq hindexed h.path hstart hlimit
  have hold : ∀ j, j * MAX_BLOCK_SIZE_RECALC_PERIOD ≤
      (k + 1) * MAX_BLOCK_SIZE_RECALC_PERIOD → j ≠ k + 1 →
      chain.mapBlockSizeLimits (j * MAX_BLOCK_SIZE_RECALC_PERIOD) =
        some (limitOfPeriod (sizeAt tree xs) j) := by
    intro j hj hne
    refine h.right j ?_
    have hlt : j * MAX_BLOCK_SIZE_RECALC_PERIOD <
        (k + 1) * MAX_BLOCK_SIZE_RECALC_PERIOD :=
      Nat.lt_of_le_of_ne hj fun heq => hne (multiple_inj heq)
    have := multiple_le hlt
    omega
  split
  · refine ⟨⟨h.path.vChain_eq, h.path.branch, h.path.known⟩, fun j hj => ?_, fun j => ?_,
      fun height hheight => ?_⟩
    · by_cases hne : j = k + 1
      · rw [hne, ← hnext]
        exact Function.update_self ..
      · dsimp only
        rw [Function.update_of_ne fun heq => hne (multiple_inj heq)]
        exact hold j hj hne
    · by_cases hne : j = k + 1
      · refine .inr ?_
        rw [hne, ← hnext]
        exact Function.update_self ..
      · dsimp only
        rw [Function.update_of_ne fun heq => hne (multiple_inj heq)]
        exact h.notWrong j
    · dsimp only
      rw [Function.update_of_ne (by omega)]
      exact h.beyond height hheight
  · next hset =>
      refine ⟨h.path, fun j hj => ?_, h.notWrong, h.beyond⟩
      by_cases hne : j = k + 1
      · rcases h.notWrong j with hnone | hsome
        · rw [hne] at hnone
          rw [hnone] at hset
          exact absurd rfl hset
        · exact hsome
      · exact hold j hj hne

end LimitsUpTo

/-- What one round of the loop does at the height `nStart`. -/
def roundLimits (tree : BlockTree) (chain : CChain) (pStart : CBlockIndex) : CChain :=
  if (pStart.nHeight + 1) % MAX_BLOCK_SIZE_RECALC_PERIOD == 0 &&
      (chain.mapBlockSizeLimits (pStart.nHeight + 1)).getD 0 == 0 then
    { chain with
      mapBlockSizeLimits := Function.update chain.mapBlockSizeLimits
        (pStart.nHeight + 1) (some (CChain.nextLimit tree chain pStart)) }
  else chain

theorem updateLimits_succ {tree : BlockTree} {nTipHeight fuel nStart : Nat}
    {chain : CChain} {pStart : CBlockIndex}
    (h : tree.deref (chain.atHeight nStart) = some pStart) :
    CChain.updateLimits tree nTipHeight (fuel + 1) nStart chain =
      if min (pStart.nHeight + MAX_BLOCK_SIZE_RECALC_PERIOD) nTipHeight = nStart then
        roundLimits tree chain pStart
      else CChain.updateLimits tree nTipHeight fuel
        (min (pStart.nHeight + MAX_BLOCK_SIZE_RECALC_PERIOD) nTipHeight)
        (roundLimits tree chain pStart) := by
  rw [CChain.updateLimits, h]
  rfl

theorem roundLimits_upTo {tree : BlockTree} (hindexed : Indexed tree) {xs : List Ptr}
    {nStart : Nat} {chain : CChain} {pStart : CBlockIndex}
    (h : LimitsUpTo tree chain xs nStart) (hstart : tree.deref xs[nStart]? = some pStart)
    (hheight : pStart.nHeight = nStart) :
    LimitsUpTo tree (roundLimits tree chain pStart) xs (nStart + 1) := by
  have hpos := period_pos
  unfold roundLimits
  rw [hheight]
  by_cases hmod : (nStart + 1) % MAX_BLOCK_SIZE_RECALC_PERIOD = 0
  · -- The end of a period.
    obtain ⟨k, hk⟩ : ∃ k, nStart + 1 = (k + 1) * MAX_BLOCK_SIZE_RECALC_PERIOD := by
      obtain ⟨j, hj⟩ := Nat.dvd_of_mod_eq_zero hmod
      cases j with
      | zero => omega
      | succ k => exact ⟨k, by rw [hj, Nat.mul_comm]⟩
    have hmul : (k + 1) * MAX_BLOCK_SIZE_RECALC_PERIOD =
        k * MAX_BLOCK_SIZE_RECALC_PERIOD + MAX_BLOCK_SIZE_RECALC_PERIOD :=
      Nat.succ_mul k _
    obtain rfl : nStart = k * MAX_BLOCK_SIZE_RECALC_PERIOD +
        (MAX_BLOCK_SIZE_RECALC_PERIOD - 1) := by omega
    have hround := h.endOfPeriod hindexed hstart
    rw [hmod, hk]
    simpa using hround
  · have hfalse : ((nStart + 1) % MAX_BLOCK_SIZE_RECALC_PERIOD == 0) = false := by
      simpa using hmod
    rw [hfalse, Bool.false_and, if_neg Bool.false_ne_true]
    refine ⟨h.path, fun k hk => h.right k ?_, h.notWrong, h.beyond⟩
    by_contra hlt
    have heq : nStart + 1 = k * MAX_BLOCK_SIZE_RECALC_PERIOD := by omega
    rw [heq, Nat.mul_mod_left] at hmod
    exact hmod rfl

/-- The entry in which a round of the loop starts. -/
theorem LimitsUpTo.start_entry {tree : BlockTree} (hindexed : Indexed tree) {xs : List Ptr}
    {nStart : Nat} {chain : CChain} (h : LimitsUpTo tree chain xs nStart)
    (hstart : nStart < xs.length) :
    ∃ pStart, tree.deref xs[nStart]? = some pStart ∧ pStart.nHeight = nStart ∧
      LimitsUpTo tree (roundLimits tree chain pStart) xs (nStart + 1) := by
  obtain ⟨p, hp⟩ : ∃ p, xs[nStart]? = some p := ⟨_, List.getElem?_eq_getElem hstart⟩
  obtain ⟨pStart, hentry⟩ : ∃ pStart, tree[p]? = some pStart :=
    ⟨_, List.getElem?_eq_getElem (h.path.known p (List.mem_of_getElem? hp))⟩
  have hderef : tree.deref xs[nStart]? = some pStart := by rw [hp]; exact hentry
  have hheight := hindexed.height_eq h.path.branch hp hentry
  exact ⟨pStart, hderef, hheight, roundLimits_upTo hindexed h hderef hheight⟩

/-- The loop over the ends of periods: it starts at the end of the first
period, or at the tip, and arrives at the tip. -/
theorem updateLimits_right {tree : BlockTree} (hindexed : Indexed tree)
    {xs : List Ptr} {nTipHeight : Nat} (htip : xs.length = nTipHeight + 1) (fuel : Nat) :
    ∀ {nStart : Nat} {chain : CChain}, LimitsUpTo tree chain xs nStart →
      nStart ≤ nTipHeight → nTipHeight ≤ nStart + fuel * MAX_BLOCK_SIZE_RECALC_PERIOD →
      (nStart = nTipHeight ∨ (nStart + 1) % MAX_BLOCK_SIZE_RECALC_PERIOD = 0) →
      LimitsRight tree
        (CChain.updateLimits tree nTipHeight (fuel + 1) nStart chain) xs := by
  have hpos := period_pos
  induction fuel with
  | zero =>
      intro nStart chain h hle hfuel _
      obtain ⟨pStart, hderef, hheight, hround⟩ := h.start_entry hindexed (by omega)
      rw [updateLimits_succ (by rw [h.path.atHeight_eq, hderef]), if_pos (by omega)]
      unfold LimitsRight
      rwa [show xs.length = nStart + 1 by omega]
  | succ fuel ih =>
      intro nStart chain h hle hfuel hend
      have hmul : (fuel + 1) * MAX_BLOCK_SIZE_RECALC_PERIOD =
          fuel * MAX_BLOCK_SIZE_RECALC_PERIOD + MAX_BLOCK_SIZE_RECALC_PERIOD :=
        Nat.succ_mul fuel _
      obtain ⟨pStart, hderef, hheight, hround⟩ := h.start_entry hindexed (by omega)
      rw [updateLimits_succ (by rw [h.path.atHeight_eq, hderef])]
      by_cases hstop : nStart = nTipHeight
      · rw [if_pos (by omega)]
        unfold LimitsRight
        rwa [show xs.length = nStart + 1 by omega]
      · rw [if_neg (by omega), hheight]
        have hboundary := hend.resolve_left hstop
        refine ih ⟨hround.path, fun k hk => hround.right k ?_, hround.notWrong,
          hround.beyond⟩ (Nat.min_le_right _ _) (by omega) ?_
        · -- No period starts between here and the next end of a period.
          obtain ⟨j, hj⟩ := Nat.dvd_of_mod_eq_zero hboundary
          rw [Nat.mul_comm] at hj
          have hmul' : (j + 1) * MAX_BLOCK_SIZE_RECALC_PERIOD =
              j * MAX_BLOCK_SIZE_RECALC_PERIOD + MAX_BLOCK_SIZE_RECALC_PERIOD :=
            Nat.succ_mul j _
          have := multiple_le (j := j) (k := k) (by omega)
          omega
        · rcases Nat.le_total (nStart + MAX_BLOCK_SIZE_RECALC_PERIOD) nTipHeight with
            hmin | hmin
          · refine .inr ?_
            rw [Nat.min_eq_left hmin, Nat.add_right_comm, Nat.add_mod_right, hboundary]
          · exact .inl (Nat.min_eq_right hmin)

/-! ### Moving the tip -/

theorem limitsRight_empty (tree : BlockTree) : LimitsRight tree .empty [] := by
  have hpos := period_pos
  have hright : ∀ k, k * MAX_BLOCK_SIZE_RECALC_PERIOD = 0 →
      CChain.empty.mapBlockSizeLimits (k * MAX_BLOCK_SIZE_RECALC_PERIOD) =
        some (limitOfPeriod (sizeAt tree []) k) := by
    intro k hk
    have hzero : k = 0 := (Nat.mul_eq_zero.mp hk).resolve_right hpos.ne'
    rw [hk, hzero]
    rfl
  refine ⟨path_empty tree, fun k hk => hright k (Nat.le_zero.mp hk), fun k => ?_,
    fun h hh => if_neg (Nat.pos_iff_ne_zero.mp hh)⟩
  by_cases hk : k * MAX_BLOCK_SIZE_RECALC_PERIOD = 0
  · exact .inr (hright k hk)
  · exact .inl (if_neg hk)

/-- The chain that the loop over the periods starts from. -/
def cutLimits (chain : CChain) (nTipHeight : Nat) (vChain : List (Option Ptr))
    (nTotalCoinsCreated : Int) : CChain :=
  { vChain, nTotalCoinsCreated,
    mapBlockSizeLimits := fun nHeight =>
      if 1 + nTipHeight < nHeight then none else chain.mapBlockSizeLimits nHeight }

theorem setTip_active (cfg : Config) {tree : BlockTree} (chain : CChain) {p : Ptr}
    {tip : CBlockIndex} (h : tree[p]? = some tip) :
    ∃ nTotalCoinsCreated, chain.SetTip cfg tree true (some p) =
      CChain.updateLimits tree tip.nHeight
        (tip.nHeight / MAX_BLOCK_SIZE_RECALC_PERIOD + 2)
        (min tip.nHeight (MAX_BLOCK_SIZE_RECALC_PERIOD - 1))
        (cutLimits chain tip.nHeight
          (chain.SetTip cfg tree false (some p)).vChain nTotalCoinsCreated) := by
  have hderef : tree.deref (some p) = some tip := h
  rw [vChain_setTip cfg h]
  unfold CChain.SetTip
  rw [hderef]
  exact ⟨_, rfl⟩

theorem sizeAt_eq_of_prefixes {tree : BlockTree} {xs ys : List Ptr} {i : Nat}
    (h : xs <+: ys) (hi : i < xs.length) : sizeAt tree xs i = sizeAt tree ys i := by
  obtain ⟨zs, rfl⟩ := h
  unfold sizeAt
  rw [List.getElem?_append_left hi]

/-- When one of two branches extends the other, moving the tip from the one to
the other leaves the limits of the rule. -/
theorem setTip_limitsRight (cfg : Config) {tree : BlockTree} (hindexed : Indexed tree)
    {chain : CChain} {xs ys : List Ptr} (h : LimitsRight tree chain xs)
    (hys : Branch tree.pprev ys) (hknown : ∀ p ∈ ys, p < tree.length)
    (hrel : xs <+: ys ∨ ys <+: xs) :
    LimitsRight tree (chain.SetTip cfg tree true ys.getLast?) ys := by
  have hpos := period_pos
  cases hlast : ys.getLast? with
  | none =>
      rw [List.getLast?_eq_none_iff] at hlast
      rw [hlast]
      exact limitsRight_empty tree
  | some p =>
      obtain ⟨tip, hentry⟩ : ∃ tip, tree[p]? = some tip :=
        ⟨_, List.getElem?_eq_getElem (hknown p (List.mem_of_getLast? hlast))⟩
      have hp : ys[ys.length - 1]? = some p := by
        rw [← List.getLast?_eq_getElem?, hlast]
      have hlen := (List.getElem?_eq_some_iff.mp hp).1
      have hheight := hindexed.height_eq hys hp hentry
      have hpath := Path.setTip cfg hindexed.toWellLinked h.path hys hknown false
      rw [hlast] at hpath
      obtain ⟨nTotal, hset⟩ := setTip_active cfg chain hentry
      rw [hset]
      have hdiv := Nat.lt_div_mul_add hpos (a := tip.nHeight)
      refine updateLimits_right hindexed (by omega) _ ⟨⟨hpath.vChain_eq, hys, hknown⟩,
        fun k hk => ?_, fun k => ?_, fun height hh => ?_⟩ (Nat.min_le_left _ _) ?_ ?_
      · have hzero : k = 0 := by
          by_contra hne
          have hge := Nat.le_mul_of_pos_left MAX_BLOCK_SIZE_RECALC_PERIOD
            (Nat.pos_of_ne_zero hne)
          have hlt := hk.trans (Nat.min_le_right _ _)
          omega
        rw [hzero, Nat.zero_mul]
        have hold := h.right 0 (by rw [Nat.zero_mul]; exact Nat.zero_le _)
        rw [Nat.zero_mul] at hold
        unfold cutLimits
        dsimp only
        rw [if_neg (Nat.not_lt_zero _)]
        exact hold
      · unfold cutLimits
        dsimp only
        split
        · exact .inl rfl
        · next hcut =>
            rcases h.notWrong k with hnone | hsome
            · exact .inl hnone
            · have hk : k * MAX_BLOCK_SIZE_RECALC_PERIOD ≤ xs.length := by
                by_contra hgt
                rw [h.beyond _ (by omega)] at hsome
                cases hsome
              refine .inr (hsome.trans ?_)
              rw [limitOfPeriod_congr fun i hi => ?_]
              rcases hrel with hrel | hrel
              · exact sizeAt_eq_of_prefixes hrel (by omega)
              · exact (sizeAt_eq_of_prefixes hrel (by omega)).symm
      · exact if_pos (by omega)
      · rw [Nat.succ_mul]
        omega
      · rcases Nat.le_total tip.nHeight (MAX_BLOCK_SIZE_RECALC_PERIOD - 1) with hle | hle
        · exact .inl (Nat.min_eq_left hle)
        · rw [Nat.min_eq_right hle, Nat.sub_add_cancel hpos, Nat.mod_self]
          exact .inr rfl

/-! ### The index grows -/

theorem Indexed.of_fixed {tree tree' : BlockTree}
    (h : tree'.map CBlockIndex.fixed = tree.map CBlockIndex.fixed)
    (hindexed : Indexed tree) : Indexed tree' := by
  refine ⟨hindexed.toWellLinked.of_fixed h, fun {p pindex} hp => ?_⟩
  obtain ⟨pindex', hp', hfixed⟩ := getElem?_of_fixed h hp
  have hsize := hindexed.chainSize hp'
  have hprev : (tree'.deref pindex'.pprev).map CBlockIndex.nChainSize =
      (tree.deref pindex'.pprev).map CBlockIndex.nChainSize := by
    have hmap : (tree'.deref pindex'.pprev).map CBlockIndex.fixed =
        (tree.deref pindex'.pprev).map CBlockIndex.fixed := by
      cases pindex'.pprev with
      | none => rfl
      | some q =>
          have hq := congrArg (fun t => t[q]?) h
          simp only [List.getElem?_map] at hq
          exact hq
    have hsizes := congrArg (Option.map CBlockIndex.nChainSize) hmap
    rw [Option.map_map, Option.map_map] at hsizes
    exact hsizes
  rw [← fixed_eq_iff.mp hfixed]
  exact hsize.trans (by rw [hprev])

theorem deref_append {tree : BlockTree} {pindexNew prev : CBlockIndex}
    {pindex : Option Ptr} (h : tree.deref pindex = some prev) :
    BlockTree.deref (tree ++ [pindexNew]) pindex = some prev := by
  obtain ⟨p, rfl, hp⟩ := Option.bind_eq_some_iff.mp h
  have hlt := (List.getElem?_eq_some_iff.mp hp).1
  exact (List.getElem?_append_left hlt).trans hp

/-- A new entry is one higher than its predecessor and adds its size. -/
theorem Indexed.append {tree : BlockTree} (h : Indexed tree) {pindex : CBlockIndex}
    (hnew : match pindex.pprev with
      | none => tree = [] ∧ pindex.nHeight = 0 ∧ pindex.nChainSize = pindex.nSize
      | some q => ∃ prev, tree[q]? = some prev ∧ pindex.nHeight = prev.nHeight + 1 ∧
          pindex.nChainSize = prev.nChainSize + pindex.nSize) :
    Indexed (tree ++ [pindex]) := by
  constructor
  · apply h.toWellLinked.append
    cases hq : pindex.pprev with
    | none =>
        rw [hq] at hnew
        exact ⟨hnew.1, hnew.2.1⟩
    | some q =>
        rw [hq] at hnew
        obtain ⟨prev, hprev, hheight, _⟩ := hnew
        exact ⟨prev, hprev, hheight⟩
  · intro p e he
    rcases Nat.lt_or_ge p tree.length with hlt | hge
    · rw [List.getElem?_append_left hlt] at he
      rw [h.chainSize he]
      cases hq : e.pprev with
      | none => rfl
      | some q =>
          obtain ⟨_, prev, hprev, _⟩ := h.child he hq
          have hderef : tree.deref (some q) = some prev := hprev
          rw [hderef, deref_append hderef]
    · rw [List.getElem?_append_right hge, List.getElem?_singleton,
        Option.ite_none_right_eq_some, Option.some.injEq] at he
      obtain ⟨_, rfl⟩ := he
      cases hq : pindex.pprev with
      | none =>
          rw [hq] at hnew
          rw [hnew.2.2]
          exact (Nat.zero_add _).symm
      | some q =>
          rw [hq] at hnew
          obtain ⟨prev, hprev, _, hsize⟩ := hnew
          have hderef : tree.deref (some q) = some prev := hprev
          rw [deref_append hderef, hsize]
          rfl

/-- The old index is the beginning of the new one, flags apart. -/
def Grows (tree tree' : BlockTree) : Prop :=
  tree.map CBlockIndex.fixed <+: tree'.map CBlockIndex.fixed

theorem Grows.entry {tree tree' : BlockTree} (h : Grows tree tree') {p : Ptr}
    (hp : p < tree.length) :
    tree'[p]?.map CBlockIndex.fixed = tree[p]?.map CBlockIndex.fixed := by
  obtain ⟨rest, hrest⟩ := h
  have hmap := congrArg (fun t => t[p]?) hrest
  simp only [List.getElem?_map] at hmap
  rw [← hmap, List.getElem?_append_left (by rw [List.length_map]; exact hp),
    List.getElem?_map]

theorem Grows.length_le {tree tree' : BlockTree} (h : Grows tree tree') :
    tree.length ≤ tree'.length := by
  have hlen := List.IsPrefix.length_le h
  rwa [List.length_map, List.length_map] at hlen

theorem Grows.path {tree tree' : BlockTree} (h : Grows tree tree') {chain : CChain}
    {xs : List Ptr} (hpath : Path tree chain xs) : Path tree' chain xs := by
  refine ⟨hpath.vChain_eq, fun i p hi => ?_, fun p hp =>
    (hpath.known p hp).trans_le h.length_le⟩
  have hlt := hpath.known p (List.mem_of_getElem? hi)
  rw [← hpath.branch i p hi]
  have hentry := congrArg (fun e => Option.bind e CBlockIndex.pprev) (h.entry hlt)
  simp only [Option.bind_map] at hentry
  exact hentry

theorem Grows.sizeAt_eq {tree tree' : BlockTree} (h : Grows tree tree') {xs : List Ptr}
    (hknown : ∀ p ∈ xs, p < tree.length) : sizeAt tree' xs = sizeAt tree xs := by
  funext i
  unfold sizeAt BlockTree.deref
  cases hi : xs[i]? with
  | none => rfl
  | some p =>
      have hlt := hknown p (List.mem_of_getElem? hi)
      have hentry := congrArg (Option.map CBlockIndex.nSize) (h.entry hlt)
      rw [Option.map_map, Option.map_map] at hentry
      exact congrArg (fun o => Option.getD o 0) hentry

theorem LimitsUpTo.grow {tree tree' : BlockTree} (hgrows : Grows tree tree')
    {chain : CChain} {xs : List Ptr} {n : Nat} (h : LimitsUpTo tree chain xs n) :
    LimitsUpTo tree' chain xs n := by
  have hsize := hgrows.sizeAt_eq h.path.known
  refine ⟨hgrows.path h.path, ?_, ?_, h.beyond⟩
  · rw [hsize]
    exact h.right
  · rw [hsize]
    exact h.notWrong

/-! ### Runs -/

/-- A run of the active chain: it is empty or has been loaded, and then moves
by a block at a time while the index grows. -/
inductive LimitRun (cfg : Config) : BlockTree → CChain → Prop
  | start {tree : BlockTree} (h : Indexed tree) : LimitRun cfg tree .empty
  | load {tree : BlockTree} {p : Ptr} (h : Indexed tree) (hp : p < tree.length) :
      LimitRun cfg tree (CChain.empty.SetTip cfg tree true (some p))
  | child {tree : BlockTree} {chain : CChain} {p : Ptr} (h : LimitRun cfg tree chain)
      (hp : p < tree.length) (hprev : tree.pprev p = chain.Tip) :
      LimitRun cfg tree (chain.SetTip cfg tree true (some p))
  | parent {tree : BlockTree} {chain : CChain} {p : Ptr} (h : LimitRun cfg tree chain)
      (htip : chain.Tip = some p) :
      LimitRun cfg tree (chain.SetTip cfg tree true (tree.pprev p))
  | grow {tree tree' : BlockTree} {chain : CChain} (h : LimitRun cfg tree chain)
      (hindexed : Indexed tree') (hgrows : Grows tree tree') :
      LimitRun cfg tree' chain

theorem LimitRun.indexed {cfg : Config} {tree : BlockTree} {chain : CChain}
    (h : LimitRun cfg tree chain) : Indexed tree := by
  induction h with
  | start h => exact h
  | load h _ => exact h
  | child _ _ _ ih => exact ih
  | parent _ _ ih => exact ih
  | grow _ hindexed _ _ => exact hindexed

theorem LimitRun.limitsRight {cfg : Config} {tree : BlockTree} {chain : CChain}
    (h : LimitRun cfg tree chain) : ∃ xs, LimitsRight tree chain xs := by
  induction h with
  | start h => exact ⟨[], limitsRight_empty _⟩
  | @load tree p h hp =>
      have hdown : ∀ p q, tree.pprev p = some q → q < p := fun _ _ => h.pprev_lt
      obtain ⟨xs, hxs, hlast, hle⟩ := exists_branch hdown p
      have hright := setTip_limitsRight cfg h (limitsRight_empty tree) hxs
        (fun q hq => (hle q hq).trans_lt hp) (.inl List.nil_prefix)
      rw [hlast] at hright
      exact ⟨xs, hright⟩
  | @child tree chain p h hp hprev ih =>
      obtain ⟨xs, hxs⟩ := ih
      rw [hxs.path.tip_eq] at hprev
      have hright := setTip_limitsRight cfg h.indexed hxs
        (hxs.path.branch.concat hprev) (fun q hq => ?_) (.inl (List.prefix_append _ _))
      · rw [List.getLast?_concat] at hright
        exact ⟨_, hright⟩
      · rcases List.mem_append.mp hq with hq | hq
        · exact hxs.path.known q hq
        · rw [List.mem_singleton.mp hq]
          exact hp
  | @parent tree chain p h htip ih =>
      obtain ⟨xs, hxs⟩ := ih
      rw [hxs.path.tip_eq] at htip
      obtain ⟨ys, rfl, hbranch, hparent⟩ := hxs.path.branch.eq_concat htip
      have hright := setTip_limitsRight cfg h.indexed hxs hbranch
        (fun q hq => hxs.path.known q (List.mem_append_left _ hq))
        (.inr (List.prefix_append _ _))
      rw [← hparent] at hright
      exact ⟨ys, hright⟩
  | grow h _ hgrows ih =>
      obtain ⟨xs, hxs⟩ := ih
      exact ⟨xs, LimitsUpTo.grow hgrows hxs⟩

/-! ### Exact arithmetic -/

/-- No limit grows beyond this while no block is larger than `MAX_SIZE`: ten
per cent more than the largest limit that two thirds of such blocks exceed. -/
def largestLimit : Nat := 55364811

theorem averageSize_le {sizes : List Nat} (hlen : sizes.length = MAX_BLOCK_SIZE_RECALC_PERIOD)
    (h : ∀ n ∈ sizes, n ≤ MAX_SIZE) : averageSize sizes ≤ MAX_SIZE := by
  have hsum := List.sum_le_card_nsmul sizes MAX_SIZE h
  rw [hlen, smul_eq_mul] at hsum
  exact Nat.div_le_of_le_mul hsum

theorem medianSize_le {sizes : List Nat} (h : ∀ n ∈ sizes, n ≤ MAX_SIZE) :
    medianSize sizes ≤ MAX_SIZE := by
  unfold medianSize
  rw [List.getD_eq_getElem?_getD]
  cases hget : (sizes.insertionSort (· ≤ ·))[MAX_BLOCK_SIZE_RECALC_PERIOD / 2]? with
  | none => exact Nat.zero_le _
  | some n =>
      refine h n ?_
      exact (List.perm_insertionSort _ sizes).mem_iff.mp (List.mem_of_getElem? hget)

theorem periodSizes_le {sizes : Nat → Nat} (h : ∀ i, sizes i ≤ MAX_SIZE) (k : Nat) :
    ∀ n ∈ periodSizes sizes k, n ≤ MAX_SIZE := by
  intro n hn
  obtain ⟨i, _, rfl⟩ := List.mem_map.mp hn
  exact h _

theorem length_periodSizes (sizes : Nat → Nat) (k : Nat) :
    (periodSizes sizes k).length = MAX_BLOCK_SIZE_RECALC_PERIOD := by
  rw [periodSizes, List.length_map, List.length_range]

/-- What a period with the given average and median size does to the limit. -/
structure PeriodStep (nOld nNew nAverage nMedian : Nat) : Prop where
  changes_iff : nNew ≠ nOld ↔ 2 * nOld < 3 * nAverage ∧ nOld < 2 * nMedian
  change : nNew ≠ nOld → nNew = 11 * nOld / 10
  noWrap : 3 * nAverage < 2 ^ 32 ∧ 2 * nOld < 2 ^ 32 ∧ nMedian * 2 < 2 ^ 32 ∧
    11 * nOld < 2 ^ 32

/-- A step of the rule when nothing wraps. -/
theorem limitAfterPeriod_exact {nOld : Nat} {sizes : List Nat}
    (hlen : sizes.length = MAX_BLOCK_SIZE_RECALC_PERIOD) (h : ∀ n ∈ sizes, n ≤ MAX_SIZE)
    (hmin : MIN_MAX_BLOCK_SIZE ≤ nOld) (hmax : nOld ≤ largestLimit) :
    PeriodStep nOld (limitAfterPeriod nOld sizes) (averageSize sizes) (medianSize sizes) ∧
      limitAfterPeriod nOld sizes ≤ largestLimit := by
  have haverage := averageSize_le hlen h
  have hmedian := medianSize_le h
  have hnew : limitAfterPeriod nOld sizes =
      if 2 * nOld < 3 * averageSize sizes ∧ nOld < 2 * medianSize sizes then 11 * nOld / 10
      else nOld := by
    unfold limitAfterPeriod uint32
    unfold MIN_MAX_BLOCK_SIZE MAX_SIZE largestLimit at *
    simp (disch := omega) only [Nat.mod_eq_of_lt]
    split_ifs <;> omega
  unfold MIN_MAX_BLOCK_SIZE at hmin
  unfold MAX_SIZE at haverage hmedian
  unfold largestLimit at hmax ⊢
  refine ⟨⟨?_, ?_, ⟨by omega, by omega, by omega, by omega⟩⟩, ?_⟩
  · rw [hnew]
    split_ifs with hc
    · exact iff_of_true (by omega) hc
    · exact iff_of_false (fun hne => hne rfl) hc
  · intro hne
    rw [hnew] at hne ⊢
    split_ifs at hne ⊢ with hc
    · rfl
    · exact absurd rfl hne
  · rw [hnew]
    split_ifs with hc
    · omega
    · exact hmax

theorem limitOfPeriod_le_largest {sizes : Nat → Nat} (h : ∀ i, sizes i ≤ MAX_SIZE) :
    ∀ k, limitOfPeriod sizes k ≤ largestLimit
  | 0 => show MIN_MAX_BLOCK_SIZE ≤ largestLimit by decide
  | k + 1 => (limitAfterPeriod_exact (length_periodSizes sizes k) (periodSizes_le h k)
      (min_le_limitOfPeriod sizes k) (limitOfPeriod_le_largest h k)).2

theorem limitOfPeriod_mono (sizes : Nat → Nat) : Monotone (limitOfPeriod sizes) :=
  monotone_nat_of_le_succ (limitOfPeriod_le_succ sizes)

/-- How the limits of a chain depend on the height. -/
structure LimitsGrow (chain : CChain) (sizes : Nat → Nat) : Prop where
  mono : ∀ nHeight nHeight' : Nat, nHeight ≤ nHeight' →
    (nHeight' : Int) ≤ chain.Height + 1 →
    chain.MaxBlockSize nHeight ≤ chain.MaxBlockSize nHeight'
  atLeast : ∀ nHeight : Nat, (nHeight : Int) ≤ chain.Height + 1 →
    MIN_MAX_BLOCK_SIZE ≤ chain.MaxBlockSize nHeight
  onlyAt : ∀ nHeight : Nat, ((nHeight + 1 : Nat) : Int) ≤ chain.Height + 1 →
    chain.MaxBlockSize (nHeight + 1) ≠ chain.MaxBlockSize nHeight →
    MAX_BLOCK_SIZE_RECALC_PERIOD ∣ nHeight + 1
  period : ∀ k : Nat, (((k + 1) * MAX_BLOCK_SIZE_RECALC_PERIOD : Nat) : Int) ≤
      chain.Height + 1 →
    PeriodStep (chain.MaxBlockSize (k * MAX_BLOCK_SIZE_RECALC_PERIOD))
      (chain.MaxBlockSize ((k + 1) * MAX_BLOCK_SIZE_RECALC_PERIOD))
      (averageSize (periodSizes sizes k)) (medianSize (periodSizes sizes k))

theorem LimitsUpTo.grow_of_sizes {tree : BlockTree} {chain : CChain} {xs : List Ptr}
    (h : LimitsRight tree chain xs) (hsize : ∀ i, sizeAt tree xs i ≤ MAX_SIZE) :
    LimitsGrow chain (sizeAt tree xs) := by
  have hpos := period_pos
  have hlimit : ∀ {nHeight : Nat}, (nHeight : Int) ≤ chain.Height + 1 →
      chain.MaxBlockSize nHeight = limitOfPeriod (sizeAt tree xs)
        (nHeight / MAX_BLOCK_SIZE_RECALC_PERIOD) := by
    intro nHeight hle
    unfold CChain.Height at hle
    rw [h.path.length_eq] at hle
    exact LimitsUpTo.maxBlockSize_eq h (by omega)
  constructor
  · intro nHeight nHeight' hle hle'
    rw [hlimit (by omega), hlimit hle']
    exact limitOfPeriod_mono _ (Nat.div_le_div_right hle)
  · intro nHeight hle
    rw [hlimit hle]
    exact min_le_limitOfPeriod _ _
  · intro nHeight hle hne
    rw [hlimit hle, hlimit (by omega)] at hne
    by_contra hdvd
    rw [Nat.succ_div, if_neg hdvd, Nat.add_zero] at hne
    exact hne rfl
  · intro k hle
    have hmul : (k + 1) * MAX_BLOCK_SIZE_RECALC_PERIOD =
        k * MAX_BLOCK_SIZE_RECALC_PERIOD + MAX_BLOCK_SIZE_RECALC_PERIOD :=
      Nat.succ_mul k _
    rw [hlimit hle, hlimit (by omega), Nat.mul_div_cancel _ hpos, Nat.mul_div_cancel _ hpos]
    exact (limitAfterPeriod_exact (length_periodSizes _ k) (periodSizes_le hsize k)
      (min_le_limitOfPeriod _ k) (limitOfPeriod_le_largest hsize k)).1

/-! ### The main result -/

/-- The limits of the active chain are what one computes from the sizes of its
blocks from the first one on, as loading the chain does; and while no block is
larger than `MAX_SIZE` they grow by the rule in exact arithmetic. -/
theorem maxBlockSize_function_of_chain {cfg : Config} {tree : BlockTree}
    {chain : CChain} (h : LimitRun cfg tree chain) :
    ∃ xs, Path tree chain xs ∧
      (∀ nHeight : Nat, (nHeight : Int) ≤ chain.Height + 1 →
        chain.MaxBlockSize nHeight = limitOfPeriod (sizeAt tree xs)
          (nHeight / MAX_BLOCK_SIZE_RECALC_PERIOD) ∧
        chain.MaxBlockSize nHeight =
          (CChain.empty.SetTip cfg tree true chain.Tip).MaxBlockSize nHeight) ∧
      ((∀ p ∈ xs, ∀ pindex, tree[p]? = some pindex → pindex.nSize ≤ MAX_SIZE) →
        LimitsGrow chain (sizeAt tree xs)) := by
  obtain ⟨xs, hxs⟩ := h.limitsRight
  refine ⟨xs, hxs.path, fun nHeight hle => ?_, fun hsize => ?_⟩
  · have hlen : nHeight ≤ xs.length := by
      unfold CChain.Height at hle
      rw [hxs.path.length_eq] at hle
      omega
    have hloaded := setTip_limitsRight cfg h.indexed (limitsRight_empty tree)
      hxs.path.branch hxs.path.known (.inl List.nil_prefix)
    have hlimit := LimitsUpTo.maxBlockSize_eq hxs hlen
    refine ⟨hlimit, hlimit.trans ?_⟩
    rw [hxs.path.tip_eq]
    exact (LimitsUpTo.maxBlockSize_eq hloaded hlen).symm
  · apply LimitsUpTo.grow_of_sizes hxs
    intro i
    unfold sizeAt BlockTree.deref
    cases hi : xs[i]? with
    | none => exact Nat.zero_le _
    | some p =>
        cases hp : tree[p]? with
        | none => simp [hp]
        | some pindex =>
            simpa [hp] using hsize p (List.mem_of_getElem? hi) pindex hp

/-- An entry of the given height and size. -/
def sizedEntry (pprev : Option Ptr) (nHeight nSize nChainSize : Nat) : CBlockIndex :=
  { (default : CBlockIndex) with pprev, nHeight, nSize, nChainSize }

/-- Two blocks after the same first one. -/
def forkedIndex : BlockTree :=
  [sizedEntry none 0 200 200, sizedEntry (some 0) 1 700 900, sizedEntry (some 0) 1 300 500]

theorem indexed_forkedIndex : Indexed forkedIndex := by
  have hempty : Indexed [] := by
    refine ⟨⟨?_, ?_⟩, ?_⟩
    · intro p pindex hp
      simp at hp
    · intro p q pindex hp
      simp at hp
    · intro p pindex hp
      simp at hp
  have hfirst : Indexed ([] ++ [sizedEntry none 0 200 200]) :=
    hempty.append ⟨rfl, rfl, rfl⟩
  have hsecond : Indexed ([] ++ [sizedEntry none 0 200 200] ++
      [sizedEntry (some 0) 1 700 900]) :=
    hfirst.append ⟨_, rfl, rfl, rfl⟩
  have hthird : Indexed ([] ++ [sizedEntry none 0 200 200] ++
      [sizedEntry (some 0) 1 700 900] ++ [sizedEntry (some 0) 1 300 500]) :=
    hsecond.append ⟨_, rfl, rfl, rfl⟩
  exact hthird

def movingNet : Config := smallNet (smallGenesis [])

def loadedChain : CChain := CChain.empty.SetTip movingNet forkedIndex true (some 1)

/-- The chain is loaded, loses its tip and takes the other block instead. -/
def movedChain : CChain :=
  (loadedChain.SetTip movingNet forkedIndex true (forkedIndex.pprev 1)).SetTip movingNet
    forkedIndex true (some 2)

theorem limitRun_movedChain : LimitRun movingNet forkedIndex movedChain := by
  have hload : LimitRun movingNet forkedIndex loadedChain :=
    LimitRun.load indexed_forkedIndex (by decide)
  have htip : loadedChain.Tip = some 1 := by decide +kernel
  have hprev : forkedIndex.pprev 2 =
      (loadedChain.SetTip movingNet forkedIndex true (forkedIndex.pprev 1)).Tip := by
    decide +kernel
  exact (hload.parent htip).child (by decide) hprev

theorem maxBlockSize_movedChain :
    movedChain.Height = 1 ∧ ∃ xs, Path forkedIndex movedChain xs ∧
      movedChain.MaxBlockSize 2 = limitOfPeriod (sizeAt forkedIndex xs)
        (2 / MAX_BLOCK_SIZE_RECALC_PERIOD) ∧
      LimitsGrow movedChain (sizeAt forkedIndex xs) := by
  have hheight : movedChain.Height = 1 := by decide +kernel
  obtain ⟨xs, hpath, hlimit, hgrow⟩ := maxBlockSize_function_of_chain limitRun_movedChain
  have hsmall : ∀ pindex ∈ forkedIndex, pindex.nSize ≤ MAX_SIZE := by decide
  refine ⟨hheight, xs, hpath, (hlimit 2 (by rw [hheight]; decide)).1, hgrow ?_⟩
  intro p _ pindex hp
  exact hsmall pindex (List.mem_of_getElem? hp)

end Ziftrcoin.Spec
