/-
Module: Ziftrcoin.Proofs.MedianTime
Purpose: The median of the past times does not fall along a chain, and what
  follows for coins that wait for a time and for the times of new blocks.
Trusted boundary: none
-/
import Ziftrcoin.Lib.Median
import Ziftrcoin.Spec.Miner
import Ziftrcoin.Proofs.MinWork
import Ziftrcoin.Proofs.SizeLimits
import Ziftrcoin.Proofs.SpendableCoins

namespace Ziftrcoin.Spec

open Ziftrcoin.Lib Ziftrcoin.Lib.Outcome

/-! ### The window -/

section Window

variable {tree : BlockTree} {p q : Ptr}

theorem getMedianTimePast_eq (tree : BlockTree) (p : Ptr) :
    GetMedianTimePast tree p = upperMedian (pastTimes tree nMedianTimeSpan (some p)) 0 := rfl

theorem pastTimes_of_none {pindex : Option Ptr} (h : tree.deref pindex = none) (fuel : ℕ) :
    pastTimes tree fuel pindex = [] := by
  cases fuel with
  | zero => rfl
  | succ fuel => rw [pastTimes, h]

theorem pastTimes_of_some {pindex : Option Ptr} {entry : CBlockIndex}
    (h : tree.deref pindex = some entry) (fuel : ℕ) :
    pastTimes tree (fuel + 1) pindex = entry.nTime :: pastTimes tree fuel entry.pprev := by
  rw [pastTimes, h]

/-- A longer window has at most one time more, the oldest. -/
theorem pastTimes_succ (tree : BlockTree) : ∀ (fuel : ℕ) (pindex : Option Ptr),
    pastTimes tree (fuel + 1) pindex = pastTimes tree fuel pindex ∨
      ∃ nTime, pastTimes tree (fuel + 1) pindex = pastTimes tree fuel pindex ++ [nTime]
  | fuel, pindex => by
      cases h : tree.deref pindex with
      | none => exact .inl (by rw [pastTimes_of_none h, pastTimes_of_none h])
      | some entry =>
          rw [pastTimes_of_some h]
          cases fuel with
          | zero =>
              have hold : pastTimes tree 0 pindex = [] := rfl
              exact .inr ⟨entry.nTime, by rw [hold, List.nil_append]; rfl⟩
          | succ fuel =>
              rw [pastTimes_of_some h]
              obtain h | ⟨nTime, h⟩ := pastTimes_succ tree fuel entry.pprev
              · exact .inl (congrArg _ h)
              · exact .inr ⟨nTime, congrArg _ h⟩

theorem mem_pastTimes {nTime : ℕ} : ∀ {fuel : ℕ} {pindex : Option Ptr},
    nTime ∈ pastTimes tree fuel pindex → ∃ entry ∈ tree, entry.nTime = nTime
  | 0, _, hmem => absurd hmem List.not_mem_nil
  | fuel + 1, pindex, hmem => by
      cases h : tree.deref pindex with
      | none =>
          rw [pastTimes_of_none h] at hmem
          exact absurd hmem List.not_mem_nil
      | some entry =>
          rw [pastTimes_of_some h] at hmem
          rcases List.mem_cons.mp hmem with rfl | hmem
          · obtain ⟨p, -, hp⟩ := Option.bind_eq_some_iff.mp h
            exact ⟨entry, List.mem_of_getElem? hp, rfl⟩
          · exact mem_pastTimes hmem

/-- The median is a time of the index. -/
theorem medianTimePast_lt_of_all (hbits : ∀ entry ∈ tree, entry.nTime < 2 ^ 32) (p : Ptr) :
    GetMedianTimePast tree p < 2 ^ 32 := by
  rw [getMedianTimePast_eq]
  obtain h | hmem := upperMedian_mem (pastTimes tree nMedianTimeSpan (some p)) 0
  · rw [h]
    decide
  · obtain ⟨entry, hentry, htime⟩ := mem_pastTimes hmem
    exact htime ▸ hbits entry hentry

/-- The median does not fall from a block to one on top of it. -/
theorem medianTimePast_child (hlater : LaterThanMedian tree) (hprev : tree.pprev q = some p) :
    GetMedianTimePast tree p ≤ GetMedianTimePast tree q := by
  obtain ⟨entry, hq, hpprev⟩ := pprev_eq_some hprev
  have hlt := hlater q p entry hq hpprev
  have hderef : tree.deref (some q) = some entry := hq
  have hwindow : pastTimes tree nMedianTimeSpan (some q) =
      entry.nTime :: pastTimes tree 10 (some p) := by
    rw [nMedianTimeSpan, pastTimes_of_some hderef, hpprev]
  rw [getMedianTimePast_eq] at hlt ⊢
  rw [getMedianTimePast_eq, hwindow]
  obtain h | ⟨nTime, h⟩ := pastTimes_succ tree 10 (some p)
  · change pastTimes tree nMedianTimeSpan (some p) = _ at h
    rw [h] at hlt ⊢
    by_cases hne : pastTimes tree 10 (some p) = []
    · rw [hne]
      exact Nat.zero_le _
    · exact upperMedian_grows hne hlt.le
  · change pastTimes tree nMedianTimeSpan (some p) = _ at h
    rw [h] at hlt ⊢
    exact upperMedian_slides hlt.le

/-- Along a chain the median does not fall. -/
theorem medianTimePast_mono (hlater : LaterThanMedian tree) {xs : List Ptr}
    (hxs : Branch tree.pprev xs) {i j : ℕ} (hij : i ≤ j) (hp : xs[i]? = some p)
    (hq : xs[j]? = some q) : GetMedianTimePast tree p ≤ GetMedianTimePast tree q := by
  induction j, hij using Nat.le_induction generalizing q with
  | base =>
      obtain rfl := Option.some.inj (hp.symm.trans hq)
      exact le_rfl
  | succ j _ ih =>
      have hj := (List.getElem?_eq_some_iff.mp hq).1
      have hmid := List.getElem?_eq_getElem (show j < xs.length by omega)
      exact (ih hmid).trans (medianTimePast_child hlater ((hxs.parent_succ hq).trans hmid))

end Window

/-! ### Every index -/

theorem pastTimes_of_fixed {tree tree' : BlockTree}
    (h : tree'.map CBlockIndex.fixed = tree.map CBlockIndex.fixed) :
    ∀ (fuel : ℕ) (pindex : Option Ptr), pastTimes tree' fuel pindex = pastTimes tree fuel pindex
  | 0, _ => rfl
  | fuel + 1, pindex => by
      have hmap : (tree'.deref pindex).map CBlockIndex.fixed =
          (tree.deref pindex).map CBlockIndex.fixed := by
        cases pindex with
        | none => rfl
        | some p =>
            have hp := congrArg (fun t => t[p]?) h
            simp only [List.getElem?_map] at hp
            exact hp
      cases hold : tree.deref pindex with
      | none =>
          rw [hold, Option.map_none, Option.map_eq_none_iff] at hmap
          rw [pastTimes_of_none hmap, pastTimes_of_none hold]
      | some entry =>
          rw [hold, Option.map_some, Option.map_eq_some_iff] at hmap
          obtain ⟨entry', hnew, hfixed⟩ := hmap
          rw [pastTimes_of_some hnew, pastTimes_of_some hold, pastTimes_of_fixed h,
            ← fixed_eq_iff.mp hfixed]

theorem laterThanMedian_of_fixed {tree tree' : BlockTree}
    (h : tree'.map CBlockIndex.fixed = tree.map CBlockIndex.fixed)
    (hlater : LaterThanMedian tree) : LaterThanMedian tree' := by
  intro p q pindex hp hprev
  obtain ⟨pindex', hp', hfixed⟩ := getElem?_of_fixed h hp
  rw [getMedianTimePast_eq, pastTimes_of_fixed h, ← fixed_eq_iff.mp hfixed]
  exact hlater p q pindex' hp' ((pprev_fixed hfixed).trans hprev)

/-- A new entry does not change the windows of the others. -/
theorem pastTimes_append {tree : BlockTree} (hlinked : WellLinked tree) (pindex : CBlockIndex) :
    ∀ (fuel : ℕ) {p : Ptr}, p < tree.length →
      pastTimes (tree ++ [pindex]) fuel (some p) = pastTimes tree fuel (some p)
  | 0, _, _ => rfl
  | fuel + 1, p, hp => by
      have hold : tree.deref (some p) = some tree[p] := List.getElem?_eq_getElem hp
      rw [pastTimes_of_some (deref_append hold), pastTimes_of_some hold]
      cases hprev : tree[p].pprev with
      | none => rw [pastTimes_of_none rfl, pastTimes_of_none rfl]
      | some q =>
          have hq := (hlinked.child (List.getElem?_eq_getElem hp) hprev).1
          rw [pastTimes_append hlinked pindex fuel (hq.trans hp)]

theorem laterThanMedian_append {tree : BlockTree} (hlinked : WellLinked tree)
    (hlater : LaterThanMedian tree) {pindex : CBlockIndex}
    (hnew : ∀ q, pindex.pprev = some q → q < tree.length ∧
      GetMedianTimePast tree q < pindex.nTime) : LaterThanMedian (tree ++ [pindex]) := by
  intro p q entry hp hprev
  rcases Nat.lt_or_ge p tree.length with hlt | hge
  · rw [List.getElem?_append_left hlt] at hp
    have hq := (hlinked.child hp hprev).1
    rw [getMedianTimePast_eq, pastTimes_append hlinked pindex _ (hq.trans hlt)]
    exact hlater p q entry hp hprev
  · rw [List.getElem?_append_right hge, List.getElem?_singleton,
      Option.ite_none_right_eq_some, Option.some.injEq] at hp
    obtain ⟨-, rfl⟩ := hp
    rw [getMedianTimePast_eq, pastTimes_append hlinked pindex _ (hnew q hprev).1]
    exact (hnew q hprev).2

/-- Entries are linked, and each is later than the median at its parent. -/
structure TimesLinked (tree : BlockTree) : Prop extends WellLinked tree where
  later : LaterThanMedian tree

theorem nodeInvariant_timesLinked (cfg : Config) :
    NodeInvariant cfg (fun s => TimesLinked s.mapBlockIndex) fun _ => True where
  other := fun _ _ => trivial
  world := fun _ _ h => h
  transaction := fun h _ => h
  entry := by
    intro s block nMatureCoinsSpent nTimeReceived h hnew _
    obtain ⟨nAdjustedTime, haccept⟩ := hnew.accepted
    obtain ⟨p, hfits⟩ := acceptChecks_ok haccept
    have hp := hfits.known
    have hpprev : (newEntry cfg s block nTimeReceived nMatureCoinsSpent).pprev = some p :=
      hfits.found
    have hentry : s.mapBlockIndex[p]? = some s.mapBlockIndex[p] := List.getElem?_eq_getElem hp
    refine ⟨h.toWellLinked.append ?_, laterThanMedian_append h.toWellLinked h.later ?_⟩
    · rw [hpprev]
      refine ⟨_, hentry, ?_⟩
      simp only [newEntry, hfits.found]
      change ((s.mapBlockIndex[p]?).map _).getD 0 = _
      rw [hentry]
      rfl
    · intro q hq
      obtain rfl := Option.some.inj (hpprev.symm.trans hq)
      exact ⟨hp, hfits.time⟩
  activate := by
    intro s fuel h
    have hkept : ∀ {s'}, Frame s s' → TimesLinked s'.mapBlockIndex := fun hframe =>
      ⟨.of_fixed hframe.index h.toWellLinked, laterThanMedian_of_fixed hframe.index h.later⟩
    exact Meets.mono (framed_activateBestChain cfg fuel s) (fun _ _ hr => hkept hr)
      (fun _ _ hr => hkept hr) fun _ _ => trivial

/-- **Every index that a node can have is linked so**: entries follow their parents, one block
higher, and are later than the median of the eleven blocks up to the parent. -/
theorem timesLinked_reachable {cfg : Config} {s : NodeState} (h : Reachable cfg s) :
    TimesLinked s.mapBlockIndex := by
  refine ((nodeInvariant_timesLinked cfg).reachable (fun ticks nTimeReceived => ?_) h).1
  have hnil : WellLinked [] := ⟨fun h => (nomatch h), fun h => (nomatch h)⟩
  refine ⟨hnil.append ⟨rfl, rfl⟩, laterThanMedian_append hnil ?_ ?_⟩
  · exact fun p q pindex hp => (nomatch hp)
  · exact fun q hq => (nomatch hq)

/-- The network with a genesis block of 50. -/
def timedNet : Config := smallNet (smallGenesis [⟨50, anyoneCanSpend⟩])

/-- A node with the genesis block and one more. -/
def twoBlocks : NodeState :=
  afterEvents timedNet (started timedNet fun _ => quiet)
    [.block 4 true (smallBlock 2 1 (hashOfNonce 1) [coinbaseTx 2 1 [⟨50, anyoneCanSpend⟩]])]

theorem timesLinked_reachable_twoBlocks :
    twoBlocks.mapBlockIndex.length = 2 ∧ TimesLinked twoBlocks.mapBlockIndex :=
  ⟨by decide +kernel, timesLinked_reachable
    (reachable_afterEvents (reachable_started (by decide +kernel)) (by decide +kernel))⟩

/-! ### What is judged by the median -/

/-- Coins that wait for a time and pass at the median of a block pass at a later one, up to
the last time that a block can have. -/
theorem spendable_laterMedian {d : CScript} {D : ℤ} {m m' : ℕ} (hdelay : d.GetDelay = some D)
    (htime : LOCKTIME_THRESHOLD ≤ D) (hle : m ≤ m') (hbits : m' < 2 ^ 32)
    (hspendable : d.IsSpendableAtLockTime (uint32 (m + 1)) = true) :
    d.IsSpendableAtLockTime (uint32 (m' + 1)) = true ↔ m' + 1 < 2 ^ 32 := by
  obtain ⟨p, script, hd⟩ := delayedBy_of_getDelay hdelay
  rw [hd.spendable] at hspendable ⊢
  obtain ⟨hpos, hpast, hkind⟩ := hspendable
  unfold PassesAt uint32 at *
  unfold LOCKTIME_THRESHOLD at *
  omega

/-- The time that a new block gets, and when it is later than the median at its parent. -/
theorem updateTime_spec (hlinked : WellLinked tree) (cfg : Config) (p : Ptr)
    (pindexPrev : CBlockIndex) (nAdjustedTime : ℤ) (block : CBlock) :
    ∃ block', UpdateTime cfg ⟨tree, p, pindexPrev⟩ nAdjustedTime block = .ok block' ∧
      (GetMedianTimePast tree p < block'.nTime ↔
        if nAdjustedTime < 2 ^ 32 then GetMedianTimePast tree p + 1 < 2 ^ 32
        else GetMedianTimePast tree p < nAdjustedTime.toNat % 2 ^ 32) := by
  have htime : GetMedianTimePast tree p <
      uint32 (max ((GetMedianTimePast tree p : ℤ) + 1) nAdjustedTime).toNat ↔
        if nAdjustedTime < 2 ^ 32 then GetMedianTimePast tree p + 1 < 2 ^ 32
        else GetMedianTimePast tree p < nAdjustedTime.toNat % 2 ^ 32 := by
    unfold uint32
    generalize GetMedianTimePast tree p = m
    split <;> omega
  unfold UpdateTime
  dsimp only
  split
  · obtain ⟨nBits, hbits⟩ := getNextWorkRequired_isOk hlinked cfg p
      (uint32 (max ((GetMedianTimePast tree p : ℤ) + 1) nAdjustedTime).toNat)
    rw [hbits]
    exact ⟨_, rfl, htime⟩
  · exact ⟨_, rfl, htime⟩

/-- **The median of the past times does not fall** along a chain of blocks that are each
later than the median at their parent.  So coins that wait for a time and pass at a median
pass at those of longer chains, and a new block gets a time that is later than the median;
both as long as there are times left that a block can have. -/
theorem medianTimePast_monotone {tree : BlockTree} (hlinked : TimesLinked tree)
    (hbits : ∀ entry ∈ tree, entry.nTime < 2 ^ 32) {xs : List Ptr}
    (hxs : Branch tree.pprev xs) {i j : ℕ} {p q : Ptr} (hij : i ≤ j) (hp : xs[i]? = some p)
    (hq : xs[j]? = some q) :
    GetMedianTimePast tree p ≤ GetMedianTimePast tree q ∧
    (∀ (d : CScript) (D : ℤ), d.GetDelay = some D → LOCKTIME_THRESHOLD ≤ D →
      d.IsSpendableAtLockTime (uint32 (GetMedianTimePast tree p + 1)) = true →
        (d.IsSpendableAtLockTime (uint32 (GetMedianTimePast tree q + 1)) = true ↔
          GetMedianTimePast tree q + 1 < 2 ^ 32)) ∧
    ∀ (cfg : Config) (pindexPrev : CBlockIndex) (nAdjustedTime : ℤ) (block : CBlock),
      ∃ block', UpdateTime cfg ⟨tree, q, pindexPrev⟩ nAdjustedTime block = .ok block' ∧
        (GetMedianTimePast tree q < block'.nTime ↔
          if nAdjustedTime < 2 ^ 32 then GetMedianTimePast tree q + 1 < 2 ^ 32
          else GetMedianTimePast tree q < nAdjustedTime.toNat % 2 ^ 32) := by
  have hle := medianTimePast_mono hlinked.later hxs hij hp hq
  refine ⟨hle, fun d D hdelay htime => spendable_laterMedian hdelay htime hle
    (medianTimePast_lt_of_all hbits q), ?_⟩
  exact fun cfg pindexPrev nAdjustedTime block =>
    updateTime_spec hlinked.toWellLinked cfg q pindexPrev nAdjustedTime block

/-! ### The last time -/

/-- Two blocks, the second of them with the last time that a block can have. -/
def lastTimes : BlockTree :=
  [{ (default : CBlockIndex) with nTime := 1400000000 },
   { (default : CBlockIndex) with pprev := some 0, nHeight := 1, nTime := 2 ^ 32 - 1 }]

theorem lastTimes_linked : TimesLinked lastTimes := by
  have hnil : WellLinked [] := ⟨fun h => (nomatch h), fun h => (nomatch h)⟩
  have hone : WellLinked (lastTimes.take 1) := hnil.append ⟨rfl, rfl⟩
  exact ⟨hone.append ⟨_, rfl, rfl⟩, laterThanMedian_of_all (by decide)⟩

theorem lastTimes_branch : Branch lastTimes.pprev [0, 1] :=
  Branch.concat (Branch.concat .nil rfl) rfl

theorem medianTimePast_monotone_lastTimes :
    GetMedianTimePast lastTimes 0 ≤ GetMedianTimePast lastTimes 1 :=
  (medianTimePast_monotone lastTimes_linked (by decide) lastTimes_branch (Nat.zero_le 1) rfl
    rfl).1

/-- After the last time, coins that have waited for a time are not spendable any more, and
the time of a new block starts again at zero. -/
theorem lastTimes_wraps :
    ¬ ∀ (tree : BlockTree), TimesLinked tree → (∀ entry ∈ tree, entry.nTime < 2 ^ 32) →
      ∀ (xs : List Ptr), Branch tree.pprev xs → ∀ (i j : ℕ) (p q : Ptr), i ≤ j →
        xs[i]? = some p → xs[j]? = some q →
        ∀ (cfg : Config) (pindexPrev : CBlockIndex) (nAdjustedTime : ℤ) (block : CBlock),
          ∃ block', UpdateTime cfg ⟨tree, q, pindexPrev⟩ nAdjustedTime block = .ok block' ∧
            GetMedianTimePast tree q < block'.nTime := by
  intro h
  obtain ⟨block', hupdate, hlater⟩ := h lastTimes lastTimes_linked (by decide) [0, 1]
    lastTimes_branch 0 1 0 1 (Nat.zero_le 1) rfl rfl checkpointNet default 1400000000 default
  obtain ⟨block'', hupdate', hiff⟩ := updateTime_spec lastTimes_linked.toWellLinked checkpointNet
    1 default 1400000000 default
  obtain rfl := Except.ok.inj (hupdate.symm.trans hupdate')
  exact absurd (hiff.mp hlater) (by decide)

end Ziftrcoin.Spec
