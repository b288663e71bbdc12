/-
Module: Ziftrcoin.Proofs.CandidateOrder
Purpose: When the comparator of `setBlockIndexValid` is a strict total order on
  the candidates.
Trusted boundary: none
Main exports: NodeState.ranking, worse_iff
-/
import Mathlib.Data.Prod.Lex
import Ziftrcoin.Spec.Node

namespace Ziftrcoin.Spec

open Ziftrcoin.Lib

/-! ### The comparator as a ranking -/

/-- The entry was received while mature coins count at its height. -/
def WorkKey.inWindow (mapFirstTimeSeen : Nat → Int) (a : WorkKey) : Bool :=
  mapFirstTimeSeen a.nHeight != 0 && a.nTimeReceived != 0 &&
    decide (int64 (a.nTimeReceived - mapFirstTimeSeen a.nHeight) <
      MATURE_COINS_TIEBREAKER_TIME_LIMIT)

/-- Work and height first; mature coins between siblings received in time; then
the time of arrival. -/
def workRanking (mapFirstTimeSeen : Nat → Int) :
    Ranking WorkKey (Nat ×ₗ Nat) uint256 Int (Nat ×ₗ Nat) where
  level a := toLex (a.nChainWork, a.nHeight)
  group a := if a.inWindow mapFirstTimeSeen then a.prevHash else none
  key a := a.nMatureCoinsSpent
  arrival a := toLex (a.nSequenceId, a.address)

theorem level_eq_iff (f : Nat → Int) {a b : WorkKey} :
    (workRanking f).level a = (workRanking f).level b ↔
      a.nChainWork = b.nChainWork ∧ a.nHeight = b.nHeight := by
  simp [workRanking]

/-- For entries of one height, the two ways to say when mature coins count
agree. -/
theorem matureCoinsApply_iff {f : Nat → Int} {a b : WorkKey}
    (h : a.nHeight = b.nHeight) :
    matureCoinsApply f a b = true ↔ (workRanking f).SameGroup a b := by
  unfold matureCoinsApply Ranking.SameGroup workRanking WorkKey.inWindow
  simp only [Bool.and_eq_true, bne_iff_ne, ne_eq, beq_iff_eq, decide_eq_true_eq,
    ← h, Option.ite_none_right_eq_some, Option.isSome_iff_exists]
  constructor
  · rintro ⟨⟨⟨⟨⟨⟨⟨hf, ha⟩, hb⟩, g, hg⟩, _⟩, heq⟩, hwa⟩, hwb⟩
    exact ⟨g, ⟨⟨⟨hf, ha⟩, hwa⟩, hg⟩, ⟨⟨hf, hb⟩, hwb⟩, heq ▸ hg⟩
  · rintro ⟨g, ⟨⟨⟨hf, ha⟩, hwa⟩, hga⟩, ⟨⟨_, hb⟩, hwb⟩, hgb⟩
    exact ⟨⟨⟨⟨⟨⟨⟨hf, ha⟩, hb⟩, g, hga⟩, g, hgb⟩, hga.trans hgb.symm⟩, hwa⟩, hwb⟩

theorem compareArrival_iff (f : Nat → Int) {a b : WorkKey} :
    compareArrival a b = true ↔
      (workRanking f).arrival b < (workRanking f).arrival a := by
  have hlt : (workRanking f).arrival b < (workRanking f).arrival a ↔
      b.nSequenceId < a.nSequenceId ∨
        b.nSequenceId = a.nSequenceId ∧ b.address < a.address := by
    simp [workRanking, Prod.Lex.toLex_lt_toLex]
  rw [hlt]
  unfold compareArrival
  rcases Nat.lt_trichotomy a.nSequenceId b.nSequenceId with h | h | h
  · simp [h, h.not_gt, h.ne']
  · rcases Nat.lt_trichotomy a.address b.address with h' | h' | h'
    · simp [h, h', h'.not_gt]
    · simp [h, h']
    · simp [h, h', h'.not_gt]
  · simp [h, h.not_gt]

/-- The comparator is the ranking. -/
theorem workComparator_iff (f : Nat → Int) (a b : WorkKey) :
    CBlockIndexWorkComparator f a b = true ↔ (workRanking f).Worse a b := by
  have hlevel : (workRanking f).level a < (workRanking f).level b ↔
      a.nChainWork < b.nChainWork ∨
        a.nChainWork = b.nChainWork ∧ a.nHeight < b.nHeight := by
    simp [workRanking, Prod.Lex.toLex_lt_toLex]
  unfold CBlockIndexWorkComparator
  by_cases heq : a.nChainWork = b.nChainWork ∧ a.nHeight = b.nHeight
  · rw [if_neg (by omega), if_neg (by omega), if_neg (by omega), if_neg (by omega)]
    have hlevel' := (level_eq_iff f).mpr heq
    by_cases hgroup : (workRanking f).SameGroup a b
    · rw [if_pos ((matureCoinsApply_iff heq.2).mpr hgroup),
        Ranking.worse_sameGroup hlevel' hgroup, ← compareArrival_iff f]
      change _ ↔ a.nMatureCoinsSpent < b.nMatureCoinsSpent ∨
        a.nMatureCoinsSpent = b.nMatureCoinsSpent ∧ _
      split_ifs with h₁ h₂
      · simp only [false_iff]
        omega
      · simp [h₂]
      · have hkey : a.nMatureCoinsSpent = b.nMatureCoinsSpent := by omega
        simp [hkey]
    · rw [if_neg fun h => hgroup ((matureCoinsApply_iff heq.2).mp h),
        Ranking.worse_stranger hlevel' hgroup, ← compareArrival_iff f]
  · have hlevel' : (workRanking f).level a ≠ (workRanking f).level b :=
      fun h => heq ((level_eq_iff f).mp h)
    have hworse : (workRanking f).Worse a b ↔
        (workRanking f).level a < (workRanking f).level b := by
      constructor
      · rintro (hlt | ⟨h, _⟩)
        · exact hlt
        · exact absurd h hlevel'
      · exact .inl
    rw [hworse, hlevel]
    rcases Nat.lt_trichotomy a.nChainWork b.nChainWork with h | h | h
    · simp [h, h.not_gt]
    · rcases Nat.lt_trichotomy a.nHeight b.nHeight with h' | h' | h'
      · simp [h, h', h'.not_gt]
      · exact absurd ⟨h, h'⟩ heq
      · simp [h, h', h'.not_gt]
    · simp [h, h.not_gt, h.ne']

/-! ### Candidates -/

/-- The ranking of the entries of a node. -/
def NodeState.ranking (s : NodeState) :
    Ranking Ptr (Nat ×ₗ Nat) uint256 Int (Nat ×ₗ Nat) where
  level p := (workRanking s.mapFirstTimeSeen).level (s.mapBlockIndex.workKey p)
  group p := (workRanking s.mapFirstTimeSeen).group (s.mapBlockIndex.workKey p)
  key p := (workRanking s.mapFirstTimeSeen).key (s.mapBlockIndex.workKey p)
  arrival p := (workRanking s.mapFirstTimeSeen).arrival (s.mapBlockIndex.workKey p)

theorem worse_iff (s : NodeState) (p q : Ptr) :
    s.worse p q = true ↔ s.ranking.Worse p q :=
  workComparator_iff s.mapFirstTimeSeen _ _

theorem address_workKey (tree : BlockTree) (p : Ptr) :
    (tree.workKey p).address = p := by
  unfold BlockTree.workKey
  split <;> rfl

theorem arrival_injective (s : NodeState) :
    Function.Injective s.ranking.arrival := by
  intro p q h
  have haddr : (s.mapBlockIndex.workKey p).address =
      (s.mapBlockIndex.workKey q).address :=
    congrArg (fun x => (ofLex x).2) h
  rwa [address_workKey, address_workKey] at haddr

/-- Among entries of the same work and height, `a` arrived before its sibling
`b`, which spends more mature coins and has been received in time; and `c`,
with which mature coins are not compared, arrived between the two. -/
structure SplitByStranger (s : NodeState) (a b c : Ptr) : Prop where
  work_b : (s.mapBlockIndex.workKey a).nChainWork =
    (s.mapBlockIndex.workKey b).nChainWork
  work_c : (s.mapBlockIndex.workKey a).nChainWork =
    (s.mapBlockIndex.workKey c).nChainWork
  height_b : (s.mapBlockIndex.workKey a).nHeight =
    (s.mapBlockIndex.workKey b).nHeight
  height_c : (s.mapBlockIndex.workKey a).nHeight =
    (s.mapBlockIndex.workKey c).nHeight
  siblings : matureCoinsApply s.mapFirstTimeSeen (s.mapBlockIndex.workKey a)
    (s.mapBlockIndex.workKey b) = true
  stranger : matureCoinsApply s.mapFirstTimeSeen (s.mapBlockIndex.workKey a)
    (s.mapBlockIndex.workKey c) = false
  mature : (s.mapBlockIndex.workKey a).nMatureCoinsSpent <
    (s.mapBlockIndex.workKey b).nMatureCoinsSpent
  before : compareArrival (s.mapBlockIndex.workKey c)
    (s.mapBlockIndex.workKey a) = true
  after : compareArrival (s.mapBlockIndex.workKey b)
    (s.mapBlockIndex.workKey c) = true

theorem splitByStranger_iff {s : NodeState} {a b c : Ptr} :
    SplitByStranger s a b c ↔ s.ranking.Overtaken a b c := by
  constructor
  · intro h
    refine ⟨(level_eq_iff s.mapFirstTimeSeen).mpr ⟨h.work_b, h.height_b⟩,
      (level_eq_iff s.mapFirstTimeSeen).mpr ⟨h.work_c, h.height_c⟩,
      (matureCoinsApply_iff h.height_b).mp h.siblings, ?_, h.mature,
      (compareArrival_iff s.mapFirstTimeSeen).mp h.before,
      (compareArrival_iff s.mapFirstTimeSeen).mp h.after⟩
    intro hgroup
    have happly := (matureCoinsApply_iff h.height_c).mpr hgroup
    rw [h.stranger] at happly
    cases happly
  · intro h
    obtain ⟨hwork, hheight⟩ := (level_eq_iff s.mapFirstTimeSeen).mp h.level_b
    obtain ⟨hwork', hheight'⟩ := (level_eq_iff s.mapFirstTimeSeen).mp h.level_c
    refine ⟨hwork, hwork', hheight, hheight', (matureCoinsApply_iff hheight).mpr
      h.group, ?_, h.key, (compareArrival_iff s.mapFirstTimeSeen).mpr h.before,
      (compareArrival_iff s.mapFirstTimeSeen).mpr h.after⟩
    rw [Bool.eq_false_iff]
    exact fun happly => h.stranger ((matureCoinsApply_iff hheight').mp happly)

/-- The comparator orders the candidates: it is a strict weak order, and in
fact a strict total one, and `rbegin` is the one that all others are worse
than. -/
structure CandidatesOrdered (s : NodeState) : Prop where
  order : StrictTotalOn (fun p q => s.worse p q = true)
    {p | p ∈ s.setBlockIndexValid}
  incomparable : ∀ a ∈ s.setBlockIndexValid, ∀ b ∈ s.setBlockIndexValid,
    ∀ c ∈ s.setBlockIndexValid, s.worse a b = false ∧ s.worse b a = false →
    s.worse b c = false ∧ s.worse c b = false →
    s.worse a c = false ∧ s.worse c a = false
  rbegin_none : s.rbegin = none ↔ s.setBlockIndexValid = []
  rbegin_best : ∀ p, s.rbegin = some p → p ∈ s.setBlockIndexValid ∧
    ∀ q ∈ s.setBlockIndexValid, q = p ∨ s.worse q p = true

theorem CandidatesOrdered.of_order {s : NodeState}
    (h : StrictTotalOn (fun p q => s.worse p q = true)
      {p | p ∈ s.setBlockIndexValid}) : CandidatesOrdered s where
  order := h
  incomparable := by
    intro a ha b hb c hc hab hbc
    have hac := h.incomparable_trans ha hb hc (by simpa using hab)
      (by simpa using hbc)
    simpa using hac
  rbegin_none := (best_spec h).1
  rbegin_best := (best_spec h).2

/-- The comparator orders the candidates exactly when no two siblings have a
stranger between them whom one passes and the other does not. -/
theorem candidatesOrdered_iff (s : NodeState) :
    CandidatesOrdered s ↔
      ¬ ∃ a ∈ s.setBlockIndexValid, ∃ b ∈ s.setBlockIndexValid,
        ∃ c ∈ s.setBlockIndexValid, SplitByStranger s a b c := by
  have hranking := Ranking.strictTotalOn_iff
    (arrival_injective s).injOn (S := {p | p ∈ s.setBlockIndexValid})
  simp only [splitByStranger_iff]
  refine Iff.trans ⟨fun h => ?_, fun h => .of_order ?_⟩ hranking
  · exact h.order.congr fun p _ q _ => worse_iff s p q
  · exact h.congr fun p _ q _ => (worse_iff s p q).symm

end Ziftrcoin.Spec
