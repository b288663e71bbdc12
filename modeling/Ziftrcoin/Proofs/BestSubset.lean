/-
Module: Ziftrcoin.Proofs.BestSubset
Purpose: Whatever the random bits are, the stochastic search keeps a subset that
  reaches its target and weighs no more than all coins.
Trusted boundary: none
-/
import Ziftrcoin.Spec.CoinSelection
import Ziftrcoin.Proofs.Supply

namespace Ziftrcoin.Spec

open Ziftrcoin.Lib

variable {vValue : List ℤ} {nTargetValue : ℤ} {st : SubsetState}

/-- What the flags select is worth. -/
def worth (vValue : List ℤ) (flags : List Bool) : ℤ := pickWeight (fun n => n) vValue flags

/-- The best subset has the 64-bit total that is recorded, which reaches the target. -/
structure BestKept (vValue : List ℤ) (nTargetValue : ℤ) (vfBest : List Bool) (nBest : ℤ) :
    Prop where
  length : vfBest.length = vValue.length
  worth : nBest = int64 (worth vValue vfBest)
  enough : nTargetValue ≤ nBest

/-- The best subset reaches the target, and costs no more than all coins. -/
structure BestRight (vValue : List ℤ) (nTargetValue : ℤ) (vfBest : List Bool) (nBest : ℤ) :
    Prop where
  length : vfBest.length = vValue.length
  worth : nBest = worth vValue vfBest
  enough : nTargetValue ≤ nBest
  le_all : nBest ≤ vValue.sum

/-- The running total is what the flags select. -/
structure TotalRight (vValue : List ℤ) (st : SubsetState) : Prop where
  length : st.vfIncluded.length = vValue.length
  total : st.nTotal = int64 (worth vValue st.vfIncluded)

/-- What the passes keep. -/
structure SearchRight (vValue : List ℤ) (nTargetValue : ℤ) (st : SubsetState) : Prop where
  best : BestKept vValue nTargetValue st.vfBest st.nBest
  running : TotalRight vValue st

theorem worth_bounds (hpos : ∀ n ∈ vValue, 0 < n) (flags : List Bool) :
    0 ≤ worth vValue flags ∧ worth vValue flags ≤ vValue.sum := by
  have h := pickWeight_bounds (fun n => n) hpos flags
  rwa [List.map_id'] at h

theorem int64_add_left (x y : ℤ) : int64 (int64 x + y) = int64 (x + y) :=
  Int.bmod_add_bmod

theorem int64_sub_left (x y : ℤ) : int64 (int64 x - y) = int64 (x - y) :=
  Int.bmod_sub_bmod

/-- A coin that is not taken yet is taken, or it reaches the target and is put back. -/
theorem includeCoin_right {n : ℤ} {i : ℕ} (h : SearchRight vValue nTargetValue st)
    (hn : vValue[i]? = some n) (hfree : st.vfIncluded[i]? = some false) :
    SearchRight vValue nTargetValue (includeCoin nTargetValue n i st) := by
  have hset : worth vValue (st.vfIncluded.set i true) = worth vValue st.vfIncluded + n :=
    pickWeight_set (fun n => n) hn hfree
  have htotal := h.running.total
  have hadd : int64 (st.nTotal + n) = int64 (worth vValue (st.vfIncluded.set i true)) := by
    rw [hset, htotal, int64_add_left]
  have hlen : (st.vfIncluded.set i true).length = vValue.length := by
    rw [List.length_set, h.running.length]
  have hback : (st.vfIncluded.set i true).set i false = st.vfIncluded := by
    rw [List.set_set]
    refine List.ext_getElem? fun j => ?_
    rw [List.getElem?_set]
    split
    · next hij =>
        subst hij
        rw [hfree, if_pos (List.getElem?_eq_some_iff.mp hfree).1]
    · rfl
  have hsub : int64 (int64 (worth vValue (st.vfIncluded.set i true)) - n) = st.nTotal := by
    rw [int64_sub_left, hset, htotal, add_sub_cancel_right]
  unfold includeCoin
  dsimp only
  rw [hadd]
  split
  · next hreached =>
      have hrunning : ∀ st' : SubsetState, st'.vfIncluded = st.vfIncluded →
          st'.nTotal = st.nTotal → TotalRight vValue st' := fun st' hflags hsame =>
        ⟨by rw [hflags, h.running.length], by rw [hsame, hflags, htotal]⟩
      refine ⟨?_, hrunning _ hback hsub⟩
      split
      · exact ⟨hlen, rfl, hreached⟩
      · exact h.best
  · exact ⟨h.best, hlen, rfl⟩

/-- Only the flag of the coin changes. -/
theorem includeCoin_flags (n : ℤ) {i j : ℕ} (hij : i ≠ j) :
    (includeCoin nTargetValue n i st).vfIncluded[j]? = st.vfIncluded[j]? := by
  unfold includeCoin
  dsimp only
  split
  · rw [List.getElem?_set_ne hij, List.getElem?_set_ne hij]
  · rw [List.getElem?_set_ne hij]

/-- A pass that takes only coins that are not taken yet.  `ready` is what it knows of the
flags from a place on. -/
theorem subsetPass_right {fTake : SubsetState → ℕ → Bool} {ready : SubsetState → ℕ → Prop}
    (htake : ∀ st i, ready st i → fTake st i = true → st.vfIncluded[i]? ≠ some true)
    (hskip : ∀ st i, ready st i → ready st (i + 1))
    (hnext : ∀ st i n, ready st i → ready (includeCoin nTargetValue n i st) (i + 1)) :
    ∀ (rest : List ℤ) {front : List ℤ} {st : SubsetState}, vValue = front ++ rest →
      SearchRight vValue nTargetValue st → ready st front.length →
        SearchRight vValue nTargetValue (subsetPass nTargetValue fTake front.length rest st)
  | [], _, _, _, h, _ => h
  | n :: rest, front, st, hsplit, h, hready => by
      have hn : vValue[front.length]? = some n := by
        rw [hsplit, List.getElem?_append_right le_rfl, Nat.sub_self]
        rfl
      have hlen : (front ++ [n]).length = front.length + 1 := by simp
      have hsplit' : vValue = (front ++ [n]) ++ rest := by rw [hsplit]; simp
      rw [subsetPass, ← hlen]
      split
      · next hwanted =>
          have hlt : front.length < st.vfIncluded.length := by
            rw [h.running.length]
            exact (List.getElem?_eq_some_iff.mp hn).1
          have hfree : st.vfIncluded[front.length]? = some false := by
            rw [List.getElem?_eq_getElem hlt]
            have hnot := htake st front.length hready hwanted
            rw [List.getElem?_eq_getElem hlt, ne_eq, Option.some.injEq,
              Bool.not_eq_true] at hnot
            rw [hnot]
          refine subsetPass_right htake hskip hnext rest hsplit'
            (includeCoin_right h hn hfree) ?_
          rw [hlen]
          exact hnext st front.length n hready
      · refine subsetPass_right htake hskip hnext rest hsplit' h ?_
        rw [hlen]
        exact hskip st front.length hready

theorem subsetRound_best (hbest : BestKept vValue nTargetValue st.vfBest st.nBest)
    (bits : ℕ → Bool) :
    BestKept vValue nTargetValue (subsetRound vValue nTargetValue bits st).vfBest
      (subsetRound vValue nTargetValue bits st).nBest := by
  have hstart : SearchRight vValue nTargetValue
      { st with vfIncluded := List.replicate vValue.length false, nTotal := 0,
                fReachedTarget := false } :=
    ⟨hbest, List.length_replicate, by
      dsimp only
      rw [worth, pickWeight_replicate_false]
      rfl⟩
  -- The first pass knows that no coin is taken from its place on.
  have hfirst := @subsetPass_right vValue nTargetValue (fun _ i => bits i)
    (fun st i => ∀ j, i ≤ j → st.vfIncluded[j]? ≠ some true)
    (fun _ i hready _ => hready i le_rfl)
    (fun _ _ hready j hj => hready j (Nat.le_of_succ_le hj))
    (fun _ i n hready j hj => by
      rw [includeCoin_flags n (Nat.ne_of_lt hj)]
      exact hready j (Nat.le_of_succ_le hj))
    vValue [] _ (List.nil_append _).symm hstart
    (fun j _ => by
      rw [List.getElem?_replicate]
      split <;> simp)
  unfold subsetRound
  dsimp only
  split
  · exact hfirst.best
  · exact (@subsetPass_right vValue nTargetValue
      (fun st i => !(st.vfIncluded[i]?).getD false) (fun _ _ => True)
      (fun st i _ htake heq => by simp [heq] at htake)
      (fun _ _ _ => trivial) (fun _ _ _ _ => trivial)
      vValue [] _ (List.nil_append _).symm hfirst trivial).best

theorem subsetRounds_best (bits : ℕ → ℕ → Bool) :
    ∀ (iterations nRep : ℕ) {st : SubsetState},
      BestKept vValue nTargetValue st.vfBest st.nBest →
        BestKept vValue nTargetValue
          (subsetRounds vValue nTargetValue bits iterations nRep st).vfBest
          (subsetRounds vValue nTargetValue bits iterations nRep st).nBest
  | 0, _, _, h => h
  | iterations + 1, nRep, st, h => by
      rw [subsetRounds]
      split
      · exact h
      · exact subsetRounds_best bits iterations (nRep + 1)
          (subsetRound_best h (bits nRep))

/-- The search ends with a subset that reaches the target, in 64-bit arithmetic. -/
theorem approximateBestSubset_kept {nTotalLower : ℤ} (htotal : nTotalLower = int64 vValue.sum)
    (henough : nTargetValue ≤ nTotalLower) (bits : ℕ → ℕ → Bool) (iterations : ℕ) :
    BestKept vValue nTargetValue
      (ApproximateBestSubset vValue nTotalLower nTargetValue bits iterations).1
      (ApproximateBestSubset vValue nTotalLower nTargetValue bits iterations).2 := by
  have hall : worth vValue (List.replicate vValue.length true) = vValue.sum := by
    rw [worth, pickWeight_replicate_true, List.map_id']
  exact subsetRounds_best bits iterations 0
    ⟨List.length_replicate, by rw [htotal, hall], henough⟩

/-- The search ends with a subset that reaches the target and is worth no more than all
coins. -/
theorem approximateBestSubset_right (hpos : ∀ n ∈ vValue, 0 < n) (hsum : vValue.sum < 2 ^ 63)
    (henough : nTargetValue ≤ vValue.sum) (bits : ℕ → ℕ → Bool) (iterations : ℕ) :
    BestRight vValue nTargetValue
      (ApproximateBestSubset vValue vValue.sum nTargetValue bits iterations).1
      (ApproximateBestSubset vValue vValue.sum nTargetValue bits iterations).2 := by
  have hnonneg : 0 ≤ vValue.sum := List.sum_nonneg fun n hn => (hpos n hn).le
  have hkept := approximateBestSubset_kept (int64_eq_self (by omega) hsum).symm henough bits
    iterations
  generalize ApproximateBestSubset vValue vValue.sum nTargetValue bits iterations = best at hkept ⊢
  have hworth := worth_bounds hpos best.1
  have hexact : best.2 = worth vValue best.1 := by
    rw [hkept.worth, int64_eq_self (by omega) (by omega)]
  exact ⟨hkept.length, hexact, hkept.enough, by omega⟩

end Ziftrcoin.Spec
