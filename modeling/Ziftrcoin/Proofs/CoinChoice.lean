/-
Module: Ziftrcoin.Proofs.CoinChoice
Purpose: The coins that the wallet chooses pay the amount, whatever the random
  choices are, up to amounts near the largest 64-bit number.
Trusted boundary: none
Main exports: ChosenCoins, coinSelection_right
-/
import Ziftrcoin.Proofs.BestSubset

namespace Ziftrcoin.Spec

open Ziftrcoin.Lib

/-! ### What a selection should be -/

/-- The candidates with enough confirmations. -/
def eligible (nConfMine nConfTheirs : ℤ) (vCoins : List COutput) : List COutput :=
  vCoins.filter (COutput.isEligible nConfMine nConfTheirs)

def COutput.valued (output : COutput) : ValuedCoin := (output.nValue, output.coin)

/-- `coin.first->vout[coin.second].nValue`. -/
def coinValue (coin : WalletCoin) : ℤ :=
  ((coin.1.tx.vout[coin.2]?).map CTxOut.nValue).getD 0

/-- Distinct outputs are chosen, and what they are worth in 64-bit arithmetic reaches the
target. -/
structure ChosenCoins (outputs : List COutput) (nTargetValue : ℤ) (coins : List WalletCoin)
    (nValueRet : ℤ) : Prop where
  distinct : coins.Nodup
  eligible : ∀ coin ∈ coins, ∃ output ∈ outputs, output.coin = coin
  value : nValueRet = int64 (coins.map coinValue).sum
  enough : nTargetValue ≤ nValueRet

/-- Distinct eligible outputs are chosen, and they are worth the value that is returned,
which reaches the target. -/
structure Selected (outputs : List COutput) (nTargetValue : ℤ) (coins : List WalletCoin)
    (nValueRet : ℤ) : Prop where
  distinct : coins.Nodup
  eligible : ∀ coin ∈ coins, ∃ output ∈ outputs, output.coin = coin
  value : nValueRet = (coins.map coinValue).sum
  enough : nTargetValue ≤ nValueRet

/-- There is a selection exactly if the eligible outputs are worth the target. -/
def SelectsRight (outputs : List COutput) (nTargetValue : ℤ)
    (result : Option (List WalletCoin × ℤ)) : Prop :=
  (result.isSome = true ↔ nTargetValue ≤ (outputs.map COutput.nValue).sum) ∧
    ∀ coins nValueRet, result = some (coins, nValueRet) →
      Selected outputs nTargetValue coins nValueRet

/-- Candidates that are distinct and worth something, and together fit into 64 bits. -/
structure Candidates (outputs : List COutput) : Prop where
  distinct : (outputs.map COutput.coin).Nodup
  positive : ∀ output ∈ outputs, 0 < output.nValue
  fits : (outputs.map COutput.nValue).sum < 2 ^ 63

section Choice

variable {outputs outputs' : List COutput} {T : ℤ} {cs : List ValuedCoin}

theorem Candidates.filter (h : Candidates outputs) (p : COutput → Bool) :
    Candidates (outputs.filter p) := by
  refine ⟨h.distinct.sublist (List.filter_sublist.map _), fun output hmem =>
    h.positive output (List.mem_of_mem_filter hmem), lt_of_le_of_lt ?_ h.fits⟩
  refine (List.filter_sublist.map _).sum_le_sum fun v hv => ?_
  obtain ⟨output, hmem, rfl⟩ := List.mem_map.mp hv
  exact (h.positive output hmem).le

theorem Candidates.perm (h : Candidates outputs) (hperm : outputs'.Perm outputs) :
    Candidates outputs' :=
  ⟨(hperm.map _).nodup_iff.mpr h.distinct, fun output hmem =>
    h.positive output (hperm.mem_iff.mp hmem), by rw [(hperm.map _).sum_eq]; exact h.fits⟩

/-- The sum of a part of the candidates. -/
theorem Candidates.part_sum (h : Candidates outputs)
    (hsub : cs.Subperm (outputs.map COutput.valued)) :
    0 ≤ (cs.map Prod.fst).sum ∧ (cs.map Prod.fst).sum ≤ (outputs.map COutput.nValue).sum := by
  have hmap : (outputs.map COutput.valued).map Prod.fst = outputs.map COutput.nValue := by
    rw [List.map_map]
    rfl
  have hvalues : ∀ v ∈ outputs.map COutput.nValue, 0 ≤ v := by
    intro v hv
    obtain ⟨output, hmem, rfl⟩ := List.mem_map.mp hv
    exact (h.positive output hmem).le
  obtain ⟨l, hperm, hsublist⟩ := hsub
  have hl := hsublist.map Prod.fst
  rw [hmap] at hl
  rw [← (hperm.map Prod.fst).sum_eq]
  exact ⟨List.sum_nonneg fun v hv => hvalues v (hl.subset hv), hl.sum_le_sum hvalues⟩

theorem foldl_addCoins : ∀ {cs : List ValuedCoin} {coins : List WalletCoin} {n : ℤ},
    (∀ c ∈ cs, c.2 ∉ coins) → (cs.map Prod.snd).Nodup →
      cs.foldl (fun (ret : List WalletCoin × ℤ) coin =>
        (ret.1.insert coin.2, int64 (ret.2 + coin.1))) (coins, int64 n) =
        ((cs.map Prod.snd).reverse ++ coins, int64 (n + (cs.map Prod.fst).sum))
  | [], coins, n, _, _ => by simp
  | c :: cs, coins, n, hfresh, hnodup => by
      rw [List.map_cons, List.nodup_cons] at hnodup
      have hnew : c.2 ∉ coins := hfresh c List.mem_cons_self
      rw [List.foldl_cons, List.insert_of_not_mem hnew, int64_add_left]
      rw [foldl_addCoins _ hnodup.2]
      · simp only [List.map_cons, List.reverse_cons, List.append_assoc, List.singleton_append,
          List.sum_cons, add_assoc]
      · intro d hd hmem
        rcases List.mem_cons.mp hmem with heq | hmem
        · exact hnodup.1 (heq ▸ List.mem_map_of_mem hd)
        · exact hfresh d (List.mem_cons_of_mem _ hd) hmem

theorem addCoins_eq (hnodup : (cs.map Prod.snd).Nodup) :
    addCoins cs = ((cs.map Prod.snd).reverse, int64 (cs.map Prod.fst).sum) := by
  have h := foldl_addCoins (n := 0) (fun c (_ : c ∈ cs) => List.not_mem_nil) hnodup
  rwa [List.append_nil, zero_add] at h

/-- A part of the outputs that reaches the target is chosen. -/
theorem chosen_of_subperm (hdistinct : (outputs.map COutput.coin).Nodup)
    (hsub : cs.Subperm (outputs.map COutput.valued))
    (henough : T ≤ int64 (cs.map Prod.fst).sum) :
    ChosenCoins outputs T (addCoins cs).1 (addCoins cs).2 := by
  have hmem : ∀ c ∈ cs, ∃ output ∈ outputs, output.valued = c := fun c hc =>
    List.mem_map.mp (hsub.subset hc)
  have hnodup : (cs.map Prod.snd).Nodup := by
    obtain ⟨l, hperm, hsublist⟩ := hsub
    rw [← (hperm.map Prod.snd).nodup_iff]
    have hcoins : (outputs.map COutput.valued).map Prod.snd = outputs.map COutput.coin := by
      rw [List.map_map]
      rfl
    exact (hcoins ▸ hdistinct).sublist (hsublist.map _)
  rw [addCoins_eq hnodup]
  refine ⟨List.nodup_reverse.mpr hnodup, fun coin hcoin => ?_, ?_, henough⟩
  · obtain ⟨c, hc, rfl⟩ := List.mem_map.mp (List.mem_reverse.mp hcoin)
    obtain ⟨output, houtput, rfl⟩ := hmem c hc
    exact ⟨output, houtput, rfl⟩
  · have hvalues : cs.map Prod.fst = cs.map (coinValue ∘ Prod.snd) := by
      refine List.map_congr_left fun c hc => ?_
      obtain ⟨output, -, rfl⟩ := hmem c hc
      rfl
    rw [List.map_reverse, List.sum_reverse, List.map_map, hvalues]

/-- What the chosen candidates are worth. -/
theorem Candidates.chosen_sum (h : Candidates outputs) {coins : List WalletCoin} {n : ℤ}
    (hchosen : ChosenCoins outputs T coins n) :
    0 ≤ (coins.map coinValue).sum ∧
      (coins.map coinValue).sum ≤ (outputs.map COutput.nValue).sum := by
  have hsub : coins.Subperm (outputs.map COutput.coin) :=
    hchosen.distinct.subperm fun coin hcoin =>
      List.mem_map.mpr (hchosen.eligible coin hcoin)
  have hvalues : (outputs.map COutput.coin).map coinValue = outputs.map COutput.nValue := by
    rw [List.map_map]
    rfl
  have hnonneg : ∀ v ∈ outputs.map COutput.nValue, 0 ≤ v := by
    intro v hv
    obtain ⟨output, hmem, rfl⟩ := List.mem_map.mp hv
    exact (h.positive output hmem).le
  obtain ⟨l, hperm, hsublist⟩ := hsub
  have hl := hsublist.map coinValue
  rw [hvalues] at hl
  rw [← (hperm.map coinValue).sum_eq]
  exact ⟨List.sum_nonneg fun v hv => hnonneg v (hl.subset hv), hl.sum_le_sum hnonneg⟩

/-- What is chosen from candidates is a selection. -/
theorem Candidates.selected_of_chosen (h : Candidates outputs) {coins : List WalletCoin} {n : ℤ}
    (hchosen : ChosenCoins outputs T coins n) : Selected outputs T coins n := by
  have hsum := h.chosen_sum hchosen
  have hfits := h.fits
  refine ⟨hchosen.distinct, hchosen.eligible, ?_, hchosen.enough⟩
  rw [hchosen.value, int64_eq_self (by omega) (by omega)]

/-! ### The loop over the candidates -/

/-- Below the target and a cent. -/
def COutput.isLower (T : ℤ) (output : COutput) : Bool :=
  decide (output.nValue < int64 (T + CENT))

/-- The lower one of a coin and the lowest so far. -/
def lowerCoin (lowest : ℤ × Option WalletCoin) (output : COutput) : ℤ × Option WalletCoin :=
  if output.nValue < lowest.1 then (output.nValue, some output.coin) else lowest

/-- What the loop collects if no output has the value of the target. -/
def collected (T : ℤ) (outputs : List COutput) (lists : CoinLists) : CoinLists :=
  { vValue := lists.vValue ++ (outputs.filter (COutput.isLower T)).map COutput.valued
    nTotalLower := int64 (lists.nTotalLower +
      ((outputs.filter (COutput.isLower T)).map COutput.nValue).sum)
    coinLowestLarger := (outputs.filter fun output => !output.isLower T).foldl lowerCoin
      lists.coinLowestLarger }

theorem scanCoins_eq {nConfMine nConfTheirs : ℤ} : ∀ {vCoins : List COutput} {lists : CoinLists},
    int64 lists.nTotalLower = lists.nTotalLower →
      scanCoins T nConfMine nConfTheirs vCoins lists =
        match (eligible nConfMine nConfTheirs vCoins).find? fun o => decide (o.nValue = T) with
        | some output => .inl output.valued
        | none => .inr (collected T (eligible nConfMine nConfTheirs vCoins) lists)
  | [], lists, hlow => by
      simp [scanCoins, eligible, collected, hlow]
  | output :: vCoins, lists, hlow => by
      rw [scanCoins]
      by_cases helig : output.isEligible nConfMine nConfTheirs = true
      swap
      · rw [if_pos (Bool.eq_false_iff.mpr helig), scanCoins_eq hlow, eligible, eligible,
          List.filter_cons_of_neg helig]
      rw [if_neg (by rw [helig]; exact Bool.noConfusion), eligible,
        List.filter_cons_of_pos helig]
      dsimp only
      by_cases htarget : output.nValue = T
      · rw [if_pos htarget, List.find?_cons_of_pos (by simpa using htarget)]
        rfl
      rw [if_neg htarget, List.find?_cons_of_neg (by simpa using htarget)]
      by_cases hlower : output.nValue < int64 (T + CENT)
      · have hflag : output.isLower T = true := decide_eq_true hlower
        have hidem : int64 (int64 (lists.nTotalLower + output.nValue)) =
            int64 (lists.nTotalLower + output.nValue) := Int.bmod_bmod
        have ih := @scanCoins_eq nConfMine nConfTheirs vCoins
          { lists with
            vValue := lists.vValue ++ [(output.nValue, output.coin)]
            nTotalLower := int64 (lists.nTotalLower + output.nValue) } hidem
        rw [if_pos hlower, ih]
        simp only [eligible, collected, List.filter_cons, hflag, if_true, Bool.not_true,
          Bool.false_eq_true, if_false, List.map_cons, List.sum_cons, List.append_assoc,
          List.singleton_append, int64_add_left, add_assoc]
        rfl
      · have hflag : output.isLower T = false := decide_eq_false hlower
        rw [if_neg hlower]
        have hlarger : ∀ lowest, lowest = lowerCoin lists.coinLowestLarger output →
            scanCoins T nConfMine nConfTheirs vCoins
              { lists with coinLowestLarger := lowest } =
            match (eligible nConfMine nConfTheirs vCoins).find? fun o =>
                decide (o.nValue = T) with
            | some output => .inl output.valued
            | none => .inr (collected T (output :: eligible nConfMine nConfTheirs vCoins)
                lists) := by
          rintro lowest rfl
          have ih : scanCoins T nConfMine nConfTheirs vCoins
              { lists with coinLowestLarger := lowerCoin lists.coinLowestLarger output } = _ :=
            scanCoins_eq hlow
          rw [ih]
          simp only [collected, List.filter_cons, hflag, Bool.not_false, if_true,
            Bool.false_eq_true, if_false, List.foldl_cons]
        split
        · next hless => exact hlarger _ (by rw [lowerCoin, if_pos hless])
        · next hless => exact hlarger lists.coinLowestLarger (by rw [lowerCoin, if_neg hless])

/-- The lowest of some coins, if one of them is below the bound at the start. -/
theorem foldl_lowerCoin : ∀ (outputs : List COutput) (lowest : ℤ × Option WalletCoin),
    (outputs.foldl lowerCoin lowest = lowest ∧ ∀ o ∈ outputs, lowest.1 ≤ o.nValue) ∨
      ∃ output ∈ outputs, output.nValue < lowest.1 ∧
        outputs.foldl lowerCoin lowest = (output.nValue, some output.coin) ∧
        ∀ o ∈ outputs, output.nValue ≤ o.nValue
  | [], lowest => .inl ⟨rfl, fun _ h => absurd h List.not_mem_nil⟩
  | output :: outputs, lowest => by
      rw [List.foldl_cons, lowerCoin]
      split
      · next hless =>
          obtain ⟨heq, hall⟩ | ⟨o, ho, hlt, heq, hall⟩ :=
            foldl_lowerCoin outputs (output.nValue, some output.coin)
          · refine .inr ⟨output, List.mem_cons_self, hless, heq, fun o ho => ?_⟩
            rcases List.mem_cons.mp ho with rfl | ho
            · exact le_rfl
            · exact hall o ho
          · refine .inr ⟨o, List.mem_cons_of_mem _ ho, hlt.trans hless, heq, fun o' ho' => ?_⟩
            rcases List.mem_cons.mp ho' with rfl | ho'
            · exact hlt.le
            · exact hall o' ho'
      · next hless =>
          obtain ⟨heq, hall⟩ | ⟨o, ho, hlt, heq, hall⟩ := foldl_lowerCoin outputs lowest
          · refine .inl ⟨heq, fun o ho => ?_⟩
            rcases List.mem_cons.mp ho with rfl | ho
            · exact not_lt.mp hless
            · exact hall o ho
          · refine .inr ⟨o, List.mem_cons_of_mem _ ho, hlt, heq, fun o' ho' => ?_⟩
            rcases List.mem_cons.mp ho' with rfl | ho'
            · exact (hlt.trans_le (not_lt.mp hless)).le
            · exact hall o' ho'

/-! ### The end of the selection -/

theorem Candidates.sum_nonneg (h : Candidates outputs) : 0 ≤ (outputs.map COutput.nValue).sum :=
  List.sum_nonneg fun v hv => by
    obtain ⟨output, hmem, rfl⟩ := List.mem_map.mp hv
    exact (h.positive output hmem).le

/-- A single candidate is a part. -/
theorem subperm_single {output : COutput} (hmem : output ∈ outputs) :
    [output.valued].Subperm (outputs.map COutput.valued) :=
  (List.singleton_sublist.mpr (List.mem_map_of_mem hmem)).subperm

/-- What lies below the target and a cent is a part. -/
theorem subperm_lower (T : ℤ) (outputs : List COutput) :
    ((outputs.filter (COutput.isLower T)).map COutput.valued).Subperm
      (outputs.map COutput.valued) :=
  (List.filter_sublist.map _).subperm

theorem map_fst_valued (outputs : List COutput) :
    (outputs.map COutput.valued).map Prod.fst = outputs.map COutput.nValue := by
  rw [List.map_map]
  rfl

theorem valued_sum (output : COutput) : ([output.valued].map Prod.fst).sum = output.nValue := by
  simp [COutput.valued]

/-- A single output that reaches the target is chosen. -/
theorem chosen_single (hdistinct : (outputs.map COutput.coin).Nodup) {output : COutput}
    (hmem : output ∈ outputs) (h64 : int64 output.nValue = output.nValue)
    (henough : T ≤ output.nValue) :
    ChosenCoins outputs T (addCoins [output.valued]).1 (addCoins [output.valued]).2 :=
  chosen_of_subperm hdistinct (subperm_single hmem) (by rwa [valued_sum, h64])

/-- The subset that the search ends with is chosen. -/
theorem pick_chosen (hdistinct : (outputs.map COutput.coin).Nodup) {vValue : List ValuedCoin}
    (hsub : vValue.Subperm (outputs.map COutput.valued)) {target nBest : ℤ}
    {vfBest : List Bool} (hbest : BestKept (vValue.map Prod.fst) target vfBest nBest)
    (hT : T ≤ target) :
    ChosenCoins outputs T (addCoins (pick vValue vfBest)).1 (addCoins (pick vValue vfBest)).2 := by
  have hworth : ((pick vValue vfBest).map Prod.fst).sum =
      worth (vValue.map Prod.fst) vfBest := by
    rw [worth, pickWeight, pick_map, List.map_map]
    rfl
  refine chosen_of_subperm hdistinct ((pick_sublist vValue vfBest).subperm.trans hsub) ?_
  rw [hworth, ← hbest.worth]
  exact hT.trans hbest.enough

/-- The end of the selection, for a target that a cent does not carry beyond 64 bits. -/
theorem chooseSubset_chosen (hdistinct : (outputs.map COutput.coin).Nodup)
    (random : SelectRandom) (hcent : int64 (T + CENT) = T + CENT) {lists : CoinLists}
    (hlower : lists.vValue.Subperm (outputs.map COutput.valued))
    (htotal : lists.nTotalLower = int64 (lists.vValue.map Prod.fst).sum)
    (hmore : T ≤ lists.nTotalLower)
    (hlarger : ∀ n coin, lists.coinLowestLarger = (n, some coin) →
      ChosenCoins outputs T (addCoins [(n, coin)]).1 (addCoins [(n, coin)]).2) :
    ChosenCoins outputs T (chooseSubset T random lists).1 (chooseSubset T random lists).2 := by
  have hsorted : (lists.vValue.mergeSort fun a b => decide (b.1 ≤ a.1)).Perm lists.vValue :=
    List.mergeSort_perm _ _
  generalize hvValue : (lists.vValue.mergeSort fun a b => decide (b.1 ≤ a.1)) = vValue at hsorted
  have hsub : vValue.Subperm (outputs.map COutput.valued) := hsorted.subperm.trans hlower
  have hsum : lists.nTotalLower = int64 (vValue.map Prod.fst).sum := by
    rw [(hsorted.map Prod.fst).sum_eq, htotal]
  have hsearch := fun target henough bits =>
    @approximateBestSubset_kept (vValue.map Prod.fst) target _ hsum henough bits 1000
  unfold chooseSubset
  dsimp only
  rw [hvValue, hcent]
  generalize hlast : (if (ApproximateBestSubset (vValue.map Prod.fst) lists.nTotalLower T
        (random.insecure_rand 0) 1000).2 ≠ T ∧ T + CENT ≤ lists.nTotalLower then
      ApproximateBestSubset (vValue.map Prod.fst) lists.nTotalLower (T + CENT)
        (random.insecure_rand 1) 1000
    else ApproximateBestSubset (vValue.map Prod.fst) lists.nTotalLower T
      (random.insecure_rand 0) 1000) = best
  -- Whichever search was the last one, it kept a subset that reaches the target.
  have hbest : ∃ target ≥ T, BestKept (vValue.map Prod.fst) target best.1 best.2 := by
    rw [← hlast]
    split
    · next hagain =>
        exact ⟨T + CENT, by unfold CENT; omega, hsearch _ hagain.2 _⟩
    · exact ⟨T, le_rfl, hsearch _ hmore _⟩
  obtain ⟨target, htarget, hbest⟩ := hbest
  cases hlowest : lists.coinLowestLarger with
  | mk n lowest =>
      cases lowest with
      | none => exact pick_chosen hdistinct hsub hbest htarget
      | some coin =>
          dsimp only
          split
          · exact hlarger n coin hlowest
          · exact pick_chosen hdistinct hsub hbest htarget

/-- What the function does with what the loop has collected. -/
def selectLists (random : SelectRandom) (T : ℤ) (lists : CoinLists) :
    Option (List WalletCoin × ℤ) :=
  if lists.nTotalLower = T then some (addCoins lists.vValue)
  else if lists.nTotalLower < T then
    match lists.coinLowestLarger with
    | (_, none) => none
    | (n, some coin) => some (addCoins [(n, coin)])
  else some (chooseSubset T random lists)

theorem collected_lower (T : ℤ) (outputs : List COutput) :
    (collected T outputs .start).vValue =
        (outputs.filter (COutput.isLower T)).map COutput.valued ∧
      (collected T outputs .start).nTotalLower =
        int64 ((outputs.filter (COutput.isLower T)).map COutput.nValue).sum := by
  rw [collected, CoinLists.start, List.nil_append, zero_add]
  exact ⟨rfl, rfl⟩

/-- What is chosen from the lists pays the target, if a cent does not carry it beyond 64
bits. -/
theorem selectLists_chosen (hdistinct : (outputs.map COutput.coin).Nodup)
    (h64 : ∀ o ∈ outputs, int64 o.nValue = o.nValue) (random : SelectRandom)
    (hcent : int64 (T + CENT) = T + CENT) {ret : List WalletCoin × ℤ}
    (h : selectLists random T (collected T outputs .start) = some ret) :
    ChosenCoins outputs T ret.1 ret.2 := by
  obtain ⟨hvValue, htotal⟩ := collected_lower T outputs
  have hsub := subperm_lower T outputs
  rw [← hvValue] at hsub
  have htotal' : (collected T outputs .start).nTotalLower =
      int64 ((collected T outputs .start).vValue.map Prod.fst).sum := by
    rw [htotal, hvValue, map_fst_valued]
  have hlarger : ∀ n coin, (collected T outputs .start).coinLowestLarger = (n, some coin) →
      ChosenCoins outputs T (addCoins [(n, coin)]).1 (addCoins [(n, coin)]).2 := by
    intro n coin hcoin
    have hfold : (outputs.filter fun output => !output.isLower T).foldl lowerCoin
        CoinLists.start.coinLowestLarger = (n, some coin) := hcoin
    obtain ⟨heq, -⟩ | ⟨output, hmem, -, heq, -⟩ := foldl_lowerCoin
      (outputs.filter fun output => !output.isLower T) CoinLists.start.coinLowestLarger
    · rw [heq] at hfold
      cases hfold
    · rw [heq, Prod.mk.injEq, Option.some.injEq] at hfold
      obtain ⟨rfl, rfl⟩ := hfold
      obtain ⟨hout, hflag⟩ := List.mem_filter.mp hmem
      have hnot : ¬ output.nValue < int64 (T + CENT) := by simpa [COutput.isLower] using hflag
      rw [hcent, CENT] at hnot
      exact chosen_single hdistinct hout (h64 output hout) (by omega)
  generalize collected T outputs .start = lists at hsub htotal' hlarger h
  unfold selectLists at h
  split at h
  · next heq =>
      rw [← Option.some.inj h]
      exact chosen_of_subperm hdistinct hsub (by rw [← htotal', heq])
  split at h
  · split at h
    · cases h
    · next n coin hcoin =>
        rw [← Option.some.inj h]
        exact hlarger n coin hcoin
  · next hmore =>
      rw [← Option.some.inj h]
      exact chooseSubset_chosen hdistinct random hcent hsub htotal' (not_lt.mp hmore) hlarger

/-- `SelectCoinsMinConf` by way of the lists. -/
theorem selectCoinsMinConf_eq {vCoins : List COutput} (random : SelectRandom)
    (nConfMine nConfTheirs : ℤ) :
    SelectCoinsMinConf random T nConfMine nConfTheirs vCoins =
      match (eligible nConfMine nConfTheirs (random.random_shuffle vCoins)).find?
          fun o => decide (o.nValue = T) with
      | some output => some (addCoins [output.valued])
      | none => selectLists random T
          (collected T (eligible nConfMine nConfTheirs (random.random_shuffle vCoins)) .start) := by
  rw [SelectCoinsMinConf, scanCoins_eq rfl]
  cases (eligible nConfMine nConfTheirs (random.random_shuffle vCoins)).find?
    fun o => decide (o.nValue = T) <;> rfl

theorem ChosenCoins.mono {coins : List WalletCoin} {n : ℤ} (h : ChosenCoins outputs T coins n)
    (hsub : ∀ o ∈ outputs, o ∈ outputs') : ChosenCoins outputs' T coins n := by
  refine ⟨h.distinct, fun coin hcoin => ?_, h.value, h.enough⟩
  obtain ⟨output, hmem, heq⟩ := h.eligible coin hcoin
  exact ⟨output, hsub output hmem, heq⟩

/-- Whatever the function finds pays the target, even if the values of all outputs together
do not fit into 64 bits. -/
theorem selectCoinsMinConf_chosen {vCoins : List COutput}
    (hdistinct : (vCoins.map COutput.coin).Nodup)
    (h64 : ∀ o ∈ vCoins, int64 o.nValue = o.nValue) (random : SelectRandom)
    (hcent : int64 (T + CENT) = T + CENT) {nConfMine nConfTheirs : ℤ}
    {ret : List WalletCoin × ℤ}
    (h : SelectCoinsMinConf random T nConfMine nConfTheirs vCoins = some ret) :
    ChosenCoins vCoins T ret.1 ret.2 := by
  have hperm := random.perm vCoins
  have hmem : ∀ o ∈ eligible nConfMine nConfTheirs (random.random_shuffle vCoins), o ∈ vCoins :=
    fun o ho => hperm.mem_iff.mp (List.mem_of_mem_filter ho)
  have hdistinct' : ((eligible nConfMine nConfTheirs (random.random_shuffle vCoins)).map
      COutput.coin).Nodup :=
    ((hperm.map _).nodup_iff.mpr hdistinct).sublist (List.filter_sublist.map _)
  rw [selectCoinsMinConf_eq] at h
  refine ChosenCoins.mono ?_ hmem
  split at h
  · next output hfind =>
      have hvalue : output.nValue = T := by simpa using List.find?_some hfind
      have hout := List.mem_of_find?_eq_some hfind
      rw [← Option.some.inj h]
      exact chosen_single hdistinct' hout (h64 output (hmem output hout)) hvalue.ge
  · exact selectLists_chosen hdistinct' (fun o ho => h64 o (hmem o ho)) random hcent h

/-! ### When the coins pay the target -/

/-- Values that the selection deals with: none, one that is the target, or any but the largest
64-bit number alone; a target that a cent carries beyond 64 bits must be met by a single one. -/
def Payable (T : ℤ) (values : List ℤ) : Prop :=
  values = [] ∨ T ∈ values ∨
    values ≠ [2 ^ 63 - 1] ∧ (T + CENT < 2 ^ 63 ∨ ∃ n, values = [n] ∧ T ≤ n)

theorem Payable.perm {values values' : List ℤ} (hperm : values'.Perm values)
    (h : Payable T values') : Payable T values := by
  rcases h with rfl | hmem | ⟨hmax, hcent⟩
  · exact .inl (List.nil_perm.mp hperm)
  · exact .inr (.inl (hperm.mem_iff.mp hmem))
  · refine .inr (.inr ⟨?_, hcent.imp_right ?_⟩)
    · rintro rfl
      exact hmax (List.perm_singleton.mp hperm)
    · rintro ⟨n, rfl, hn⟩
      exact ⟨n, List.singleton_perm.mp hperm |>.symm, hn⟩

theorem SelectsRight.perm {result : Option (List WalletCoin × ℤ)} (hperm : outputs'.Perm outputs)
    (h : SelectsRight outputs' T result) : SelectsRight outputs T result := by
  refine ⟨by rw [← (hperm.map COutput.nValue).sum_eq]; exact h.1, fun coins n hresult => ?_⟩
  obtain ⟨hdistinct, heligible, hvalue, henough⟩ := h.2 coins n hresult
  refine ⟨hdistinct, fun coin hcoin => ?_, hvalue, henough⟩
  obtain ⟨output, hmem, heq⟩ := heligible coin hcoin
  exact ⟨output, hperm.mem_iff.mp hmem, heq⟩

/-- Next to a candidate there is none that would exceed 64 bits with it. -/
theorem Candidates.eq_single (h : Candidates outputs) {output : COutput} (hmem : output ∈ outputs)
    (hlarge : ∀ o ∈ outputs, 2 ^ 63 ≤ output.nValue + o.nValue) : outputs = [output] := by
  have hperm := List.perm_cons_erase hmem
  cases herase : outputs.erase output with
  | nil =>
      rw [herase] at hperm
      exact List.perm_singleton.mp hperm
  | cons o rest =>
      rw [herase] at hperm
      have hcand := h.perm hperm.symm
      have hfits := hcand.fits
      have hrest : 0 ≤ (rest.map COutput.nValue).sum := List.sum_nonneg fun v hv => by
        obtain ⟨o', ho', rfl⟩ := List.mem_map.mp hv
        exact (hcand.positive o' (List.mem_cons_of_mem _ (List.mem_cons_of_mem _ ho'))).le
      have hboth := hlarge o (hperm.mem_iff.mpr (List.mem_cons_of_mem _ List.mem_cons_self))
      rw [List.map_cons, List.map_cons, List.sum_cons, List.sum_cons] at hfits
      omega

/-- What is chosen from candidates is right. -/
theorem Candidates.right_of_chosen (h : Candidates outputs) {ret : List WalletCoin × ℤ}
    (hchosen : ChosenCoins outputs T ret.1 ret.2) : SelectsRight outputs T (some ret) := by
  have hselected := h.selected_of_chosen hchosen
  refine ⟨iff_of_true rfl (hselected.enough.trans ?_), fun coins n hresult => ?_⟩
  · rw [hselected.value]
    exact (h.chosen_sum hchosen).2
  · rw [Option.some.inj hresult] at hselected
    exact hselected

theorem Candidates.int64_nValue (h : Candidates outputs) {output : COutput}
    (hmem : output ∈ outputs) : int64 output.nValue = output.nValue := by
  have hsum := (h.part_sum (subperm_single hmem)).2
  have hpos := h.positive output hmem
  have hfits := h.fits
  rw [valued_sum] at hsum
  exact int64_eq_self (by omega) (by omega)

/-- Without an output of the target's value, and a target that leaves room for a cent. -/
theorem Candidates.selectLists_roomy (h : Candidates outputs) (random : SelectRandom)
    (hT : 0 < T) (hcent : T + CENT < 2 ^ 63) (hmax : outputs.map COutput.nValue ≠ [2 ^ 63 - 1]) :
    SelectsRight outputs T (selectLists random T (collected T outputs .start)) := by
  have hwrap : int64 (T + CENT) = T + CENT := int64_eq_self (by unfold CENT; omega) hcent
  cases hresult : selectLists random T (collected T outputs .start) with
  | some ret =>
      exact h.right_of_chosen
        (selectLists_chosen h.distinct (fun _ => h.int64_nValue) random hwrap hresult)
  | none =>
      have htotal := (collected_lower T outputs).2
      have hlower := (h.filter (COutput.isLower T)).sum_nonneg
      have hlowerFits := (h.filter (COutput.isLower T)).fits
      rw [int64_eq_self (by omega) hlowerFits] at htotal
      obtain ⟨hless, n, hnone⟩ : (collected T outputs .start).nTotalLower < T ∧
          ∃ n, (collected T outputs .start).coinLowestLarger = (n, none) := by
        unfold selectLists at hresult
        split at hresult
        · cases hresult
        split at hresult
        · next hless =>
            split at hresult
            · next hnone => exact ⟨hless, _, hnone⟩
            · cases hresult
        · cases hresult
      refine ⟨iff_of_false Bool.false_ne_true (not_le.mpr ?_),
        fun _ _ hnone => absurd hnone (by simp)⟩
      have hfold : (outputs.filter fun output => !output.isLower T).foldl lowerCoin
          CoinLists.start.coinLowestLarger = (n, none) := hnone
      obtain ⟨-, hall⟩ | ⟨output, -, -, hsome, -⟩ := foldl_lowerCoin
        (outputs.filter fun output => !output.isLower T) CoinLists.start.coinLowestLarger
      · -- A larger coin that is not recorded is the largest number, and then it is alone.
        have hempty : outputs.filter (fun output => !output.isLower T) = [] := by
          refine List.eq_nil_iff_forall_not_mem.mpr fun o ho => hmax ?_
          have hvalue : 2 ^ 63 - 1 ≤ o.nValue := hall o ho
          have hsingle := h.eq_single (List.mem_of_mem_filter ho) fun o' ho' => by
            have := h.positive o' ho'
            omega
          have hfits := h.fits
          rw [hsingle] at hfits ⊢
          simp only [List.map_cons, List.map_nil, List.sum_cons, List.sum_nil,
            add_zero] at hfits ⊢
          congr 1
          omega
        have hlow : outputs.filter (COutput.isLower T) = outputs :=
          List.filter_eq_self.mpr fun o ho => by
            have hnot := List.filter_eq_nil_iff.mp hempty o ho
            simpa using hnot
        rwa [htotal, hlow] at hless
      · rw [hsome] at hfold
        cases hfold

/-- The largest 64-bit number alone is not found. -/
theorem Candidates.selectLists_max (h : Candidates outputs) (random : SelectRandom)
    (hT : 0 < T) (hT' : T < 2 ^ 63 - 1) (hmax : outputs.map COutput.nValue = [2 ^ 63 - 1]) :
    ¬ SelectsRight outputs T (selectLists random T (collected T outputs .start)) := by
  obtain ⟨output, rfl⟩ : ∃ output, outputs = [output] := by
    have hlen := congrArg List.length hmax
    rw [List.length_map] at hlen
    exact List.length_eq_one_iff.mp hlen
  have hvalue : output.nValue = 2 ^ 63 - 1 := by simpa using hmax
  have hwrapped : int64 (T + CENT) ≤ 2 ^ 63 - 1 := by
    unfold int64
    rw [Int.bmod_def]
    split <;> omega
  have hlarger : output.isLower T = false := by
    rw [COutput.isLower, hvalue]
    exact decide_eq_false (by omega)
  have hlists : selectLists random T (collected T [output] .start) = none := by
    have hzero : int64 0 = 0 := rfl
    simp [selectLists, collected, hlarger, CoinLists.start, lowerCoin, hvalue, hzero, hT, hT.ne]
  intro hright
  rw [hlists] at hright
  have hsum := hright.1.mpr (by simp [hvalue]; omega)
  cases hsum

/-- A target that a cent carries beyond 64 bits makes every coin a larger one. -/
theorem Candidates.selectLists_tight_iff (h : Candidates outputs) (random : SelectRandom)
    (hT : T < 2 ^ 63) (hcent : 2 ^ 63 ≤ T + CENT) :
    SelectsRight outputs T (selectLists random T (collected T outputs .start)) ↔
      outputs = [] ∨ ∃ output, outputs = [output] ∧ T ≤ output.nValue ∧
        output.nValue ≠ 2 ^ 63 - 1 := by
  have hwrap : int64 (T + CENT) ≤ 0 := by
    unfold int64 CENT
    unfold CENT at hcent
    rw [Int.bmod_def]
    split <;> omega
  have hlarger : ∀ o ∈ outputs, o.isLower T = false := by
    intro o ho
    have := h.positive o ho
    rw [COutput.isLower]
    exact decide_eq_false (by omega)
  have hnone : outputs.filter (COutput.isLower T) = [] :=
    List.filter_eq_nil_iff.mpr fun o ho => by rw [hlarger o ho]; exact Bool.false_ne_true
  have hall : (outputs.filter fun output => !output.isLower T) = outputs :=
    List.filter_eq_self.mpr fun o ho => by rw [hlarger o ho]; rfl
  have hlists : selectLists random T (collected T outputs .start) =
      match outputs.foldl lowerCoin CoinLists.start.coinLowestLarger with
      | (_, none) => none
      | (n, some coin) => some (addCoins [(n, coin)]) := by
    have htotal : (collected T outputs .start).nTotalLower = 0 := by
      rw [(collected_lower T outputs).2, hnone]
      rfl
    have hpos : 0 < T := by
      unfold CENT at hcent
      omega
    rw [selectLists, htotal, if_neg hpos.ne, if_pos hpos, collected, hall]
  rw [hlists]
  obtain ⟨heq, hmax⟩ | ⟨output, hmem, hlt, heq, hmin⟩ :=
    foldl_lowerCoin outputs CoinLists.start.coinLowestLarger
  · rw [heq]
    have hvalues : ∀ o ∈ outputs, 2 ^ 63 - 1 ≤ o.nValue := hmax
    constructor
    · intro hright
      refine .inl (List.eq_nil_iff_forall_not_mem.mpr fun o ho => ?_)
      have hsum := (h.part_sum (subperm_single ho)).2
      rw [valued_sum] at hsum
      have hvalue := hvalues o ho
      exact absurd (hright.1.mpr (by omega)) (by simp [CoinLists.start])
    · rintro (rfl | ⟨output, rfl, -, hne⟩)
      · refine ⟨iff_of_false (by simp [CoinLists.start]) (not_le.mpr ?_),
          fun _ _ hresult => by cases hresult⟩
        unfold CENT at hcent
        rw [List.map_nil, List.sum_nil]
        omega
      · have hfits := h.fits
        have hvalue := hvalues output List.mem_cons_self
        simp only [List.map_cons, List.map_nil, List.sum_cons, List.sum_nil, add_zero] at hfits
        omega
  · rw [heq]
    have hbound : output.nValue < 2 ^ 63 - 1 := hlt
    constructor
    · intro hright
      have hcoin := (hright.2 _ _ rfl).enough
      have hvalue : (addCoins [output.valued]).2 = output.nValue := by
        have hpos := h.positive output hmem
        simp [addCoins, COutput.valued, int64_eq_self (x := output.nValue) (by omega) (by omega)]
      have henough : T ≤ output.nValue := hvalue ▸ hcoin
      refine .inr ⟨output, h.eq_single hmem fun o ho => ?_, henough, hbound.ne⟩
      have := hmin o ho
      unfold CENT at hcent
      omega
    · rintro (rfl | ⟨output', rfl, henough, -⟩)
      · exact absurd hmem List.not_mem_nil
      · obtain rfl := List.mem_singleton.mp hmem
        exact h.right_of_chosen
          (chosen_single h.distinct hmem (h.int64_nValue hmem) henough)

/-- The function is right about what the loop has collected exactly if the outputs are payable. -/
theorem Candidates.selectLists_iff (h : Candidates outputs) (random : SelectRandom)
    (hT : 0 < T) (hfits : T < 2 ^ 63) (hne : T ∉ outputs.map COutput.nValue) :
    SelectsRight outputs T (selectLists random T (collected T outputs .start)) ↔
      Payable T (outputs.map COutput.nValue) := by
  have hnil : outputs = [] ↔ outputs.map COutput.nValue = [] := List.map_eq_nil_iff.symm
  by_cases hcent : T + CENT < 2 ^ 63
  · by_cases hmax : outputs.map COutput.nValue = [2 ^ 63 - 1]
    · refine iff_of_false (h.selectLists_max random hT (by unfold CENT at hcent; omega) hmax) ?_
      rintro (hempty | hmem | ⟨hother, -⟩)
      · rw [hmax] at hempty
        cases hempty
      · exact hne hmem
      · exact hother hmax
    · exact iff_of_true (h.selectLists_roomy random hT hcent hmax)
        (.inr (.inr ⟨hmax, .inl hcent⟩))
  · rw [h.selectLists_tight_iff random hfits (not_lt.mp hcent)]
    constructor
    · rintro (hempty | ⟨output, rfl, henough, hmax⟩)
      · exact .inl (hnil.mp hempty)
      · exact .inr (.inr ⟨by simpa using hmax, .inr ⟨_, rfl, henough⟩⟩)
    · rintro (hempty | hmem | ⟨hmax, hroomy | ⟨n, hsingle, hn⟩⟩)
      · exact .inl (hnil.mpr hempty)
      · exact absurd hmem hne
      · exact absurd hroomy hcent
      · obtain ⟨output, rfl, rfl⟩ := List.map_eq_singleton_iff.mp hsingle
        exact .inr ⟨output, rfl, hn, by simpa using hmax⟩

/-- `SelectCoinsMinConf` finds coins for a target exactly if the eligible outputs are worth it,
and finds distinct ones that pay it, exactly if they are payable. -/
theorem Candidates.selectCoinsMinConf_iff {vCoins : List COutput} (h : Candidates vCoins)
    (random : SelectRandom) (hT : 0 < T) (hfits : T < 2 ^ 63) (nConfMine nConfTheirs : ℤ) :
    SelectsRight (eligible nConfMine nConfTheirs vCoins) T
        (SelectCoinsMinConf random T nConfMine nConfTheirs vCoins) ↔
      Payable T ((eligible nConfMine nConfTheirs vCoins).map COutput.nValue) := by
  have hperm := random.perm vCoins
  generalize hshuffled : random.random_shuffle vCoins = shuffled at hperm
  have hperm' : (eligible nConfMine nConfTheirs shuffled).Perm
      (eligible nConfMine nConfTheirs vCoins) := hperm.filter _
  have hcand := h.perm hperm
  have helig : Candidates (eligible nConfMine nConfTheirs shuffled) := hcand.filter _
  -- The order of the candidates does not matter to either side.
  suffices hshuffle : SelectsRight (eligible nConfMine nConfTheirs shuffled) T
      (SelectCoinsMinConf random T nConfMine nConfTheirs vCoins) ↔
        Payable T ((eligible nConfMine nConfTheirs shuffled).map COutput.nValue) by
    constructor
    · intro hright
      exact (hshuffle.mp (hright.perm hperm'.symm)).perm (hperm'.map _)
    · intro hpay
      exact (hshuffle.mpr (hpay.perm (hperm'.map _).symm)).perm hperm'
  rw [selectCoinsMinConf_eq, hshuffled]
  cases hfind : (eligible nConfMine nConfTheirs shuffled).find?
      (fun o => decide (o.nValue = T)) with
  | some output =>
      have hmem := List.mem_of_find?_eq_some hfind
      have hvalue : output.nValue = T := by simpa using List.find?_some hfind
      exact iff_of_true (helig.right_of_chosen
          (chosen_single helig.distinct hmem (helig.int64_nValue hmem) hvalue.ge))
        (.inr (.inl (hvalue ▸ List.mem_map_of_mem hmem)))
  | none =>
      refine helig.selectLists_iff random hT hfits fun hmem => ?_
      obtain ⟨output, houtput, hvalue⟩ := List.mem_map.mp hmem
      exact absurd hvalue (by simpa using List.find?_eq_none.mp hfind output houtput)

/-- Amounts in the money range are payable. -/
theorem payable_of_moneyRange {values : List ℤ} (hT : MoneyRange T = true)
    (hvalues : ∀ n ∈ values, MoneyRange n = true) : Payable T values := by
  have hmax : MAX_MONEY_SATOSHIS = 1200000000000000 := by decide
  simp only [moneyRange_iff] at hT hvalues
  refine .inr (.inr ⟨?_, .inl (by unfold CENT; omega)⟩)
  rintro rfl
  have := hvalues _ List.mem_cons_self
  omega

end Choice

/-- Whatever the random choices are, `SelectCoinsMinConf` finds coins exactly if the eligible
outputs are worth the target, and distinct ones that pay it, exactly where the target and the
values are payable, which amounts in the money range are.  `ApproximateBestSubset` keeps a
subset that reaches its target and is worth no more than all coins. -/
theorem coinSelection_right (random : SelectRandom) {vCoins : List COutput}
    (hcoins : Candidates vCoins) {nTargetValue : ℤ} (hpos : 0 < nTargetValue)
    (hfits : nTargetValue < 2 ^ 63) (nConfMine nConfTheirs : ℤ) :
    (SelectsRight (eligible nConfMine nConfTheirs vCoins) nTargetValue
        (SelectCoinsMinConf random nTargetValue nConfMine nConfTheirs vCoins) ↔
      Payable nTargetValue ((eligible nConfMine nConfTheirs vCoins).map COutput.nValue)) ∧
    (MoneyRange nTargetValue = true → (∀ output ∈ vCoins, MoneyRange output.nValue = true) →
      Payable nTargetValue ((eligible nConfMine nConfTheirs vCoins).map COutput.nValue)) ∧
    ∀ (vValue : List ℤ) (nTarget : ℤ), (∀ n ∈ vValue, 0 < n) → vValue.sum < 2 ^ 63 →
      nTarget ≤ vValue.sum → ∀ (insecure_rand : ℕ → ℕ → Bool) (iterations : ℕ),
        BestRight vValue nTarget
          (ApproximateBestSubset vValue vValue.sum nTarget insecure_rand iterations).1
          (ApproximateBestSubset vValue vValue.sum nTarget insecure_rand iterations).2 := by
  refine ⟨hcoins.selectCoinsMinConf_iff random hpos hfits nConfMine nConfTheirs,
    fun hT hvalues => payable_of_moneyRange hT fun n hn => ?_,
    fun vValue nTarget hvalues hsum henough bits iterations =>
      approximateBestSubset_right hvalues hsum henough bits iterations⟩
  obtain ⟨output, hmem, rfl⟩ := List.mem_map.mp hn
  exact hvalues output (List.mem_of_mem_filter hmem)

/-- A confirmed output of a value. -/
def outputWorth (nValue : ℤ) : COutput :=
  { tx :=
      { tx :=
          { nVersion := 1, vin := [], nLockTime := 0
            vout := [{ nValue, scriptPubKey := [] }] }
        hash := 0, IsTrusted := true, GetBlocksToMaturity := 0, GetDepthInMainChain := 6
        IsFromMe := false }
    i := 0, nDepth := 6 }

/-- A shuffle that leaves the order, and bits that are all zero. -/
def unshuffled : SelectRandom :=
  { random_shuffle := id, perm := List.Perm.refl, insecure_rand := fun _ _ _ => false }

theorem candidates_outputWorth {nValue : ℤ} (hpos : 0 < nValue) (hfits : nValue < 2 ^ 63) :
    Candidates [outputWorth nValue] := by
  refine ⟨List.nodup_singleton _, fun output hmem => ?_, by simpa [outputWorth, COutput.nValue]⟩
  rw [List.mem_singleton.mp hmem]
  exact hpos

/-- A coin of five is right for a target of three. -/
theorem coinSelection_right_five :
    SelectsRight (eligible 1 6 [outputWorth 5]) 3
      (SelectCoinsMinConf unshuffled 3 1 6 [outputWorth 5]) := by
  have hcoins : Candidates [outputWorth 5] := candidates_outputWorth (by decide) (by decide)
  have h := coinSelection_right unshuffled hcoins (by decide : (0 : ℤ) < 3) (by decide) 1 6
  exact h.1.mpr (h.2.1 (by decide) (by decide))

/-- A coin of the largest 64-bit value is not found for a target of one. -/
theorem largestCoin_not_found :
    Candidates [outputWorth (2 ^ 63 - 1)] ∧
      1 ≤ ((eligible 1 6 [outputWorth (2 ^ 63 - 1)]).map COutput.nValue).sum ∧
      SelectCoinsMinConf unshuffled 1 1 6 [outputWorth (2 ^ 63 - 1)] = none := by
  refine ⟨candidates_outputWorth (by decide) (by decide), by decide, by decide⟩

end Ziftrcoin.Spec
