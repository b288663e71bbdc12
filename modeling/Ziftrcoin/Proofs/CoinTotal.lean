/-
Module: Ziftrcoin.Proofs.CoinTotal
Purpose: The total of coins that a chain keeps: what a call of SetTip adds to
  it, and after which calls it is the sum over the entries of the chain.
Trusted boundary: the two definitions of the first section are human-reviewed
  models of GetTotalCoinsCreated in src/main.h and of calls of SetTip
Main exports: setTips, total_counts_iff
-/
import Ziftrcoin.Proofs.BestSubset
import Ziftrcoin.Proofs.Locator
import Ziftrcoin.Proofs.SmallNetwork

namespace Ziftrcoin.Spec

open Lib

namespace CChain

def GetTotalCoinsCreated (chain : CChain) : Int := chain.nTotalCoinsCreated

/-- Calls of `SetTip` one after the other. -/
def setTips (cfg : Config) (tree : BlockTree) (fActive : Bool) (chain : CChain)
    (tips : List (Option Ptr)) : CChain :=
  tips.foldl (SetTip cfg tree fActive) chain

/-! ### Sums over slots -/

/-- `GetBlockValue` of the entry in a slot, none for a null pointer. -/
def slotCoins (cfg : Config) (tree : BlockTree) (slot : Option Ptr) : Int :=
  (slot.map (coinsCreated cfg tree)).getD 0

/-- The sum over all slots. -/
def chainCoins (cfg : Config) (tree : BlockTree) (vChain : List (Option Ptr)) : Int :=
  (vChain.map (slotCoins cfg tree)).sum

/-- What the entries are worth that lie above a new tip, and that the resize of the
vector drops.  The null pointer empties the chain and its total. -/
def coinsCutOff (cfg : Config) (tree : BlockTree) (chain : CChain) (pindex : Option Ptr) :
    Int :=
  match tree.deref pindex with
  | none => 0
  | some tip => chainCoins cfg tree (chain.vChain.drop (tip.nHeight + 1))

variable (cfg : Config) (tree : BlockTree)

@[simp] theorem chainCoins_nil : chainCoins cfg tree [] = 0 := rfl

@[simp] theorem chainCoins_append (xs ys : List (Option Ptr)) :
    chainCoins cfg tree (xs ++ ys) = chainCoins cfg tree xs + chainCoins cfg tree ys := by
  unfold chainCoins
  rw [List.map_append, List.sum_append]

@[simp] theorem chainCoins_singleton (slot : Option Ptr) :
    chainCoins cfg tree [slot] = slotCoins cfg tree slot := by
  simp [chainCoins]

@[simp] theorem chainCoins_replicate_none (n : Nat) :
    chainCoins cfg tree (List.replicate n none) = 0 := by
  simp [chainCoins, slotCoins]

/-- Growing a vector adds null pointers only. -/
theorem chainCoins_resize (vChain : List (Option Ptr)) (n : Nat) :
    chainCoins cfg tree (resize vChain n) = chainCoins cfg tree (vChain.take n) := by
  unfold resize
  rw [chainCoins_append, chainCoins_replicate_none, add_zero]

end CChain

open CChain

/-! ### One call -/

/-- Every entry lies in the slot of its height. -/
def InPlace (tree : BlockTree) (vChain : List (Option Ptr)) : Prop :=
  ∀ i p, vChain[i]? = some (some p) →
    ∃ pindex : CBlockIndex, tree[p]? = some pindex ∧ pindex.nHeight = i

theorem InPlace.set {tree : BlockTree} {vChain : List (Option Ptr)} {p : Ptr}
    {pindex : CBlockIndex} (h : InPlace tree vChain) (hp : tree[p]? = some pindex) :
    InPlace tree (vChain.set pindex.nHeight (some p)) := by
  intro i q hq
  rw [List.getElem?_set] at hq
  split at hq
  · next heq =>
    split at hq
    · obtain rfl : p = q := by simpa using hq
      exact ⟨pindex, hp, heq⟩
    · cases hq
  · exact h i q hq

theorem Path.inPlace {tree : BlockTree} (hlinked : WellLinked tree) {chain : CChain}
    {xs : List Ptr} (h : Path tree chain xs) : InPlace tree chain.vChain := by
  intro i p hp
  rw [h.vChain_eq, List.getElem?_map, Option.map_eq_some_iff] at hp
  obtain ⟨q, hq, heq⟩ := hp
  obtain rfl : q = p := Option.some.inj heq
  have hlt := h.known q (List.mem_of_getElem? hq)
  exact ⟨tree[q], List.getElem?_eq_getElem hlt,
    hlinked.height_eq h.branch hq (List.getElem?_eq_getElem hlt)⟩

theorem InPlace.resize {tree : BlockTree} {vChain : List (Option Ptr)}
    (h : InPlace tree vChain) (n : Nat) : InPlace tree (CChain.resize vChain n) := by
  intro i p hp
  unfold CChain.resize at hp
  rw [List.getElem?_append] at hp
  split at hp
  · next hlt =>
    rw [List.length_take] at hlt
    rw [List.getElem?_take, if_pos (by omega)] at hp
    exact h i p hp
  · rw [List.getElem?_replicate] at hp
    split at hp <;> simp at hp

/-- The value of the entry that is replaced leaves the total, at its own height. -/
theorem gives_up_slot (cfg : Config) {tree : BlockTree} {vChain : List (Option Ptr)}
    (h : InPlace tree vChain) {i : Nat} {slot : Option Ptr} (hslot : vChain[i]? = some slot)
    {nTotal x : Int} (hx : nTotal = int64 x) :
    totalWithout cfg tree vChain i nTotal = int64 (x - slotCoins cfg tree slot) := by
  unfold totalWithout
  rw [hslot]
  cases slot with
  | none =>
      have hnone : slotCoins cfg tree none = 0 := rfl
      rw [hnone, sub_zero]
      exact hx
  | some q =>
      obtain ⟨pindex, hq, rfl⟩ := h i q hslot
      have hsome : slotCoins cfg tree (some q) =
          cfg.GetBlockValue pindex.nHeight 0 pindex.IsPoKBlock := by
        simp only [slotCoins, coinsCreated, hq, Option.map_some, Option.getD_some]
      rw [hsome, hx, ← int64_sub_left x]
      simp only [hq, Option.map_some, Option.getD_some]

/-- The loop that fills the vector gives up what it overwrites and takes in the branch
of the node. -/
theorem fillDown_total (cfg : Config) {tree : BlockTree} (hlinked : WellLinked tree)
    {xs : List Ptr} (hxs : Branch tree.pprev xs) (hknown : ∀ p ∈ xs, p < tree.length) :
    ∀ {fuel : Nat} {vChain : List (Option Ptr)} {nTotal x : Int},
      xs.length ≤ fuel → xs.length ≤ vChain.length → InPlace tree vChain →
      AgreesWith vChain xs → nTotal = int64 x →
      (CChain.fillDown cfg tree fuel xs.getLast? vChain nTotal).2 =
        int64 (x + (chainCoins cfg tree (xs.map some) -
          chainCoins cfg tree (vChain.take xs.length))) := by
  induction xs using List.reverseRecOn with
  | nil =>
      intro fuel vChain nTotal x _ _ _ _ hx
      rw [List.length_nil, List.take_zero, List.map_nil, sub_self, add_zero]
      cases fuel with
      | zero => exact hx
      | succ fuel => exact hx
  | append_singleton ys q ih =>
      intro fuel vChain nTotal x hfuel hlen hplace hold hx
      rw [List.length_append, List.length_singleton] at hfuel hlen
      obtain ⟨fuel, rfl⟩ : ∃ k, fuel = k + 1 := ⟨fuel - 1, by omega⟩
      have hqlt := hknown q (by simp)
      have hentry : tree[q]? = some tree[q] := List.getElem?_eq_getElem hqlt
      have hheight := hlinked.height_eq hxs (i := ys.length) (by simp) hentry
      rw [List.getLast?_concat, fillDown_concat cfg hlinked hxs hqlt]
      by_cases hstop : vChain[ys.length]? = some (some q)
      · rw [if_pos hstop, List.length_append, List.length_singleton, hold.take_eq hstop,
          sub_self, add_zero]
        exact hx
      · -- The slot gives up its entry, if it has one.
        have hslot : vChain.take (ys.length + 1) =
            vChain.take ys.length ++ [vChain[ys.length]] :=
          (List.take_append_getElem (by omega)).symm
        rw [if_neg hstop, ih (hxs.of_prefix (List.prefix_append ys [q]))
          (fun p hp => hknown p (by simp [hp]))
          (x := x - slotCoins cfg tree vChain[ys.length] + slotCoins cfg tree (some q))
          (by omega) (by rw [List.length_set]; omega)]
        · rw [List.take_set_of_le (le_refl _), List.map_append, List.length_append,
            List.length_singleton, hslot, chainCoins_append, chainCoins_append,
            List.map_singleton, chainCoins_singleton, chainCoins_singleton]
          congr 1
          omega
        · have := hplace.set hentry
          rwa [hheight] at this
        · exact hold.set (some q)
        · have hgone := gives_up_slot cfg hplace
            (List.getElem?_eq_getElem (show ys.length < vChain.length by omega)) hx
          exact (congrArg (fun n => int64 (n + coinsCreated cfg tree q)) hgone).trans
            (int64_add_left _ _)

theorem nTotalCoinsCreated_updateLimits (tree : BlockTree) (nTipHeight fuel nStart : Nat)
    (chain : CChain) :
    (CChain.updateLimits tree nTipHeight fuel nStart chain).nTotalCoinsCreated =
      chain.nTotalCoinsCreated := by
  induction fuel generalizing nStart chain with
  | zero => rfl
  | succ fuel ih =>
      unfold CChain.updateLimits
      cases tree.deref (chain.atHeight nStart) with
      | none => rfl
      | some pStart =>
          dsimp only
          split
          · split <;> rfl
          · rw [ih]
            split <;> rfl

theorem nTotalCoinsCreated_setTip (cfg : Config) {tree : BlockTree} {fActive : Bool}
    {chain : CChain} {p : Ptr} {tip : CBlockIndex} (h : tree[p]? = some tip) :
    (chain.SetTip cfg tree fActive (some p)).nTotalCoinsCreated =
      (CChain.fillDown cfg tree (tip.nHeight + 1) (some p)
        (CChain.resize chain.vChain (tip.nHeight + 1)) chain.nTotalCoinsCreated).2 := by
  have hderef : tree.deref (some p) = some tip := h
  unfold CChain.SetTip
  rw [hderef]
  cases fActive with
  | false => rfl
  | true => exact nTotalCoinsCreated_updateLimits tree _ _ _ _

/-- One call of `SetTip`: the total follows the chain, but for the entries that are cut
off, which stay in it. -/
theorem total_setTip (cfg : Config) {tree : BlockTree} (fActive : Bool)
    (hlinked : WellLinked tree) {chain : CChain} {xs : List Ptr} (h : Path tree chain xs)
    (hcount : chain.nTotalCoinsCreated = int64 (chainCoins cfg tree chain.vChain))
    {p : Ptr} (hp : p < tree.length) :
    (chain.SetTip cfg tree fActive (some p)).nTotalCoinsCreated =
      int64 (chainCoins cfg tree (chain.SetTip cfg tree fActive (some p)).vChain +
        coinsCutOff cfg tree chain (some p)) := by
  obtain ⟨ys, hys, hlast, hknown⟩ := hlinked.exists_branch hp
  have hpath := h.setTip cfg hlinked hys hknown fActive
  rw [hlast] at hpath
  have hentry : tree[p]? = some tree[p] := List.getElem?_eq_getElem hp
  have hplace : ys[ys.length - 1]? = some p := by rw [← List.getLast?_eq_getElem?, hlast]
  have hpos := (List.getElem?_eq_some_iff.mp hplace).1
  have hheight : tree[p].nHeight + 1 = ys.length := by
    have := hlinked.height_eq hys hplace hentry
    omega
  have hsize : (CChain.resize chain.vChain (tree[p].nHeight + 1)).length = ys.length := by
    unfold CChain.resize
    rw [List.length_append, List.length_take, List.length_replicate]
    omega
  rw [nTotalCoinsCreated_setTip cfg hentry, hpath.vChain_eq, ← hlast,
    fillDown_total cfg hlinked hys hknown hheight.ge hsize.ge ((h.inPlace hlinked).resize _)
      (h.resize_agrees hys hheight) hcount]
  have hcut : coinsCutOff cfg tree chain ys.getLast? =
      chainCoins cfg tree (chain.vChain.drop (tree[p].nHeight + 1)) := by
    have hderef : tree.deref (some p) = some tree[p] := hentry
    unfold coinsCutOff
    rw [hlast, hderef]
  have hsplit : chainCoins cfg tree chain.vChain =
      chainCoins cfg tree (chain.vChain.take (tree[p].nHeight + 1)) +
        chainCoins cfg tree (chain.vChain.drop (tree[p].nHeight + 1)) := by
    rw [← chainCoins_append, List.take_append_drop]
  rw [hcut, hsplit, List.take_of_length_le hsize.le, chainCoins_resize]
  congr 1
  omega

/-! ### Runs -/

/-- The total is the sum over the entries of the chain, in 64 bits. -/
def CoinsCounted (cfg : Config) (tree : BlockTree) (chain : CChain) : Prop :=
  chain.GetTotalCoinsCreated = int64 (chainCoins cfg tree chain.vChain)

theorem coinsCounted_empty (cfg : Config) (tree : BlockTree) :
    CoinsCounted cfg tree .empty := rfl

theorem int64_add_eq_iff (x y : Int) : int64 (x + y) = int64 x ↔ int64 y = 0 := by
  constructor
  · intro h
    calc int64 y = int64 (x + y - x) := by rw [add_sub_cancel_left]
      _ = int64 (x - x) := by rw [← int64_sub_left, h, int64_sub_left]
      _ = 0 := by rw [sub_self]; rfl
  · intro h
    rw [add_comm, ← int64_add_left, h, zero_add]

variable (cfg : Config) {tree : BlockTree} (fActive : Bool)

theorem Path.setTip_any (hlinked : WellLinked tree) {chain : CChain} {xs : List Ptr}
    (h : Path tree chain xs) {t : Option Ptr} (ht : ∀ p, t = some p → p < tree.length) :
    ∃ ys, Path tree (chain.SetTip cfg tree fActive t) ys := by
  cases t with
  | none => exact ⟨[], path_empty tree⟩
  | some p =>
      obtain ⟨ys, hys, hlast, hknown⟩ := hlinked.exists_branch (ht p rfl)
      have hpath := h.setTip cfg hlinked hys hknown fActive
      rw [hlast] at hpath
      exact ⟨ys, hpath⟩

/-- A call keeps the total right just when it cuts off nothing of value. -/
theorem coinsCounted_setTip_iff (hlinked : WellLinked tree) {chain : CChain} {xs : List Ptr}
    (h : Path tree chain xs) (hcount : CoinsCounted cfg tree chain) {t : Option Ptr}
    (ht : ∀ p, t = some p → p < tree.length) :
    CoinsCounted cfg tree (chain.SetTip cfg tree fActive t) ↔
      int64 (coinsCutOff cfg tree chain t) = 0 := by
  cases t with
  | none => exact iff_of_true rfl rfl
  | some p =>
      have htotal := total_setTip cfg fActive hlinked h hcount (ht p rfl)
      unfold CoinsCounted GetTotalCoinsCreated
      rw [htotal, int64_add_eq_iff]

theorem setTips_take_succ {tips : List (Option Ptr)} {n : Nat} {t : Option Ptr}
    (ht : tips[n]? = some t) (chain : CChain) :
    setTips cfg tree fActive chain (tips.take (n + 1)) =
      (setTips cfg tree fActive chain (tips.take n)).SetTip cfg tree fActive t := by
  unfold setTips
  rw [List.take_add_one, ht, Option.toList_some, List.foldl_append]
  rfl

theorem path_setTips (hlinked : WellLinked tree) {tips : List (Option Ptr)}
    (hknown : ∀ p, some p ∈ tips → p < tree.length) :
    ∀ n, ∃ xs, Path tree (setTips cfg tree fActive .empty (tips.take n)) xs
  | 0 => ⟨[], path_empty tree⟩
  | n + 1 => by
      obtain ⟨xs, hxs⟩ := path_setTips hlinked hknown n
      cases ht : tips[n]? with
      | none =>
          have hlen := List.getElem?_eq_none_iff.mp ht
          rw [List.take_of_length_le (by omega)]
          rw [List.take_of_length_le hlen] at hxs
          exact ⟨xs, hxs⟩
      | some t =>
          rw [setTips_take_succ cfg fActive ht]
          refine hxs.setTip_any cfg fActive hlinked fun p hp => hknown p ?_
          rw [← hp]
          exact List.mem_of_getElem? ht

/-- From the empty chain on, the total is right after each call just when no call cuts
off entries of value from the end of the chain. -/
theorem total_counts_iff (hlinked : WellLinked tree) (fActive : Bool)
    (tips : List (Option Ptr)) (hknown : ∀ p, some p ∈ tips → p < tree.length) :
    (∀ n ≤ tips.length,
      CoinsCounted cfg tree (setTips cfg tree fActive .empty (tips.take n))) ↔
    ∀ n t, tips[n]? = some t →
      int64 (coinsCutOff cfg tree (setTips cfg tree fActive .empty (tips.take n)) t) = 0 := by
  have hstep : ∀ n t, tips[n]? = some t →
      CoinsCounted cfg tree (setTips cfg tree fActive .empty (tips.take n)) →
      (CoinsCounted cfg tree (setTips cfg tree fActive .empty (tips.take (n + 1))) ↔
        int64 (coinsCutOff cfg tree (setTips cfg tree fActive .empty (tips.take n)) t) = 0) := by
    intro n t ht hcount
    obtain ⟨xs, hxs⟩ := path_setTips cfg fActive hlinked hknown n
    rw [setTips_take_succ cfg fActive ht]
    refine coinsCounted_setTip_iff cfg fActive hlinked hxs hcount fun p hp => hknown p ?_
    rw [← hp]
    exact List.mem_of_getElem? ht
  constructor
  · intro h n t ht
    have hn := (List.getElem?_eq_some_iff.mp ht).1
    exact (hstep n t ht (h n hn.le)).mp (h (n + 1) hn)
  · intro h n
    induction n with
    | zero => exact fun _ => coinsCounted_empty cfg tree
    | succ n ih =>
        intro hn
        have ht := List.getElem?_eq_getElem (show n < tips.length by omega)
        exact (hstep n _ ht (ih (by omega))).mpr (h n _ ht)

/-- A branch is exchanged for another one of the same length, and back. -/
theorem total_counts_switched_branches :
    CoinsCounted (smallNet (smallGenesis [])) forkedTree
      (setTips (smallNet (smallGenesis [])) forkedTree true .empty [some 1, some 2, some 1]) :=
  (total_counts_iff (smallNet (smallGenesis [])) forkedTree_wellLinked true
    [some 1, some 2, some 1] (by simp [forkedTree])).mpr (by
      have hcut : ∀ n (hn : n < 3), int64 (coinsCutOff (smallNet (smallGenesis [])) forkedTree
          (setTips (smallNet (smallGenesis [])) forkedTree true .empty
            ([some 1, some 2, some 1].take n)) ([some 1, some 2, some 1].get ⟨n, hn⟩)) = 0 := by
        decide
      intro n t ht
      obtain ⟨hn, rfl⟩ := List.getElem?_eq_some_iff.mp ht
      exact hcut n hn) 3 le_rfl

/-- A block is disconnected and connected again, and its reward counts twice. -/
theorem total_counts_block_twice :
    ∃ (cfg : Config) (tree : BlockTree) (tips : List (Option Ptr)),
      WellLinked tree ∧ (∀ p, some p ∈ tips → p < tree.length) ∧
      ∀ fActive, (setTips cfg tree fActive .empty tips).GetTotalCoinsCreated = 100 ∧
        chainCoins cfg tree (setTips cfg tree fActive .empty tips).vChain = 50 :=
  ⟨smallNet (smallGenesis []), forkedTree, [some 1, some 0, some 1], forkedTree_wellLinked,
    by simp [forkedTree], by decide⟩

end Ziftrcoin.Spec
