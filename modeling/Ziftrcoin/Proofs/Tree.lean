/-
Module: Ziftrcoin.Proofs.Tree
Purpose: The block index as a tree, chains as its branches, and what `SetTip`
  makes of a chain.
Trusted boundary: none
Main exports: WellLinked, Path.tip_eq
-/
import Ziftrcoin.Lib.Branches
import Ziftrcoin.Proofs.NodeFrame

namespace Ziftrcoin.Spec

open Ziftrcoin.Lib

/-! ### The index -/

/-- The first entry is the only root, and an entry comes after its predecessor
and is one higher. -/
structure WellLinked (tree : BlockTree) : Prop where
  root : ∀ {p : Ptr} {pindex : CBlockIndex}, tree[p]? = some pindex →
    pindex.pprev = none → p = 0 ∧ pindex.nHeight = 0
  child : ∀ {p q : Ptr} {pindex : CBlockIndex}, tree[p]? = some pindex →
    pindex.pprev = some q →
    q < p ∧ ∃ prev, tree[q]? = some prev ∧ pindex.nHeight = prev.nHeight + 1

theorem pprev_of_getElem? {tree : BlockTree} {p : Ptr} {pindex : CBlockIndex}
    (h : tree[p]? = some pindex) : tree.pprev p = pindex.pprev := by
  unfold BlockTree.pprev
  rw [h, Option.bind_some]

theorem pprev_eq_some {tree : BlockTree} {p q : Ptr} (h : tree.pprev p = some q) :
    ∃ pindex, tree[p]? = some pindex ∧ pindex.pprev = some q :=
  Option.bind_eq_some_iff.mp h

namespace WellLinked

variable {tree : BlockTree}

theorem pprev_lt (h : WellLinked tree) {p q : Ptr} (hq : tree.pprev p = some q) :
    q < p := by
  obtain ⟨pindex, hp, hprev⟩ := pprev_eq_some hq
  exact (h.child hp hprev).1

/-- An entry's height is its place in its branch. -/
theorem height_eq (h : WellLinked tree) {xs : List Ptr}
    (hxs : Branch tree.pprev xs) :
    ∀ {i : Nat} {p : Ptr} {pindex : CBlockIndex}, xs[i]? = some p →
      tree[p]? = some pindex → pindex.nHeight = i
  | 0, p, pindex, hi, hp => by
      have hroot := hxs.parent_zero hi
      rw [pprev_of_getElem? hp] at hroot
      exact (h.root hp hroot).2
  | i + 1, p, pindex, hi, hp => by
      have hlt := (List.getElem?_eq_some_iff.mp hi).1
      have hparent := hxs.parent_succ hi
      rw [pprev_of_getElem? hp, List.getElem?_eq_getElem (by omega)] at hparent
      obtain ⟨_, prev, hprev, hheight⟩ := h.child hp hparent
      rw [hheight, h.height_eq hxs (List.getElem?_eq_getElem (by omega)) hprev]

/-- Every entry ends a branch of entries of the index. -/
theorem exists_branch (h : WellLinked tree) {p : Ptr} (hp : p < tree.length) :
    ∃ xs, Branch tree.pprev xs ∧ xs.getLast? = some p ∧ ∀ q ∈ xs, q < tree.length := by
  obtain ⟨xs, hxs, hlast, hle⟩ := Lib.exists_branch (fun _ _ => h.pprev_lt) p
  exact ⟨xs, hxs, hlast, fun q hq => (hle q hq).trans_lt hp⟩

theorem append (h : WellLinked tree) {pindex : CBlockIndex}
    (hnew : match pindex.pprev with
      | none => tree = [] ∧ pindex.nHeight = 0
      | some q => ∃ prev, tree[q]? = some prev ∧ pindex.nHeight = prev.nHeight + 1) :
    WellLinked (tree ++ [pindex]) := by
  have hsplit : ∀ {p : Ptr} {e : CBlockIndex}, (tree ++ [pindex])[p]? = some e →
      tree[p]? = some e ∨ p = tree.length ∧ e = pindex := by
    intro p e he
    rcases Nat.lt_or_ge p tree.length with hlt | hge
    · rw [List.getElem?_append_left hlt] at he
      exact .inl he
    · rw [List.getElem?_append_right hge, List.getElem?_singleton,
        Option.ite_none_right_eq_some, Option.some.injEq] at he
      exact .inr ⟨Nat.le_antisymm (Nat.sub_eq_zero_iff_le.mp he.1) hge, he.2.symm⟩
  constructor
  · intro p e he hroot
    rcases hsplit he with he | ⟨rfl, rfl⟩
    · exact h.root he hroot
    · rw [hroot] at hnew
      exact ⟨by rw [hnew.1]; rfl, hnew.2⟩
  · intro p q e he hq
    have hold : ∀ {r : Ptr} {e' : CBlockIndex}, tree[r]? = some e' →
        r < tree.length ∧ (tree ++ [pindex])[r]? = some e' := by
      intro r e' hr
      have hlt := (List.getElem?_eq_some_iff.mp hr).1
      exact ⟨hlt, by rw [List.getElem?_append_left hlt, hr]⟩
    rcases hsplit he with he | ⟨rfl, rfl⟩
    · obtain ⟨hlt, prev, hprev, hheight⟩ := h.child he hq
      exact ⟨hlt, prev, (hold hprev).2, hheight⟩
    · rw [hq] at hnew
      obtain ⟨prev, hprev, hheight⟩ := hnew
      exact ⟨(hold hprev).1, prev, (hold hprev).2, hheight⟩

end WellLinked

/-! ### Flags do not matter -/

theorem getElem?_of_fixed {tree tree' : BlockTree}
    (h : tree'.map CBlockIndex.fixed = tree.map CBlockIndex.fixed) {p : Ptr}
    {pindex : CBlockIndex} (hp : tree'[p]? = some pindex) :
    ∃ pindex', tree[p]? = some pindex' ∧ pindex'.fixed = pindex.fixed := by
  have hmap := congrArg (fun t => t[p]?) h
  simp only [List.getElem?_map, hp, Option.map_some] at hmap
  exact Option.map_eq_some_iff.mp hmap.symm

theorem fixed_eq_iff {a b : CBlockIndex} :
    a.fixed = b.fixed ↔ { a with nStatus := b.nStatus } = b := by
  constructor
  · intro h
    have hb : { b.fixed with nStatus := b.nStatus } = b := rfl
    rw [← hb, ← h]
    rfl
  · intro h
    rw [← h]
    rfl

theorem pprev_fixed {a b : CBlockIndex} (h : a.fixed = b.fixed) :
    a.pprev = b.pprev := by
  rw [← fixed_eq_iff.mp h]

theorem nHeight_fixed {a b : CBlockIndex} (h : a.fixed = b.fixed) :
    a.nHeight = b.nHeight := by
  rw [← fixed_eq_iff.mp h]

theorem pprev_eq_of_fixed {tree tree' : BlockTree}
    (h : tree'.map CBlockIndex.fixed = tree.map CBlockIndex.fixed) :
    tree'.pprev = tree.pprev := by
  funext p
  cases hp : tree'[p]? with
  | none =>
      have hlen : tree'.length = tree.length := by
        simpa using congrArg List.length h
      have hp' : tree[p]? = none := by
        rw [List.getElem?_eq_none_iff] at hp ⊢
        omega
      simp [BlockTree.pprev, hp, hp']
  | some pindex =>
      obtain ⟨pindex', hp', hfixed⟩ := getElem?_of_fixed h hp
      rw [pprev_of_getElem? hp, pprev_of_getElem? hp', pprev_fixed hfixed]

theorem WellLinked.of_fixed {tree tree' : BlockTree}
    (h : tree'.map CBlockIndex.fixed = tree.map CBlockIndex.fixed)
    (hlinked : WellLinked tree) : WellLinked tree' := by
  constructor
  · intro p pindex hp hroot
    obtain ⟨pindex', hp', hfixed⟩ := getElem?_of_fixed h hp
    rw [← pprev_fixed hfixed] at hroot
    rw [← nHeight_fixed hfixed]
    exact hlinked.root hp' hroot
  · intro p q pindex hp hq
    obtain ⟨pindex', hp', hfixed⟩ := getElem?_of_fixed h hp
    rw [← pprev_fixed hfixed] at hq
    obtain ⟨hlt, prev, hprev, hheight⟩ := hlinked.child hp' hq
    obtain ⟨prev', hprev', hfixed'⟩ := getElem?_of_fixed h.symm hprev
    refine ⟨hlt, prev', hprev', ?_⟩
    rw [← nHeight_fixed hfixed, nHeight_fixed hfixed', hheight]

/-! ### Chains -/

/-- The chain consists of the entries of a branch. -/
structure Path (tree : BlockTree) (chain : CChain) (xs : List Ptr) : Prop where
  vChain_eq : chain.vChain = xs.map some
  branch : Branch tree.pprev xs
  known : ∀ p ∈ xs, p < tree.length

namespace Path

variable {tree : BlockTree} {chain : CChain} {xs : List Ptr}

theorem tip_eq (h : Path tree chain xs) : chain.Tip = xs.getLast? := by
  unfold CChain.Tip
  rw [h.vChain_eq, List.getLast?_map]
  cases xs.getLast? <;> rfl

theorem atHeight_eq (h : Path tree chain xs) (nHeight : Nat) :
    chain.atHeight nHeight = xs[nHeight]? := by
  unfold CChain.atHeight
  rw [h.vChain_eq, List.getElem?_map]
  cases xs[nHeight]? <;> rfl

theorem length_eq (h : Path tree chain xs) : chain.vChain.length = xs.length := by
  rw [h.vChain_eq, List.length_map]

theorem contains_iff (hlinked : WellLinked tree) (h : Path tree chain xs) {p : Ptr} :
    chain.Contains tree p = true ↔ p ∈ xs := by
  unfold CChain.Contains
  constructor
  · intro hp
    cases hentry : tree[p]? with
    | none => simp [hentry] at hp
    | some pindex =>
        simp only [hentry, h.atHeight_eq, beq_iff_eq] at hp
        exact List.mem_of_getElem? hp
  · intro hp
    obtain ⟨i, hi⟩ := List.mem_iff_getElem?.mp hp
    rw [List.getElem?_eq_getElem (h.known p hp)]
    simp only [h.atHeight_eq, beq_iff_eq]
    rw [hlinked.height_eq h.branch hi (List.getElem?_eq_getElem (h.known p hp))]
    exact hi

theorem of_fixed {tree' : BlockTree}
    (hfixed : tree'.map CBlockIndex.fixed = tree.map CBlockIndex.fixed)
    (h : Path tree chain xs) : Path tree' chain xs := by
  refine ⟨h.vChain_eq, ?_, ?_⟩
  · rw [pprev_eq_of_fixed hfixed]
    exact h.branch
  · have hlen : tree'.length = tree.length := by
      simpa using congrArg List.length hfixed
    rw [hlen]
    exact h.known

theorem append (h : Path tree chain xs) (pindex : CBlockIndex) :
    Path (tree ++ [pindex]) chain xs := by
  refine ⟨h.vChain_eq, ?_, fun p hp => ?_⟩
  · intro i p hi
    have hlt := h.known p (List.mem_of_getElem? hi)
    rw [← h.branch i p hi]
    unfold BlockTree.pprev
    rw [List.getElem?_append_left hlt]
  · rw [List.length_append]
    exact Nat.lt_add_right 1 (h.known p hp)

end Path

theorem path_empty (tree : BlockTree) : Path tree .empty [] :=
  ⟨rfl, Branch.nil, by simp⟩

/-! ### Setting the tip -/

/-- Where a vector has a node of a branch, it has the branch up to there. -/
def AgreesWith (vChain : List (Option Ptr)) (xs : List Ptr) : Prop :=
  ∀ i p, xs[i]? = some p → vChain[i]? = some (some p) →
    vChain.take (i + 1) = (xs.take (i + 1)).map some

namespace AgreesWith

variable {vChain : List (Option Ptr)} {ys : List Ptr} {q : Ptr}

theorem take_eq (h : AgreesWith vChain (ys ++ [q]))
    (hstop : vChain[ys.length]? = some (some q)) :
    vChain.take (ys.length + 1) = (ys ++ [q]).map some := by
  have htake := h ys.length q (by simp) hstop
  have hall : (ys ++ [q]).take (ys.length + 1) = ys ++ [q] :=
    List.take_of_length_le (by rw [List.length_append, List.length_singleton])
  rwa [hall] at htake

theorem set (h : AgreesWith vChain (ys ++ [q])) (slot : Option Ptr) :
    AgreesWith (vChain.set ys.length slot) ys := by
  intro i p hi hset
  have hlt := (List.getElem?_eq_some_iff.mp hi).1
  rw [List.getElem?_set_ne (by omega)] at hset
  have hi' : (ys ++ [q])[i]? = some p := by
    rw [List.getElem?_append_left hlt, hi]
  rw [List.take_set_of_le (by omega), h i p hi' hset,
    List.take_append_of_le_length (by omega)]

end AgreesWith

/-- The total without the entry in slot `i`, at the height of the slot. -/
def totalWithout (cfg : Config) (tree : BlockTree) (vChain : List (Option Ptr)) (i : Nat)
    (nTotal : Int) : Int :=
  match vChain[i]? with
  | some (some q) =>
      int64 (nTotal - cfg.GetBlockValue i 0
        ((tree[q]?.map CBlockIndex.IsPoKBlock).getD false))
  | _ => nTotal

/-- A round of the loop, for the last node of a branch. -/
theorem fillDown_concat (cfg : Config) {tree : BlockTree} (hlinked : WellLinked tree)
    {ys : List Ptr} {q : Ptr} (hxs : Branch tree.pprev (ys ++ [q])) (hq : q < tree.length)
    (fuel : Nat) (vChain : List (Option Ptr)) (nTotal : Int) :
    CChain.fillDown cfg tree (fuel + 1) (some q) vChain nTotal =
      if vChain[ys.length]? = some (some q) then (vChain, nTotal)
      else
        CChain.fillDown cfg tree fuel ys.getLast? (vChain.set ys.length (some q))
          (int64 (totalWithout cfg tree vChain ys.length nTotal +
            CChain.coinsCreated cfg tree q)) := by
  have hentry : tree[q]? = some tree[q] := List.getElem?_eq_getElem hq
  have hheight := hlinked.height_eq hxs (i := ys.length) (by simp) hentry
  obtain ⟨ys', hys', -, hparent⟩ := hxs.eq_concat (p := q) (by simp)
  obtain rfl : ys = ys' := List.append_inj_left' hys' rfl
  rw [pprev_of_getElem? hentry] at hparent
  rw [CChain.fillDown, hentry]
  dsimp only
  rw [hheight, hparent]
  rfl

/-- The loop that fills the vector downwards replaces what is below a node by
the branch of the node: it stops where the vector already has a node of that
branch, and then has everything below it. -/
theorem fillDown_spec (cfg : Config) {tree : BlockTree} (hlinked : WellLinked tree)
    {xs : List Ptr} (hxs : Branch tree.pprev xs) (hknown : ∀ p ∈ xs, p < tree.length) :
    ∀ {fuel : Nat} {vChain : List (Option Ptr)} {nTotal : Int},
      xs.length ≤ fuel → xs.length ≤ vChain.length → AgreesWith vChain xs →
      (CChain.fillDown cfg tree fuel xs.getLast? vChain nTotal).1 =
        xs.map some ++ vChain.drop xs.length := by
  induction xs using List.reverseRecOn with
  | nil =>
      intro fuel vChain nTotal _ _ _
      cases fuel with
      | zero => rfl
      | succ fuel => rfl
  | append_singleton ys q ih =>
      intro fuel vChain nTotal hfuel hlen hold
      rw [List.length_append, List.length_singleton] at hfuel hlen
      obtain ⟨fuel, rfl⟩ : ∃ k, fuel = k + 1 := ⟨fuel - 1, by omega⟩
      rw [List.getLast?_concat, fillDown_concat cfg hlinked hxs (hknown q (by simp))]
      by_cases hstop : vChain[ys.length]? = some (some q)
      · rw [if_pos hstop, List.length_append, List.length_singleton, ← hold.take_eq hstop,
          List.take_append_drop]
      · rw [if_neg hstop, ih (hxs.of_prefix (List.prefix_append ys [q]))
            (fun p hp => hknown p (by simp [hp])) (by omega)
            (by rw [List.length_set]; omega) (hold.set (some q)),
          List.map_append, List.length_append, List.length_singleton,
          List.append_assoc, List.drop_set, if_neg (Nat.lt_irrefl _), Nat.sub_self,
          List.drop_eq_getElem_cons (by omega), List.set_cons_zero]
        rfl

theorem vChain_updateLimits (tree : BlockTree) (nTipHeight : Nat) :
    ∀ (fuel nStart : Nat) (chain : CChain),
      (CChain.updateLimits tree nTipHeight fuel nStart chain).vChain = chain.vChain
  | 0, _, _ => rfl
  | fuel + 1, nStart, chain => by
      unfold CChain.updateLimits
      cases tree.deref (chain.atHeight nStart) with
      | none => rfl
      | some pStart =>
          dsimp only
          split
          · split <;> rfl
          · rw [vChain_updateLimits tree nTipHeight fuel]
            split <;> rfl

theorem vChain_setTip (cfg : Config) {tree : BlockTree} {fActive : Bool}
    {chain : CChain} {p : Ptr} {tip : CBlockIndex} (h : tree[p]? = some tip) :
    (chain.SetTip cfg tree fActive (some p)).vChain =
      (CChain.fillDown cfg tree (tip.nHeight + 1) (some p)
        (CChain.resize chain.vChain (tip.nHeight + 1)) chain.nTotalCoinsCreated).1 := by
  have hderef : tree.deref (some p) = some tip := h
  unfold CChain.SetTip
  rw [hderef]
  cases fActive with
  | false => rfl
  | true => exact vChain_updateLimits tree _ _ _ _

/-- Where the resized vector has a node of another branch, it has that branch up to
there. -/
theorem Path.resize_agrees {tree : BlockTree} {chain : CChain} {xs ys : List Ptr}
    (h : Path tree chain xs) (hys : Branch tree.pprev ys) {n : Nat} (hn : n = ys.length) :
    AgreesWith (CChain.resize chain.vChain n) ys := by
  intro i q hq hold
  have hi := (List.getElem?_eq_some_iff.mp hq).1
  -- Whatever is not null in the resized vector comes from the old chain.
  have hxs : xs[i]? = some q ∧ i < chain.vChain.length := by
    unfold CChain.resize at hold
    rw [h.vChain_eq] at hold ⊢
    rcases Nat.lt_or_ge i xs.length with hlt | hge
    · rw [List.getElem?_append_left (by simp; omega), List.getElem?_take,
        if_pos (by omega), List.getElem?_map] at hold
      refine ⟨?_, by simpa using hlt⟩
      simpa using hold
    · rw [List.getElem?_append_right (by simp; omega), List.getElem?_replicate] at hold
      split at hold <;> simp at hold
  unfold CChain.resize
  rw [List.take_append_of_le_length (by rw [List.length_take]; omega),
    List.take_take, Nat.min_eq_left (by omega), h.vChain_eq, ← List.map_take,
    h.branch.take_eq hys hxs.1 hq]

/-- A chain that follows a branch follows another one after `SetTip`. -/
theorem Path.setTip (cfg : Config) {tree : BlockTree} (hlinked : WellLinked tree)
    {chain : CChain} {xs ys : List Ptr} (h : Path tree chain xs)
    (hys : Branch tree.pprev ys) (hknown : ∀ p ∈ ys, p < tree.length)
    (fActive : Bool) : Path tree (chain.SetTip cfg tree fActive ys.getLast?) ys := by
  refine ⟨?_, hys, hknown⟩
  cases hlast : ys.getLast? with
  | none =>
      rw [List.getLast?_eq_none_iff] at hlast
      rw [hlast]
      rfl
  | some p =>
      have hlt := hknown p (List.mem_of_getLast? hlast)
      have hentry : tree[p]? = some tree[p] := List.getElem?_eq_getElem hlt
      have hp : ys[ys.length - 1]? = some p := by
        rw [← List.getLast?_eq_getElem?, hlast]
      have hpos := (List.getElem?_eq_some_iff.mp hp).1
      have hheight := hlinked.height_eq hys hp hentry
      have hsize : (CChain.resize chain.vChain (tree[p].nHeight + 1)).length =
          ys.length := by
        unfold CChain.resize
        rw [List.length_append, List.length_take, List.length_replicate]
        omega
      rw [vChain_setTip cfg hentry, ← hlast, fillDown_spec cfg hlinked hys hknown
        (by omega) hsize.ge, List.drop_of_length_le hsize.le, List.append_nil]
      exact h.resize_agrees hys (by omega)

end Ziftrcoin.Spec
