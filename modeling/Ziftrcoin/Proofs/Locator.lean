/-
Module: Ziftrcoin.Proofs.Locator
Purpose: A locator goes back along its block in steps that double, so the first
  of its blocks in another chain is near the fork.
Trusted boundary: none
-/
import Ziftrcoin.Lib.Doubling
import Ziftrcoin.Proofs.Tree

namespace Ziftrcoin.Spec

open Ziftrcoin.Lib

variable {tree : BlockTree} {chain : CChain} {xs ys : List Ptr} {p : Ptr}

/-- The hash of an entry. -/
def BlockTree.hashOf (tree : BlockTree) (p : Ptr) : uint256 :=
  (tree[p]?.map CBlockIndex.hash).getD 0

/-- An entry is reached from another along the predecessors. -/
def BlockTree.IsAncestor (tree : BlockTree) (q p : Ptr) : Prop :=
  Relation.ReflTransGen (fun a b => tree.pprev a = some b) p q

theorem int32_eq {x : ℤ} (hlow : -2 ^ 31 ≤ x) (hhigh : x < 2 ^ 31) : int32 x = x :=
  Int.bmod_eq_of_le (by omega) (by omega)

theorem isAncestor_of_branch (h : Branch tree.pprev xs) :
    ∀ {i j : ℕ} {q p : Ptr}, xs[i]? = some q → xs[i + j]? = some p → tree.IsAncestor q p
  | i, 0, q, p, hq, hp => by
      obtain rfl := Option.some.inj (hq.symm.trans hp)
      exact Relation.ReflTransGen.refl
  | i, j + 1, q, p, hq, hp => by
      have hlt := (List.getElem?_eq_some_iff.mp hp).1
      have hij : i + j < xs.length := by omega
      have hbelow : xs[i + j]? = some xs[i + j] := List.getElem?_eq_getElem hij
      have hprev : tree.pprev p = some xs[i + j] := (h.parent_succ hp).trans hbelow
      exact Relation.ReflTransGen.head hprev (isAncestor_of_branch h hq hbelow)

/-! ### Going back -/

/-- An entry with its place in a branch. -/
structure EntryAt (tree : BlockTree) (xs : List Ptr) (i : ℕ) (p : Ptr) (pindex : CBlockIndex) :
    Prop where
  place : xs[i]? = some p
  entry : tree[p]? = some pindex
  height : pindex.nHeight = i

theorem exists_at (hlinked : WellLinked tree) (hxs : Branch tree.pprev xs)
    (hknown : ∀ p ∈ xs, p < tree.length) {i : ℕ} (hi : i < xs.length) :
    ∃ p pindex, EntryAt tree xs i p pindex := by
  have hplace : xs[i]? = some xs[i] := List.getElem?_eq_getElem hi
  have hlt := hknown _ (List.getElem_mem hi)
  have hentry : tree[xs[i]]? = some tree[xs[i]] := List.getElem?_eq_getElem hlt
  exact ⟨_, _, hplace, hentry, hlinked.height_eq hxs hplace hentry⟩

/-- The inner loop stays on the branch and stops at the height, or at a block of the chain. -/
theorem walkBack_spec (hlinked : WellLinked tree) (hchain : Path tree chain ys)
    (hxs : Branch tree.pprev xs) (hknown : ∀ p ∈ xs, p < tree.length) {m : ℕ} :
    ∀ {fuel i : ℕ} {p : Ptr} {pindex : CBlockIndex}, EntryAt tree xs i p pindex → m ≤ i → i < fuel →
      ∃ j q qindex, chain.walkBack tree m fuel (some p) = some q ∧ EntryAt tree xs j q qindex ∧
        m ≤ j ∧ (j = m ∨ q ∈ ys)
  | 0, _, _, _, _, _, hfuel => absurd hfuel (Nat.not_lt_zero _)
  | fuel + 1, i, p, pindex, hat, hm, hfuel => by
      rw [CChain.walkBack, hat.entry]
      dsimp only
      by_cases hstop : m < i ∧ chain.Contains tree p = false
      · obtain ⟨k, rfl⟩ : ∃ k, i = k + 1 := Nat.exists_eq_succ_of_ne_zero (by omega)
        have hlt := (List.getElem?_eq_some_iff.mp hat.place).1
        obtain ⟨q, qindex, hq⟩ := exists_at hlinked hxs hknown (i := k) (by omega)
        have hprev : pindex.pprev = some q := by
          rw [← pprev_of_getElem? hat.entry, hxs.parent_succ hat.place, hq.place]
        rw [if_pos ⟨by rw [hat.height]; exact_mod_cast hstop.1, hstop.2⟩, hprev]
        exact walkBack_spec hlinked hchain hxs hknown hq (by omega) (by omega)
      · rw [if_neg (by rw [hat.height]; exact_mod_cast hstop)]
        refine ⟨i, p, pindex, rfl, hat, hm, ?_⟩
        rcases Nat.lt_or_ge m i with hlt | hge
        · have hin : chain.Contains tree p = true :=
            Bool.eq_true_of_not_eq_false fun hout => hstop ⟨hlt, hout⟩
          exact .inr ((hchain.contains_iff hlinked).mp hin)
        · exact .inl (Nat.le_antisymm hge hm)

/-- A step leads to the ancestor at the height, whether it goes through the chain or not. -/
theorem locatorStep_spec (hlinked : WellLinked tree) (hchain : Path tree chain ys)
    (hxs : Branch tree.pprev xs) (hknown : ∀ p ∈ xs, p < tree.length) {m i fuel : ℕ}
    {pindex : CBlockIndex} (hat : EntryAt tree xs i p pindex) (hm : m ≤ i) (hfuel : i < fuel) :
    chain.locatorStep tree m p fuel = some (xs[m]?) := by
  obtain ⟨j, q, qindex, hrun, hq, hmj, hwhy⟩ :=
    walkBack_spec hlinked hchain hxs hknown hat hm hfuel
  rw [CChain.locatorStep, hrun]
  dsimp only
  rw [hq.entry]
  dsimp only
  rw [hq.height]
  rcases hmj.eq_or_lt with rfl | hlt
  · rw [if_neg (by omega), hq.place]
  · rw [if_pos (by exact_mod_cast hlt), Int.toNat_natCast, hchain.atHeight_eq]
    have hmem : q ∈ ys := hwhy.resolve_left (by omega)
    obtain ⟨j', hj'⟩ := List.mem_iff_getElem?.mp hmem
    obtain rfl := hxs.index_unique hchain.branch hq.place hj'
    have htake := congrArg (fun zs => zs[m]?) (hxs.take_eq hchain.branch hq.place hj')
    rw [List.getElem?_take_of_lt (by omega), List.getElem?_take_of_lt (by omega)] at htake
    rw [htake]

/-- The hash of the block `doubling 10 k` below the height `h` of a branch. -/
def locatorHash (tree : BlockTree) (xs : List Ptr) (h k : ℕ) : uint256 :=
  tree.hashOf (xs.getD (h - doubling 10 k) 0)

theorem EntryAt.locatorHash_eq {tree : BlockTree} {xs : List Ptr} {h k : ℕ} {p : Ptr}
    {pindex : CBlockIndex} (hat : EntryAt tree xs (h - doubling 10 k) p pindex) :
    locatorHash tree xs h k = pindex.hash := by
  rw [locatorHash, List.getD_eq_getElem?_getD, hat.place, Option.getD_some, BlockTree.hashOf,
    hat.entry]
  rfl

/-- The step of the outer loop has the length of the next step of the walk. -/
theorem nextStep_eq {h k : ℕ} {nStep : ℤ} (hsmall : h < 2 ^ 31) (hstep : nStep = 2 ^ (k - 10))
    (hmore : doubling 10 (k + 1) < h) :
    (if 10 < k + 1 then int32 (nStep * 2) else nStep) = 2 ^ (k + 1 - 10) := by
  split
  · next hfar =>
      have hle := two_pow_lt_doubling (n := 10) (k := k + 1) (by decide) (by omega)
      have hlt : ((2 ^ (k + 1 - 10) : ℕ) : ℤ) < 2 ^ 31 := by omega
      have hpos : 0 < ((2 ^ (k + 1 - 10) : ℕ) : ℤ) := by exact_mod_cast Nat.two_pow_pos _
      have heq : nStep * 2 = ((2 ^ (k + 1 - 10) : ℕ) : ℤ) := by
        rw [hstep, Nat.succ_sub (by omega : 10 ≤ k), Nat.pow_succ]
        push_cast
        rfl
      rw [heq, int32_eq (by omega) hlt]
      push_cast
      rfl
  · next hnear =>
      have hzero : k + 1 - 10 = 0 := by omega
      have hzero' : k - 10 = 0 := by omega
      rw [hstep, hzero, hzero']

theorem locatorLoop_spec (hlinked : WellLinked tree) (hchain : Path tree chain ys)
    (hxs : Branch tree.pprev xs) (hknown : ∀ p ∈ xs, p < tree.length) {h : ℕ}
    (hsmall : h < 2 ^ 31) (hlast : h < xs.length) :
    ∀ {fuel k : ℕ} {p : Ptr} {pindex : CBlockIndex} {nStep : ℤ},
      EntryAt tree xs (h - doubling 10 k) p pindex → (∀ i < k, doubling 10 i < h) →
      (doubling 10 k < h → nStep = 2 ^ (k - 10)) → h - doubling 10 k < fuel →
      ∃ K, h ≤ doubling 10 K ∧ (∀ i < K, doubling 10 i < h) ∧
        chain.locatorLoop tree fuel (some p) nStep ((List.range k).map (locatorHash tree xs h)) =
          some ((List.range (K + 1)).map (locatorHash tree xs h))
  | 0, _, _, _, _, _, _, _, hfuel => absurd hfuel (Nat.not_lt_zero _)
  | fuel + 1, k, p, pindex, nStep, hat, hbefore, hstep, hfuel => by
      have hhave : (List.range k).map (locatorHash tree xs h) ++ [pindex.hash] =
          (List.range (k + 1)).map (locatorHash tree xs h) := by
        have hhash : locatorHash tree xs h k = pindex.hash := by
          rw [locatorHash, List.getD_eq_getElem?_getD, hat.place, Option.getD_some,
            BlockTree.hashOf, hat.entry]
          rfl
        rw [List.range_succ, List.map_append, List.map_singleton, hhash]
      rw [CChain.locatorLoop, hat.entry]
      dsimp only
      rw [hhave, hat.height]
      by_cases hdone : h ≤ doubling 10 k
      · rw [if_pos (Nat.sub_eq_zero_of_le hdone)]
        exact ⟨k, hdone, hbefore, rfl⟩
      · have hmore : doubling 10 k < h := Nat.lt_of_not_le hdone
        have hshort : 2 ^ (k - 10) < 2 ^ 31 := by
          rcases Nat.lt_or_ge k 10 with hnear | hfar
          · have hzero : k - 10 = 0 := by omega
            rw [hzero]
            decide
          · have := two_pow_lt_doubling (n := 10) (by decide) hfar
            omega
        have hheight : max (int32 ((h - doubling 10 k : ℕ) - nStep)) 0 =
            ((h - doubling 10 (k + 1) : ℕ) : ℤ) := by
          have hcast : nStep = ((2 ^ (k - 10) : ℕ) : ℤ) := by
            rw [hstep hmore]
            push_cast
            rfl
          have hpos : 0 < 2 ^ (k - 10) := Nat.two_pow_pos _
          rw [hcast, doubling]
          generalize 2 ^ (k - 10) = step at hshort hpos
          rw [int32_eq (by omega) (by omega)]
          omega
        have hnext : doubling 10 k < doubling 10 (k + 1) := doubling_strictMono 10 k.lt_succ_self
        rw [if_neg (by omega), hheight,
          locatorStep_spec hlinked hchain hxs hknown hat (by omega) hfuel]
        dsimp only
        obtain ⟨q, qindex, hq⟩ := exists_at hlinked hxs hknown (i := h - doubling 10 (k + 1))
          (by omega)
        rw [hq.place, List.length_map, List.length_range]
        apply locatorLoop_spec hlinked hchain hxs hknown hsmall hlast hq
        · intro i hi
          rcases Nat.lt_succ_iff_lt_or_eq.mp hi with hi | rfl
          · exact hbefore i hi
          · exact hmore
        · exact fun hless => nextStep_eq hsmall (hstep hmore) hless
        · omega

/-! ### Forks -/

/-- The place of the last block that two branches share. -/
structure LastCommon (xs ys : List Ptr) (f : ℕ) : Prop where
  lt : f < xs.length
  eq : xs[f]? = ys[f]?
  last : ∀ i, f < i → i < xs.length → xs[i]? ≠ ys[i]?

theorem exists_lastCommon {x : Ptr} (hx : xs[0]? = some x) (hy : ys[0]? = some x) :
    ∃ f, LastCommon xs ys f := by
  have hlt := (List.getElem?_eq_some_iff.mp hx).1
  have hzero : xs[0]? = ys[0]? := hx.trans hy.symm
  refine ⟨Nat.findGreatest (fun i => xs[i]? = ys[i]?) (xs.length - 1), ?_, ?_, ?_⟩
  · exact Nat.lt_of_le_of_lt (Nat.findGreatest_le _) (Nat.sub_lt hlt Nat.zero_lt_one)
  · exact Nat.findGreatest_spec (P := fun i => xs[i]? = ys[i]?) (Nat.zero_le _) hzero
  · exact fun i hi hlen => Nat.findGreatest_is_greatest hi (by omega)

/-- The blocks of one branch up to the fork are those that the other branch has. -/
theorem LastCommon.mem_iff (h : LastCommon xs ys f) (hxs : Branch tree.pprev xs)
    (hys : Branch tree.pprev ys) {i : ℕ} {p : Ptr} (hp : xs[i]? = some p) : p ∈ ys ↔ i ≤ f := by
  have hlt := (List.getElem?_eq_some_iff.mp hp).1
  constructor
  · intro hmem
    obtain ⟨j, hj⟩ := List.mem_iff_getElem?.mp hmem
    obtain rfl := hxs.index_unique hys hp hj
    by_contra hbeyond
    exact h.last i (Nat.lt_of_not_le hbeyond) hlt (hp.trans hj.symm)
  · intro hle
    have hlt := h.lt
    have hfork : xs[f]? = some xs[f] := List.getElem?_eq_getElem hlt
    have htake := congrArg (fun zs => zs[i]?) (hxs.take_eq hys hfork (h.eq.symm.trans hfork))
    rw [List.getElem?_take_of_lt (by omega), List.getElem?_take_of_lt (by omega), hp] at htake
    exact List.mem_of_getElem? htake.symm

theorem find_hashOf (hhashes : (tree.map CBlockIndex.hash).Nodup) {pindex : CBlockIndex}
    (hp : tree[p]? = some pindex) : tree.find pindex.hash = some p := by
  obtain ⟨hlt, rfl⟩ := List.getElem?_eq_some_iff.mp hp
  unfold BlockTree.find
  rw [List.findIdx?_eq_some_iff_getElem]
  refine ⟨hlt, beq_self_eq_true _, fun j hj => ?_⟩
  rw [beq_iff_eq]
  intro heq
  have hlen : (tree.map CBlockIndex.hash).length = tree.length := List.length_map ..
  have hinj := @List.Nodup.getElem_inj_iff _ _ hhashes j (by omega) p (by omega)
  rw [List.getElem_map, List.getElem_map] at hinj
  exact absurd (hinj.mp heq) (Nat.ne_of_lt hj)

/-- The blocks of the locator that are not in the chain are passed over. -/
theorem findFork_append {hash : ℕ → uint256} {q : Ptr} {k : ℕ} :
    ∀ {n i : ℕ}, i + n = k → (∀ j, i ≤ j → j < k → ∃ p, tree.find (hash j) = some p ∧
        chain.Contains tree p = false) →
      tree.find (hash k) = some q → chain.Contains tree q = true → ∀ rest : List uint256,
      chain.FindFork tree ((List.range' i n).map hash ++ hash k :: rest) = some q
  | 0, i, _, _, hfind, hin, rest => by
      rw [List.range'_zero, List.map_nil, List.nil_append, CChain.FindFork, hfind]
      dsimp only
      rw [if_pos hin]
  | n + 1, i, hk, hout, hfind, hin, rest => by
      obtain ⟨p, hp, hnot⟩ := hout i (Nat.le_refl i) (by omega)
      rw [List.range'_succ, List.map_cons, List.cons_append, CChain.FindFork, hp]
      dsimp only
      rw [if_neg (ne_true_of_eq_false hnot)]
      exact findFork_append (by omega) (fun j hj => hout j (by omega)) hfind hin rest

/-- The heights that a locator names. -/
theorem locatorHeights_pairwise {h K : ℕ} (hbefore : ∀ i < K, doubling 10 i < h) :
    ((List.range (K + 1)).map fun k => h - doubling 10 k).Pairwise (· > ·) := by
  rw [List.pairwise_map]
  refine List.Pairwise.imp_of_mem ?_ List.pairwise_lt_range
  intro i j _ hj hlt
  have hmono := doubling_strictMono 10 hlt
  have hless := hbefore i (by rw [List.mem_range] at hj; omega)
  omega

/-- The locator of an entry: its ancestors at ever greater distances. -/
theorem getLocator_spec (hlinked : WellLinked tree) (hchain : Path tree chain ys)
    (hxs : Branch tree.pprev xs) (hknown : ∀ p ∈ xs, p < tree.length) {h : ℕ}
    {pindex : CBlockIndex} (hat : EntryAt tree xs h p pindex) (hsmall : h < 2 ^ 31) :
    ∃ K, h ≤ doubling 10 K ∧ (∀ i < K, doubling 10 i < h) ∧ ∀ fuel, h < fuel →
      chain.GetLocator fuel tree (some p) =
        some ((List.range (K + 1)).map (locatorHash tree xs h)) := by
  have hlt := (List.getElem?_eq_some_iff.mp hat.place).1
  have hrun : ∀ fuel, h < fuel → ∃ K, h ≤ doubling 10 K ∧ (∀ i < K, doubling 10 i < h) ∧
      chain.GetLocator fuel tree (some p) =
        some ((List.range (K + 1)).map (locatorHash tree xs h)) := fun fuel hfuel =>
    locatorLoop_spec hlinked hchain hxs hknown hsmall hlt (k := 0) hat
      (fun _ hi => absurd hi (Nat.not_lt_zero _)) (fun _ => rfl) hfuel
  obtain ⟨K, hK, hbefore, -⟩ := hrun (h + 1) (Nat.lt_succ_self h)
  refine ⟨K, hK, hbefore, fun fuel hfuel => ?_⟩
  obtain ⟨K', hK', hbefore', hlocator⟩ := hrun fuel hfuel
  obtain rfl : K = K' := by
    apply Nat.le_antisymm
    · exact Nat.le_of_not_lt fun hless => absurd hK' (Nat.not_le.mpr (hbefore K' hless))
    · exact Nat.le_of_not_lt fun hless => absurd hK (Nat.not_le.mpr (hbefore' K hless))
  exact hlocator

/-- The entries of a locator are the ancestors that lie back by the doubling distances. -/
theorem locator_entries {tree : BlockTree} (hlinked : WellLinked tree) {A : CChain}
    {as : List Ptr} (hA : Path tree A as) {genesis : Ptr} (hgenesisA : as[0]? = some genesis)
    {p : Ptr} {pindex : CBlockIndex} (hp : tree[p]? = some pindex)
    (hsmall : pindex.nHeight < 2 ^ 31) :
    ∃ entries : List (Ptr × CBlockIndex),
      (∀ fuel, pindex.nHeight < fuel → A.GetLocator fuel tree (some p) =
        some (entries.map fun entry => entry.2.hash)) ∧
      (∀ entry ∈ entries, tree[entry.1]? = some entry.2 ∧ tree.IsAncestor entry.1 p) ∧
      entries.head? = some (p, pindex) ∧
      (entries.map fun entry => entry.2.nHeight).Pairwise (· > ·) ∧
      entries.getLast?.map Prod.fst = some genesis := by
  obtain ⟨xs, hxs, hlast, hknown⟩ := hlinked.exists_branch (List.getElem?_eq_some_iff.mp hp).1
  rw [List.getLast?_eq_getElem?] at hlast
  have hheight := hlinked.height_eq hxs hlast hp
  have hat : EntryAt tree xs pindex.nHeight p pindex := ⟨by rw [hheight]; exact hlast, hp, rfl⟩
  obtain ⟨K, hK, hbefore, hlocator⟩ := getLocator_spec hlinked hA hxs hknown hat hsmall
  have hplace := (List.getElem?_eq_some_iff.mp hat.place).1
  have hentry : ∀ k, ∃ entry : Ptr × CBlockIndex,
      EntryAt tree xs (pindex.nHeight - doubling 10 k) entry.1 entry.2 := by
    intro k
    obtain ⟨q, qindex, hq⟩ := exists_at hlinked hxs hknown
      (i := pindex.nHeight - doubling 10 k) (by omega)
    exact ⟨(q, qindex), hq⟩
  choose entry hentry using hentry
  have hheights : ∀ k, (entry k).2.nHeight = pindex.nHeight - doubling 10 k := fun k =>
    (hentry k).height
  refine ⟨(List.range (K + 1)).map entry, ?_, ?_, ?_, ?_, ?_⟩
  · intro fuel hfuel
    rw [hlocator fuel hfuel, List.map_map]
    congr 2
    funext k
    exact (hentry k).locatorHash_eq
  · intro e he
    obtain ⟨k, -, rfl⟩ := List.mem_map.mp he
    refine ⟨(hentry k).entry, isAncestor_of_branch hxs (i := pindex.nHeight - doubling 10 k)
      (j := doubling 10 k ⊓ pindex.nHeight) (hentry k).place ?_⟩
    have hsum : pindex.nHeight - doubling 10 k + doubling 10 k ⊓ pindex.nHeight =
        pindex.nHeight := by omega
    rw [hsum]
    exact hat.place
  · have hzero := hentry 0
    have hfst := Option.some.inj (hzero.place.symm.trans hat.place)
    have hsnd := hzero.entry
    rw [hfst, hp] at hsnd
    rw [List.range_succ_eq_map, List.map_cons, List.head?_cons, Option.some.inj hsnd, ← hfst]
  · rw [List.map_map]
    have hfun : ((fun e : Ptr × CBlockIndex => e.2.nHeight) ∘ entry) =
        fun k => pindex.nHeight - doubling 10 k := funext hheights
    rw [hfun]
    exact locatorHeights_pairwise hbefore
  · have hroot := (hentry K).place
    rw [Nat.sub_eq_zero_of_le hK] at hroot
    rw [List.range_succ, List.map_append, List.map_singleton, List.getLast?_concat,
      Option.map_some]
    have hrootEntry := (hentry K).entry
    have hparent := hxs.parent_zero hroot
    rw [pprev_of_getElem? hrootEntry] at hparent
    have hgenesis := hA.branch.parent_zero hgenesisA
    have hknownGenesis := hA.known genesis (List.mem_of_getElem? hgenesisA)
    rw [pprev_of_getElem? (List.getElem?_eq_getElem hknownGenesis)] at hgenesis
    rw [(hlinked.root hrootEntry hparent).1,
      (hlinked.root (List.getElem?_eq_getElem hknownGenesis) hgenesis).1]

/-- The first place of a locator that lies at or below the fork is where another chain is
led. -/
theorem locator_leads {tree : BlockTree} (hlinked : WellLinked tree)
    (hhashes : (tree.map CBlockIndex.hash).Nodup) {A B : CChain} {as bs : List Ptr}
    (hA : Path tree A as) (hB : Path tree B bs) (hlengthA : as.length < 2 ^ 29) {f : ℕ}
    (hf : LastCommon as bs f) :
    ∃ r tip, as[r]? = some tip ∧ r ≤ f ∧
      (∀ fuel, as.length ≤ fuel →
        (A.GetLocator fuel tree none).map (B.FindFork tree) = some (some tip)) ∧
      f - r ≤ (as.length - 1) - f ∧ ((as.length - 1) - f ≤ 10 → r = f) := by
  have hflt := hf.lt
  obtain ⟨tip, tipIndex, htip⟩ := exists_at hlinked hA.branch hA.known (i := as.length - 1)
    (by omega)
  obtain ⟨K, hK, hbefore, hlocator⟩ := getLocator_spec hlinked hA hA.branch hA.known htip
    (by omega)
  obtain ⟨k, hreach, hnot, hfar, hnear⟩ :=
    exists_first_doubling (n := 10) (by decide) (as.length - 1 - f)
  have hkK : k ≤ K := by
    by_contra hless
    have := hnot K (Nat.lt_of_not_le hless)
    omega
  have hplaces : ∀ j, ∃ p pindex, EntryAt tree as (as.length - 1 - doubling 10 j) p pindex :=
    fun j => exists_at hlinked hA.branch hA.known (by omega)
  have hfind : ∀ {j p pindex}, EntryAt tree as (as.length - 1 - doubling 10 j) p pindex →
      tree.find (locatorHash tree as (as.length - 1) j) = some p := by
    intro j p pindex hat
    rw [hat.locatorHash_eq]
    exact find_hashOf hhashes hat.entry
  obtain ⟨q, qindex, hq⟩ := hplaces k
  have hin : B.Contains tree q = true := by
    rw [hB.contains_iff hlinked, hf.mem_iff hA.branch hB.branch hq.place]
    omega
  refine ⟨as.length - 1 - doubling 10 k, q, hq.place, by omega, ?_, by omega, ?_⟩
  · intro fuel hfuel
    have hdefault : A.GetLocator fuel tree none = A.GetLocator fuel tree (some tip) := by
      unfold CChain.GetLocator
      rw [hA.tip_eq, List.getLast?_eq_getElem?, htip.place]
      rfl
    rw [hdefault, hlocator fuel (by omega), Option.map_some]
    have hsplit : List.range (K + 1) = List.range' 0 k ++ k :: List.range' (k + 1) (K - k) := by
      have happend := List.range'_append_1 (s := 0) (m := k) (n := K - k + 1)
      have hsum : k + (K - k + 1) = K + 1 := by omega
      rw [Nat.zero_add, hsum] at happend
      rw [List.range_eq_range', ← happend, List.range'_succ]
    rw [hsplit, List.map_append, List.map_cons]
    congr 1
    apply findFork_append (Nat.zero_add k) _ (hfind hq) hin
    intro j _ hj
    obtain ⟨p, pindex, hat⟩ := hplaces j
    refine ⟨p, hfind hat, Bool.eq_false_of_not_eq_true fun hmem => ?_⟩
    rw [hB.contains_iff hlinked, hf.mem_iff hA.branch hB.branch hat.place] at hmem
    have := hnot j hj
    omega
  · intro hclose
    rw [hnear hclose]
    omega

/-- The locator of an entry starts with the entry, goes back along its ancestors to ever lower
blocks and ends with the first block; the locator of a chain leads another chain to a block
that is at most as far behind the fork as the fork is behind the tip. -/
theorem locator_near_fork {tree : BlockTree} (hlinked : WellLinked tree)
    (hhashes : (tree.map CBlockIndex.hash).Nodup) {A B : CChain} {as bs : List Ptr}
    (hA : Path tree A as) (hB : Path tree B bs) {genesis : Ptr} (hgenesisA : as[0]? = some genesis)
    (hgenesisB : bs[0]? = some genesis) (hlengthA : as.length < 2 ^ 29) :
    (∀ p pindex, tree[p]? = some pindex → pindex.nHeight < 2 ^ 31 →
      ∃ entries : List (Ptr × CBlockIndex),
        (∀ fuel, pindex.nHeight < fuel → A.GetLocator fuel tree (some p) =
          some (entries.map fun entry => entry.2.hash)) ∧
        (∀ entry ∈ entries, tree[entry.1]? = some entry.2 ∧ tree.IsAncestor entry.1 p) ∧
        entries.head? = some (p, pindex) ∧
        (entries.map fun entry => entry.2.nHeight).Pairwise (· > ·) ∧
        entries.getLast?.map Prod.fst = some genesis) ∧
    ∃ f r tip, LastCommon as bs f ∧ as[r]? = some tip ∧ r ≤ f ∧
      (∀ fuel, as.length ≤ fuel →
        (A.GetLocator fuel tree none).map (B.FindFork tree) = some (some tip)) ∧
      f - r ≤ (as.length - 1) - f ∧ ((as.length - 1) - f ≤ 10 → r = f) := by
  refine ⟨fun p pindex hp hsmall => locator_entries hlinked hA hgenesisA hp hsmall, ?_⟩
  obtain ⟨f, hf⟩ := exists_lastCommon hgenesisA hgenesisB
  obtain ⟨r, tip, hleads⟩ := locator_leads hlinked hhashes hA hB hlengthA hf
  exact ⟨f, r, tip, hf, hleads⟩

/-- Two blocks above the first one. -/
def forkedTree : BlockTree :=
  [{ (default : CBlockIndex) with hash := 1 },
    { (default : CBlockIndex) with hash := 2, pprev := some 0, nHeight := 1 },
    { (default : CBlockIndex) with hash := 3, pprev := some 0, nHeight := 1 }]

theorem forkedTree_wellLinked : WellLinked forkedTree := by
  have hnil : WellLinked [] := ⟨fun h => (nomatch h), fun h => (nomatch h)⟩
  have hone : WellLinked (forkedTree.take 1) := hnil.append ⟨rfl, rfl⟩
  have htwo : WellLinked (forkedTree.take 2) := hone.append ⟨_, rfl, rfl⟩
  exact htwo.append ⟨_, rfl, rfl⟩

/-- The chain from the first block to the entry. -/
def forkedChain (p : Ptr) : CChain := { CChain.empty with vChain := [some 0, some p] }

theorem forkedChain_path {p : Ptr} (hp : p = 1 ∨ p = 2) :
    Path forkedTree (forkedChain p) [0, p] where
  vChain_eq := rfl
  branch := by
    have hroot : Branch forkedTree.pprev [0] := Branch.nil.concat rfl
    exact hroot.concat (by rcases hp with rfl | rfl <;> rfl)
  known q hq := by
    rcases hp with rfl | rfl
    · rcases List.mem_cons.mp hq with rfl | hq
      · decide
      · rw [List.mem_singleton.mp hq]
        decide
    · rcases List.mem_cons.mp hq with rfl | hq
      · decide
      · rw [List.mem_singleton.mp hq]
        decide

theorem locator_near_fork_forkedTree :
    ∃ f r tip, LastCommon [0, 1] [0, 2] f ∧ [0, 1][r]? = some tip ∧ r ≤ f ∧
      (∀ fuel, 2 ≤ fuel → ((forkedChain 1).GetLocator fuel forkedTree none).map
        ((forkedChain 2).FindFork forkedTree) = some (some tip)) ∧
      f - r ≤ (2 - 1) - f ∧ ((2 - 1) - f ≤ 10 → r = f) :=
  (@locator_near_fork _ forkedTree_wellLinked (by decide) _ _ _ _ (forkedChain_path (.inl rfl))
    (forkedChain_path (.inr rfl)) 0 rfl rfl (by decide)).2

end Ziftrcoin.Spec
