/-
Module: Ziftrcoin.Proofs.Retarget
Purpose: Chains whose blocks carry the difficulty that is required of them: the
  required difficulty is always defined, and what its compact forms stand for.
Trusted boundary: none
Main exports: WorkRequired, retarget_invariant
-/
import Mathlib.Logic.Relation
import Ziftrcoin.Proofs.Compact
import Ziftrcoin.Proofs.SmallNetwork
import Ziftrcoin.Proofs.Tree

namespace Ziftrcoin.Spec

open Ziftrcoin.Lib

/-- Every entry carries the difficulty that is required after its predecessor,
and the genesis block the lowest one. -/
structure WorkRequired (cfg : Config) (tree : BlockTree) : Prop extends WellLinked tree where
  rootBits : ∀ {p : Ptr} {pindex : CBlockIndex}, tree[p]? = some pindex →
    pindex.pprev = none → pindex.nBits = GetCompact cfg.ProofOfWorkLimit
  childBits : ∀ {p q : Ptr} {pindex : CBlockIndex}, tree[p]? = some pindex →
    pindex.pprev = some q →
    GetNextWorkRequired cfg tree q pindex.nTime = .ok pindex.nBits

/-- The entry at `q` comes before the one at `p` in its branch. -/
def Ancestor (tree : BlockTree) : Ptr → Ptr → Prop :=
  Relation.TransGen fun q p => tree.pprev p = some q

/-- The new target for the old one and the time that an interval took. -/
def retarget (cfg : Config) (bnTarget nActualTimespan : ℤ) : ℤ :=
  min ((bnTarget * min (max nActualTimespan 180) 360).tdiv TARGET_TIMESPAN)
    cfg.ProofOfWorkLimit

/-! ### The walk back -/

section WalkBack

variable {tree : BlockTree} (h : WellLinked tree)

include h

/-- There are as many entries below one as its height says. -/
theorem deref_stepsBack : ∀ {n : ℕ} {p : Ptr} {pindex : CBlockIndex},
    tree[p]? = some pindex → n ≤ pindex.nHeight →
    ∃ first, tree.deref (stepsBack tree n (some p)) = some first
  | 0, p, pindex, hp, _ => ⟨pindex, hp⟩
  | n + 1, p, pindex, hp, hn => by
      cases hprev : pindex.pprev with
      | none =>
          have hzero := (h.root hp hprev).2
          omega
      | some q =>
          obtain ⟨_, prev, hq, hheight⟩ := h.child hp hprev
          have hpprev : tree.pprev p = some q := (pprev_of_getElem? hp).trans hprev
          change ∃ first, tree.deref (stepsBack tree n (tree.pprev p)) = some first
          rw [hpprev]
          exact deref_stepsBack hq (by omega)

/-- The assertion on `pindexFirst` holds. -/
theorem getNextWorkRequired_isOk (cfg : Config) (p : Ptr) (nBlockTime : ℤ) :
    ∃ nBits, GetNextWorkRequired cfg tree p nBlockTime = .ok nBits := by
  unfold GetNextWorkRequired
  cases hp : tree[p]? with
  | none => exact ⟨_, rfl⟩
  | some pindexLast =>
      dsimp only
      by_cases hzero : pindexLast.nHeight = 0
      · exact ⟨_, if_pos hzero⟩
      rw [if_neg hzero]
      by_cases hmod : pindexLast.nHeight % RETARGET_INTERVAL ≠ 0
      · rw [if_pos hmod]
        split
        · split <;> exact ⟨_, rfl⟩
        · exact ⟨_, rfl⟩
      · rw [if_neg hmod]
        have hheight : RETARGET_INTERVAL ≤ pindexLast.nHeight :=
          Nat.le_of_dvd (Nat.pos_of_ne_zero hzero)
            (Nat.dvd_of_mod_eq_zero (not_not.mp hmod))
        obtain ⟨pindexFirst, hfirst⟩ := deref_stepsBack h hp hheight
        rw [hfirst]
        exact ⟨_, rfl⟩

end WalkBack

/-- The search on the test network ends at the entry itself or at an ancestor. -/
theorem lastNormalBits_mem {tree : BlockTree} {nProofOfWorkLimit : ℕ} :
    ∀ {fuel : ℕ} {p : Ptr} {pindex : CBlockIndex}, tree[p]? = some pindex →
      ∃ q prev, (q = p ∨ Ancestor tree q p) ∧ tree[q]? = some prev ∧
        lastNormalBits tree nProofOfWorkLimit fuel pindex = prev.nBits
  | 0, p, pindex, hp => ⟨p, pindex, .inl rfl, hp, rfl⟩
  | fuel + 1, p, pindex, hp => by
      unfold lastNormalBits
      cases hprev : tree.deref pindex.pprev with
      | none => exact ⟨p, pindex, .inl rfl, hp, rfl⟩
      | some prev =>
          dsimp only
          split
          · obtain ⟨q, hq, hprev⟩ := Option.bind_eq_some_iff.mp hprev
            have hstep : Ancestor tree q p :=
              .single ((pprev_of_getElem? hp).trans hq)
            have hrec : ∃ r first, (r = q ∨ Ancestor tree r q) ∧ tree[r]? = some first ∧
                lastNormalBits tree nProofOfWorkLimit fuel prev = first.nBits :=
              lastNormalBits_mem hprev
            obtain ⟨r, first, hr, hfirst, hbits⟩ := hrec
            refine ⟨r, first, .inr ?_, hfirst, hbits⟩
            rcases hr with rfl | hr
            · exact hstep
            · exact hr.trans hstep
          · exact ⟨p, pindex, .inl rfl, hp, rfl⟩

/-- What can be required after an entry: the lowest difficulty, that of the entry
or of an ancestor, or at the end of an interval a new one. -/
theorem getNextWorkRequired_cases {cfg : Config} {tree : BlockTree} {q : Ptr}
    {prev : CBlockIndex} {nBlockTime : ℤ} {nBits : ℕ} (hq : tree[q]? = some prev)
    (h : GetNextWorkRequired cfg tree q nBlockTime = .ok nBits) :
    (prev.nHeight = 0 ∧ nBits = GetCompact cfg.ProofOfWorkLimit) ∨
    (prev.nHeight % RETARGET_INTERVAL ≠ 0 ∧ cfg.TestNet = true ∧
      (nBits = GetCompact cfg.ProofOfWorkLimit ∨ ∃ r first,
        (r = q ∨ Ancestor tree r q) ∧ tree[r]? = some first ∧ nBits = first.nBits)) ∨
    (prev.nHeight % RETARGET_INTERVAL ≠ 0 ∧ cfg.TestNet = false ∧ nBits = prev.nBits) ∨
    (prev.nHeight ≠ 0 ∧ prev.nHeight % RETARGET_INTERVAL = 0 ∧ ∃ first,
      tree.deref (stepsBack tree RETARGET_INTERVAL (some q)) = some first ∧
      nBits = GetCompact (retarget cfg (SetCompact prev.nBits)
        ((prev.nTime : ℤ) - first.nTime))) := by
  unfold GetNextWorkRequired at h
  rw [hq] at h
  dsimp only at h
  by_cases hzero : prev.nHeight = 0
  · rw [if_pos hzero] at h
    exact .inl ⟨hzero, (Except.ok.inj h).symm⟩
  rw [if_neg hzero] at h
  by_cases hmod : prev.nHeight % RETARGET_INTERVAL ≠ 0
  · rw [if_pos hmod] at h
    cases htest : cfg.TestNet with
    | false =>
        rw [htest, if_neg (by decide)] at h
        exact .inr (.inr (.inl ⟨hmod, rfl, (Except.ok.inj h).symm⟩))
    | true =>
        rw [htest, if_pos rfl] at h
        refine .inr (.inl ⟨hmod, rfl, ?_⟩)
        split at h
        · exact .inl (Except.ok.inj h).symm
        · obtain ⟨r, first, hr, hfirst, hbits⟩ := lastNormalBits_mem hq
          exact .inr ⟨r, first, hr, hfirst, (Except.ok.inj h).symm.trans hbits⟩
  · rw [if_neg hmod] at h
    refine .inr (.inr (.inr ⟨hzero, not_not.mp hmod, ?_⟩))
    cases hfirst : tree.deref (stepsBack tree RETARGET_INTERVAL (some q)) with
    | none =>
        rw [hfirst] at h
        cases h
    | some first =>
        rw [hfirst] at h
        refine ⟨first, rfl, (Except.ok.inj h).symm.trans ?_⟩
        unfold retarget
        congr 1
        split
        · next hlt => exact (min_eq_right hlt.le).symm
        · next hge => exact (min_eq_left (not_lt.mp hge)).symm

/-! ### The new target -/

section NewTarget

variable {cfg : Config} {bnTarget : ℤ}

theorem mul_tdiv_timespan {x : ℤ} (hx : 0 ≤ x) : x.tdiv TARGET_TIMESPAN = x / 240 :=
  Int.tdiv_eq_ediv_of_nonneg hx

theorem retarget_nonneg (hlimit : 0 ≤ cfg.ProofOfWorkLimit) (htarget : 0 ≤ bnTarget)
    (nActualTimespan : ℤ) : 0 ≤ retarget cfg bnTarget nActualTimespan := by
  have hspan : 0 ≤ min (max nActualTimespan 180) 360 := by omega
  have hmul := mul_nonneg htarget hspan
  apply le_min _ hlimit
  rw [mul_tdiv_timespan hmul]
  exact Int.ediv_nonneg hmul (by decide)

theorem retarget_le_limit (nActualTimespan : ℤ) :
    retarget cfg bnTarget nActualTimespan ≤ cfg.ProofOfWorkLimit :=
  min_le_right _ _

/-- Three quarters of the old target at least. -/
theorem le_retarget (htarget : 0 ≤ bnTarget) (hlimit : bnTarget ≤ cfg.ProofOfWorkLimit)
    (nActualTimespan : ℤ) :
    bnTarget * 3 / 4 ≤ retarget cfg bnTarget nActualTimespan := by
  have hspan : 180 ≤ min (max nActualTimespan 180) 360 := by omega
  have hmul := mul_le_mul_of_nonneg_left hspan htarget
  apply le_min
  · rw [mul_tdiv_timespan (by omega)]
    omega
  · omega

/-- Three halves of it at most. -/
theorem retarget_le (htarget : 0 ≤ bnTarget) (nActualTimespan : ℤ) :
    retarget cfg bnTarget nActualTimespan ≤
      min (bnTarget * 3 / 2) cfg.ProofOfWorkLimit := by
  have hspan : 0 ≤ min (max nActualTimespan 180) 360 := by omega
  have hspan' : min (max nActualTimespan 180) 360 ≤ 360 := min_le_right _ _
  have hmul := mul_le_mul_of_nonneg_left hspan' htarget
  apply min_le_min_right
  rw [mul_tdiv_timespan (mul_nonneg htarget hspan)]
  omega

end NewTarget

/-! ### Every block of a chain -/

/-- The compact form of a target within the limit. -/
structure GoodBits (cfg : Config) (nBits : ℕ) : Prop where
  canonical : Canonical nBits
  nonneg : 0 ≤ SetCompact nBits
  le_limit : SetCompact nBits ≤ cfg.ProofOfWorkLimit

theorem goodBits_getCompact {cfg : Config} {x : ℤ} (hx : 0 ≤ x)
    (hlimit : x ≤ cfg.ProofOfWorkLimit) : GoodBits cfg (GetCompact x) :=
  ⟨canonical_getCompact hx, setCompact_getCompact_nonneg hx,
    (setCompact_getCompact_le hx).trans hlimit⟩

theorem setCompact_getCompact_pos {x : ℤ} (hx : 0 < x) : 0 < SetCompact (GetCompact x) := by
  have herror := setCompact_getCompact_error hx
  omega

theorem Ancestor.lt {tree : BlockTree} (h : WellLinked tree) {p q : Ptr}
    (hqp : Ancestor tree q p) : q < p := by
  induction hqp with
  | single hstep => exact h.pprev_lt hstep
  | tail _ hstep ih => exact ih.trans (h.pprev_lt hstep)

namespace WorkRequired

variable {cfg : Config} {tree : BlockTree}

/-- An entry has the difficulty of the genesis block, or what is required after
its predecessor. -/
theorem root_or_child (h : WorkRequired cfg tree) {p : Ptr} {pindex : CBlockIndex}
    (hp : tree[p]? = some pindex) :
    pindex.nBits = GetCompact cfg.ProofOfWorkLimit ∨ ∃ q prev, pindex.pprev = some q ∧
      Ancestor tree q p ∧ tree[q]? = some prev ∧
      GetNextWorkRequired cfg tree q pindex.nTime = .ok pindex.nBits := by
  cases hprev : pindex.pprev with
  | none => exact .inl (h.rootBits hp hprev)
  | some q =>
      obtain ⟨_, prev, hq, _⟩ := h.child hp hprev
      exact .inr ⟨q, prev, rfl, .single ((pprev_of_getElem? hp).trans hprev), hq,
        h.childBits hp hprev⟩

theorem bits (hlimit : 0 ≤ cfg.ProofOfWorkLimit) (h : WorkRequired cfg tree) (p : Ptr) :
    ∀ {pindex : CBlockIndex}, tree[p]? = some pindex → GoodBits cfg pindex.nBits := by
  induction p using Nat.strongRecOn with
  | _ p ih =>
      intro pindex hp
      have hgood := goodBits_getCompact hlimit (le_refl cfg.ProofOfWorkLimit)
      rcases h.root_or_child hp with hbits | ⟨q, prev, _, hanc, hq, hrequired⟩
      · rw [hbits]
        exact hgood
      have hlt := hanc.lt h.toWellLinked
      obtain ⟨_, hbits⟩ | ⟨_, _, hbits | ⟨r, first, hr, hfirst, hbits⟩⟩ |
        ⟨_, _, hbits⟩ | ⟨_, _, first, _, hbits⟩ := getNextWorkRequired_cases hq hrequired
      · rw [hbits]
        exact hgood
      · rw [hbits]
        exact hgood
      · rw [hbits]
        refine ih r ?_ hfirst
        rcases hr with rfl | hr
        · exact hlt
        · exact (hr.lt h.toWellLinked).trans hlt
      · rw [hbits]
        exact ih q hlt hq
      · rw [hbits]
        exact goodBits_getCompact
          (retarget_nonneg hlimit (ih q hlt hq).nonneg _) (retarget_le_limit _)

/-- As long as the targets before it are above one, a target is not zero. -/
theorem target_pos (hlimit : 0 < cfg.ProofOfWorkLimit) (h : WorkRequired cfg tree)
    {p : Ptr} {pindex : CBlockIndex} (hp : tree[p]? = some pindex)
    (habove : ∀ (q : Ptr) (prev : CBlockIndex), Ancestor tree q p →
      tree[q]? = some prev → 1 < SetCompact prev.nBits) : 0 < SetCompact pindex.nBits := by
  have hpos := setCompact_getCompact_pos hlimit
  rcases h.root_or_child hp with hbits | ⟨q, prev, _, hanc, hq, hrequired⟩
  · rw [hbits]
    exact hpos
  have habove' := habove q prev hanc hq
  obtain ⟨_, hbits⟩ | ⟨_, _, hbits | ⟨r, first, hr, hfirst, hbits⟩⟩ |
    ⟨_, _, hbits⟩ | ⟨_, _, first, _, hbits⟩ := getNextWorkRequired_cases hq hrequired
  · rw [hbits]
    exact hpos
  · rw [hbits]
    exact hpos
  · rw [hbits]
    rcases hr with rfl | hr
    · exact zero_lt_one.trans (habove r first hanc hfirst)
    · exact zero_lt_one.trans (habove r first (hr.trans hanc) hfirst)
  · rw [hbits]
    exact zero_lt_one.trans habove'
  · rw [hbits]
    apply setCompact_getCompact_pos
    have hgood := h.bits hlimit.le q hq
    have hle := le_retarget hgood.nonneg hgood.le_limit ((prev.nTime : ℤ) - first.nTime)
    omega

/-- On the main network the target changes at the end of an interval only. -/
theorem bits_eq_prev (h : WorkRequired cfg tree) (hmain : cfg.TestNet = false)
    {p q : Ptr} {pindex prev : CBlockIndex} (hp : tree[p]? = some pindex)
    (hprev : pindex.pprev = some q) (hq : tree[q]? = some prev)
    (hmod : prev.nHeight % RETARGET_INTERVAL ≠ 0) : pindex.nBits = prev.nBits := by
  obtain ⟨hzero, _⟩ | ⟨_, htest, _⟩ | ⟨_, _, hbits⟩ | ⟨_, hmod', _⟩ :=
    getNextWorkRequired_cases hq (h.childBits hp hprev)
  · rw [hzero] at hmod
    exact absurd rfl hmod
  · rw [hmain] at htest
    cases htest
  · exact hbits
  · exact absurd hmod' hmod

/-- The bits after the end of an interval. -/
theorem bits_retarget (h : WorkRequired cfg tree) {p q : Ptr}
    {pindex prev : CBlockIndex} (hp : tree[p]? = some pindex)
    (hprev : pindex.pprev = some q) (hq : tree[q]? = some prev)
    (hzero : prev.nHeight ≠ 0) (hmod : prev.nHeight % RETARGET_INTERVAL = 0) :
    ∃ first, tree.deref (stepsBack tree RETARGET_INTERVAL (some q)) = some first ∧
      pindex.nBits = GetCompact (retarget cfg (SetCompact prev.nBits)
        ((prev.nTime : ℤ) - first.nTime)) := by
  obtain ⟨hzero', _⟩ | ⟨hmod', _⟩ | ⟨hmod', _⟩ | ⟨_, _, hnew⟩ :=
    getNextWorkRequired_cases hq (h.childBits hp hprev)
  · exact absurd hzero' hzero
  · exact absurd hmod hmod'
  · exact absurd hmod hmod'
  · exact hnew

end WorkRequired

/-! ### The retarget invariant -/

/-- On every chain whose blocks carry the required difficulty: there is always a
required difficulty, targets are kept within the limit, and they change only at
the end of an interval on the main network and by bounded factors. -/
theorem retarget_invariant {cfg : Config} {tree : BlockTree}
    (hlimit : 0 < cfg.ProofOfWorkLimit) (h : WorkRequired cfg tree) :
    (∀ (p : Ptr) (nBlockTime : ℤ),
      ∃ nBits, GetNextWorkRequired cfg tree p nBlockTime = .ok nBits) ∧
    (∀ (p : Ptr) (pindex : CBlockIndex), tree[p]? = some pindex →
      GetCompact (SetCompact pindex.nBits) = pindex.nBits ∧
      0 ≤ SetCompact pindex.nBits ∧ SetCompact pindex.nBits ≤ cfg.ProofOfWorkLimit ∧
      ((∀ (q : Ptr) (prev : CBlockIndex), Ancestor tree q p → tree[q]? = some prev →
        1 < SetCompact prev.nBits) → 0 < SetCompact pindex.nBits)) ∧
    (∀ (p q : Ptr) (pindex prev : CBlockIndex), tree[p]? = some pindex → pindex.pprev = some q →
      tree[q]? = some prev →
      (cfg.TestNet = false → prev.nHeight % RETARGET_INTERVAL ≠ 0 →
        SetCompact pindex.nBits = SetCompact prev.nBits) ∧
      (prev.nHeight ≠ 0 → prev.nHeight % RETARGET_INTERVAL = 0 →
        SetCompact (GetCompact (SetCompact prev.nBits * 3 / 4)) ≤
            SetCompact pindex.nBits ∧
          SetCompact pindex.nBits ≤ SetCompact (GetCompact
            (min (SetCompact prev.nBits * 3 / 2) cfg.ProofOfWorkLimit)))) ∧
    (∀ x : ℤ, 0 ≤ x → x < 2 ^ 2032 → SetCompact (GetCompact x) ≤ x ∧
      (0 < x → (x - SetCompact (GetCompact x)) * 2 ^ 15 < x)) ∧
    (∀ x y : ℤ, 0 ≤ x → x ≤ y → y < 2 ^ 2032 → GetCompact x ≤ GetCompact y) ∧
    (∀ a b : ℕ, GetCompact (SetCompact a) = a → GetCompact (SetCompact b) = b →
      0 ≤ SetCompact b → a ≤ b → SetCompact a ≤ SetCompact b) := by
  refine ⟨fun p nBlockTime => getNextWorkRequired_isOk h.toWellLinked cfg p nBlockTime,
    ?_, ?_, ?_, ?_, ?_⟩
  · intro p pindex hp
    have hgood := h.bits hlimit.le p hp
    exact ⟨hgood.canonical, hgood.nonneg, hgood.le_limit, h.target_pos hlimit hp⟩
  · intro p q pindex prev hp hprev hq
    refine ⟨fun hmain hmod => by rw [h.bits_eq_prev hmain hp hprev hq hmod], ?_⟩
    intro hzero hmod
    obtain ⟨first, _, hbits⟩ := h.bits_retarget hp hprev hq hzero hmod
    have hgood := h.bits hlimit.le q hq
    rw [hbits]
    constructor
    · apply setCompact_getCompact_mono
      · have := hgood.nonneg
        omega
      · exact le_retarget hgood.nonneg hgood.le_limit _
    · exact setCompact_getCompact_mono (retarget_nonneg hlimit.le hgood.nonneg _)
        (retarget_le hgood.nonneg _)
  · intro x hx _
    exact ⟨setCompact_getCompact_le hx, setCompact_getCompact_error⟩
  · intro x y hx hle _
    exact getCompact_mono hx hle
  · intro a b ha hb hpos hle
    exact Canonical.setCompact_mono ha hb hpos hle

/-- A longer number with a small mantissa stands for less than a short number. -/
theorem setCompact_not_monotone :
    0x037fffff ≤ 0x04000001 ∧ SetCompact 0x04000001 < SetCompact 0x037fffff := by
  decide

/-! ### Chains made of times -/

/-- An entry on top of a chain, with the difficulty that is required of it. -/
def extendChain (cfg : Config) (tree : BlockTree) (nTime : ℕ) : BlockTree :=
  match tree with
  | [] => [{ (default : CBlockIndex) with
      nTime, nBits := GetCompact cfg.ProofOfWorkLimit }]
  | _ =>
      match GetNextWorkRequired cfg tree (tree.length - 1) nTime with
      | .error _ => tree
      | .ok nBits => tree ++ [{ (default : CBlockIndex) with
          hash := tree.length, pprev := some (tree.length - 1), nHeight := tree.length,
          nTime, nBits }]

/-- A chain whose blocks have the given times. -/
def timedChain (cfg : Config) (times : List ℕ) : BlockTree :=
  times.foldl (extendChain cfg) []

/-- Whether an entry has its place and the difficulty required of it. -/
def carriesWork (cfg : Config) (tree : BlockTree) (p : Ptr) (pindex : CBlockIndex) : Bool :=
  match pindex.pprev with
  | none => p == 0 && pindex.nHeight == 0 &&
      pindex.nBits == GetCompact cfg.ProofOfWorkLimit
  | some q => decide (q < p) &&
      (tree[q]?.any fun prev => pindex.nHeight == prev.nHeight + 1) &&
      match GetNextWorkRequired cfg tree q pindex.nTime with
      | .error _ => false
      | .ok nBits => nBits == pindex.nBits

theorem workRequired_of_all {cfg : Config} {tree : BlockTree}
    (h : (tree.zipIdx.all fun x => carriesWork cfg tree x.2 x.1) = true) :
    WorkRequired cfg tree := by
  have hcarries : ∀ {p : Ptr} {pindex : CBlockIndex}, tree[p]? = some pindex →
      carriesWork cfg tree p pindex = true := by
    intro p pindex hp
    apply List.all_eq_true.mp h (pindex, p)
    rw [List.mem_iff_getElem?]
    exact ⟨p, by simp [hp]⟩
  have hroot : ∀ {p : Ptr} {pindex : CBlockIndex}, tree[p]? = some pindex →
      pindex.pprev = none → (p = 0 ∧ pindex.nHeight = 0) ∧
        pindex.nBits = GetCompact cfg.ProofOfWorkLimit := by
    intro p pindex hp hprev
    have hcheck := hcarries hp
    unfold carriesWork at hcheck
    rw [hprev] at hcheck
    simpa only [Bool.and_eq_true, beq_iff_eq] using hcheck
  have hchild : ∀ {p q : Ptr} {pindex : CBlockIndex}, tree[p]? = some pindex →
      pindex.pprev = some q → (q < p ∧ ∃ prev, tree[q]? = some prev ∧
        pindex.nHeight = prev.nHeight + 1) ∧
        GetNextWorkRequired cfg tree q pindex.nTime = .ok pindex.nBits := by
    intro p q pindex hp hprev
    have hcheck := hcarries hp
    unfold carriesWork at hcheck
    rw [hprev] at hcheck
    simp only [Bool.and_eq_true, decide_eq_true_eq, Option.any_eq_true, beq_iff_eq] at hcheck
    refine ⟨hcheck.1, ?_⟩
    cases hbits : GetNextWorkRequired cfg tree q pindex.nTime with
    | error e =>
        rw [hbits] at hcheck
        exact absurd hcheck.2 Bool.false_ne_true
    | ok nBits =>
        rw [hbits] at hcheck
        rw [← beq_iff_eq.mp hcheck.2]
  exact
    { root := fun hp hprev => (hroot hp hprev).1
      child := fun hp hprev => (hchild hp hprev).1
      rootBits := fun hp hprev => (hroot hp hprev).2
      childBits := fun hp hprev => (hchild hp hprev).2 }

/-- A network with the target limit of the main network. -/
def coldNet : Config :=
  { smallNet (smallGenesis []) with ProofOfWorkLimit := 2 ^ 231 - 1 }

/-- Two intervals: a fast one, then a slow one. -/
def twoIntervals : BlockTree :=
  timedChain coldNet [0, 10, 20, 30, 40, 130, 220, 310, 400, 400]

theorem workRequired_twoIntervals : WorkRequired coldNet twoIntervals :=
  workRequired_of_all (by decide +kernel)

/-- The target after the first interval is three quarters of the limit. -/
theorem retarget_twoIntervals :
    ∃ pindex prev, twoIntervals[5]? = some pindex ∧ twoIntervals[4]? = some prev ∧
      SetCompact (GetCompact (SetCompact prev.nBits * 3 / 4)) ≤
        SetCompact pindex.nBits := by
  have hat : ∀ p < 10, ∃ pindex, twoIntervals[p]? = some pindex := by
    have hlen : twoIntervals.length = 10 := by decide +kernel
    intro p hp
    exact ⟨_, List.getElem?_eq_getElem (by omega)⟩
  obtain ⟨pindex, hp⟩ := hat 5 (by decide)
  obtain ⟨prev, hq⟩ := hat 4 (by decide)
  have hprev : twoIntervals.pprev 5 = some 4 := by decide +kernel
  have hheight : (twoIntervals[4]?.map CBlockIndex.nHeight) = some 4 := by decide +kernel
  rw [hq] at hheight
  have hheight : prev.nHeight = 4 := Option.some.inj hheight
  rw [pprev_of_getElem? hp] at hprev
  have hinv := (retarget_invariant (by decide) workRequired_twoIntervals).2.2.1
    5 4 pindex prev hp hprev hq
  have hbounds := hinv.2 (by omega) (by rw [hheight]; rfl)
  exact ⟨pindex, prev, hp, hq, hbounds.1⟩

end Ziftrcoin.Spec
