/-
Module: Ziftrcoin.Proofs.LineRun
Purpose: A node of the small network that receives the blocks of a chain one
  after another, to any height.
Trusted boundary: none
Main exports: SmallEntry, reachable_deadLine
-/
import Ziftrcoin.Proofs.Arrival

namespace Ziftrcoin.Spec

open Ziftrcoin.Lib
open Ziftrcoin.Lib.Outcome

/-! ### The entries of a chain -/

/-- The entry of a block of the small network. -/
structure SmallEntry (nonce : ℕ) (prev : Option Ptr) (height sequence : ℕ)
    (pindex : CBlockIndex) : Prop where
  hash : pindex.hash = hashOfNonce nonce
  pprev : pindex.pprev = prev
  nHeight : pindex.nHeight = height
  nTime : pindex.nTime = 1400000000 + 60 * height
  nBits : pindex.nBits = GetCompact smallLimit
  nChainWork : pindex.nChainWork = 2 * (height + 1)
  nSequenceId : pindex.nSequenceId = sequence
  sound : pindex.nStatus.failed = false

/-- The entry of the block number `i` of a chain, whose nonce is one more. -/
def LineEntry (i : ℕ) (pindex : CBlockIndex) : Prop :=
  SmallEntry (i + 1) (if i = 0 then none else some (i - 1)) i (i + 1) pindex

/-- The index starts with the entries of a chain up to the height `n`. -/
def LineUpTo (tree : BlockTree) (n : ℕ) : Prop :=
  ∀ i ≤ n, ∃ pindex, tree[i]? = some pindex ∧ LineEntry i pindex

theorem SmallEntry.of_judged {nNonce nHeight nSequenceId : ℕ} {pprev : Option Ptr}
    {a b : CBlockIndex} (h : SmallEntry nNonce pprev nHeight nSequenceId a)
    (hjudged : a.judged = b.judged) : SmallEntry nNonce pprev nHeight nSequenceId b := by
  have hread : ∀ {α : Type} (f : CBlockIndex → α), f a.judged = f b.judged :=
    fun f => congrArg f hjudged
  have hfailed := failed_of_judged hjudged
  exact {
    hash := (hread CBlockIndex.hash).symm.trans h.hash
    pprev := (hread CBlockIndex.pprev).symm.trans h.pprev
    nHeight := (hread CBlockIndex.nHeight).symm.trans h.nHeight
    nTime := (hread CBlockIndex.nTime).symm.trans h.nTime
    nBits := (hread CBlockIndex.nBits).symm.trans h.nBits
    nChainWork := (hread CBlockIndex.nChainWork).symm.trans h.nChainWork
    nSequenceId := (hread CBlockIndex.nSequenceId).symm.trans h.nSequenceId
    sound := hfailed.symm.trans h.sound }

theorem hashOfNonce_inj {m n : ℕ} (h : hashOfNonce m = hashOfNonce n) : m = n := by
  have hpos : 0 < 2 ^ 32 := by decide
  exact Nat.eq_of_mul_eq_mul_right hpos h

theorem smallTarget : SetCompact (GetCompact smallLimit) = 0x7fffff * 2 ^ 232 := by
  decide +kernel

/-- The entry of a new block on a known one. -/
theorem newEntry_small (genesis : CBlock) {s : NodeState} {p : Ptr} {prev : CBlockIndex}
    {nNonce nNoncePrev nHeight nSequenceId : ℕ} {pprev : Option Ptr} {hashPrev : uint256}
    (hfind : s.mapBlockIndex.find hashPrev = some p) (hp : s.mapBlockIndex[p]? = some prev)
    (hprev : SmallEntry nNoncePrev pprev nHeight nSequenceId prev) (hheight : nHeight + 2 < 2 ^ 32)
    (hnonce : nNonce < 2 ^ 32) {vtx : List CTransaction} {block : CBlock}
    (hblock : block = (smallBlock nNonce (nHeight + 1) hashPrev vtx).BuildMerkleTree
      smallCrypto) (nTimeReceived nMatureCoinsSpent : ℤ) :
    SmallEntry nNonce (some p) (nHeight + 1) s.nBlockSequenceId
      (newEntry (smallNet genesis) s block nTimeReceived nMatureCoinsSpent) := by
  have hfind' : s.mapBlockIndex.find block.hashPrevBlock = some p := by
    rw [hblock]
    exact hfind
  have hderef : s.mapBlockIndex.deref (some p) = some prev := hp
  have hwork : block.GetBlockWork = 2 := by
    have hnBits : block.nBits = GetCompact smallLimit := by
      rw [hblock]
      rfl
    unfold CBlockHeader.GetBlockWork
    rw [hnBits, smallTarget]
    decide
  constructor
  · rw [hblock]
    exact getHash_smallBlock hnonce _ _ _
  · unfold newEntry
    exact hfind'
  · unfold newEntry
    dsimp only
    rw [hfind', hderef, Option.map_some, Option.getD_some, hprev.nHeight]
  · rw [hblock]
    rfl
  · rw [hblock]
    rfl
  · unfold newEntry
    dsimp only
    rw [hfind', hderef, Option.map_some, Option.getD_some, hprev.nChainWork, hwork]
    omega
  · rfl
  · rfl

namespace LineUpTo

variable {tree : BlockTree} {n i : ℕ}

theorem of_judged {tree' : BlockTree} (h : LineUpTo tree n)
    (hjudged : tree'.map CBlockIndex.judged = tree.map CBlockIndex.judged) :
    LineUpTo tree' n := by
  intro i hi
  obtain ⟨pindex, hp, hline⟩ := h i hi
  obtain ⟨pindex', hp', hsame⟩ := getElem?_of_judged hjudged.symm hp
  exact ⟨pindex', hp', hline.of_judged hsame.symm⟩

theorem append (h : LineUpTo tree n) (entries : List CBlockIndex) :
    LineUpTo (tree ++ entries) n := by
  intro i hi
  obtain ⟨pindex, hp, hline⟩ := h i hi
  refine ⟨pindex, ?_, hline⟩
  rw [List.getElem?_append_left (List.getElem?_eq_some_iff.mp hp).1, hp]

theorem find_eq (h : LineUpTo tree n) (hi : i ≤ n) :
    tree.find (hashOfNonce (i + 1)) = some i := by
  obtain ⟨pindex, hp, hline⟩ := h i hi
  obtain ⟨hlt, hget⟩ := List.getElem?_eq_some_iff.mp hp
  unfold BlockTree.find
  rw [List.findIdx?_eq_some_iff_getElem]
  refine ⟨hlt, ?_, ?_⟩
  · rw [hget, hline.hash]
    exact beq_self_eq_true _
  · intro j hj hhash
    obtain ⟨other, hother, hlineOther⟩ := h j (by omega)
    rw [(List.getElem?_eq_some_iff.mp hother).2, beq_iff_eq, hlineOther.hash] at hhash
    have := hashOfNonce_inj hhash
    omega

/-- The difficulty stays what it was. -/
theorem nextWorkRequired (h : LineUpTo tree n) (hi : i ≤ n) (genesis : CBlock)
    (nBlockTime : ℤ) :
    GetNextWorkRequired (smallNet genesis) tree i nBlockTime =
      .ok (GetCompact smallLimit) := by
  obtain ⟨pindex, hp, hline⟩ := h i hi
  have hinterval : RETARGET_INTERVAL = 4 := rfl
  unfold GetNextWorkRequired
  dsimp only
  rw [hp]
  dsimp only
  rw [hline.nHeight]
  by_cases hzero : i = 0
  · rw [if_pos hzero]
    rfl
  · rw [if_neg hzero]
    by_cases hmod : i % RETARGET_INTERVAL ≠ 0
    · have htest : (smallNet genesis).TestNet = false := rfl
      rw [if_pos hmod, htest, if_neg Bool.false_ne_true, hline.nBits]
    · rw [if_neg hmod]
      rw [not_not, hinterval] at hmod
      have hstep : ∀ {j : ℕ}, j < n → tree.pprev (j + 1) = some j := by
        intro j hj
        obtain ⟨e, he, hlineE⟩ := h (j + 1) (by omega)
        rw [pprev_of_getElem? he, hlineE.pprev, if_neg (Nat.succ_ne_zero j)]
        rfl
      obtain ⟨j, rfl⟩ : ∃ j, i = j + 4 := ⟨i - 4, by omega⟩
      have hback : stepsBack tree RETARGET_INTERVAL (some (j + 4)) = some j := by
        change (((((some (j + 4)).bind tree.pprev).bind tree.pprev).bind tree.pprev).bind
          tree.pprev) = some j
        rw [Option.bind_some, hstep (by omega), Option.bind_some, hstep (by omega),
          Option.bind_some, hstep (by omega), Option.bind_some, hstep (by omega)]
      obtain ⟨first, hfirst, hlineFirst⟩ := h j (by omega)
      have hderef : tree.deref (some j) = some first := hfirst
      have hspan : ((pindex.nTime : ℤ) - (first.nTime : ℤ)) = 240 := by
        rw [hline.nTime, hlineFirst.nTime]
        omega
      have hsame : (if smallLimit < (SetCompact (GetCompact smallLimit) * 240).tdiv
          TARGET_TIMESPAN then smallLimit else
          (SetCompact (GetCompact smallLimit) * 240).tdiv TARGET_TIMESPAN) =
          0x7fffff * 2 ^ 232 := by
        rw [smallTarget]
        decide
      have hlimit : (smallNet genesis).ProofOfWorkLimit = smallLimit := rfl
      have hbits : GetCompact (0x7fffff * 2 ^ 232) = GetCompact smallLimit := by
        decide +kernel
      have hclamp : min (max (240 : ℤ) 180) 360 = 240 := by decide
      rw [hback, hderef]
      dsimp only
      rw [hspan, hclamp, hline.nBits, hlimit, hsame, hbits]

/-- Going back from an entry, no time is later than its own. -/
theorem pastTimes_le (h : LineUpTo tree n) : ∀ {fuel i : ℕ}, i ≤ n →
    ∀ nTime ∈ pastTimes tree fuel (some i), nTime ≤ 1400000000 + 60 * i
  | 0, _, _, nTime, hmem => by
      rw [pastTimes] at hmem
      exact absurd hmem List.not_mem_nil
  | fuel + 1, i, hi, nTime, hmem => by
      obtain ⟨pindex, hp, hline⟩ := h i hi
      have hderef : tree.deref (some i) = some pindex := hp
      rw [pastTimes, hderef] at hmem
      rcases List.mem_cons.mp hmem with rfl | hmem
      · rw [hline.nTime]
      · rw [hline.pprev] at hmem
        by_cases hzero : i = 0
        · rw [if_pos hzero] at hmem
          cases fuel with
          | zero =>
              rw [pastTimes] at hmem
              exact absurd hmem List.not_mem_nil
          | succ fuel =>
              have hnone : tree.deref none = none := rfl
              rw [pastTimes, hnone] at hmem
              exact absurd hmem List.not_mem_nil
        · rw [if_neg hzero] at hmem
          have := h.pastTimes_le (by omega) nTime hmem
          omega

theorem medianTimePast_lt (h : LineUpTo tree n) (hi : i ≤ n) :
    GetMedianTimePast tree i < 1400000000 + 60 * (i + 1) := by
  unfold GetMedianTimePast
  dsimp only
  rw [List.getD_eq_getElem?_getD]
  cases hget : ((pastTimes tree nMedianTimeSpan (some i)).insertionSort (· ≤ ·))[
      ((pastTimes tree nMedianTimeSpan (some i)).insertionSort (· ≤ ·)).length / 2]? with
  | none =>
      rw [Option.getD_none]
      omega
  | some nTime =>
      have hmem := (List.mem_insertionSort _).mp (List.mem_of_getElem? hget)
      have := h.pastTimes_le hi nTime hmem
      rw [Option.getD_some]
      omega

/-- A block on an entry of the chain finds its parent. -/
theorem parent {genesis : CBlock} {s : NodeState} (h : LineUpTo s.mapBlockIndex n)
    (hi : i ≤ n) : Parent genesis s (hashOfNonce (i + 1)) i (i + 1) where
  found := h.find_eq hi
  height := by
    obtain ⟨pindex, hp, hline⟩ := h i hi
    rw [hp, Option.map_some, hline.nHeight]
  bits := h.nextWorkRequired hi genesis _
  median := h.medianTimePast_lt hi

end LineUpTo

/-! ### A node on a chain -/

/-- The node has received a chain up to the height `n` and nothing else. -/
structure OnLine (s : NodeState) (t : Tick) (n : ℕ) : Prop where
  idle : Idle s t
  rest : AtRest s (List.range (n + 1))
  line : LineUpTo s.mapBlockIndex n
  length : s.mapBlockIndex.length = n + 1
  files : s.blockFiles.length = n + 1
  valid : s.setBlockIndexValid = (List.range (n + 1)).reverse
  sequence : s.nBlockSequenceId = uint32 (n + 2)
  received : ∀ pindex ∈ s.mapBlockIndex, pindex.nTimeReceived = t.nTimeMillis
  seen : s.mapFirstTimeSeen = fun i => if i ≤ n then t.nTimeMillis else 0
  best : s.pcoinsTip.hashBlock = hashOfNonce (n + 1)
  indexed : Indexed s.mapBlockIndex
  limits : LimitsRight s.mapBlockIndex s.chainActive (List.range (n + 1))

theorem nChainWork_workKey {tree : BlockTree} {p : Ptr} {pindex : CBlockIndex}
    (h : tree[p]? = some pindex) : (tree.workKey p).nChainWork = pindex.nChainWork := by
  unfold BlockTree.workKey
  rw [h]

theorem prevHash_of_getElem? {tree : BlockTree} {q : Ptr} {pindex prev : CBlockIndex}
    (hprev : pindex.pprev = some q) (hq : tree[q]? = some prev) :
    tree.prevHash pindex = some prev.hash := by
  have hderef : tree.deref (some q) = some prev := hq
  unfold BlockTree.prevHash
  rw [hprev, hderef, Option.map_some]

namespace OnLine

variable {genesis : CBlock} {s : NodeState} {t : Tick} {n : ℕ}

theorem find_new (h : OnLine s t n) {nNonce : ℕ} (hnonce : n + 1 < nNonce) :
    s.mapBlockIndex.find (hashOfNonce nNonce) = none := by
  unfold BlockTree.find
  rw [List.findIdx?_eq_none_iff]
  intro pindex hmem
  obtain ⟨i, hi⟩ := List.mem_iff_getElem?.mp hmem
  have hlt := (List.getElem?_eq_some_iff.mp hi).1
  rw [h.length] at hlt
  obtain ⟨pindex', hp', hline⟩ := h.line i (by omega)
  obtain rfl : pindex' = pindex := Option.some.inj (hp'.symm.trans hi)
  rw [hline.hash, beq_eq_false_iff_ne]
  intro heq
  have := hashOfNonce_inj heq
  omega

/-- The entry of the next block. -/
theorem newEntry_line (genesis : CBlock) (h : OnLine s t n) (hn : n + 2 < 2 ^ 32)
    {vtx : List CTransaction} {block : CBlock}
    (hblock : block = (smallBlock (n + 2) (n + 1) (hashOfNonce (n + 1)) vtx).BuildMerkleTree
      smallCrypto) (nTimeReceived nMatureCoinsSpent : ℤ) :
    LineEntry (n + 1)
      (newEntry (smallNet genesis) s block nTimeReceived nMatureCoinsSpent) := by
  obtain ⟨tip, htip, hline⟩ := h.line n (Nat.le_refl n)
  have hnew := newEntry_small genesis (h.line.find_eq (Nat.le_refl n)) htip hline hn hn hblock
    nTimeReceived nMatureCoinsSpent
  have hnSequenceId : uint32 (n + 2) = n + 2 := Nat.mod_eq_of_lt hn
  rw [h.sequence, hnSequenceId] at hnew
  exact hnew

/-- The index after the next block. -/
theorem line_addEntry (h : OnLine s t n) (block : CBlock) {pindexNew : CBlockIndex}
    (hnew : LineEntry (n + 1) pindexNew) :
    LineUpTo (addEntry s block pindexNew).mapBlockIndex (n + 1) := by
  intro i hi
  rcases Nat.lt_or_ge i (n + 1) with hlt | hge
  · exact h.line.append _ i (by omega)
  · obtain rfl : i = n + 1 := by omega
    refine ⟨pindexNew, ?_, hnew⟩
    unfold addEntry
    rw [List.getElem?_append_right h.length.le, h.length, Nat.sub_self]
    rfl

end OnLine

/-- The next block of the chain is entered in the index as `pindexNew`, and the node
has not looked at it any further. -/
structure Entered (s s₀ : NodeState) (t : Tick) (n : ℕ) (block : CBlock)
    (pindexNew : CBlockIndex) : Prop where
  idle : Idle s₀ t
  rest : AtRest s₀ (List.range (n + 1))
  line : LineUpTo s₀.mapBlockIndex (n + 1)
  entry : s₀.mapBlockIndex[n + 1]? = some pindexNew
  lineEntry : LineEntry (n + 1) pindexNew
  length : s₀.mapBlockIndex.length = n + 2
  files : s₀.blockFiles = s.blockFiles ++ [block]
  valid : s₀.setBlockIndexValid = (n + 1) :: s.setBlockIndexValid
  sequence : s₀.nBlockSequenceId = uint32 (n + 3)
  received : ∀ pindex ∈ s₀.mapBlockIndex, pindex.nTimeReceived = t.nTimeMillis
  seen : s₀.mapFirstTimeSeen = fun i => if i ≤ n + 1 then t.nTimeMillis else 0
  indexed : Indexed s₀.mapBlockIndex
  grows : Grows s.mapBlockIndex s₀.mapBlockIndex
  chain : s₀.chainActive = s.chainActive
  coins : s₀.pcoinsTip = s.pcoinsTip

namespace OnLine

variable {genesis : CBlock} {s : NodeState} {t : Tick} {n : ℕ}

/-- The times at which the heights were first seen, after the next block. -/
theorem seen_addEntry (h : OnLine s t n) (block : CBlock) {pindexNew : CBlockIndex}
    (hheight : pindexNew.nHeight = n + 1) (hreceived : pindexNew.nTimeReceived = t.nTimeMillis) :
    (addEntry s block pindexNew).mapFirstTimeSeen =
      fun i => if i ≤ n + 1 then t.nTimeMillis else 0 := by
  have hzero : (fun i => if i ≤ n then t.nTimeMillis else 0) (n + 1) = 0 :=
    if_neg (Nat.not_succ_le_self n)
  unfold addEntry
  dsimp only
  rw [h.seen, hheight, hreceived, if_pos hzero]
  funext i
  rcases Nat.lt_trichotomy i (n + 1) with hlt | rfl | hgt
  · rw [Function.update_of_ne (Nat.ne_of_lt hlt), if_pos (Nat.lt_succ_iff.mp hlt),
      if_pos hlt.le]
  · rw [Function.update_self, if_pos (Nat.le_refl _)]
  · rw [Function.update_of_ne (Nat.ne_of_gt hgt), if_neg (by omega), if_neg (by omega)]

/-- The next block enters the index above the tip. -/
theorem enter (h : OnLine s t n) {block : CBlock} {pindexNew : CBlockIndex}
    {nMatureCoinsSpent : ℤ} (hpindex : pindexNew = newEntry (smallNet genesis) s
      (block.BuildMerkleTree smallCrypto) t.nTimeMillis nMatureCoinsSpent)
    (hentry : LineEntry (n + 1) pindexNew)
    (hread : (block.BuildMerkleTree smallCrypto).readBack = block) :
    Entered s (addEntry s (block.BuildMerkleTree smallCrypto) pindexNew) t n block
      pindexNew := by
  obtain ⟨tip, htip, hline⟩ := h.line n (Nat.le_refl n)
  have hprev : pindexNew.pprev = some n := hentry.pprev
  have hreceived : pindexNew.nTimeReceived = t.nTimeMillis := by rw [hpindex]; rfl
  exact {
    idle := h.idle.addEntry _ pindexNew
    rest := h.rest.addEntry _
      (by rw [hprev]; exact ⟨tip, htip, by rw [hentry.nHeight, hline.nHeight]⟩)
    line := h.line_addEntry _ hentry
    entry := by
      unfold addEntry
      rw [List.getElem?_append_right h.length.le, h.length, Nat.sub_self]
      rfl
    lineEntry := hentry
    length := by
      unfold addEntry
      rw [List.length_append, h.length, List.length_singleton]
    files := congrArg (fun b => s.blockFiles ++ [b]) hread
    valid := congrArg (· :: s.setBlockIndexValid) h.length
    sequence := by
      unfold addEntry
      dsimp only
      rw [h.sequence]
      exact Nat.mod_add_mod (n + 2) (2 ^ 32) 1
    received := by
      intro e he
      rcases List.mem_append.mp he with he | he
      · exact h.received e he
      · rw [List.mem_singleton.mp he, hreceived]
    seen := h.seen_addEntry _ hentry.nHeight hreceived
    indexed := by
      apply h.indexed.append
      rw [hprev]
      refine ⟨tip, htip, by rw [hentry.nHeight, hline.nHeight], ?_⟩
      have hfound := congrArg CBlockIndex.pprev hpindex
      have hderef : s.mapBlockIndex.deref (s.mapBlockIndex.find
          (block.BuildMerkleTree smallCrypto).hashPrevBlock) = some tip :=
        (congrArg s.mapBlockIndex.deref (hfound.symm.trans hprev)).trans htip
      rw [hpindex]
      unfold newEntry
      dsimp only
      rw [hderef, Option.map_some, Option.getD_some]
    grows := by
      unfold Grows addEntry
      rw [List.map_append]
      exact List.prefix_append _ _
    chain := rfl
    coins := rfl }

end OnLine

theorem getLast?_range_succ (k : ℕ) : (List.range (k + 1)).getLast? = some k := by
  rw [List.range_succ, List.getLast?_concat]

namespace Entered

variable {genesis : CBlock} {s s₀ s' : NodeState} {t : Tick} {n : ℕ} {block : CBlock}
  {pindexNew : CBlockIndex} {view : CCoinsViewCache}

/-- The new entry has more work than any below it. -/
theorem worse (h : Entered s s₀ t n block pindexNew) {p : ℕ} (hp : p ≤ n) :
    s₀.worse p (n + 1) = true ∧ s₀.worse (n + 1) p = false := by
  obtain ⟨e, he, hline⟩ := h.line p (by omega)
  apply comparator_of_work_lt
  rw [nChainWork_workKey he, nChainWork_workKey h.entry, hline.nChainWork,
    h.lineEntry.nChainWork]
  omega

/-- The new entry is the best candidate. -/
theorem rbegin (h : Entered s s₀ t n block pindexNew) (hs : OnLine s t n) :
    s₀.rbegin = some (n + 1) := by
  unfold NodeState.rbegin
  rw [h.valid]
  apply best_cons
  intro p hp
  rw [hs.valid, List.mem_reverse, List.mem_range] at hp
  exact (h.worse (Nat.lt_succ_iff.mp hp)).2

theorem readBlock (h : Entered s s₀ t n block pindexNew) (hs : OnLine s t n) :
    s₀.readBlock (n + 1) = block := by
  unfold NodeState.readBlock
  rw [h.files, List.getD_eq_getElem?_getD, List.getElem?_append_right hs.files.le, hs.files,
    Nat.sub_self, List.getElem?_cons_zero, Option.getD_some]

theorem heightOf (h : Entered s s₀ t n block pindexNew) :
    s₀.mapBlockIndex.heightOf (hashOfNonce (n + 1)) = some n := by
  obtain ⟨below, hbelow, hline⟩ := h.line n (by omega)
  have hderef : s₀.mapBlockIndex.deref (some n) = some below := hbelow
  unfold BlockTree.heightOf
  rw [h.line.find_eq (by omega), hderef, Option.map_some, hline.nHeight]

theorem blockContext (h : Entered s s₀ t n block pindexNew) (nAdjustedTime : ℤ) :
    s₀.blockContext pindexNew nAdjustedTime =
      { hash := hashOfNonce (n + 2), hashPrev := some (hashOfNonce (n + 1)),
        nHeight := n + 1, nMaxBlockSize := s.chainActive.MaxBlockSize (n + 1),
        prevHeight := s₀.mapBlockIndex.heightOf, nAdjustedTime } := by
  obtain ⟨below, hbelow, hline⟩ := h.line n (by omega)
  unfold NodeState.blockContext
  rw [prevHash_of_getElem? h.lineEntry.pprev hbelow, hline.hash, h.lineEntry.hash,
    h.lineEntry.nHeight, h.chain]

/-- The node is on the longer chain once the new entry is its tip. -/
theorem onLine (h : Entered s s₀ t n block pindexNew) (hs : OnLine s t n)
    (hext : Extended (smallNet genesis) (n + 1) view s₀ s')
    (hrest : AtRest s' (List.range (n + 2)))
    (hview : view.hashBlock = hashOfNonce (n + 2)) : OnLine s' t (n + 1) := by
  have htick : s₀.ticks = fun _ => t := h.idle.ticks
  have hfixed := fixed_of_judged hext.judged
  have hgrows : Grows s.mapBlockIndex s'.mapBlockIndex := by
    have hgrows₀ := h.grows
    unfold Grows at hgrows₀ ⊢
    rw [hfixed]
    exact hgrows₀
  have hindexed : Indexed s'.mapBlockIndex := .of_fixed hfixed h.indexed
  exact {
    idle := ⟨by rw [hext.ticks, htick],
      by rw [hext.frame.mapOrphanBlocks, h.idle.orphans],
      by rw [hext.mempool, h.idle.mempool]⟩
    rest := hrest
    line := h.line.of_judged hext.judged
    length := by
      have hmap := congrArg List.length hext.judged
      rw [List.length_map, List.length_map] at hmap
      rw [hmap, h.length]
    files := by
      rw [hext.frame.blockFiles, h.files, List.length_append, hs.files]
      rfl
    valid := by
      rw [hext.valid, h.valid, hs.valid, List.range_succ (n := n + 1), List.reverse_concat]
    sequence := by rw [hext.frame.nBlockSequenceId, h.sequence]
    received := by
      intro e he
      obtain ⟨i, hi⟩ := List.mem_iff_getElem?.mp he
      obtain ⟨e₀, he₀, hsame⟩ := getElem?_of_judged hext.judged hi
      have hread := congrArg CBlockIndex.nTimeReceived hsame
      have hnTimeReceived : e₀.nTimeReceived = e.nTimeReceived := hread
      rw [← hnTimeReceived, h.received e₀ (List.mem_of_getElem? he₀)]
    seen := by rw [hext.frame.mapFirstTimeSeen, h.seen]
    best := by
      rw [hext.coins]
      split
      · exact hview
      · exact hview
    indexed := hindexed
    limits := by
      have hold : LimitsRight s'.mapBlockIndex s.chainActive (List.range (n + 1)) :=
        LimitsUpTo.grow hgrows hs.limits
      have hnew := setTip_limitsRight (smallNet genesis) hindexed hold
        hrest.active.branch hrest.active.known
        (.inl (by rw [List.range_succ (n := n + 1)]; exact List.prefix_append _ _))
      rw [getLast?_range_succ (n + 1)] at hnew
      rw [hext.active, h.chain]
      exact hnew }

end Entered

/-- The next block of the chain, if it is checked and can be connected, becomes
the tip. -/
theorem OnLine.extend {genesis : CBlock} {s : NodeState} {t : Tick} {n : ℕ}
    (h : OnLine s t n) (hn : n + 2 < 2 ^ 32) {nVersion : ℤ}
    {vout : List CTxOut} {txs : List CTransaction} {block : CBlock}
    (hblock : block = smallBlock (n + 2) (n + 1) (hashOfNonce (n + 1))
      (coinbaseTx nVersion (n + 1) vout :: txs))
    (hfinal : ∀ tx ∈ txs, tx.nLockTime = 0)
    (hcheck : CheckBlock (smallNet genesis) t.nAdjustedTime block
      s.chainActive.TipMaxBlockSize true true = .ok (block.BuildMerkleTree smallCrypto))
    {nMatureCoinsSpent : ℤ}
    (hcount : CountMatureCoins s block (some n) (n + 1) = .ok nMatureCoinsSpent)
    {view : CCoinsViewCache} {vtxundo : CBlockUndo}
    (hconnect : ∀ prevHeight : uint256 → Option ℕ,
      prevHeight (hashOfNonce (n + 1)) = some n →
      ConnectBlock (smallNet genesis)
        { hash := hashOfNonce (n + 2), hashPrev := some (hashOfNonce (n + 1)),
          nHeight := n + 1, nMaxBlockSize := s.chainActive.MaxBlockSize (n + 1), prevHeight,
          nAdjustedTime := t.nAdjustedTime } block s.pcoinsTip false = .ok (view, vtxundo))
    (fuel : ℕ) (fFrom : Bool) :
    ∃ s', ProcessBlock (smallNet genesis) (fuel + 1) fFrom block s = .done () s' ∧
      OnLine s' t (n + 1) ∧
      Extended (smallNet genesis) (n + 1) view
        (addEntry s (block.BuildMerkleTree smallCrypto) (newEntry (smallNet genesis) s
          (block.BuildMerkleTree smallCrypto) t.nTimeMillis nMatureCoinsSpent)) s' ∧
      s'.pcoinsTip = if t.fFlush then view.Flush else view := by
  have hentry := h.newEntry_line genesis hn
    (congrArg (CBlock.BuildMerkleTree smallCrypto) hblock) t.nTimeMillis nMatureCoinsSpent
  have hprev := hentry.pprev
  have hentered := h.enter rfl hentry (by rw [hblock]; rfl)
  obtain ⟨-, hdone⟩ := processBlock_smallBlock (fuel + 1) fFrom h.idle
    (h.line.parent (Nat.le_refl n)) hn (h.find_new (by omega)) hfinal hblock hcheck
  have hprocess := hdone nMatureCoinsSpent
  clear hdone
  generalize newEntry (smallNet genesis) s (block.BuildMerkleTree smallCrypto) t.nTimeMillis
    nMatureCoinsSpent = pindexNew at hentry hprev hentered hprocess ⊢
  generalize addEntry s (block.BuildMerkleTree smallCrypto) pindexNew = s₀ at *
  have htick : s₀.ticks = fun _ => t := hentered.idle.ticks
  have hcontext := hentered.blockContext t.nAdjustedTime
  have hrun : ConnectBlock (smallNet genesis)
      (s₀.blockContext pindexNew (s₀.ticks 0).nAdjustedTime) (s₀.readBlock (n + 1))
      s₀.pcoinsTip false = .ok (view, vtxundo) := by
    rw [htick, hcontext, hentered.readBlock h, hentered.coins]
    exact hconnect _ hentered.heightOf
  obtain ⟨s', hactivate, hext, hrest⟩ := activate_extends hentered.rest hentered.entry
    (hprev.trans (getLast?_range_succ n).symm) hentry.sound (hentered.rbegin h)
    (fun p hp => by
      obtain rfl := Option.some.inj ((getLast?_range_succ n).symm.trans hp)
      exact (hentered.worse (Nat.le_refl n)).1) hrun hentered.idle.mempool fuel
  rw [← List.range_succ] at hrest
  have hview : view.hashBlock = hashOfNonce (n + 2) := by
    obtain ⟨_, _, view₁, _, _, _, _, hbest⟩ := connectBlock_views hrun
    rw [hbest, htick, hcontext]
    rfl
  refine ⟨s', ?_, hentered.onLine h hext hrest hview, hext, by rw [hext.coins, htick]⟩
  apply hprocess s' hcount hactivate
  · rw [hext.frame.mapOrphanBlocks, hentered.idle.orphans]
  · obtain ⟨e, he⟩ := hrest.entry (getLast?_range_succ (n + 1))
    rw [hrest.active.tip_eq, getLast?_range_succ (n + 1)]
    exact Option.isSome_iff_exists.mpr ⟨e, he⟩

/-! ### The first block -/

/-- What the outputs of a coinbase have to satisfy so that its block is accepted at
any height. -/
structure MinedOutputs (vout : List CTxOut) (nValueOut : ℤ) : Prop where
  plain : PlainOutputs vout
  ops : 221 + (vout.map fun txout => txout.scriptPubKey.GetSigOpCount).sum ≤ 20000
  value : getValueOutFrom 0 vout = some nValueOut

/-- The view of the outputs of the first coinbase. -/
def firstView (vout : List CTxOut) : CCoinsViewCache :=
  (CCoinsViewCache.empty.SetCoins (1 + 2 ^ 32)
    (CCoins.ofTx (coinbaseTx 1 0 vout) 0)).SetBestBlock (hashOfNonce 1)

theorem sigOps_le_of_limit {nMaxBlockSize : ℕ} (h : MIN_MAX_BLOCK_SIZE ≤ nMaxBlockSize) :
    20000 ≤ MaxBlockSizeToSigOps nMaxBlockSize := by
  unfold MIN_MAX_BLOCK_SIZE at h
  unfold MaxBlockSizeToSigOps
  omega

/-- Checking and connecting a block that has nothing but a coinbase. -/
theorem connectBlock_mined {genesis : CBlock} {vout : List CTxOut} {nValueOut : ℤ}
    (h : MinedOutputs vout nValueOut) {i : ℕ} (hi : i + 1 < 2 ^ 32) {hashPrev : uint256}
    {ctx : BlockContext} {view : CCoinsViewCache} (hheight : ctx.nHeight = i)
    (hlimit : MIN_MAX_BLOCK_SIZE ≤ ctx.nMaxBlockSize)
    (htime : (1400000000 + 60 * i : ℤ) ≤ ctx.nAdjustedTime)
    (hprev : ctx.hashPrev.getD 0 = view.hashBlock)
    (hfresh : view.HaveCoins (i + 1 + 2 ^ 32) = false)
    (hamount : i = 0 ∧ genesis.GetHash smallCrypto = hashOfNonce 1 ∨ nValueOut ≤ 50 ∧ i ≠ 0) :
    ConnectBlock (smallNet genesis) ctx
        (smallBlock (i + 1) i hashPrev [coinbaseTx (i + 1) i vout]) view false =
      .ok ((view.SetCoins (i + 1 + 2 ^ 32)
        (CCoins.ofTx (coinbaseTx (i + 1) i vout) i)).SetBestBlock ctx.hash, []) := by
  have hmax := sigOps_le_of_limit hlimit
  have hops := h.ops
  have hcount := (sigOpCount_coinbaseTx (i + 1) i vout).2
  have htxid : (coinbaseTx (i + 1) i vout).GetHash smallCrypto = i + 1 + 2 ^ 32 :=
    getHash_coinbaseTx hi i vout
  have hcheck := checkBlock_coinbase genesis h.plain hi i hashPrev (i + 1) hlimit htime
    (by omega)
  have hvalue : valueOut (coinbaseTx (i + 1) i vout) = .ok nValueOut := by
    have hget : (coinbaseTx (i + 1) i vout).GetValueOut = some nValueOut := h.value
    unfold valueOut
    rw [hget]
  subst hheight
  have hamount' : nValueOut ≤ (smallNet genesis).GetBlockValue ctx.nHeight 0
        (smallBlock (ctx.nHeight + 1) ctx.nHeight hashPrev
          [coinbaseTx (ctx.nHeight + 1) ctx.nHeight vout]).IsPoKBlock ∨
      (smallBlock (ctx.nHeight + 1) ctx.nHeight hashPrev
          [coinbaseTx (ctx.nHeight + 1) ctx.nHeight vout]).GetHash
        (smallNet genesis).crypto = (smallNet genesis).HashGenesisBlock := by
    rcases hamount with ⟨hzero, hgenesis⟩ | ⟨hle, hne⟩
    · right
      have hhash : (smallBlock (ctx.nHeight + 1) ctx.nHeight hashPrev
          [coinbaseTx (ctx.nHeight + 1) ctx.nHeight vout]).GetHash smallCrypto =
          hashOfNonce (ctx.nHeight + 1) := getHash_smallBlock hi _ _ _
      rw [hzero] at hhash ⊢
      exact hhash.trans hgenesis.symm
    · left
      unfold Config.GetBlockValue
      rw [if_neg hne]
      exact hle
  have hcrypto : (smallNet genesis).crypto = smallCrypto := rfl
  rw [connectBlock_coinbase hcheck rfl (isCoinBase_coinbaseTx _ _ _) hprev _ (by omega)
    hvalue hamount', hcrypto, htxid]
  rw [hcrypto, htxid]
  exact hfresh

/-- The entry of the first block. -/
theorem newEntry_genesis (vout : List CTxOut) (ticks : ℕ → Tick)
    (nTimeReceived nMatureCoinsSpent : ℤ) :
    LineEntry 0 (newEntry (smallNet (smallGenesis vout)) (.initial ticks)
      ((smallGenesis vout).BuildMerkleTree smallCrypto) nTimeReceived nMatureCoinsSpent) := by
  have hwork : ((smallGenesis vout).BuildMerkleTree smallCrypto).GetBlockWork = 2 := by
    have hnBits : ((smallGenesis vout).BuildMerkleTree smallCrypto).nBits =
        GetCompact smallLimit := rfl
    unfold CBlockHeader.GetBlockWork
    rw [hnBits, smallTarget]
    decide
  have hnone : (NodeState.initial ticks).mapBlockIndex.find
      ((smallGenesis vout).BuildMerkleTree smallCrypto).hashPrevBlock = none := rfl
  constructor
  · exact getHash_smallGenesis vout
  · exact hnone
  · unfold newEntry
    dsimp only
    rw [hnone]
    rfl
  · rfl
  · rfl
  · unfold newEntry
    dsimp only
    rw [hnone, hwork]
    rfl
  · rfl
  · rfl

/-- The first block is entered in an empty index as `pindexNew`, and the node has not looked at
it any further. -/
structure FirstEntered (s₀ : NodeState) (t : Tick) (vout : List CTxOut)
    (pindexNew : CBlockIndex) : Prop where
  idle : Idle s₀ t
  rest : AtRest s₀ []
  lineEntry : LineEntry 0 pindexNew
  tree : s₀.mapBlockIndex = [pindexNew]
  files : s₀.blockFiles = [smallGenesis vout]
  valid : s₀.setBlockIndexValid = [0]
  sequence : s₀.nBlockSequenceId = uint32 2
  received : pindexNew.nTimeReceived = t.nTimeMillis
  seen : s₀.mapFirstTimeSeen = fun i => if i ≤ 0 then t.nTimeMillis else 0
  indexed : Indexed s₀.mapBlockIndex
  chain : s₀.chainActive = .empty
  coins : s₀.pcoinsTip = .empty

theorem firstEntered (vout : List CTxOut) (t : Tick) {pindexNew : CBlockIndex}
    (hnew : pindexNew = newEntry (smallNet (smallGenesis vout)) (.initial fun _ => t)
      ((smallGenesis vout).BuildMerkleTree smallCrypto) t.nTimeMillis 0) :
    FirstEntered (addEntry (.initial fun _ => t) ((smallGenesis vout).BuildMerkleTree smallCrypto)
      pindexNew) t vout pindexNew := by
  have hidle : Idle (.initial fun _ => t) t := ⟨rfl, rfl, rfl⟩
  have hstart : AtRest (.initial fun _ => t) [] :=
    ⟨⟨fun hp => (nomatch hp), fun hp => (nomatch hp)⟩, path_empty _, path_empty _,
      fun htip => (nomatch htip)⟩
  have hentry : LineEntry 0 pindexNew := hnew ▸ newEntry_genesis vout _ t.nTimeMillis 0
  have hreceived : pindexNew.nTimeReceived = t.nTimeMillis := by rw [hnew]; rfl
  have hrest : AtRest (addEntry (.initial fun _ => t)
      ((smallGenesis vout).BuildMerkleTree smallCrypto) pindexNew) [] := by
    apply hstart.addEntry
    rw [hentry.pprev]
    exact ⟨rfl, hentry.nHeight⟩
  have hindexed : Indexed ([] ++ [pindexNew]) := by
    apply Indexed.append ⟨hstart.linked, fun hp => (nomatch hp)⟩
    rw [hentry.pprev]
    exact ⟨rfl, hentry.nHeight, by rw [hnew]; exact Nat.zero_add _⟩
  clear hnew
  exact {
    idle := hidle.addEntry _ _
    rest := hrest
    lineEntry := hentry
    tree := rfl
    files := rfl
    valid := rfl
    sequence := rfl
    received := hreceived
    seen := by
      have hnone : (NodeState.initial fun _ => t).mapFirstTimeSeen = fun _ => 0 := rfl
      unfold addEntry
      dsimp only
      rw [hnone, hentry.nHeight, hreceived, if_pos rfl]
      funext i
      cases i with
      | zero => rw [Function.update_self, if_pos (Nat.le_refl 0)]
      | succ i =>
          rw [Function.update_of_ne (Nat.succ_ne_zero i), if_neg (Nat.not_succ_le_zero i)]
    indexed := hindexed
    chain := rfl
    coins := rfl }

namespace FirstEntered

variable {s₀ s' : NodeState} {t : Tick} {vout : List CTxOut} {pindexNew : CBlockIndex}
  {nValueOut : ℤ}

theorem entry (h : FirstEntered s₀ t vout pindexNew) : s₀.mapBlockIndex[0]? = some pindexNew := by
  rw [h.tree]
  rfl

theorem rbegin (h : FirstEntered s₀ t vout pindexNew) : s₀.rbegin = some 0 := by
  unfold NodeState.rbegin
  rw [h.valid]
  rfl

/-- The first block can be connected. -/
theorem connects (h : FirstEntered s₀ t vout pindexNew) (hvout : MinedOutputs vout nValueOut)
    (htime : 1400000000 ≤ t.nAdjustedTime) :
    ConnectBlock (smallNet (smallGenesis vout))
      (s₀.blockContext pindexNew (s₀.ticks 0).nAdjustedTime) (s₀.readBlock 0)
      s₀.pcoinsTip false = .ok (firstView vout, []) := by
  have hread : s₀.readBlock 0 = smallGenesis vout := by
    unfold NodeState.readBlock
    rw [h.files]
    rfl
  have hcontext : s₀.blockContext pindexNew t.nAdjustedTime =
      { hash := hashOfNonce 1, hashPrev := none, nHeight := 0,
        nMaxBlockSize := MIN_MAX_BLOCK_SIZE, prevHeight := s₀.mapBlockIndex.heightOf,
        nAdjustedTime := t.nAdjustedTime } := by
    unfold NodeState.blockContext BlockTree.prevHash
    rw [h.lineEntry.hash, h.lineEntry.pprev, h.lineEntry.nHeight, h.chain]
    rfl
  rw [h.idle.ticks, hcontext, hread, h.coins]
  exact connectBlock_mined hvout (by decide) rfl (Nat.le_refl _) htime rfl rfl
    (.inl ⟨rfl, getHash_smallGenesis vout⟩)

theorem judged (h : FirstEntered s₀ t vout pindexNew)
    (hext : Extended (smallNet (smallGenesis vout)) 0 (firstView vout) s₀ s') :
    ∀ e ∈ s'.mapBlockIndex, e.judged = pindexNew.judged := by
  intro e he
  obtain ⟨i, hi⟩ := List.mem_iff_getElem?.mp he
  obtain ⟨e₀, he₀, hsame⟩ := getElem?_of_judged hext.judged hi
  have hmem := List.mem_of_getElem? he₀
  rw [h.tree, List.mem_singleton] at hmem
  rw [← hsame, hmem]

/-- The node is on the chain once the first entry is its tip. -/
theorem onLine (h : FirstEntered s₀ t vout pindexNew)
    (hext : Extended (smallNet (smallGenesis vout)) 0 (firstView vout) s₀ s')
    (hrest : AtRest s' [0]) : OnLine s' t 0 := by
  have hline : LineUpTo s₀.mapBlockIndex 0 := by
    intro i hi
    rw [Nat.le_zero.mp hi]
    exact ⟨pindexNew, h.entry, h.lineEntry⟩
  have hindexed : Indexed s'.mapBlockIndex := .of_fixed (fixed_of_judged hext.judged) h.indexed
  exact {
    idle := ⟨by rw [hext.ticks, h.idle.ticks],
      by rw [hext.frame.mapOrphanBlocks, h.idle.orphans],
      by rw [hext.mempool, h.idle.mempool]⟩
    rest := hrest
    line := hline.of_judged hext.judged
    length := by
      have hmap := congrArg List.length hext.judged
      rw [List.length_map, List.length_map, h.tree] at hmap
      exact hmap
    files := by
      rw [hext.frame.blockFiles, h.files]
      rfl
    valid := by
      rw [hext.valid, h.valid]
      rfl
    sequence := by rw [hext.frame.nBlockSequenceId, h.sequence]
    received := by
      intro e he
      have hread := congrArg CBlockIndex.nTimeReceived (h.judged hext e he)
      exact hread.trans h.received
    seen := by rw [hext.frame.mapFirstTimeSeen, h.seen]
    best := by
      rw [hext.coins]
      split
      · rfl
      · rfl
    indexed := hindexed
    limits := by
      rw [hext.active, h.chain]
      exact setTip_limitsRight _ hindexed (limitsRight_empty _) hrest.active.branch
        hrest.active.known (.inl List.nil_prefix) }

end FirstEntered

/-- A node that starts with nothing is on the chain at its first block. -/
theorem onLine_started {vout : List CTxOut} {nValueOut : ℤ} (h : MinedOutputs vout nValueOut)
    {t : Tick} (htime : 1400000000 ≤ t.nAdjustedTime) (fuel : ℕ) :
    ∃ s, InitBlockIndex (smallNet (smallGenesis vout)) (fuel + 1) (.initial fun _ => t) =
        .done () s ∧
      OnLine s t 0 ∧
      s.pcoinsTip = (if t.fFlush then (firstView vout).Flush else firstView vout) ∧
      sizeAt s.mapBlockIndex [0] 0 = (smallGenesis vout).GetSerializeSize ∧
      ∀ pindex ∈ s.mapBlockIndex, pindex.nMatureCoinsSpent = 0 := by
  obtain ⟨pindexNew, hnew⟩ : ∃ pindexNew, pindexNew = newEntry (smallNet (smallGenesis vout))
      (.initial fun _ => t) ((smallGenesis vout).BuildMerkleTree smallCrypto) t.nTimeMillis 0 :=
    ⟨_, rfl⟩
  have hnSize : pindexNew.nSize = (smallGenesis vout).GetSerializeSize := by rw [hnew]; rfl
  have hmature : pindexNew.nMatureCoinsSpent = 0 := by rw [hnew]; rfl
  have hentered := firstEntered vout t hnew
  have hadd : ∀ s', ActivateBestChain (smallNet (smallGenesis vout)) (fuel + 1)
      (addEntry (.initial fun _ => t) ((smallGenesis vout).BuildMerkleTree smallCrypto)
        pindexNew) = .done () s' →
      InitBlockIndex (smallNet (smallGenesis vout)) (fuel + 1) (.initial fun _ => t) =
        .done () s' := by
    rw [hnew]
    exact fun s' hactivate => addToBlockIndex_run ⟨rfl, rfl, rfl⟩ rfl rfl hactivate
      (getTxHash_buildMerkleTree rfl)
  generalize addEntry (.initial fun _ => t) ((smallGenesis vout).BuildMerkleTree smallCrypto)
    pindexNew = s₀ at hentered hadd
  obtain ⟨s', hactivate, hext, hrest⟩ := activate_extends hentered.rest hentered.entry
    hentered.lineEntry.pprev hentered.lineEntry.sound hentered.rbegin
    (fun p hp => (nomatch hp)) (hentered.connects h htime) hentered.idle.mempool fuel
  refine ⟨s', hadd s' hactivate, hentered.onLine hext hrest, ?_, ?_, ?_⟩
  · rw [hext.coins, hentered.idle.ticks]
  · obtain ⟨pindex', hp', hsame⟩ := getElem?_of_judged hext.judged.symm hentered.entry
    have hderef : s'.mapBlockIndex.deref (some 0) = some pindex' := hp'
    have hsize : pindex'.nSize = pindexNew.nSize := by
      have hread := congrArg CBlockIndex.nSize hsame
      exact hread
    unfold sizeAt
    rw [List.getElem?_cons_zero, hderef, Option.map_some, Option.getD_some, hsize, hnSize]
  · intro e he
    have hread := congrArg CBlockIndex.nMatureCoinsSpent (hentered.judged hext e he)
    exact hread.trans hmature

/-! ### Coinbases that leave nothing -/

theorem readBack_readBack (coins : CCoins) : coins.readBack.readBack = coins.readBack := by
  have hnorm : coins.readBack.vout.map (fun txout =>
      if txout.IsNull then CTxOut.null else txout) = coins.readBack.vout := by
    have hid : ∀ txout ∈ coins.readBack.vout,
        (if txout.IsNull then CTxOut.null else txout) = id txout := by
      intro txout hmem
      split
      · next hnull => exact (CCoins.canonical_readBack coins txout hmem hnull).symm
      · rfl
    rw [List.map_congr_left hid, List.map_id]
  have hdrop : coins.readBack.vout.rdropWhile CTxOut.IsNull = coins.readBack.vout :=
    List.rdropWhile_idempotent _ _
  have hversion : varInt (varInt coins.nVersion) = varInt coins.nVersion := by
    unfold varInt
    split
    · rfl
    · rw [if_pos (Int.emod_nonneg _ (by decide))]
  have hvout : coins.readBack.readBack.vout = coins.readBack.vout := by
    unfold CCoins.readBack CCoins.Cleanup at hnorm hdrop ⊢
    dsimp only at hnorm hdrop ⊢
    rw [hnorm, hdrop]
  have hparts : coins.readBack.readBack =
      { coins.readBack with
        vout := coins.readBack.readBack.vout
        nVersion := varInt (varInt coins.nVersion) } := rfl
  rw [hparts, hvout, hversion]
  rfl

theorem isPruned_readBack (coins : CCoins) : coins.readBack.IsPruned = coins.IsPruned := by
  have hiff : coins.readBack.IsPruned = true ↔ coins.IsPruned = true := by
    rw [CCoins.isPruned_iff, CCoins.isPruned_iff]
    apply forall_congr'
    intro n
    rw [← CCoins.output_isSome, ← CCoins.output_isSome, CCoins.output_readBack]
  cases hpruned : coins.IsPruned with
  | true => exact hiff.mpr hpruned
  | false =>
      apply Bool.eq_false_of_not_eq_true
      rw [hiff, hpruned]
      exact Bool.false_ne_true

/-- Flushing twice is flushing once. -/
theorem flush_flush (view : CCoinsViewCache) : view.Flush.Flush = view.Flush := by
  have hcoins : view.Flush.Flush.coins = view.Flush.coins := by
    funext txid
    unfold CCoinsViewCache.Flush
    dsimp only
    cases view.coins txid with
    | none => rfl
    | some coins =>
        dsimp only
        by_cases hpruned : coins.IsPruned = true
        · rw [if_pos hpruned]
        · rw [if_neg hpruned]
          dsimp only
          rw [isPruned_readBack, if_neg hpruned, readBack_readBack]
  exact congrArg (CCoinsViewCache.mk view.hashBlock) hcoins

theorem flush_coins_congr {view view' : CCoinsViewCache} {txid : uint256}
    (h : view.coins txid = view'.coins txid) :
    view.Flush.coins txid = view'.Flush.coins txid := by
  unfold CCoinsViewCache.Flush
  dsimp only
  rw [h]

/-- Nothing is left of a pruned entry after a flush. -/
theorem flush_setCoins_pruned {view : CCoinsViewCache} {txid : uint256} {coins : CCoins}
    (hclean : view.Flush = view) (hnone : view.coins txid = none)
    (hpruned : coins.IsPruned = true) (hash : uint256) :
    ((view.SetCoins txid coins).SetBestBlock hash).Flush = view.SetBestBlock hash := by
  have hcoins : ((view.SetCoins txid coins).SetBestBlock hash).Flush.coins =
      view.coins := by
    funext other
    by_cases hother : other = txid
    · rw [hother, hnone]
      unfold CCoinsViewCache.Flush CCoinsViewCache.SetBestBlock CCoinsViewCache.SetCoins
      dsimp only
      rw [Function.update_self]
      dsimp only
      rw [if_pos hpruned]
    · have hkeep : ((view.SetCoins txid coins).SetBestBlock hash).coins other =
          view.coins other := Function.update_of_ne hother _ _
      have hsame := congrArg (fun v : CCoinsViewCache => v.coins other) hclean
      exact (flush_coins_congr hkeep).trans hsame
  exact congrArg (CCoinsViewCache.mk hash) hcoins

theorem flush_coins_none {view : CCoinsViewCache} {txid : uint256}
    (h : view.coins txid = none) : view.Flush.coins txid = none := by
  unfold CCoinsViewCache.Flush
  dsimp only
  rw [h]

theorem firstView_coins_ne (vout : List CTxOut) {txid : uint256} (h : txid ≠ 1 + 2 ^ 32) :
    (firstView vout).coins txid = none := by
  unfold firstView
  rw [CCoinsViewCache.coins_setBestBlock, CCoinsViewCache.coins_setCoins_ne _ h]
  rfl

/-- A coinbase with one output that nobody can spend. -/
def deadOuts (script : CScript) : List CTxOut := [⟨0, script⟩]

theorem isPruned_deadOuts {script : CScript} (h : script.IsUnspendable = true)
    (nVersion : ℤ) (nHeight : ℕ) :
    (CCoins.ofTx (coinbaseTx nVersion nHeight (deadOuts script)) nHeight).IsPruned =
      true := by
  have hclear : CCoins.clearUnspendable ⟨0, script⟩ = CTxOut.null := if_pos h
  have hvout : (CCoins.ofTx (coinbaseTx nVersion nHeight (deadOuts script)) nHeight).vout =
      [CCoins.clearUnspendable ⟨0, script⟩].rdropWhile CTxOut.IsNull := rfl
  unfold CCoins.IsPruned
  rw [hvout, hclear]
  rfl

/-- After a first block, blocks whose coinbases leave nothing. -/
def deadLine (vout : List CTxOut) (script : CScript) (i : ℕ) : List CTxOut :=
  if i = 0 then vout else deadOuts script

/-- The outputs of the first coinbase, as the block number `n` leaves them. -/
def deadView (vout : List CTxOut) (n : ℕ) : CCoinsViewCache :=
  (firstView vout).Flush.SetBestBlock (hashOfNonce (n + 1))

theorem deadView_clean (vout : List CTxOut) (n : ℕ) :
    (deadView vout n).Flush = deadView vout n :=
  congrArg (fun view : CCoinsViewCache => view.SetBestBlock (hashOfNonce (n + 1)))
    (flush_flush (firstView vout))

theorem setBestBlock_setBestBlock (view : CCoinsViewCache) (hash hash' : uint256) :
    (view.SetBestBlock hash).SetBestBlock hash' = view.SetBestBlock hash' := rfl

theorem deadView_next (vout : List CTxOut) (n : ℕ) :
    (deadView vout n).SetBestBlock (hashOfNonce (n + 2)) = deadView vout (n + 1) := by
  unfold deadView
  rw [setBestBlock_setBestBlock]

theorem deadView_coins_none (vout : List CTxOut) (n : ℕ) {txid : uint256}
    (h : txid ≠ 1 + 2 ^ 32) : (deadView vout n).coins txid = none := by
  have hnone := flush_coins_none (firstView_coins_ne vout h)
  exact hnone

theorem OnLine.maxBlockSize_ge {s : NodeState} {t : Tick} {n : ℕ} (h : OnLine s t n) :
    MIN_MAX_BLOCK_SIZE ≤ s.chainActive.MaxBlockSize (n + 1) := by
  rw [h.limits.maxBlockSize_eq (by rw [List.length_range])]
  exact min_le_limitOfPeriod _ _

theorem OnLine.tipMaxBlockSize_eq {s : NodeState} {t : Tick} {n : ℕ} (h : OnLine s t n) :
    s.chainActive.TipMaxBlockSize = s.chainActive.MaxBlockSize (n + 1) := by
  unfold CChain.TipMaxBlockSize
  rw [h.rest.active.length_eq, List.length_range]

theorem countMatureCoins_coinbase (s : NodeState) {block : CBlock} {coinbase : CTransaction}
    (h : block.vtx = [coinbase]) (pprev : Option Ptr) (nHeight : ℕ) :
    CountMatureCoins s block pprev nHeight = .ok 0 := by
  have hnone : inputsAfterFirst block = [] := by
    unfold inputsAfterFirst
    rw [h]
    rfl
  unfold CountMatureCoins
  rw [hnone]
  exact ite_self _

/-- The state of a node that has received the blocks of a chain, none of which spends
anything. -/
structure HasReceived (outs : ℕ → List CTxOut) (s : NodeState) (t : Tick) (n : ℕ) : Prop
    extends OnLine s t n where
  sizes : ∀ i ≤ n, sizeAt s.mapBlockIndex (List.range (n + 1)) i =
    (lineBlock outs i).GetSerializeSize
  mature : ∀ pindex ∈ s.mapBlockIndex, pindex.nMatureCoinsSpent = 0

/-- The sizes of the blocks before are the same after an extension. -/
theorem HasReceived.next {outs : ℕ → List CTxOut} {s s' : NodeState} {t : Tick} {n : ℕ}
    (h : HasReceived outs s t n) (hline : OnLine s' t (n + 1)) {pindexNew : CBlockIndex}
    (hfixed : s'.mapBlockIndex.map CBlockIndex.fixed =
      (s.mapBlockIndex ++ [pindexNew]).map CBlockIndex.fixed)
    (hsize : pindexNew.nSize = (lineBlock outs (n + 1)).GetSerializeSize)
    (hmature : pindexNew.nMatureCoinsSpent = 0) : HasReceived outs s' t (n + 1) := by
  have hspent : ∀ pindex ∈ s'.mapBlockIndex, pindex.nMatureCoinsSpent = 0 := by
    intro pindex hmem
    obtain ⟨p, hp⟩ := List.mem_iff_getElem?.mp hmem
    obtain ⟨pindex', hp', hsame⟩ := getElem?_of_fixed hfixed hp
    have hread : pindex'.nMatureCoinsSpent = pindex.nMatureCoinsSpent := by
      have heq := congrArg CBlockIndex.nMatureCoinsSpent hsame
      exact heq
    rw [← hread]
    rcases List.mem_append.mp (List.mem_of_getElem? hp') with hold | hnew
    · exact h.mature pindex' hold
    · rw [List.mem_singleton.mp hnew, hmature]
  refine ⟨hline, fun i hi => ?_, hspent⟩
  have hgrows : Grows s.mapBlockIndex s'.mapBlockIndex := by
    unfold Grows
    rw [hfixed, List.map_append]
    exact List.prefix_append _ _
  rcases Nat.lt_or_ge i (n + 1) with hlt | hge
  · have hprefix : List.range (n + 1) <+: List.range (n + 2) := by
      rw [List.range_succ (n := n + 1)]
      exact List.prefix_append _ _
    rw [← sizeAt_eq_of_prefixes hprefix (by rw [List.length_range]; exact hlt),
      hgrows.sizeAt_eq h.rest.active.known, h.sizes i (by omega)]
  · obtain rfl : i = n + 1 := by omega
    obtain ⟨pindex, hp, _⟩ := hline.line (n + 1) (Nat.le_refl _)
    obtain ⟨pindex', hp', hsame⟩ := getElem?_of_fixed hfixed hp
    have hnew : (s.mapBlockIndex ++ [pindexNew])[n + 1]? = some pindexNew := by
      rw [List.getElem?_append_right h.length.le, h.length, Nat.sub_self]
      rfl
    obtain rfl := Option.some.inj (hnew.symm.trans hp')
    have hread : pindexNew.nSize = pindex.nSize := by
      have heq := congrArg CBlockIndex.nSize hsame
      exact heq
    have hderef : s'.mapBlockIndex.deref (some (n + 1)) = some pindex := hp
    unfold sizeAt
    rw [List.getElem?_range (by omega), hderef, Option.map_some, Option.getD_some, ← hread,
      hsize]

theorem nMatureCoinsSpent_newEntry (cfg : Config) (s : NodeState) (block : CBlock)
    (nTimeReceived nMatureCoinsSpent : ℤ) :
    (newEntry cfg s block nTimeReceived nMatureCoinsSpent).nMatureCoinsSpent =
      nMatureCoinsSpent := rfl

theorem nSize_newEntry (cfg : Config) (s : NodeState) (block : CBlock) (crypto : Crypto)
    (nTimeReceived nMatureCoinsSpent : ℤ) :
    (newEntry cfg s (block.BuildMerkleTree crypto) nTimeReceived nMatureCoinsSpent).nSize =
      block.GetSerializeSize := rfl

/-- A block that comes without a Merkle tree is processed as it is. -/
theorem Reachable.received {cfg : Config} {s s' : NodeState} (h : Reachable cfg s)
    {fuel : ℕ} {fFrom : Bool} {block : CBlock} (hback : block.readBack = block)
    (hprocess : ProcessBlock cfg fuel fFrom block s = .done () s') : Reachable cfg s' := by
  have hhandle : handle cfg (.block fuel fFrom block) s = .done () s' := by
    have hcall : handle cfg (.block fuel fFrom block) s =
        ProcessBlock cfg fuel fFrom block.readBack s := rfl
    rw [hcall, hback, hprocess]
  exact .step h (.done hhandle)

/-- A node that flushes its coins after every block receives a first block and then
blocks whose coinbases leave nothing: it can be at any height, and the outputs are
those of the first coinbase. -/
theorem reachable_deadLine {vout : List CTxOut} {script : CScript} {nValueOut : ℤ}
    (hfirst : MinedOutputs vout nValueOut) (hdead : MinedOutputs (deadOuts script) 0)
    (hscript : script.IsUnspendable = true) {t : Tick} (hflush : t.fFlush = true) :
    ∀ n : ℕ, n + 1 < 2 ^ 32 → (1400000000 + 60 * n : ℤ) ≤ t.nAdjustedTime →
      ∃ s, Reachable (smallNet (smallGenesis vout)) s ∧
        HasReceived (deadLine vout script) s t n ∧ s.pcoinsTip = deadView vout n
  | 0, _, htime => by
      obtain ⟨s, hinit, hline, hcoins, hsize, hmature⟩ := onLine_started hfirst
        (t := t) (by omega) 0
      rw [if_pos hflush] at hcoins
      refine ⟨s, .init hinit, ⟨hline, fun i hi => ?_, hmature⟩, hcoins⟩
      rw [Nat.le_zero.mp hi]
      exact hsize
  | n + 1, hn, htime => by
      obtain ⟨s, hreach, hline, hcoins⟩ := reachable_deadLine hfirst hdead hscript hflush n
        (by omega) (by push_cast at htime ⊢; omega)
      have hlimit := hline.maxBlockSize_ge
      have hops := sigOps_le_of_limit hlimit
      have hblock : lineBlock (deadLine vout script) (n + 1) =
          smallBlock (n + 2) (n + 1) (hashOfNonce (n + 1))
            [coinbaseTx ((n + 1 : ℕ) + 1) (n + 1) (deadOuts script)] := rfl
      have hnonce : n + 2 < 2 ^ 32 := hn
      have hcheck := checkBlock_coinbase (smallGenesis vout) hdead.plain hnonce (n + 1)
        (hashOfNonce (n + 1)) ((n + 1 : ℕ) + 1) hlimit htime (hdead.ops.trans hops)
      have hne : n + 1 + 1 + 2 ^ 32 ≠ 1 + 2 ^ 32 := by omega
      have hnone : (deadView vout n).coins (n + 1 + 1 + 2 ^ 32) = none :=
        deadView_coins_none vout n hne
      have hfresh : s.pcoinsTip.HaveCoins (n + 1 + 1 + 2 ^ 32) = false := by
        rw [hcoins]
        unfold CCoinsViewCache.HaveCoins
        rw [hnone]
        rfl
      have hconnect : ∀ prevHeight : uint256 → Option ℕ,
          prevHeight (hashOfNonce (n + 1)) = some n →
          ConnectBlock (smallNet (smallGenesis vout))
            { hash := hashOfNonce (n + 2), hashPrev := some (hashOfNonce (n + 1)),
              nHeight := n + 1, nMaxBlockSize := s.chainActive.MaxBlockSize (n + 1),
              prevHeight, nAdjustedTime := t.nAdjustedTime }
            (lineBlock (deadLine vout script) (n + 1)) s.pcoinsTip false =
          .ok ((s.pcoinsTip.SetCoins (n + 1 + 1 + 2 ^ 32)
            (CCoins.ofTx (coinbaseTx ((n + 1 : ℕ) + 1) (n + 1) (deadOuts script))
              (n + 1))).SetBestBlock (hashOfNonce (n + 2)), []) := by
        intro prevHeight _
        rw [hblock]
        apply connectBlock_mined hdead hn rfl hlimit htime _ hfresh
        · exact .inr ⟨by decide, Nat.succ_ne_zero n⟩
        · rw [hcoins]
          rfl
      rw [← hblock, ← hline.tipMaxBlockSize_eq] at hcheck
      obtain ⟨s', hprocess, hline', hext, hcoins'⟩ := hline.extend hn hblock
        (fun tx htx => absurd htx List.not_mem_nil) hcheck
        (countMatureCoins_coinbase s rfl _ _) hconnect 0 true
      have hclean := flush_setCoins_pruned (deadView_clean vout n) hnone
        (isPruned_deadOuts hscript ((n + 1 : ℕ) + 1) (n + 1)) (hashOfNonce (n + 2))
      rw [if_pos hflush, hcoins] at hcoins'
      have hback : (lineBlock (deadLine vout script) (n + 1)).readBack =
          lineBlock (deadLine vout script) (n + 1) := rfl
      rw [deadView_next] at hclean
      refine ⟨s', hreach.received hback hprocess, ?_, hcoins'.trans hclean⟩
      exact hline.next hline' (fixed_of_judged hext.judged)
        (nSize_newEntry _ _ _ _ _ _) (nMatureCoinsSpent_newEntry _ _ _ _ _)

end Ziftrcoin.Spec
