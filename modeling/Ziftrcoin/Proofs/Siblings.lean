/-
Module: Ziftrcoin.Proofs.Siblings
Purpose: Blocks that arrive beside a chain of the small network: how they rank
  among the candidates, and what is counted for them.
Trusted boundary: none
Main exports: Beside, connectBlock_pair
-/
import Ziftrcoin.Proofs.LineRun
import Ziftrcoin.Proofs.MatureCoins
import Ziftrcoin.Proofs.CandidateOrder

namespace Ziftrcoin.Spec

open Ziftrcoin.Lib
open Ziftrcoin.Lib.Outcome

/-! ### Keys of small entries -/

/-- A later entry of the same work and height is worse, unless mature coins make a
difference. -/
theorem comparator_of_later {mapFirstTimeSeen : ℕ → ℤ} {a b : WorkKey}
    (hwork : a.nChainWork = b.nChainWork) (hheight : a.nHeight = b.nHeight)
    (hcoins : matureCoinsApply mapFirstTimeSeen a b = false ∨
      a.nMatureCoinsSpent = b.nMatureCoinsSpent)
    (hlater : b.nSequenceId < a.nSequenceId) :
    CBlockIndexWorkComparator mapFirstTimeSeen a b = true := by
  have harrival : compareArrival a b = true := by
    unfold compareArrival
    rw [if_neg hlater.asymm, if_pos hlater]
  unfold CBlockIndexWorkComparator
  rw [hwork, hheight, if_neg (lt_irrefl _), if_neg (lt_irrefl _), if_neg (lt_irrefl _),
    if_neg (lt_irrefl _), harrival]
  rcases hcoins with happly | hsame
  · rw [happly, if_neg Bool.false_ne_true]
  · rw [hsame, if_neg (lt_irrefl _), if_neg (lt_irrefl _), ite_self]

/-- What the comparator reads of an entry. -/
theorem workKey_small {tree : BlockTree} {p : Ptr} {pindex : CBlockIndex}
    {nonce height sequence : ℕ} {prev : Option Ptr} (hp : tree[p]? = some pindex)
    (h : SmallEntry nonce prev height sequence pindex) :
    tree.workKey p =
      { nChainWork := 2 * (height + 1)
        nHeight := height
        nTimeReceived := pindex.nTimeReceived
        prevHash := tree.prevHash pindex
        nMatureCoinsSpent := pindex.nMatureCoinsSpent
        nSequenceId := sequence
        address := p } := by
  unfold BlockTree.workKey
  rw [hp]
  dsimp only
  rw [h.nChainWork, h.nHeight, h.nSequenceId]

/-- Siblings that came at the time that counts for their height are compared by
their coins. -/
theorem matureCoinsApply_of_siblings {mapFirstTimeSeen : ℕ → ℤ} {a b : WorkKey} {time : ℤ}
    {hash : uint256} (htime : time ≠ 0) (hseen : mapFirstTimeSeen a.nHeight = time)
    (ha : a.nTimeReceived = time) (hb : b.nTimeReceived = time)
    (haPrev : a.prevHash = some hash) (hbPrev : b.prevHash = some hash) :
    matureCoinsApply mapFirstTimeSeen a b = true := by
  have hlimit : int64 0 < MATURE_COINS_TIEBREAKER_TIME_LIMIT := by decide
  unfold matureCoinsApply
  dsimp only
  rw [hseen, ha, hb, haPrev, hbPrev, sub_self, decide_eq_true hlimit, bne_iff_ne.mpr htime,
    beq_self_eq_true]
  rfl

/-- Entries on different predecessors are not compared by their coins. -/
theorem matureCoinsApply_of_strangers {a b : WorkKey} (h : a.prevHash ≠ b.prevHash)
    (mapFirstTimeSeen : ℕ → ℤ) : matureCoinsApply mapFirstTimeSeen a b = false := by
  unfold matureCoinsApply
  dsimp only
  rw [beq_eq_false_iff_ne.mpr h]
  simp only [Bool.and_false, Bool.false_and]

/-! ### Beside a chain -/

/-- A scan that has found its best element keeps it. -/
theorem best_append {α : Type} {worse : α → α → Bool} {xs ys : List α} {m : α}
    (h : best worse xs = some m) (hys : ∀ y ∈ ys, worse m y = false) :
    best worse (xs ++ ys) = some m := by
  have hcons := best_cons hys
  unfold best at h hcons ⊢
  rw [List.foldl_cons] at hcons
  rw [List.foldl_append, h]
  exact hcons

theorem best_cons_cons {α : Type} (worse : α → α → Bool) (x y : α) (ys : List α) :
    best worse (x :: y :: ys) =
      if worse x y then best worse (y :: ys) else best worse (x :: ys) := by
  unfold best
  rw [List.foldl_cons, List.foldl_cons, List.foldl_cons, List.foldl_cons]
  dsimp only
  split
  · rfl
  · rfl

/-- The node has received a chain up to the height `n`, which it is at, and beside it
`k` more blocks. -/
structure Beside (s : NodeState) (t : Tick) (n k : ℕ) : Prop where
  idle : Idle s t
  rest : AtRest s (List.range (n + 1))
  line : LineUpTo s.mapBlockIndex n
  length : s.mapBlockIndex.length = n + 1 + k
  hashes : ∀ pindex ∈ s.mapBlockIndex, ∃ nonce < n + 2 + k, pindex.hash = hashOfNonce nonce
  valid : s.setBlockIndexValid = (List.range (n + 1 + k)).reverse
  sequence : s.nBlockSequenceId = uint32 (n + 2 + k)
  received : ∀ pindex ∈ s.mapBlockIndex, pindex.nTimeReceived = t.nTimeMillis
  seen : s.mapFirstTimeSeen = fun i => if i ≤ n then t.nTimeMillis else 0

theorem OnLine.beside {s : NodeState} {t : Tick} {n : ℕ} (h : OnLine s t n) :
    Beside s t n 0 where
  idle := h.idle
  rest := h.rest
  line := h.line
  length := h.length
  hashes := by
    intro pindex hmem
    obtain ⟨i, hi⟩ := List.mem_iff_getElem?.mp hmem
    have hlt := (List.getElem?_eq_some_iff.mp hi).1
    rw [h.length] at hlt
    obtain ⟨pindex', hp', hline⟩ := h.line i (by omega)
    obtain rfl := Option.some.inj (hp'.symm.trans hi)
    exact ⟨i + 1, by omega, hline.hash⟩
  valid := h.valid
  sequence := h.sequence
  received := h.received
  seen := h.seen

namespace Beside

variable {genesis : CBlock} {s s' : NodeState} {t : Tick} {n k : ℕ}

/-- Only the tip and what came after it can be the best candidate. -/
theorem rbegin_eq (h : Beside s t n k)
    (hbest : best s.worse (List.range' n (k + 1)).reverse = some n) :
    s.rbegin = some n := by
  have hsplit : (List.range (n + 1 + k)).reverse =
      (List.range' n (k + 1)).reverse ++ (List.range n).reverse := by
    have hcount : n + 1 + k = n + (k + 1) := by omega
    have happend : List.range (n + (k + 1)) = List.range n ++ List.range' n (k + 1) := by
      have hjoin := List.range'_append_1 (s := 0) (m := n) (n := k + 1)
      rw [Nat.zero_add] at hjoin
      rw [List.range_eq_range', List.range_eq_range', hjoin]
    rw [hcount, happend, List.reverse_append]
  unfold NodeState.rbegin
  rw [h.valid, hsplit]
  apply best_append hbest
  intro p hp
  rw [List.mem_reverse, List.mem_range] at hp
  obtain ⟨tip, htip, hline⟩ := h.line n (Nat.le_refl n)
  obtain ⟨e, he, hlineE⟩ := h.line p hp.le
  have hwork : (s.mapBlockIndex.workKey p).nChainWork <
      (s.mapBlockIndex.workKey n).nChainWork := by
    rw [nChainWork_workKey he, nChainWork_workKey htip, hline.nChainWork, hlineE.nChainWork]
    omega
  exact (comparator_of_work_lt s.mapFirstTimeSeen hwork).2

theorem find_new (h : Beside s t n k) :
    s.mapBlockIndex.find (hashOfNonce (n + 2 + k)) = none := by
  unfold BlockTree.find
  rw [List.findIdx?_eq_none_iff]
  intro pindex hmem
  obtain ⟨nonce, hlt, hhash⟩ := h.hashes pindex hmem
  rw [hhash, beq_eq_false_iff_ne]
  intro heq
  exact absurd (hashOfNonce_inj heq) (Nat.ne_of_lt hlt)

/-- A block that does not become the best candidate gets its entry, and nothing else
changes. -/
theorem receive (h : Beside s t n k) {hashPrev : uint256} {p : Ptr} {prev : CBlockIndex}
    {nNoncePrev nHeight nSequencePrev : ℕ} {pprev : Option Ptr} {nVersion : ℤ}
    (hparent : Parent genesis s hashPrev p (nHeight + 1))
    (hp : s.mapBlockIndex[p]? = some prev)
    (hprev : SmallEntry nNoncePrev pprev nHeight nSequencePrev prev)
    (hheight : nHeight + 1 ≤ n) (hn : n + 2 + k < 2 ^ 32) {vout : List CTxOut}
    {txs : List CTransaction} {block : CBlock}
    (hblock : block = smallBlock (n + 2 + k) (nHeight + 1) hashPrev
      (coinbaseTx nVersion (nHeight + 1) vout :: txs))
    (hfinal : ∀ tx ∈ txs, tx.nLockTime = 0)
    (hcheck : CheckBlock (smallNet genesis) t.nAdjustedTime block
      s.chainActive.TipMaxBlockSize true true = .ok (block.BuildMerkleTree smallCrypto))
    {nMatureCoinsSpent : ℤ}
    (hcount : CountMatureCoins s block (some p) (nHeight + 1) = .ok nMatureCoinsSpent)
    (hbest : ∀ (s' : NodeState) (pindexNew : CBlockIndex),
      Beside s' t n (k + 1) → s'.mapBlockIndex = s.mapBlockIndex ++ [pindexNew] →
      SmallEntry (n + 2 + k) (some p) (nHeight + 1) (n + 2 + k) pindexNew →
      pindexNew.nMatureCoinsSpent = nMatureCoinsSpent → s'.rbegin = some n)
    (fuel : ℕ) (fFrom : Bool) :
    ∃ s' pindexNew,
      ProcessBlock (smallNet genesis) (fuel + 1) fFrom block s = .done () s' ∧
      Beside s' t n (k + 1) ∧ s'.mapBlockIndex = s.mapBlockIndex ++ [pindexNew] ∧
      SmallEntry (n + 2 + k) (some p) (nHeight + 1) (n + 2 + k) pindexNew ∧
      pindexNew.nMatureCoinsSpent = nMatureCoinsSpent ∧
      s'.chainActive = s.chainActive ∧ s'.pcoinsTip = s.pcoinsTip := by
  have hfind : s.mapBlockIndex.find hashPrev = some p := hparent.found
  have hentry := newEntry_small genesis hfind hp hprev (by omega) hn
    (congrArg (CBlock.BuildMerkleTree smallCrypto) hblock) t.nTimeMillis nMatureCoinsSpent
  have hnSequenceId : uint32 (n + 2 + k) = n + 2 + k := Nat.mod_eq_of_lt hn
  rw [h.sequence, hnSequenceId] at hentry
  obtain ⟨_, hdone⟩ := processBlock_smallBlock (fuel + 1) fFrom h.idle hparent hn h.find_new
    hfinal hblock hcheck
  have hprocess := hdone nMatureCoinsSpent
  have hmature : (newEntry (smallNet genesis) s (block.BuildMerkleTree smallCrypto)
      t.nTimeMillis nMatureCoinsSpent).nMatureCoinsSpent = nMatureCoinsSpent := rfl
  have htime : (newEntry (smallNet genesis) s (block.BuildMerkleTree smallCrypto)
      t.nTimeMillis nMatureCoinsSpent).nTimeReceived = t.nTimeMillis := rfl
  clear hdone
  generalize newEntry (smallNet genesis) s (block.BuildMerkleTree smallCrypto) t.nTimeMillis
    nMatureCoinsSpent = pindexNew at hentry hprocess hmature htime
  have hrest : AtRest (addEntry s (block.BuildMerkleTree smallCrypto) pindexNew)
      (List.range (n + 1)) := by
    apply h.rest.addEntry
    rw [hentry.pprev]
    exact ⟨prev, hp, by rw [hentry.nHeight, hprev.nHeight]⟩
  have hseen : s.mapFirstTimeSeen (nHeight + 1) = t.nTimeMillis := by
    rw [h.seen]
    exact if_pos hheight
  have hbeside : Beside (addEntry s (block.BuildMerkleTree smallCrypto) pindexNew) t n
      (k + 1) := {
    idle := h.idle.addEntry _ _
    rest := hrest
    line := h.line.append [pindexNew]
    length := by
      unfold addEntry
      rw [List.length_append, h.length, List.length_singleton, Nat.add_assoc]
    hashes := by
      intro e he
      rcases List.mem_append.mp he with he | he
      · obtain ⟨nonce, hlt, hhash⟩ := h.hashes e he
        exact ⟨nonce, by omega, hhash⟩
      · rw [List.mem_singleton.mp he]
        exact ⟨n + 2 + k, by omega, hentry.hash⟩
    valid := by
      unfold addEntry
      dsimp only
      rw [h.length, h.valid, ← Nat.add_assoc, List.range_succ, List.reverse_concat]
    sequence := by
      unfold addEntry
      dsimp only
      rw [h.sequence]
      exact Nat.mod_add_mod (n + 2 + k) (2 ^ 32) 1
    received := by
      intro e he
      rcases List.mem_append.mp he with he | he
      · exact h.received e he
      · rw [List.mem_singleton.mp he, htime]
    seen := by
      rw [← h.seen]
      unfold addEntry
      dsimp only
      rw [hentry.nHeight, htime, ← hseen, Function.update_eq_self, ite_self] }
  have hlast : (List.range (n + 1)).getLast? = some n := by
    rw [List.range_succ, List.getLast?_concat]
  have hactivate := activate_atRest hrest hlast (hbest _ pindexNew hbeside rfl hentry hmature)
    (smallNet genesis) fuel
  refine ⟨_, pindexNew, ?_, hbeside, rfl, hentry, hmature, rfl, rfl⟩
  apply hprocess _ hcount hactivate hbeside.idle.orphans
  obtain ⟨e, he⟩ := hrest.entry hlast
  rw [hrest.active.tip_eq, hlast]
  exact Option.isSome_iff_exists.mpr ⟨e, he⟩

/-- The key of an entry, read off the entry and the one below it. -/
theorem key (h : Beside s t n k) {p q : Ptr} {pindex prev : CBlockIndex}
    {nonce height sequence nNoncePrev : ℕ} (hp : s.mapBlockIndex[p]? = some pindex)
    (hentry : SmallEntry nonce (some q) height sequence pindex)
    (hq : s.mapBlockIndex[q]? = some prev) (hprev : prev.hash = hashOfNonce nNoncePrev) :
    s.mapBlockIndex.workKey p =
      { nChainWork := 2 * (height + 1)
        nHeight := height
        nTimeReceived := t.nTimeMillis
        prevHash := some (hashOfNonce nNoncePrev)
        nMatureCoinsSpent := pindex.nMatureCoinsSpent
        nSequenceId := sequence
        address := p } := by
  rw [workKey_small hp hentry, h.received pindex (List.mem_of_getElem? hp),
    prevHash_of_getElem? hentry.pprev hq, hprev]

section Worse

variable {p p' q q' : Ptr} {a b aPrev bPrev : CBlockIndex} {nonceA nonceB nonceA' nonceB' : ℕ}
  {height heightB sequenceA sequenceB : ℕ}

/-- A lower entry is worse. -/
theorem worse_of_height (hp : s.mapBlockIndex[p]? = some a)
    (ha : SmallEntry nonceA (some p') height sequenceA a) (hq : s.mapBlockIndex[q]? = some b)
    (hb : SmallEntry nonceB (some q') heightB sequenceB b) (hlt : height < heightB) :
    s.worse p q = true ∧ s.worse q p = false := by
  apply comparator_of_work_lt
  rw [nChainWork_workKey hp, nChainWork_workKey hq, ha.nChainWork, hb.nChainWork]
  omega

/-- Of two entries at one height on different parents, the later one is worse. -/
theorem worse_of_strangers (h : Beside s t n k) (hp : s.mapBlockIndex[p]? = some a)
    (ha : SmallEntry nonceA (some p') height sequenceA a)
    (hp' : s.mapBlockIndex[p']? = some aPrev) (haPrev : aPrev.hash = hashOfNonce nonceA')
    (hq : s.mapBlockIndex[q]? = some b)
    (hb : SmallEntry nonceB (some q') height sequenceB b)
    (hq' : s.mapBlockIndex[q']? = some bPrev) (hbPrev : bPrev.hash = hashOfNonce nonceB')
    (hne : nonceA' ≠ nonceB') (hlater : sequenceB < sequenceA) : s.worse p q = true := by
  have hkey := h.key hp ha hp' haPrev
  have hkey' := h.key hq hb hq' hbPrev
  have hstrangers : (s.mapBlockIndex.workKey p).prevHash ≠
      (s.mapBlockIndex.workKey q).prevHash := by
    rw [hkey, hkey']
    intro heq
    exact hne (hashOfNonce_inj (Option.some.inj heq))
  apply comparator_of_later
  · rw [hkey, hkey']
  · rw [hkey, hkey']
  · exact .inl (matureCoinsApply_of_strangers hstrangers _)
  · rw [hkey, hkey']
    exact hlater

/-- Of two siblings, the one that spends less mature coins is worse. -/
theorem worse_of_siblings (h : Beside s t n k) (htime : t.nTimeMillis ≠ 0)
    (hp : s.mapBlockIndex[p]? = some a)
    (ha : SmallEntry nonceA (some p') height sequenceA a)
    (hp' : s.mapBlockIndex[p']? = some aPrev) (haPrev : aPrev.hash = hashOfNonce nonceA')
    (hq : s.mapBlockIndex[q]? = some b)
    (hb : SmallEntry nonceB (some p') height sequenceB b) (hheight : height ≤ n)
    (hlt : a.nMatureCoinsSpent < b.nMatureCoinsSpent) :
    matureCoinsApply s.mapFirstTimeSeen (s.mapBlockIndex.workKey p)
        (s.mapBlockIndex.workKey q) = true ∧ s.worse p q = true := by
  have hkey := h.key hp ha hp' haPrev
  have hkey' := h.key hq hb hp' haPrev
  have hseen : s.mapFirstTimeSeen height = t.nTimeMillis := by
    rw [h.seen]
    exact if_pos hheight
  have happly : matureCoinsApply s.mapFirstTimeSeen (s.mapBlockIndex.workKey p)
      (s.mapBlockIndex.workKey q) = true := by
    rw [hkey, hkey']
    exact matureCoinsApply_of_siblings htime hseen rfl rfl rfl rfl
  have hmature : (s.mapBlockIndex.workKey p).nMatureCoinsSpent <
      (s.mapBlockIndex.workKey q).nMatureCoinsSpent := by
    rw [hkey, hkey']
    exact hlt
  refine ⟨happly, ?_⟩
  unfold NodeState.worse
  rw [comparator_of_matureCoins (by rw [hkey, hkey']) (by rw [hkey, hkey']) happly
    (ne_of_lt hmature)]
  exact decide_eq_true hmature

end Worse

/-- A block on an entry beside the chain finds its parent. -/
theorem parent (h : Beside s t n k) {p : Ptr} {pindex : CBlockIndex} {nonce height i : ℕ}
    {sequence : ℕ} (hp : s.mapBlockIndex[p]? = some pindex)
    (hentry : SmallEntry nonce (some i) height sequence pindex)
    (hfound : s.mapBlockIndex.find (hashOfNonce nonce) = some p) (hi : i ≤ n)
    (hheight : height = i + 1) (hinterval : height % RETARGET_INTERVAL ≠ 0) (genesis : CBlock) :
    Parent genesis s (hashOfNonce nonce) p (height + 1) where
  found := hfound
  height := by rw [hp, Option.map_some, hentry.nHeight]
  bits := by
    have htest : (smallNet genesis).TestNet = false := rfl
    unfold GetNextWorkRequired
    dsimp only
    rw [hp]
    dsimp only
    rw [hentry.nHeight, if_neg (by omega), if_pos hinterval, htest, if_neg Bool.false_ne_true,
      hentry.nBits]
  median := by
    -- All times on the way back are those of lower blocks.
    have hpast : ∀ fuel, ∀ nTime ∈ pastTimes s.mapBlockIndex fuel (some p),
        nTime ≤ 1400000000 + 60 * height := by
      intro fuel nTime hmem
      have hderef : s.mapBlockIndex.deref (some p) = some pindex := hp
      cases fuel with
      | zero =>
          rw [pastTimes] at hmem
          exact absurd hmem List.not_mem_nil
      | succ fuel =>
          rw [pastTimes, hderef] at hmem
          rcases List.mem_cons.mp hmem with rfl | hmem
          · rw [hentry.nTime]
          · rw [hentry.pprev] at hmem
            have := h.line.pastTimes_le hi nTime hmem
            omega
    unfold GetMedianTimePast
    dsimp only
    rw [List.getD_eq_getElem?_getD]
    cases hget : ((pastTimes s.mapBlockIndex nMedianTimeSpan (some p)).insertionSort (· ≤ ·))[
        ((pastTimes s.mapBlockIndex nMedianTimeSpan (some p)).insertionSort
          (· ≤ ·)).length / 2]? with
    | none =>
        rw [Option.getD_none]
        omega
    | some nTime =>
        have hmem := (List.mem_insertionSort _).mp (List.mem_of_getElem? hget)
        have := hpast _ nTime hmem
        rw [Option.getD_some]
        omega

/-- The coins of a block on the tip or on the entry below are counted. -/
theorem countMatureCoins_eq (h : Beside s t n k) {i : ℕ} (hi : i = n ∨ i + 1 = n)
    (block : CBlock) (nHeight : ℕ) :
    CountMatureCoins s block (some i) nHeight =
      matureCoinsFrom s.pcoinsTip nHeight 0 (inputsAfterFirst block) := by
  obtain ⟨tip, htip, hlineTip⟩ := h.line n (Nat.le_refl _)
  have hderef : s.mapBlockIndex.deref (some n) = some tip := htip
  have hlast : s.chainActive.Tip = some n := by
    rw [h.rest.active.tip_eq, List.range_succ, List.getLast?_concat]
  have hnear : nearTip s (((s.mapBlockIndex.deref (some i)).map CBlockIndex.hash).getD 0) =
      true := by
    unfold nearTip
    dsimp only
    rcases hi with rfl | rfl
    · rw [hlast, hderef, Option.any_some, Option.map_some, Option.getD_some, beq_self_eq_true,
        Bool.true_or]
    · obtain ⟨prev, hp, hlinePrev⟩ := h.line i (Nat.le_succ i)
      have hderefPrev : s.mapBlockIndex.deref (some i) = some prev := hp
      have hbelow : tip.pprev = some i := hlineTip.pprev
      rw [hlast, hderef, Option.bind_some, hbelow, hderefPrev, Option.map_some,
        Option.getD_some, Option.any_some, Option.any_some, beq_self_eq_true, Bool.or_true]
  unfold CountMatureCoins
  dsimp only
  rw [if_pos hnear]

end Beside

theorem getElem?_concat_old {tree tree' : BlockTree} {pindexNew pindex : CBlockIndex}
    (h : tree' = tree ++ [pindexNew]) {p : Ptr} (hp : tree[p]? = some pindex) :
    tree'[p]? = some pindex := by
  rw [h, List.getElem?_append_left (List.getElem?_eq_some_iff.mp hp).1, hp]

theorem getElem?_concat_new {tree tree' : BlockTree} {pindexNew : CBlockIndex} {p : Ptr}
    (h : tree' = tree ++ [pindexNew]) (hp : tree.length = p) : tree'[p]? = some pindexNew := by
  rw [h, ← hp, List.getElem?_concat_length]

/-- A new hash is found at the end. -/
theorem find_concat {tree : BlockTree} {hash : uint256} {pindex : CBlockIndex}
    (hnew : tree.find hash = none) (h : pindex.hash = hash) :
    BlockTree.find (tree ++ [pindex]) hash = some tree.length := by
  unfold BlockTree.find at hnew ⊢
  rw [List.findIdx?_append, hnew, Option.none_or, List.findIdx?_cons, h, beq_self_eq_true,
    if_pos rfl, Option.map_some, Nat.zero_add]

/-- A block that is within every limit is checked. -/
theorem checkBlock_small (genesis : CBlock) {nNonce nHeight : ℕ} {hashPrev : uint256}
    {coinbase : CTransaction} {txs : List CTransaction} {block : CBlock}
    (hblock : block = smallBlock nNonce nHeight hashPrev (coinbase :: txs))
    (hchecked : BlockChecked (smallNet genesis) block coinbase txs) (hnonce : nNonce < 2 ^ 32)
    (hcount : block.vtx.length ≤ MIN_MAX_BLOCK_SIZE)
    (hsize : block.GetSerializeSize ≤ MIN_MAX_BLOCK_SIZE)
    (hops : (block.vtx.map GetSigOpCount).sum ≤ 20000) {nAdjustedTime : ℤ}
    (htime : (1400000000 + 60 * nHeight : ℤ) ≤ nAdjustedTime) {nMaxBlockSize : ℕ}
    (hlimit : MIN_MAX_BLOCK_SIZE ≤ nMaxBlockSize) :
    CheckBlock (smallNet genesis) nAdjustedTime block nMaxBlockSize true true =
      .ok (block.BuildMerkleTree smallCrypto) := by
  apply checkBlock_eq_ok hchecked (hcount.trans hlimit) (hsize.trans hlimit)
  · rw [hblock]
    exact checkPOW_smallBlock genesis hnonce nHeight hashPrev _
  · have hnTime : block.nTime = 1400000000 + 60 * nHeight := by
      rw [hblock]
      rfl
    have hoffset : 0 ≤ MAX_BLOCK_TIME_OFFSET := by decide
    rw [hnTime]
    push_cast
    omega
  · exact hops.trans (sigOps_le_of_limit hlimit)
  · rw [hblock]
    exact merkleRoot_eq (List.cons_ne_nil _ _)

/-! ### Blocks with one more transaction -/

/-- Only the height of the view's best block matters to the checks of the inputs. -/
theorem checkInputs_congr {crypto : Crypto} {prevHeight prevHeight' : uint256 → Option ℕ}
    {inputs : CCoinsViewCache} (h : prevHeight inputs.hashBlock = prevHeight' inputs.hashBlock)
    (tx : CTransaction) (fScriptChecks : Bool) (flags : ScriptFlags) (fDefer : Bool) :
    CheckInputs crypto prevHeight tx inputs fScriptChecks flags fDefer =
      CheckInputs crypto prevHeight' tx inputs fScriptChecks flags fDefer := by
  have hheight : spendHeight prevHeight inputs = spendHeight prevHeight' inputs := by
    unfold spendHeight
    rw [h]
  unfold CheckInputs
  rw [hheight]

/-- Connecting a block with one transaction after the coinbase. -/
theorem connectBlock_pair {cfg : Config} {ctx : BlockContext} {block : CBlock}
    {view view₁ view₂ : CCoinsViewCache} {coinbase tx : CTransaction} {txundo : CTxUndo}
    {nValueIn nValueOut nCoinbaseOut : ℤ} {nP2SH : ℕ}
    (hcheck : CheckBlock cfg ctx.nAdjustedTime block ctx.nMaxBlockSize true true =
      .ok (block.BuildMerkleTree cfg.crypto))
    (hvtx : block.vtx = [coinbase, tx]) (hcb : coinbase.IsCoinBase = true)
    (htx : tx.IsCoinBase = false) (hprev : ctx.hashPrev.getD 0 = view.hashBlock)
    (hfresh : ∀ tx ∈ block.vtx, view.HaveCoins (tx.GetHash cfg.crypto) = false)
    (hview : view₁ = view.SetCoins (coinbase.GetHash cfg.crypto)
      (CCoins.ofTx coinbase ctx.nHeight))
    (hinputs : view₁.HaveInputs tx = true) (hp2sh : GetP2SHSigOpCount tx view₁ = .ok nP2SH)
    (hops : GetSigOpCount coinbase + GetSigOpCount tx + nP2SH ≤
      MaxBlockSizeToSigOps ctx.nMaxBlockSize)
    (hin : view₁.GetValueIn tx = .ok nValueIn) (hout : valueOut tx = .ok nValueOut)
    (hchecks : CheckInputs cfg.crypto ctx.prevHeight tx view₁
      (decide (cfg.GetTotalBlocksEstimate ≤ ctx.nHeight)) SCRIPT_VERIFY_P2SH_STRICTENC
      (decide (cfg.nScriptCheckThreads ≠ 0)) = .ok [])
    (hupdate : UpdateCoins tx view₁ ctx.nHeight (tx.GetHash cfg.crypto) = .ok (view₂, txundo))
    (hvalue : valueOut coinbase = .ok nCoinbaseOut)
    (hamount : nCoinbaseOut ≤ cfg.GetBlockValue ctx.nHeight
      (int64 (0 + int64 (nValueIn - nValueOut))) block.IsPoKBlock) :
    ConnectBlock cfg ctx block view false =
      .ok (view₂.SetBestBlock ctx.hash, [txundo]) := by
  have hvtx' : (block.BuildMerkleTree cfg.crypto).vtx = [coinbase, tx] := hvtx
  have hhash : (block.BuildMerkleTree cfg.crypto).GetTxHash 0 =
      .ok (coinbase.GetHash cfg.crypto) :=
    getTxHash_buildMerkleTree (by simp [hvtx])
  have hhash' : (block.BuildMerkleTree cfg.crypto).GetTxHash 1 =
      .ok (tx.GetHash cfg.crypto) :=
    getTxHash_buildMerkleTree (by simp [hvtx])
  rw [hvtx] at hfresh
  have hfreshCb := hfresh coinbase List.mem_cons_self
  have hfreshTx := hfresh tx (List.mem_cons_of_mem _ List.mem_cons_self)
  have hover : checkOverwrite view (block.BuildMerkleTree cfg.crypto) = .ok () := by
    unfold checkOverwrite
    simp [txHashes_buildMerkleTree, hvtx, hfreshCb, hfreshTx]
  have hfirst : connectTx cfg ctx (decide (cfg.GetTotalBlocksEstimate ≤ ctx.nHeight))
      (block.BuildMerkleTree cfg.crypto) ⟨view, 0, 0, [], []⟩ (coinbase, 0) =
        .ok ⟨view₁, 0, GetSigOpCount coinbase, [], []⟩ := by
    have hnot : ¬MaxBlockSizeToSigOps ctx.nMaxBlockSize < GetSigOpCount coinbase := by omega
    simp [connectTx, connectInputs, UpdateCoins, markSpent, hcb, hhash, hview, hnot]
  have hsecond : connectTx cfg ctx (decide (cfg.GetTotalBlocksEstimate ≤ ctx.nHeight))
      (block.BuildMerkleTree cfg.crypto) ⟨view₁, 0, GetSigOpCount coinbase, [], []⟩ (tx, 1) =
        .ok ⟨view₂, int64 (0 + int64 (nValueIn - nValueOut)),
          GetSigOpCount coinbase + GetSigOpCount tx + nP2SH, [txundo], []⟩ := by
    have hnot : ¬MaxBlockSizeToSigOps ctx.nMaxBlockSize <
        GetSigOpCount coinbase + GetSigOpCount tx := by omega
    have hnot' : ¬MaxBlockSizeToSigOps ctx.nMaxBlockSize <
        GetSigOpCount coinbase + GetSigOpCount tx + nP2SH := by omega
    unfold connectTx connectInputs
    simp only [hnot, hnot', if_false, htx, Bool.false_eq_true, hinputs, Bool.true_eq_false,
      hp2sh, hin, hout, hchecks, hhash', hupdate, ok_bind, pure_eq_ok, List.nil_append]
  have hamount' : ¬(cfg.GetBlockValue ctx.nHeight (int64 (0 + int64 (nValueIn - nValueOut)))
      (block.BuildMerkleTree cfg.crypto).IsPoKBlock < nCoinbaseOut ∧
      (block.BuildMerkleTree cfg.crypto).GetHash cfg.crypto ≠ cfg.HashGenesisBlock) :=
    fun h => Int.not_lt.mpr hamount h.1
  unfold ConnectBlock
  simp only [Bool.not_false, hcheck, ok_bind, Run.assert, hprev, if_true, hover, hvtx',
    List.zipIdx_cons, List.zipIdx_nil, List.foldlM_cons, List.foldlM_nil, hfirst, hsecond,
    Nat.zero_add, pure_eq_ok, Run.get, List.getElem?_cons_zero, hvalue, if_neg hamount',
    List.mapM_nil, List.all_nil, Bool.true_eq_false, Bool.false_eq_true, if_false]

end Ziftrcoin.Spec
