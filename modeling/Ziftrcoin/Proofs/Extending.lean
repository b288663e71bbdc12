/-
Module: Ziftrcoin.Proofs.Extending
Purpose: A node at rest: both of its chains end in the best candidate.  What it
  does with another entry that is no better, and with one that extends its tip.
Trusted boundary: none
Main exports: AtRest, activate_extends
-/
import Ziftrcoin.Proofs.Tips
import Ziftrcoin.Proofs.Tree

namespace Ziftrcoin.Spec

open Ziftrcoin.Lib
open Ziftrcoin.Lib.Outcome

/-! ### The best candidate -/

theorem not_comparator_self (mapFirstTimeSeen : ℕ → ℤ) (a : WorkKey) :
    CBlockIndexWorkComparator mapFirstTimeSeen a a = false := by
  have harrival : compareArrival a a = false := by
    unfold compareArrival
    simp only [lt_irrefl, if_false]
  unfold CBlockIndexWorkComparator
  simp only [lt_irrefl, if_false, harrival, ite_self]

theorem comparator_of_work_lt (mapFirstTimeSeen : ℕ → ℤ) {a b : WorkKey}
    (h : a.nChainWork < b.nChainWork) :
    CBlockIndexWorkComparator mapFirstTimeSeen a b = true ∧
      CBlockIndexWorkComparator mapFirstTimeSeen b a = false := by
  unfold CBlockIndexWorkComparator
  rw [if_neg h.asymm, if_pos h, if_pos h]
  exact ⟨rfl, rfl⟩

/-- A scan keeps the first element if nothing after it is better. -/
theorem best_cons {α : Type} {worse : α → α → Bool} {y : α} {xs : List α}
    (h : ∀ x ∈ xs, worse y x = false) : best worse (y :: xs) = some y := by
  unfold best
  rw [List.foldl_cons]
  induction xs with
  | nil => rfl
  | cons x xs ih =>
      rw [List.foldl_cons]
      dsimp only
      rw [h x List.mem_cons_self, if_neg Bool.false_ne_true]
      exact ih fun x' hx' => h x' (List.mem_cons_of_mem x hx')

/-! ### A node at rest -/

/-- Both chains of the node follow the same branch, and its last entry, if it has
one, is not marked as failed. -/
structure AtRest (s : NodeState) (xs : List Ptr) : Prop where
  linked : WellLinked s.mapBlockIndex
  active : Path s.mapBlockIndex s.chainActive xs
  mostWork : Path s.mapBlockIndex s.chainMostWork xs
  sound : ∀ {tip : Ptr} {pindex : CBlockIndex}, xs.getLast? = some tip →
    s.mapBlockIndex[tip]? = some pindex → pindex.nStatus.failed = false

namespace AtRest

variable {s : NodeState} {xs : List Ptr} {tip : Ptr}

theorem entry (h : AtRest s xs) (htip : xs.getLast? = some tip) :
    ∃ pindex, s.mapBlockIndex[tip]? = some pindex :=
  ⟨_, List.getElem?_eq_getElem (h.active.known tip (List.mem_of_getLast? htip))⟩

theorem active_contains (h : AtRest s xs) (htip : xs.getLast? = some tip) :
    s.chainActive.Contains s.mapBlockIndex tip = true :=
  (h.active.contains_iff h.linked).mpr (List.mem_of_getLast? htip)

theorem mostWork_contains (h : AtRest s xs) (htip : xs.getLast? = some tip) :
    s.chainMostWork.Contains s.mapBlockIndex tip = true :=
  (h.mostWork.contains_iff h.linked).mpr (List.mem_of_getLast? htip)

end AtRest

/-! ### The parts of a round -/

theorem dropFailedTips_sound {s : NodeState} (cfg : Config) (fuel : ℕ)
    (h : ∀ {p : Ptr} {pindex : CBlockIndex}, s.chainMostWork.Tip = some p →
      s.mapBlockIndex[p]? = some pindex → pindex.nStatus.failed = false) :
    dropFailedTips cfg (fuel + 1) s = .done () s := by
  unfold dropFailedTips
  rw [Machine.get_bind_run]
  cases htip : s.chainMostWork.Tip with
  | none => rfl
  | some p =>
      cases hderef : s.mapBlockIndex.deref (some p) with
      | none => rfl
      | some pindex =>
          change (if pindex.nStatus.failed = true then _ else (pure () : Node Unit)) s = _
          rw [h htip hderef, if_neg Bool.false_ne_true]
          rfl

/-- A candidate without a failed predecessor is found at once. -/
theorem findCandidate_best {s : NodeState} (fuel : ℕ) {q : Ptr} {pindex : CBlockIndex}
    (hbest : s.rbegin = some q) (hentry : s.mapBlockIndex[q]? = some pindex)
    (hfailed : findFailed s (pindex.nHeight + 2) (some q) = .ok none) :
    findCandidate (fuel + 1) s = .done (some q) s := by
  unfold findCandidate
  rw [Machine.get_bind_run, hbest]
  have hderef : s.mapBlockIndex.deref (some q) = some pindex := hentry
  dsimp only
  rw [deref_bind_run hderef, hfailed]
  rfl

theorem disconnectLoop_none {s : NodeState} (cfg : Config) (fuel : ℕ)
    (hcontains : ∀ tip, s.chainActive.Tip = some tip →
      s.chainMostWork.Contains s.mapBlockIndex tip = true) :
    disconnectLoop cfg (fuel + 1) s = .done () s := by
  unfold disconnectLoop
  rw [Machine.get_bind_run]
  cases htip : s.chainActive.Tip with
  | none => rfl
  | some tip =>
      change (if s.chainMostWork.Contains s.mapBlockIndex tip = false then _
        else (pure () : Node Unit)) s = _
      rw [hcontains tip htip, if_neg (by decide)]
      rfl

theorem connectLoop_complete {s : NodeState} (cfg : Config) (fuel : ℕ) {tip : Ptr}
    (hcontains : s.chainActive.Contains s.mapBlockIndex tip = true) :
    connectLoop cfg tip (fuel + 1) s = .done true s := by
  unfold connectLoop
  rw [Machine.get_bind_run, if_pos hcontains]
  rfl

/-- A block that is connected takes the loop on. -/
theorem connectLoop_connect {s s' : NodeState} (cfg : Config) (fuel : ℕ) {tip q : Ptr}
    (hnot : s.chainActive.Contains s.mapBlockIndex tip = false)
    (hnext : s.chainMostWork.atHeight s.chainActive.vChain.length = some q)
    (hconnect : ConnectTip cfg q s = .done () s') :
    connectLoop cfg tip (fuel + 1) s = connectLoop cfg tip fuel s' := by
  have hattempt : Machine.attempt (ConnectTip cfg q) s = .done (.ok ()) s' := by
    unfold Machine.attempt
    rw [hconnect]
  conv_lhs => unfold connectLoop
  rw [Machine.get_bind_run, hnot, if_neg Bool.false_ne_true, hnext]
  dsimp only
  rw [Machine.bind_run_done hattempt]

theorem activateBestChain_of_round {s s' : NodeState} (cfg : Config) (fuel : ℕ)
    (h : activateRound cfg s = .done true s') :
    ActivateBestChain cfg (fuel + 1) s = .done () s' := by
  unfold ActivateBestChain
  rw [Machine.bind_run_done h, if_neg (by decide)]
  rfl

/-- One step of the walk down from a candidate. -/
theorem findFailed_step {s : NodeState} {p : Ptr} {pindex : CBlockIndex}
    (hp : s.mapBlockIndex[p]? = some pindex) (fuel : ℕ) :
    findFailed s (fuel + 1) (some p) =
      if s.chainActive.Contains s.mapBlockIndex p then .ok none
      else if pindex.nStatus.failed then .ok (some p)
      else findFailed s fuel pindex.pprev := by
  have hderef : s.mapBlockIndex.deref (some p) = some pindex := hp
  conv_lhs => unfold findFailed
  rw [hderef]

/-- The best candidate, having no failed predecessor, is chosen if it is better
than the tip. -/
theorem AtRest.findMostWorkChain {s : NodeState} {xs : List Ptr} {q : Ptr}
    {pindex : CBlockIndex} (h : AtRest s xs) (hbest : s.rbegin = some q)
    (hentry : s.mapBlockIndex[q]? = some pindex)
    (hfailed : findFailed s (pindex.nHeight + 2) (some q) = .ok none) (cfg : Config) :
    FindMostWorkChain cfg s = .done () (if xs.getLast?.all fun tip => s.worse tip q then
      { s with
        chainMostWork := s.chainMostWork.SetTip cfg s.mapBlockIndex false (some q) }
      else s) := by
  have hdrop := dropFailedTips_sound cfg s.chainMostWork.vChain.length (s := s)
    fun htip hp => h.sound (h.mostWork.tip_eq.symm.trans htip) hp
  unfold FindMostWorkChain
  rw [Machine.get_bind_run, Machine.bind_run_done hdrop, Machine.get_bind_run,
    Machine.bind_run_done (findCandidate_best _ hbest hentry hfailed)]
  dsimp only
  rw [Machine.get_bind_run, h.mostWork.tip_eq]
  cases xs.getLast? with
  | none => rfl
  | some tip =>
      rw [Option.all_some]
      by_cases hworse : s.worse tip q = true
      · rw [if_pos hworse]
        exact congrFun (if_pos hworse) s
      · rw [if_neg hworse]
        exact congrFun (if_neg hworse) s

/-- A node at rest whose tip is the best candidate stays as it is. -/
theorem activate_atRest {s : NodeState} {xs : List Ptr} {tip : Ptr} (h : AtRest s xs)
    (htip : xs.getLast? = some tip) (hbest : s.rbegin = some tip) (cfg : Config)
    (fuel : ℕ) : ActivateBestChain cfg (fuel + 1) s = .done () s := by
  obtain ⟨pindex, hentry⟩ := h.entry htip
  have hfailed : findFailed s (pindex.nHeight + 2) (some tip) = .ok none := by
    rw [findFailed_step hentry, h.active_contains htip, if_pos rfl]
  have hfind := h.findMostWorkChain hbest hentry hfailed cfg
  have hsame : s.worse tip tip = false := not_comparator_self _ _
  rw [htip, Option.all_some, hsame, if_neg Bool.false_ne_true] at hfind
  have hdisconnect := disconnectLoop_none cfg s.chainActive.vChain.length (s := s)
    fun p hp => h.mostWork_contains (h.active.tip_eq.symm.trans hp)
  apply activateBestChain_of_round
  unfold activateRound
  rw [Machine.bind_run_done hfind, Machine.get_bind_run, h.mostWork.tip_eq, htip]
  dsimp only
  rw [Machine.bind_run_done hdisconnect]
  exact connectLoop_complete cfg _ (h.active_contains htip)

/-! ### A new tip -/

theorem removeTransaction_empty {s : NodeState} (cfg : Config) (tx : CTransaction)
    (h : s.mempool = .empty) : removeTransaction cfg tx false s = .done () s := by
  have hremove : CTxMemPool.remove cfg.crypto s.mempool.removeFuel tx false
      (s.mempool, []) = .ok (s.mempool, []) := by
    rw [h]
    rfl
  unfold removeTransaction
  rw [Machine.get_bind_run, hremove]
  rfl

theorem removeConflicting_empty {s : NodeState} (cfg : Config) (tx : CTransaction)
    (h : s.mempool = .empty) : removeConflicting cfg tx s = .done () s := by
  have hconflicts : CTxMemPool.removeConflicts cfg.crypto tx (s.mempool, []) =
      .ok (s.mempool, []) := by
    rw [h]
    unfold CTxMemPool.removeConflicts
    generalize tx.vin = vin
    induction vin with
    | nil => rfl
    | cons txin vin ih => exact ih
  unfold removeConflicting
  rw [Machine.get_bind_run, hconflicts]
  rfl

/-- An empty pool has nothing to do with a block. -/
theorem forM_confirm_empty {s : NodeState} (cfg : Config) (h : s.mempool = .empty)
    (txs : List CTransaction) : txs.forM (confirm cfg) s = .done () s := by
  induction txs with
  | nil => rfl
  | cons tx txs ih =>
      have hconfirm : confirm cfg tx s = .done () s := by
        unfold confirm
        rw [Machine.bind_run_done (removeTransaction_empty cfg tx h)]
        exact removeConflicting_empty cfg tx h
      exact (Machine.bind_run_done hconfirm).trans ih

/-- The second state is the first with another tip: `tree` has other flags of
validity, and `view` has been put in place. -/
structure Extended (cfg : Config) (q : Ptr) (view : CCoinsViewCache) (s s' : NodeState) :
    Prop where
  frame : Frame s s'
  judged : s'.mapBlockIndex.map CBlockIndex.judged =
    s.mapBlockIndex.map CBlockIndex.judged
  active : s'.chainActive = s.chainActive.SetTip cfg s'.mapBlockIndex true (some q)
  mostWork : s'.chainMostWork =
    s.chainMostWork.SetTip cfg s.mapBlockIndex false (some q)
  valid : s'.setBlockIndexValid = s.setBlockIndexValid
  coins : s'.pcoinsTip = if (s.ticks 1).fFlush then view.Flush else view
  mempool : s'.mempool = s.mempool
  ticks : s'.ticks = fun n => s.ticks (n + 2)

/-- Connecting an entry on top of the tip, with an empty pool. -/
theorem connectTip_run {cfg : Config} {s : NodeState} {q : Ptr} {pindexNew : CBlockIndex}
    {view : CCoinsViewCache} {vtxundo : CBlockUndo}
    (hentry : s.mapBlockIndex[q]? = some pindexNew)
    (htip : pindexNew.pprev = s.chainActive.Tip)
    (hconnect : ConnectBlock cfg (s.blockContext pindexNew (s.ticks 0).nAdjustedTime)
      (s.readBlock q) s.pcoinsTip false = .ok (view, vtxundo))
    (hpool : s.mempool = .empty) :
    ∃ tree undoFiles, ConnectTip cfg q s = .done ()
        { s.ticked.writeCoins view with
          mapBlockIndex := tree
          undoFiles := undoFiles
          chainActive := s.chainActive.SetTip cfg tree true (some q) } ∧
      tree.map CBlockIndex.judged = s.mapBlockIndex.map CBlockIndex.judged := by
  obtain ⟨tree, undoFiles, hundo, hjudged⟩ :=
    writeUndo_run cfg q pindexNew vtxundo s.ticked
  refine ⟨tree, undoFiles, ?_, hjudged⟩
  have hderef : s.mapBlockIndex.deref (some q) = some pindexNew := hentry
  unfold ConnectTip
  rw [Machine.get_bind_run, deref_bind_run hderef, if_neg (not_not.mpr htip)]
  dsimp only
  rw [tick_bind_run, hconnect]
  dsimp only
  rw [Machine.bind_run_done hundo, Machine.modify_bind_run, writeChainState_run]
  have hpool' : (NodeState.writeCoins { s.ticked with
      mapBlockIndex := tree, undoFiles := undoFiles } view).mempool = .empty := hpool
  exact Machine.bind_run_done (forM_confirm_empty cfg hpool' (s.readBlock q).vtx)

section Extending

variable {cfg : Config} {s : NodeState} {xs : List Ptr} {q : Ptr}
  {pindexNew : CBlockIndex}

theorem AtRest.branch_concat (h : AtRest s xs)
    (hentry : s.mapBlockIndex[q]? = some pindexNew)
    (hprev : pindexNew.pprev = xs.getLast?) : Branch s.mapBlockIndex.pprev (xs ++ [q]) := by
  apply h.active.branch.concat
  rw [pprev_of_getElem? hentry, hprev]

/-- An entry above the tip is not part of the chain. -/
theorem AtRest.not_mem (h : AtRest s xs) (hentry : s.mapBlockIndex[q]? = some pindexNew)
    (hprev : pindexNew.pprev = xs.getLast?) : q ∉ xs := by
  intro hmem
  obtain ⟨i, hi⟩ := List.mem_iff_getElem?.mp hmem
  have hlt := (List.getElem?_eq_some_iff.mp hi).1
  have hlow := h.linked.height_eq h.active.branch hi hentry
  have hlast : (xs ++ [q])[xs.length]? = some q := by simp
  have hhigh := h.linked.height_eq (h.branch_concat hentry hprev) hlast hentry
  omega

theorem AtRest.known_concat (h : AtRest s xs)
    (hentry : s.mapBlockIndex[q]? = some pindexNew) :
    ∀ p ∈ xs ++ [q], p < s.mapBlockIndex.length := by
  intro p hp
  rcases List.mem_append.mp hp with hp | hp
  · exact h.active.known p hp
  · rw [List.mem_singleton.mp hp]
    exact (List.getElem?_eq_some_iff.mp hentry).1

theorem fixed_of_judged {tree tree' : BlockTree}
    (h : tree'.map CBlockIndex.judged = tree.map CBlockIndex.judged) :
    tree'.map CBlockIndex.fixed = tree.map CBlockIndex.fixed := by
  have hmap := congrArg (List.map CBlockIndex.fixed) h
  rw [List.map_map, List.map_map] at hmap
  exact hmap

/-- What is read of an entry apart from its level of validity. -/
theorem getElem?_of_judged {tree tree' : BlockTree}
    (h : tree'.map CBlockIndex.judged = tree.map CBlockIndex.judged) {p : Ptr}
    {pindex : CBlockIndex} (hp : tree'[p]? = some pindex) :
    ∃ pindex', tree[p]? = some pindex' ∧ pindex'.judged = pindex.judged := by
  have hmap := congrArg (fun t => t[p]?) h
  simp only [List.getElem?_map, hp, Option.map_some] at hmap
  exact Option.map_eq_some_iff.mp hmap.symm

theorem failed_of_judged {a b : CBlockIndex} (h : a.judged = b.judged) :
    a.nStatus.failed = b.nStatus.failed := by
  have hfailed := congrArg (fun pindex : CBlockIndex => pindex.nStatus.failed) h
  exact hfailed

/-- A node at rest moves its tip to a better entry above it, if the block of that
entry can be connected. -/
theorem activate_extends {view : CCoinsViewCache} {vtxundo : CBlockUndo}
    (h : AtRest s xs) (hentry : s.mapBlockIndex[q]? = some pindexNew)
    (hprev : pindexNew.pprev = xs.getLast?) (hsound : pindexNew.nStatus.failed = false)
    (hbest : s.rbegin = some q) (hbetter : ∀ tip, xs.getLast? = some tip →
      s.worse tip q = true)
    (hconnect : ConnectBlock cfg (s.blockContext pindexNew (s.ticks 0).nAdjustedTime)
      (s.readBlock q) s.pcoinsTip false = .ok (view, vtxundo))
    (hpool : s.mempool = .empty) (fuel : ℕ) :
    ∃ s', ActivateBestChain cfg (fuel + 1) s = .done () s' ∧
      Extended cfg q view s s' ∧ AtRest s' (xs ++ [q]) := by
  have hbranch := h.branch_concat hentry hprev
  have hknown := h.known_concat hentry
  have hlast : (xs ++ [q]).getLast? = some q := List.getLast?_concat
  have hnot := h.not_mem hentry hprev
  have hmostWork : Path s.mapBlockIndex
      (s.chainMostWork.SetTip cfg s.mapBlockIndex false (some q)) (xs ++ [q]) := by
    rw [← hlast]
    exact h.mostWork.setTip cfg h.linked hbranch hknown false
  have hnotContained : s.chainActive.Contains s.mapBlockIndex q = false :=
    Bool.eq_false_of_not_eq_true fun hq => hnot ((h.active.contains_iff h.linked).mp hq)
  obtain ⟨tree, undoFiles, hrun, hjudged⟩ := connectTip_run (s := { s with
    chainMostWork := s.chainMostWork.SetTip cfg s.mapBlockIndex false (some q) })
    hentry (hprev.trans h.active.tip_eq.symm) hconnect hpool
  have hfixed := fixed_of_judged hjudged
  have hlinked' : WellLinked tree := .of_fixed hfixed h.linked
  have hlen : tree.length = s.mapBlockIndex.length := by
    have hmap := congrArg List.length hjudged
    rwa [List.length_map, List.length_map] at hmap
  have hactive' : Path tree (s.chainActive.SetTip cfg tree true (some q)) (xs ++ [q]) := by
    rw [← hlast]
    apply (h.active.of_fixed hfixed).setTip cfg hlinked'
    · rw [pprev_eq_of_fixed hfixed]
      exact hbranch
    · rw [hlen]
      exact hknown
  have hfailed : findFailed s (pindexNew.nHeight + 2) (some q) = .ok none := by
    rw [findFailed_step hentry, hnotContained, if_neg Bool.false_ne_true, hsound,
      if_neg Bool.false_ne_true, hprev]
    cases htip : xs.getLast? with
    | none => rfl
    | some tip =>
        obtain ⟨pindex, hpindex⟩ := h.entry htip
        rw [findFailed_step hpindex, h.active_contains htip, if_pos rfl]
  have hall : (xs.getLast?.all fun tip => s.worse tip q) = true :=
    (Option.all_eq_true _ _).mpr hbetter
  have hfind := h.findMostWorkChain hbest hentry hfailed cfg
  rw [hall, if_pos rfl] at hfind
  have hnext : (s.chainMostWork.SetTip cfg s.mapBlockIndex false (some q)).atHeight
      s.chainActive.vChain.length = some q := by
    rw [hmostWork.atHeight_eq, h.active.length_eq,
      List.getElem?_append_right (Nat.le_refl _), Nat.sub_self]
    rfl
  have hmost : ∀ tip, s.chainActive.Tip = some tip →
      (s.chainMostWork.SetTip cfg s.mapBlockIndex false (some q)).Contains
        s.mapBlockIndex tip = true := fun tip htip =>
    (hmostWork.contains_iff h.linked).mpr (List.mem_append_left _
      (List.mem_of_getLast? (h.active.tip_eq.symm.trans htip)))
  have hsize := hmostWork.length_eq
  rw [List.length_append, List.length_singleton] at hsize
  have hdisconnect := disconnectLoop_none cfg s.chainActive.vChain.length (s := { s with
    chainMostWork := s.chainMostWork.SetTip cfg s.mapBlockIndex false (some q) })
    hmost
  have hloop := connectLoop_connect cfg (xs.length + 1) (s := { s with
    chainMostWork := s.chainMostWork.SetTip cfg s.mapBlockIndex false (some q) })
    hnotContained hnext hrun
  have hround : activateRound cfg s = .done true { s.ticked.writeCoins view with
      mapBlockIndex := tree
      undoFiles := undoFiles
      chainActive := s.chainActive.SetTip cfg tree true (some q)
      chainMostWork := s.chainMostWork.SetTip cfg s.mapBlockIndex false (some q) } := by
    unfold activateRound
    rw [Machine.bind_run_done hfind, Machine.get_bind_run]
    dsimp only
    rw [hmostWork.tip_eq, hlast]
    dsimp only
    rw [Machine.bind_run_done hdisconnect, hsize, hloop]
    exact connectLoop_complete cfg _
      ((hactive'.contains_iff hlinked').mpr (List.mem_append_right xs List.mem_cons_self))
  refine ⟨_, activateBestChain_of_round cfg fuel hround, ?_, ?_⟩
  · exact {
      frame := ⟨hfixed, rfl, rfl, rfl, rfl⟩
      judged := hjudged
      active := rfl
      mostWork := rfl
      valid := rfl
      coins := rfl
      mempool := rfl
      ticks := rfl }
  · exact {
      linked := hlinked'
      active := hactive'
      mostWork := hmostWork.of_fixed hfixed
      sound := fun htip hq => by
        obtain rfl := Option.some.inj (hlast.symm.trans htip)
        obtain ⟨pindex', hq', hsame⟩ := getElem?_of_judged hjudged hq
        have heq : pindexNew = pindex' := Option.some.inj (hentry.symm.trans hq')
        rw [← failed_of_judged hsame, ← heq, hsound] }

end Extending

end Ziftrcoin.Spec
