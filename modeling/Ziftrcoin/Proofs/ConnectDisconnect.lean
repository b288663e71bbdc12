/-
Module: Ziftrcoin.Proofs.ConnectDisconnect
Purpose: Disconnecting a block that was connected restores the set of unspent
  outputs, and reports so, unless the block spent the last output of a
  transaction of height 0.
Trusted boundary: none
Main exports: ReachableView, disconnectBlock_restores_iff
-/
import Mathlib.Data.List.Forall2
import Ziftrcoin.Lib.Undo
import Ziftrcoin.Proofs.Connecting
import Ziftrcoin.Proofs.SmallNetwork

namespace Ziftrcoin.Spec

open Ziftrcoin.Lib.Outcome
open Ziftrcoin.Lib.Undo

/-! ### The sets that are compared -/

/-- Two unspent outputs that are equal as far as they are kept on disk: the
version only where it is not negative. -/
def UnspentOutput.Equal (u w : UnspentOutput) : Prop :=
  u.txout = w.txout ∧ u.fCoinBase = w.fCoinBase ∧ u.nHeight = w.nHeight ∧
    (0 ≤ u.nVersion → w.nVersion = u.nVersion)

/-- Two views with the same set of unspent outputs. -/
def EqualUnspent (view view' : CCoinsViewCache) : Prop :=
  ∀ o, Option.Rel UnspentOutput.Equal (view.unspent o) (view'.unspent o)

/-- The same comparison, one transaction at a time: the outputs, and the
metadata where there are any. -/
structure SameCoins (a b : CCoins) : Prop where
  output : ∀ n, a.output n = b.output n
  metadata : a.IsPruned = false → a.fCoinBase = b.fCoinBase ∧
    a.nHeight = b.nHeight ∧ (0 ≤ a.nVersion → b.nVersion = a.nVersion)

namespace SameCoins

theorem refl (a : CCoins) : SameCoins a a :=
  ⟨fun _ => rfl, fun _ => ⟨rfl, rfl, fun _ => rfl⟩⟩

theorem isAvailable_eq {a b : CCoins} (h : SameCoins a b) (n : Nat) :
    a.IsAvailable n = b.IsAvailable n := by
  rw [← CCoins.output_isSome, ← CCoins.output_isSome, h.output]

theorem isPruned_eq {a b : CCoins} (h : SameCoins a b) :
    a.IsPruned = b.IsPruned := by
  rw [Bool.eq_iff_iff, CCoins.isPruned_iff, CCoins.isPruned_iff]
  simp only [h.isAvailable_eq]

theorem unspent_rel {a b : CCoins} (h : SameCoins a b) (n : Nat) :
    Option.Rel UnspentOutput.Equal (a.unspent n) (b.unspent n) := by
  unfold CCoins.unspent
  rw [← h.output n]
  cases hn : a.output n with
  | none => exact .none
  | some txout =>
      have havail : a.IsAvailable n = true := by
        rw [← CCoins.output_isSome, hn]
        rfl
      obtain ⟨hcb, hheight, hversion⟩ :=
        h.metadata (CCoins.not_isPruned_iff.mpr ⟨n, havail⟩)
      exact .some ⟨rfl, hcb, hheight, hversion⟩

end SameCoins

/-- The state of a disconnection stands for the same set as a view. -/
structure MatchesView (view : CCoinsViewCache) (d : DisconnectState) : Prop where
  same : ∀ txid, SameCoins (view.entry txid) (d.view.entry txid)
  canonical : d.view.Canonical

theorem MatchesView.equalUnspent {view : CCoinsViewCache} {d : DisconnectState}
    (h : MatchesView view d) : EqualUnspent view d.view := by
  intro o
  rw [CCoinsViewCache.unspent_eq_entry, CCoinsViewCache.unspent_eq_entry]
  exact (h.same o.hash).unspent_rel o.n

/-! ### What gets lost

The undo record of an output that was the last one of its transaction carries
the height of the transaction, and no height means that it was not the last
one.  A transaction of height 0 cannot be told apart from that. -/

/-- On the way from the first view to the second a transaction of height 0
lost its last output. -/
def LosesHeightZero (view view' : CCoinsViewCache) : Prop :=
  ∃ txid coins coins', view.coins txid = some coins ∧
    view'.coins txid = some coins' ∧ coins.nHeight = 0 ∧
    coins.IsPruned = false ∧ coins'.IsPruned = true

/-- No entry disappears or comes back to life, and new ones are above height
0. -/
structure Keeps (view view' : CCoinsViewCache) : Prop where
  persists : ∀ {txid coins}, view.coins txid = some coins →
    ∃ coins', view'.coins txid = some coins' ∧
      coins'.nHeight = coins.nHeight ∧
      (coins.IsPruned = true → coins'.IsPruned = true)
  fresh : ∀ {txid coins'}, view'.coins txid = some coins' →
    view.coins txid = none → coins'.nHeight ≠ 0

namespace Keeps

theorem refl (view : CCoinsViewCache) : Keeps view view where
  persists := fun h => ⟨_, h, rfl, fun hp => hp⟩
  fresh := fun h hnone => by
    rw [h] at hnone
    cases hnone

theorem trans {view view' view'' : CCoinsViewCache} (h : Keeps view view')
    (h' : Keeps view' view'') : Keeps view view'' where
  persists := by
    intro txid coins hcoins
    obtain ⟨coins', hcoins', hheight, hpruned⟩ := h.persists hcoins
    obtain ⟨coins'', hcoins'', hheight', hpruned'⟩ := h'.persists hcoins'
    exact ⟨coins'', hcoins'', hheight'.trans hheight,
      fun hp => hpruned' (hpruned hp)⟩
  fresh := by
    intro txid coins'' hcoins'' hnone
    cases hmid : view'.coins txid with
    | none => exact h'.fresh hcoins'' hmid
    | some coins' =>
        obtain ⟨c, hc, hheight, _⟩ := h'.persists hmid
        rw [hcoins''] at hc
        injection hc with hc
        rw [hc, hheight]
        exact h.fresh hmid hnone

theorem loses_iff {view view' view'' : CCoinsViewCache} (h : Keeps view view')
    (h' : Keeps view' view'') :
    LosesHeightZero view view'' ↔
      LosesHeightZero view view' ∨ LosesHeightZero view' view'' := by
  constructor
  · rintro ⟨txid, coins, coins'', hcoins, hcoins'', hzero, hlive, hpruned⟩
    obtain ⟨coins', hcoins', hheight, _⟩ := h.persists hcoins
    cases hmid : coins'.IsPruned with
    | true => exact .inl ⟨txid, coins, coins', hcoins, hcoins', hzero, hlive, hmid⟩
    | false =>
        exact .inr ⟨txid, coins', coins'', hcoins', hcoins'', hheight.trans hzero,
          hmid, hpruned⟩
  · rintro (⟨txid, coins, coins', hcoins, hcoins', hzero, hlive, hpruned⟩ |
      ⟨txid, coins', coins'', hcoins', hcoins'', hzero, hlive, hpruned⟩)
    · obtain ⟨coins'', hcoins'', _, hpruned'⟩ := h'.persists hcoins'
      exact ⟨txid, coins, coins'', hcoins, hcoins'', hzero, hlive,
        hpruned' hpruned⟩
    · cases hfirst : view.coins txid with
      | none => exact absurd hzero (h.fresh hcoins' hfirst)
      | some coins =>
          obtain ⟨c, hc, hheight, hpruned'⟩ := h.persists hfirst
          rw [hcoins'] at hc
          injection hc with hc
          subst hc
          refine ⟨txid, coins, coins'', hfirst, hcoins'', hheight ▸ hzero, ?_,
            hpruned⟩
          by_contra hp
          rw [hpruned' (by simpa using hp)] at hlive
          cases hlive

/-- One entry changed, keeping its height and staying pruned if it was. -/
theorem setCoins {view : CCoinsViewCache} {txid : uint256} {coins left : CCoins}
    (hcoins : view.coins txid = some coins)
    (hheight : left.nHeight = coins.nHeight)
    (hpruned : coins.IsPruned = true → left.IsPruned = true) :
    Keeps view (view.SetCoins txid left) where
  persists := by
    intro txid' c hc
    by_cases heq : txid' = txid
    · subst heq
      rw [hcoins] at hc
      injection hc with hc
      subst hc
      exact ⟨left, view.coins_setCoins_self _ _, hheight, hpruned⟩
    · exact ⟨c, by rw [view.coins_setCoins_ne heq, hc], rfl, fun hp => hp⟩
  fresh := by
    intro txid' c hc hnone
    by_cases heq : txid' = txid
    · subst heq
      rw [hcoins] at hnone
      cases hnone
    · rw [view.coins_setCoins_ne heq, hnone] at hc
      cases hc

/-- One entry is new and above height 0. -/
theorem create {view : CCoinsViewCache} {txid : uint256} {coins : CCoins}
    (hnone : view.coins txid = none) (hheight : coins.nHeight ≠ 0) :
    Keeps view (view.SetCoins txid coins) where
  persists := by
    intro txid' c hc
    have hne : txid' ≠ txid := by
      rintro rfl
      rw [hnone] at hc
      cases hc
    exact ⟨c, by rw [view.coins_setCoins_ne hne, hc], rfl, fun hp => hp⟩
  fresh := by
    intro txid' c hc hnone'
    by_cases heq : txid' = txid
    · subst heq
      rw [view.coins_setCoins_self] at hc
      injection hc with hc
      exact hc ▸ hheight
    · rw [view.coins_setCoins_ne heq, hnone'] at hc
      cases hc

end Keeps

theorem not_losesHeightZero_self (view : CCoinsViewCache) :
    ¬ LosesHeightZero view view := by
  rintro ⟨txid, coins, coins', h, h', _, hlive, hpruned⟩
  rw [h] at h'
  injection h' with h'
  subst h'
  rw [hlive] at hpruned
  cases hpruned

/-- `f` takes a disconnection from the second view back to the first. -/
abbrev Restores (view view' : CCoinsViewCache)
    (f : DisconnectState → DisconnectState) : Prop :=
  Undoes MatchesView DisconnectState.fClean LosesHeightZero view view' f

/-! ### Inputs -/

/-- An undo record as it may come back from disk: equal, but for a version
that is negative or that is not written. -/
structure ReadBackOf (undo undo' : CTxInUndo) : Prop where
  txout : undo'.txout = undo.txout
  fCoinBase : undo'.fCoinBase = undo.fCoinBase
  nHeight : undo'.nHeight = undo.nHeight
  nVersion : undo.nHeight ≠ 0 → 0 ≤ undo.nVersion →
    undo'.nVersion = undo.nVersion

theorem ReadBackOf.refl (undo : CTxInUndo) : ReadBackOf undo undo :=
  ⟨rfl, rfl, rfl, fun _ _ => rfl⟩

theorem readBackOf_readBack (undo : CTxInUndo) :
    ReadBackOf undo undo.readBack := by
  refine ⟨rfl, rfl, rfl, fun hheight hversion => ?_⟩
  have hpos : 0 < undo.nHeight := Nat.pos_of_ne_zero hheight
  simp [CTxInUndo.readBack, hpos, varInt, hversion]

theorem spendInput_keeps {view view' : CCoinsViewCache} {txin : CTxIn}
    {undo : CTxInUndo} (h : spendInput view txin = .ok (view', undo)) :
    Keeps view view' := by
  obtain ⟨coins, left, hcoins, hspend, rfl⟩ := spendInput_ok h
  refine .setCoins hcoins (CCoins.metadata_spend hspend).2.1 fun hpruned => ?_
  refine CCoins.isPruned_iff.mpr fun m => ?_
  rw [CCoins.isAvailable_spend hspend, CCoins.isPruned_iff.mp hpruned m,
    Bool.and_false]

/-- The entry that `restoreInput` writes, before the output is put back. -/
def restoreBase (d : DisconnectState) (txin : CTxIn) (undo : CTxInUndo) :
    CCoins :=
  if undo.nHeight ≠ 0 then
    { CCoins.empty with
      fCoinBase := undo.fCoinBase, nHeight := undo.nHeight,
      nVersion := undo.nVersion }
  else d.view.entry txin.prevout.hash

/-- The flag after an input was restored. -/
theorem restoreInput_fClean (d : DisconnectState) (txin : CTxIn)
    (undo : CTxInUndo) :
    (restoreInput d txin undo).fClean =
      (d.fClean &&
        (if undo.nHeight ≠ 0 then
            (d.view.entry txin.prevout.hash).IsPruned
          else !(d.view.entry txin.prevout.hash).IsPruned) &&
        !(restoreBase d txin undo).IsAvailable txin.prevout.n) := rfl

/-- The entries after an input was restored. -/
theorem restoreInput_entry (d : DisconnectState) (txin : CTxIn)
    (undo : CTxInUndo) (txid : uint256) :
    (restoreInput d txin undo).view.entry txid =
      if txid = txin.prevout.hash then
        { restoreBase d txin undo with
          vout := (if (restoreBase d txin undo).vout.length <
              txin.prevout.n + 1 then
              (restoreBase d txin undo).vout ++
                List.replicate (txin.prevout.n + 1 -
                  (restoreBase d txin undo).vout.length) CTxOut.null
            else (restoreBase d txin undo).vout).set txin.prevout.n undo.txout }
      else d.view.entry txid := by
  by_cases heq : txid = txin.prevout.hash
  · subst heq
    rw [if_pos rfl]
    exact CCoinsViewCache.entry_setCoins_self _ _ _
  · rw [if_neg heq]
    exact CCoinsViewCache.entry_setCoins_ne _ heq _

/-- Once the base is right the restored state is: it matches the view before
the output was spent. -/
theorem restoreInput_matches {view : CCoinsViewCache} {txin : CTxIn}
    {undo undo' : CTxInUndo} {coins left : CCoins} {d : DisconnectState}
    (hcoins : view.coins txin.prevout.hash = some coins)
    (hspend : coins.Spend txin.prevout.n = some (left, undo))
    (hread : ReadBackOf undo undo')
    (hd : MatchesView (view.SetCoins txin.prevout.hash left) d)
    (hcanonical : (restoreBase d txin undo').Canonical)
    (hbase : ∀ n, left.output n = (restoreBase d txin undo').output n)
    (hmeta : coins.fCoinBase = (restoreBase d txin undo').fCoinBase ∧
      coins.nHeight = (restoreBase d txin undo').nHeight ∧
      (0 ≤ coins.nVersion →
        (restoreBase d txin undo').nVersion = coins.nVersion)) :
    MatchesView view (restoreInput d txin undo') := by
  obtain ⟨txout, htxout, hnull, _, hundo, _⟩ := CCoins.spend_cases hspend
  have hnull' : undo'.txout.IsNull = false := by
    rw [hread.txout, hundo, hnull]
  refine ⟨fun txid => ?_, fun txid => ?_⟩
  · rw [restoreInput_entry]
    by_cases heq : txid = txin.prevout.hash
    · subst heq
      rw [if_pos rfl, CCoinsViewCache.entry_eq hcoins]
      refine ⟨fun n => ?_, fun _ => hmeta⟩
      rw [CCoins.output_restore hnull', ← hbase, CCoins.output_spend hspend]
      by_cases hn : n = txin.prevout.n
      · rw [if_pos hn, hn, hread.txout, hundo]
        simp [CCoins.output, htxout, hnull]
      · rw [if_neg hn, if_neg hn]
    · rw [if_neg heq]
      have := hd.same txid
      rwa [CCoinsViewCache.entry_setCoins_ne _ heq] at this
  · rw [restoreInput_entry]
    by_cases heq : txid = txin.prevout.hash
    · rw [if_pos heq]
      exact hcanonical.restore hnull'
    · rw [if_neg heq]
      exact hd.canonical txid

section RestoreInput

variable {view : CCoinsViewCache} {txin : CTxIn} {undo undo' : CTxInUndo} {coins left : CCoins}
  {d : DisconnectState}

/-- The last output of a transaction was spent: the record of the undo data with
its height is the entry again. -/
theorem restoreInput_last (hcoins : view.coins txin.prevout.hash = some coins)
    (hspend : coins.Spend txin.prevout.n = some (left, undo)) (hread : ReadBackOf undo undo')
    (hd : MatchesView (view.SetCoins txin.prevout.hash left) d)
    (hpruned : left.IsPruned = true) (hpos : undo'.nHeight ≠ 0) :
    MatchesView view (restoreInput d txin undo') ∧
      (restoreInput d txin undo').fClean = d.fClean := by
  obtain ⟨txout, htxout, hnull, hleft, hundo, hlast, hother⟩ := CCoins.spend_cases hspend
  have hnil : left.vout = [] := by
    rw [hleft] at hpruned ⊢
    exact (CCoins.cleanup_vout_eq_nil_iff _).mpr hpruned
  obtain ⟨hcb', hheight', hversion'⟩ := hlast hnil
  have hbase : restoreBase d txin undo' =
      { CCoins.empty with
        fCoinBase := undo'.fCoinBase, nHeight := undo'.nHeight,
        nVersion := undo'.nVersion } := if_pos hpos
  have hempty : (d.view.entry txin.prevout.hash).IsPruned = true := by
    have hsame := hd.same txin.prevout.hash
    rw [view.entry_setCoins_self] at hsame
    rw [← hsame.isPruned_eq, hpruned]
  constructor
  · refine restoreInput_matches hcoins hspend hread hd ?_ ?_ ?_
    · rw [hbase]
      intro o hmem
      simp [CCoins.empty] at hmem
    · intro n
      rw [hbase, CCoins.output_eq_none_of_isPruned hpruned]
      rfl
    · rw [hbase]
      refine ⟨?_, ?_, fun hnonneg => ?_⟩
      · simp only [hread.fCoinBase, hcb']
      · simp only [hread.nHeight, hheight']
      · have hpos' : undo.nHeight ≠ 0 := hread.nHeight ▸ hpos
        simp only
        rw [hread.nVersion hpos' (by rw [hversion']; exact hnonneg), hversion']
  · rw [restoreInput_fClean, hempty, hbase]
    simp [hpos, CCoins.IsAvailable, CCoins.empty]

/-- Other outputs are left: the entry is still there, and gets one back. -/
theorem restoreInput_other (hcoins : view.coins txin.prevout.hash = some coins)
    (hspend : coins.Spend txin.prevout.n = some (left, undo)) (hread : ReadBackOf undo undo')
    (hd : MatchesView (view.SetCoins txin.prevout.hash left) d)
    (hpruned : left.IsPruned = false) :
    MatchesView view (restoreInput d txin undo') ∧
      (restoreInput d txin undo').fClean = d.fClean := by
  obtain ⟨txout, htxout, hnull, hleft, hundo, hlast, hother⟩ := CCoins.spend_cases hspend
  have hne : left.vout ≠ [] := by
    intro hnil
    rw [hleft] at hnil hpruned
    exact Bool.false_ne_true (hpruned.symm.trans ((CCoins.cleanup_vout_eq_nil_iff _).mp hnil))
  have hgone : left.IsAvailable txin.prevout.n = false := by
    simp [CCoins.isAvailable_spend hspend]
  obtain ⟨hcb, hheight, hversion⟩ := CCoins.metadata_spend hspend
  have hsame := hd.same txin.prevout.hash
  rw [view.entry_setCoins_self] at hsame
  have hzero : undo'.nHeight = 0 := by rw [hread.nHeight, hother hne]
  have hbase : restoreBase d txin undo' = d.view.entry txin.prevout.hash :=
    if_neg (not_not.mpr hzero)
  obtain ⟨hcb', hheight', hversion'⟩ := hsame.metadata hpruned
  constructor
  · refine restoreInput_matches hcoins hspend hread hd ?_ ?_ ?_
    · rw [hbase]
      exact hd.canonical txin.prevout.hash
    · intro n
      rw [hbase]
      exact hsame.output n
    · rw [hbase, ← hcb, ← hheight, ← hversion]
      exact ⟨hcb', hheight', hversion'⟩
  · have hlive' : (d.view.entry txin.prevout.hash).IsPruned = false := by
      rw [← hsame.isPruned_eq, hpruned]
    rw [restoreInput_fClean, hlive', hbase, ← hsame.isAvailable_eq, hgone, hzero]
    simp

end RestoreInput

/-- Restoring an input takes back what spending it did. -/
theorem restoreInput_undoes {view view' : CCoinsViewCache} {txin : CTxIn}
    {undo undo' : CTxInUndo} (h : spendInput view txin = .ok (view', undo))
    (hread : ReadBackOf undo undo') :
    Restores view view' fun d => restoreInput d txin undo' := by
  obtain ⟨coins, left, hcoins, hspend, rfl⟩ := spendInput_ok h
  obtain ⟨txout, htxout, hnull, hleft, hundo, hlast, hother⟩ :=
    CCoins.spend_cases hspend
  have hlive : coins.IsPruned = false :=
    CCoins.not_isPruned_iff.mpr
      ⟨_, CCoins.isAvailable_iff.mpr ⟨txout, htxout, hnull⟩⟩
  have hnil : left.vout = [] ↔ left.IsPruned = true := by
    rw [hleft]
    exact CCoins.cleanup_vout_eq_nil_iff _
  constructor
  · intro d hd
    show (restoreInput d txin undo').fClean = false
    rw [restoreInput_fClean, hd]
    rfl
  · rintro ⟨txid, c, c', hc, hc', hzero, hclive, hcpruned⟩ d hd
    -- Only the entry that was spent from can have become pruned.
    have heq : txid = txin.prevout.hash := by
      by_contra hne
      rw [view.coins_setCoins_ne hne, hc] at hc'
      injection hc' with hc'
      subst hc'
      rw [hclive] at hcpruned
      cases hcpruned
    subst heq
    rw [hcoins] at hc
    injection hc with hc
    subst hc
    rw [view.coins_setCoins_self] at hc'
    injection hc' with hc'
    subst hc'
    have hundo0 : undo'.nHeight = 0 := by
      rw [hread.nHeight, (hlast (hnil.mpr hcpruned)).2.1, hzero]
    have hentry : (d.view.entry txin.prevout.hash).IsPruned = true := by
      have hsame := hd.same txin.prevout.hash
      rw [view.entry_setCoins_self] at hsame
      rw [← hsame.isPruned_eq, hcpruned]
    show (restoreInput d txin undo').fClean = false
    rw [restoreInput_fClean, hentry, hundo0]
    simp
  · intro hkept d hd
    cases hpruned : left.IsPruned with
    | true =>
        refine restoreInput_last hcoins hspend hread hd hpruned fun hzero => ?_
        refine hkept ⟨txin.prevout.hash, coins, left, hcoins,
          view.coins_setCoins_self _ _, ?_, hlive, hpruned⟩
        rw [← (hlast (hnil.mpr hpruned)).2.1, ← hread.nHeight, hzero]
    | false => exact restoreInput_other hcoins hspend hread hd hpruned

/-- A list of inputs, the last one restored first. -/
theorem restoreInputs_undoes :
    ∀ {vin : List CTxIn} {view view' : CCoinsViewCache}
      {undos undos' : List CTxInUndo},
      spendInputs view vin = .ok (view', undos) →
      List.Forall₂ ReadBackOf undos undos' →
      Restores view view' (fun d => restoreInputs d (vin.zip undos')) ∧
        Keeps view view' ∧ undos'.length = vin.length
  | [], view, view', undos, undos', h, hread => by
      simp only [spendInputs, Except.ok.injEq, Prod.mk.injEq] at h
      obtain ⟨rfl, rfl⟩ := h
      cases hread
      exact ⟨.id (not_losesHeightZero_self view), .refl view, rfl⟩
  | txin :: vin, view, view', undos, undos', h, hread => by
      obtain ⟨view₁, undo, rest, hfirst, hrest, rfl⟩ := spendInputs_cons_ok h
      cases hread with
      | cons hundo hread =>
          obtain ⟨hundoes, hkeeps, hlen⟩ := restoreInputs_undoes hrest hread
          have hkeeps₁ := spendInput_keeps hfirst
          refine ⟨?_, hkeeps₁.trans hkeeps, by simp [hlen]⟩
          exact (restoreInput_undoes hfirst hundo).comp hundoes
            (hkeeps₁.loses_iff hkeeps)

/-! ### Transactions -/

theorem spendInputs_coins_none :
    ∀ {vin : List CTxIn} {view view' : CCoinsViewCache} {undos : List CTxInUndo}
      {txid : uint256}, spendInputs view vin = .ok (view', undos) →
      view.coins txid = none → view'.coins txid = none
  | [], view, view', undos, txid, h, hnone => by
      simp only [spendInputs, Except.ok.injEq, Prod.mk.injEq] at h
      exact h.1 ▸ hnone
  | txin :: vin, view, view', undos, txid, h, hnone => by
      obtain ⟨view₁, undo, rest, hfirst, hrest, rfl⟩ := spendInputs_cons_ok h
      obtain ⟨coins, left, hcoins, _, rfl⟩ := spendInput_ok hfirst
      refine spendInputs_coins_none hrest ?_
      have hne : txid ≠ txin.prevout.hash := by
        rintro rfl
        rw [hcoins] at hnone
        cases hnone
      rw [view.coins_setCoins_ne hne, hnone]

theorem markSpent_coins_none {tx : CTransaction} {view view' : CCoinsViewCache}
    {txundo : CTxUndo} {txid : uint256}
    (h : markSpent tx view = .ok (view', txundo))
    (hnone : view.coins txid = none) : view'.coins txid = none := by
  rcases markSpent_cases h with ⟨-, rfl, -⟩ | ⟨-, hspent⟩
  · exact hnone
  · exact spendInputs_coins_none hspent hnone

/-- What the comparison of `DisconnectBlock` finds when the outputs of a
transaction are all there. -/
theorem removeOutputs_clean {tx : CTransaction} {nHeight : Nat} {outs : CCoins}
    (hvalues : ∀ txout ∈ tx.vout, 0 ≤ txout.nValue)
    (hsame : SameCoins (CCoins.ofTx tx nHeight) outs) (hc : outs.Canonical) :
    ((if (CCoins.ofTx tx nHeight).nVersion < 0 then
        { outs.ClearUnspendable with
          nVersion := (CCoins.ofTx tx nHeight).nVersion }
      else outs.ClearUnspendable).beq (CCoins.ofTx tx nHeight)) = true := by
  have hspendable : ∀ (n : Nat) (txout : CTxOut), outs.vout[n]? = some txout →
      txout.IsNull = false → txout.scriptPubKey.IsUnspendable = false := by
    intro n txout htxout hnull
    have hout : outs.output n = some txout := by
      simp [CCoins.output, htxout, hnull]
    rw [← hsame.output n] at hout
    unfold CCoins.output at hout
    cases hget : (CCoins.ofTx tx nHeight).vout[n]? with
    | none => simp [hget] at hout
    | some txout' =>
        simp only [hget] at hout
        split at hout
        · cases hout
        · rename_i hnull'
          injection hout with hout
          subst hout
          exact CCoins.spendable_ofTx hget (by simpa using hnull')
  have hcleared : ∀ n, outs.ClearUnspendable.output n =
      (CCoins.ofTx tx nHeight).output n := by
    intro n
    rw [CCoins.output_clearUnspendable_of_spendable hspendable, hsame.output]
  unfold CCoins.beq
  cases hpruned : (CCoins.ofTx tx nHeight).IsPruned with
  | true =>
      have hgone : outs.ClearUnspendable.IsPruned = true := by
        refine CCoins.isPruned_of_output fun n => ?_
        rw [hcleared, CCoins.output_eq_none_of_isPruned hpruned]
      have hgone' : (if (CCoins.ofTx tx nHeight).nVersion < 0 then
          { outs.ClearUnspendable with
            nVersion := (CCoins.ofTx tx nHeight).nVersion }
          else outs.ClearUnspendable).IsPruned = true := by
        split
        · exact hgone
        · exact hgone
      simp [hgone']
  | false =>
      obtain ⟨hcb, hheight, hversion⟩ := hsame.metadata hpruned
      -- Both vectors are cleaned up and canonical, so equal outputs make them
      -- equal.
      have hvout : outs.ClearUnspendable.vout =
          (CCoins.ofTx tx nHeight).vout := by
        refine CCoins.cleanup_vout_eq_of_output_eq
          (CCoins.canonical_map_clearUnspendable hc)
          (CCoins.canonical_map_clearUnspendable
            (CCoins.canonical_of_values hvalues)) fun n => ?_
        have := hcleared n
        unfold CCoins.ofTx CCoins.ClearUnspendable at this
        rwa [CCoins.output_cleanup, CCoins.output_cleanup] at this
      by_cases hneg : (CCoins.ofTx tx nHeight).nVersion < 0
      · rw [if_pos hneg]
        have hcb' : outs.ClearUnspendable.fCoinBase = outs.fCoinBase := rfl
        have hheight' : outs.ClearUnspendable.nHeight = outs.nHeight := rfl
        simp [hvout, hcb', hheight', hcb, hheight]
      · rw [if_neg hneg]
        have hcb' : outs.ClearUnspendable.fCoinBase = outs.fCoinBase := rfl
        have hheight' : outs.ClearUnspendable.nHeight = outs.nHeight := rfl
        have hversion' : outs.ClearUnspendable.nVersion = outs.nVersion := rfl
        simp [hvout, hcb', hheight', hversion', hcb, hheight,
          hversion (by omega)]

/-- Removing the outputs of a transaction takes back that they were added. -/
theorem removeOutputs_undoes {crypto : Crypto} {nHeight : Nat}
    {view : CCoinsViewCache} {tx : CTransaction}
    (hvalues : ∀ txout ∈ tx.vout, 0 ≤ txout.nValue)
    (hnone : view.coins (tx.GetHash crypto) = none) :
    Restores view (view.SetCoins (tx.GetHash crypto) (CCoins.ofTx tx nHeight))
      fun d => removeOutputs crypto nHeight d tx := by
  constructor
  · intro d hd
    show (removeOutputs crypto nHeight d tx).fClean = false
    unfold removeOutputs
    simp [hd]
  · rintro ⟨txid, c, c', hc, hc', _, hlive, hpruned⟩ d _
    have hne : txid ≠ tx.GetHash crypto := by
      rintro rfl
      rw [hnone] at hc
      cases hc
    rw [view.coins_setCoins_ne hne, hc] at hc'
    injection hc' with hc'
    subst hc'
    rw [hlive] at hpruned
    cases hpruned
  · intro _ d hd
    have hsame := hd.same (tx.GetHash crypto)
    rw [view.entry_setCoins_self] at hsame
    have hentry : ∀ txid, (removeOutputs crypto nHeight d tx).view.entry txid =
        if txid = tx.GetHash crypto then CCoins.empty else d.view.entry txid := by
      intro txid
      show (if d.view.HaveCoins (tx.GetHash crypto) then
        d.view.SetCoins (tx.GetHash crypto) CCoins.empty else d.view).entry txid
          = _
      by_cases heq : txid = tx.GetHash crypto
      · subst heq
        rw [if_pos rfl]
        cases hhave : d.view.HaveCoins (tx.GetHash crypto) with
        | true => simp
        | false =>
            refine CCoinsViewCache.entry_eq_empty ?_
            simpa [CCoinsViewCache.HaveCoins] using hhave
      · rw [if_neg heq]
        split
        · exact CCoinsViewCache.entry_setCoins_ne _ heq _
        · rfl
    refine ⟨⟨fun txid => ?_, fun txid => ?_⟩, ?_⟩
    · rw [hentry]
      by_cases heq : txid = tx.GetHash crypto
      · rw [if_pos heq, heq, CCoinsViewCache.entry_eq_empty hnone]
        exact .refl _
      · have hother := hd.same txid
        rw [view.entry_setCoins_ne heq] at hother
        rwa [if_neg heq]
    · rw [hentry]
      by_cases heq : txid = tx.GetHash crypto
      · rw [if_pos heq]
        intro o hmem
        simp [CCoins.empty] at hmem
      · rw [if_neg heq]
        exact hd.canonical txid
    · have hclean := removeOutputs_clean hvalues hsame
        (hd.canonical (tx.GetHash crypto))
      exact (congrArg (d.fClean && ·) hclean).trans (Bool.and_true _)

/-- The record that a disconnection is given for a transaction: none for a
coinbase, else one that was read back. -/
def RecordFor (tx : CTransaction) (txundo : CTxUndo)
    (record : Option CTxUndo) : Prop :=
  if tx.IsCoinBase then record = none
  else ∃ txundo', record = some txundo' ∧ List.Forall₂ ReadBackOf txundo txundo'

/-- One transaction. -/
theorem disconnectTx_undoes {crypto : Crypto} {nHeight : Nat}
    {view view' : CCoinsViewCache} {tx : CTransaction} {txundo : CTxUndo}
    {record : Option CTxUndo} (hheight : nHeight ≠ 0)
    (hvalues : ∀ txout ∈ tx.vout, 0 ≤ txout.nValue)
    (hnone : view.coins (tx.GetHash crypto) = none)
    (h : UpdateCoins tx view nHeight (tx.GetHash crypto) = .ok (view', txundo))
    (hrecord : RecordFor tx txundo record) :
    (∃ f, (∀ d, disconnectTx crypto nHeight d tx record = .ok (f d)) ∧
      Restores view view' f) ∧ Keeps view view' := by
  obtain ⟨view₁, hspent, rfl⟩ := updateCoins_ok h
  have hnone₁ := markSpent_coins_none hspent hnone
  have hcreate : Keeps view₁ (view₁.SetCoins (tx.GetHash crypto)
      (CCoins.ofTx tx nHeight)) := .create hnone₁ hheight
  have hremove : Restores view₁ (view₁.SetCoins (tx.GetHash crypto)
      (CCoins.ofTx tx nHeight)) fun d => removeOutputs crypto nHeight d tx :=
    removeOutputs_undoes hvalues hnone₁
  unfold RecordFor at hrecord
  rcases markSpent_cases hspent with ⟨hcb, rfl, rfl⟩ | ⟨hcb, hspent⟩
  · rw [hcb, if_pos rfl] at hrecord
    subst hrecord
    exact ⟨⟨_, fun _ => rfl, hremove⟩, hcreate⟩
  · rw [hcb, if_neg Bool.false_ne_true] at hrecord
    obtain ⟨txundo', rfl, hread⟩ := hrecord
    obtain ⟨hrestore, hkeeps, hlen⟩ := restoreInputs_undoes hspent hread
    refine ⟨⟨_, fun d => ?_, hrestore.comp hremove (hkeeps.loses_iff hcreate)⟩,
      hkeeps.trans hcreate⟩
    unfold disconnectTx
    simp [hlen]

/-- All transactions of a block, the last one first. -/
theorem disconnectTxs_undoes {crypto : Crypto} {nHeight : Nat}
    (hheight : nHeight ≠ 0) {view view' : CCoinsViewCache}
    {txs : List CTransaction} {txundos : List CTxUndo}
    (h : ViewConnects crypto nHeight view txs txundos view') :
    ∀ {records : List (Option CTxUndo)},
      (∀ tx ∈ txs, ∀ txout ∈ tx.vout, 0 ≤ txout.nValue) →
      (txs.map (CTransaction.GetHash crypto)).Nodup →
      (∀ tx ∈ txs, view.coins (tx.GetHash crypto) = none) →
      List.Forall₂ (fun p record => RecordFor p.1 p.2 record) (txs.zip txundos)
        records →
      (∃ f, (∀ d, disconnectTxs crypto nHeight d (txs.zip records) =
        .ok (f d)) ∧ Restores view view' f) ∧ Keeps view view' := by
  induction h with
  | nil view =>
      intro records _ _ _ _
      exact ⟨⟨fun d => d, fun _ => rfl, .id (not_losesHeightZero_self view)⟩,
        .refl view⟩
  | cons update rest ih =>
      rename_i view view₁ view₂ tx txs txundo txundos
      intro records hvalues hnodup hnone hrecords
      rw [List.zip_cons_cons] at hrecords
      rw [List.map_cons, List.nodup_cons] at hnodup
      cases hrecords with
      | cons hrecord hrecords =>
          rename_i record records
          have hupdate := updateCoins_ok update
          obtain ⟨viewSpent, hspent, hview₁⟩ := hupdate
          have hnone' : ∀ tx' ∈ txs, view₁.coins (tx'.GetHash crypto) = none := by
            intro tx' hmem
            have hne : tx'.GetHash crypto ≠ tx.GetHash crypto := by
              intro heq
              exact hnodup.1 (heq ▸ List.mem_map_of_mem hmem)
            rw [hview₁, viewSpent.coins_setCoins_ne hne]
            exact markSpent_coins_none hspent
              (hnone tx' (List.mem_cons_of_mem tx hmem))
          obtain ⟨⟨f, hf, hundoes⟩, hkeeps⟩ := disconnectTx_undoes hheight
            (hvalues tx List.mem_cons_self) (hnone tx List.mem_cons_self) update
            hrecord
          obtain ⟨⟨g, hg, hundoes'⟩, hkeeps'⟩ := ih
            (fun tx' hmem => hvalues tx' (List.mem_cons_of_mem tx hmem))
            hnodup.2 hnone' hrecords
          refine ⟨⟨fun d => f (g d), fun d => ?_,
            hundoes.comp hundoes' (hkeeps.loses_iff hkeeps')⟩,
            hkeeps.trans hkeeps'⟩
          rw [List.zip_cons_cons, disconnectTxs, hg, ok_bind, hf]

/-! ### Canonical views -/

theorem spendInputs_canonical :
    ∀ {vin : List CTxIn} {view view' : CCoinsViewCache} {undos : List CTxInUndo},
      spendInputs view vin = .ok (view', undos) → view.Canonical →
      view'.Canonical
  | [], view, view', undos, h, hc => by
      simp only [spendInputs, Except.ok.injEq, Prod.mk.injEq] at h
      exact h.1 ▸ hc
  | txin :: vin, view, view', undos, h, hc => by
      obtain ⟨view₁, undo, rest, hfirst, hrest, rfl⟩ := spendInputs_cons_ok h
      obtain ⟨coins, left, hcoins, hspend, rfl⟩ := spendInput_ok hfirst
      refine spendInputs_canonical hrest (hc.setCoins ?_)
      have hcoins' := hc txin.prevout.hash
      rw [CCoinsViewCache.entry_eq hcoins] at hcoins'
      exact hcoins'.spend hspend

theorem ViewConnects.canonical {crypto : Crypto} {nHeight : Nat}
    {view view' : CCoinsViewCache} {txs : List CTransaction}
    {txundos : List CTxUndo}
    (h : ViewConnects crypto nHeight view txs txundos view')
    (hvalues : ∀ tx ∈ txs, ∀ txout ∈ tx.vout, 0 ≤ txout.nValue)
    (hc : view.Canonical) : view'.Canonical := by
  induction h with
  | nil => exact hc
  | cons update _ ih =>
      rename_i tx _ _ _ _
      refine ih (fun tx' hmem => hvalues tx' (List.mem_cons_of_mem tx hmem)) ?_
      obtain ⟨viewSpent, hspent, rfl⟩ := updateCoins_ok update
      refine CCoinsViewCache.Canonical.setCoins ?_
        (CCoins.canonical_ofTx (hvalues tx List.mem_cons_self))
      rcases markSpent_cases hspent with ⟨-, rfl, -⟩ | ⟨-, hspent⟩
      · exact hc
      · exact spendInputs_canonical hspent hc

theorem BlockChecked.values {cfg : Config} {block : CBlock}
    {coinbase : CTransaction} {txs : List CTransaction}
    (h : BlockChecked cfg block coinbase txs) :
    ∀ tx ∈ block.vtx, ∀ txout ∈ tx.vout, 0 ≤ txout.nValue := by
  intro tx hmem txout hout
  have hchecked := checkTransaction_ok (h.checked tx hmem)
  exact (checkOutputs_range hchecked.2.2.1 txout hout).1

theorem connectBlock_canonical {cfg : Config} {ctx : BlockContext}
    {block : CBlock} {view view' : CCoinsViewCache} {vtxundo : CBlockUndo}
    (h : ConnectBlock cfg ctx block view false = .ok (view', vtxundo))
    (hc : view.Canonical) : view'.Canonical := by
  obtain ⟨coinbase, txs, view₁, hblock, _, _, hviews, rfl⟩ :=
    connectBlock_views h
  exact hviews.canonical hblock.values hc

/-! ### Reachable views -/

/-- The views that connecting blocks one after the other leads to, from the
genesis block on, with a flush to disk at any time; and the height of the last
block. -/
inductive ReachableView (cfg : Config) : CCoinsViewCache → Nat → Prop where
  | genesis {ctx : BlockContext} {view : CCoinsViewCache} {vtxundo : CBlockUndo}
      (nHeight : ctx.nHeight = 0) (hashPrev : ctx.hashPrev = none)
      (connects : ConnectBlock cfg ctx cfg.GenesisBlock .empty false =
        .ok (view, vtxundo)) : ReachableView cfg view 0
  | connect {ctx : BlockContext} {block : CBlock} {view view' : CCoinsViewCache}
      {vtxundo : CBlockUndo} {height : Nat} (reachable : ReachableView cfg view height)
      (nHeight : ctx.nHeight = height + 1)
      (connects : ConnectBlock cfg ctx block view false = .ok (view', vtxundo)) :
      ReachableView cfg view' (height + 1)
  | flush {view : CCoinsViewCache} {height : Nat}
      (reachable : ReachableView cfg view height) :
      ReachableView cfg view.Flush height

theorem ReachableView.canonical {cfg : Config} {view : CCoinsViewCache}
    {height : Nat} (h : ReachableView cfg view height) : view.Canonical := by
  induction h with
  | genesis _ _ connects =>
      refine connectBlock_canonical connects fun txid o hmem => ?_
      simp [CCoinsViewCache.entry, CCoinsViewCache.empty, CCoins.empty] at hmem
  | connect _ _ connects ih => exact connectBlock_canonical connects ih
  | flush _ _ => exact CCoinsViewCache.canonical_flush _

/-! ### The condition in terms of the block -/

/-- The outputs that a list of transactions spends. -/
def spentBy (txs : List CTransaction) : List COutPoint :=
  (txs.filter fun tx => !tx.IsCoinBase).flatMap fun tx =>
    tx.vin.map CTxIn.prevout

/-- A transaction of height 0 has unspent outputs, and the block spends all of
them. -/
def SpendsLastOutputAtHeightZero (view : CCoinsViewCache) (block : CBlock) :
    Prop :=
  ∃ txid coins, view.coins txid = some coins ∧ coins.nHeight = 0 ∧
    coins.IsPruned = false ∧
    ∀ n, coins.IsAvailable n = true → ⟨txid, n⟩ ∈ spentBy block.vtx

theorem available_spendInputs {vin : List CTxIn} {view view' : CCoinsViewCache}
    {undos : List CTxInUndo} (h : spendInputs view vin = .ok (view', undos))
    (o : COutPoint) :
    view'.available o =
      (view.available o && decide (o ∉ vin.map CTxIn.prevout)) := by
  rw [← CCoinsViewCache.unspent_isSome, ← CCoinsViewCache.unspent_isSome,
    unspent_spendInputs h]
  by_cases hmem : o ∈ vin.map CTxIn.prevout <;> simp [hmem]

/-- For a transaction that the view knows, the outputs that are left are those
that the block does not spend. -/
theorem ViewConnects.available_eq {crypto : Crypto} {nHeight : Nat}
    {view view' : CCoinsViewCache} {txs : List CTransaction}
    {txundos : List CTxUndo}
    (h : ViewConnects crypto nHeight view txs txundos view') {o : COutPoint}
    (hold : ∀ tx ∈ txs, tx.GetHash crypto ≠ o.hash) :
    view'.available o = (view.available o && decide (o ∉ spentBy txs)) := by
  induction h with
  | nil => simp [spentBy]
  | cons update _ ih =>
      rename_i tx txs _ _ _
      rw [ih fun tx' hmem => hold tx' (List.mem_cons_of_mem tx hmem)]
      obtain ⟨viewSpent, hspent, rfl⟩ := updateCoins_ok update
      have hne : o.hash ≠ tx.GetHash crypto :=
        (hold tx List.mem_cons_self).symm
      rw [CCoinsViewCache.available_eq_entry, CCoinsViewCache.entry_setCoins_ne _
        hne, ← CCoinsViewCache.available_eq_entry]
      rcases markSpent_cases hspent with ⟨hcb, rfl, -⟩ | ⟨hcb, hspent⟩
      · simp [spentBy, hcb]
      · have hmem : o ∉ spentBy (tx :: txs) ↔
            o ∉ tx.vin.map CTxIn.prevout ∧ o ∉ spentBy txs := by
          simp [spentBy, hcb]
        rw [available_spendInputs hspent, Bool.and_assoc, ← Bool.decide_and]
        simp only [hmem]

theorem losesHeightZero_iff {crypto : Crypto} {nHeight : Nat}
    {view view' : CCoinsViewCache} {block : CBlock} {txundos : List CTxUndo}
    (h : ViewConnects crypto nHeight view block.vtx txundos view')
    (hfresh : ∀ tx ∈ block.vtx, view.coins (tx.GetHash crypto) = none)
    (hkeeps : Keeps view view') :
    LosesHeightZero view view' ↔ SpendsLastOutputAtHeightZero view block := by
  have havail : ∀ {txid coins coins'}, view.coins txid = some coins →
      view'.coins txid = some coins' → ∀ n, coins'.IsAvailable n =
        (coins.IsAvailable n && decide (⟨txid, n⟩ ∉ spentBy block.vtx)) := by
    intro txid coins coins' hcoins hcoins' n
    have hold : ∀ tx ∈ block.vtx, tx.GetHash crypto ≠ txid := by
      rintro tx hmem rfl
      rw [hfresh tx hmem] at hcoins
      cases hcoins
    have heq := h.available_eq (o := ⟨txid, n⟩) hold
    rwa [CCoinsViewCache.available_eq_entry, CCoinsViewCache.available_eq_entry,
      CCoinsViewCache.entry_eq hcoins, CCoinsViewCache.entry_eq hcoins'] at heq
  constructor
  · rintro ⟨txid, coins, coins', hcoins, hcoins', hzero, hlive, hpruned⟩
    refine ⟨txid, coins, hcoins, hzero, hlive, fun n hn => ?_⟩
    have hgone := CCoins.isPruned_iff.mp hpruned n
    rw [havail hcoins hcoins', hn, Bool.true_and, decide_eq_false_iff_not,
      not_not] at hgone
    exact hgone
  · rintro ⟨txid, coins, hcoins, hzero, hlive, hspent⟩
    obtain ⟨coins', hcoins', _, _⟩ := hkeeps.persists hcoins
    refine ⟨txid, coins, coins', hcoins, hcoins', hzero, hlive, ?_⟩
    refine CCoins.isPruned_iff.mpr fun n => ?_
    rw [havail hcoins hcoins']
    cases hn : coins.IsAvailable n with
    | false => rfl
    | true => simp [hspent n hn]

/-! ### The theorem -/

/-- The undo record that `ConnectBlock` made, as it was or as it comes back
from disk. -/
def SameUndo (vtxundo vtxundo' : CBlockUndo) : Prop :=
  vtxundo' = vtxundo ∨
    vtxundo' = vtxundo.map fun txundo => txundo.map CTxInUndo.readBack

theorem SameUndo.records {vtxundo vtxundo' : CBlockUndo}
    (h : SameUndo vtxundo vtxundo') :
    List.Forall₂ (List.Forall₂ ReadBackOf) vtxundo vtxundo' := by
  rcases h with rfl | rfl
  · exact List.forall₂_same.mpr fun _ _ =>
      List.forall₂_same.mpr fun undo _ => .refl undo
  · refine List.forall₂_map_right_iff.mpr (List.forall₂_same.mpr fun _ _ => ?_)
    exact List.forall₂_map_right_iff.mpr
      (List.forall₂_same.mpr fun undo _ => readBackOf_readBack undo)

theorem recordsFor_of_notCoinBase :
    ∀ {txs : List CTransaction} {vtxundo vtxundo' : CBlockUndo},
      (∀ tx ∈ txs, tx.IsCoinBase = false) →
      List.Forall₂ (List.Forall₂ ReadBackOf) vtxundo vtxundo' →
      vtxundo.length = txs.length →
      List.Forall₂ (fun (p : CTransaction × CTxUndo) record =>
        RecordFor p.1 p.2 record) (txs.zip vtxundo) (vtxundo'.map some)
  | [], [], _, _, .nil, _ => .nil
  | [], _ :: _, _, _, _, hlen => by simp at hlen
  | _ :: _, [], _, _, _, hlen => by simp at hlen
  | tx :: txs, _ :: _, _, hcb, .cons hread hreads, hlen => by
      refine .cons ?_ (recordsFor_of_notCoinBase
        (fun tx' hmem => hcb tx' (List.mem_cons_of_mem tx hmem)) hreads
        (by simpa using hlen))
      unfold RecordFor
      rw [if_neg (by simp [hcb tx List.mem_cons_self])]
      exact ⟨_, rfl, hread⟩

/-- What disconnecting a block does to the view that connecting it made.  The
view is any canonical one. -/
theorem disconnectBlock_of_connectBlock {cfg : Config} {ctx : BlockContext}
    {block : CBlock} {view view' : CCoinsViewCache} {hashPrev : uint256}
    {vtxundo vtxundo' : CBlockUndo} (hc : view.Canonical)
    (hheight : ctx.nHeight ≠ 0) (hprev : ctx.hashPrev = some hashPrev)
    (hconnect : ConnectBlock cfg ctx block view false = .ok (view', vtxundo))
    (hundo : SameUndo vtxundo vtxundo') :
    ∃ d : DisconnectState,
      DisconnectBlock cfg.crypto ctx block (some vtxundo') view' =
        .ok (d.view.SetBestBlock view.hashBlock, d.fClean) ∧
      (SpendsLastOutputAtHeightZero view block → d.fClean = false) ∧
      (¬ SpendsLastOutputAtHeightZero view block →
        MatchesView view d ∧ d.fClean = true) := by
  have hcanonical := connectBlock_canonical hconnect hc
  obtain ⟨coinbase, txs, view₁, hblock, hbest, hfresh, hviews, rfl⟩ :=
    connectBlock_views hconnect
  have hlen := hviews.length_eq
  have hrecords : List.Forall₂ (fun (p : CTransaction × CTxUndo) record =>
      RecordFor p.1 p.2 record) (block.vtx.zip ([] :: vtxundo))
      (none :: vtxundo'.map some) := by
    rw [hblock.vtx_eq, List.zip_cons_cons]
    refine .cons ?_ (recordsFor_of_notCoinBase hblock.notCoinBase hundo.records ?_)
    · unfold RecordFor
      rw [if_pos hblock.isCoinBase]
    · rw [hblock.vtx_eq] at hlen
      simpa using hlen
  obtain ⟨⟨f, hf, hundoes⟩, hkeeps⟩ := disconnectTxs_undoes hheight hviews
    hblock.values hblock.nodup hfresh hrecords
  have hloses := losesHeightZero_iff hviews hfresh hkeeps
  have hstart : MatchesView view₁ ⟨view₁.SetBestBlock ctx.hash, true⟩ :=
    ⟨fun txid => .refl _, hcanonical⟩
  refine ⟨f ⟨view₁.SetBestBlock ctx.hash, true⟩, ?_, ?_, ?_⟩
  · have hlen' : vtxundo'.length + 1 = block.vtx.length := by
      rw [← hlen, ← hundo.records.length_eq]
      rfl
    have hbest' : hashPrev = view.hashBlock := by
      rw [hprev] at hbest
      exact hbest
    have hhash : (view₁.SetBestBlock ctx.hash).hashBlock = ctx.hash := rfl
    unfold DisconnectBlock
    simp [Run.assert, hhash, hprev, hlen', hf, hbest']
  · intro hspends
    exact hundoes.spoiled (hloses.mpr hspends) _ hstart
  · intro hspends
    exact hundoes.restored (fun hl => hspends (hloses.mp hl)) _ hstart

/-- Disconnecting the block that was connected last, with the undo record that
connecting it made, reports clean and restores the set of unspent outputs and
the best block, exactly when the block did not spend the last output of a
transaction of height 0. -/
theorem disconnectBlock_restores_iff {cfg : Config} {ctx : BlockContext}
    {block : CBlock} {view view' : CCoinsViewCache} {height : Nat}
    {vtxundo vtxundo' : CBlockUndo} (hreach : ReachableView cfg view height)
    (hheight : ctx.nHeight = height + 1) (hprev : ctx.hashPrev.isSome = true)
    (hconnect : ConnectBlock cfg ctx block view false = .ok (view', vtxundo))
    (hundo : SameUndo vtxundo vtxundo') :
    (∃ restored,
      DisconnectBlock cfg.crypto ctx block (some vtxundo') view' =
        .ok (restored, true) ∧
      EqualUnspent view restored ∧ restored.hashBlock = view.hashBlock) ↔
      ¬ SpendsLastOutputAtHeightZero view block := by
  obtain ⟨hashPrev, hprev⟩ := Option.isSome_iff_exists.mp hprev
  obtain ⟨d, hdisconnect, hspoiled, hrestored⟩ := disconnectBlock_of_connectBlock
    hreach.canonical (by omega) hprev hconnect hundo
  constructor
  · rintro ⟨restored, hres, _, _⟩ hspends
    rw [hdisconnect, Except.ok.injEq, Prod.mk.injEq] at hres
    rw [hspoiled hspends] at hres
    exact absurd hres.2 (by decide)
  · intro hspends
    obtain ⟨hmatches, hclean⟩ := hrestored hspends
    refine ⟨d.view.SetBestBlock view.hashBlock, ?_, ?_, rfl⟩
    · rw [hdisconnect, hclean]
    · exact hmatches.equalUnspent

/-! ### On the small network -/

/-- A network whose genesis block has one output of no value, which can be
spent at once. -/
def zeroNet : Config := smallNet (smallGenesis [⟨0, anyoneCanSpend⟩])

/-- The context of a block on the small network whose predecessor is the one
with the nonce before. -/
def smallContext (nHeight : Nat) : BlockContext :=
  { hash := hashOfNonce (nHeight + 1)
    hashPrev := if nHeight = 0 then none else some (hashOfNonce nHeight)
    nHeight
    nMaxBlockSize := MIN_MAX_BLOCK_SIZE
    prevHeight := fun hash =>
      if hash = hashOfNonce nHeight then some (nHeight - 1) else none
    nAdjustedTime := 2000000000 }

/-- The view of `zeroNet` after its genesis block. -/
def zeroStart : Run (CCoinsViewCache × CBlockUndo) :=
  ConnectBlock zeroNet (smallContext 0) zeroNet.GenesisBlock .empty false

/-- Connect a block of height 1. -/
def zeroConnect (block : CBlock) : Run (CCoinsViewCache × CBlockUndo) := do
  let (view, _) ← zeroStart
  ConnectBlock zeroNet (smallContext 1) block view false

/-- Connect a block of height 1 and disconnect it again. -/
def zeroDisconnect (block : CBlock) : Run (CCoinsViewCache × Bool) := do
  let (view, vtxundo) ← zeroConnect block
  DisconnectBlock zeroNet.crypto (smallContext 1) block (some vtxundo) view

theorem zeroConnect_ok (block : CBlock)
    (h : (zeroConnect block).isOk = true) :
    ∃ view view' vtxundo, ReachableView zeroNet view 0 ∧
      (∃ undo, zeroStart = .ok (view, undo)) ∧
      ConnectBlock zeroNet (smallContext 1) block view false =
        .ok (view', vtxundo) ∧
      zeroDisconnect block = DisconnectBlock zeroNet.crypto (smallContext 1) block
        (some vtxundo) view' := by
  cases hconnect : zeroConnect block with
  | error e =>
      rw [hconnect] at h
      cases h
  | ok r =>
      obtain ⟨view', vtxundo⟩ := r
      have hconnect' := hconnect
      unfold zeroConnect at hconnect'
      rw [bind_eq_ok] at hconnect'
      obtain ⟨⟨view, undo⟩, hstart, hblock⟩ := hconnect'
      refine ⟨view, view', vtxundo, .genesis rfl rfl hstart, ⟨undo, hstart⟩,
        hblock, ?_⟩
      unfold zeroDisconnect
      rw [hconnect]
      rfl

/-- A block that spends the only output of the genesis block. -/
def spendsGenesis : CBlock :=
  smallBlock 2 1 (hashOfNonce 1)
    [coinbaseTx 2 1 [⟨50, anyoneCanSpend⟩],
      spendTx 3 [⟨(coinbaseTx 1 0 [⟨0, anyoneCanSpend⟩]).GetHash smallCrypto, 0⟩]
        [⟨0, anyoneCanSpend⟩]]

/-- A block that spends an output of its own coinbase. -/
def spendsItself : CBlock :=
  smallBlock 2 1 (hashOfNonce 1)
    [coinbaseTx 2 1 [⟨0, anyoneCanSpend⟩],
      spendTx 3 [⟨(coinbaseTx 2 1 [⟨0, anyoneCanSpend⟩]).GetHash smallCrypto, 0⟩]
        [⟨0, anyoneCanSpend⟩]]

/-- Disconnecting a block that spends an output of its own coinbase restores
what was there before. -/
theorem disconnectBlock_restores_spendsItself :
    ∃ view view' vtxundo, ReachableView zeroNet view 0 ∧
      ConnectBlock zeroNet (smallContext 1) spendsItself view false =
        .ok (view', vtxundo) ∧
      ∃ restored,
        DisconnectBlock zeroNet.crypto (smallContext 1) spendsItself
          (some vtxundo) view' = .ok (restored, true) ∧
        EqualUnspent view restored ∧ restored.hashBlock = view.hashBlock := by
  obtain ⟨view, view', vtxundo, hreach, ⟨undo, hstart⟩, hconnect, _⟩ :=
    zeroConnect_ok spendsItself (by decide +kernel)
  refine ⟨view, view', vtxundo, hreach, hconnect, ?_⟩
  refine (disconnectBlock_restores_iff hreach rfl rfl hconnect (.inl rfl)).mpr ?_
  rintro ⟨txid, coins, hcoins, _, hlive, hspent⟩
  obtain ⟨n, hn⟩ := CCoins.not_isPruned_iff.mp hlive
  have hmem := hspent n hn
  have hspentBy : spentBy spendsItself.vtx = [⟨(coinbaseTx 2 1
      [⟨0, anyoneCanSpend⟩]).GetHash smallCrypto, 0⟩] := by decide +kernel
  rw [hspentBy, List.mem_singleton, COutPoint.mk.injEq] at hmem
  have hnone : (zeroStart.toOption.bind fun r => r.1.coins ((coinbaseTx 2 1
      [⟨0, anyoneCanSpend⟩]).GetHash smallCrypto)).isNone = true := by
    decide +kernel
  rw [hstart, ← hmem.1] at hnone
  simp [Except.toOption, hcoins] at hnone

/-- Disconnecting a block that spends the only output of the genesis block does
not report clean. -/
theorem disconnectBlock_spendsGenesis_not_clean :
    ∃ view view' vtxundo, ReachableView zeroNet view 0 ∧
      ConnectBlock zeroNet (smallContext 1) spendsGenesis view false =
        .ok (view', vtxundo) ∧
      ¬ ∃ restored,
        DisconnectBlock zeroNet.crypto (smallContext 1) spendsGenesis
          (some vtxundo) view' = .ok (restored, true) ∧
        EqualUnspent view restored ∧ restored.hashBlock = view.hashBlock := by
  obtain ⟨view, view', vtxundo, hreach, _, hconnect, hdisconnect⟩ :=
    zeroConnect_ok spendsGenesis (by decide +kernel)
  refine ⟨view, view', vtxundo, hreach, hconnect, ?_⟩
  rintro ⟨restored, hres, _, _⟩
  have hflag : (zeroDisconnect spendsGenesis).toOption.map Prod.snd =
      some false := by decide +kernel
  rw [hdisconnect, hres] at hflag
  simp [Except.toOption] at hflag

end Ziftrcoin.Spec
