/-
Module: Ziftrcoin.Proofs.MatureCoins
Purpose: The coins that decide between siblings: when the value counted for a
  block is what it spends of the mature outputs before it.
Trusted boundary: none
Main exports: matureValue, countMatureCoins_iff
-/
import Ziftrcoin.Proofs.Supply

namespace Ziftrcoin.Spec

open Ziftrcoin.Lib
open Ziftrcoin.Lib.Outcome

/-! ### Mature outputs -/

/-- Something of a height has enough confirmations in a block. -/
def Mature (nHeight nCoinsHeight : ℕ) : Prop :=
  TRANSACTION_MATURITY_DEPTH ≤ (nHeight : ℤ) - nCoinsHeight + 1

instance (nHeight nCoinsHeight : ℕ) : Decidable (Mature nHeight nCoinsHeight) :=
  inferInstanceAs (Decidable (_ ≤ _))

theorem not_mature_self (nHeight : ℕ) : ¬Mature nHeight nHeight := by
  unfold Mature TRANSACTION_MATURITY_DEPTH
  omega

namespace CCoinsViewCache

/-- What an outpoint is worth if it is unspent and mature, otherwise nothing. -/
def matureValue (view : CCoinsViewCache) (nHeight : ℕ) (o : COutPoint) : ℤ :=
  match view.unspent o with
  | none => 0
  | some u => if Mature nHeight u.nHeight then u.txout.nValue else 0

/-- Value and height of an unspent output. -/
def dated (view : CCoinsViewCache) (o : COutPoint) : Option (ℤ × ℕ) :=
  (view.unspent o).map fun u => (u.txout.nValue, u.nHeight)

theorem matureValue_of_dated {view view' : CCoinsViewCache} {o : COutPoint}
    (h : view.dated o = view'.dated o) (nHeight : ℕ) :
    view.matureValue nHeight o = view'.matureValue nHeight o := by
  unfold dated at h
  unfold matureValue
  cases hu : view.unspent o with
  | none =>
      rw [hu, Option.map_none, eq_comm, Option.map_eq_none_iff] at h
      rw [h]
  | some u =>
      rw [hu, Option.map_some, eq_comm, Option.map_eq_some_iff] at h
      obtain ⟨u', hu', heq⟩ := h
      obtain ⟨hvalue, hheight⟩ := Prod.mk.inj heq
      rw [hu']
      dsimp only
      rw [hvalue, hheight]

theorem available_of_dated {view view' : CCoinsViewCache} {o : COutPoint}
    (h : view.dated o = view'.dated o) : view.available o = view'.available o := by
  rw [← unspent_isSome, ← unspent_isSome]
  have hsome := congrArg Option.isSome h
  unfold dated at hsome
  rwa [Option.isSome_map, Option.isSome_map] at hsome

end CCoinsViewCache

/-- The entry of an outpoint, if it counts as mature, is long enough for it. -/
def InRange (view : CCoinsViewCache) (nHeight : ℕ) (o : COutPoint) : Prop :=
  ∀ coins, view.coins o.hash = some coins → Mature nHeight coins.nHeight →
    o.n < coins.vout.length

/-- The loop reads beyond the end of a vector exactly if an input names an output that
a mature entry is too short for. -/
theorem matureCoinsFrom_inRange_iff (view : CCoinsViewCache) (nHeight : ℕ) :
    ∀ (vin : List CTxIn) (acc : ℤ),
      matureCoinsFrom view nHeight acc vin ≠ Run.crash .CountMatureCoins_vout ↔
        ∀ txin ∈ vin, InRange view nHeight txin.prevout
  | [], acc => by
      rw [matureCoinsFrom]
      exact ⟨fun _ _ hmem => absurd hmem List.not_mem_nil, fun _ h => nomatch h⟩
  | txin :: rest, acc => by
      have ih := matureCoinsFrom_inRange_iff view nHeight rest
      rw [List.forall_mem_cons, matureCoinsFrom]
      cases hcoins : view.coins txin.prevout.hash with
      | none =>
          have hin : InRange view nHeight txin.prevout := by
            intro coins hsome
            rw [hcoins] at hsome
            cases hsome
          rw [ih acc]
          exact ⟨fun h => ⟨hin, h⟩, And.right⟩
      | some coins =>
          have hrange : InRange view nHeight txin.prevout ↔
              (Mature nHeight coins.nHeight → txin.prevout.n < coins.vout.length) := by
            constructor
            · exact fun h => h coins hcoins
            · intro h coins' hcoins'
              obtain rfl := Option.some.inj (hcoins.symm.trans hcoins')
              exact h
          rw [hrange]
          dsimp only
          by_cases hconf : TRANSACTION_MATURITY_DEPTH ≤ (nHeight : ℤ) - coins.nHeight + 1
          · have hmature : Mature nHeight coins.nHeight := hconf
            rw [if_pos hconf]
            cases hget : coins.vout[txin.prevout.n]? with
            | none =>
                have hout := List.getElem?_eq_none_iff.mp hget
                have hcrash : Run.get .CountMatureCoins_vout coins.vout txin.prevout.n =
                    Run.crash .CountMatureCoins_vout := by
                  unfold Run.get
                  rw [hget]
                rw [hcrash]
                constructor
                · exact fun h => absurd rfl h
                · exact fun h => absurd (h.1 hmature) (Nat.not_lt.mpr hout)
            | some txout =>
                have hlt := (List.getElem?_eq_some_iff.mp hget).1
                rw [get_eq_ok.mpr hget, ok_bind, ih]
                exact ⟨fun h => ⟨fun _ => hlt, h⟩, And.right⟩
          · rw [if_neg hconf, ih acc]
            exact ⟨fun h => ⟨fun hmature => absurd hmature hconf, h⟩, And.right⟩

/-- The call that a new entry makes reads no output beyond the end of its vector
exactly if the parent is neither the tip nor the one before it, or every input is in
range of its entry. -/
theorem countMatureCoins_inRange_iff (s : NodeState) (block : CBlock) (pprev : Option Ptr)
    (nHeight : ℕ) :
    CountMatureCoins s block pprev nHeight ≠ Run.crash .CountMatureCoins_vout ↔
      (nearTip s (((s.mapBlockIndex.deref pprev).map CBlockIndex.hash).getD 0) = true →
        ∀ txin ∈ inputsAfterFirst block, InRange s.pcoinsTip nHeight txin.prevout) := by
  unfold CountMatureCoins
  dsimp only
  split
  · next hnear =>
      rw [matureCoinsFrom_inRange_iff]
      exact ⟨fun h _ => h, fun h => h hnear⟩
  · next hfar => exact ⟨fun _ hnear => absurd hnear hfar, fun _ h => nomatch h⟩

/-! ### What a block finds and spends -/

section BlockSpends

variable {crypto : Crypto} {nHeight : ℕ} {view view' : CCoinsViewCache}
  {txs : List CTransaction} {txundos : List CTxUndo}

/-- An output that is there after a transaction was there, or is its own. -/
theorem unspent_updateCoins_origin {tx : CTransaction} {txundo : CTxUndo}
    (h : UpdateCoins tx view nHeight (tx.GetHash crypto) = .ok (view', txundo))
    {o : COutPoint} {u : UnspentOutput} (hu : view'.unspent o = some u) :
    view.unspent o = some u ∨
      u.nHeight = nHeight ∧ tx.GetHash crypto = o.hash ∧ u.txout ∈ tx.vout := by
  obtain ⟨view₁, hspent, rfl⟩ := updateCoins_ok h
  rw [CCoinsViewCache.unspent_eq_entry] at hu
  by_cases hhash : o.hash = tx.GetHash crypto
  · right
    rw [hhash, CCoinsViewCache.entry_setCoins_self] at hu
    obtain ⟨txout, hout, rfl⟩ := Option.map_eq_some_iff.mp hu
    exact ⟨rfl, hhash.symm, List.mem_of_getElem? (CCoins.getElem?_of_output_ofTx hout)⟩
  · left
    rw [CCoinsViewCache.entry_setCoins_ne _ hhash,
      ← CCoinsViewCache.unspent_eq_entry] at hu
    rcases markSpent_cases hspent with ⟨-, rfl, -⟩ | ⟨-, hspent⟩
    · exact hu
    · rw [unspent_spendInputs hspent] at hu
      split at hu
      · cases hu
      · exact hu

/-- An output that is there after a block was there, or is one of the block's. -/
theorem ViewConnects.unspent_origin
    (h : ViewConnects crypto nHeight view txs txundos view') {o : COutPoint}
    {u : UnspentOutput} (hu : view'.unspent o = some u) :
    view.unspent o = some u ∨
      u.nHeight = nHeight ∧ ∃ tx ∈ txs, tx.GetHash crypto = o.hash ∧ u.txout ∈ tx.vout := by
  induction h with
  | nil => exact .inl hu
  | cons update _ ih =>
      rcases ih hu with hbefore | ⟨hheight, tx', htx', hown⟩
      · rcases unspent_updateCoins_origin update hbefore with hbefore | ⟨hheight, hown⟩
        · exact .inl hbefore
        · exact .inr ⟨hheight, _, List.mem_cons_self, hown⟩
      · exact .inr ⟨hheight, tx', List.mem_cons_of_mem _ htx', hown⟩

end BlockSpends

theorem length_serializeVector_ge {α : Type} {serialize : α → valtype} {k : ℕ}
    (h : ∀ x, k ≤ (serialize x).length) (xs : List α) :
    xs.length * k ≤ (serializeVector serialize xs).length := by
  unfold serializeVector
  rw [List.length_append, List.length_flatMap]
  have hsum : xs.length * k ≤ (xs.map fun x => (serialize x).length).sum := by
    have hle := List.sum_le_sum (l := xs) (f := fun _ => k)
      (g := fun x => (serialize x).length) fun x _ => h x
    simpa using hle
  omega

/-- The view has the outputs as of the block before, or as of a sibling that is
connected after it. -/
def StandsAt (cfg : Config) (view viewP : CCoinsViewCache) (nHeight : ℕ) : Prop :=
  (∀ o, view.dated o = viewP.dated o) ∨
    ∃ ctx sibling viewT vtxundo, ctx.nHeight = nHeight ∧
      ConnectBlock cfg ctx sibling viewP false = .ok (viewT, vtxundo) ∧
      ∀ o, view.dated o = viewT.dated o

/-- What is still there is worth what it was. -/
theorem StandsAt.read {cfg : Config} {view viewP : CCoinsViewCache} {nHeight : ℕ}
    (h : StandsAt cfg view viewP nHeight) {o : COutPoint}
    (havail : view.available o = true) :
    view.matureValue nHeight o = viewP.matureValue nHeight o := by
  rcases h with hsame | ⟨ctx, sibling, viewT, vtxundo, rfl, hconnect, hsame⟩
  · exact CCoinsViewCache.matureValue_of_dated (hsame o) _
  · obtain ⟨_, _, view₁, _, _, hfresh, hviews, rfl⟩ := connectBlock_views hconnect
    have hunspent : (view₁.SetBestBlock ctx.hash).unspent o = view₁.unspent o := rfl
    rw [CCoinsViewCache.available_of_dated (hsame o), ← CCoinsViewCache.unspent_isSome]
      at havail
    rw [CCoinsViewCache.matureValue_of_dated (hsame o)]
    obtain ⟨u, hu⟩ := Option.isSome_iff_exists.mp havail
    unfold CCoinsViewCache.matureValue
    rw [hu]
    rw [hunspent] at hu
    rcases hviews.unspent_origin hu with hbefore | ⟨hheight, tx, htx, hown, _⟩
    · rw [hbefore]
    · -- An output of the sibling is not mature, and was not there before.
      have hnone : viewP.unspent o = none := by
        unfold CCoinsViewCache.unspent
        rw [← hown, hfresh tx htx, Option.bind_none]
      rw [hnone]
      dsimp only
      rw [hheight, if_neg (not_mature_self _)]

/-- Siblings that were received in time are compared by their coins. -/
theorem comparator_of_matureCoins {mapFirstTimeSeen : ℕ → ℤ} {a b : WorkKey}
    (hwork : a.nChainWork = b.nChainWork) (hheight : a.nHeight = b.nHeight)
    (happly : matureCoinsApply mapFirstTimeSeen a b = true)
    (hne : a.nMatureCoinsSpent ≠ b.nMatureCoinsSpent) :
    CBlockIndexWorkComparator mapFirstTimeSeen a b =
      decide (a.nMatureCoinsSpent < b.nMatureCoinsSpent) := by
  unfold CBlockIndexWorkComparator
  rw [hwork, hheight, happly]
  simp only [lt_irrefl, if_false, if_true]
  rcases lt_or_gt_of_ne hne with hlt | hgt
  · rw [if_neg hlt.asymm, if_pos hlt, decide_eq_true hlt]
  · rw [if_pos hgt, decide_eq_false hgt.asymm]

end Ziftrcoin.Spec
