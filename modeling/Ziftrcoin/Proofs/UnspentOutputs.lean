/-
Module: Ziftrcoin.Proofs.UnspentOutputs
Purpose: The set of unspent outputs that coins and views stand for, and what
  spending, creating, restoring and flushing do to it.
Trusted boundary: none
Main exports: UnspentOutput, output_ofTx
-/
import Mathlib.Data.List.DropRight
import Ziftrcoin.Spec.Coins

namespace Ziftrcoin.Spec

namespace CCoins

/-- The output at a position, where it is unspent. -/
def output (coins : CCoins) (n : Nat) : Option CTxOut :=
  match coins.vout[n]? with
  | none => none
  | some txout => if txout.IsNull then none else some txout

/-- Null outputs carry no script. -/
def Canonical (coins : CCoins) : Prop :=
  ∀ txout ∈ coins.vout, txout.IsNull = true → txout = CTxOut.null

end CCoins

/-- An unspent output with what is known of its transaction. -/
structure UnspentOutput where
  txout : CTxOut
  fCoinBase : Bool
  nHeight : Nat
  nVersion : Int
deriving Repr, DecidableEq

/-- The unspent output of coins at a position. -/
def CCoins.unspent (coins : CCoins) (n : Nat) : Option UnspentOutput :=
  (coins.output n).map fun txout =>
    { txout, fCoinBase := coins.fCoinBase, nHeight := coins.nHeight,
      nVersion := coins.nVersion }

/-- The set of unspent outputs of a view. -/
def CCoinsViewCache.unspent (view : CCoinsViewCache) (o : COutPoint) :
    Option UnspentOutput :=
  (view.coins o.hash).bind fun coins => coins.unspent o.n

namespace CCoins

@[simp] theorem isNull_null : CTxOut.null.IsNull = true := rfl

/-! ### Availability -/

theorem output_eq_some {coins : CCoins} {n : Nat} {txout : CTxOut} :
    coins.output n = some txout ↔
      coins.vout[n]? = some txout ∧ txout.IsNull = false := by
  unfold output
  cases h : coins.vout[n]? with
  | none => simp
  | some txout' =>
      cases hnull : txout'.IsNull with
      | true =>
          simp only [hnull, if_true, reduceCtorEq, false_iff]
          rintro ⟨heq, hnull'⟩
          injection heq with heq
          rw [← heq, hnull] at hnull'
          cases hnull'
      | false =>
          simp only [hnull, Bool.false_eq_true, if_false, Option.some.injEq]
          exact ⟨fun heq => ⟨heq, heq ▸ hnull⟩, And.left⟩

theorem isAvailable_iff {coins : CCoins} {n : Nat} :
    coins.IsAvailable n = true ↔
      ∃ txout, coins.vout[n]? = some txout ∧ txout.IsNull = false := by
  unfold IsAvailable
  cases h : coins.vout[n]? with
  | none => simp
  | some txout => simp

theorem output_isSome {coins : CCoins} {n : Nat} :
    (coins.output n).isSome = coins.IsAvailable n := by
  unfold output IsAvailable
  cases h : coins.vout[n]? with
  | none => rfl
  | some txout =>
      cases hnull : txout.IsNull <;> simp [hnull]

theorem isPruned_iff {coins : CCoins} :
    coins.IsPruned = true ↔ ∀ n, coins.IsAvailable n = false := by
  constructor
  · intro h n
    unfold IsAvailable
    cases hn : coins.vout[n]? with
    | none => rfl
    | some txout =>
        have hmem : txout ∈ coins.vout := List.mem_of_getElem? hn
        have hnull : txout.IsNull = true := List.all_eq_true.mp h txout hmem
        simp [hnull]
  · intro h
    refine List.all_eq_true.mpr fun txout hmem => ?_
    obtain ⟨n, hn⟩ := List.getElem?_of_mem hmem
    have hn' := h n
    unfold IsAvailable at hn'
    rw [hn] at hn'
    simpa using hn'

theorem not_isPruned_iff {coins : CCoins} :
    coins.IsPruned = false ↔ ∃ n, coins.IsAvailable n = true := by
  rw [← Bool.not_eq_true, isPruned_iff]
  simp

theorem output_eq_none_of_isPruned {coins : CCoins}
    (h : coins.IsPruned = true) (n : Nat) : coins.output n = none := by
  have hn : (coins.output n).isSome = false := by
    rw [output_isSome]
    exact isPruned_iff.mp h n
  exact Option.not_isSome_iff_eq_none.mp (by simp [hn])

theorem isPruned_of_output {coins : CCoins}
    (h : ∀ n, coins.output n = none) : coins.IsPruned = true := by
  refine isPruned_iff.mpr fun n => ?_
  rw [← output_isSome, h n]
  rfl

@[simp] theorem output_empty (n : Nat) : empty.output n = none := rfl

@[simp] theorem isPruned_empty : empty.IsPruned = true := rfl

/-! ### Dropping null outputs at the end -/

theorem rdropWhile_getElem? {α : Type} (p : α → Bool) (xs : List α) (n : Nat) :
    (xs.rdropWhile p)[n]? = xs[n]? ∨
      (xs.rdropWhile p)[n]? = none ∧ ∀ x, xs[n]? = some x → p x = true := by
  induction xs using List.reverseRecOn with
  | nil => exact .inl rfl
  | append_singleton xs x ih =>
      by_cases hx : p x = true
      · rw [List.rdropWhile_concat_pos p xs x hx]
        rcases Nat.lt_trichotomy n xs.length with hn | hn | hn
        · rw [List.getElem?_append_left hn]
          exact ih
        · subst hn
          rcases ih with ih | ⟨ih, _⟩
          · right
            refine ⟨by rw [ih]; simp, fun y hy => ?_⟩
            simp at hy
            exact hy ▸ hx
          · right
            refine ⟨ih, fun y hy => ?_⟩
            simp at hy
            exact hy ▸ hx
        · have hnone : (xs ++ [x])[n]? = none := by simp; omega
          rcases ih with ih | ⟨ih, _⟩
          · left
            rw [ih, hnone]
            simp
            omega
          · left
            rw [ih, hnone]
      · rw [List.rdropWhile_concat_neg p xs x hx]
        exact .inl rfl

theorem cleanup_getElem? (coins : CCoins) (n : Nat) :
    coins.Cleanup.vout[n]? = coins.vout[n]? ∨
      coins.Cleanup.vout[n]? = none ∧
        ∀ txout, coins.vout[n]? = some txout → txout.IsNull = true :=
  rdropWhile_getElem? _ _ _

@[simp] theorem output_cleanup (coins : CCoins) (n : Nat) :
    coins.Cleanup.output n = coins.output n := by
  rcases cleanup_getElem? coins n with h | ⟨h, hnull⟩
  · unfold output
    rw [h]
  · unfold output
    rw [h]
    cases hn : coins.vout[n]? with
    | none => rfl
    | some txout => simp [hnull txout hn]

@[simp] theorem isAvailable_cleanup (coins : CCoins) (n : Nat) :
    coins.Cleanup.IsAvailable n = coins.IsAvailable n := by
  rw [← output_isSome, ← output_isSome, output_cleanup]

/-- Cleaned up coins end in an output that is not null. -/
theorem cleanup_getLast_not_null {coins : CCoins}
    (h : coins.Cleanup.vout ≠ []) :
    (coins.Cleanup.vout.getLast h).IsNull = false := by
  have hlast := List.rdropWhile_last_not CTxOut.IsNull coins.vout h
  exact Bool.eq_false_iff.mpr hlast

/-- Cleaned up coins are pruned only when nothing is left of them. -/
theorem cleanup_vout_eq_nil_iff (coins : CCoins) :
    coins.Cleanup.vout = [] ↔ coins.Cleanup.IsPruned = true := by
  constructor
  · intro h
    unfold IsPruned
    rw [h]
    rfl
  · intro h
    by_contra hne
    have hlast := cleanup_getLast_not_null hne
    have hnull := List.all_eq_true.mp h _ (List.getLast_mem hne)
    rw [hlast] at hnull
    cases hnull

theorem Canonical.cleanup {coins : CCoins} (h : coins.Canonical) :
    coins.Cleanup.Canonical := by
  intro txout hmem
  exact h txout ((List.rdropWhile_prefix CTxOut.IsNull _).subset hmem)

/-- Outputs beyond the last unspent one do not survive a clean-up. -/
theorem cleanup_length_le_of_output_eq {a b : CCoins}
    (h : ∀ n, a.output n = b.output n) :
    a.Cleanup.vout.length ≤ b.Cleanup.vout.length := by
  by_cases hne : a.Cleanup.vout = []
  · simp [hne]
  · have hpos : 0 < a.Cleanup.vout.length := List.length_pos_iff.mpr hne
    have hlast : a.Cleanup.IsAvailable (a.Cleanup.vout.length - 1) = true := by
      refine isAvailable_iff.mpr ⟨_, ?_, cleanup_getLast_not_null hne⟩
      rw [List.getLast_eq_getElem]
      exact List.getElem?_eq_getElem (by omega)
    rw [isAvailable_cleanup, ← output_isSome, h, output_isSome,
      ← isAvailable_cleanup] at hlast
    obtain ⟨txout, htxout, _⟩ := isAvailable_iff.mp hlast
    have hlt := (List.getElem?_eq_some_iff.mp htxout).1
    omega

/-- Cleaned up coins without scripts on null outputs are determined by their
unspent outputs. -/
theorem cleanup_vout_eq_of_output_eq {a b : CCoins} (ha : a.Canonical)
    (hb : b.Canonical) (h : ∀ n, a.output n = b.output n) :
    a.Cleanup.vout = b.Cleanup.vout := by
  have hlen : a.Cleanup.vout.length = b.Cleanup.vout.length :=
    Nat.le_antisymm (cleanup_length_le_of_output_eq h)
      (cleanup_length_le_of_output_eq fun n => (h n).symm)
  refine List.ext_getElem hlen fun n hna hnb => ?_
  have hn : a.Cleanup.output n = b.Cleanup.output n := by
    rw [output_cleanup, output_cleanup, h]
  simp only [output, List.getElem?_eq_getElem hna,
    List.getElem?_eq_getElem hnb] at hn
  -- A null output is the canonical one on both sides; any other is read off.
  cases hnulla : a.Cleanup.vout[n].IsNull with
  | true =>
      cases hnullb : b.Cleanup.vout[n].IsNull with
      | true =>
          rw [ha.cleanup _ (List.getElem_mem hna) hnulla,
            hb.cleanup _ (List.getElem_mem hnb) hnullb]
      | false => simp [hnulla, hnullb] at hn
  | false =>
      cases hnullb : b.Cleanup.vout[n].IsNull with
      | true => simp [hnulla, hnullb] at hn
      | false =>
          simpa [hnulla, hnullb] using hn

/-! ### Spending -/

/-- What `Spend` returns: the output was unspent, it is the only one that is
missing afterwards, and the record has the metadata exactly when no other is
left. -/
theorem spend_cases {coins left : CCoins} {n : Nat} {undo : CTxInUndo}
    (h : coins.Spend n = some (left, undo)) :
    ∃ txout, coins.vout[n]? = some txout ∧ txout.IsNull = false ∧
      left = Cleanup { coins with vout := coins.vout.set n CTxOut.null } ∧
      undo.txout = txout ∧
      (left.vout = [] → undo.fCoinBase = coins.fCoinBase ∧
        undo.nHeight = coins.nHeight ∧ undo.nVersion = coins.nVersion) ∧
      (left.vout ≠ [] → undo.nHeight = 0) := by
  unfold Spend at h
  cases hn : coins.vout[n]? with
  | none => simp [hn] at h
  | some txout =>
      simp only [hn] at h
      cases hnull : txout.IsNull with
      | true => simp [hnull] at h
      | false =>
          simp only [hnull, Bool.false_eq_true, if_false] at h
          by_cases hnil :
              (Cleanup { coins with vout := coins.vout.set n CTxOut.null }).vout
                = []
          · rw [if_pos hnil] at h
            injection h with h
            injection h with hleft hundo
            subst hleft hundo
            exact ⟨txout, rfl, hnull, rfl, rfl, fun _ => ⟨rfl, rfl, rfl⟩,
              fun hne => absurd hnil hne⟩
          · rw [if_neg hnil] at h
            injection h with h
            injection h with hleft hundo
            subst hleft hundo
            exact ⟨txout, rfl, hnull, rfl, rfl, fun hnil' => absurd hnil' hnil,
              fun _ => rfl⟩

theorem spend_isSome {coins : CCoins} {n : Nat} :
    (coins.Spend n).isSome = coins.IsAvailable n := by
  unfold Spend IsAvailable
  cases hn : coins.vout[n]? with
  | none => rfl
  | some txout =>
      cases hnull : txout.IsNull with
      | true => simp [hnull]
      | false =>
          simp only [hnull, Bool.false_eq_true, if_false]
          split <;> rfl

/-- Replacing an output by null removes it from the unspent ones. -/
theorem output_set_null (coins : CCoins) (n m : Nat) :
    ({ coins with vout := coins.vout.set n CTxOut.null } : CCoins).output m =
      if m = n then none else coins.output m := by
  unfold output
  by_cases hmn : m = n
  · subst hmn
    rw [if_pos rfl]
    by_cases hlt : m < coins.vout.length
    · simp [List.getElem?_set_self hlt]
    · simp [hlt]
  · rw [if_neg hmn]
    simp only [List.getElem?_set_ne (Ne.symm hmn)]

theorem output_spend {coins left : CCoins} {n : Nat} {undo : CTxInUndo}
    (h : coins.Spend n = some (left, undo)) (m : Nat) :
    left.output m = if m = n then none else coins.output m := by
  obtain ⟨txout, _, _, hleft, _⟩ := spend_cases h
  rw [hleft, output_cleanup, output_set_null]

theorem metadata_spend {coins left : CCoins} {n : Nat} {undo : CTxInUndo}
    (h : coins.Spend n = some (left, undo)) :
    left.fCoinBase = coins.fCoinBase ∧ left.nHeight = coins.nHeight ∧
      left.nVersion = coins.nVersion := by
  obtain ⟨txout, _, _, hleft, _⟩ := spend_cases h
  subst hleft
  exact ⟨rfl, rfl, rfl⟩

theorem unspent_spend {coins left : CCoins} {n : Nat} {undo : CTxInUndo}
    (h : coins.Spend n = some (left, undo)) (m : Nat) :
    left.unspent m = if m = n then none else coins.unspent m := by
  obtain ⟨hcb, hheight, hversion⟩ := metadata_spend h
  unfold unspent
  rw [output_spend h, hcb, hheight, hversion]
  split <;> rfl

theorem isAvailable_spend {coins left : CCoins} {n : Nat} {undo : CTxInUndo}
    (h : coins.Spend n = some (left, undo)) (m : Nat) :
    left.IsAvailable m = (decide (m ≠ n) && coins.IsAvailable m) := by
  rw [← output_isSome, output_spend h, ← output_isSome]
  by_cases hmn : m = n <;> simp [hmn]

theorem Canonical.spend {coins left : CCoins} {n : Nat} {undo : CTxInUndo}
    (hc : coins.Canonical) (h : coins.Spend n = some (left, undo)) :
    left.Canonical := by
  obtain ⟨txout, _, _, hleft, _⟩ := spend_cases h
  subst hleft
  refine Canonical.cleanup fun o hmem hnull => ?_
  rcases List.mem_or_eq_of_mem_set hmem with hmem | rfl
  · exact hc o hmem hnull
  · rfl

/-! ### Creating -/

theorem canonical_map_clearUnspendable {coins : CCoins}
    (hc : coins.Canonical) :
    ({ coins with vout := coins.vout.map clearUnspendable } :
      CCoins).Canonical := by
  intro o hmem hnull
  obtain ⟨txout, htxout, rfl⟩ := List.mem_map.mp hmem
  unfold clearUnspendable at hnull ⊢
  by_cases hu : txout.scriptPubKey.IsUnspendable = true
  · simp [hu]
  · simp only [hu] at hnull ⊢
    exact hc txout htxout hnull

/-- Clearing unspendable outputs does nothing where there are none. -/
theorem output_clearUnspendable_of_spendable {coins : CCoins}
    (h : ∀ (n : Nat) (txout : CTxOut), coins.vout[n]? = some txout →
      txout.IsNull = false → txout.scriptPubKey.IsUnspendable = false) (n : Nat) :
    coins.ClearUnspendable.output n = coins.output n := by
  unfold ClearUnspendable
  rw [output_cleanup]
  unfold output
  rw [List.getElem?_map]
  cases hn : coins.vout[n]? with
  | none => rfl
  | some txout =>
      cases hnull : txout.IsNull with
      | false => simp [CCoins.clearUnspendable, h n txout hn hnull, hnull]
      | true =>
          by_cases hu : txout.scriptPubKey.IsUnspendable = true
          · simp [CCoins.clearUnspendable, hu, hnull]
          · simp [CCoins.clearUnspendable, hu, hnull]

/-- A transaction enters the set with all its outputs but those that can never
be spent. -/
theorem output_ofTx (tx : CTransaction) (nHeight n : Nat) :
    (ofTx tx nHeight).output n =
      ({ fCoinBase := tx.IsCoinBase, vout := tx.vout.map clearUnspendable,
         nHeight, nVersion := tx.nVersion } : CCoins).output n := by
  unfold ofTx ClearUnspendable
  rw [output_cleanup]

/-- The outputs that enter the set are those of the transaction. -/
theorem getElem?_of_output_ofTx {tx : CTransaction} {nHeight n : Nat}
    {txout : CTxOut} (h : (ofTx tx nHeight).output n = some txout) :
    tx.vout[n]? = some txout := by
  rw [output_ofTx, output_eq_some, List.getElem?_map, Option.map_eq_some_iff] at h
  obtain ⟨⟨o, ho, rfl⟩, hnull⟩ := h
  unfold clearUnspendable at hnull ⊢
  cases hu : o.scriptPubKey.IsUnspendable with
  | true => simp [hu] at hnull
  | false => simpa [hu] using ho

/-- An output that entered the set can be spent. -/
theorem spendable_ofTx {tx : CTransaction} {nHeight n : Nat} {txout : CTxOut}
    (h : (ofTx tx nHeight).vout[n]? = some txout)
    (hnull : txout.IsNull = false) :
    txout.scriptPubKey.IsUnspendable = false := by
  have hmem : txout ∈ (ofTx tx nHeight).vout := List.mem_of_getElem? h
  have hmem' : txout ∈ tx.vout.map clearUnspendable :=
    (List.rdropWhile_prefix CTxOut.IsNull _).subset hmem
  obtain ⟨o, _, rfl⟩ := List.mem_map.mp hmem'
  unfold clearUnspendable at hnull ⊢
  by_cases hu : o.scriptPubKey.IsUnspendable = true
  · simp [hu] at hnull
  · simp [hu]

/-- Amounts are not null. -/
theorem canonical_of_values {coins : CCoins}
    (h : ∀ txout ∈ coins.vout, 0 ≤ txout.nValue) : coins.Canonical := by
  intro o hmem hnull
  have hneg : o.nValue = -1 := by simpa [CTxOut.IsNull] using hnull
  have := h o hmem
  omega

theorem canonical_ofTx {tx : CTransaction} {nHeight : Nat}
    (h : ∀ txout ∈ tx.vout, 0 ≤ txout.nValue) :
    (ofTx tx nHeight).Canonical :=
  (canonical_map_clearUnspendable (canonical_of_values h)).cleanup

/-! ### Restoring -/

/-- Putting an output back where it was, growing the vector if needed. -/
theorem output_restore {coins : CCoins} {n : Nat} {txout : CTxOut}
    (hnull : txout.IsNull = false) (m : Nat) :
    ({ coins with
        vout := (if coins.vout.length < n + 1 then
            coins.vout ++ List.replicate (n + 1 - coins.vout.length) CTxOut.null
          else coins.vout).set n txout } : CCoins).output m =
      if m = n then some txout else coins.output m := by
  unfold output
  by_cases hmn : m = n
  · subst hmn
    rw [if_pos rfl]
    have hlt : m < (if coins.vout.length < m + 1 then
        coins.vout ++ List.replicate (m + 1 - coins.vout.length) CTxOut.null
        else coins.vout).length := by
      split
      · simp
        omega
      · omega
    simp only [List.getElem?_set_self hlt, hnull, Bool.false_eq_true, if_false]
  · rw [if_neg hmn]
    simp only [List.getElem?_set_ne (Ne.symm hmn)]
    split_ifs with hlt
    · by_cases hm : m < coins.vout.length
      · rw [List.getElem?_append_left hm]
      · -- The padding is null, and so is what lies beyond the end.
        rw [List.getElem?_append_right (by omega), List.getElem?_replicate,
          List.getElem?_eq_none (by omega)]
        split_ifs <;> simp
    · rfl

theorem Canonical.restore {coins : CCoins} {n : Nat} {txout : CTxOut}
    (hc : coins.Canonical) (hnull : txout.IsNull = false) :
    ({ coins with
        vout := (if coins.vout.length < n + 1 then
            coins.vout ++ List.replicate (n + 1 - coins.vout.length) CTxOut.null
          else coins.vout).set n txout } : CCoins).Canonical := by
  intro o hmem ho
  rcases List.mem_or_eq_of_mem_set hmem with hmem | rfl
  · split_ifs at hmem
    · rcases List.mem_append.mp hmem with hmem | hmem
      · exact hc o hmem ho
      · exact List.eq_of_mem_replicate hmem
    · exact hc o hmem ho
  · rw [hnull] at ho
    cases ho

/-! ### Reading back -/

theorem output_readBack (coins : CCoins) (n : Nat) :
    coins.readBack.output n = coins.output n := by
  unfold readBack
  rw [output_cleanup]
  unfold output
  rw [List.getElem?_map]
  cases hn : coins.vout[n]? with
  | none => rfl
  | some txout =>
      cases hnull : txout.IsNull <;> simp [hnull]

theorem canonical_readBack (coins : CCoins) : coins.readBack.Canonical := by
  refine Canonical.cleanup fun o hmem hnull => ?_
  obtain ⟨txout, _, rfl⟩ := List.mem_map.mp hmem
  cases hn : txout.IsNull with
  | true => simp
  | false => simp [hn] at hnull

end CCoins

/-! ### Views -/

namespace CCoinsViewCache

/-- What a view holds for a transaction, the empty coins where it holds
nothing. -/
def entry (view : CCoinsViewCache) (txid : uint256) : CCoins :=
  (view.coins txid).getD CCoins.empty

theorem unspent_eq_entry (view : CCoinsViewCache) (o : COutPoint) :
    view.unspent o = (view.entry o.hash).unspent o.n := by
  unfold unspent entry
  cases view.coins o.hash with
  | none => rfl
  | some coins => rfl

theorem available_eq_entry (view : CCoinsViewCache) (o : COutPoint) :
    view.available o = (view.entry o.hash).IsAvailable o.n := by
  unfold available entry
  cases view.coins o.hash with
  | none => rfl
  | some coins => rfl

theorem unspent_isSome (view : CCoinsViewCache) (o : COutPoint) :
    (view.unspent o).isSome = view.available o := by
  rw [unspent_eq_entry, available_eq_entry, ← CCoins.output_isSome,
    CCoins.unspent, Option.isSome_map]

theorem entry_eq {view : CCoinsViewCache} {txid : uint256} {coins : CCoins}
    (h : view.coins txid = some coins) : view.entry txid = coins := by
  simp [entry, h]

theorem entry_eq_empty {view : CCoinsViewCache} {txid : uint256}
    (h : view.coins txid = none) : view.entry txid = CCoins.empty := by
  simp [entry, h]

@[simp] theorem coins_setCoins_self (view : CCoinsViewCache) (txid : uint256)
    (coins : CCoins) : (view.SetCoins txid coins).coins txid = some coins := by
  simp [SetCoins]

theorem coins_setCoins_ne (view : CCoinsViewCache) {txid txid' : uint256}
    (h : txid' ≠ txid) (coins : CCoins) :
    (view.SetCoins txid coins).coins txid' = view.coins txid' := by
  simp [SetCoins, h]

@[simp] theorem entry_setCoins_self (view : CCoinsViewCache) (txid : uint256)
    (coins : CCoins) : (view.SetCoins txid coins).entry txid = coins := by
  simp [entry]

theorem entry_setCoins_ne (view : CCoinsViewCache) {txid txid' : uint256}
    (h : txid' ≠ txid) (coins : CCoins) :
    (view.SetCoins txid coins).entry txid' = view.entry txid' := by
  simp [entry, coins_setCoins_ne view h]

@[simp] theorem coins_setBestBlock (view : CCoinsViewCache)
    (hashBlock : uint256) :
    (view.SetBestBlock hashBlock).coins = view.coins := rfl

/-- All entries of the view are canonical. -/
def Canonical (view : CCoinsViewCache) : Prop :=
  ∀ txid, (view.entry txid).Canonical

theorem Canonical.setCoins {view : CCoinsViewCache} (h : view.Canonical)
    {txid : uint256} {coins : CCoins} (hc : coins.Canonical) :
    (view.SetCoins txid coins).Canonical := by
  intro txid'
  by_cases heq : txid' = txid
  · subst heq
    rwa [entry_setCoins_self]
  · rw [entry_setCoins_ne view heq]
    exact h txid'

/-- A flush changes no output. -/
theorem output_entry_flush (view : CCoinsViewCache) (txid : uint256) (n : Nat) :
    (view.Flush.entry txid).output n = (view.entry txid).output n := by
  simp only [entry, Flush]
  cases view.coins txid with
  | none => rfl
  | some coins =>
      cases hpruned : coins.IsPruned with
      | true =>
          simp [hpruned, CCoins.output_eq_none_of_isPruned hpruned,
            CCoins.output_empty]
      | false => simp [hpruned, CCoins.output_readBack]

theorem canonical_flush (view : CCoinsViewCache) : view.Flush.Canonical := by
  intro txid o hmem hnull
  cases hcoins : view.coins txid with
  | none =>
      rw [entry_eq_empty (by simp [Flush, hcoins])] at hmem
      simp [CCoins.empty] at hmem
  | some coins =>
      cases hpruned : coins.IsPruned with
      | true =>
          rw [entry_eq_empty (by simp [Flush, hcoins, hpruned])] at hmem
          simp [CCoins.empty] at hmem
      | false =>
          have hentry : view.Flush.entry txid = coins.readBack :=
            entry_eq (by simp [Flush, hcoins, hpruned])
          rw [hentry] at hmem
          exact CCoins.canonical_readBack coins o hmem hnull

end CCoinsViewCache

end Ziftrcoin.Spec
