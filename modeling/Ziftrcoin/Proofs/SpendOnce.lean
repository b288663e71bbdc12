/-
Module: Ziftrcoin.Proofs.SpendOnce
Purpose: The history of a view, one transaction at a time: an output that was
  spent is not there to be spent again, unless a transaction of the same hash
  was connected in between, which takes a flush.
Trusted boundary: none
Main exports: Ran, Ran.viewConnects
-/
import Ziftrcoin.Proofs.PrunedEntries

namespace Ziftrcoin.Spec

open Ziftrcoin.Lib.Outcome

/-- The transactions that led to a view, the first one first, and whether the
view was flushed to disk on the way.  No transaction replaces an entry. -/
inductive Ran (crypto : Crypto) : List CTransaction → Bool → CCoinsViewCache →
    Prop where
  | start : Ran crypto [] false .empty
  | transaction {txs : List CTransaction} {fFlushed : Bool}
      {view view' : CCoinsViewCache} {tx : CTransaction} {nHeight : Nat}
      {txundo : CTxUndo} (before : Ran crypto txs fFlushed view)
      (fresh : view.coins (tx.GetHash crypto) = none)
      (distinct : tx.IsCoinBase = false → (tx.vin.map CTxIn.prevout).Nodup)
      (update : UpdateCoins tx view nHeight (tx.GetHash crypto) =
        .ok (view', txundo)) : Ran crypto (txs ++ [tx]) fFlushed view'
  | best {txs : List CTransaction} {fFlushed : Bool} {view : CCoinsViewCache}
      (before : Ran crypto txs fFlushed view) (hashBlock : uint256) :
      Ran crypto txs fFlushed (view.SetBestBlock hashBlock)
  | flush {txs : List CTransaction} {fFlushed : Bool} {view : CCoinsViewCache}
      (before : Ran crypto txs fFlushed view) : Ran crypto txs true view.Flush

/-- The transaction has an input for the outpoint. -/
def Spends (tx : CTransaction) (o : COutPoint) : Prop :=
  tx.IsCoinBase = false ∧ o ∈ tx.vin.map CTxIn.prevout

theorem spentBy_append (txs txs' : List CTransaction) :
    spentBy (txs ++ txs') = spentBy txs ++ spentBy txs' := by
  simp [spentBy]

theorem mem_spentBy {txs : List CTransaction} {o : COutPoint} :
    o ∈ spentBy txs ↔ ∃ tx ∈ txs, Spends tx o := by
  simp only [spentBy, Spends, List.mem_flatMap, List.mem_filter, Bool.not_eq_true']
  constructor
  · rintro ⟨tx, ⟨hmem, hcb⟩, ho⟩
    exact ⟨tx, hmem, hcb, ho⟩
  · rintro ⟨tx, hmem, hcb, ho⟩
    exact ⟨tx, ⟨hmem, hcb⟩, ho⟩

/-! ### One transaction -/

/-- Every output that is spent was there. -/
theorem available_of_spendInputs :
    ∀ {vin : List CTxIn} {view view' : CCoinsViewCache} {undos : CTxUndo},
      spendInputs view vin = .ok (view', undos) →
      ∀ o ∈ vin.map CTxIn.prevout, view.available o = true
  | [], _, _, _, _, o, ho => by simp at ho
  | txin :: rest, view, view', undos, h, o, ho => by
      rw [spendInputs, bind_eq_ok] at h
      obtain ⟨⟨view₁, undo⟩, hfirst, h⟩ := h
      rw [bind_eq_ok] at h
      obtain ⟨⟨view₂, undos'⟩, hrest, _⟩ := h
      rw [List.map_cons, List.mem_cons] at ho
      rcases ho with rfl | ho
      · by_contra hnot
        obtain ⟨e, he⟩ := spendInput_error (Bool.not_eq_true _ ▸ hnot)
        rw [he] at hfirst
        cases hfirst
      · have hsome := available_of_spendInputs hrest o ho
        rw [← CCoinsViewCache.unspent_isSome, unspent_spendInput hfirst] at hsome
        rw [← CCoinsViewCache.unspent_isSome]
        split at hsome
        · cases hsome
        · exact hsome

theorem available_of_spends {crypto : Crypto} {tx : CTransaction}
    {view view' : CCoinsViewCache} {nHeight : Nat} {txundo : CTxUndo} {o : COutPoint}
    (h : UpdateCoins tx view nHeight (tx.GetHash crypto) = .ok (view', txundo))
    (hspends : Spends tx o) : view.available o = true := by
  obtain ⟨view₁, hspent, rfl⟩ := updateCoins_ok h
  rw [markSpent, if_neg (by simp [hspends.1])] at hspent
  exact available_of_spendInputs hspent o hspends.2

/-- A transaction does not spend an output under its own hash. -/
theorem hash_ne_of_spends {crypto : Crypto} {tx : CTransaction}
    {view view' : CCoinsViewCache} {nHeight : Nat} {txundo : CTxUndo} {o : COutPoint}
    (h : UpdateCoins tx view nHeight (tx.GetHash crypto) = .ok (view', txundo))
    (hfresh : view.coins (tx.GetHash crypto) = none) (hspends : Spends tx o) :
    o.hash ≠ tx.GetHash crypto := by
  intro heq
  have havail := available_of_spends h hspends
  rw [CCoinsViewCache.available, heq, hfresh] at havail
  cases havail

/-- What is there after a transaction, under another hash than its own: what
was there and it did not spend. -/
theorem available_updateCoins {crypto : Crypto} {tx : CTransaction}
    {view view' : CCoinsViewCache} {nHeight : Nat} {txundo : CTxUndo} {o : COutPoint}
    (h : UpdateCoins tx view nHeight (tx.GetHash crypto) = .ok (view', txundo))
    (hne : o.hash ≠ tx.GetHash crypto) :
    view'.available o = true ↔ view.available o = true ∧ ¬ Spends tx o := by
  obtain ⟨view₁, hspent, rfl⟩ := updateCoins_ok h
  have hsame : (view₁.SetCoins (tx.GetHash crypto) (CCoins.ofTx tx nHeight)).available
      o = view₁.available o := by
    rw [CCoinsViewCache.available, CCoinsViewCache.coins_setCoins_ne _ hne]
    rfl
  rw [hsame]
  rcases markSpent_cases hspent with ⟨hcb, rfl, -⟩ | ⟨hcb, hspent⟩
  · simp [Spends, hcb]
  · rw [available_spendInputs hspent]
    simp [Spends, hcb]

theorem available_flush (view : CCoinsViewCache) (o : COutPoint) :
    view.Flush.available o = view.available o := by
  rw [CCoinsViewCache.available_eq_entry, CCoinsViewCache.available_eq_entry,
    ← CCoins.output_isSome, ← CCoins.output_isSome,
    CCoinsViewCache.output_entry_flush]

namespace Ran

variable {crypto : Crypto} {txs : List CTransaction} {fFlushed : Bool}
  {view : CCoinsViewCache}

/-! ### Whole histories -/

/-- An output that was spent is gone, unless a transaction with its hash came
later. -/
theorem not_available_of_spends (h : Ran crypto txs fFlushed view) {i : Nat}
    {tx : CTransaction} {o : COutPoint} (hi : txs[i]? = some tx)
    (hspends : Spends tx o)
    (hlater : ∀ k tx', i < k → txs[k]? = some tx' → tx'.GetHash crypto ≠ o.hash) :
    view.available o = false := by
  induction h with
  | start => simp at hi
  | @transaction txs _ _ _ last _ _ before fresh _ update ih =>
      rw [← Bool.not_eq_true]
      rcases Nat.lt_trichotomy i txs.length with hlt | heq | hgt
      · rw [List.getElem?_append_left hlt] at hi
        have hhash := hlater txs.length last hlt (by simp)
        have hgone := ih hi fun k tx' hk hget => by
          have hk' : k < txs.length := (List.getElem?_eq_some_iff.mp hget).1
          exact hlater k tx' hk (by rw [List.getElem?_append_left hk', hget])
        rw [available_updateCoins update hhash.symm, hgone]
        rintro ⟨hfalse, _⟩
        cases hfalse
      · have hlast : tx = last := by simpa [heq] using hi.symm
        subst hlast
        rw [available_updateCoins update (hash_ne_of_spends update fresh hspends)]
        exact fun hboth => hboth.2 hspends
      · rw [List.getElem?_eq_none (by simp; omega)] at hi
        cases hi
  | best before _ ih => exact ih hi hlater
  | flush before ih =>
      rw [available_flush]
      exact ih hi hlater

/-- The point of a history at which a transaction was connected. -/
theorem take_of_getElem? (h : Ran crypto txs fFlushed view) {j : Nat}
    {tx : CTransaction} (hj : txs[j]? = some tx) :
    ∃ fFlushed' view₁ view₂ nHeight txundo, Ran crypto (txs.take j) fFlushed' view₁ ∧
      UpdateCoins tx view₁ nHeight (tx.GetHash crypto) = .ok (view₂, txundo) := by
  induction h with
  | start => simp at hj
  | @transaction txs _ view₁ view₂ last _ _ before fresh _ update ih =>
      rcases Nat.lt_trichotomy j txs.length with hlt | heq | hgt
      · rw [List.getElem?_append_left hlt] at hj
        rw [List.take_append_of_le_length (le_of_lt hlt)]
        exact ih hj
      · have hlast : tx = last := by simpa [heq] using hj.symm
        subst hlast
        rw [heq, List.take_left]
        exact ⟨_, view₁, view₂, _, _, before, update⟩
      · rw [List.getElem?_eq_none (by simp; omega)] at hj
        cases hj
  | best before _ ih => exact ih hj
  | flush before ih => exact ih hj

/-- Between two spends of an output a transaction with its hash was
connected. -/
theorem respent (h : Ran crypto txs fFlushed view) {i j : Nat}
    {tx tx' : CTransaction} {o : COutPoint} (hij : i < j) (hi : txs[i]? = some tx)
    (hj : txs[j]? = some tx') (hspends : Spends tx o) (hspends' : Spends tx' o) :
    ∃ k tx'', i < k ∧ k < j ∧ txs[k]? = some tx'' ∧ tx''.GetHash crypto = o.hash := by
  obtain ⟨_, view₁, _, _, _, hran, hupdate⟩ := h.take_of_getElem? hj
  by_contra hnone
  have hgone := hran.not_available_of_spends (i := i)
    (by rw [List.getElem?_take_of_lt hij, hi]) hspends fun k tx'' hk hget heq => by
      have hkj : k < j := by
        have hlt := (List.getElem?_eq_some_iff.mp hget).1
        rw [List.length_take] at hlt
        omega
      rw [List.getElem?_take_of_lt hkj] at hget
      exact hnone ⟨k, tx'', hk, hkj, hget, heq⟩
  rw [available_of_spends hupdate hspends'] at hgone
  cases hgone

/-- Without a flush the entry of an output that was spent stays, and so the
output stays spent. -/
theorem spent_of_not_flushed (h : Ran crypto txs fFlushed view)
    (hflush : fFlushed = false) : (spentBy txs).Nodup ∧
      ∀ o ∈ spentBy txs, view.HaveCoins o.hash = true ∧ view.available o = false := by
  induction h with
  | start => simp [spentBy]
  | @transaction txs _ view₁ view₂ tx _ _ before fresh distinct update ih =>
      obtain ⟨hnodup, hgone⟩ := ih hflush
      have hsingle : ∀ o, o ∈ spentBy [tx] ↔ Spends tx o := by
        intro o
        rw [mem_spentBy]
        simp
      rw [spentBy_append]
      refine ⟨List.nodup_append'.mpr ⟨hnodup, ?_, ?_⟩, ?_⟩
      · cases hcb : tx.IsCoinBase with
        | true => simp [spentBy, hcb]
        | false => simpa [spentBy, hcb] using distinct hcb
      · intro o hold hnew
        have havail := available_of_spends update ((hsingle o).mp hnew)
        rw [(hgone o hold).2] at havail
        cases havail
      · intro o ho
        have hkeeps := KeepsEntries.updateCoins update
        rw [List.mem_append, hsingle] at ho
        rcases ho with hold | hnew
        · obtain ⟨hhave, hnot⟩ := hgone o hold
          have hne : o.hash ≠ tx.GetHash crypto := by
            intro heq
            rw [heq, CCoinsViewCache.HaveCoins, fresh] at hhave
            cases hhave
          refine ⟨hkeeps _ hhave, ?_⟩
          rw [← Bool.not_eq_true, available_updateCoins update hne, hnot]
          rintro ⟨hfalse, _⟩
          cases hfalse
        · have havail := available_of_spends update hnew
          have hhave : view₁.HaveCoins o.hash = true := by
            rw [CCoinsViewCache.available] at havail
            rw [CCoinsViewCache.HaveCoins]
            cases hcoins : view₁.coins o.hash with
            | none => simp [hcoins] at havail
            | some coins => rfl
          refine ⟨hkeeps _ hhave, ?_⟩
          rw [← Bool.not_eq_true,
            available_updateCoins update (hash_ne_of_spends update fresh hnew)]
          exact fun hboth => hboth.2 hnew
  | best before _ ih => exact ih hflush
  | flush before ih => cases hflush

/-- The transactions of a block extend a history. -/
theorem viewConnects {txs' : List CTransaction} {txundos : List CTxUndo}
    {view' : CCoinsViewCache} {nHeight : Nat} (h : Ran crypto txs fFlushed view)
    (hconnects : ViewConnects crypto nHeight view txs' txundos view')
    (hfresh : ∀ tx ∈ txs', view.coins (tx.GetHash crypto) = none)
    (hnodup : (txs'.map (CTransaction.GetHash crypto)).Nodup)
    (hchecked : ∀ tx ∈ txs', CheckTransaction tx = .ok ()) :
    Ran crypto (txs ++ txs') fFlushed view' := by
  induction hconnects generalizing txs with
  | nil => simpa using h
  | @cons view view₁ _ tx rest _ _ update _ ih =>
      rw [List.map_cons, List.nodup_cons] at hnodup
      have hnext : Ran crypto (txs ++ [tx]) fFlushed view₁ := by
        apply h.transaction (hfresh tx List.mem_cons_self) _ update
        intro hcb
        have hins := (checkTransaction_ok (hchecked tx List.mem_cons_self)).2.2.2
        rw [hcb] at hins
        exact (checkTxIns_nodup hins).1
      have hfresh' : ∀ t ∈ rest, view₁.coins (t.GetHash crypto) = none := by
        intro t ht
        obtain ⟨view₂, hspent, rfl⟩ := updateCoins_ok update
        have hne : t.GetHash crypto ≠ tx.GetHash crypto :=
          fun heq => hnodup.1 (heq ▸ List.mem_map_of_mem ht)
        rw [CCoinsViewCache.coins_setCoins_ne _ hne]
        exact markSpent_coins_none hspent (hfresh t (List.mem_cons_of_mem _ ht))
      have hall := ih hnext hfresh' hnodup.2 fun t ht =>
        hchecked t (List.mem_cons_of_mem _ ht)
      simpa using hall

end Ran

end Ziftrcoin.Spec
