/-
Module: Ziftrcoin.Proofs.Rescanning
Purpose: When a rescan returns with all that concerns the wallet: when the clock is not
  read a minute late after the last block, and no debit is zero that should count.
Trusted boundary: none
Main exports: visits, rescan_right_iff
-/
import Ziftrcoin.Proofs.AccountTotals
import Ziftrcoin.Spec.Rescan

namespace Ziftrcoin.Spec

/-! ### Folds that may stop -/

/-- A part of the state that every step computes from the same part before it. -/
theorem foldlM_project {σ τ α : Type} {f : σ → α → Option σ} {g : τ → α → Option τ} {p : σ → τ}
    (h : ∀ s a, (f s a).map p = g (p s) a) (as : List α) (s : σ) :
    (as.foldlM f s).map p = as.foldlM g (p s) := by
  induction as generalizing s with
  | nil => rfl
  | cons a as ih =>
      rw [List.foldlM_cons, List.foldlM_cons, ← h]
      cases f s a with
      | none => rfl
      | some s' => exact ih s'

/-- What a step keeps, a run keeps. -/
theorem foldlM_keeps {σ α : Type} {f : σ → α → Option σ} {P : σ → Prop} {as : List α} {s s' : σ}
    (hstep : ∀ s, ∀ a ∈ as, ∀ s', f s a = some s' → P s → P s') (hrun : as.foldlM f s = some s')
    (hs : P s) : P s' := by
  induction as generalizing s with
  | nil =>
      obtain rfl := Option.some.inj hrun
      exact hs
  | cons a as ih =>
      rw [List.foldlM_cons] at hrun
      obtain ⟨s₁, hfirst, hrest⟩ := Option.bind_eq_some_iff.mp hrun
      exact ih (fun s b hb => hstep s b (List.mem_cons_of_mem a hb)) hrest
        (hstep s a List.mem_cons_self s₁ hfirst hs)

/-! ### The blocks -/

/-- The transactions of blocks with the hashes of their blocks, in order. -/
def visits (blocks : List ScanBlock) : List (uint256 × CTransaction) :=
  blocks.flatMap fun block => block.vtx.map fun tx => (block.hash, tx)

theorem visits_ne {blocks : List ScanBlock} {visit : uint256 × CTransaction}
    (h : visit ∈ visits blocks) : visit.1 ≠ 0 := by
  obtain ⟨block, -, hmem⟩ := List.mem_flatMap.mp h
  obtain ⟨tx, -, rfl⟩ := List.mem_map.mp hmem
  exact block.hash_ne

/-- From the first block that is not older than the wallet. -/
def sinceBirthday (nTimeFirstKey : ℤ) (chain : List ScanBlock) : List ScanBlock :=
  chain.dropWhile fun block => decide ((block.nTime : ℤ) < nTimeFirstKey - MAX_BLOCK_TIME_OFFSET)

theorem scanned_eq (nTimeFirstKey : ℤ) (chain : List ScanBlock) :
    ScanWallet.scanned nTimeFirstKey chain = sinceBirthday nTimeFirstKey chain := by
  unfold ScanWallet.scanned sinceBirthday
  congr 1
  funext block
  by_cases hzero : nTimeFirstKey = 0
  · have hlate : ¬ (block.nTime : ℤ) < nTimeFirstKey - MAX_BLOCK_TIME_OFFSET := by
      have hoffset : MAX_BLOCK_TIME_OFFSET = 3600 := rfl
      omega
    simp [hlate]
  · simp [hzero]

/-! ### What becomes of the transactions of the wallet -/

namespace WalletBook

/-- The transaction is in the wallet. -/
def Has (book : WalletBook) (tx : CTransaction) : Prop :=
  (book.mapWallet (tx.GetHash book.crypto)).isSome = true

def insertTx (book : WalletBook) (tx : CTransaction) : WalletBook :=
  { book with
    mapWallet := Function.update book.mapWallet (tx.GetHash book.crypto) (some tx) }

/-- The transactions of the wallet after one more has been looked at. -/
def next (book : WalletBook) (tx : CTransaction) : Option WalletBook :=
  if (book.mapWallet (tx.GetHash book.crypto)).isSome then some book
  else if book.IsMineTx tx then some (book.insertTx tx)
  else
    match book.IsFromMe tx with
    | none => none
    | some true => some (book.insertTx tx)
    | some false => some book

/-- The transaction pays to an own script or spends an own output of the wallet. -/
def Involved (book : WalletBook) (tx : CTransaction) : Prop :=
  book.IsMineTx tx = true ∨ ∃ txin ∈ tx.vin, book.IsMineIn txin = true

/-- It is in the wallet, it pays to an own script, or its debit is in the money range and
not zero if it spends an own output. -/
def Recognised (book : WalletBook) (tx : CTransaction) : Prop :=
  book.Has tx ∨ book.IsMineTx tx = true ∨ ∃ nDebit, book.GetDebit tx = some nDebit ∧
    ((∃ txin ∈ tx.vin, book.IsMineIn txin = true) → 0 < nDebit)

variable {book book' : WalletBook} {tx : CTransaction}

theorem has_insertTx : (book.insertTx tx).Has tx := by
  unfold Has insertTx
  simp

/-- Just then, what concerns the wallet is in it afterwards. -/
theorem recognised_iff : book.Recognised tx ↔
    ∃ book', book.next tx = some book' ∧ (book.Involved tx → book'.Has tx) := by
  unfold next
  by_cases hhas : (book.mapWallet (tx.GetHash book.crypto)).isSome = true
  · rw [if_pos hhas]
    exact iff_of_true (.inl hhas) ⟨book, rfl, fun _ => hhas⟩
  rw [if_neg hhas]
  by_cases hmine : book.IsMineTx tx = true
  · rw [if_pos hmine]
    exact iff_of_true (.inr (.inl hmine)) ⟨_, rfl, fun _ => has_insertTx⟩
  rw [if_neg hmine]
  unfold Recognised Involved IsFromMe
  rw [or_iff_right (show ¬ book.Has tx from hhas), or_iff_right hmine, or_iff_right hmine]
  cases book.GetDebit tx with
  | none => simp
  | some nDebit =>
      by_cases hdebit : 0 < nDebit
      · simp [hdebit, has_insertTx]
      · simp [hdebit, show ¬ book.Has tx from hhas]

theorem next_crypto (h : book.next tx = some book') : book'.crypto = book.crypto := by
  unfold next at h
  split at h
  · rw [← Option.some.inj h]
  · split at h
    · rw [← Option.some.inj h]
      rfl
    · split at h
      · cases h
      · rw [← Option.some.inj h]
        rfl
      · rw [← Option.some.inj h]

/-- Transactions stay in the wallet. -/
theorem next_keeps (h : book.next tx = some book') {other : CTransaction} (hhas : book.Has other) :
    book'.Has other := by
  have hinsert : (book.insertTx tx).Has other := by
    unfold Has insertTx
    by_cases heq : other.GetHash book.crypto = tx.GetHash book.crypto
    · simp [heq]
    · simpa [Function.update_of_ne heq, Has] using hhas
  unfold next at h
  split at h
  · exact Option.some.inj h ▸ hhas
  · split at h
    · exact Option.some.inj h ▸ hinsert
    · split at h
      · cases h
      · exact Option.some.inj h ▸ hinsert
      · exact Option.some.inj h ▸ hhas

/-- The transactions of the wallet after these have been looked at. -/
def after (book : WalletBook) (vs : List (uint256 × CTransaction)) : Option WalletBook :=
  vs.foldlM (fun book visit => book.next visit.2) book

theorem after_append (vs vs' : List (uint256 × CTransaction)) :
    book.after (vs ++ vs') = (book.after vs).bind fun book => book.after vs' := by
  unfold after
  rw [List.foldlM_append]
  rfl

theorem after_concat (vs : List (uint256 × CTransaction)) (visit : uint256 × CTransaction) :
    book.after (vs ++ [visit]) = (book.after vs).bind fun book => book.next visit.2 := by
  rw [after_append]
  congr 1
  funext book
  unfold after
  simp

/-- All that is looked at is recognised just when the run comes to an end with all that
concerns the wallet. -/
theorem after_iff (book : WalletBook) {vs : List (uint256 × CTransaction)} :
    (∀ before visit rest, vs = before ++ visit :: rest →
        ∀ book', book.after before = some book' → book'.Recognised visit.2) ↔
      (book.after vs).isSome = true ∧ ∀ before visit rest, vs = before ++ visit :: rest →
        ∀ book', book.after before = some book' → book'.Involved visit.2 →
          ∃ book'', book.after (before ++ [visit]) = some book'' ∧ book''.Has visit.2 := by
  constructor
  · intro h
    have hruns : ∀ before rest, vs = before ++ rest → (book.after before).isSome = true := by
      intro before
      induction before using List.reverseRecOn with
      | nil => exact fun _ _ => rfl
      | append_singleton before visit ih =>
          intro rest hvs
          rw [List.append_assoc, List.singleton_append] at hvs
          obtain ⟨book', hbook'⟩ := Option.isSome_iff_exists.mp (ih _ hvs)
          obtain ⟨book'', hnext, -⟩ := recognised_iff.mp (h _ _ _ hvs book' hbook')
          rw [after_concat, hbook', Option.bind_some, hnext]
          rfl
    refine ⟨hruns vs [] (List.append_nil vs).symm, ?_⟩
    intro before visit rest hvs book' hbook' hinvolved
    obtain ⟨book'', hnext, hhas⟩ := recognised_iff.mp (h _ _ _ hvs book' hbook')
    refine ⟨book'', ?_, hhas hinvolved⟩
    rw [after_concat, hbook', Option.bind_some, hnext]
  · rintro ⟨hrun, h⟩ before visit rest hvs book' hbook'
    rw [hvs, ← List.singleton_append, ← List.append_assoc, after_append] at hrun
    cases hnext : book'.next visit.2 with
    | none =>
        rw [after_concat, hbook', Option.bind_some, hnext] at hrun
        cases hrun
    | some book'' =>
        refine recognised_iff.mpr ⟨book'', hnext, fun hinvolved => ?_⟩
        obtain ⟨book₁, hafter, hhas⟩ := h _ _ _ hvs book' hbook' hinvolved
        rw [after_concat, hbook', Option.bind_some, hnext] at hafter
        exact Option.some.inj hafter ▸ hhas

end WalletBook

/-! ### What a scan does to the wallet -/

namespace ScanWallet

variable {wallet wallet' : ScanWallet} {fUpdate : Bool}

theorem addToWallet_book {tx : CTransaction} {hashBlock : uint256} :
    (wallet.AddToWallet (tx.GetHash wallet.book.crypto) tx hashBlock).book =
      if (wallet.book.mapWallet (tx.GetHash wallet.book.crypto)).isSome then wallet.book
      else wallet.book.insertTx tx := by
  unfold AddToWallet
  cases wallet.book.mapWallet (tx.GetHash wallet.book.crypto) with
  | none => rfl
  | some _ =>
      rw [Option.isSome_some, if_pos rfl]
      dsimp only
      split_ifs <;> rfl

/-- Whether or not the wallet's transactions are updated, the same ones are added. -/
theorem addIfInvolving_book (wallet : ScanWallet) (fUpdate : Bool) (tx : CTransaction)
    (hashBlock : uint256) :
    (wallet.AddToWalletIfInvolvingMe (tx.GetHash wallet.book.crypto) tx hashBlock fUpdate).map
      (fun result => result.1.book) = wallet.book.next tx := by
  unfold AddToWalletIfInvolvingMe WalletBook.next
  cases hhas : (wallet.book.mapWallet (tx.GetHash wallet.book.crypto)).isSome with
  | true => cases fUpdate <;> simp [addToWallet_book, hhas]
  | false =>
      cases hmine : wallet.book.IsMineTx tx with
      | true => simp [addToWallet_book, hhas]
      | false =>
          cases hfrom : wallet.book.IsFromMe tx with
          | none => simp
          | some fFromMe => cases fFromMe <;> simp [addToWallet_book, hhas]

/-- `SyncTransaction` for these transactions, in order. -/
def syncAll (wallet : ScanWallet) (vs : List (uint256 × CTransaction)) : Option ScanWallet :=
  vs.foldlM (fun wallet visit => wallet.SyncTransaction visit.1 visit.2) wallet

theorem syncAll_book (vs : List (uint256 × CTransaction)) :
    (wallet.syncAll vs).map ScanWallet.book = wallet.book.after vs := by
  apply foldlM_project
  intro wallet visit
  unfold SyncTransaction
  rw [Option.map_map]
  exact addIfInvolving_book _ _ visit.2 visit.1

/-- One transaction of a scan, with the number of those found. -/
def addVisit (fUpdate : Bool) (s : ScanWallet × ℕ) (visit : uint256 × CTransaction) :
    Option (ScanWallet × ℕ) :=
  (s.1.AddToWalletIfInvolvingMe (visit.2.GetHash s.1.book.crypto) visit.2 visit.1 fUpdate).map
    fun result => (result.1, if result.2 then s.2 + 1 else s.2)

theorem foldlM_addVisit_book (fUpdate : Bool) (vs : List (uint256 × CTransaction))
    (s : ScanWallet × ℕ) :
    (vs.foldlM (addVisit fUpdate) s).map (fun s => s.1.book) = s.1.book.after vs := by
  refine foldlM_project (p := fun s : ScanWallet × ℕ => s.1.book) (fun s visit => ?_) vs s
  unfold addVisit
  rw [Option.map_map]
  exact addIfInvolving_book _ _ visit.2 visit.1

theorem foldlM_addVisit_sync (vs : List (uint256 × CTransaction)) (s : ScanWallet × ℕ) :
    (vs.foldlM (addVisit true) s).map Prod.fst = s.1.syncAll vs := by
  refine foldlM_project (fun s visit => ?_) vs s
  unfold addVisit SyncTransaction
  rw [Option.map_map]
  rfl

theorem scanBlock_eq (hashBlock : uint256) (vtx : List CTransaction) (s : ScanWallet × ℕ) :
    scanBlock fUpdate hashBlock vtx s =
      (vtx.map fun tx => (hashBlock, tx)).foldlM (addVisit fUpdate) s := by
  induction vtx generalizing s with
  | nil => rfl
  | cons tx vtx ih =>
      obtain ⟨wallet, ret⟩ := s
      rw [List.map_cons, List.foldlM_cons]
      unfold scanBlock addVisit
      cases wallet.AddToWalletIfInvolvingMe (tx.GetHash wallet.book.crypto) tx hashBlock
        fUpdate with
      | none => rfl
      | some result => exact ih _

/-! ### The clock -/

/-- The check of the clock after a block: how often it has been read, and the time of the
last message. -/
def checkClock (clock : ℕ → ℤ) (s : ℕ × ℤ) : ℕ × ℤ :=
  if s.2 + 60 ≤ clock s.1 then (s.1 + 2, clock (s.1 + 1)) else (s.1 + 1, s.2)

/-- After the last of so many blocks, the clock shows less than a minute since the last
message. -/
def QuietEnd (clock : ℕ → ℤ) (blocks : ℕ) (s : ℕ × ℤ) : Prop :=
  ∀ n, blocks = n + 1 →
    clock ((checkClock clock)^[n] s).1 < ((checkClock clock)^[n] s).2 + 60

theorem quietEnd_succ {clock : ℕ → ℤ} {blocks : ℕ} {s : ℕ × ℤ} :
    QuietEnd clock (blocks + 2) s ↔ QuietEnd clock (blocks + 1) (checkClock clock s) := by
  unfold QuietEnd
  constructor
  · rintro h n hn
    exact h (n + 1) (by omega)
  · rintro h n hn
    obtain ⟨m, rfl⟩ : ∃ m, n = m + 1 := ⟨blocks, by omega⟩
    exact h m (by omega)

theorem scanLoop_ok_iff {clock : ℕ → ℤ} : ∀ {blocks : List ScanBlock} {tick : ℕ} {nNow : ℤ}
    {s s' : ScanWallet × ℕ},
    scanLoop clock fUpdate blocks tick nNow s = .ok s' ↔
      (visits blocks).foldlM (addVisit fUpdate) s = some s' ∧
        QuietEnd clock blocks.length (tick, nNow)
  | [], tick, nNow, s, s' => by
      have hquiet : QuietEnd clock ([] : List ScanBlock).length (tick, nNow) :=
        fun n hn => absurd hn (Nat.succ_ne_zero n).symm
      simp only [scanLoop, Except.ok.injEq, hquiet, and_true]
      exact Option.some_inj.symm
  | block :: rest, tick, nNow, s, s' => by
      have hvisits : (visits (block :: rest)).foldlM (addVisit fUpdate) s =
          (scanBlock fUpdate block.hash block.vtx s).bind
            fun s => (visits rest).foldlM (addVisit fUpdate) s := by
        rw [scanBlock_eq]
        exact List.foldlM_append
      rw [hvisits]
      unfold scanLoop
      cases scanBlock fUpdate block.hash block.vtx s with
      | none => simp
      | some s₁ =>
          rw [Option.bind_some]
          cases rest with
          | nil =>
              have hquiet : QuietEnd clock [block].length (tick, nNow) ↔
                  clock tick < nNow + 60 :=
                ⟨fun h => h 0 rfl, fun h n hn => by
                  obtain rfl : n = 0 := by simpa using hn.symm
                  exact h⟩
              by_cases hlate : nNow + 60 ≤ clock tick
              · rw [hquiet]
                simp [hlate, not_lt.mpr hlate]
              · have hearly := not_le.mp hlate
                simp only [hlate, if_false, hquiet, hearly, and_true, scanLoop,
                  Except.ok.injEq]
                exact Option.some_inj.symm
          | cons next rest =>
              rw [show (block :: next :: rest).length = rest.length + 2 from rfl, quietEnd_succ]
              unfold checkClock
              dsimp only
              split_ifs with hlate
              · exact absurd ‹_› (by simp)
              · exact scanLoop_ok_iff
              · exact scanLoop_ok_iff

/-! ### The blocks of the transactions -/

/-- What was updated last. -/
theorem syncTransaction_hashBlock {hashBlock : uint256} {tx : CTransaction} (hne : hashBlock ≠ 0)
    (h : wallet.SyncTransaction hashBlock tx = some wallet')
    (hhas : (wallet'.book.mapWallet (tx.GetHash wallet.book.crypto)).isSome = true) :
    wallet'.hashBlock (tx.GetHash wallet.book.crypto) = hashBlock := by
  have hadd : (wallet.AddToWallet (tx.GetHash wallet.book.crypto) tx hashBlock).hashBlock
      (tx.GetHash wallet.book.crypto) = hashBlock := by
    unfold AddToWallet
    split
    · exact Function.update_self ..
    · split_ifs with hupdate
      · exact Function.update_self ..
      · exact (not_not.mp fun hother => hupdate ⟨hne, hother⟩).symm
  unfold SyncTransaction AddToWalletIfInvolvingMe at h
  rw [if_neg (by simp)] at h
  split at h
  · rw [Option.map_some, Option.some.injEq] at h
    exact h ▸ hadd
  · next hnew =>
    split at h
    · cases h
    · rw [Option.map_some, Option.some.injEq] at h
      exact h ▸ hadd
    · have heq : wallet = wallet' := Option.some.inj h
      rw [← heq] at hhas
      exact absurd (.inl hhas) hnew

/-- Nothing changes for other hashes. -/
theorem syncTransaction_other {hashBlock hash : uint256} {tx : CTransaction}
    (h : wallet.SyncTransaction hashBlock tx = some wallet')
    (hother : tx.GetHash wallet.book.crypto ≠ hash) :
    wallet'.book.mapWallet hash = wallet.book.mapWallet hash ∧
      wallet'.hashBlock hash = wallet.hashBlock hash := by
  have hadd : (wallet.AddToWallet (tx.GetHash wallet.book.crypto) tx hashBlock).book.mapWallet
        hash = wallet.book.mapWallet hash ∧
      (wallet.AddToWallet (tx.GetHash wallet.book.crypto) tx hashBlock).hashBlock hash =
        wallet.hashBlock hash := by
    unfold AddToWallet
    split
    · exact ⟨Function.update_of_ne hother.symm .., Function.update_of_ne hother.symm ..⟩
    · split_ifs
      · exact ⟨rfl, Function.update_of_ne hother.symm ..⟩
      · exact ⟨rfl, rfl⟩
  unfold SyncTransaction AddToWalletIfInvolvingMe at h
  rw [if_neg (by simp)] at h
  split at h
  · rw [Option.map_some, Option.some.injEq] at h
    exact h ▸ hadd
  · split at h
    · cases h
    · rw [Option.map_some, Option.some.injEq] at h
      exact h ▸ hadd
    · rw [Option.map_some, Option.some.injEq] at h
      exact h ▸ ⟨rfl, rfl⟩

theorem syncTransaction_crypto {hashBlock : uint256} {tx : CTransaction}
    (h : wallet.SyncTransaction hashBlock tx = some wallet') :
    wallet'.book.crypto = wallet.book.crypto := by
  have hbook := addIfInvolving_book wallet true tx hashBlock
  unfold SyncTransaction at h
  obtain ⟨result, hresult, rfl⟩ := Option.map_eq_some_iff.mp h
  rw [hresult, Option.map_some] at hbook
  exact WalletBook.next_crypto hbook.symm

theorem syncAll_cons (visit : uint256 × CTransaction) (vs : List (uint256 × CTransaction)) :
    wallet.syncAll (visit :: vs) =
      (wallet.SyncTransaction visit.1 visit.2).bind fun wallet => wallet.syncAll vs :=
  List.foldlM_cons

theorem syncAll_append (vs vs' : List (uint256 × CTransaction)) :
    wallet.syncAll (vs ++ vs') = (wallet.syncAll vs).bind fun wallet => wallet.syncAll vs' :=
  List.foldlM_append

theorem syncAll_crypto {vs : List (uint256 × CTransaction)}
    (h : wallet.syncAll vs = some wallet') : wallet'.book.crypto = wallet.book.crypto :=
  foldlM_keeps (P := fun w => w.book.crypto = wallet.book.crypto)
    (fun _ _ _ _ hstep hw => (syncTransaction_crypto hstep).trans hw) h rfl

/-- A transaction of the wallet is in the last one of the blocks that hold it. -/
theorem syncAll_hashBlock {before rest : List (uint256 × CTransaction)}
    {visit : uint256 × CTransaction} (hne : visit.1 ≠ 0)
    (hlast : ∀ later ∈ rest, later.2.GetHash wallet.book.crypto ≠
      visit.2.GetHash wallet.book.crypto)
    (h : wallet.syncAll (before ++ visit :: rest) = some wallet')
    (hhas : wallet'.book.Has visit.2) :
    wallet'.hashBlock (visit.2.GetHash wallet.book.crypto) = visit.1 := by
  rw [syncAll_append] at h
  obtain ⟨w, hbefore, h⟩ := Option.bind_eq_some_iff.mp h
  rw [syncAll_cons] at h
  obtain ⟨w₁, hvisit, hrest⟩ := Option.bind_eq_some_iff.mp h
  have hcrypto := syncAll_crypto hbefore
  have hcrypto₁ := (syncTransaction_crypto hvisit).trans hcrypto
  have hcrypto' := (syncAll_crypto hrest).trans hcrypto₁
  obtain ⟨-, hmap, hblock⟩ := foldlM_keeps
    (P := fun w' => w'.book.crypto = wallet.book.crypto ∧
      w'.book.mapWallet (visit.2.GetHash wallet.book.crypto) =
        w₁.book.mapWallet (visit.2.GetHash wallet.book.crypto) ∧
      w'.hashBlock (visit.2.GetHash wallet.book.crypto) =
        w₁.hashBlock (visit.2.GetHash wallet.book.crypto))
    (fun w₂ later hlater w₃ hstep hw => by
      have hother : later.2.GetHash w₂.book.crypto ≠ visit.2.GetHash wallet.book.crypto := by
        rw [hw.1]
        exact hlast later hlater
      obtain ⟨hsame, hblock⟩ := syncTransaction_other hstep hother
      exact ⟨(syncTransaction_crypto hstep).trans hw.1, hsame.trans hw.2.1,
        hblock.trans hw.2.2⟩) hrest ⟨hcrypto₁, rfl, rfl⟩
  unfold WalletBook.Has at hhas
  rw [hcrypto', hmap, ← hcrypto] at hhas
  rw [hblock, ← hcrypto]
  exact syncTransaction_hashBlock hne hvisit hhas

theorem after_eq_some_iff {vs : List (uint256 × CTransaction)} {book : WalletBook} :
    wallet.book.after vs = some book ↔ ∃ w, wallet.syncAll vs = some w ∧ w.book = book := by
  rw [← syncAll_book, Option.map_eq_some_iff]

end ScanWallet

/-! ### The scan as a whole -/

open ScanWallet

/-- The scan returns; the wallet has the transactions that `SyncTransaction` would have
added; each transaction that concerns the wallet when its block is scanned is in it from
then on; and with `fUpdate` each one is in the last block that holds it. -/
def RescanRight (wallet : ScanWallet) (vs : List (uint256 × CTransaction)) (fUpdate : Bool)
    (result : Except ScanFault (ScanWallet × ℕ)) : Prop :=
  ∃ wallet' ret synced, result = .ok (wallet', ret) ∧ wallet.syncAll vs = some synced ∧
    wallet'.book = synced.book ∧
    (∀ before visit rest, vs = before ++ visit :: rest →
      ∀ w, wallet.syncAll before = some w → w.book.Involved visit.2 →
        (∃ w₁, wallet.syncAll (before ++ [visit]) = some w₁ ∧ w₁.book.Has visit.2) ∧
          wallet'.book.Has visit.2) ∧
    (fUpdate = true → ∀ before visit rest, vs = before ++ visit :: rest →
      (∀ later ∈ rest, later.2.GetHash wallet.book.crypto ≠
        visit.2.GetHash wallet.book.crypto) → wallet'.book.Has visit.2 →
          wallet'.hashBlock (visit.2.GetHash wallet.book.crypto) = visit.1)

/-- For every wallet, active chain, start and clock: the scan does all this just when after
the last block the clock shows less than a minute since the last message, and each
transaction that concerns the wallet is recognised: it pays to an own script, or what it
debits is not zero and in the money range. -/
theorem rescan_right_iff (wallet : ScanWallet) (nTimeFirstKey : ℤ) (clock : ℕ → ℤ)
    (vChain : List ScanBlock) (nStart : ℕ) (fUpdate : Bool) :
    RescanRight wallet (visits (sinceBirthday nTimeFirstKey (vChain.drop nStart))) fUpdate
        (wallet.ScanForWalletTransactions nTimeFirstKey clock vChain nStart fUpdate) ↔
      QuietEnd clock (sinceBirthday nTimeFirstKey (vChain.drop nStart)).length (1, clock 0) ∧
        ∀ before visit rest,
          visits (sinceBirthday nTimeFirstKey (vChain.drop nStart)) = before ++ visit :: rest →
          ∀ w, wallet.syncAll before = some w → w.book.Recognised visit.2 := by
  unfold ScanForWalletTransactions
  rw [scanned_eq]
  have hne : ∀ visit ∈ visits (sinceBirthday nTimeFirstKey (vChain.drop nStart)), visit.1 ≠ 0 :=
    fun visit hvisit => visits_ne hvisit
  have hok := @scanLoop_ok_iff fUpdate clock (sinceBirthday nTimeFirstKey (vChain.drop nStart)) 1
    (clock 0) (wallet, 0)
  generalize visits (sinceBirthday nTimeFirstKey (vChain.drop nStart)) = vs at hok hne ⊢
  have hrecognised : (∀ before visit rest, vs = before ++ visit :: rest →
      ∀ w, wallet.syncAll before = some w → w.book.Recognised visit.2) ↔ _ :=
    Iff.trans
      ⟨fun h before visit rest hvs book hbook => by
        obtain ⟨w, hw, rfl⟩ := after_eq_some_iff.mp hbook
        exact h before visit rest hvs w hw,
      fun h before visit rest hvs w hw =>
        h before visit rest hvs w.book (after_eq_some_iff.mpr ⟨w, hw, rfl⟩)⟩
      (WalletBook.after_iff wallet.book)
  rw [hrecognised]
  constructor
  · rintro ⟨wallet', ret, synced, hscan, hsync, -, hcovers, -⟩
    refine ⟨(hok.mp hscan).2, ?_, ?_⟩
    · rw [after_eq_some_iff.mpr ⟨synced, hsync, rfl⟩]
      rfl
    · intro before visit rest hvs book hbook hinvolved
      obtain ⟨w, hw, rfl⟩ := after_eq_some_iff.mp hbook
      obtain ⟨⟨w₁, hw₁, hhas⟩, -⟩ := hcovers before visit rest hvs w hw hinvolved
      exact ⟨w₁.book, after_eq_some_iff.mpr ⟨w₁, hw₁, rfl⟩, hhas⟩
  · rintro ⟨hquiet, hrun, hcovers⟩
    obtain ⟨book, hbook⟩ := Option.isSome_iff_exists.mp hrun
    obtain ⟨synced, hsync, rfl⟩ := after_eq_some_iff.mp hbook
    have hscan := foldlM_addVisit_book fUpdate vs (wallet, 0)
    rw [show (wallet, 0).1.book.after vs = some synced.book from hbook] at hscan
    obtain ⟨⟨wallet', ret⟩, hfold, hsame⟩ := Option.map_eq_some_iff.mp hscan
    have hsame : wallet'.book = synced.book := hsame
    refine ⟨wallet', ret, synced, hok.mpr ⟨hfold, hquiet⟩, hsync, hsame, ?_, ?_⟩
    · intro before visit rest hvs w hw hinvolved
      obtain ⟨book₁, hbook₁, hhas⟩ := hcovers before visit rest hvs w.book
        (after_eq_some_iff.mpr ⟨w, hw, rfl⟩) hinvolved
      refine ⟨?_, ?_⟩
      · obtain ⟨w₁, hw₁, rfl⟩ := after_eq_some_iff.mp hbook₁
        exact ⟨w₁, hw₁, hhas⟩
      · rw [hvs, ← List.singleton_append, ← List.append_assoc, WalletBook.after_append, hbook₁,
          Option.bind_some] at hbook
        rw [hsame]
        exact foldlM_keeps (P := fun book => book.Has visit.2)
          (fun _ _ _ _ hstep hb => WalletBook.next_keeps hstep hb) hbook hhas
    · rintro rfl before visit rest hvs hlast hhas
      have hsync' := foldlM_addVisit_sync vs (wallet, 0)
      rw [hfold, hvs] at hsync'
      exact syncAll_hashBlock (hne visit (by rw [hvs]; simp)) hlast hsync'.symm hhas

/-- A scan of one block that takes a minute. -/
theorem rescan_null :
    (∀ n : ℕ, (60 * n : ℤ) ≤ 60 * (n + 1 : ℕ)) ∧
      (ScanWallet.mk sharedWallet fun _ => 0).ScanForWalletTransactions 0 (fun n => 60 * n)
        [⟨1, by decide, 1400000000, []⟩] 0 true = .error .nullDereference := by
  refine ⟨fun n => by omega, ?_⟩
  simp [ScanForWalletTransactions, scanned, scanLoop, scanBlock]

end Ziftrcoin.Spec
