/-
Module: Ziftrcoin.Proofs.KeyReservations
Purpose: When the indices that a key pool assigns to new keys keep away from
  the indices that somebody has reserved.
Trusted boundary: none
Main exports: Undisturbed, keyPool_unsafe_emptySetting
-/
import Ziftrcoin.Spec.KeyPool

namespace Ziftrcoin.Spec

open Ziftrcoin.Lib

/-! ### Reserved indices -/

/-- An object holds a key of the pool. -/
def KeyPoolState.Holds (s : KeyPoolState) (k : ℕ) : Prop :=
  (s.reserveKeys k).nIndex ≠ -1

/-- None of the `n` indices after `last` is reserved. -/
def KeyPoolState.Clear (s : KeyPoolState) (last : ℤ) (n : ℕ) : Prop :=
  ∀ k, s.Holds k →
    ¬(last < (s.reserveKeys k).nIndex ∧ (s.reserveKeys k).nIndex ≤ last + n)

/-- The indices a pool would assign to new keys on its way to a size. -/
def KeyPoolState.ClearUpTo (s : KeyPoolState) (nTargetSize : ℕ) : Prop :=
  s.Clear s.wallet.last (nTargetSize - s.wallet.setKeyPool.card)

/-- No index that the call assigns to a new key is reserved when it does. -/
def Undisturbed (keypool : ℤ) (s : KeyPoolState) : KeyPoolCall → Prop
  | .getReservedKey k => ¬s.Holds k → s.ClearUpTo (targetSize keypool 0)
  | .topUpKeyPool kpSize => s.ClearUpTo (targetSize keypool kpSize)
  | .newKeyPool => s.Clear 0 (max keypool 0).toNat
  | .getKeyFromPool => s.ClearUpTo (targetSize keypool 0)
  | .oldestReserve _ => s.ClearUpTo (targetSize keypool 0)
  | .keepKey _ => True
  | .returnKey _ => True
  | .oldestReturn _ => True

/-- A record with a key. -/
def recordOf (nTime : ℤ) (key : CPubKey) : CKeyPool :=
  { nTime, vchPubKey := some key }

/-! ### The invariant -/

/-- The set, the database and the holders of keys agree. -/
structure KeyPoolSound (s : KeyPoolState) : Prop where
  positive : ∀ nIndex ∈ s.wallet.setKeyPool, 1 ≤ nIndex
  records : ∀ nIndex ∈ s.wallet.setKeyPool, ∃ nTime key,
    s.wallet.pool nIndex = some (recordOf nTime key) ∧
      s.wallet.generated nIndex = some key
  apart : ∀ k, s.Holds k → (s.reserveKeys k).nIndex ∉ s.wallet.setKeyPool
  distinct : ∀ k k', s.Holds k → s.Holds k' →
    (s.reserveKeys k).nIndex = (s.reserveKeys k').nIndex → k = k'
  held : ∀ k, s.Holds k → 1 ≤ (s.reserveKeys k).nIndex ∧ ∃ nTime key,
    s.wallet.pool (s.reserveKeys k).nIndex = some (recordOf nTime key) ∧
      s.wallet.generated (s.reserveKeys k).nIndex = some key ∧
      (s.reserveKeys k).vchPubKey = some key
  keys : ∀ {i j nTime nTime' key}, s.wallet.pool i = some (recordOf nTime key) →
    s.wallet.pool j = some (recordOf nTime' key) → i = j
  unkept : ∀ {i nTime key}, s.wallet.pool i = some (recordOf nTime key) →
    key < s.wallet.nextKey ∧ key ∉ s.kept
  kept : s.kept.Nodup ∧ ∀ key ∈ s.kept, key < s.wallet.nextKey

theorem KeyPoolState.Loaded.sound {s : KeyPoolState} (h : s.Loaded) :
    KeyPoolSound s := by
  have hfree : ∀ k, ¬s.Holds k := by
    intro k hk
    unfold KeyPoolState.Holds at hk
    rw [h.reserveKeys k] at hk
    exact hk rfl
  constructor
  · intro nIndex hmem
    obtain ⟨record, hrecord⟩ := Option.isSome_iff_exists.mp ((h.pool nIndex).mp hmem)
    exact (h.records hrecord).1
  · intro nIndex hmem
    obtain ⟨record, hrecord⟩ := Option.isSome_iff_exists.mp ((h.pool nIndex).mp hmem)
    obtain ⟨-, key, -, hkey, hgenerated⟩ := h.records hrecord
    refine ⟨record.nTime, key, ?_, hgenerated⟩
    rw [hrecord, recordOf, ← hkey]
  · exact fun k hk => absurd hk (hfree k)
  · exact fun k _ hk => absurd hk (hfree k)
  · exact fun k hk => absurd hk (hfree k)
  · exact fun hi hj => h.keys hi hj rfl
  · intro i nTime key hi
    obtain ⟨-, key', hlt, hkey, -⟩ := h.records hi
    injection hkey with hkey
    rw [h.kept]
    exact ⟨hkey ▸ hlt, List.not_mem_nil⟩
  · rw [h.kept]
    exact ⟨List.nodup_nil, fun key hkey => absurd hkey List.not_mem_nil⟩

/-! ### New keys -/

section NewKeys

variable {s : KeyPoolState} {nIndex : ℤ}

/-- A new key may be written under any index that is not reserved. -/
theorem KeyPoolSound.generate (h : KeyPoolSound s) (hpos : 1 ≤ nIndex)
    (hfree : ∀ k, s.Holds k → (s.reserveKeys k).nIndex ≠ nIndex) :
    KeyPoolSound { s with wallet := s.wallet.generate nIndex } := by
  -- Another record is an old one, and its key is older than the new key.
  have hold : ∀ {i nTime key}, (s.wallet.generate nIndex).pool i =
      some (recordOf nTime key) →
      i = nIndex ∧ key = s.wallet.nextKey ∨
        i ≠ nIndex ∧ s.wallet.pool i = some (recordOf nTime key) := by
    intro i nTime key hi
    by_cases heq : i = nIndex
    · subst heq
      dsimp only [KeyWallet.generate] at hi
      rw [Function.update_self] at hi
      injection hi with hi
      injection hi with _ hkey
      injection hkey with hkey
      exact .inl ⟨rfl, hkey.symm⟩
    · dsimp only [KeyWallet.generate] at hi
      rw [Function.update_of_ne heq] at hi
      exact .inr ⟨heq, hi⟩
  constructor
  · intro i hi
    rcases Finset.mem_insert.mp hi with rfl | hi
    · exact hpos
    · exact h.positive i hi
  · intro i hi
    by_cases heq : i = nIndex
    · subst heq
      exact ⟨_, _, Function.update_self .., Function.update_self ..⟩
    · obtain ⟨nTime, key, hrecord, hgenerated⟩ :=
        h.records i (Finset.mem_of_mem_insert_of_ne hi heq)
      exact ⟨nTime, key, (Function.update_of_ne heq ..).trans hrecord,
        (Function.update_of_ne heq ..).trans hgenerated⟩
  · intro k hk hmem
    exact h.apart k hk (Finset.mem_of_mem_insert_of_ne hmem (hfree k hk))
  · exact h.distinct
  · intro k hk
    obtain ⟨hpos', nTime, key, hrecord, hgenerated, hkey⟩ := h.held k hk
    exact ⟨hpos', nTime, key, (Function.update_of_ne (hfree k hk) ..).trans hrecord,
      (Function.update_of_ne (hfree k hk) ..).trans hgenerated, hkey⟩
  · intro i j nTime nTime' key hi hj
    rcases hold hi with ⟨hi', hkey⟩ | ⟨-, hi'⟩ <;>
      rcases hold hj with ⟨hj', hkey'⟩ | ⟨-, hj'⟩
    · rw [hi', hj']
    · exact absurd hkey (h.unkept hj').1.ne
    · exact absurd hkey' (h.unkept hi').1.ne
    · exact h.keys hi' hj'
  · intro i nTime key hi
    rcases hold hi with ⟨rfl, rfl⟩ | ⟨-, hi⟩
    · exact ⟨Nat.lt_succ_self _, fun hmem => lt_irrefl _ (h.kept.2 _ hmem)⟩
    · exact ⟨(h.unkept hi).1.trans (Nat.lt_succ_self _), (h.unkept hi).2⟩
  · exact ⟨h.kept.1, fun key hkey => (h.kept.2 key hkey).trans (Nat.lt_succ_self _)⟩

/-- A key may be generated for another purpose. -/
theorem KeyPoolSound.skipKey (h : KeyPoolSound s) :
    KeyPoolSound { s with wallet := { s.wallet with nextKey := s.wallet.nextKey + 1 } } where
  positive := h.positive
  records := h.records
  apart := h.apart
  distinct := h.distinct
  held := h.held
  keys := h.keys
  unkept hi := ⟨(h.unkept hi).1.trans (Nat.lt_succ_self _), (h.unkept hi).2⟩
  kept := ⟨h.kept.1, fun key hkey => (h.kept.2 key hkey).trans (Nat.lt_succ_self _)⟩

theorem lt_last_succ (w : KeyWallet) {i : ℤ} (hi : i ∈ w.setKeyPool) : i < w.last + 1 := by
  unfold KeyWallet.last
  obtain ⟨m, hm⟩ := Finset.max_of_mem hi
  rw [hm, WithBot.unbotD_coe]
  exact Int.lt_add_one_of_le (Finset.le_max_of_eq hi hm)

/-- The next index becomes the last one. -/
theorem last_generate (w : KeyWallet) :
    (w.generate (w.last + 1)).last = w.last + 1 := by
  have hmax : (insert (w.last + 1) w.setKeyPool).max = ((w.last + 1 : ℤ) : WithBot ℤ) := by
    apply le_antisymm
    · apply Finset.max_le
      intro i hi
      rw [WithBot.coe_le_coe]
      rcases Finset.mem_insert.mp hi with rfl | hi
      · exact le_rfl
      · exact (lt_last_succ w hi).le
    · exact Finset.le_max (Finset.mem_insert_self _ _)
  change (insert (w.last + 1) w.setKeyPool).max.unbotD 0 = _
  rw [hmax, WithBot.unbotD_coe]

theorem card_generate (w : KeyWallet) :
    (w.generate (w.last + 1)).setKeyPool.card = w.setKeyPool.card + 1 :=
  Finset.card_insert_of_notMem fun hmem => lt_irrefl _ (lt_last_succ w hmem)

theorem last_nonneg {w : KeyWallet} (hpos : ∀ i ∈ w.setKeyPool, 1 ≤ i) : 0 ≤ w.last := by
  unfold KeyWallet.last
  rcases hmax : w.setKeyPool.max with _ | m
  · exact le_rfl
  · exact le_trans zero_le_one (hpos m (Finset.mem_of_max hmax))

/-- Topping up writes keys under the indices after the last one, as many as
there are rounds until the size is reached. -/
theorem KeyPoolSound.topUp {nTargetSize : ℕ} (rounds : ℕ) :
    ∀ {s : KeyPoolState}, KeyPoolSound s → s.ClearUpTo nTargetSize →
      KeyPoolSound { s with wallet := s.wallet.topUp nTargetSize rounds } := by
  induction rounds with
  | zero => exact fun h _ => h
  | succ rounds ih =>
      intro s h hclear
      unfold KeyWallet.topUp
      split
      · rename_i hsmall
        have hlast := last_nonneg h.positive
        have hnext : KeyPoolSound
            { s with wallet := s.wallet.generate (s.wallet.last + 1) } := by
          apply h.generate (by omega)
          intro k hk heq
          exact hclear k hk ⟨by omega, by omega⟩
        apply ih hnext
        intro k hk
        dsimp only
        rw [last_generate, card_generate]
        have hfree := hclear k hk
        omega
      · exact h

theorem KeyPoolSound.topUpKeyPool (h : KeyPoolSound s) {keypool : ℤ} {kpSize : ℕ}
    (hclear : s.ClearUpTo (targetSize keypool kpSize)) :
    KeyPoolSound { s with wallet := TopUpKeyPool keypool kpSize s.wallet } := by
  unfold TopUpKeyPool
  split
  · exact h
  · exact h.topUp _ hclear

/-- Without its set and the records of the set, a pool is sound. -/
theorem KeyPoolSound.clear (h : KeyPoolSound s) :
    KeyPoolSound { s with wallet :=
      { s.wallet with
        pool := fun nIndex =>
          if nIndex ∈ s.wallet.setKeyPool then none else s.wallet.pool nIndex
        setKeyPool := ∅ } } := by
  have hold : ∀ {i record}, (if i ∈ s.wallet.setKeyPool then none
      else s.wallet.pool i) = some record → s.wallet.pool i = some record := by
    intro i record hi
    split at hi
    · cases hi
    · exact hi
  constructor
  · exact fun i hi => absurd hi (Finset.notMem_empty i)
  · exact fun i hi => absurd hi (Finset.notMem_empty i)
  · exact fun k _ => Finset.notMem_empty _
  · exact h.distinct
  · intro k hk
    obtain ⟨hpos, nTime, key, hrecord, hrest⟩ := h.held k hk
    exact ⟨hpos, nTime, key, (if_neg (h.apart k hk)).trans hrecord, hrest⟩
  · exact fun hi hj => h.keys (hold hi) (hold hj)
  · exact fun hi => h.unkept (hold hi)
  · exact h.kept

/-- Keys under the first indices, one after the other. -/
theorem KeyPoolSound.generateFirst (h : KeyPoolSound s) (n : ℕ) (hclear : s.Clear 0 n) :
    KeyPoolSound
      { s with
        wallet := (List.range n).foldl (fun w (i : ℕ) => w.generate ((i : ℤ) + 1))
          s.wallet } := by
  induction n with
  | zero => exact h
  | succ n ih =>
      rw [List.range_succ, List.foldl_append, List.foldl_cons, List.foldl_nil]
      have hbefore : KeyPoolSound
          { s with
            wallet := (List.range n).foldl (fun w (i : ℕ) => w.generate ((i : ℤ) + 1))
              s.wallet } := by
        apply ih
        intro k hk hrange
        exact hclear k hk ⟨hrange.1, by omega⟩
      apply hbefore.generate (by omega)
      intro k hk heq
      dsimp only at heq
      exact hclear k hk ⟨by omega, by omega⟩

theorem KeyPoolSound.newKeyPool (h : KeyPoolSound s) {keypool : ℤ}
    (hclear : s.Clear 0 (max keypool 0).toNat) :
    KeyPoolSound { s with wallet := NewKeyPool keypool s.wallet } := by
  unfold NewKeyPool
  dsimp only
  split
  · exact h.clear
  · exact h.clear.generateFirst _ hclear

end NewKeys

/-! ### Holders -/

section Holders

variable {s : KeyPoolState} {k : ℕ} {nIndex nTime : ℤ} {key : CPubKey}

/-- An object that holds no key may get another value that holds none. -/
theorem KeyPoolSound.setIdle (h : KeyPoolSound s) {held : CReserveKey}
    (hidle : held.nIndex = -1) :
    KeyPoolSound { s with reserveKeys := Function.update s.reserveKeys k held } := by
  have hother : ∀ k', KeyPoolState.Holds
      { s with reserveKeys := Function.update s.reserveKeys k held } k' →
      Function.update s.reserveKeys k held k' = s.reserveKeys k' ∧ s.Holds k' := by
    intro k' hk'
    by_cases heq : k' = k
    · subst heq
      unfold KeyPoolState.Holds at hk'
      dsimp only at hk'
      rw [Function.update_self] at hk'
      exact absurd hidle hk'
    · have hsame := Function.update_of_ne heq held s.reserveKeys
      refine ⟨hsame, ?_⟩
      unfold KeyPoolState.Holds at hk' ⊢
      dsimp only at hk'
      rwa [hsame] at hk'
  constructor
  · exact h.positive
  · exact h.records
  · intro k' hk'
    obtain ⟨hsame, hholds⟩ := hother k' hk'
    dsimp only
    rw [hsame]
    exact h.apart k' hholds
  · intro k' k'' hk' hk'' heq
    obtain ⟨hsame, hholds⟩ := hother k' hk'
    obtain ⟨hsame', hholds'⟩ := hother k'' hk''
    dsimp only at heq
    rw [hsame, hsame'] at heq
    exact h.distinct k' k'' hholds hholds' heq
  · intro k' hk'
    obtain ⟨hsame, hholds⟩ := hother k' hk'
    dsimp only
    rw [hsame]
    exact h.held k' hholds
  · exact h.keys
  · exact h.unkept
  · exact h.kept

/-- A key that leaves the set goes to an object that holds none. -/
theorem KeyPoolSound.reserve (h : KeyPoolSound s) (hmem : nIndex ∈ s.wallet.setKeyPool)
    (hrecord : s.wallet.pool nIndex = some (recordOf nTime key)) (hidle : ¬s.Holds k) :
    KeyPoolSound
      { s with
        wallet := { s.wallet with setKeyPool := s.wallet.setKeyPool.erase nIndex }
        reserveKeys := Function.update s.reserveKeys k { nIndex, vchPubKey := some key } } := by
  have hother : ∀ k', k' ≠ k → Function.update s.reserveKeys k
      { nIndex, vchPubKey := some key } k' = s.reserveKeys k' :=
    fun k' hne => Function.update_of_ne hne ..
  have hself : Function.update s.reserveKeys k { nIndex, vchPubKey := some key } k =
      { nIndex, vchPubKey := some key } := Function.update_self ..
  constructor
  · exact fun i hi => h.positive i (Finset.mem_of_mem_erase hi)
  · exact fun i hi => h.records i (Finset.mem_of_mem_erase hi)
  · intro k' hk'
    unfold KeyPoolState.Holds at hk'
    dsimp only at hk' ⊢
    by_cases heq : k' = k
    · subst heq
      rw [hself]
      exact Finset.notMem_erase nIndex _
    · rw [hother k' heq] at hk' ⊢
      exact fun hin => h.apart k' hk' (Finset.mem_of_mem_erase hin)
  · intro k' k'' hk' hk'' heq
    unfold KeyPoolState.Holds at hk' hk''
    dsimp only at hk' hk'' heq
    by_cases hk : k' = k <;> by_cases hkk : k'' = k
    · rw [hk, hkk]
    · subst hk
      rw [hself, hother k'' hkk] at heq
      rw [hother k'' hkk] at hk''
      exact absurd (heq ▸ hmem) (h.apart k'' hk'')
    · subst hkk
      rw [hself, hother k' hk] at heq
      rw [hother k' hk] at hk'
      exact absurd (heq ▸ hmem) (h.apart k' hk')
    · rw [hother k' hk] at hk' heq
      rw [hother k'' hkk] at hk'' heq
      exact h.distinct k' k'' hk' hk'' heq
  · intro k' hk'
    unfold KeyPoolState.Holds at hk'
    dsimp only at hk' ⊢
    by_cases heq : k' = k
    · subst heq
      rw [hself]
      obtain ⟨nTime', key', hrecord', hgenerated⟩ := h.records nIndex hmem
      rw [hrecord] at hrecord'
      injection hrecord' with hrecord'
      injection hrecord' with _ hkey
      injection hkey with hkey
      subst hkey
      exact ⟨h.positive nIndex hmem, nTime, key, hrecord, hgenerated, rfl⟩
    · rw [hother k' heq] at hk' ⊢
      exact h.held k' hk'
  · exact h.keys
  · exact h.unkept
  · exact h.kept

/-- A key leaves the pool for good: its record is erased, and nobody holds its
index any more. -/
theorem KeyPoolSound.keep (h : KeyPoolSound s) {reserveKeys : ℕ → CReserveKey}
    {setKeyPool : Finset ℤ} (hrecord : s.wallet.pool nIndex = some (recordOf nTime key))
    (hset : ∀ i ∈ setKeyPool, i ∈ s.wallet.setKeyPool ∧ i ≠ nIndex)
    (hheld : ∀ k, (reserveKeys k).nIndex ≠ -1 →
      reserveKeys k = s.reserveKeys k ∧ (s.reserveKeys k).nIndex ≠ nIndex) :
    KeyPoolSound
      { wallet := KeyWallet.KeepKey nIndex { s.wallet with setKeyPool }
        reserveKeys
        kept := key :: s.kept } := by
  have hold : ∀ {i record}, Function.update s.wallet.pool nIndex none i = some record →
      i ≠ nIndex ∧ s.wallet.pool i = some record := by
    intro i record hi
    by_cases heq : i = nIndex
    · subst heq
      rw [Function.update_self] at hi
      cases hi
    · rw [Function.update_of_ne heq] at hi
      exact ⟨heq, hi⟩
  constructor
  · exact fun i hi => h.positive i (hset i hi).1
  · intro i hi
    obtain ⟨nTime', key', hrecord', hgenerated⟩ := h.records i (hset i hi).1
    exact ⟨nTime', key', (Function.update_of_ne (hset i hi).2 ..).trans hrecord', hgenerated⟩
  · intro k hk hin
    obtain ⟨hsame, -⟩ := hheld k hk
    unfold KeyPoolState.Holds at hk
    dsimp only at hk hin
    rw [hsame] at hk hin
    exact h.apart k hk (hset _ hin).1
  · intro k k' hk hk' heq
    obtain ⟨hsame, -⟩ := hheld k hk
    obtain ⟨hsame', -⟩ := hheld k' hk'
    unfold KeyPoolState.Holds at hk hk'
    dsimp only at hk hk' heq
    rw [hsame] at hk heq
    rw [hsame'] at hk' heq
    exact h.distinct k k' hk hk' heq
  · intro k hk
    obtain ⟨hsame, hne⟩ := hheld k hk
    unfold KeyPoolState.Holds at hk
    dsimp only at hk ⊢
    rw [hsame] at hk ⊢
    obtain ⟨hpos, nTime', key', hrecord', hrest⟩ := h.held k hk
    exact ⟨hpos, nTime', key', (Function.update_of_ne hne ..).trans hrecord', hrest⟩
  · exact fun hi hj => h.keys (hold hi).2 (hold hj).2
  · intro i nTime' key' hi
    obtain ⟨hne, hi'⟩ := hold hi
    refine ⟨(h.unkept hi').1, fun hin => ?_⟩
    rcases List.mem_cons.mp hin with rfl | hin
    · exact hne (h.keys hi' hrecord)
    · exact (h.unkept hi').2 hin
  · refine ⟨List.nodup_cons.mpr ⟨(h.unkept hrecord).2, h.kept.1⟩, ?_⟩
    intro key' hin
    rcases List.mem_cons.mp hin with rfl | hin
    · exact (h.unkept hrecord).1
    · exact h.kept.2 key' hin

/-- A key goes back into the set. -/
theorem KeyPoolSound.giveBack (h : KeyPoolSound s) (hholds : s.Holds k) :
    KeyPoolSound
      { s with
        wallet := s.wallet.ReturnKey (s.reserveKeys k).nIndex
        reserveKeys := Function.update s.reserveKeys k .empty } := by
  have hother : ∀ k', KeyPoolState.Holds
      { s with
        wallet := s.wallet.ReturnKey (s.reserveKeys k).nIndex
        reserveKeys := Function.update s.reserveKeys k .empty } k' →
      k' ≠ k ∧ Function.update s.reserveKeys k .empty k' = s.reserveKeys k' ∧
        s.Holds k' := by
    intro k' hk'
    unfold KeyPoolState.Holds at hk'
    dsimp only at hk'
    by_cases heq : k' = k
    · subst heq
      rw [Function.update_self] at hk'
      exact absurd rfl hk'
    · have hsame := Function.update_of_ne heq CReserveKey.empty s.reserveKeys
      rw [hsame] at hk'
      exact ⟨heq, hsame, hk'⟩
  obtain ⟨hpos, nTime, key, hrecord, hgenerated, hkey⟩ := h.held k hholds
  constructor
  · intro i hi
    rcases Finset.mem_insert.mp hi with rfl | hi
    · exact hpos
    · exact h.positive i hi
  · intro i hi
    rcases Finset.mem_insert.mp hi with rfl | hi
    · exact ⟨nTime, key, hrecord, hgenerated⟩
    · exact h.records i hi
  · intro k' hk' hin
    obtain ⟨hne, hsame, hholds'⟩ := hother k' hk'
    dsimp only at hin
    rw [hsame] at hin
    rcases Finset.mem_insert.mp hin with heq | hin
    · exact hne (h.distinct k' k hholds' hholds heq)
    · exact h.apart k' hholds' hin
  · intro k' k'' hk' hk'' heq
    obtain ⟨-, hsame, hholds'⟩ := hother k' hk'
    obtain ⟨-, hsame', hholds''⟩ := hother k'' hk''
    dsimp only at heq
    rw [hsame, hsame'] at heq
    exact h.distinct k' k'' hholds' hholds'' heq
  · intro k' hk'
    obtain ⟨-, hsame, hholds'⟩ := hother k' hk'
    dsimp only
    rw [hsame]
    exact h.held k' hholds'
  · exact h.keys
  · exact h.unkept
  · exact h.kept

end Holders

/-! ### Room above -/

/-- Every reserved index is below the last one of the set. -/
structure KeyPoolState.Roomy (s : KeyPoolState) : Prop where
  unlocked : s.wallet.fLocked = false
  below : ∀ k, s.Holds k → (s.reserveKeys k).nIndex < s.wallet.last

section Room

variable {s : KeyPoolState} {w : KeyWallet} {nTargetSize : ℕ}

theorem last_topUp (rounds : ℕ) : ∀ w, w.last ≤ (KeyWallet.topUp nTargetSize rounds w).last := by
  induction rounds with
  | zero => exact fun w => le_rfl
  | succ rounds ih =>
      intro w
      unfold KeyWallet.topUp
      split
      · have hrest := ih (w.generate (w.last + 1))
        rw [last_generate] at hrest
        omega
      · exact le_rfl

theorem fLocked_topUp (rounds : ℕ) :
    ∀ w, (KeyWallet.topUp nTargetSize rounds w).fLocked = w.fLocked := by
  induction rounds with
  | zero => exact fun w => rfl
  | succ rounds ih =>
      intro w
      unfold KeyWallet.topUp
      split
      · exact ih _
      · rfl

/-- The loop reaches the size in the rounds it is given. -/
theorem card_topUp (rounds : ℕ) : ∀ w, min nTargetSize (w.setKeyPool.card + rounds) ≤
    (KeyWallet.topUp nTargetSize rounds w).setKeyPool.card := by
  induction rounds with
  | zero => exact fun w => min_le_right ..
  | succ rounds ih =>
      intro w
      unfold KeyWallet.topUp
      split
      · have hrest := ih (w.generate (w.last + 1))
        rw [card_generate] at hrest
        omega
      · omega

/-- Topping up leaves room, and fills the pool. -/
theorem KeyPoolState.Roomy.topUpKeyPool (h : s.Roomy) (keypool : ℤ) (kpSize : ℕ) :
    KeyPoolState.Roomy { s with wallet := TopUpKeyPool keypool kpSize s.wallet } ∧
      targetSize keypool kpSize ≤ (TopUpKeyPool keypool kpSize s.wallet).setKeyPool.card := by
  unfold TopUpKeyPool
  rw [if_neg (by rw [h.unlocked]; decide)]
  refine ⟨⟨(fLocked_topUp _ _).trans h.unlocked, fun k hk => ?_⟩, ?_⟩
  · exact (h.below k hk).trans_le (last_topUp _ _)
  · have hcard := @card_topUp (targetSize keypool kpSize) (targetSize keypool kpSize) s.wallet
    omega

/-- With two indices in the set, the smallest is not the last one. -/
theorem last_erase_min {nIndex : ℤ} (hmin : w.setKeyPool.min = nIndex)
    (hcard : 2 ≤ w.setKeyPool.card) :
    nIndex < w.last ∧
      KeyWallet.last { w with setKeyPool := w.setKeyPool.erase nIndex } = w.last := by
  have hmem : nIndex ∈ w.setKeyPool := Finset.mem_of_min hmin
  obtain ⟨m, hm⟩ := Finset.max_of_mem hmem
  have hlast : w.last = m := by
    unfold KeyWallet.last
    rw [hm, WithBot.unbotD_coe]
  obtain ⟨j, hj, hne⟩ := Finset.exists_mem_ne hcard nIndex
  have hlt : nIndex < m := by
    have hle := Finset.min_le_of_eq hj hmin
    have hge := Finset.le_max_of_eq hj hm
    omega
  have hmax : (w.setKeyPool.erase nIndex).max = m := by
    apply le_antisymm
    · exact (Finset.max_mono (Finset.erase_subset ..)).trans hm.le
    · exact Finset.le_max (Finset.mem_erase.mpr ⟨hlt.ne', Finset.mem_of_max hm⟩)
  refine ⟨hlast ▸ hlt, ?_⟩
  rw [hlast]
  unfold KeyWallet.last
  dsimp only
  rw [hmax, WithBot.unbotD_coe]

theorem last_le_returnKey (w : KeyWallet) {nIndex : ℤ} (hpos : 0 ≤ nIndex) :
    w.last ≤ (w.ReturnKey nIndex).last := by
  obtain ⟨m, hm⟩ := Finset.max_of_mem (Finset.mem_insert_self nIndex w.setKeyPool)
  have hnew : (w.ReturnKey nIndex).last = m := by
    unfold KeyWallet.last KeyWallet.ReturnKey
    dsimp only
    rw [hm, WithBot.unbotD_coe]
  rw [hnew]
  unfold KeyWallet.last
  cases hmax : w.setKeyPool.max with
  | bot => exact hpos.trans (Finset.le_max_of_eq (Finset.mem_insert_self ..) hm)
  | coe j =>
      exact Finset.le_max_of_eq (Finset.mem_insert_of_mem (Finset.mem_of_max hmax)) hm

theorem fLocked_newKeyPool (keypool : ℤ) (w : KeyWallet) :
    (NewKeyPool keypool w).fLocked = w.fLocked := by
  have hgenerate : ∀ (xs : List ℕ) (v : KeyWallet),
      (xs.foldl (fun v (i : ℕ) => v.generate ((i : ℤ) + 1)) v).fLocked = v.fLocked := by
    intro xs
    induction xs with
    | nil => exact fun v => rfl
    | cons x xs ih => exact fun v => ih _
  unfold NewKeyPool
  dsimp only
  split
  · rfl
  · exact hgenerate _ _

end Room

/-! ### Calls -/

section Calls

variable {s : KeyPoolState} {keypool : ℤ} {k : ℕ}

/-- What a call leaves: a sound pool, and room when there was some and the pool
has a size. -/
structure Leads (keypool : ℤ) (s s' : KeyPoolState) : Prop where
  sound : KeyPoolSound s'
  roomy : 2 ≤ targetSize keypool 0 → s.Roomy → s'.Roomy

/-- The wallet in which a reservation looks for the smallest index. -/
def topped (keypool : ℤ) (w : KeyWallet) : KeyWallet :=
  if w.fLocked then w else TopUpKeyPool keypool 0 w

theorem topped_leads (h : KeyPoolSound s) (hclear : s.ClearUpTo (targetSize keypool 0)) :
    Leads keypool s { s with wallet := topped keypool s.wallet } ∧
      (2 ≤ targetSize keypool 0 → s.Roomy →
        2 ≤ (topped keypool s.wallet).setKeyPool.card) := by
  unfold topped
  refine ⟨⟨?_, fun _ hroomy => ?_⟩, fun hsize hroomy => ?_⟩
  · split
    · exact h
    · exact h.topUpKeyPool hclear
  · rw [if_neg (by rw [hroomy.unlocked]; decide)]
    exact (hroomy.topUpKeyPool keypool 0).1
  · rw [if_neg (by rw [hroomy.unlocked]; decide)]
    exact hsize.trans (hroomy.topUpKeyPool keypool 0).2

theorem reserve_none {w : KeyWallet} (hmin : (topped keypool w).setKeyPool.min = ⊤) :
    ReserveKeyFromKeyPool keypool w =
      .done (-1, { nTime := 0, vchPubKey := none }) (topped keypool w) := by
  unfold ReserveKeyFromKeyPool
  rw [Machine.modify_bind_run, Machine.get_bind_run, ← topped, hmin]
  rfl

theorem reserve_some {w : KeyWallet} {nIndex nTime : ℤ} {key : CPubKey}
    (hmin : (topped keypool w).setKeyPool.min = nIndex)
    (hrecord : (topped keypool w).pool nIndex = some (recordOf nTime key)) :
    ReserveKeyFromKeyPool keypool w =
      .done (nIndex, recordOf nTime key)
        { topped keypool w with
          setKeyPool := (topped keypool w).setKeyPool.erase nIndex } := by
  unfold ReserveKeyFromKeyPool
  rw [Machine.modify_bind_run, Machine.get_bind_run, ← topped, hmin]
  change (Machine.modify _ >>= _) (topped keypool w) = _
  rw [Machine.modify_bind_run, hrecord]
  rfl

theorem call_run {α : Type} {x : KeyPool α} {a : α} {w : KeyWallet}
    (h : x s.wallet = .done a w) :
    KeyPoolUser.call x s = .done a { s with wallet := w } := by
  unfold KeyPoolUser.call
  rw [h]

/-- No index of a sound pool is the one that stands for no index. -/
theorem KeyPoolSound.ne_none (h : KeyPoolSound s) {nIndex : ℤ}
    (hmem : nIndex ∈ s.wallet.setKeyPool) : nIndex ≠ -1 := by
  have hpos := h.positive nIndex hmem
  omega

/-- Where there is room, a reservation finds two indices. -/
theorem Leads.of_empty {s' : KeyPoolState} (hsound : KeyPoolSound s')
    (hcard : 2 ≤ targetSize keypool 0 → s.Roomy →
      2 ≤ (topped keypool s.wallet).setKeyPool.card)
    (hmin : (topped keypool s.wallet).setKeyPool.min = ⊤) : Leads keypool s s' := by
  refine ⟨hsound, fun hsize hroomy => ?_⟩
  have hempty := hcard hsize hroomy
  rw [Finset.min_eq_top.mp hmin, Finset.card_empty] at hempty
  omega

/-- The smallest index goes to an object that holds none. -/
theorem leads_reserve {nIndex nTime : ℤ} {key : CPubKey}
    (h : Leads keypool s { s with wallet := topped keypool s.wallet })
    (hcard : 2 ≤ targetSize keypool 0 → s.Roomy →
      2 ≤ (topped keypool s.wallet).setKeyPool.card)
    (hmin : (topped keypool s.wallet).setKeyPool.min = nIndex)
    (hrecord : (topped keypool s.wallet).pool nIndex = some (recordOf nTime key))
    (hidle : ¬s.Holds k) :
    Leads keypool s
      { s with
        wallet := { topped keypool s.wallet with
          setKeyPool := (topped keypool s.wallet).setKeyPool.erase nIndex }
        reserveKeys :=
          Function.update s.reserveKeys k { nIndex, vchPubKey := some key } } := by
  refine ⟨h.sound.reserve (Finset.mem_of_min hmin) hrecord hidle, fun hsize hroomy => ?_⟩
  have hroom := h.roomy hsize hroomy
  obtain ⟨hlt, hlast⟩ := last_erase_min hmin (hcard hsize hroomy)
  refine ⟨hroom.unlocked, fun k' hk' => ?_⟩
  unfold KeyPoolState.Holds at hk'
  dsimp only at hk' ⊢
  rw [hlast]
  by_cases heq : k' = k
  · subst heq
    rw [Function.update_self]
    exact hlt
  · rw [Function.update_of_ne heq] at hk' ⊢
    exact hroom.below k' hk'

/-- An object that holds no key is no reason to lack room. -/
theorem leads_setIdle (h : KeyPoolSound s) {held : CReserveKey} (hidle : held.nIndex = -1) :
    Leads keypool s { s with reserveKeys := Function.update s.reserveKeys k held } := by
  refine ⟨h.setIdle hidle, fun _ hroomy => ⟨hroomy.unlocked, fun k' hk' => ?_⟩⟩
  unfold KeyPoolState.Holds at hk'
  dsimp only at hk' ⊢
  by_cases heq : k' = k
  · subst heq
    rw [Function.update_self] at hk'
    exact absurd hidle hk'
  · rw [Function.update_of_ne heq] at hk' ⊢
    exact hroomy.below k' hk'

theorem getReservedKey_run (h : KeyPoolSound s)
    (hclear : ¬s.Holds k → s.ClearUpTo (targetSize keypool 0)) :
    ∃ key s', GetReservedKey keypool k s = .done key s' ∧ Leads keypool s s' := by
  unfold GetReservedKey
  rw [Machine.get_bind_run]
  by_cases hidle : (s.reserveKeys k).nIndex = -1
  · rw [if_pos hidle]
    have hfree : ¬s.Holds k := fun hholds => hholds hidle
    obtain ⟨htopped, hcard⟩ := topped_leads h (hclear hfree)
    cases hmin : (topped keypool s.wallet).setKeyPool.min with
    | top =>
        rw [Machine.bind_run_done (call_run (reserve_none hmin))]
        dsimp only
        rw [if_neg (not_not.mpr rfl)]
        cases s.wallet.vchDefaultKey with
        | none => exact ⟨none, _, rfl, .of_empty htopped.sound hcard hmin⟩
        | some vchDefaultKey =>
            exact ⟨_, _, rfl, .of_empty (htopped.sound.setIdle rfl) hcard hmin⟩
    | coe nIndex =>
        have hmem := Finset.mem_of_min hmin
        obtain ⟨nTime, key, hrecord, -⟩ := htopped.sound.records nIndex hmem
        rw [Machine.bind_run_done (call_run (reserve_some hmin hrecord))]
        dsimp only
        rw [if_pos (htopped.sound.ne_none hmem)]
        exact ⟨_, _, rfl, leads_reserve htopped hcard hmin hrecord hfree⟩
  · rw [if_neg hidle]
    obtain ⟨-, nTime, key, -, -, hkey⟩ := h.held k hidle
    rw [hkey]
    exact ⟨_, s, rfl, h, fun _ hroomy => hroomy⟩

theorem getKeyFromPool_run (h : KeyPoolSound s)
    (hclear : s.ClearUpTo (targetSize keypool 0)) :
    ∃ key s', GetKeyFromPool keypool s = .done key s' ∧ Leads keypool s s' := by
  unfold GetKeyFromPool
  obtain ⟨htopped, hcard⟩ := topped_leads h hclear
  cases hmin : (topped keypool s.wallet).setKeyPool.min with
  | top =>
      rw [Machine.bind_run_done (call_run (reserve_none hmin))]
      dsimp only
      rw [Machine.get_bind_run, if_pos rfl]
      split
      · exact ⟨none, _, rfl, .of_empty htopped.sound hcard hmin⟩
      · exact ⟨_, _, rfl, .of_empty htopped.sound.skipKey hcard hmin⟩
  | coe nIndex =>
      have hmem := Finset.mem_of_min hmin
      obtain ⟨nTime, key, hrecord, -⟩ := htopped.sound.records nIndex hmem
      rw [Machine.bind_run_done (call_run (reserve_some hmin hrecord))]
      dsimp only
      rw [Machine.get_bind_run, if_neg (htopped.sound.ne_none hmem)]
      refine ⟨_, _, rfl, ?_, fun hsize hroomy => ?_⟩
      · apply htopped.sound.keep hrecord
        · exact fun i hi => ⟨Finset.mem_of_mem_erase hi, Finset.ne_of_mem_erase hi⟩
        · exact fun k hk => ⟨rfl, fun heq => htopped.sound.apart k hk (heq ▸ hmem)⟩
      · have hroom := htopped.roomy hsize hroomy
        obtain ⟨-, hlast⟩ := last_erase_min hmin (hcard hsize hroomy)
        exact ⟨hroom.unlocked, fun k hk => (hroom.below k hk).trans_eq hlast.symm⟩

theorem oldestReserve_run (h : KeyPoolSound s) (hidle : ¬s.Holds k)
    (hclear : s.ClearUpTo (targetSize keypool 0)) :
    ∃ s', GetOldestKeyPoolTime_reserve keypool k s = .done () s' ∧
      Leads keypool s s' := by
  unfold GetOldestKeyPoolTime_reserve
  obtain ⟨htopped, hcard⟩ := topped_leads h hclear
  cases hmin : (topped keypool s.wallet).setKeyPool.min with
  | top =>
      rw [Machine.bind_run_done (call_run (reserve_none hmin))]
      exact ⟨_, rfl, .of_empty (htopped.sound.setIdle rfl) hcard hmin⟩
  | coe nIndex =>
      obtain ⟨nTime, key, hrecord, -⟩ :=
        htopped.sound.records nIndex (Finset.mem_of_min hmin)
      rw [Machine.bind_run_done (call_run (reserve_some hmin hrecord))]
      exact ⟨_, rfl, leads_reserve htopped hcard hmin hrecord hidle⟩

theorem keepKey_run (h : KeyPoolSound s) (k : ℕ) :
    ∃ s', CReserveKey_KeepKey k s = .done () s' ∧ Leads keypool s s' := by
  refine ⟨_, rfl, ?_⟩
  by_cases hidle : (s.reserveKeys k).nIndex = -1
  · dsimp only
    rw [if_neg (not_not.mpr hidle), if_neg (not_not.mpr hidle)]
    exact leads_setIdle h rfl
  · dsimp only
    obtain ⟨-, nTime, key, hrecord, -, hkey⟩ := h.held k hidle
    rw [if_pos hidle, if_pos hidle, hkey]
    refine ⟨?_, fun hsize hroomy => ?_⟩
    · apply h.keep hrecord
      · exact fun i hi => ⟨hi, fun heq => h.apart k hidle (heq ▸ hi)⟩
      · intro k' hk'
        by_cases heq : k' = k
        · subst heq
          rw [Function.update_self] at hk'
          exact absurd rfl hk'
        · rw [Function.update_of_ne heq] at hk' ⊢
          exact ⟨rfl, fun hsame => heq (h.distinct k' k hk' hidle hsame)⟩
    · have hidleRoom := (@leads_setIdle s keypool k h .empty rfl).roomy hsize hroomy
      exact ⟨hidleRoom.unlocked, hidleRoom.below⟩

theorem returnKey_run (h : KeyPoolSound s) (k : ℕ) :
    ∃ s', CReserveKey_ReturnKey k s = .done () s' ∧ Leads keypool s s' := by
  refine ⟨_, rfl, ?_⟩
  by_cases hidle : (s.reserveKeys k).nIndex = -1
  · dsimp only
    rw [if_neg (not_not.mpr hidle)]
    exact leads_setIdle h rfl
  · dsimp only
    rw [if_pos hidle]
    refine ⟨h.giveBack hidle, fun hsize hroomy => ?_⟩
    have hidleRoom := (@leads_setIdle s keypool k h .empty rfl).roomy hsize hroomy
    exact ⟨hidleRoom.unlocked, fun k' hk' => (hidleRoom.below k' hk').trans_le
      (last_le_returnKey s.wallet (zero_le_one.trans (h.held k hidle).1))⟩

/-- A call that no reserved index stands in the way of returns, and keeps the
pool sound. -/
theorem keyPoolCall_run (h : KeyPoolSound s) {call : KeyPoolCall} (hstarts : call.Starts s)
    (hclear : Undisturbed keypool s call) :
    ∃ s', call.run keypool s = .done () s' ∧ KeyPoolSound s' ∧
      ((call = .newKeyPool → ∀ k, ¬s.Holds k) → 2 ≤ targetSize keypool 0 → s.Roomy →
        s'.Roomy) := by
  cases call with
  | getReservedKey k =>
      obtain ⟨key, s', hrun, hleads⟩ := getReservedKey_run h hclear
      refine ⟨s', ?_, hleads.sound, fun _ => hleads.roomy⟩
      rw [KeyPoolCall.run, Machine.bind_run_done hrun]
      rfl
  | keepKey k =>
      obtain ⟨s', hrun, hleads⟩ := keepKey_run h k
      exact ⟨s', hrun, hleads.sound, fun _ => hleads.roomy⟩
  | returnKey k =>
      obtain ⟨s', hrun, hleads⟩ := returnKey_run h k
      exact ⟨s', hrun, hleads.sound, fun _ => hleads.roomy⟩
  | topUpKeyPool kpSize =>
      exact ⟨_, rfl, h.topUpKeyPool hclear,
        fun _ _ hroomy => (hroomy.topUpKeyPool keypool kpSize).1⟩
  | newKeyPool =>
      exact ⟨_, rfl, h.newKeyPool hclear, fun halone _ hroomy =>
        ⟨(fLocked_newKeyPool keypool s.wallet).trans hroomy.unlocked,
          fun k hk => absurd hk (halone rfl k)⟩⟩
  | getKeyFromPool =>
      obtain ⟨key, s', hrun, hleads⟩ := getKeyFromPool_run h hclear
      refine ⟨s', ?_, hleads.sound, fun _ => hleads.roomy⟩
      rw [KeyPoolCall.run, Machine.bind_run_done hrun]
      rfl
  | oldestReserve k =>
      obtain ⟨s', hrun, hleads⟩ :=
        oldestReserve_run h (fun hholds => hholds hstarts) hclear
      exact ⟨s', hrun, hleads.sound, fun _ => hleads.roomy⟩
  | oldestReturn k =>
      obtain ⟨s', hrun, hleads⟩ := returnKey_run h k
      exact ⟨s', hrun, hleads.sound, fun _ => hleads.roomy⟩

/-- Where there is room, the next indices are not reserved. -/
theorem KeyPoolState.Roomy.clearUpTo (h : s.Roomy) (nTargetSize : ℕ) :
    s.ClearUpTo nTargetSize :=
  fun k hk hrange => lt_asymm hrange.1 (h.below k hk)

theorem KeyPoolState.Roomy.undisturbed (h : s.Roomy) {call : KeyPoolCall}
    (halone : call = .newKeyPool → ∀ k, ¬s.Holds k) : Undisturbed keypool s call := by
  cases call with
  | getReservedKey k => exact fun _ => h.clearUpTo _
  | topUpKeyPool kpSize => exact h.clearUpTo _
  | newKeyPool => exact fun k hk => absurd hk (halone rfl k)
  | getKeyFromPool => exact h.clearUpTo _
  | oldestReserve k => exact h.clearUpTo _
  | keepKey k => trivial
  | returnKey k => trivial
  | oldestReturn k => trivial

end Calls

/-! ### Runs -/

/-- What calls in any order lead to, as long as none of them assigns a reserved
index to a new key. -/
inductive KeyPoolRun (keypool : ℤ) : KeyPoolState → Prop where
  | loaded {s : KeyPoolState} (h : s.Loaded) : KeyPoolRun keypool s
  | step {s s' : KeyPoolState} {call : KeyPoolCall} (before : KeyPoolRun keypool s)
      (starts : call.Starts s) (clear : Undisturbed keypool s call)
      (h : call.run keypool s = .done () s') : KeyPoolRun keypool s'

/-- The pool never gives one key to two users. -/
structure KeyPoolSafe (s : KeyPoolState) : Prop where
  distinct : ∀ k k', s.Holds k → s.Holds k' →
    (s.reserveKeys k).nIndex = (s.reserveKeys k').nIndex → k = k'
  apart : ∀ k, s.Holds k → (s.reserveKeys k).nIndex ∉ s.wallet.setKeyPool
  records : ∀ nIndex ∈ s.wallet.setKeyPool, ∃ nTime key,
    s.wallet.pool nIndex = some (recordOf nTime key) ∧
      s.wallet.generated nIndex = some key
  once : s.kept.Nodup

theorem KeyPoolRun.sound {keypool : ℤ} {s : KeyPoolState} (h : KeyPoolRun keypool s) :
    KeyPoolSound s := by
  induction h with
  | loaded h => exact h.sound
  | step before starts clear h ih =>
      obtain ⟨s', hrun, hsound, -⟩ := keyPoolCall_run ih starts clear
      rw [h] at hrun
      injection hrun with _ hs
      exact hs ▸ hsound

/-- The key pool is safe in a run, and no call of it throws, as long as no call
assigns an index to a new key while somebody has that index reserved. -/
theorem keyPool_safe (keypool : ℤ) (s : KeyPoolState) (h : KeyPoolRun keypool s) :
    KeyPoolSafe s ∧ ∀ call : KeyPoolCall, call.Starts s → Undisturbed keypool s call →
      ∃ s', call.run keypool s = .done () s' := by
  have hsound := h.sound
  refine ⟨⟨hsound.distinct, hsound.apart, hsound.records, hsound.kept.1⟩, ?_⟩
  intro call hstarts hclear
  obtain ⟨s', hrun, -⟩ := keyPoolCall_run hsound hstarts hclear
  exact ⟨s', hrun⟩

/-- A run in which `NewKeyPool` is only called while no key is reserved. -/
inductive QuietRun (keypool : ℤ) : KeyPoolState → Prop where
  | loaded {s : KeyPoolState} (h : s.Loaded) : QuietRun keypool s
  | step {s s' : KeyPoolState} {call : KeyPoolCall} (before : QuietRun keypool s)
      (starts : call.Starts s) (alone : call = .newKeyPool → ∀ k, ¬s.Holds k)
      (h : call.run keypool s = .done () s') : QuietRun keypool s'

/-- A pool that holds at least one key beyond the one in use never assigns a
reserved index. -/
theorem QuietRun.keyPoolRun {keypool : ℤ} (hsize : 2 ≤ targetSize keypool 0)
    {s : KeyPoolState} (h : QuietRun keypool s) : KeyPoolRun keypool s ∧ s.Roomy := by
  induction h with
  | loaded h =>
      refine ⟨.loaded h, h.unlocked, fun k hk => ?_⟩
      unfold KeyPoolState.Holds at hk
      rw [h.reserveKeys k] at hk
      exact absurd rfl hk
  | step before starts alone h ih =>
      obtain ⟨hrun, hroomy⟩ := ih
      have hclear : Undisturbed keypool _ _ := hroomy.undisturbed alone
      obtain ⟨s', hdone, -, hroom⟩ := keyPoolCall_run hrun.sound starts hclear
      rw [h] at hdone
      injection hdone with _ hs
      exact ⟨hrun.step starts hclear h, hs ▸ hroom alone hsize hroomy⟩

theorem loaded_new (times : ℕ → ℤ) : (KeyPoolState.new times).Loaded where
  unlocked := rfl
  pool nIndex := ⟨fun h => absurd h (Finset.notMem_empty _), fun h => by cases h⟩
  records h := by cases h
  keys h := by cases h
  reserveKeys _ := rfl
  kept := rfl

/-- Two users of a new wallet with a pool of one key. -/
theorem keyPool_safe_twoUsers :
    ∃ s : KeyPoolState, (s.reserveKeys 0).nIndex = 1 ∧ (s.reserveKeys 1).nIndex = 2 ∧
      KeyPoolSafe s := by
  have first : KeyPoolRun 1 _ := @KeyPoolRun.step 1 _ _ (.getReservedKey 0)
    (.loaded (loaded_new fun _ => 0)) trivial (fun _ k hk => absurd rfl hk) rfl
  have second : KeyPoolRun 1 _ := @KeyPoolRun.step 1 _ _ (.getReservedKey 1) first trivial
    (fun _ k hk hrange => by
      cases k with
      | zero => exact absurd hrange.1 (by decide +kernel)
      | succ k => exact absurd rfl hk) rfl
  exact ⟨_, rfl, rfl, (keyPool_safe 1 _ second).1⟩

theorem not_safe_of_same {s : KeyPoolState} (h : (s.reserveKeys 0).nIndex = 1)
    (h' : (s.reserveKeys 1).nIndex = 1) : ¬KeyPoolSafe s := by
  intro hsafe
  have hholds : s.Holds 0 := by
    unfold KeyPoolState.Holds
    rw [h]
    decide
  have hholds' : s.Holds 1 := by
    unfold KeyPoolState.Holds
    rw [h']
    decide
  exact absurd (hsafe.distinct 0 1 hholds hholds' (h.trans h'.symm)) (by decide)

/-- With a pool of size zero two users get one index, a reservation throws, and
two users keep one key; with any pool `NewKeyPool` gives an index again that
somebody has reserved. -/
theorem keyPool_unsafe_emptySetting :
    (∃ s, [.getReservedKey 0, .getReservedKey 1].forM (KeyPoolCall.run 0)
        (.new fun _ => 0) = .done () s ∧ ¬KeyPoolSafe s) ∧
    ([.getReservedKey 0, .getReservedKey 1, .keepKey 0, .returnKey 1,
        .getReservedKey 2].forM (KeyPoolCall.run 0) (.new fun _ => 0) =
      .faulted .readFailed) ∧
    (∃ s, [.getReservedKey 0, .getReservedKey 1, .returnKey 0, .getReservedKey 2,
        .keepKey 1, .keepKey 2].forM (KeyPoolCall.run 0) (.new fun _ => 0) = .done () s ∧
      s.kept = [1, 1]) ∧
    (∃ s, [.getReservedKey 0, .newKeyPool, .getReservedKey 1].forM (KeyPoolCall.run 1)
        (.new fun _ => 0) = .done () s ∧ ¬KeyPoolSafe s) := by
  exact ⟨⟨_, rfl, not_safe_of_same (by decide +kernel) (by decide +kernel)⟩, rfl,
    ⟨_, rfl, by decide +kernel⟩,
    ⟨_, rfl, not_safe_of_same (by decide +kernel) (by decide +kernel)⟩⟩

end Ziftrcoin.Spec
