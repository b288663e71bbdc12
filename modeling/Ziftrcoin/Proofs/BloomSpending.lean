/-
Module: Ziftrcoin.Proofs.BloomSpending
Purpose: A filter that matched an output to a key matches what spends the output, as
  long as its flags ask for the outpoint: they do for plain scripts, not for delayed ones.
Trusted boundary: none
Main exports: KeyScript, bloom_follows_spends
-/
import Ziftrcoin.Proofs.BloomFilter
import Ziftrcoin.Proofs.DelayedTemplates

namespace Ziftrcoin.Spec

variable {M : Murmur} {filter : CBloomFilter}

/-! ### Outputs to keys -/

/-- A script that pays to a public key, or to some of several: plain or with a delay in
front of it. -/
inductive KeyScript : (fDelayed : Bool) → CScript → Prop where
  | plain {script : CScript} {type : txnouttype} {sols : List valtype}
      (htype : type = .TX_PUBKEY ∨ type = .TX_MULTISIG) (h : Solver script = some (type, sols)) :
      KeyScript false script
  | delayed {p : valtype} {script : CScript} {type : txnouttype} {sols : List valtype}
      (hp : p.length ≤ 5) (htype : type = .TX_PUBKEY ∨ type = .TX_MULTISIG)
      (h : Solver script = some (type, sols)) : KeyScript true (delayedBy p script)

/-- The solver gives a delayed script another type, or none. -/
theorem KeyScript.type_of_delayed {script : CScript} (h : KeyScript true script) :
    (Solver script).map Prod.fst ≠ some .TX_PUBKEY ∧
      (Solver script).map Prod.fst ≠ some .TX_MULTISIG := by
  cases h with
  | @delayed p base type sols hp htype hsolved =>
      have hdelayable : type.delayable = true := by
        rcases htype with rfl | rfl
        · rfl
        · rfl
      obtain ⟨hdelayed, -, -, -, -, -, hmem⟩ := delayed_of_delayable hdelayable
      have hmatch := (solver_plain_iff hdelayable).mp hsolved
      have hdelayedMatch := matchesTemplate_delayed_iff.mpr
        ⟨p, base, sols, hp, rfl, hmatch.1, rfl⟩
      -- no script has both a plain and a delayed template
      have hnone : ∀ plain : txnouttype, plain.isDelayed = false → plain ≠ .TX_NULL_DATA →
          (Solver (delayedBy p base)).map Prod.fst ≠ some plain := by
        intro plain hplain hnull heq
        obtain ⟨⟨_, sols'⟩, hsolved', rfl⟩ := Option.map_eq_some_iff.mp heq
        obtain ⟨tplate, hmem', hmatch', -⟩ := (solver_iff hnull).mp hsolved'
        exact matchesTemplate_plain_delayed hmem' hmem hplain hdelayed hmatch' hdelayedMatch
      exact ⟨hnone _ rfl (by decide), hnone _ rfl (by decide)⟩

/-- The flags ask for the outpoints of plain scripts. -/
theorem KeyScript.updates_iff {fDelayed : Bool} {script : CScript} (h : KeyScript fDelayed script)
    (hflags : filter.nFlags &&& BLOOM_UPDATE_MASK = BLOOM_UPDATE_ALL ∨
      filter.nFlags &&& BLOOM_UPDATE_MASK = BLOOM_UPDATE_P2PUBKEY_ONLY) :
    filter.Updates script = true ↔
      filter.nFlags &&& BLOOM_UPDATE_MASK = BLOOM_UPDATE_ALL ∨ fDelayed = false := by
  have hne : BLOOM_UPDATE_P2PUBKEY_ONLY ≠ BLOOM_UPDATE_ALL := by decide
  unfold CBloomFilter.Updates
  rcases hflags with hall | honly
  · simp [hall]
  · rw [honly]
    cases h with
    | plain htype hsolved =>
        rcases htype with rfl | rfl
        · simp [hsolved]
        · simp [hsolved]
    | delayed hp htype hsolved =>
        obtain ⟨hkey, hmulti⟩ := (KeyScript.delayed hp htype hsolved).type_of_delayed
        simp [hkey, hmulti, hne]

/-! ### The outpoint in the filter -/

namespace CBloomFilter

/-- The first transaction: an output that matches, and whose outpoint the flags ask for,
leaves its outpoint in the filter. -/
theorem mem_addedByOutputs (hash : uint256) {key : valtype} :
    ∀ {vout : List CTxOut} (first : ℕ) {i : ℕ} {txout : CTxOut} {filter : CBloomFilter},
      filter.FlagsRight → vout[i]? = some txout → Pushes (ops txout.scriptPubKey).1 key →
      filter.holds M key = true → filter.Updates txout.scriptPubKey = true →
      ({ hash, n := first + i } : COutPoint).serialize ∈ addedByOutputs M hash first vout filter
  | [], _, _, _, _, _, hout, _, _, _ => by simp at hout
  | head :: vout, first, i, txout, filter, h, hout, hpush, hkey, hupdates => by
      obtain ⟨found, hany, hfound⟩ := h.anyContained (M := M) (ops head.scriptPubKey).1
      unfold addedByOutputs
      rw [hany]
      cases i with
      | zero =>
          obtain rfl : head = txout := by simpa using hout
          rw [if_pos (by rw [hfound key hpush hkey]), if_pos hupdates]
          exact List.mem_append_left _ (List.mem_singleton_self _)
      | succ i =>
          rw [List.getElem?_cons_succ] at hout
          have hshift : first + (i + 1) = first + 1 + i := by omega
          rw [hshift]
          split
          · obtain ⟨next, hnext, hright, hgrown, -⟩ := h.updateForOutput (M := M)
              { hash, n := first } head.scriptPubKey
            refine List.mem_append_right _ ?_
            rw [hnext, Option.getD_some]
            refine mem_addedByOutputs hash (first + 1) hright hout hpush (hgrown.holds hkey) ?_
            unfold Updates at hupdates ⊢
            rwa [hgrown.nFlags]
          · exact mem_addedByOutputs hash (first + 1) h hout hpush hkey hupdates

/-- A transaction that spends an output and shows nothing else of itself. -/
def bareSpend (prevout : COutPoint) : CTransaction :=
  { nVersion := CTransaction.CURRENT_VERSION
    vin := [{ prevout, scriptSig := [], nSequence := UINT_MAX }]
    vout := []
    nLockTime := 0 }

/-- It is found by its hash or by the outpoint. -/
theorem FlagsRight.bareSpend_found (h : filter.FlagsRight) (prevout : COutPoint)
    (hash : uint256) :
    ∃ after, filter.IsRelevantAndUpdate M (bareSpend prevout) hash =
      some (filter.holds M (leBytes 32 hash) || filter.holds M prevout.serialize, after) := by
  unfold IsRelevantAndUpdate bareSpend
  cases hfull : filter.isFull with
  | true =>
      refine ⟨filter, ?_⟩
      unfold holds
      rw [hfull]
      rfl
  | false =>
      cases hempty : filter.isEmpty with
      | true =>
          refine ⟨filter, ?_⟩
          unfold holds
          rw [hfull, hempty]
          rfl
      | false =>
          refine ⟨filter, ?_⟩
          rw [if_neg Bool.false_ne_true, if_neg Bool.false_ne_true, h.contains_eq]
          rw [Option.bind_eq_bind, Option.bind_some, CBloomFilter.matchOutputs,
            Option.bind_eq_bind, Option.bind_some]
          dsimp only
          cases hhash : filter.holds M (leBytes 32 hash) with
          | true => rfl
          | false =>
              rw [if_neg Bool.false_ne_true, CBloomFilter.matchInputs, h.contains_eq]
              cases hprevout : filter.holds M prevout.serialize with
              | true => rfl
              | false => rfl

end CBloomFilter

/-- The filter that a message loaded, after some calls. -/
theorem flagsRight_of_loaded {received loaded : CBloomFilter} {calls : List FilterCall}
    (hload : filterload received = some loaded) (hrun : runFilter M loaded calls = some filter) :
    filter.FlagsRight := by
  have hright : loaded.FlagsRight := by
    unfold filterload at hload
    split at hload
    · rw [← Option.some.inj hload]
      exact CBloomFilter.flagsRight_updateEmptyFull received
    · exact nomatch hload
  obtain ⟨after, hafter, hright', -⟩ := CBloomFilter.FlagsRight.run (M := M) calls hright
  obtain rfl := Option.some.inj (hrun.symm.trans hafter)
  exact hright'

/-- An output to a key that is in the filter.  If the flags ask for all outpoints, or the
script is plain, or the filter is full, every later transaction that spends the output is
found, whatever happened to the filter in between.  Otherwise the output adds nothing, and
a transaction that only spends it is found by chance at most. -/
theorem bloom_follows_spends {received loaded : CBloomFilter} {calls : List FilterCall}
    (hload : filterload received = some loaded) (hrun : runFilter M loaded calls = some filter)
    (hflags : filter.nFlags &&& BLOOM_UPDATE_MASK = BLOOM_UPDATE_ALL ∨
      filter.nFlags &&& BLOOM_UPDATE_MASK = BLOOM_UPDATE_P2PUBKEY_ONLY)
    {tx : CTransaction} {hash : uint256} {i : ℕ} {txout : CTxOut}
    (hout : tx.vout[i]? = some txout) {fDelayed : Bool}
    (hscript : KeyScript fDelayed txout.scriptPubKey) {key : valtype}
    (hpush : CBloomFilter.Pushes (ops txout.scriptPubKey).1 key)
    (hkey : filter.contains M key = some true) :
    ∃ found after, filter.IsRelevantAndUpdate M tx hash = some (found, after) ∧
      ((filter.nFlags &&& BLOOM_UPDATE_MASK = BLOOM_UPDATE_ALL ∨ fDelayed = false ∨
          filter.isFull = true) →
        ∀ more : List FilterCall, ∃ later, runFilter M after more = some later ∧
          ∀ (spend : CTransaction) (hashSpend : uint256),
            (∃ txin ∈ spend.vin, txin.prevout = { hash, n := i }) →
              ∃ updated, later.IsRelevantAndUpdate M spend hashSpend = some (true, updated)) ∧
      (¬(filter.nFlags &&& BLOOM_UPDATE_MASK = BLOOM_UPDATE_ALL ∨ fDelayed = false ∨
          filter.isFull = true) →
        (∀ current : CBloomFilter, current.nFlags = filter.nFlags →
          current.updateForOutput M { hash, n := i } txout.scriptPubKey = some current) ∧
        ∀ hashSpend, ∃ updated,
          after.IsRelevantAndUpdate M (CBloomFilter.bareSpend { hash, n := i }) hashSpend =
            some (after.holds M (leBytes 32 hashSpend) ||
              after.holds M ({ hash, n := i } : COutPoint).serialize, updated)) := by
  have hright := flagsRight_of_loaded hload hrun
  rw [hright.contains_eq, Option.some_inj] at hkey
  obtain ⟨found, after, hmatch, hright', hgrown, -, hadded⟩ :=
    hright.isRelevantAndUpdate (M := M) tx hash
  refine ⟨found, after, hmatch, fun hasked more => ?_, fun hunasked => ⟨?_, ?_⟩⟩
  · obtain ⟨later, hlater, hright'', hgrown', -⟩ :=
      CBloomFilter.FlagsRight.run (M := M) more hright'
    have hholds : later.holds M ({ hash, n := i } : COutPoint).serialize = true := by
      cases hfull : filter.isFull with
      | true =>
          unfold CBloomFilter.holds
          rw [hgrown'.isFull, hgrown.isFull, hfull, Bool.true_or]
      | false =>
          have hempty : filter.isEmpty = false := by
            unfold CBloomFilter.holds at hkey
            rw [hfull, Bool.false_or, Bool.and_eq_true, Bool.not_eq_true'] at hkey
            exact hkey.1
          have hupdates : filter.Updates txout.scriptPubKey = true := by
            rw [hscript.updates_iff hflags]
            rw [hfull] at hasked
            exact hasked.imp id fun hplain => hplain.resolve_right Bool.false_ne_true
          refine hgrown'.holds (hadded _ ?_)
          unfold CBloomFilter.addedByTx
          rw [hfull, hempty, Bool.or_self, if_neg Bool.false_ne_true]
          have hmem := CBloomFilter.mem_addedByOutputs hash 0 hright hout hpush hkey hupdates
          rwa [Nat.zero_add] at hmem
    refine ⟨later, hlater, fun spend hashSpend hspends => ?_⟩
    obtain ⟨txin, hmem, hprevout⟩ := hspends
    obtain ⟨foundSpend, updated, hrelevant, -, -, hfound, -⟩ :=
      hright''.isRelevantAndUpdate (M := M) spend hashSpend
    rw [hfound _ (.inr (.inr ⟨txin, hmem, .inl (by rw [hprevout])⟩)) hholds] at hrelevant
    exact ⟨updated, hrelevant⟩
  · intro current hsame
    have hquiet : current.Updates txout.scriptPubKey = false := by
      rw [← Bool.not_eq_true, hscript.updates_iff (by rwa [hsame]), hsame]
      exact fun hasked => hunasked (hasked.imp id .inl)
    rw [CBloomFilter.updateForOutput_eq, hquiet, if_neg Bool.false_ne_true]
  · exact fun hashSpend => hright'.bareSpend_found _ hashSpend

/-! ### A delayed output -/

/-- Hash functions that look at the first byte. -/
def firstByte : Murmur := fun _ data => (data.headD 0).toNat

/-- A public key. -/
def sampleKey : valtype := 2 :: List.replicate 32 17

/-- A filter with the key in it, and with the flag for keys. -/
def keyFilter : CBloomFilter :=
  { vData := [4, 0], isFull := false, isEmpty := false, nHashFuncs := 1, nTweak := 0, nFlags := 2 }

def payToKey : CScript := pushData sampleKey ++ [UInt8.ofNat OP_CHECKSIG]

/-- A transaction with one output. -/
def payment (scriptPubKey : CScript) : CTransaction :=
  { nVersion := CTransaction.CURRENT_VERSION
    vin := []
    vout := [{ nValue := 5, scriptPubKey }]
    nLockTime := 0 }

theorem solver_payToKey : Solver payToKey = some (.TX_PUBKEY, [sampleKey]) := by decide +kernel

theorem bloom_follows_plainPayment :
    ∃ found after, keyFilter.IsRelevantAndUpdate firstByte (payment payToKey) 5 =
        some (found, after) ∧
      ∃ updated, after.IsRelevantAndUpdate firstByte
        (CBloomFilter.bareSpend { hash := 5, n := 0 }) 7 = some (true, updated) := by
  obtain ⟨found, after, hmatch, hfollows, -⟩ :=
    @bloom_follows_spends firstByte keyFilter keyFilter keyFilter [] (by decide) rfl
      (.inr rfl) (payment payToKey) 5 0 { nValue := 5, scriptPubKey := payToKey } rfl false
      (.plain (.inl rfl) solver_payToKey) sampleKey
      ⟨by decide, 33, by decide +kernel⟩ (by decide)
  obtain ⟨later, hlater, hspends⟩ := hfollows (.inr (.inl rfl)) []
  obtain rfl : after = later := Option.some.inj hlater
  exact ⟨found, after, hmatch, hspends _ 7 ⟨_, List.mem_singleton_self _, rfl⟩⟩

/-- The output to the key behind a delay matches, but the transaction that spends it does
not. -/
theorem bloom_loses_delayedPayment :
    filterload keyFilter = some keyFilter ∧ keyFilter.contains firstByte sampleKey = some true ∧
      Solver (delayedBy [9] payToKey) = some (.TX_DELAYEDPUBKEY, [[9], sampleKey]) ∧
      keyFilter.IsRelevantAndUpdate firstByte (payment (delayedBy [9] payToKey)) 5 =
        some (true, keyFilter) ∧
      keyFilter.IsRelevantAndUpdate firstByte
        (CBloomFilter.bareSpend { hash := 5, n := 0 }) 7 = some (false, keyFilter) := by
  refine ⟨by decide, by decide, by decide +kernel, by decide +kernel, by decide +kernel⟩

end Ziftrcoin.Spec
