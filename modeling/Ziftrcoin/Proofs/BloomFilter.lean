/-
Module: Ziftrcoin.Proofs.BloomFilter
Purpose: A loaded filter keeps every element, never divides by the size of an
  empty array, and lets every transaction through that touches an element.
Trusted boundary: none
-/
import Ziftrcoin.Spec.Bloom

namespace Ziftrcoin.Spec

open Ziftrcoin.Lib

namespace CBloomFilter

variable {M : Murmur} {filter after : CBloomFilter} {vKey : valtype}

/-- What the flags of a filter promise about its bytes. -/
structure FlagsRight (filter : CBloomFilter) : Prop where
  full : filter.isFull = true → ∀ b ∈ filter.vData, b = 0xff
  blank : filter.isFull = false → filter.isEmpty = true → ∀ b ∈ filter.vData, b = 0
  nonempty : filter.isFull = false → filter.vData ≠ []

/-- A later filter has all the bits of an earlier one. -/
structure Grown (filter after : CBloomFilter) : Prop where
  length : after.vData.length = filter.vData.length
  isFull : after.isFull = filter.isFull
  isEmpty : filter.isEmpty = false → after.isEmpty = false
  nHashFuncs : after.nHashFuncs = filter.nHashFuncs
  nTweak : after.nTweak = filter.nTweak
  nFlags : after.nFlags = filter.nFlags
  bits : ∀ n, BitArray.test filter.vData n = true → BitArray.test after.vData n = true

theorem Grown.refl (filter : CBloomFilter) : Grown filter filter :=
  ⟨rfl, rfl, id, rfl, rfl, rfl, fun _ => id⟩

theorem Grown.trans {later : CBloomFilter} (h : Grown filter after) (h' : Grown after later) :
    Grown filter later where
  length := h'.length.trans h.length
  isFull := h'.isFull.trans h.isFull
  isEmpty hfalse := h'.isEmpty (h.isEmpty hfalse)
  nHashFuncs := h'.nHashFuncs.trans h.nHashFuncs
  nTweak := h'.nTweak.trans h.nTweak
  nFlags := h'.nFlags.trans h.nFlags
  bits n hbit := h'.bits n (h.bits n hbit)

/-- The position of the bit that a hash function names. -/
def index (M : Murmur) (filter : CBloomFilter) (nHashNum : ℕ) (vKey : valtype) : ℕ :=
  M (uint32 (nHashNum * 0xFBA4C795 + filter.nTweak)) vKey % (filter.vData.length * 8)

/-- What the array of bits alone answers. -/
def bitsContain (M : Murmur) (filter : CBloomFilter) (vKey : valtype) : Bool :=
  (List.range filter.nHashFuncs).all fun i => BitArray.test filter.vData (filter.index M i vKey)

/-- What the filter answers. -/
def holds (M : Murmur) (filter : CBloomFilter) (vKey : valtype) : Bool :=
  filter.isFull || !filter.isEmpty && filter.bitsContain M vKey

theorem hash_eq (h : filter.vData ≠ []) (i : ℕ) (vKey : valtype) :
    filter.Hash M i vKey = some (filter.index M i vKey) := by
  rw [Hash, if_neg (mt List.length_eq_zero_iff.mp h)]
  rfl

theorem index_lt (h : filter.vData ≠ []) (i : ℕ) (vKey : valtype) :
    filter.index M i vKey < filter.vData.length * 8 :=
  Nat.mod_lt _ (Nat.mul_pos (List.length_pos_iff.mpr h) (by decide))

theorem Grown.index_eq (h : Grown filter after) (i : ℕ) (vKey : valtype) :
    after.index M i vKey = filter.index M i vKey := by
  rw [index, index, h.length, h.nTweak]

/-! ### Testing bits -/

theorem testBits_eq (h : filter.vData ≠ []) (vKey : valtype) :
    ∀ nums : List ℕ, filter.testBits M vKey nums =
      some (nums.all fun i => BitArray.test filter.vData (filter.index M i vKey))
  | [] => rfl
  | i :: rest => by
      rw [testBits, hash_eq h, Option.bind_eq_bind, Option.bind_some, List.all_cons]
      cases hbit : BitArray.test filter.vData (filter.index M i vKey) with
      | false => rfl
      | true =>
          rw [if_pos rfl, testBits_eq h vKey rest]
          rfl

theorem FlagsRight.contains_eq (h : filter.FlagsRight) (vKey : valtype) :
    filter.contains M vKey = some (filter.holds M vKey) := by
  unfold contains holds
  cases hfull : filter.isFull with
  | true => rfl
  | false =>
      cases hempty : filter.isEmpty with
      | true => rfl
      | false =>
          rw [if_neg Bool.false_ne_true, if_neg Bool.false_ne_true,
            testBits_eq (h.nonempty hfull)]
          rfl

theorem Grown.holds (h : Grown filter after) (hkey : filter.holds M vKey = true) :
    after.holds M vKey = true := by
  unfold CBloomFilter.holds at hkey ⊢
  rw [h.isFull]
  rcases Bool.or_eq_true_iff.mp hkey with hfull | hbits
  · rw [hfull, Bool.true_or]
  · rw [Bool.and_eq_true_iff, Bool.not_eq_true'] at hbits
    have hall : after.bitsContain M vKey = true := by
      unfold bitsContain at hbits ⊢
      rw [List.all_eq_true] at hbits ⊢
      intro i hi
      rw [h.nHashFuncs] at hi
      rw [h.index_eq]
      exact h.bits _ (hbits.2 i hi)
    rw [h.isEmpty hbits.1, hall]
    exact Bool.or_true _

/-- The flags only save time: with hash functions and bytes, the answer is that of the bits. -/
theorem FlagsRight.holds_eq_bits (h : filter.FlagsRight) (hfuncs : 0 < filter.nHashFuncs)
    (hdata : filter.vData ≠ []) (vKey : valtype) :
    filter.holds M vKey = filter.bitsContain M vKey := by
  unfold CBloomFilter.holds
  cases hfull : filter.isFull with
  | true =>
      have hall : filter.bitsContain M vKey = true := by
        unfold bitsContain
        rw [List.all_eq_true]
        exact fun i _ => BitArray.test_of_full (h.full hfull) (index_lt hdata i vKey)
      rw [hall, Bool.true_or]
  | false =>
      cases hempty : filter.isEmpty with
      | true =>
          have hnone : filter.bitsContain M vKey = false := by
            unfold bitsContain
            rw [List.all_eq_false]
            refine ⟨0, List.mem_range.mpr hfuncs, ?_⟩
            rw [BitArray.test_of_blank (h.blank hfull hempty)]
            exact Bool.false_ne_true
          rw [hnone]
          rfl
      | false => rw [Bool.false_or, Bool.not_false, Bool.true_and]

/-! ### Setting bits -/

theorem setBits_spec (vKey : valtype) :
    ∀ (nums : List ℕ) (filter : CBloomFilter), filter.vData ≠ [] →
      ∃ bytes, filter.setBits M vKey nums = some { filter with vData := bytes } ∧
        bytes.length = filter.vData.length ∧
        (∀ n, BitArray.test filter.vData n = true → BitArray.test bytes n = true) ∧
        ∀ i ∈ nums, BitArray.test bytes (filter.index M i vKey) = true
  | [], filter, _ => ⟨filter.vData, rfl, rfl, fun _ => id, fun _ hi => (nomatch hi)⟩
  | i :: rest, filter, h => by
      have hset : (BitArray.set filter.vData (filter.index M i vKey)).length =
          filter.vData.length := BitArray.length_set _ _
      have hdata : BitArray.set filter.vData (filter.index M i vKey) ≠ [] := by
        rw [← List.length_pos_iff, hset]
        exact List.length_pos_iff.mpr h
      obtain ⟨bytes, hrun, hlength, hkept, hnew⟩ := setBits_spec vKey rest
        { filter with vData := BitArray.set filter.vData (filter.index M i vKey) } hdata
      have hindex : ∀ j, index M
          { filter with vData := BitArray.set filter.vData (filter.index M i vKey) } j vKey =
          filter.index M j vKey := by
        intro j
        unfold index
        dsimp only
        rw [BitArray.length_set]
      refine ⟨bytes, ?_, hlength.trans hset, ?_, ?_⟩
      · rw [setBits, hash_eq h, Option.bind_eq_bind, Option.bind_some]
        exact hrun
      · exact fun n hbit => hkept n (BitArray.test_set_of_test hbit)
      · intro j hj
        rcases List.mem_cons.mp hj with rfl | hj
        · exact hkept _ (BitArray.test_set_self (index_lt h j vKey))
        · rw [← hindex]
          exact hnew j hj

theorem FlagsRight.insert (h : filter.FlagsRight) (vKey : valtype) :
    ∃ after, filter.insert M vKey = some after ∧ after.FlagsRight ∧ Grown filter after ∧
      after.holds M vKey = true := by
  cases hfull : filter.isFull with
  | true =>
      refine ⟨filter, ?_, h, .refl filter, ?_⟩
      · rw [CBloomFilter.insert, if_pos hfull]
      · rw [CBloomFilter.holds, hfull, Bool.true_or]
  | false =>
      obtain ⟨bytes, hrun, hlength, hkept, hnew⟩ := setBits_spec (M := M) vKey
        (List.range filter.nHashFuncs) filter (h.nonempty hfull)
      refine ⟨{ filter with vData := bytes, isEmpty := false }, ?_, ?_, ?_, ?_⟩
      · rw [CBloomFilter.insert, if_neg (ne_true_of_eq_false hfull), hrun]
        rfl
      · exact {
          full := fun htrue => Bool.noConfusion (htrue.symm.trans hfull)
          blank := fun _ hempty => absurd hempty Bool.false_ne_true
          nonempty := fun _ hnil => by
            have hdata := h.nonempty hfull
            rw [← List.length_pos_iff, ← hlength, List.length_pos_iff] at hdata
            exact hdata hnil }
      · exact ⟨hlength, rfl, fun _ => rfl, rfl, rfl, rfl, hkept⟩
      · have hall : bitsContain M { filter with vData := bytes, isEmpty := false } vKey = true := by
          unfold bitsContain
          rw [List.all_eq_true]
          intro i hi
          have hindex : index M { filter with vData := bytes, isEmpty := false } i vKey =
              filter.index M i vKey := by
            unfold index
            dsimp only
            rw [hlength]
          rw [hindex]
          exact hnew i hi
        rw [CBloomFilter.holds, hall]
        exact Bool.or_true _

/-! ### Matching a transaction -/

/-- A non-empty element that an instruction list pushes. -/
def Pushes (elements : List (ℕ × valtype)) (vKey : valtype) : Prop :=
  vKey ≠ [] ∧ ∃ opcode, (opcode, vKey) ∈ elements

theorem FlagsRight.anyContained (h : filter.FlagsRight) :
    ∀ elements : List (ℕ × valtype), ∃ found, filter.anyContained M elements = some found ∧
      ∀ vKey, Pushes elements vKey → filter.holds M vKey = true → found = true
  | [] => ⟨false, rfl, fun _ hpushes => by obtain ⟨-, _, hmem⟩ := hpushes; exact nomatch hmem⟩
  | (opcode, data) :: rest => by
      obtain ⟨found, hrun, hfound⟩ := h.anyContained rest
      have htest : (if data.length ≠ 0 then filter.contains M data else some false) =
          some (decide (data ≠ []) && filter.holds M data) := by
        rw [h.contains_eq]
        cases data with
        | nil => rfl
        | cons b bs => rfl
      rw [CBloomFilter.anyContained, htest]
      cases hdata : decide (data ≠ []) && filter.holds M data with
      | true => exact ⟨true, rfl, fun _ _ _ => rfl⟩
      | false =>
          refine ⟨found, hrun, ?_⟩
          intro vKey ⟨hne, opcode', hmem⟩ hholds
          rcases List.mem_cons.mp hmem with heq | hmem
          · obtain ⟨-, rfl⟩ := Prod.mk.inj heq
            rw [hholds, decide_eq_true hne] at hdata
            exact Bool.noConfusion hdata
          · exact hfound vKey ⟨hne, opcode', hmem⟩ hholds

/-- The flags ask for the outpoint of a matching output. -/
def Updates (filter : CBloomFilter) (scriptPubKey : CScript) : Bool :=
  filter.nFlags &&& BLOOM_UPDATE_MASK == BLOOM_UPDATE_ALL ||
    (filter.nFlags &&& BLOOM_UPDATE_MASK == BLOOM_UPDATE_P2PUBKEY_ONLY &&
      ((Solver scriptPubKey).map Prod.fst == some .TX_PUBKEY ||
        (Solver scriptPubKey).map Prod.fst == some .TX_MULTISIG))

theorem updateForOutput_eq (filter : CBloomFilter) (outpoint : COutPoint)
    (scriptPubKey : CScript) :
    filter.updateForOutput M outpoint scriptPubKey =
      if filter.Updates scriptPubKey then filter.insert M outpoint.serialize
      else some filter := by
  unfold updateForOutput Updates
  by_cases hall : filter.nFlags &&& BLOOM_UPDATE_MASK = BLOOM_UPDATE_ALL
  · simp [hall]
  · by_cases honly : filter.nFlags &&& BLOOM_UPDATE_MASK = BLOOM_UPDATE_P2PUBKEY_ONLY
    · have hne : BLOOM_UPDATE_P2PUBKEY_ONLY ≠ BLOOM_UPDATE_ALL := by decide
      cases Solver scriptPubKey with
      | none => simp [honly, hne]
      | some solved => simp [honly, hne]
    · simp [hall, honly]

/-- The elements that matching adds to the filter, one outpoint after the other. -/
def addedByOutputs (M : Murmur) (hash : uint256) : (i : ℕ) → List CTxOut → CBloomFilter →
    List valtype
  | _, [], _ => []
  | i, txout :: vout, filter =>
      let outpoint : COutPoint := { hash, n := i }
      if filter.anyContained M (ops txout.scriptPubKey).1 = some true then
        (if filter.Updates txout.scriptPubKey then [outpoint.serialize] else []) ++
          addedByOutputs M hash (i + 1) vout
            ((filter.updateForOutput M outpoint txout.scriptPubKey).getD filter)
      else addedByOutputs M hash (i + 1) vout filter

theorem FlagsRight.updateForOutput (h : filter.FlagsRight) (outpoint : COutPoint)
    (scriptPubKey : CScript) :
    ∃ after, filter.updateForOutput M outpoint scriptPubKey = some after ∧ after.FlagsRight ∧
      Grown filter after ∧
      (filter.Updates scriptPubKey = true → after.holds M outpoint.serialize = true) := by
  rw [updateForOutput_eq]
  cases hupdates : filter.Updates scriptPubKey with
  | true =>
      obtain ⟨after, hrun, hright, hgrown, hholds⟩ := h.insert outpoint.serialize
      exact ⟨after, hrun, hright, hgrown, fun _ => hholds⟩
  | false => exact ⟨filter, rfl, h, .refl filter, fun hne => Bool.noConfusion hne⟩

theorem FlagsRight.matchOutputs (hash : uint256) :
    ∀ (vout : List CTxOut) (i : ℕ) (fFound : Bool) {filter : CBloomFilter}, filter.FlagsRight →
      ∃ found after, filter.matchOutputs M hash i vout fFound = some (found, after) ∧
        after.FlagsRight ∧ Grown filter after ∧ (fFound = true → found = true) ∧
        (∀ vKey, (∃ txout ∈ vout, Pushes (ops txout.scriptPubKey).1 vKey) →
          filter.holds M vKey = true → found = true) ∧
        ∀ vKey ∈ addedByOutputs M hash i vout filter, after.holds M vKey = true
  | [], _, fFound, filter, h => by
      refine ⟨fFound, filter, rfl, h, .refl filter, id, ?_,
        fun _ hmem => absurd hmem List.not_mem_nil⟩
      rintro _ ⟨_, hmem, -⟩
      exact nomatch hmem
  | txout :: vout, i, fFound, filter, h => by
      obtain ⟨found, hany, hfound⟩ := h.anyContained (M := M) (ops txout.scriptPubKey).1
      rw [CBloomFilter.matchOutputs, hany, Option.bind_eq_bind, Option.bind_some]
      unfold addedByOutputs
      rw [hany]
      cases found with
      | true =>
          obtain ⟨next, hupdate, hright, hgrown, hadded⟩ := h.updateForOutput (M := M)
            { hash, n := i } txout.scriptPubKey
          obtain ⟨found, after, hrun, hright', hgrown', hkept, -, hrest⟩ :=
            FlagsRight.matchOutputs hash vout (i + 1) true hright
          dsimp only
          rw [if_pos rfl, if_pos rfl, hupdate, Option.bind_eq_bind, Option.bind_some,
            Option.getD_some]
          refine ⟨found, after, hrun, hright', hgrown.trans hgrown', fun _ => hkept rfl,
            fun _ _ _ => hkept rfl, ?_⟩
          intro vKey hmem
          rcases List.mem_append.mp hmem with hmem | hmem
          · cases hupdates : filter.Updates txout.scriptPubKey with
            | false =>
                rw [hupdates] at hmem
                exact nomatch hmem
            | true =>
                rw [hupdates, if_pos rfl, List.mem_singleton] at hmem
                rw [hmem]
                exact hgrown'.holds (hadded hupdates)
          · exact hrest vKey hmem
      | false =>
          obtain ⟨found, after, hrun, hright, hgrown, hkept, hmatch, hrest⟩ :=
            FlagsRight.matchOutputs hash vout (i + 1) fFound h
          refine ⟨found, after, hrun, hright, hgrown, hkept, ?_, hrest⟩
          rintro vKey ⟨txout', hmem, hpushes⟩ hholds
          rcases List.mem_cons.mp hmem with rfl | hmem
          · exact Bool.noConfusion (hfound vKey hpushes hholds)
          · exact hmatch vKey ⟨txout', hmem, hpushes⟩ hholds

theorem FlagsRight.matchInputs (h : filter.FlagsRight) :
    ∀ vin : List CTxIn, ∃ found, filter.matchInputs M vin = some found ∧
      ∀ vKey, (∃ txin ∈ vin, vKey = txin.prevout.serialize ∨ Pushes (ops txin.scriptSig).1 vKey) →
        filter.holds M vKey = true → found = true
  | [] => ⟨false, rfl, by rintro _ ⟨_, hmem, -⟩; exact nomatch hmem⟩
  | txin :: vin => by
      obtain ⟨found, hany, hfound⟩ := h.anyContained (M := M) (ops txin.scriptSig).1
      obtain ⟨others, hrun, hothers⟩ := h.matchInputs vin
      rw [CBloomFilter.matchInputs, h.contains_eq, Option.bind_eq_bind, Option.bind_some]
      cases hprevout : filter.holds M txin.prevout.serialize with
      | true => exact ⟨true, rfl, fun _ _ _ => rfl⟩
      | false =>
          rw [if_neg Bool.false_ne_true, hany, Option.bind_some]
          cases found with
          | true => exact ⟨true, rfl, fun _ _ _ => rfl⟩
          | false =>
              refine ⟨others, hrun, ?_⟩
              rintro vKey ⟨txin', hmem, hkey⟩ hholds
              rcases List.mem_cons.mp hmem with rfl | hmem
              · rcases hkey with rfl | hpushes
                · exact Bool.noConfusion (hprevout.symm.trans hholds)
                · exact Bool.noConfusion (hfound vKey hpushes hholds)
              · exact hothers vKey ⟨txin', hmem, hkey⟩ hholds

/-- An element that makes a transaction relevant. -/
def Touches (tx : CTransaction) (hash : uint256) (vKey : valtype) : Prop :=
  vKey = leBytes 32 hash ∨
    (∃ txout ∈ tx.vout, Pushes (ops txout.scriptPubKey).1 vKey) ∨
    ∃ txin ∈ tx.vin, vKey = txin.prevout.serialize ∨ Pushes (ops txin.scriptSig).1 vKey

/-- The elements that `IsRelevantAndUpdate` inserts. -/
def addedByTx (M : Murmur) (filter : CBloomFilter) (tx : CTransaction) (hash : uint256) :
    List valtype :=
  if filter.isFull || filter.isEmpty then [] else addedByOutputs M hash 0 tx.vout filter

theorem FlagsRight.isRelevantAndUpdate (h : filter.FlagsRight) (tx : CTransaction)
    (hash : uint256) :
    ∃ found after, filter.IsRelevantAndUpdate M tx hash = some (found, after) ∧
      after.FlagsRight ∧ Grown filter after ∧
      (∀ vKey, Touches tx hash vKey → filter.holds M vKey = true → found = true) ∧
      ∀ vKey ∈ filter.addedByTx M tx hash, after.holds M vKey = true := by
  unfold IsRelevantAndUpdate addedByTx
  cases hfull : filter.isFull with
  | true =>
      exact ⟨true, filter, rfl, h, .refl filter, fun _ _ _ => rfl,
        fun _ hmem => absurd hmem List.not_mem_nil⟩
  | false =>
      cases hempty : filter.isEmpty with
      | true =>
          refine ⟨false, filter, rfl, h, .refl filter, ?_,
            fun _ hmem => absurd hmem List.not_mem_nil⟩
          intro vKey _ hholds
          rw [CBloomFilter.holds, hfull, hempty] at hholds
          exact hholds
      | false =>
          obtain ⟨found, after, hrun, hright, hgrown, hkept, houtputs, hadded⟩ :=
            FlagsRight.matchOutputs (M := M) hash tx.vout 0 (filter.holds M (leBytes 32 hash)) h
          obtain ⟨spent, hspent, hinputs⟩ := hright.matchInputs (M := M) tx.vin
          rw [if_neg Bool.false_ne_true, if_neg Bool.false_ne_true, h.contains_eq,
            Option.bind_eq_bind, Option.bind_some, hrun, Option.bind_eq_bind, Option.bind_some]
          cases found with
          | true => exact ⟨true, after, rfl, hright, hgrown, fun _ _ _ => rfl, hadded⟩
          | false =>
              refine ⟨spent, after, ?_, hright, hgrown, ?_, hadded⟩
              · dsimp only
                rw [if_neg Bool.false_ne_true, hspent]
                rfl
              · rintro vKey (rfl | hout | hin) hholds
                · exact Bool.noConfusion (hkept hholds)
                · exact Bool.noConfusion (houtputs vKey hout hholds)
                · exact hinputs vKey hin (hgrown.holds hholds)

theorem flagsRight_updateEmptyFull (filter : CBloomFilter) : filter.UpdateEmptyFull.FlagsRight where
  full hfull b hb := beq_iff_eq.mp (List.all_eq_true.mp hfull b hb)
  blank _ hempty b hb := beq_iff_eq.mp (List.all_eq_true.mp hempty b hb)
  nonempty hfull hnil := by
    have hdata : filter.vData = [] := hnil
    unfold UpdateEmptyFull at hfull
    rw [hdata] at hfull
    exact Bool.noConfusion hfull

end CBloomFilter

/-! ### Runs -/

variable {M : Murmur} {filter : CBloomFilter}

/-- The elements that a call inserts. -/
def FilterCall.inserted (M : Murmur) (filter : CBloomFilter) : FilterCall → List valtype
  | .filteradd vData => if MAX_SCRIPT_ELEMENT_SIZE < vData.length then [] else [vData]
  | .insert vKey => [vKey]
  | .insertOutPoint outpoint => [outpoint.serialize]
  | .insertHash hash => [leBytes 32 hash]
  | .IsRelevantAndUpdate tx hash => filter.addedByTx M tx hash

/-- The elements that a sequence of calls inserts. -/
def insertedByCalls (M : Murmur) : CBloomFilter → List FilterCall → List valtype
  | _, [] => []
  | filter, call :: calls =>
      call.inserted M filter ++
        insertedByCalls M ((call.apply M filter).getD filter) calls

theorem CBloomFilter.FlagsRight.apply (h : filter.FlagsRight) (call : FilterCall) :
    ∃ after, call.apply M filter = some after ∧ after.FlagsRight ∧
      CBloomFilter.Grown filter after ∧ ∀ vKey ∈ call.inserted M filter,
        after.holds M vKey = true := by
  have hinsert : ∀ vKey, ∃ after, filter.insert M vKey = some after ∧ after.FlagsRight ∧
      CBloomFilter.Grown filter after ∧ ∀ vKey' ∈ [vKey], after.holds M vKey' = true := by
    intro vKey
    obtain ⟨after, hrun, hright, hgrown, hholds⟩ := h.insert (M := M) vKey
    refine ⟨after, hrun, hright, hgrown, fun vKey' hmem => ?_⟩
    rw [List.mem_singleton.mp hmem]
    exact hholds
  cases call with
  | filteradd vData =>
      simp only [FilterCall.apply, FilterCall.inserted]
      by_cases hsize : MAX_SCRIPT_ELEMENT_SIZE < vData.length
      · rw [if_pos hsize, if_pos hsize]
        exact ⟨filter, rfl, h, .refl filter, fun _ hmem => absurd hmem List.not_mem_nil⟩
      · rw [if_neg hsize, if_neg hsize]
        exact hinsert vData
  | insert vKey => exact hinsert vKey
  | insertOutPoint outpoint => exact hinsert outpoint.serialize
  | insertHash hash => exact hinsert (leBytes 32 hash)
  | IsRelevantAndUpdate tx hash =>
      obtain ⟨found, after, hrun, hright, hgrown, -, hadded⟩ :=
        h.isRelevantAndUpdate (M := M) tx hash
      refine ⟨after, ?_, hright, hgrown, hadded⟩
      rw [FilterCall.apply, hrun]
      rfl

theorem CBloomFilter.FlagsRight.run :
    ∀ (calls : List FilterCall) {filter : CBloomFilter}, filter.FlagsRight →
      ∃ after, runFilter M filter calls = some after ∧ after.FlagsRight ∧
        CBloomFilter.Grown filter after ∧ ∀ vKey ∈ insertedByCalls M filter calls,
          after.holds M vKey = true
  | [], filter, h => ⟨filter, rfl, h, .refl filter, fun _ hmem => absurd hmem List.not_mem_nil⟩
  | call :: calls, filter, h => by
      obtain ⟨next, happly, hright, hgrown, hadded⟩ := h.apply (M := M) call
      obtain ⟨after, hrun, hright', hgrown', hrest⟩ :=
        CBloomFilter.FlagsRight.run calls hright
      refine ⟨after, ?_, hright', hgrown.trans hgrown', ?_⟩
      · rw [runFilter, happly]
        exact hrun
      · intro vKey hmem
        rw [insertedByCalls, happly, Option.getD_some] at hmem
        rcases List.mem_append.mp hmem with hmem | hmem
        · exact hgrown'.holds (hadded vKey hmem)
        · exact hrest vKey hmem

/-- A loaded filter answers every question without dividing by zero, contains what was
inserted, keeps what it contains, answers as its bits do, and finds every transaction that
touches an element. -/
theorem bloomFilter_keeps {M : Murmur} {received filter : CBloomFilter}
    (hload : filterload received = some filter) (calls : List FilterCall) :
    ∃ after, runFilter M filter calls = some after ∧
      (∀ vKey, (after.contains M vKey).isSome = true) ∧
      (∀ vKey ∈ insertedByCalls M filter calls, after.contains M vKey = some true) ∧
      (∀ vKey, after.contains M vKey = some true → ∀ later, ∃ final,
        runFilter M after later = some final ∧ final.contains M vKey = some true) ∧
      (0 < after.nHashFuncs → after.vData ≠ [] → ∀ vKey,
        after.contains M vKey = some (after.bitsContain M vKey)) ∧
      ∀ tx hash vKey, CBloomFilter.Touches tx hash vKey → after.contains M vKey = some true →
        ∃ updated, after.IsRelevantAndUpdate M tx hash = some (true, updated) := by
  have hright : filter.FlagsRight := by
    unfold filterload at hload
    split at hload
    · rw [← Option.some.inj hload]
      exact CBloomFilter.flagsRight_updateEmptyFull received
    · exact nomatch hload
  obtain ⟨after, hrun, hright', -, hinserted⟩ := CBloomFilter.FlagsRight.run (M := M) calls hright
  have hanswer : ∀ {vKey}, after.contains M vKey = some true → after.holds M vKey = true := by
    intro vKey hkey
    rw [hright'.contains_eq] at hkey
    exact Option.some.inj hkey
  refine ⟨after, hrun, ?_, ?_, ?_, ?_, ?_⟩
  · intro vKey
    rw [hright'.contains_eq]
    rfl
  · intro vKey hmem
    rw [hright'.contains_eq, hinserted vKey hmem]
  · intro vKey hkey later
    obtain ⟨final, hfinal, hright'', hgrown, -⟩ :=
      CBloomFilter.FlagsRight.run (M := M) later hright'
    refine ⟨final, hfinal, ?_⟩
    rw [hright''.contains_eq, hgrown.holds (hanswer hkey)]
  · intro hfuncs hdata vKey
    rw [hright'.contains_eq, hright'.holds_eq_bits hfuncs hdata]
  · intro tx hash vKey htouches hkey
    obtain ⟨found, updated, hrelevant, -, -, hfound, -⟩ :=
      hright'.isRelevantAndUpdate (M := M) tx hash
    rw [hfound vKey htouches (hanswer hkey)] at hrelevant
    exact ⟨updated, hrelevant⟩

/-- A filter of two bytes, loaded empty. -/
def twoByteFilter : CBloomFilter :=
  { vData := [0, 0], isFull := true, isEmpty := false, nHashFuncs := 3, nTweak := 5, nFlags := 1 }

theorem bloomFilter_keeps_twoBytes :
    ∃ after, runFilter (fun seed data => seed + data.length) twoByteFilter.UpdateEmptyFull
        [.insert [1, 2]] = some after ∧
      after.contains (fun seed data => seed + data.length) [1, 2] = some true := by
  obtain ⟨after, hrun, -, hinserted, -⟩ :=
    @bloomFilter_keeps (fun seed data => seed + data.length) twoByteFilter _ rfl [.insert [1, 2]]
  exact ⟨after, hrun, hinserted _ (List.mem_singleton.mpr rfl)⟩

end Ziftrcoin.Spec
