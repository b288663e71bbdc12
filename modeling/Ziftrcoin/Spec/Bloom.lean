/-
Module: Ziftrcoin.Spec.Bloom
Purpose: The bloom filter a peer loads, what matching a transaction asks of it
  and adds to it, and the messages that change it.
Trusted boundary: human-reviewed model of CBloomFilter in src/bloom.cpp and of
  the filter messages of ProcessMessage in src/main.cpp
Main exports: CBloomFilter, insert, contains
-/
import Ziftrcoin.Lib.BitArray
import Ziftrcoin.Spec.Transaction

namespace Ziftrcoin.Spec

open Ziftrcoin.Lib

/-- 20,000 items with a false positive rate below 0.1%. -/
def MAX_BLOOM_FILTER_SIZE : Nat := 36000
def MAX_HASH_FUNCS : Nat := 50

def BLOOM_UPDATE_ALL : UInt8 := 1
def BLOOM_UPDATE_P2PUBKEY_ONLY : UInt8 := 2
def BLOOM_UPDATE_MASK : UInt8 := 3

structure CBloomFilter where
  vData : valtype
  isFull : Bool
  isEmpty : Bool
  nHashFuncs : Nat
  nTweak : Nat
  nFlags : UInt8
deriving Repr, DecidableEq, Inhabited

/-- `MurmurHash3`: seed and data. -/
abbrev Murmur := Nat → valtype → Nat

namespace CBloomFilter

/-- `Hash`; `none` is the division by zero of an array without bytes. -/
def Hash (MurmurHash3 : Murmur) (filter : CBloomFilter) (nHashNum : Nat)
    (vDataToHash : valtype) : Option Nat :=
  if filter.vData.length = 0 then none
  else some (MurmurHash3 (uint32 (nHashNum * 0xFBA4C795 + filter.nTweak))
    vDataToHash % (filter.vData.length * 8))

/-- The loop of `insert` over the numbers of the hash functions. -/
def setBits (MurmurHash3 : Murmur) (vKey : valtype) :
    List Nat → CBloomFilter → Option CBloomFilter
  | [], filter => some filter
  | i :: rest, filter => do
      let nIndex ← filter.Hash MurmurHash3 i vKey
      setBits MurmurHash3 vKey rest
        { filter with vData := BitArray.set filter.vData nIndex }

def insert (MurmurHash3 : Murmur) (filter : CBloomFilter) (vKey : valtype) :
    Option CBloomFilter :=
  if filter.isFull then some filter
  else do
    let filter ← setBits MurmurHash3 vKey (List.range filter.nHashFuncs) filter
    some { filter with isEmpty := false }

/-- The loop of `contains`: what the array of bits answers. -/
def testBits (MurmurHash3 : Murmur) (filter : CBloomFilter) (vKey : valtype) :
    List Nat → Option Bool
  | [] => some true
  | i :: rest => do
      let nIndex ← filter.Hash MurmurHash3 i vKey
      if BitArray.test filter.vData nIndex then
        testBits MurmurHash3 filter vKey rest
      else some false

def contains (MurmurHash3 : Murmur) (filter : CBloomFilter) (vKey : valtype) :
    Option Bool :=
  if filter.isFull then some true
  else if filter.isEmpty then some false
  else testBits MurmurHash3 filter vKey (List.range filter.nHashFuncs)

def IsWithinSizeConstraints (filter : CBloomFilter) : Bool :=
  decide (filter.vData.length ≤ MAX_BLOOM_FILTER_SIZE) &&
    decide (filter.nHashFuncs ≤ MAX_HASH_FUNCS)

def UpdateEmptyFull (filter : CBloomFilter) : CBloomFilter :=
  { filter with
    isFull := filter.vData.all (· == 0xff)
    isEmpty := filter.vData.all (· == 0) }

/-! ### Matching a transaction -/

/-- Some non-empty element that the instructions push is contained. -/
def anyContained (MurmurHash3 : Murmur) (filter : CBloomFilter) :
    List (Nat × valtype) → Option Bool
  | [] => some false
  | (_, data) :: rest =>
      match if data.length ≠ 0 then filter.contains MurmurHash3 data
        else some false with
      | none => none
      | some true => some true
      | some false => anyContained MurmurHash3 filter rest

/-- What a matching output adds to the filter. -/
def updateForOutput (MurmurHash3 : Murmur) (filter : CBloomFilter)
    (outpoint : COutPoint) (scriptPubKey : CScript) : Option CBloomFilter :=
  if filter.nFlags &&& BLOOM_UPDATE_MASK = BLOOM_UPDATE_ALL then
    filter.insert MurmurHash3 outpoint.serialize
  else if filter.nFlags &&& BLOOM_UPDATE_MASK = BLOOM_UPDATE_P2PUBKEY_ONLY then
    match Solver scriptPubKey with
    | none => some filter
    | some (type, _) =>
        if type = .TX_PUBKEY ∨ type = .TX_MULTISIG then
          filter.insert MurmurHash3 outpoint.serialize
        else some filter
  else some filter

/-- The loop over the outputs; whether one matched, with the filter after it. -/
def matchOutputs (MurmurHash3 : Murmur) (hash : uint256) :
    (i : Nat) → List CTxOut → (fFound : Bool) → CBloomFilter →
    Option (Bool × CBloomFilter)
  | _, [], fFound, filter => some (fFound, filter)
  | i, txout :: vout, fFound, filter => do
      let found ← filter.anyContained MurmurHash3 (ops txout.scriptPubKey).1
      if found then
        let filter ← filter.updateForOutput MurmurHash3 { hash, n := i }
          txout.scriptPubKey
        matchOutputs MurmurHash3 hash (i + 1) vout true filter
      else matchOutputs MurmurHash3 hash (i + 1) vout fFound filter

/-- The loop over the inputs. -/
def matchInputs (MurmurHash3 : Murmur) (filter : CBloomFilter) :
    List CTxIn → Option Bool
  | [] => some false
  | txin :: vin => do
      if ← filter.contains MurmurHash3 txin.prevout.serialize then some true
      else if ← filter.anyContained MurmurHash3 (ops txin.scriptSig).1 then
        some true
      else matchInputs MurmurHash3 filter vin

def IsRelevantAndUpdate (MurmurHash3 : Murmur) (filter : CBloomFilter)
    (tx : CTransaction) (hash : uint256) : Option (Bool × CBloomFilter) :=
  if filter.isFull then some (true, filter)
  else if filter.isEmpty then some (false, filter)
  else do
    let fFound ← filter.contains MurmurHash3 (leBytes 32 hash)
    let (fFound, filter) ← matchOutputs MurmurHash3 hash 0 tx.vout fFound filter
    if fFound then some (true, filter)
    else do
      let found ← filter.matchInputs MurmurHash3 tx.vin
      some (found, filter)

end CBloomFilter

/-! ### Messages -/

/-- `filterload`: the filter that is kept, unless the one received is too
large.  The flags it was constructed with are computed anew. -/
def filterload (filter : CBloomFilter) : Option CBloomFilter :=
  if filter.IsWithinSizeConstraints then some filter.UpdateEmptyFull else none

/-- What happens to a loaded filter later on. -/
inductive FilterCall where
  | filteradd (vData : valtype)
  | insert (vKey : valtype)
  | insertOutPoint (outpoint : COutPoint)
  | insertHash (hash : uint256)
  | IsRelevantAndUpdate (tx : CTransaction) (hash : uint256)
deriving Repr, DecidableEq, Inhabited

/-- One call; `filteradd` refuses an element that no script can push. -/
def FilterCall.apply (MurmurHash3 : Murmur) (filter : CBloomFilter) :
    FilterCall → Option CBloomFilter
  | .filteradd vData =>
      if MAX_SCRIPT_ELEMENT_SIZE < vData.length then some filter
      else filter.insert MurmurHash3 vData
  | .insert vKey => filter.insert MurmurHash3 vKey
  | .insertOutPoint outpoint => filter.insert MurmurHash3 outpoint.serialize
  | .insertHash hash => filter.insert MurmurHash3 (leBytes 32 hash)
  | .IsRelevantAndUpdate tx hash =>
      (filter.IsRelevantAndUpdate MurmurHash3 tx hash).map Prod.snd

/-- The filter after a sequence of calls. -/
def runFilter (MurmurHash3 : Murmur) (filter : CBloomFilter) :
    List FilterCall → Option CBloomFilter
  | [] => some filter
  | call :: calls => do
      let filter ← call.apply MurmurHash3 filter
      runFilter MurmurHash3 filter calls

end Ziftrcoin.Spec
