/-
Module: Ziftrcoin.Spec.SignatureCache
Purpose: The cache of valid signatures and the calls of CheckRawSig that any number of
  threads make of it.
Trusted boundary: human-reviewed model of CSignatureCache and CheckRawSig in
  src/script.cpp and of the order of CPubKey in src/key.h
Main exports: SigData, CSignatureCache, CheckRawSig
-/
import Mathlib.Data.List.Lex
import Mathlib.Data.List.Sort
import Mathlib.Data.Prod.Lex
import Mathlib.Logic.Relation
import Ziftrcoin.Spec.Interpreter

namespace Ziftrcoin.Spec

/-! ### The cache -/

/-- `sigdata_type`: signature hash, signature, public key. -/
structure SigData where
  hash : uint256
  vchSig : valtype
  pubKey : valtype
deriving Repr, DecidableEq, Inhabited

/-- Tuples are compared field by field.  Two valid keys with one first byte have one
length, so that comparing them as `memcmp` does is comparing their bytes as a list. -/
def SigData.key (k : SigData) : ℕ ×ₗ (List ℕ ×ₗ List ℕ) :=
  toLex (k.hash, toLex (k.vchSig.map UInt8.toNat, k.pubKey.map UInt8.toNat))

/-- The cache; `setValid` is in ascending order. -/
structure CSignatureCache where
  setValid : List SigData
deriving Repr, DecidableEq, Inhabited

namespace CSignatureCache

def empty : CSignatureCache := { setValid := [] }

/-- `CSignatureCache::Get`. -/
def Get (cache : CSignatureCache) (k : SigData) : Bool := k ∈ cache.setValid

/-- The first byte of an invalid key, which is all that is compared of it. -/
def invalidKey : valtype := [0xFF]

/-- `setValid.lower_bound`, or else `setValid.begin()`. -/
def victim (cache : CSignatureCache) (randomHash : uint256) : Option SigData :=
  (cache.setValid.find? fun it => ¬ it.key < (SigData.mk randomHash [] invalidKey).key).or
    cache.setValid.head?

def evict (cache : CSignatureCache) (randomHash : uint256) : CSignatureCache :=
  match cache.victim randomHash with
  | none => cache
  | some it => { setValid := cache.setValid.erase it }

/-- The loop of `Set`, with what `GetRandHash` returns in each round. -/
def trim (nMaxCacheSize : Int) : (fuel : Nat) → (Nat → uint256) → CSignatureCache →
    CSignatureCache
  | 0, _, cache => cache
  | fuel + 1, rand, cache =>
      if nMaxCacheSize < cache.setValid.length then
        trim nMaxCacheSize fuel (fun i => rand (i + 1)) (cache.evict (rand 0))
      else cache

/-- `setValid.insert`. -/
def insert (cache : CSignatureCache) (k : SigData) : CSignatureCache :=
  if k ∈ cache.setValid then cache
  else { setValid := cache.setValid.orderedInsert (fun a b => a.key ≤ b.key) k }

/-- `CSignatureCache::Set`.  Each round of the loop takes one entry out. -/
def Set (nMaxCacheSize : Int) (rand : Nat → uint256) (cache : CSignatureCache) (k : SigData) :
    CSignatureCache :=
  if nMaxCacheSize ≤ 0 then cache
  else (cache.trim nMaxCacheSize cache.setValid.length rand).insert k

end CSignatureCache

/-! ### Checking -/

/-- `CheckRawSig` of a node without a cache. -/
def CheckRawSig (crypto : Crypto) (vchSig vchPubKey : valtype) (sighash : uint256) : Bool :=
  pubKeyIsValid vchPubKey && crypto.Verify vchPubKey sighash vchSig

/-- The arguments of a call of `CheckRawSig`. -/
structure SigCall where
  vchSig : valtype
  vchPubKey : valtype
  sighash : uint256
  /-- `SCRIPT_VERIFY_NOCACHE`. -/
  fNoCache : Bool
deriving Repr, DecidableEq, Inhabited

def SigCall.data (call : SigCall) : SigData :=
  { hash := call.sighash, vchSig := call.vchSig, pubKey := call.vchPubKey }

/-- What a call does next.  The cache is locked in `get` and in `set` and nowhere else. -/
inductive SigPhase where
  | get
  | verify
  | set
deriving Repr, DecidableEq

/-- A call goes on, or it returns. -/
inductive SigOutcome where
  | goesOn (phase : SigPhase)
  | returns (fValid : Bool)
deriving Repr, DecidableEq

/-- `CheckRawSig`, up to where the lock is released or the signature has been verified. -/
def SigCall.advance (crypto : Crypto) (nMaxCacheSize : Int) (rand : Nat → uint256)
    (call : SigCall) (cache : CSignatureCache) : SigPhase → CSignatureCache × SigOutcome
  | .get =>
      if pubKeyIsValid call.vchPubKey = false then (cache, .returns false)
      else if cache.Get call.data then (cache, .returns true)
      else (cache, .goesOn .verify)
  | .verify =>
      if crypto.Verify call.vchPubKey call.sighash call.vchSig = false then
        (cache, .returns false)
      else if call.fNoCache then (cache, .returns true)
      else (cache, .goesOn .set)
  | .set => (cache.Set nMaxCacheSize rand call.data, .returns true)

/-- The cache, the calls under way and what the others returned. -/
structure SigState where
  signatureCache : CSignatureCache
  active : List (SigCall × SigPhase)
  returned : List (SigCall × Bool)
deriving Repr, DecidableEq

namespace SigState

def new : SigState := { signatureCache := .empty, active := [], returned := [] }

/-- The state once one of the calls has been advanced. -/
def advanced (s : SigState) (before after : List (SigCall × SigPhase)) (call : SigCall) :
    CSignatureCache × SigOutcome → SigState
  | (cache, .goesOn phase) =>
      { s with signatureCache := cache, active := before ++ (call, phase) :: after }
  | (cache, .returns fValid) =>
      { signatureCache := cache, active := before ++ after,
        returned := (call, fValid) :: s.returned }

end SigState

/-- A thread makes a call, or one of the calls under way is advanced. -/
inductive SigStep (crypto : Crypto) (nMaxCacheSize : Int) (s : SigState) : SigState → Prop where
  | call (call : SigCall) :
      SigStep crypto nMaxCacheSize s { s with active := (call, .get) :: s.active }
  | advance {before after : List (SigCall × SigPhase)} {call : SigCall} {phase : SigPhase}
      (rand : Nat → uint256) (h : s.active = before ++ (call, phase) :: after) :
      SigStep crypto nMaxCacheSize s (s.advanced before after call
        (call.advance crypto nMaxCacheSize rand s.signatureCache phase))

/-- The states that any interleaving leads to. -/
def SigRun (crypto : Crypto) (nMaxCacheSize : Int) : SigState → Prop :=
  Relation.ReflTransGen (SigStep crypto nMaxCacheSize) .new

end Ziftrcoin.Spec
