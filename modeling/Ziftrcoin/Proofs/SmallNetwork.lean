/-
Module: Ziftrcoin.Proofs.SmallNetwork
Purpose: A network that is easy to mine, on which the rules can be watched at
  work: the hash of a block is its nonce, and the hash of a transaction its
  first bytes.
Trusted boundary: none
Main exports: smallCrypto, reachable_afterEvents
-/
import Ziftrcoin.Spec.Node

namespace Ziftrcoin.Spec

open Ziftrcoin.Lib

/-! ### The network -/

/-- Hash functions that show what they are given: a transaction's hash is read
off its first 32 bytes, a header's off its nonce. -/
def smallCrypto : Crypto :=
  { Hash := fun bs => readLE (bs.take 32)
    HashZR5 := fun header => readLE (header.drop 76) * 2 ^ 32
    Hash160 := fun bs => bs
    RIPEMD160 := fun bs => bs
    SHA1 := fun bs => bs
    SHA256 := fun bs => bs
    Verify := fun _ _ _ => true }

/-- A script that everyone can satisfy. -/
def anyoneCanSpend : CScript := [UInt8.ofNat OP_1]

/-- A coinbase for a height.  The version tells coinbases apart. -/
def coinbaseTx (nVersion : Int) (nHeight : Nat) (vout : List CTxOut) :
    CTransaction :=
  { nVersion
    vin := [{ prevout := ⟨0, UINT_MAX⟩, scriptSig := pushScriptNum nHeight ++ [0],
              nSequence := UINT_MAX }]
    vout
    nLockTime := 0 }

/-- A transaction that spends a list of outputs that anyone can spend. -/
def spendTx (nVersion : Int) (prevouts : List COutPoint) (vout : List CTxOut) :
    CTransaction :=
  { nVersion
    vin := prevouts.map fun prevout =>
      { prevout, scriptSig := [], nSequence := UINT_MAX }
    vout
    nLockTime := 0 }

/-- The root of the Merkle tree over a list of transactions. -/
def merkleRoot (vtx : List CTransaction) : uint256 :=
  (merkleTree smallCrypto vtx.length
    (vtx.map (CTransaction.GetHash smallCrypto))).getLastD 0

def smallLimit : Int := 2 ^ 255 - 1

/-- A block with a given nonce, one minute after its predecessor. -/
def smallBlock (nNonce nHeight : Nat) (hashPrevBlock : uint256)
    (vtx : List CTransaction) : CBlock :=
  { nVersion := 1
    hashPrevBlock
    hashMerkleRoot := merkleRoot vtx
    nTime := 1400000000 + 60 * nHeight
    nBits := GetCompact smallLimit
    nNonce
    vtx
    vMerkleTree := [] }

/-- The hash of a block with a given nonce. -/
def hashOfNonce (nNonce : Nat) : uint256 := nNonce * 2 ^ 32

/-- A network with a given genesis block. -/
def smallNet (genesis : CBlock) : Config :=
  { crypto := smallCrypto
    NetworkID := .REGTEST
    GenesisBlock := genesis.BuildMerkleTree smallCrypto
    ProofOfWorkLimit := smallLimit
    GetGenesisTotal := 0
    GetBlockReward := fun _ _ => 50
    fCheckpoints := false
    mapCheckpoints := []
    nScriptCheckThreads := 0
    nMinRelayTxFee := 100
    maxOrphanBlocks := 750 }

/-- A genesis block with given outputs. -/
def smallGenesis (vout : List CTxOut) : CBlock :=
  smallBlock 1 0 0 [coinbaseTx 1 0 vout]

/-- The world outside at a quiet moment. -/
def quiet : Tick :=
  { nAdjustedTime := 2000000000
    nTimeMillis := 1400000000000
    fFlush := false
    fRateLimited := false
    nRand := 0 }

/-! ### Running a node -/

theorem exists_eq_ok_of_isOk {ε α : Type} {x : Except ε α} (h : x.isOk = true) :
    ∃ a, x = .ok a := by
  cases x with
  | error e => cases h
  | ok a => exact ⟨a, rfl⟩

/-- The state that a call left. -/
def stateAfter {α : Type} (x : Node α) (s : NodeState) : NodeState :=
  match x s with
  | .done _ s' => s'
  | .refused _ s' => s'
  | .faulted _ => s

/-- The call returned true. -/
def returned {α : Type} (x : Node α) (s : NodeState) : Bool :=
  match x s with
  | .done _ _ => true
  | _ => false

theorem eq_done_of_returned {x : Node Unit} {s : NodeState}
    (h : returned x s = true) : x s = .done () (stateAfter x s) := by
  unfold returned at h
  unfold stateAfter
  cases hx : x s with
  | done a s' => rfl
  | refused r s' => simp [hx] at h
  | faulted e => simp [hx] at h

/-- The state of a node after `InitBlockIndex`. -/
def started (cfg : Config) (ticks : Nat → Tick) : NodeState :=
  stateAfter (InitBlockIndex cfg 2) (.initial ticks)

theorem reachable_started {cfg : Config} {ticks : Nat → Tick}
    (h : returned (InitBlockIndex cfg 2) (.initial ticks) = true) :
    Reachable cfg (started cfg ticks) :=
  .init (eq_done_of_returned h)

/-- The state of a node after a list of events, none of which it rejects. -/
def afterEvents (cfg : Config) : NodeState → List Event → NodeState
  | s, [] => s
  | s, event :: events => afterEvents cfg (stateAfter (handle cfg event) s) events

/-- Every event of a list is accepted. -/
def allAccepted (cfg : Config) : NodeState → List Event → Bool
  | _, [] => true
  | s, event :: events =>
      returned (handle cfg event) s &&
        allAccepted cfg (stateAfter (handle cfg event) s) events

theorem reachable_afterEvents {cfg : Config} :
    ∀ {events : List Event} {s : NodeState}, Reachable cfg s →
      allAccepted cfg s events = true → Reachable cfg (afterEvents cfg s events)
  | [], _, hs, _ => hs
  | event :: events, s, hs, h => by
      rw [allAccepted, Bool.and_eq_true] at h
      have hstep : Reachable cfg (stateAfter (handle cfg event) s) :=
        .step hs (.done (eq_done_of_returned h.1))
      rw [afterEvents]
      exact reachable_afterEvents hstep h.2

end Ziftrcoin.Spec
