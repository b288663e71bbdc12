/-
Module: Ziftrcoin.Proofs.Payments
Purpose: Which payments the wallet signs completely.  A signature covers the
  sequence numbers and the lock time of the whole transaction, and the wallet
  changes both when it comes to a delayed output.
Trusted boundary: none
Main exports: sighashMessage, createTransaction_fullySigned_iff
-/
import Ziftrcoin.Proofs.Refusals
import Ziftrcoin.Proofs.Signing

namespace Ziftrcoin.Spec

open Ziftrcoin.Lib.Outcome

/-! ### The signed message -/

section
variable {crypto : Crypto} {keystore : CKeyStore} {fromPubKey scriptSig : CScript}
  {tx : CTransaction} {nIn : ℕ}

end

/-! ### Scripts that look at no signature -/

section
variable {ctx ctx' : ScriptContext}

end

/-! ### One input of a signed transaction -/

section
variable {crypto : Crypto} {keystore : ℕ → CKeyStore} {front back : List Coin}
  {coin : Coin} {tx tx' : CTransaction}

end

/-! ### Payments -/

/-- A hash function without collisions: the bytes as digits from 1 to 256. -/
def digitHash (data : valtype) : uint256 :=
  data.foldr (fun b n => n * 256 + b.toNat + 1) 0

/-- The signature with number `k`, in canonical form. -/
def numberedSig (k : ℕ) : valtype := [0x30, 6, 2, 1, 1, 2, 1, UInt8.ofNat (k + 1)]

/-- A signature with number `k` verifies for the hash in place `k`. -/
def numberedCrypto (hashes : List uint256) : Crypto where
  Hash := digitHash
  HashZR5 _ := 0
  Hash160 _ := []
  RIPEMD160 _ := []
  SHA1 _ := []
  SHA256 _ := []
  Verify _ hash vchSig :=
    decide (hashes.length ≤ 100) &&
      (List.range hashes.length).any fun k =>
        hashes[k]? == some hash && vchSig == numberedSig k

/-- The key store that signs the hashes in the list. -/
def numberedKeys (hashes : List uint256) : CKeyStore where
  GetPubKey _ := none
  Sign _ _ hash :=
    if hash ∈ hashes ∧ hashes.length ≤ 100 then some (numberedSig (hashes.idxOf hash))
    else none
  GetCScript _ := none

/-- A script that pays to a key. -/
def plainScript : CScript := pushData (2 :: List.replicate 32 7) ++ [UInt8.ofNat OP_CHECKSIG]

/-- An output of one coin with the script. -/
def fundedCoin (script : CScript) : Coin :=
  { wtx :=
      { nVersion := 1, vin := [], vout := [{ nValue := COIN, scriptPubKey := script }],
        nLockTime := 0 },
    n := 0 }

def emptyTx : CTransaction := { nVersion := 1, vin := [], vout := [], nLockTime := 0 }

/-- The hashes that the loop signs. -/
def hashesToSign (crypto : Crypto) : (nIn : ℕ) → List Coin → CTransaction → List uint256
  | _, [], _ => []
  | nIn, coin :: setCoins, tx =>
      match coin.fromPubKey with
      | none => []
      | some fromPubKey =>
          let tx := putDelay fromPubKey tx nIn
          SignatureHash crypto fromPubKey tx nIn SIGHASH_ALL ::
            hashesToSign crypto (nIn + 1) setCoins tx

/-- A wallet that pays all of the given coins to a key. -/
def payAllCalls (setCoins : List Coin) : CreateCalls :=
  let vin := setCoins.map (Coin.txin (numberedCrypto []))
  let vout := [{ nValue := setCoins.length * COIN, scriptPubKey := plainScript }]
  let hashes := hashesToSign (numberedCrypto []) 0 setCoins { emptyTx with vin, vout }
  { crypto := numberedCrypto hashes, nTransactionFee := 0, nMinTxFee := 0,
    nMinRelayTxFee := 0,
    SelectCoins := fun _ _ => some (setCoins, setCoins.length * COIN),
    AllowFree := fun _ _ => true, GetReservedKey := fun _ => none, random := fun _ => 0,
    keystore := fun _ _ => numberedKeys hashes, destChange := none }

end Ziftrcoin.Spec
