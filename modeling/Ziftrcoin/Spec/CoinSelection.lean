/-
Module: Ziftrcoin.Spec.CoinSelection
Purpose: The coins a wallet offers for spending, with the test of a lock time without a
  spending transaction, and how it chooses those that pay an amount.
Trusted boundary: human-reviewed model of CScript::IsSpendableAtLockTime in src/script.cpp
  and of CWallet::AvailableCoins, ApproximateBestSubset, CWallet::SelectCoinsMinConf and
  SelectCoins in src/wallet.cpp
Main exports: IsSpendableAtLockTime, CWalletTx, COutput
-/
import Ziftrcoin.Lib.Picking
import Ziftrcoin.Spec.CreateTransaction

namespace Ziftrcoin.Spec

/-- `CScript::IsSpendableAtLockTime`.  The template lets no delay of more than
five bytes through, so the operand never throws. -/
def CScript.IsSpendableAtLockTime (script : CScript) (nLockTime : Nat) : Bool :=
  match Solver script with
  | none => false
  | some (type, vSolutions) =>
      if type.isDelayed = false then true
      else
        match CScriptNum.ofVch (vSolutions.headD []) 5 with
        | none => false
        | some nScriptLockTime =>
            if nScriptLockTime < 0 then false
            else if (nScriptLockTime < LOCKTIME_THRESHOLD ∧
                  LOCKTIME_THRESHOLD ≤ (nLockTime : Int)) ∨
                (LOCKTIME_THRESHOLD ≤ nScriptLockTime ∧
                  (nLockTime : Int) < LOCKTIME_THRESHOLD) then false
            else decide (nScriptLockTime ≤ nLockTime)

/-! ### Wallet transactions -/

/-- A transaction of the wallet under its hash, with what the chain and the
wallet know of it. -/
structure CWalletTx where
  tx : CTransaction
  hash : uint256
  IsTrusted : Bool
  GetBlocksToMaturity : Int
  GetDepthInMainChain : Int
  IsFromMe : Bool
deriving Repr, DecidableEq, Inhabited

/-- An output of a wallet transaction that is offered. -/
structure COutput where
  tx : CWalletTx
  i : Nat
  nDepth : Int
deriving Repr, DecidableEq, Inhabited

/-- The value of the output, `tx->vout[i].nValue`. -/
def COutput.nValue (out : COutput) : Int :=
  ((out.tx.tx.vout[out.i]?).map CTxOut.nValue).getD 0

/-- What `AvailableCoins` reads of the wallet and of the active chain, which has
a tip. -/
structure WalletView where
  mapWallet : List CWalletTx
  IsSpent : uint256 → Nat → Bool
  IsMine : CTxOut → Bool
  IsLockedCoin : uint256 → Nat → Bool
  /-- `chainActive.Tip()->nHeight`. -/
  nHeight : Nat
  /-- `chainActive.Tip()->GetMedianTimePassed_uint()`. -/
  nMedianTimePast : Nat
  nAdjustedTime : Int

/-- The set of selected outputs of a `CCoinControl`. -/
abbrev CCoinControl := List COutPoint

def CCoinControl.HasSelected (coinControl : CCoinControl) : Bool :=
  decide (0 < coinControl.length)

def CCoinControl.IsSelected (coinControl : CCoinControl) (hash : uint256)
    (n : Nat) : Bool :=
  decide (({ hash, n } : COutPoint) ∈ coinControl)

/-- The output is named by coin control. -/
def overridden (coinControl : Option CCoinControl) (hash : uint256) (i : Nat) :
    Bool :=
  match coinControl with
  | none => false
  | some coinControl => coinControl.HasSelected && coinControl.IsSelected hash i

/-- `fPush`. -/
def fPush (view : WalletView) (fCheckForDelayScripts : Bool)
    (coinControl : Option CCoinControl) (hash : uint256) (i : Nat)
    (scriptPubKey : CScript) : Bool :=
  if overridden coinControl hash i then true
  else if fCheckForDelayScripts ∧
      ¬ (scriptPubKey.IsSpendableAtLockTime (uint32 (view.nHeight + 1)) = true ∨
        scriptPubKey.IsSpendableAtLockTime (uint32 (view.nMedianTimePast + 1)) =
          true) then false
  else
    match coinControl with
    | none => true
    | some coinControl => !coinControl.HasSelected

/-- The outputs of one transaction. -/
def availableOutputs (view : WalletView) (fCheckForDelayScripts : Bool)
    (coinControl : Option CCoinControl) (pcoin : CWalletTx) : List COutput :=
  pcoin.tx.vout.zipIdx.filterMap fun (txout, i) =>
    if view.IsSpent pcoin.hash i = false ∧ view.IsMine txout = true ∧
        view.IsLockedCoin pcoin.hash i = false ∧ 0 < txout.nValue ∧
        fPush view fCheckForDelayScripts coinControl pcoin.hash i
          txout.scriptPubKey = true then
      some { tx := pcoin, i, nDepth := pcoin.GetDepthInMainChain }
    else none

/-- `CWallet::AvailableCoins`. -/
def AvailableCoins (view : WalletView) (fCheckForDelayScripts fOnlyConfirmed : Bool)
    (coinControl : Option CCoinControl) : List COutput :=
  view.mapWallet.flatMap fun pcoin =>
    if IsFinalTx view.nHeight view.nAdjustedTime pcoin.tx 0 0 = false then []
    else if fOnlyConfirmed = true ∧ pcoin.IsTrusted = false then []
    else if pcoin.tx.IsCoinBase = true ∧ 0 < pcoin.GetBlocksToMaturity then []
    else if pcoin.GetDepthInMainChain < 0 then []
    else availableOutputs view fCheckForDelayScripts coinControl pcoin

/-! ### The subset -/

/-- The variables of `ApproximateBestSubset`. -/
structure SubsetState where
  vfIncluded : List Bool
  nTotal : Int
  fReachedTarget : Bool
  vfBest : List Bool
  nBest : Int
deriving Repr, DecidableEq

/-- Take entry `i`, of value `n`, and put it back where the target is reached. -/
def includeCoin (nTargetValue : Int) (n : Int) (i : Nat) (st : SubsetState) :
    SubsetState :=
  let nTotal := int64 (st.nTotal + n)
  let vfIncluded := st.vfIncluded.set i true
  if nTargetValue ≤ nTotal then
    let st :=
      if nTotal < st.nBest then { st with nBest := nTotal, vfBest := vfIncluded }
      else st
    { st with
      fReachedTarget := true, nTotal := int64 (nTotal - n)
      vfIncluded := vfIncluded.set i false }
  else { st with nTotal, vfIncluded }

/-- A pass over the entries from `i` on.  In the first pass a random bit decides
about an entry, in the second one whether it has been taken. -/
def subsetPass (nTargetValue : Int) (fTake : SubsetState → Nat → Bool) :
    (i : Nat) → List Int → SubsetState → SubsetState
  | _, [], st => st
  | i, n :: vValue, st =>
      subsetPass nTargetValue fTake (i + 1) vValue
        (if fTake st i = true then includeCoin nTargetValue n i st else st)

/-- The two passes of a repetition.  `insecure_rand i` is the bit for entry `i`. -/
def subsetRound (vValue : List Int) (nTargetValue : Int) (insecure_rand : Nat → Bool)
    (st : SubsetState) : SubsetState :=
  let st :=
    { st with vfIncluded := List.replicate vValue.length false, nTotal := 0,
              fReachedTarget := false }
  let st := subsetPass nTargetValue (fun _ i => insecure_rand i) 0 vValue st
  if st.fReachedTarget = true then st
  else
    subsetPass nTargetValue (fun st i => !(st.vfIncluded[i]?).getD false) 0 vValue st

/-- The repetitions. -/
def subsetRounds (vValue : List Int) (nTargetValue : Int)
    (insecure_rand : Nat → Nat → Bool) :
    (iterations nRep : Nat) → SubsetState → SubsetState
  | 0, _, st => st
  | iterations + 1, nRep, st =>
      if st.nBest = nTargetValue then st
      else
        subsetRounds vValue nTargetValue insecure_rand iterations (nRep + 1)
          (subsetRound vValue nTargetValue (insecure_rand nRep) st)

/-- `ApproximateBestSubset`, on the values of the entries: `vfBest` and `nBest`. -/
def ApproximateBestSubset (vValue : List Int) (nTotalLower nTargetValue : Int)
    (insecure_rand : Nat → Nat → Bool) (iterations : Nat) : List Bool × Int :=
  let st := subsetRounds vValue nTargetValue insecure_rand iterations 0
    { vfIncluded := [], nTotal := 0, fReachedTarget := false
      vfBest := List.replicate vValue.length true, nBest := nTotalLower }
  (st.vfBest, st.nBest)

/-! ### The selection -/

/-- `pair<const CWalletTx*, unsigned int>`. -/
abbrev WalletCoin := CWalletTx × Nat

/-- A coin with its value. -/
abbrev ValuedCoin := Int × WalletCoin

/-- The random choices of a selection: the order of the candidates, and the bits
of the two runs of `ApproximateBestSubset`. -/
structure SelectRandom where
  random_shuffle : List COutput → List COutput
  perm : ∀ vCoins, (random_shuffle vCoins).Perm vCoins
  insecure_rand : (run nRep i : Nat) → Bool

/-- The output has enough confirmations. -/
def COutput.isEligible (nConfMine nConfTheirs : Int) (output : COutput) : Bool :=
  decide ((if output.tx.IsFromMe then nConfMine else nConfTheirs) ≤ output.nDepth)

def COutput.coin (output : COutput) : WalletCoin := (output.tx, output.i)

/-- What the loop over the candidates collects.  The lowest larger coin is null
at the start, with the largest 64-bit value. -/
structure CoinLists where
  vValue : List ValuedCoin
  nTotalLower : Int
  coinLowestLarger : Int × Option WalletCoin

def CoinLists.start : CoinLists :=
  { vValue := [], nTotalLower := 0, coinLowestLarger := (2 ^ 63 - 1, none) }

/-- The loop over the candidates, which ends with a coin of the target's value
if there is one. -/
def scanCoins (nTargetValue nConfMine nConfTheirs : Int) :
    List COutput → CoinLists → ValuedCoin ⊕ CoinLists
  | [], lists => .inr lists
  | output :: vCoins, lists =>
      if output.isEligible nConfMine nConfTheirs = false then
        scanCoins nTargetValue nConfMine nConfTheirs vCoins lists
      else
        let n := output.nValue
        if n = nTargetValue then .inl (n, output.coin)
        else if n < int64 (nTargetValue + CENT) then
          scanCoins nTargetValue nConfMine nConfTheirs vCoins
            { lists with
              vValue := lists.vValue ++ [(n, output.coin)]
              nTotalLower := int64 (lists.nTotalLower + n) }
        else if n < lists.coinLowestLarger.1 then
          scanCoins nTargetValue nConfMine nConfTheirs vCoins
            { lists with coinLowestLarger := (n, some output.coin) }
        else scanCoins nTargetValue nConfMine nConfTheirs vCoins lists

/-- Put coins into `setCoinsRet` and their values into `nValueRet`. -/
def addCoins (coins : List ValuedCoin) : List WalletCoin × Int :=
  coins.foldl (fun ret coin => (ret.1.insert coin.2, int64 (ret.2 + coin.1))) ([], 0)

/-- The end of `SelectCoinsMinConf`: the subset, or the next larger coin if that
is closer. -/
def chooseSubset (nTargetValue : Int) (random : SelectRandom) (lists : CoinLists) :
    List WalletCoin × Int :=
  let vValue := lists.vValue.mergeSort fun a b => decide (b.1 ≤ a.1)
  let values := vValue.map Prod.fst
  let best := ApproximateBestSubset values lists.nTotalLower nTargetValue
    (random.insecure_rand 0) 1000
  let best :=
    if best.2 ≠ nTargetValue ∧ int64 (nTargetValue + CENT) ≤ lists.nTotalLower then
      ApproximateBestSubset values lists.nTotalLower (int64 (nTargetValue + CENT))
        (random.insecure_rand 1) 1000
    else best
  match lists.coinLowestLarger with
  | (n, some coin) =>
      if (best.2 ≠ nTargetValue ∧ best.2 < int64 (nTargetValue + CENT)) ∨ n ≤ best.2 then
        addCoins [(n, coin)]
      else addCoins (Lib.pick vValue best.1)
  | (_, none) => addCoins (Lib.pick vValue best.1)

/-- `CWallet::SelectCoinsMinConf`: the coins and their value where it returns
true.  It leaves none and zero where it returns false. -/
def SelectCoinsMinConf (random : SelectRandom) (nTargetValue nConfMine nConfTheirs : Int)
    (vCoins : List COutput) : Option (List WalletCoin × Int) :=
  match scanCoins nTargetValue nConfMine nConfTheirs (random.random_shuffle vCoins)
      .start with
  | .inl coin => some (addCoins [coin])
  | .inr lists =>
      if lists.nTotalLower = nTargetValue then some (addCoins lists.vValue)
      else if lists.nTotalLower < nTargetValue then
        match lists.coinLowestLarger with
        | (_, none) => none
        | (n, some coin) => some (addCoins [(n, coin)])
      else some (chooseSubset nTargetValue random lists)

/-! ### The wallet's coins in a payment -/

/-- `CWallet::SelectCoins`, on an empty set and zero.  Coin control is a choice
of its own; without one there are up to three tries, with their random choices. -/
def SelectCoins (view : WalletView) (bSpendZeroConfChange : Bool)
    (random : (attempt : Nat) → SelectRandom) (nTargetValue : Int)
    (coinControl : Option CCoinControl) : Option (List WalletCoin × Int) :=
  let vCoins := AvailableCoins view true true coinControl
  if coinControl.any CCoinControl.HasSelected = true then
    let ret := addCoins (vCoins.map fun out => (out.nValue, out.coin))
    if nTargetValue ≤ ret.2 then some ret else none
  else
    match SelectCoinsMinConf (random 0) nTargetValue 1 6 vCoins with
    | some ret => some ret
    | none =>
        match SelectCoinsMinConf (random 1) nTargetValue 1 1 vCoins with
        | some ret => some ret
        | none =>
            if bSpendZeroConfChange = true then
              SelectCoinsMinConf (random 2) nTargetValue 0 1 vCoins
            else none

/-- A wallet: its transactions stand under their hashes, and have passed the
check that their outputs are in the money range. -/
structure Wallet (crypto : Crypto) where
  view : WalletView
  hash : ∀ pcoin ∈ view.mapWallet, pcoin.hash = pcoin.tx.GetHash crypto
  distinct : (view.mapWallet.map CWalletTx.hash).Nodup
  inRange : ∀ pcoin ∈ view.mapWallet, ∀ txout ∈ pcoin.tx.vout,
    MoneyRange txout.nValue = true

/-- What a round of a payment finds: the wallet, the random choices of the
selection, and the order of the set of coins, which is the order of addresses. -/
structure SelectionRound (crypto : Crypto) where
  wallet : Wallet crypto
  random : (attempt : Nat) → SelectRandom
  order : List WalletCoin → List WalletCoin
  order_perm : ∀ coins, (order coins).Perm coins

/-- A payment that chooses its coins from a wallet. -/
def CreateCalls.ofWallet (calls : CreateCalls) (bSpendZeroConfChange : Bool)
    (coinControl : Option CCoinControl)
    (rounds : (round : Nat) → SelectionRound calls.crypto) : CreateCalls :=
  { calls with
    SelectCoins := fun round nTargetValue =>
      (Spec.SelectCoins (rounds round).wallet.view bSpendZeroConfChange (rounds round).random
        nTargetValue coinControl).map fun ret =>
          (((rounds round).order ret.1).map fun coin =>
            { wtx := coin.1.tx, n := coin.2 }, ret.2) }

end Ziftrcoin.Spec
