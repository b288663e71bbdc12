/-
Module: Ziftrcoin.Spec.ForkWarnings
Purpose: The warnings about long forks and about invalid chains with more work.
Trusted boundary: human-reviewed model of IsInitialBlockDownload,
  CheckForkWarningConditions, CheckForkWarningConditionsOnNewFork and
  InvalidChainFound in src/main.cpp
Main exports: ForkState, forkBase, CheckForkWarningConditions
-/
import Ziftrcoin.Spec.Chain

namespace Ziftrcoin.Spec

def FORK_HEIGHT_DIFF_ALERT : Int := 360

/-- `CBlockIndex::GetBlockWork`. -/
def CBlockIndex.GetBlockWork (pindex : CBlockIndex) : Nat :=
  let bnTarget := SetCompact pindex.nBits
  if bnTarget ≤ 0 then 0 else 2 ^ 256 / (bnTarget.toNat + 1)

/-! ### State -/

/-- What stops a call: a null pointer that is dereferenced, or a loop that has
not come to its end. -/
inductive ForkFault where
  | chainTip
  | bestForkBase
  | blockIndex
  | outOfFuel
deriving Repr, DecidableEq

/-- The globals that the warnings read and write, and the static variables of
`IsInitialBlockDownload`. -/
structure ForkState where
  mapBlockIndex : BlockTree
  chainActive : CChain
  pindexBestInvalid : Option Ptr
  fLargeWorkForkFound : Bool
  fLargeWorkInvalidChainFound : Bool
  pindexBestForkTip : Option Ptr
  pindexBestForkBase : Option Ptr
  nLastUpdate : Int
  pindexLastBest : Option Ptr

/-- The globals at the start. -/
def ForkState.initial : ForkState :=
  { mapBlockIndex := [], chainActive := .empty, pindexBestInvalid := none
    fLargeWorkForkFound := false, fLargeWorkInvalidChainFound := false
    pindexBestForkTip := none, pindexBestForkBase := none
    nLastUpdate := 0, pindexLastBest := none }

/-- What a call sees of the world outside: the import of blocks, and the times
that it gets from the clock one after the other. -/
structure Moment where
  fImporting : Bool
  fReindex : Bool
  GetTime : Nat → Int

/-- The settings: the height of the last checkpoint, and whether there is a
command under `-alertnotify`. -/
structure ForkConfig where
  nTotalBlocksEstimate : Nat
  fAlertNotify : Bool

namespace ForkState

def height (s : ForkState) (p : Ptr) : Int :=
  ((s.mapBlockIndex[p]?).map fun pindex => (pindex.nHeight : Int)).getD 0

def chainWork (s : ForkState) (p : Ptr) : Nat :=
  ((s.mapBlockIndex[p]?).map CBlockIndex.nChainWork).getD 0

/-- `getuint256` of the work of so many blocks like the one at `p`. -/
def blockWork (s : ForkState) (p : Ptr) (n : Nat) : Nat :=
  ((s.mapBlockIndex[p]?).map CBlockIndex.GetBlockWork).getD 0 * n % 2 ^ 256

/-- `IsInitialBlockDownload`, with the static variables after it. -/
def IsInitialBlockDownload (cfg : ForkConfig) (now : Moment) (s : ForkState) :
    Except ForkFault (Bool × ForkState) :=
  if now.fImporting = true ∨ now.fReindex = true ∨
      s.chainActive.Height < cfg.nTotalBlocksEstimate then .ok (true, s)
  else
    let s :=
      if s.chainActive.Tip ≠ s.pindexLastBest then
        { s with pindexLastBest := s.chainActive.Tip, nLastUpdate := now.GetTime 0 }
      else s
    if now.GetTime 1 - s.nLastUpdate < 10 then
      match s.mapBlockIndex.deref s.chainActive.Tip with
      | none => .error .chainTip
      | some tip =>
          .ok (decide ((tip.nTime : Int) < now.GetTime 2 - 24 * 60 * 60), s)
    else .ok (false, s)

/-! ### Warnings -/

/-- The best fork is too far behind. -/
def forkIsOld (s : ForkState) : Bool :=
  match s.pindexBestForkTip with
  | none => false
  | some p => decide (FORK_HEIGHT_DIFF_ALERT ≤ s.chainActive.Height - s.height p)

/-- The best fork is dropped when it is too far behind. -/
def dropFork (s : ForkState) : ForkState :=
  if s.forkIsOld = true then { s with pindexBestForkTip := none } else s

/-- An invalid chain has more work than the active one and six blocks. -/
def invalidAhead (s : ForkState) : Except ForkFault Bool :=
  match s.pindexBestInvalid with
  | none => .ok false
  | some p =>
      match s.chainActive.Tip with
      | none => .error .chainTip
      | some tip =>
          .ok (decide ((s.chainWork tip + s.blockWork tip 6) % 2 ^ 256 < s.chainWork p))

/-- The condition of the warning. -/
def warns (s : ForkState) : Except ForkFault Bool :=
  if s.pindexBestForkTip ≠ none then .ok true else s.invalidAhead

/-- The branch of the warning dereferences `pindexBestForkBase`, for the command
or for the log. -/
def readsForkBase (cfg : ForkConfig) (s : ForkState) : Bool :=
  (!s.fLargeWorkForkFound && cfg.fAlertNotify) || s.pindexBestForkTip.isSome

/-- The branch of the warning. -/
def warn (cfg : ForkConfig) (s : ForkState) : Except ForkFault ForkState :=
  if s.readsForkBase cfg = true ∧ s.pindexBestForkBase = none then
    .error .bestForkBase
  else if s.pindexBestForkTip ≠ none then
    .ok { s with fLargeWorkForkFound := true }
  else .ok { s with fLargeWorkInvalidChainFound := true }

/-- `CheckForkWarningConditions`. -/
def CheckForkWarningConditions (cfg : ForkConfig) (now : Moment) (s : ForkState) :
    Except ForkFault ForkState := do
  let (fInitialDownload, s) ← s.IsInitialBlockDownload cfg now
  if fInitialDownload then return s
  let s := s.dropFork
  if ← s.warns then s.warn cfg
  else
    return { s with
      fLargeWorkForkFound := false, fLargeWorkInvalidChainFound := false }

end ForkState

/-! ### Forks -/

/-- The inner loop: go down to a height. -/
def goDown (tree : BlockTree) (nHeight : Nat) : (fuel : Nat) → Option Ptr →
    Except ForkFault (Option Ptr)
  | 0, _ => .error .outOfFuel
  | _ + 1, none => .ok none
  | fuel + 1, some p =>
      match tree[p]? with
      | none => .error .blockIndex
      | some pindex =>
          if nHeight < pindex.nHeight then goDown tree nHeight fuel pindex.pprev
          else .ok (some p)

/-- The loop that looks for the common ancestor. -/
def forkBase (tree : BlockTree) : (fuel : Nat) → (pfork plonger : Option Ptr) →
    Except ForkFault (Option Ptr)
  | 0, _, _ => .error .outOfFuel
  | _ + 1, none, _ => .ok none
  | fuel + 1, some p, plonger =>
      if some p = plonger then .ok (some p)
      else
        match tree[p]? with
        | none => .error .blockIndex
        | some pindex => do
            let plonger ← goDown tree pindex.nHeight (fuel + 1) plonger
            if some p = plonger then .ok (some p)
            else forkBase tree fuel pindex.pprev plonger

namespace ForkState

/-- The fork from `pfork` is longer than seven blocks and not far behind, and
higher than the best one so far. -/
def isBestFork (s : ForkState) (pindexNewForkTip pfork : Ptr) : Bool :=
  (match s.pindexBestForkTip with
    | none => true
    | some best => decide (s.height best < s.height pindexNewForkTip)) &&
  decide (s.blockWork pfork 7 <
    (s.chainWork pindexNewForkTip + 2 ^ 256 - s.chainWork pfork) % 2 ^ 256) &&
  decide (s.chainActive.Height - s.height pindexNewForkTip < FORK_HEIGHT_DIFF_ALERT)

/-- `CheckForkWarningConditionsOnNewFork`, up to the check at its end. -/
def noteFork (fuel : Nat) (pindexNewForkTip : Ptr) (s : ForkState) :
    Except ForkFault ForkState := do
  let pfork ← forkBase s.mapBlockIndex fuel (some pindexNewForkTip) s.chainActive.Tip
  match pfork with
  | none => return s
  | some pfork =>
      if s.isBestFork pindexNewForkTip pfork = true then
        return { s with
          pindexBestForkTip := some pindexNewForkTip
          pindexBestForkBase := some pfork }
      else return s

/-- `InvalidChainFound`, up to the check at its end.  The log names the tip of
the active chain. -/
def noteInvalid (pindexNew : Ptr) (s : ForkState) : Except ForkFault ForkState :=
  let s :=
    if s.pindexBestInvalid.all fun best => s.chainWork best < s.chainWork pindexNew then
      { s with pindexBestInvalid := some pindexNew }
    else s
  match s.chainActive.Tip with
  | none => .error .chainTip
  | some _ => .ok s

end ForkState

/-! ### Events -/

/-- What happens to the globals.  `move` stands for all that the rest of the
program does to the index, the active chain, `pindexBestInvalid` and the static
variables. -/
inductive ForkEvent where
  | move (tree : BlockTree) (chain : CChain) (pindexBestInvalid : Option Ptr)
      (nLastUpdate : Int) (pindexLastBest : Option Ptr)
  | newTip (now : Moment)
  | newFork (now : Moment) (fuel : Nat) (pindexNewForkTip : Ptr)
  | invalidChainFound (now : Moment) (pindexNew : Ptr)

namespace ForkState

/-- The state that an event leads to, up to the check of the warnings at its
end, and the moment of that check. -/
def note (s : ForkState) : ForkEvent → Except ForkFault (ForkState × Option Moment)
  | .move mapBlockIndex chainActive pindexBestInvalid nLastUpdate pindexLastBest =>
      .ok ({ s with mapBlockIndex, chainActive, pindexBestInvalid, nLastUpdate,
                    pindexLastBest }, none)
  | .newTip now => .ok (s, some now)
  | .newFork now fuel p => do return (← s.noteFork fuel p, some now)
  | .invalidChainFound now p => do return (← s.noteInvalid p, some now)

/-- What an event does to the globals. -/
def handle (cfg : ForkConfig) (s : ForkState) (event : ForkEvent) :
    Except ForkFault ForkState := do
  match ← s.note event with
  | (s, none) => return s
  | (s, some now) => s.CheckForkWarningConditions cfg now

end ForkState

end Ziftrcoin.Spec
