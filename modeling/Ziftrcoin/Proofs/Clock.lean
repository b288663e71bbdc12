/-
Module: Ziftrcoin.Proofs.Clock
Purpose: How the verdict on a block depends on the node's clock, and which of
  the permanent marks of failure do.
Trusted boundary: none
Main exports: TooNew, connectTip_mark_clockFree_iff
-/
import Ziftrcoin.Proofs.Knowledge
import Ziftrcoin.Proofs.Tips

namespace Ziftrcoin.Spec

open Ziftrcoin.Lib
open Ziftrcoin.Lib.Outcome

/-! ### The clock in `CheckBlock` -/

/-- The block is too far ahead of the clock. -/
def TooNew (cfg : Config) (nAdjustedTime : Int) (block : CBlock) : Prop :=
  nAdjustedTime + MAX_BLOCK_TIME_OFFSET < block.nTime ∧
    block.GetHash cfg.crypto ≠ cfg.HashGenesisBlock

instance (cfg : Config) (nAdjustedTime : Int) (block : CBlock) :
    Decidable (TooNew cfg nAdjustedTime block) := by
  unfold TooNew
  infer_instance

/-- The time of the block itself is a clock by which it is not too new. -/
theorem not_tooNew_ownTime (cfg : Config) (block : CBlock) :
    ¬ TooNew cfg block.nTime block := by
  rintro ⟨h, _⟩
  unfold MAX_BLOCK_TIME_OFFSET at h
  omega

/-- Nothing but the question whether the block is too new reads the clock. -/
theorem checkBlock_clock {cfg : Config} {a b : Int} {block : CBlock}
    (h : TooNew cfg a block ↔ TooNew cfg b block) (nMaxBlockSize : Nat)
    (fCheckPOW fCheckMerkleRoot : Bool) :
    CheckBlock cfg a block nMaxBlockSize fCheckPOW fCheckMerkleRoot =
      CheckBlock cfg b block nMaxBlockSize fCheckPOW fCheckMerkleRoot := by
  unfold TooNew at h
  unfold CheckBlock
  simp only [h]

theorem checkPOW_ok (cfg : Config) {block : CBlock} (h : block.vtx ≠ [])
    (fCheckPOW : Bool) : ∃ powOk, checkPOW cfg block fCheckPOW = .ok powOk := by
  unfold checkPOW CBlock.CheckProofOfWork
  obtain ⟨nPoK, hpok⟩ := calculatePoK_ok cfg.crypto h
  split
  · split
    · exact ⟨_, rfl⟩
    · rw [hpok]
      exact ⟨_, rfl⟩
  · exact ⟨_, rfl⟩

/-- A block that is too new is rejected, for this or for an earlier reason. -/
theorem checkBlock_tooNew {cfg : Config} {nAdjustedTime : Int} {block : CBlock}
    (h : TooNew cfg nAdjustedTime block) (nMaxBlockSize : Nat)
    (fCheckPOW fCheckMerkleRoot : Bool) :
    ∃ state, CheckBlock cfg nAdjustedTime block nMaxBlockSize fCheckPOW
      fCheckMerkleRoot = .error (.reject state) := by
  unfold CheckBlock
  simp only [Run.DoS, Run.Invalid, error_bind]
  by_cases hvtx : block.vtx = []
  · rw [if_pos hvtx]
    exact ⟨_, rfl⟩
  obtain ⟨powOk, hpow⟩ := checkPOW_ok cfg hvtx fCheckPOW
  have htime : nAdjustedTime + MAX_BLOCK_TIME_OFFSET < block.nTime ∧
      block.GetHash cfg.crypto ≠ cfg.HashGenesisBlock := h
  rw [if_neg hvtx, hpow, ok_bind, if_pos htime]
  split_ifs
  · exact ⟨_, rfl⟩
  · exact ⟨_, rfl⟩
  · exact ⟨_, rfl⟩

/-! ### The clock in `ConnectBlock` -/

section Connect

variable {cfg : Config} (ctx : BlockContext) {block : CBlock}

theorem connectBlock_tooNew {nAdjustedTime : Int} (h : TooNew cfg nAdjustedTime block)
    (view : CCoinsViewCache) (fJustCheck : Bool) :
    ∃ state, ConnectBlock cfg { ctx with nAdjustedTime } block view fJustCheck =
      .error (.reject state) := by
  obtain ⟨state, hcheck⟩ := checkBlock_tooNew h ctx.nMaxBlockSize (!fJustCheck)
    (!fJustCheck)
  refine ⟨state, ?_⟩
  unfold ConnectBlock
  dsimp only
  rw [hcheck]
  rfl

/-- `connectTx` reads the height, the limit and the index, but not the clock. -/
theorem connectBlock_clock {a b : Int} (h : TooNew cfg a block ↔ TooNew cfg b block)
    (view : CCoinsViewCache) (fJustCheck : Bool) :
    ConnectBlock cfg { ctx with nAdjustedTime := a } block view fJustCheck =
      ConnectBlock cfg { ctx with nAdjustedTime := b } block view fJustCheck := by
  unfold ConnectBlock
  dsimp only
  rw [checkBlock_clock h]
  rfl

end Connect

/-! ### Marks of failure -/

/-- With the clock at `nAdjustedTime`, `ConnectBlock` rejects the block of the
entry in the state of the node. -/
def RejectedAt (cfg : Config) (s : NodeState) (p : Ptr) (nAdjustedTime : Int) : Prop :=
  ∃ pindex state, s.mapBlockIndex[p]? = some pindex ∧
    ConnectBlock cfg (s.blockContext pindex nAdjustedTime) (s.readBlock p) s.pcoinsTip
      false = .error (.reject state)

theorem rejectedAt_clock {cfg : Config} {s : NodeState} {p : Ptr} {a b : Int}
    (h : TooNew cfg a (s.readBlock p) ↔ TooNew cfg b (s.readBlock p))
    (ha : RejectedAt cfg s p a) : RejectedAt cfg s p b := by
  obtain ⟨pindex, state, hentry, hreject⟩ := ha
  refine ⟨pindex, state, hentry, ?_⟩
  have hclock := connectBlock_clock (s.blockContext pindex a) h s.pcoinsTip false
  exact hclock.symm.trans hreject

theorem rejectedAt_of_tooNew {cfg : Config} {s : NodeState} {p : Ptr}
    {pindex : CBlockIndex} {a : Int} (hentry : s.mapBlockIndex[p]? = some pindex)
    (h : TooNew cfg a (s.readBlock p)) : RejectedAt cfg s p a := by
  obtain ⟨state, hreject⟩ := connectBlock_tooNew (s.blockContext pindex a) h
    s.pcoinsTip false
  exact ⟨pindex, state, hentry, hreject⟩

/-- `ConnectTip` marks the entry as failed: it comes back with a rejection that
is certain, and the flag is set. -/
def MarksFailed (cfg : Config) (p : Ptr) (s : NodeState) : Prop :=
  ∃ state s' pindex, ConnectTip cfg p s = .refused state s' ∧ state.IsInvalid = true ∧
    state.CorruptionPossible = false ∧ s'.mapBlockIndex[p]? = some pindex ∧
    pindex.nStatus.failedValid = true

/-- A mark means that the block was rejected with the clock of the moment. -/
theorem MarksFailed.rejectedAt {cfg : Config} {p : Ptr} {s : NodeState}
    (h : MarksFailed cfg p s) : RejectedAt cfg s p (s.ticks 0).nAdjustedTime := by
  obtain ⟨state, s', _, hrun, _⟩ := h
  have hmeets := connectTip_meets cfg p s
  rw [hrun] at hmeets
  cases hmeets with
  | marked entry tip reject => exact ⟨_, _, entry, reject⟩
  | unmarked entry tip reject => exact ⟨_, _, entry, reject⟩

/-- When `ConnectTip` marks an entry as failed, the block would be rejected with
every other clock as well exactly if it was not too new for the clock of the
moment, or breaks another rule. -/
theorem connectTip_mark_clockFree_iff {cfg : Config} {p : Ptr} {s : NodeState}
    (h : MarksFailed cfg p s) :
    (∀ nAdjustedTime, RejectedAt cfg s p nAdjustedTime) ↔
      ¬ TooNew cfg (s.ticks 0).nAdjustedTime (s.readBlock p) ∨
        RejectedAt cfg s p (s.readBlock p).nTime := by
  have hown := not_tooNew_ownTime cfg (s.readBlock p)
  constructor
  · intro hall
    exact .inr (hall _)
  · intro hcond
    have howntime : RejectedAt cfg s p (s.readBlock p).nTime := by
      rcases hcond with hnew | hreject
      · exact rejectedAt_clock (iff_of_false hnew hown) h.rejectedAt
      · exact hreject
    intro nAdjustedTime
    by_cases hnew : TooNew cfg nAdjustedTime (s.readBlock p)
    · obtain ⟨pindex, _, hentry, _⟩ := howntime
      exact rejectedAt_of_tooNew hentry hnew
    · exact rejectedAt_clock (iff_of_false hown hnew) howntime

/-! ### A clock that is put back -/

/-- The clock is right while the block is received, and put back before it is
connected. -/
def putBack : Nat → Tick :=
  fun i => if i < 6 then quiet else { quiet with nAdjustedTime := 1300000000 }

/-- A block of height 1. -/
def firstBlock : CBlock :=
  smallBlock 2 1 (hashOfNonce 1) [coinbaseTx 2 1 [⟨50, anyoneCanSpend⟩]]

/-- The node after it has received the block. -/
def putBackState : NodeState :=
  afterEvents (smallNet (smallGenesis [⟨50, anyoneCanSpend⟩]))
    (started (smallNet (smallGenesis [⟨50, anyoneCanSpend⟩])) putBack)
    [.block 4 true firstBlock]

theorem reachable_putBackState :
    Reachable (smallNet (smallGenesis [⟨50, anyoneCanSpend⟩])) putBackState :=
  reachable_afterEvents (reachable_started (by decide +kernel)) (by decide +kernel)

/-- `MarksFailed` as a test. -/
def marksFailed (cfg : Config) (p : Ptr) (s : NodeState) : Bool :=
  match ConnectTip cfg p s with
  | .refused state s' => state.IsInvalid && !state.CorruptionPossible &&
      s'.mapBlockIndex[p]?.any fun pindex => pindex.nStatus.failedValid
  | _ => false

theorem marksFailed_of_test {cfg : Config} {p : Ptr} {s : NodeState}
    (h : marksFailed cfg p s = true) : MarksFailed cfg p s := by
  unfold marksFailed at h
  cases hrun : ConnectTip cfg p s with
  | done a s' => simp [hrun] at h
  | faulted e => simp [hrun] at h
  | refused state s' =>
      simp only [hrun, Bool.and_eq_true, Bool.not_eq_true', Option.any_eq_true] at h
      obtain ⟨⟨hinvalid, hcertain⟩, pindex, hentry, hflag⟩ := h
      exact ⟨state, s', pindex, hrun, hinvalid, hcertain, hentry, hflag⟩

/-- The next attempt with the clock still behind would set the mark again, and
here the clock is all that the block fails for. -/
theorem connectTip_mark_putBackState :
    MarksFailed (smallNet (smallGenesis [⟨50, anyoneCanSpend⟩])) 1 putBackState ∧
      ((∀ nAdjustedTime, RejectedAt (smallNet (smallGenesis [⟨50, anyoneCanSpend⟩]))
          putBackState 1 nAdjustedTime) ↔
        ¬ TooNew (smallNet (smallGenesis [⟨50, anyoneCanSpend⟩]))
            (putBackState.ticks 0).nAdjustedTime (putBackState.readBlock 1) ∨
          RejectedAt (smallNet (smallGenesis [⟨50, anyoneCanSpend⟩])) putBackState 1
            (putBackState.readBlock 1).nTime) := by
  have hmarks : MarksFailed (smallNet (smallGenesis [⟨50, anyoneCanSpend⟩])) 1
      putBackState := marksFailed_of_test (by decide +kernel)
  exact ⟨hmarks, connectTip_mark_clockFree_iff hmarks⟩

theorem not_rejectedAt_of_isOk {cfg : Config} {s : NodeState} {p : Ptr}
    {nAdjustedTime : Int}
    (h : (s.mapBlockIndex[p]?.all fun pindex =>
      (ConnectBlock cfg (s.blockContext pindex nAdjustedTime) (s.readBlock p)
        s.pcoinsTip false).isOk) = true) : ¬ RejectedAt cfg s p nAdjustedTime := by
  rintro ⟨pindex, state, hentry, hreject⟩
  rw [hentry, Option.all_some, hreject] at h
  cases h

/-- A node whose clock is put back before it connects a block marks the block
as failed for ever, although the block connects on the same view with the right
clock. -/
theorem markedByClock_putBackState :
    Reachable (smallNet (smallGenesis [⟨50, anyoneCanSpend⟩])) putBackState ∧
      (putBackState.mapBlockIndex[1]?.map fun pindex =>
        pindex.nStatus.failedValid) = some true ∧
      MarksFailed (smallNet (smallGenesis [⟨50, anyoneCanSpend⟩])) 1 putBackState ∧
      ¬ ∀ nAdjustedTime, RejectedAt (smallNet (smallGenesis [⟨50, anyoneCanSpend⟩]))
        putBackState 1 nAdjustedTime := by
  refine ⟨reachable_putBackState, by decide +kernel,
    marksFailed_of_test (by decide +kernel), fun hall => ?_⟩
  exact not_rejectedAt_of_isOk (by decide +kernel) (hall quiet.nAdjustedTime)

end Ziftrcoin.Spec
