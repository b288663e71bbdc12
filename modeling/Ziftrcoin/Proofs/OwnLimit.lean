/-
Module: Ziftrcoin.Proofs.OwnLimit
Purpose: A block that fits the size limit of its own branch, received by a node
  whose active chain has another limit.
Trusted boundary: none
Main exports: Refuses, processBlock_size_iff
-/
import Ziftrcoin.Proofs.LongChain
import Ziftrcoin.Proofs.Receiving
import Ziftrcoin.Proofs.SizeLimits
import Ziftrcoin.Proofs.Tips

namespace Ziftrcoin.Spec

open Ziftrcoin.Lib
open Ziftrcoin.Lib.Outcome

/-! ### What a call refuses with -/

/-- The call refuses only with states that satisfy `P`. -/
def Refuses {α : Type} (P : CValidationState → Prop) (x : Node α) : Prop :=
  ∀ s, (x s).Meets (fun _ _ => True) (fun state _ => P state) fun _ => True

namespace Refuses

variable {α β : Type} {P Q : CValidationState → Prop} {x : Node α}

theorem bind {f : α → Node β} (hx : Refuses P x) (hf : ∀ a, Refuses P (f a)) :
    Refuses P (x >>= f) :=
  fun s => Meets.bind (hx s) fun a s' _ => hf a s'

theorem pure (a : α) : Refuses P (Pure.pure a : Node α) := fun _ => trivial

theorem get : Refuses P (Machine.get : Node NodeState) := fun _ => trivial

theorem modify (f : NodeState → NodeState) : Refuses P (Machine.modify f) :=
  fun _ => trivial

theorem fault (e : Fault) : Refuses P (Machine.fault e : Node α) := fun _ => trivial

theorem refuse {state : CValidationState} (h : P state) :
    Refuses P (Machine.refuse state : Node α) := fun _ => h

theorem ite {c : Prop} [Decidable c] {y : Node α} (hx : c → Refuses P x)
    (hy : ¬ c → Refuses P y) : Refuses P (if c then x else y) :=
  fun s => Meets.ite (fun h => hx h s) fun h => hy h s

theorem attempt (h : Refuses Q x) : Refuses P (Machine.attempt x) :=
  fun s => Meets.attempt (Meets.mono (h s) (fun _ _ _ => trivial) (fun _ _ _ => trivial)
    fun _ _ => trivial)

theorem mono (h : Refuses Q x) (hPQ : ∀ state, Q state → P state) : Refuses P x :=
  fun s => Meets.mono (h s) (fun _ _ h => h) (fun state _ => hPQ state) fun _ h => h

theorem ofRun {r : Run α} (h : Errs (fun e => ∀ state, e = .reject state → P state) r) :
    Refuses P (Node.ofRun r) := by
  intro s
  cases r with
  | ok a => trivial
  | error e =>
      cases e with
      | reject state => exact h _ rfl state rfl
      | fault e => trivial

end Refuses

theorem refuses_tick {P : CValidationState → Prop} : Refuses P Node.tick :=
  fun _ => trivial

theorem refuses_deref {P : CValidationState → Prop} (pindex : Option Ptr) :
    Refuses P (Node.deref pindex) := by
  apply Refuses.get.bind
  intro s
  cases s.mapBlockIndex.deref pindex with
  | none => exact Refuses.fault _
  | some entry => exact Refuses.pure entry

/-! ### Activating the best chain -/

/-- The state does not say that a block is invalid. -/
def NoVerdict (state : CValidationState) : Prop := state.IsInvalid = false

theorem noVerdict_initial : NoVerdict .initial := rfl

theorem noVerdict_disconnectTxs {crypto : Crypto} {nHeight : Nat} {acc : DisconnectState} :
    ∀ {txs : List (CTransaction × Option CTxUndo)},
      Errs (fun e => ∀ state, e = .reject state → NoVerdict state)
        (disconnectTxs crypto nHeight acc txs)
  | [] => Errs.ok acc
  | (tx, txundo) :: rest => by
      rw [disconnectTxs]
      refine noVerdict_disconnectTxs.bind fun acc _ => ?_
      unfold disconnectTx
      cases txundo with
      | none => exact Errs.ok _
      | some vprevout =>
          refine Errs.ite (fun _ => Errs.error ?_) fun _ => Errs.ok _
          rintro state ⟨⟩
          exact noVerdict_initial

theorem noVerdict_disconnectBlock (crypto : Crypto) (ctx : BlockContext) (block : CBlock)
    (blockUndo : Option CBlockUndo) (view : CCoinsViewCache) :
    Errs (fun e => ∀ state, e = .reject state → NoVerdict state)
      (DisconnectBlock crypto ctx block blockUndo view) := by
  have hcrash : ∀ {α : Type} (site : Site),
      Errs (fun e => ∀ state, e = .reject state → NoVerdict state)
        (Run.crash site : Run α) := fun site => Errs.error fun _ h => nomatch h
  have hfail : ∀ {α : Type}, Errs (fun e => ∀ state, e = .reject state → NoVerdict state)
      (Run.fail : Run α) := by
    refine Errs.error ?_
    rintro state ⟨⟩
    exact noVerdict_initial
  unfold DisconnectBlock
  refine Errs.bind (Errs.ite (fun _ => Errs.ok ()) fun _ => hcrash _) fun _ _ => ?_
  cases blockUndo with
  | none => exact hfail
  | some vtxundo =>
      cases ctx.hashPrev with
      | none => exact hcrash _
      | some hashPrev =>
          refine Errs.ite (fun _ => hfail) fun _ => ?_
          exact noVerdict_disconnectTxs.bind fun _ _ => Errs.ok _

theorem refuses_of_movesPool {P : CValidationState → Prop} {x : Node Unit}
    (h : ∀ s, MovesPool x s) : Refuses P x :=
  fun s => Meets.mono (h s) (fun _ _ _ => trivial) (fun _ _ h => h.elim) fun _ h => h

theorem refuses_disconnectTip (cfg : Config) : Refuses NoVerdict (DisconnectTip cfg) := by
  apply Refuses.get.bind
  intro s
  cases s.chainActive.Tip with
  | none => exact Refuses.fault _
  | some p =>
      refine (refuses_deref _).bind fun pindexDelete => ?_
      refine (Refuses.ofRun (noVerdict_disconnectBlock _ _ _ _ _)).bind fun r => ?_
      refine Refuses.ite (fun _ => .refuse noVerdict_initial) fun _ => ?_
      refine (Refuses.modify _).bind fun _ => ?_
      refine Refuses.bind ?_ fun _ => ?_
      · exact refuses_tick.bind fun _ => .ite (fun _ => .modify _) fun _ => .pure ()
      · refine (refuses_of_movesPool fun s => MovesPool.forM (movesPool_resurrect cfg)).bind
          fun _ => ?_
        exact Refuses.modify _

theorem refuses_invalidChainFound {P : CValidationState → Prop} (p : Ptr) :
    Refuses P (InvalidChainFound p) :=
  fun s => Meets.mono (invalidChainFound_meets p s) (fun _ _ _ => trivial)
    (fun _ _ h => h.elim) fun _ h => h

theorem refuses_dropFailedTips {P : CValidationState → Prop} (cfg : Config) (fuel : Nat) :
    Refuses P (dropFailedTips cfg fuel) := by
  induction fuel with
  | zero => exact Refuses.fault _
  | succ fuel ih =>
      apply Refuses.get.bind
      intro s
      split
      · refine Refuses.ite (fun _ => ?_) fun _ => .pure ()
        exact (Refuses.modify _).bind fun _ => (Refuses.modify _).bind fun _ => ih
      · exact Refuses.pure ()

theorem rejects_findFailed {P : CValidationState → Prop} {s : NodeState} :
    ∀ {fuel : Nat} {pindexTest : Option Ptr},
      Errs (fun e => ∀ state, e = .reject state → P state) (findFailed s fuel pindexTest)
  | 0, _ => Errs.error fun _ h => nomatch h
  | fuel + 1, pindexTest => by
      unfold findFailed
      split
      · refine Errs.ite (fun _ => Errs.ok _) fun _ => ?_
        exact Errs.ite (fun _ => Errs.ok _) fun _ => rejects_findFailed
      · exact Errs.ok _

theorem refuses_markFailedChildren {P : CValidationState → Prop} (pindexTest : Ptr)
    (fuel : Nat) (pindexFailed : Option Ptr) :
    Refuses P (markFailedChildren pindexTest fuel pindexFailed) := by
  induction fuel generalizing pindexFailed with
  | zero => exact Refuses.fault _
  | succ fuel ih =>
      refine Refuses.ite (fun _ => .pure ()) fun _ => ?_
      cases pindexFailed with
      | none => exact Refuses.fault _
      | some p =>
          refine (refuses_deref _).bind fun entry => ?_
          exact (Refuses.modify _).bind fun _ => ih _

theorem refuses_findCandidate {P : CValidationState → Prop} (fuel : Nat) :
    Refuses P (findCandidate fuel) := by
  induction fuel with
  | zero => exact Refuses.fault _
  | succ fuel ih =>
      apply Refuses.get.bind
      intro s
      cases s.rbegin with
      | none => exact Refuses.pure none
      | some pindexNew =>
          refine (refuses_deref _).bind fun entry => ?_
          refine (Refuses.ofRun rejects_findFailed).bind fun failed => ?_
          cases failed with
          | none => exact Refuses.pure _
          | some pindexTest =>
              have hrest : Refuses P (do
                  markFailedChildren pindexTest (entry.nHeight + 2) (some pindexNew)
                  findCandidate fuel) :=
                (refuses_markFailedChildren _ _ _).bind fun _ => ih
              exact Refuses.ite (fun _ => (Refuses.modify _).bind fun _ => hrest)
                fun _ => hrest

theorem refuses_findMostWorkChain {P : CValidationState → Prop} (cfg : Config) :
    Refuses P (FindMostWorkChain cfg) := by
  apply Refuses.get.bind
  intro s
  refine (refuses_dropFailedTips cfg _).bind fun _ => ?_
  refine Refuses.get.bind fun s => ?_
  refine (refuses_findCandidate _).bind fun candidate => ?_
  cases candidate with
  | none => exact Refuses.pure ()
  | some pindexNew =>
      refine Refuses.get.bind fun s => ?_
      cases s.chainMostWork.Tip with
      | none => exact Refuses.modify _
      | some tip => exact Refuses.ite (fun _ => .modify _) fun _ => .pure ()

theorem refuses_disconnectLoop (cfg : Config) (fuel : Nat) :
    Refuses NoVerdict (disconnectLoop cfg fuel) := by
  induction fuel with
  | zero => exact Refuses.fault _
  | succ fuel ih =>
      apply Refuses.get.bind
      intro s
      cases s.chainActive.Tip with
      | none => exact Refuses.pure ()
      | some tip =>
          refine Refuses.ite (fun _ => ?_) fun _ => .pure ()
          exact (refuses_disconnectTip cfg).bind fun _ => ih

/-- A block that is found invalid is not what the call reports. -/
theorem refuses_connectLoop (cfg : Config) (tip : Ptr) (fuel : Nat) :
    Refuses NoVerdict (connectLoop cfg tip fuel) := by
  induction fuel with
  | zero => exact Refuses.fault _
  | succ fuel ih =>
      apply Refuses.get.bind
      intro s
      refine Refuses.ite (fun _ => .pure true) fun _ => ?_
      cases s.chainMostWork.atHeight s.chainActive.vChain.length with
      | none => exact Refuses.fault _
      | some pindexConnect =>
          have hconnect : Refuses (fun _ => True) (ConnectTip cfg pindexConnect) :=
            fun u => Meets.mono (connectTip_meets cfg pindexConnect u) (fun _ _ _ => trivial)
              (fun _ _ _ => trivial) fun _ h => h
          refine hconnect.attempt.bind fun connected => ?_
          cases connected with
          | ok _ => exact ih
          | error state =>
              refine Refuses.ite (fun _ => ?_) fun hvalid => ?_
              · exact Refuses.ite (fun _ => (refuses_invalidChainFound tip).bind
                  fun _ => .pure false) fun _ => .pure false
              · exact Refuses.refuse (Bool.eq_false_of_not_eq_true hvalid)

theorem refuses_activateBestChain (cfg : Config) (fuel : Nat) :
    Refuses NoVerdict (ActivateBestChain cfg fuel) := by
  induction fuel with
  | zero => exact Refuses.fault _
  | succ fuel ih =>
      have hround : Refuses NoVerdict (activateRound cfg) := by
        refine (refuses_findMostWorkChain cfg).bind fun _ => ?_
        refine Refuses.get.bind fun s => ?_
        cases s.chainMostWork.Tip with
        | none => exact Refuses.pure true
        | some tip =>
            exact (refuses_disconnectLoop cfg _).bind fun _ => refuses_connectLoop cfg tip _
      refine hround.bind fun fComplete => ?_
      exact Refuses.ite (fun _ => ih) fun _ => .pure ()

/-! ### Accepting a block -/

/-- The block has been found too large, or to have too many signature
operations. -/
def ForSize (state : CValidationState) : Prop :=
  state.IsInvalid = true ∧ (state.strRejectReason = "bad-blk-length" ∨
    state.strRejectReason = "bad-blk-sigops")

def NotForSize (state : CValidationState) : Prop := ¬ ForSize state

theorem NoVerdict.notForSize {state : CValidationState} (h : NoVerdict state) :
    NotForSize state := by
  intro hsize
  exact Bool.false_ne_true (h.symm.trans hsize.1)

theorem notForSize_DoS {reason : String} (level : Nat) (code : RejectCode) (corruption : Bool)
    (h : reason ∉ ["bad-blk-length", "bad-blk-sigops"]) :
    NotForSize (.DoS level code reason corruption) := by
  rintro ⟨_, hreason | hreason⟩
  · exact h (hreason ▸ List.mem_cons_self)
  · exact h (hreason ▸ List.mem_cons_of_mem _ List.mem_cons_self)

/-- The program does not reject a block for its size. -/
def SizeBlind {α : Type} (x : Run α) : Prop :=
  Errs (fun e => ∀ state, e = .reject state → NotForSize state) x

theorem sizeBlind_reject {α : Type} {state : CValidationState} (h : NotForSize state) :
    SizeBlind (.error (.reject state) : Run α) := by
  refine Errs.error ?_
  rintro state' ⟨⟩
  exact h

/-- A check with another reason. -/
theorem sizeBlind_guard {α : Type} {c : Prop} [Decidable c] {state : CValidationState}
    {y : Run α} (hstate : NotForSize state) (h : ¬ c → SizeBlind y) :
    SizeBlind (if c then .error (.reject state) else y) :=
  Errs.ite (fun _ => sizeBlind_reject hstate) h

theorem sizeBlind_crash {α : Type} (site : Site) : SizeBlind (Run.crash site : Run α) :=
  Errs.error fun _ h => nomatch h

/-- A program that stops only where it reads without a check rejects nothing. -/
theorem sizeBlind_of_crashesAt {α : Type} {site : Site} {x : Run α}
    (h : Errs (CrashesAt site) x) : SizeBlind x := by
  refine h.mono ?_
  rintro e rfl state hreject
  exact nomatch hreject

theorem sizeBlind_acceptChecks (cfg : Config) (s : NodeState) (nAdjustedTime : Int)
    (block : CBlock) : SizeBlind (acceptChecks cfg s nAdjustedTime block) := by
  unfold acceptChecks
  cases s.mapBlockIndex.find block.hashPrevBlock with
  | none => exact sizeBlind_reject (notForSize_DoS _ _ _ (by decide))
  | some pPrev =>
      refine Errs.bind (sizeBlind_of_crashesAt (crashesAt_getNextWorkRequired _ _ _ _))
        fun nBits _ => ?_
      refine sizeBlind_guard (notForSize_DoS _ _ _ (by decide)) fun _ => ?_
      refine sizeBlind_guard (notForSize_DoS _ _ _ (by decide)) fun _ => ?_
      refine sizeBlind_guard (notForSize_DoS _ _ _ (by decide)) fun _ => ?_
      refine sizeBlind_guard (notForSize_DoS _ _ _ (by decide)) fun _ => ?_
      refine sizeBlind_guard (notForSize_DoS _ _ _ (by decide)) fun _ => ?_
      refine Errs.bind (sizeBlind_of_crashesAt (crashesAt_coinbaseHeightOk block _))
        fun fHeight _ => ?_
      exact sizeBlind_guard (notForSize_DoS _ _ _ (by decide)) fun _ => Errs.ok ()

theorem sizeBlind_getTxHash (block : CBlock) (nIndex : Nat) :
    SizeBlind (block.GetTxHash nIndex) := by
  have hassert : ∀ (site : Site) (c : Prop) [Decidable c], SizeBlind (Run.assert site c) :=
    fun site c _ => Errs.ite (fun _ => Errs.ok ()) fun _ => sizeBlind_crash site
  refine Errs.bind (hassert _ _) fun _ _ => ?_
  exact Errs.bind (hassert _ _) fun _ _ => sizeBlind_of_crashesAt (crashesAt_get _ _ _)

theorem refuses_addToBlockIndex (cfg : Config) (fuel : Nat) (block : CBlock) :
    Refuses NotForSize (AddToBlockIndex cfg fuel block) := by
  apply Refuses.get.bind
  intro s
  refine Refuses.ite (fun _ => .refuse (notForSize_DoS _ _ _ (by decide))) fun _ => ?_
  refine refuses_tick.bind fun t => ?_
  refine Refuses.get.bind fun s => ?_
  refine Refuses.bind (Refuses.ofRun
    (sizeBlind_of_crashesAt (crashesAt_countMatureCoins _ _ _ _))) fun nMatureCoinsSpent => ?_
  refine (Refuses.modify _).bind fun _ => ?_
  refine Refuses.bind ((refuses_activateBestChain cfg fuel).mono
    fun _ h => h.notForSize) fun _ => ?_
  refine Refuses.get.bind fun s' => ?_
  refine Refuses.ite (fun _ => ?_) fun _ => .pure ()
  exact (Refuses.ofRun (sizeBlind_getTxHash block 0)).bind fun _ => .pure ()

theorem refuses_acceptBlock (cfg : Config) (fuel : Nat) (block : CBlock) :
    Refuses NotForSize (AcceptBlock cfg fuel block) := by
  have hadd : Refuses NotForSize (do
      AddToBlockIndex cfg fuel block
      let s ← Machine.get
      let _ ← Node.deref s.chainActive.Tip : Node Unit) := by
    refine (refuses_addToBlockIndex cfg fuel block).bind fun _ => ?_
    exact Refuses.get.bind fun s => (refuses_deref _).bind fun _ => .pure ()
  apply Refuses.get.bind
  intro s
  refine Refuses.ite (fun _ => .refuse (notForSize_DoS _ _ _ (by decide))) fun _ => ?_
  refine Refuses.ite (fun _ => ?_) fun _ => hadd
  refine refuses_tick.bind fun t => ?_
  exact (Refuses.ofRun (sizeBlind_acceptChecks cfg s _ block)).bind fun _ => hadd

theorem refuses_acceptOrphans {P : CValidationState → Prop} (cfg : Config) (fuel : Nat)
    (orphans : List COrphanBlock) : Refuses P (acceptOrphans cfg fuel orphans) := by
  induction orphans with
  | nil => exact Refuses.pure []
  | cons orphan rest ih =>
      refine (refuses_acceptBlock cfg fuel _).attempt.bind fun accepted => ?_
      refine ih.bind fun hashes => ?_
      cases accepted with
      | ok _ => exact Refuses.pure _
      | error _ => exact Refuses.pure _

theorem refuses_processOrphans {P : CValidationState → Prop} (cfg : Config)
    (fuel rounds : Nat) (vWorkQueue : List uint256) :
    Refuses P (processOrphans cfg fuel rounds vWorkQueue) := by
  induction rounds generalizing vWorkQueue with
  | zero =>
      cases vWorkQueue with
      | nil => exact Refuses.pure ()
      | cons hashPrev vWorkQueue => exact Refuses.fault _
  | succ rounds ih =>
      cases vWorkQueue with
      | nil => exact Refuses.pure ()
      | cons hashPrev vWorkQueue =>
          apply Refuses.get.bind
          intro s
          refine (refuses_acceptOrphans cfg fuel _).bind fun hashes => ?_
          exact (Refuses.modify _).bind fun _ => ih _

theorem refuses_addOrphan {P : CValidationState → Prop} (cfg : Config) (block : CBlock) :
    Refuses P (addOrphan cfg block) := by
  refine Refuses.bind ?_ fun _ => .modify _
  apply Refuses.get.bind
  intro s
  refine Refuses.ite (fun _ => ?_) fun _ => .pure ()
  refine refuses_tick.bind fun t => ?_
  split
  · exact Refuses.pure ()
  · exact Refuses.modify _

/-! ### Another limit -/

/-- A block that is checked with one limit can only fail a check with another
limit because of that limit. -/
theorem checkBlock_limit {cfg : Config} {nAdjustedTime : Int} {block block' : CBlock}
    {nMaxBlockSize : Nat} {fCheckPOW fCheckMerkleRoot : Bool}
    (h : CheckBlock cfg nAdjustedTime block nMaxBlockSize fCheckPOW fCheckMerkleRoot =
      .ok block') (nLimit : Nat) :
    CheckBlock cfg nAdjustedTime block nLimit fCheckPOW fCheckMerkleRoot =
      if nLimit < block.vtx.length ∨ nLimit < block.GetSerializeSize then
        Run.DoS 100 .REJECT_INVALID "bad-blk-length" false
      else if MaxBlockSizeToSigOps nLimit < (block.vtx.map GetSigOpCount).sum then
        Run.DoS 100 .REJECT_INVALID "bad-blk-sigops" true
      else .ok block' := by
  unfold CheckBlock at h ⊢
  simp only [Run.DoS, Run.Invalid, guard_eq_ok, error_bind, bind_eq_ok, pure_eq_ok,
    Except.ok.injEq] at h
  obtain ⟨hvtx, _, powOk, hpow, hpowOk, htime, hfirst, hothers, ⟨⟩, htxs, hashes, hhashes,
    hnodup, _, hroot, rfl⟩ := h
  have hsame : (block.BuildMerkleTree cfg.crypto).vtx = block.vtx := rfl
  simp only [Run.DoS, Run.Invalid, error_bind, if_neg hvtx, hpow, ok_bind, if_neg hpowOk,
    if_neg htime, if_neg hfirst, if_neg hothers, htxs, hhashes, if_neg hnodup, if_neg hroot,
    hsame]
  rfl

/-! ### The limit of a branch -/

/-- The limit for the block after a list of blocks that starts with the first
one of the chain. -/
def branchLimit (ancestors : List CBlock) : Nat :=
  limitOfPeriod (fun i => (ancestors[i]?.map CBlock.GetSerializeSize).getD 0)
    (ancestors.length / MAX_BLOCK_SIZE_RECALC_PERIOD)

/-- The block and its ancestors are linked, and each of them is checked with
the limit of its own height in this branch. -/
structure ValidInBranch (cfg : Config) (nAdjustedTime : Int) (ancestors : List CBlock)
    (block : CBlock) : Prop where
  genesis : ancestors.head?.map (CBlock.GetHash cfg.crypto) = some cfg.HashGenesisBlock
  linked : ∀ {i : Nat} {prev next : CBlock}, (ancestors ++ [block])[i]? = some prev →
    (ancestors ++ [block])[i + 1]? = some next →
    next.hashPrevBlock = prev.GetHash cfg.crypto
  checked : ∀ {i : Nat} {b : CBlock}, (ancestors ++ [block])[i]? = some b →
    ∃ b', CheckBlock cfg nAdjustedTime b (branchLimit (ancestors.take i)) true true = .ok b'

theorem ValidInBranch.checkBlock {cfg : Config} {nAdjustedTime : Int}
    {ancestors : List CBlock} {block : CBlock}
    (h : ValidInBranch cfg nAdjustedTime ancestors block) :
    ∃ block', CheckBlock cfg nAdjustedTime block (branchLimit ancestors) true true =
      .ok block' := by
  have hlast : (ancestors ++ [block])[ancestors.length]? = some block := by simp
  have hcheck := h.checked hlast
  rwa [List.take_length] at hcheck

/-- The size and the signature operations fit a limit. -/
def Fits (block : CBlock) (nMaxBlockSize : Nat) : Prop :=
  block.GetSerializeSize ≤ nMaxBlockSize ∧
    (block.vtx.map GetSigOpCount).sum ≤ MaxBlockSizeToSigOps nMaxBlockSize

/-- Every transaction takes some bytes. -/
theorem length_vtx_le (block : CBlock) : block.vtx.length ≤ block.GetSerializeSize := by
  have hbytes : ∀ vtx : List CTransaction,
      vtx.length ≤ (vtx.flatMap CTransaction.serialize).length := by
    intro vtx
    induction vtx with
    | nil => exact Nat.le_refl 0
    | cons tx vtx ih =>
        have hfour := four_le_serialize_length tx
        rw [List.flatMap_cons, List.length_append, List.length_cons]
        omega
  have hvtx := hbytes block.vtx
  unfold CBlock.GetSerializeSize CBlock.serialize serializeVector
  rw [List.length_append, List.length_append]
  omega

/-- The call refuses the block for its size. -/
def RefusedForSize (r : Result NodeState CValidationState Fault Unit) : Prop :=
  ∃ state s', r = .refused state s' ∧ ForSize state

section Receiving

variable {cfg : Config} {s : NodeState} {block : CBlock} {nPoK : BitVec 32}

theorem processBlock_reject {fuel : Nat} {fFrom : Bool} {state : CValidationState}
    (h : preliminaryChecks cfg s.ticked (s.ticks 0).nAdjustedTime block =
      .error (.reject state)) :
    ProcessBlock cfg fuel fFrom block s = .refused state s.ticked := by
  unfold ProcessBlock
  rw [tick_bind_run, Machine.get_bind_run, h, ofRun_reject_bind_run]

/-- A block that is not known yet is checked with the limit of the active
chain. -/
theorem preliminaryChecks_fresh (nAdjustedTime : Int)
    (hpok : block.CalculatePoK cfg.crypto = .ok nPoK)
    (hfresh : ¬ Known s ((block.SetPoK nPoK).GetHash cfg.crypto)) :
    preliminaryChecks cfg s nAdjustedTime block = (do
      let block ← CheckBlock cfg nAdjustedTime (block.SetPoK nPoK)
        s.chainActive.TipMaxBlockSize true true
      checkpointChecks cfg s block
      return block) := by
  have hindex : ¬ (s.mapBlockIndex.find
      ((block.SetPoK nPoK).GetHash cfg.crypto)).isSome = true := fun h => hfresh (.inl h)
  have horphan : ¬ (s.mapOrphanBlocks.any fun o =>
      o.hashBlock == (block.SetPoK nPoK).GetHash cfg.crypto) = true := by
    intro h
    obtain ⟨o, ho, heq⟩ := List.any_eq_true.mp h
    exact hfresh (.inr ⟨o, ho, beq_iff_eq.mp heq⟩)
  unfold preliminaryChecks
  rw [hpok, ok_bind]
  dsimp only
  rw [if_neg hindex, if_neg horphan]

theorem preliminaryChecks_known (nAdjustedTime : Int)
    (hpok : block.CalculatePoK cfg.crypto = .ok nPoK)
    (hknown : Known s ((block.SetPoK nPoK).GetHash cfg.crypto)) :
    preliminaryChecks cfg s nAdjustedTime block = Run.Invalid .none "duplicate" := by
  unfold preliminaryChecks
  rw [hpok, ok_bind]
  dsimp only
  by_cases hindex : (s.mapBlockIndex.find
      ((block.SetPoK nPoK).GetHash cfg.crypto)).isSome = true
  · rw [if_pos hindex]
    rfl
  · obtain ⟨o, ho, heq⟩ := hknown.resolve_left hindex
    have horphan : (s.mapOrphanBlocks.any fun o =>
        o.hashBlock == (block.SetPoK nPoK).GetHash cfg.crypto) = true :=
      List.any_eq_true.mpr ⟨o, ho, beq_iff_eq.mpr heq⟩
    rw [if_neg hindex, if_pos horphan]
    rfl

/-- A block that does not fit the limit of the active chain is refused for it. -/
theorem processBlock_tooLarge {fuel : Nat} {fFrom : Bool} {nMaxBlockSize : Nat}
    {block' : CBlock} (hpok : block.CalculatePoK cfg.crypto = .ok nPoK)
    (hcheck : CheckBlock cfg (s.ticks 0).nAdjustedTime (block.SetPoK nPoK) nMaxBlockSize
      true true = .ok block')
    (hfresh : ¬ Known s ((block.SetPoK nPoK).GetHash cfg.crypto))
    (hlarge : ¬ Fits (block.SetPoK nPoK) s.chainActive.TipMaxBlockSize) :
    RefusedForSize (ProcessBlock cfg fuel fFrom block s) := by
  have hlimit := checkBlock_limit hcheck s.chainActive.TipMaxBlockSize
  have hchecks := preliminaryChecks_fresh (s := s.ticked) (s.ticks 0).nAdjustedTime hpok hfresh
  have htip : s.ticked.chainActive = s.chainActive := rfl
  rw [htip, hlimit] at hchecks
  by_cases hlength : s.chainActive.TipMaxBlockSize < (block.SetPoK nPoK).vtx.length ∨
      s.chainActive.TipMaxBlockSize < (block.SetPoK nPoK).GetSerializeSize
  · rw [if_pos hlength] at hchecks
    exact ⟨_, _, processBlock_reject hchecks, rfl, .inl rfl⟩
  · have hops : MaxBlockSizeToSigOps s.chainActive.TipMaxBlockSize <
        ((block.SetPoK nPoK).vtx.map GetSigOpCount).sum := by
      rw [not_or] at hlength
      by_contra hle
      exact hlarge ⟨Nat.le_of_not_lt hlength.2, Nat.le_of_not_lt hle⟩
    rw [if_neg hlength, if_pos hops] at hchecks
    exact ⟨_, _, processBlock_reject hchecks, rfl, .inr rfl⟩

theorem sizeBlind_checkpointChecks (cfg : Config) (s : NodeState) (block : CBlock) :
    SizeBlind (checkpointChecks cfg s block) := by
  unfold checkpointChecks
  cases cfg.GetLastCheckpoint s.mapBlockIndex with
  | none => exact Errs.ok ()
  | some pcheckpoint =>
      refine Errs.ite (fun _ => ?_) fun _ => Errs.ok ()
      refine sizeBlind_guard (notForSize_DoS _ _ _ (by decide)) fun _ => ?_
      exact sizeBlind_guard (notForSize_DoS _ _ _ (by decide)) fun _ => Errs.ok ()

/-- Once the preliminary checks have passed, nothing is refused for its size. -/
theorem refuses_processBlock {cfg : Config} {fuel : Nat} {fFrom : Bool} {s : NodeState}
    {block : CBlock}
    (h : SizeBlind (preliminaryChecks cfg s.ticked (s.ticks 0).nAdjustedTime block)) :
    ¬ RefusedForSize (ProcessBlock cfg fuel fFrom block s) := by
  have hrest : (ProcessBlock cfg fuel fFrom block s).Meets (fun _ _ => True)
      (fun state _ => NotForSize state) fun _ => True := by
    unfold ProcessBlock
    rw [tick_bind_run, Machine.get_bind_run]
    refine Refuses.bind (Refuses.ofRun h) (fun block => ?_) s.ticked
    refine Refuses.ite (fun _ => ?_) fun _ => ?_
    · exact Refuses.ite (fun _ => refuses_addOrphan cfg block) fun _ => .pure ()
    · refine (refuses_acceptBlock cfg fuel block).bind fun _ => ?_
      exact Refuses.get.bind fun s => refuses_processOrphans cfg fuel _ _
  rintro ⟨state, s', hrun, hsize⟩
  rw [hrun] at hrest
  exact hrest hsize

/-- A block that is known, or fits the limit of the active chain, is not refused
for its size. -/
theorem processBlock_fits {fuel : Nat} {fFrom : Bool} {nMaxBlockSize : Nat}
    {block' : CBlock} (hpok : block.CalculatePoK cfg.crypto = .ok nPoK)
    (hcheck : CheckBlock cfg (s.ticks 0).nAdjustedTime (block.SetPoK nPoK) nMaxBlockSize
      true true = .ok block')
    (h : Known s ((block.SetPoK nPoK).GetHash cfg.crypto) ∨
      Fits (block.SetPoK nPoK) s.chainActive.TipMaxBlockSize) :
    ¬ RefusedForSize (ProcessBlock cfg fuel fFrom block s) := by
  apply refuses_processBlock
  by_cases hknown : Known s ((block.SetPoK nPoK).GetHash cfg.crypto)
  · rw [preliminaryChecks_known (s := s.ticked) _ hpok hknown]
    exact sizeBlind_reject (notForSize_DoS _ _ _ (by decide))
  · obtain ⟨hsize, hops⟩ := h.resolve_left hknown
    have hlimit := checkBlock_limit hcheck s.chainActive.TipMaxBlockSize
    have hcount := length_vtx_le (block.SetPoK nPoK)
    rw [if_neg (by omega), if_neg (Nat.not_lt.mpr hops)] at hlimit
    have htip : s.ticked.chainActive = s.chainActive := rfl
    rw [preliminaryChecks_fresh (s := s.ticked) _ hpok hknown, htip, hlimit, ok_bind]
    exact Errs.bind (sizeBlind_checkpointChecks cfg _ _) fun _ _ => Errs.ok _

/-- A block that is valid in its own branch is not refused for its size or its
signature operations exactly when it is known already or fits the limit of the
active chain, too. -/
theorem processBlock_size_iff {fuel : Nat} {fFrom : Bool} {ancestors : List CBlock}
    (hpok : block.CalculatePoK cfg.crypto = .ok nPoK)
    (hvalid : ValidInBranch cfg (s.ticks 0).nAdjustedTime ancestors (block.SetPoK nPoK)) :
    ¬ RefusedForSize (ProcessBlock cfg fuel fFrom block s) ↔
      Known s ((block.SetPoK nPoK).GetHash cfg.crypto) ∨
        Fits (block.SetPoK nPoK) s.chainActive.TipMaxBlockSize := by
  obtain ⟨block', hcheck⟩ := hvalid.checkBlock
  constructor
  · intro hnot
    by_contra hneither
    rw [not_or] at hneither
    exact hnot (processBlock_tooLarge hpok hcheck hneither.1 hneither.2)
  · exact processBlock_fits hpok hcheck

end Receiving

/-! ### Long branches -/

/-- The first `n` blocks of a chain. -/
def line (outs : Nat → List CTxOut) (n : Nat) : List CBlock :=
  (List.range n).map (lineBlock outs)

theorem line_concat (outs : Nat → List CTxOut) (n : Nat) :
    line outs n ++ [lineBlock outs n] = line outs (n + 1) := by
  unfold line
  rw [List.range_succ, List.map_append, List.map_singleton]

theorem getElem?_line {outs : Nat → List CTxOut} {n i : Nat} {block : CBlock}
    (h : (line outs n)[i]? = some block) : i < n ∧ block = lineBlock outs i := by
  unfold line at h
  rw [List.getElem?_map] at h
  obtain ⟨j, hj, rfl⟩ := Option.map_eq_some_iff.mp h
  obtain ⟨hlt, rfl⟩ := List.getElem?_eq_some_iff.mp hj
  rw [List.length_range] at hlt
  rw [List.getElem_range]
  exact ⟨hlt, rfl⟩

theorem take_line (outs : Nat → List CTxOut) {n i : Nat} (h : i ≤ n) :
    (line outs n).take i = line outs i := by
  unfold line
  rw [← List.map_take, List.take_range, Nat.min_eq_left h]

theorem min_le_branchLimit (ancestors : List CBlock) :
    MIN_MAX_BLOCK_SIZE ≤ branchLimit ancestors := min_le_limitOfPeriod _ _

/-- A chain of coinbases is valid while their outputs fit the limits. -/
theorem validInBranch_line {outs : Nat → List CTxOut} {genesis : CBlock}
    (hgenesis : genesis.GetHash smallCrypto = hashOfNonce 1) {n : Nat} (hpos : 0 < n)
    (hn : n + 1 < 2 ^ 32) {nAdjustedTime : Int}
    (htime : (1400000000 + 60 * n : Int) ≤ nAdjustedTime)
    (hplain : ∀ i ≤ n, PlainOutputs (outs i))
    (hops : ∀ i < n,
      221 + ((outs i).map fun txout => txout.scriptPubKey.GetSigOpCount).sum ≤ 20000)
    (hlast : 221 + ((outs n).map fun txout => txout.scriptPubKey.GetSigOpCount).sum ≤
      MaxBlockSizeToSigOps (branchLimit (line outs n))) :
    ValidInBranch (smallNet genesis) nAdjustedTime (line outs n) (lineBlock outs n) := by
  constructor
  · obtain ⟨m, rfl⟩ : ∃ m, n = m + 1 := ⟨n - 1, by omega⟩
    have hhead : (line outs (m + 1)).head? = some (lineBlock outs 0) := by
      unfold line
      rw [List.range_succ_eq_map, List.map_cons, List.head?_cons]
    rw [hhead]
    exact congrArg some ((getHash_lineBlock outs (by decide)).trans hgenesis.symm)
  · intro i prev next hprev hnext
    rw [line_concat] at hprev hnext
    obtain ⟨hlt, rfl⟩ := getElem?_line hprev
    obtain ⟨_, rfl⟩ := getElem?_line hnext
    exact prev_lineBlock outs (by omega)
  · intro i b hb
    rw [line_concat] at hb
    obtain ⟨hlt, rfl⟩ := getElem?_line hb
    rw [take_line outs (by omega)]
    refine ⟨_, checkBlock_coinbase genesis (hplain i (by omega)) (by omega) _ _ _
      (min_le_branchLimit _) (by omega) ?_⟩
    rcases Nat.lt_or_ge i n with hi | hi
    · have hmin := min_le_branchLimit (line outs i)
      have hfit := hops i hi
      unfold MIN_MAX_BLOCK_SIZE at hmin
      unfold MaxBlockSizeToSigOps
      omega
    · obtain rfl : i = n := by omega
      exact hlast

/-! ### Ten per cent more -/

section LargePeriod

variable {sizes : List Nat} {first : Nat} {rest : List Nat}

/-- A period whose first block is small and whose other blocks are large has a
large median. -/
theorem medianSize_large (hsizes : sizes = first :: rest)
    (hlen : sizes.length = MAX_BLOCK_SIZE_RECALC_PERIOD) {bound : Nat}
    (hfirst : first ≤ bound) (hrest : ∀ n ∈ rest, bound ≤ n) : bound ≤ medianSize sizes := by
  obtain ⟨m, hm, hlt⟩ : ∃ m, MAX_BLOCK_SIZE_RECALC_PERIOD / 2 = m + 1 ∧
      m + 1 < MAX_BLOCK_SIZE_RECALC_PERIOD := ⟨65699, by decide, by decide⟩
  rw [hsizes, List.length_cons] at hlen
  have hget : m < (rest.insertionSort (· ≤ ·)).length := by
    rw [List.length_insertionSort]
    omega
  unfold medianSize
  rw [hsizes, List.insertionSort_cons_of_forall_rel _ fun n hn => hfirst.trans (hrest n hn), hm,
    List.getD_cons_succ, List.getD_eq_getElem?_getD, List.getElem?_eq_getElem hget,
    Option.getD_some]
  apply hrest
  exact (List.perm_insertionSort (· ≤ ·) rest).mem_iff.mp (List.getElem_mem hget)

theorem averageSize_large (hsizes : sizes = first :: rest)
    (hlen : sizes.length = MAX_BLOCK_SIZE_RECALC_PERIOD)
    (hrest : ∀ n ∈ rest, 700000 ≤ n) : 699000 ≤ averageSize sizes := by
  have hperiod : MAX_BLOCK_SIZE_RECALC_PERIOD = 131400 := by decide
  have hsum := List.card_nsmul_le_sum rest 700000 hrest
  rw [smul_eq_mul] at hsum
  rw [hsizes, List.length_cons] at hlen
  unfold averageSize
  rw [Nat.le_div_iff_mul_le period_pos, hsizes, List.sum_cons]
  omega

/-- Such a period raises the first limit. -/
theorem limitAfterPeriod_large (hsizes : sizes = first :: rest)
    (hlen : sizes.length = MAX_BLOCK_SIZE_RECALC_PERIOD) (hfirst : first ≤ 700000)
    (hrest : ∀ n ∈ rest, 700000 ≤ n ∧ n ≤ MAX_SIZE) :
    limitAfterPeriod MIN_MAX_BLOCK_SIZE sizes = 1100000 := by
  have hmedian := medianSize_large hsizes hlen hfirst fun n hn => (hrest n hn).1
  have haverage := averageSize_large hsizes hlen fun n hn => (hrest n hn).1
  have hmax : ∀ n ∈ sizes, n ≤ MAX_SIZE := by
    rw [hsizes]
    intro n hn
    rcases List.mem_cons.mp hn with rfl | hn
    · exact hfirst.trans (by decide)
    · exact (hrest n hn).2
  have hstep := (limitAfterPeriod_exact hlen hmax (Nat.le_refl _) (by decide)).1
  have hchange : 2 * MIN_MAX_BLOCK_SIZE < 3 * averageSize sizes ∧
      MIN_MAX_BLOCK_SIZE < 2 * medianSize sizes := by
    unfold MIN_MAX_BLOCK_SIZE
    omega
  exact hstep.change (hstep.changes_iff.mpr hchange)

end LargePeriod

/-- The limit after a period of large blocks with a small one in front. -/
theorem branchLimit_line {outs : Nat → List CTxOut}
    (hfirst : (lineBlock outs 0).GetSerializeSize ≤ 700000)
    (hrest : ∀ i, 0 < i → i < MAX_BLOCK_SIZE_RECALC_PERIOD →
      700000 ≤ (lineBlock outs i).GetSerializeSize ∧
        (lineBlock outs i).GetSerializeSize ≤ MAX_SIZE) :
    branchLimit (line outs MAX_BLOCK_SIZE_RECALC_PERIOD) = 1100000 := by
  have hlen : (line outs MAX_BLOCK_SIZE_RECALC_PERIOD).length =
      MAX_BLOCK_SIZE_RECALC_PERIOD := by
    unfold line
    rw [List.length_map, List.length_range]
  have hsizes : periodSizes (fun i => ((line outs MAX_BLOCK_SIZE_RECALC_PERIOD)[i]?.map
      CBlock.GetSerializeSize).getD 0) 0 =
      (List.range MAX_BLOCK_SIZE_RECALC_PERIOD).map
        fun i => (lineBlock outs i).GetSerializeSize := by
    refine List.map_congr_left fun i hi => ?_
    have hget : (line outs MAX_BLOCK_SIZE_RECALC_PERIOD)[i]? = some (lineBlock outs i) := by
      unfold line
      rw [List.getElem?_map, List.getElem?_range (List.mem_range.mp hi), Option.map_some]
    dsimp only
    rw [Nat.zero_mul, Nat.zero_add, hget]
    rfl
  obtain ⟨m, hm⟩ : ∃ m, MAX_BLOCK_SIZE_RECALC_PERIOD = m + 1 := ⟨131399, by decide⟩
  have hsplit : ((List.range MAX_BLOCK_SIZE_RECALC_PERIOD).map
      fun i => (lineBlock outs i).GetSerializeSize) = (lineBlock outs 0).GetSerializeSize ::
        (List.range m).map fun i => (lineBlock outs (i + 1)).GetSerializeSize := by
    rw [hm, List.range_succ_eq_map, List.map_cons, List.map_map]
    rfl
  unfold branchLimit
  rw [hlen, Nat.div_self period_pos, limitOfPeriod, limitOfPeriod, hsizes]
  apply limitAfterPeriod_large hsplit (by rw [List.length_map, List.length_range]) hfirst
  intro n hn
  obtain ⟨i, hi, rfl⟩ := List.mem_map.mp hn
  have hlt := List.mem_range.mp hi
  exact hrest (i + 1) (Nat.succ_pos i) (by omega)

/-! ### A block that is refused -/

/-- A script that nobody can run: its first instruction is cut off. -/
def cutOffScript (n : Nat) : CScript := List.replicate n 0x4e

theorem getOp_cutOffScript {m : Nat} (h : m ≤ 1000000) : getOp (cutOffScript (m + 5)) = none := by
  have hscript : cutOffScript (m + 5) =
      0x4e :: ([0x4e, 0x4e, 0x4e, 0x4e] ++ List.replicate m 0x4e) := rfl
  have hlen : ¬ ([0x4e, 0x4e, 0x4e, 0x4e] ++ List.replicate m (0x4e : UInt8)).length < 4 := by
    rw [List.length_append]
    exact Nat.not_lt.mpr (Nat.le_add_right _ _)
  have hpush : readPushSize 78 ([0x4e, 0x4e, 0x4e, 0x4e] ++ List.replicate m 0x4e) =
      (some 0x4e4e4e4e, List.replicate m 0x4e) := by
    have hwidth : (if 78 = OP_PUSHDATA1 then 1 else if 78 = OP_PUSHDATA2 then 2 else 4) = 4 := by
      decide
    have hread : readLE [0x4e, 0x4e, 0x4e, 0x4e] = 0x4e4e4e4e := by decide
    have htake : ([0x4e, 0x4e, 0x4e, 0x4e] ++ List.replicate m (0x4e : UInt8)).take 4 =
        [0x4e, 0x4e, 0x4e, 0x4e] := List.take_left' rfl
    have hdrop : ([0x4e, 0x4e, 0x4e, 0x4e] ++ List.replicate m (0x4e : UInt8)).drop 4 =
        List.replicate m 0x4e := List.drop_left' rfl
    unfold readPushSize
    rw [if_neg (by decide)]
    dsimp only
    rw [hwidth, if_neg hlen, htake, hdrop, hread]
  have hopcode : (0x4e : UInt8).toNat = 78 := rfl
  unfold getOp getOp2
  rw [hscript]
  dsimp only
  rw [hopcode, if_pos (by decide), hpush]
  dsimp only
  rw [if_pos (by rw [List.length_replicate]; omega)]

theorem length_cutOffScript (n : Nat) : (cutOffScript n).length = n := List.length_replicate

theorem sigOpCount_cutOffScript {n : Nat} (hlow : 5 ≤ n) (hhigh : n ≤ 1000000) :
    (cutOffScript n).GetSigOpCount = 0 := by
  obtain ⟨m, rfl⟩ : ∃ m, n = m + 5 := ⟨n - 5, by omega⟩
  have h : m ≤ 1000000 := by omega
  have hops : ops (cutOffScript (m + 5)) = ([], false) := by
    unfold ops
    have hlen : (cutOffScript (m + 5)).length = m + 4 + 1 := length_cutOffScript _
    rw [hlen, getOps, getOp_cutOffScript h]
    intro hnil
    cases hnil
  unfold CScript.GetSigOpCount
  rw [hops]
  rfl

/-- A script of instructions that count as twenty signature operations each. -/
def multisigScript (n : Nat) : CScript := List.replicate n 0xae

theorem getOps_multisigScript (n : Nat) :
    getOps n (multisigScript n) = (List.replicate n (OP_CHECKMULTISIG, []), true) := by
  induction n with
  | zero => rfl
  | succ n ih =>
      have hop : getOp (multisigScript (n + 1)) =
          some (OP_CHECKMULTISIG, [], multisigScript n) := rfl
      rw [getOps, hop]
      · dsimp only
        rw [ih]
        rfl
      · intro hnil
        cases hnil

theorem sigOpsFrom_multisig {lastOpcode : Nat} (h : OP_16 < lastOpcode) (n : Nat) :
    sigOpsFrom lastOpcode (List.replicate n (OP_CHECKMULTISIG, [])) = 20 * n := by
  induction n generalizing lastOpcode with
  | zero => rfl
  | succ n ih =>
      rw [List.replicate_succ, sigOpsFrom, ih (by decide), if_neg (by decide),
        if_pos (by decide), if_neg fun hle => absurd hle.2 (Nat.not_le.mpr h)]
      omega

theorem sigOpCount_multisigScript (n : Nat) : (multisigScript n).GetSigOpCount = 20 * n := by
  have hops : ops (multisigScript n) = (List.replicate n (OP_CHECKMULTISIG, []), true) := by
    have hlen : (multisigScript n).length = n := List.length_replicate
    unfold ops
    rw [hlen, getOps_multisigScript]
  unfold CScript.GetSigOpCount
  rw [hops]
  exact sigOpsFrom_multisig (by decide) n

/-- After a first block like that of the small network, every coinbase has one
large output, but the one of the height `n` has one with many signature
operations. -/
def growingOuts (n i : Nat) : List CTxOut :=
  if i = 0 then [⟨50, anyoneCanSpend⟩]
  else if i = n then [⟨0, multisigScript 1050⟩]
  else [⟨0, cutOffScript 700005⟩]

theorem size_cutOffOutput : (serializeVector CTxOut.serialize
    [(⟨0, cutOffScript 700005⟩ : CTxOut)]).length = 700019 := by
  unfold serializeVector
  rw [List.flatMap_singleton]
  unfold CTxOut.serialize leInt64 serializeBytes
  simp only [List.length_append, leBytes_length, List.length_singleton]
  have hone : (writeCompactSize 1).length = 1 := rfl
  have hlen := length_cutOffScript 700005
  have hsize : (writeCompactSize 700005).length = 5 := rfl
  rw [hlen, hsize, hone]

theorem plainOutputs_growingOuts (n i : Nat) : PlainOutputs (growingOuts n i) := by
  unfold growingOuts
  split
  · exact ⟨List.cons_ne_nil _ _, rfl, by decide⟩
  · split
    · exact ⟨List.cons_ne_nil _ _, rfl, by decide +kernel⟩
    · refine ⟨List.cons_ne_nil _ _, rfl, ?_⟩
      rw [size_cutOffOutput]
      decide

theorem sigOps_singleton (nValue : Int) (script : CScript) :
    (([⟨nValue, script⟩] : List CTxOut).map
      fun txout => txout.scriptPubKey.GetSigOpCount).sum = script.GetSigOpCount :=
  List.sum_singleton

theorem sigOps_growingOuts {n i : Nat} (h : i ≠ n) :
    221 + ((growingOuts n i).map fun txout => txout.scriptPubKey.GetSigOpCount).sum ≤
      20000 := by
  unfold growingOuts
  by_cases hzero : i = 0
  · rw [if_pos hzero]
    decide
  · have hcut : (cutOffScript 700005).GetSigOpCount = 0 :=
      sigOpCount_cutOffScript (by decide) (by decide)
    rw [if_neg hzero, if_neg h, sigOps_singleton, hcut]
    decide

theorem sigOps_growingOuts_self {n : Nat} (h : n ≠ 0) :
    ((growingOuts n n).map fun txout => txout.scriptPubKey.GetSigOpCount).sum = 21000 := by
  unfold growingOuts
  rw [if_neg h, if_pos rfl, sigOps_singleton, sigOpCount_multisigScript]

/-- The height after the first period. -/
def raisedHeight : Nat := MAX_BLOCK_SIZE_RECALC_PERIOD

/-- A chain whose first period raises the limit. -/
def raisedOuts : Nat → List CTxOut := growingOuts raisedHeight

theorem branchLimit_raised : branchLimit (line raisedOuts raisedHeight) = 1100000 := by
  apply branchLimit_line
  · have hzero : raisedOuts 0 = [⟨50, anyoneCanSpend⟩] := rfl
    have hpush := length_pushScriptNum 0
    have hout : (serializeVector CTxOut.serialize
        [(⟨50, anyoneCanSpend⟩ : CTxOut)]).length = 11 := by decide
    rw [size_lineBlock, hzero, hout]
    exact le_trans (Nat.add_le_add_right (Nat.add_le_add_left hpush.2 132) 11) (by decide)
  · intro i hpos hlt
    have hout : raisedOuts i = [⟨0, cutOffScript 700005⟩] := by
      unfold raisedOuts growingOuts raisedHeight
      rw [if_neg (Nat.pos_iff_ne_zero.mp hpos), if_neg (Nat.ne_of_lt hlt)]
    have hpush := length_pushScriptNum (i : Int)
    rw [size_lineBlock, hout, size_cutOffOutput]
    unfold MAX_SIZE
    omega

/-- The first block after the period. -/
def raisedBlock : CBlock := lineBlock raisedOuts raisedHeight

theorem getHash_smallGenesis (vout : List CTxOut) :
    (smallGenesis vout).GetHash smallCrypto = hashOfNonce 1 :=
  getHash_smallBlock (by decide) _ _ _

theorem validInBranch_raisedBlock :
    ValidInBranch (smallNet (smallGenesis [⟨50, anyoneCanSpend⟩])) 2000000000
      (line raisedOuts raisedHeight) raisedBlock := by
  have hheight : raisedHeight = 131400 := by decide
  apply validInBranch_line (getHash_smallGenesis _)
  · omega
  · omega
  · omega
  · exact fun i _ => plainOutputs_growingOuts _ i
  · exact fun i hi => sigOps_growingOuts (Nat.ne_of_lt hi)
  · have hops := sigOps_growingOuts_self (n := raisedHeight) (by omega)
    rw [branchLimit_raised]
    unfold raisedOuts
    rw [hops]
    decide

theorem processBlock_lineBlock {outs : Nat → List CTxOut} {n : Nat} (hn : n + 1 < 2 ^ 32)
    {genesis : CBlock} {s : NodeState} {fuel nMaxBlockSize : Nat} {fFrom : Bool}
    {block' : CBlock}
    (hcheck : CheckBlock (smallNet genesis) (s.ticks 0).nAdjustedTime (lineBlock outs n)
      nMaxBlockSize true true = .ok block')
    (hindex : (s.mapBlockIndex.find (hashOfNonce (n + 1))).isSome = false)
    (horphans : s.mapOrphanBlocks = [])
    (hops : MaxBlockSizeToSigOps s.chainActive.TipMaxBlockSize <
      ((outs n).map fun txout => txout.scriptPubKey.GetSigOpCount).sum) :
    RefusedForSize (ProcessBlock (smallNet genesis) fuel fFrom (lineBlock outs n) s) := by
  have hpok : (lineBlock outs n).CalculatePoK (smallNet genesis).crypto = .ok 0 :=
    calculatePoK_small (isPoKBlock_smallBlock _ _ _ _)
  have hset : (lineBlock outs n).SetPoK 0 = lineBlock outs n := setPoK_smallBlock _ _ _ _
  have hhash : (lineBlock outs n).GetHash smallCrypto = hashOfNonce (n + 1) :=
    getHash_lineBlock outs hn
  apply processBlock_tooLarge hpok (hset.symm ▸ hcheck)
  · rw [hset]
    rintro (hknown | ⟨o, ho, _⟩)
    · rw [show (smallNet genesis).crypto = smallCrypto from rfl, hhash, hindex] at hknown
      cases hknown
    · rw [horphans] at ho
      exact absurd ho List.not_mem_nil
  · rw [hset]
    rintro ⟨_, hfit⟩
    have hcount := (sigOpCount_coinbaseTx (n + 1) n (outs n)).1
    have hsum : ((lineBlock outs n).vtx.map GetSigOpCount).sum =
        GetSigOpCount (coinbaseTx (n + 1) n (outs n)) := List.sum_singleton
    rw [hsum] at hfit
    omega

/-- A node that has just started refuses the block for its signature
operations, although the limit of its branch allows them. -/
theorem raisedBlock_refused :
    Reachable (smallNet (smallGenesis [⟨50, anyoneCanSpend⟩])) quietStart ∧
      ValidInBranch (smallNet (smallGenesis [⟨50, anyoneCanSpend⟩]))
        (quietStart.ticks 0).nAdjustedTime (line raisedOuts raisedHeight) raisedBlock ∧
      RefusedForSize (ProcessBlock (smallNet (smallGenesis [⟨50, anyoneCanSpend⟩])) 2 true
        raisedBlock quietStart) := by
  have hnow : (quietStart.ticks 0).nAdjustedTime = 2000000000 := by decide +kernel
  have hvalid := validInBranch_raisedBlock
  rw [← hnow] at hvalid
  refine ⟨reachable_quietStart, hvalid, ?_⟩
  obtain ⟨block', hcheck⟩ := hvalid.checkBlock
  refine processBlock_lineBlock (by decide) hcheck (by decide +kernel) (by decide +kernel) ?_
  have htip : quietStart.chainActive.TipMaxBlockSize = 1000000 := by decide +kernel
  have hmany := sigOps_growingOuts_self (n := raisedHeight) (by decide)
  unfold raisedOuts
  rw [htip, hmany]
  decide

/-- A chain of small blocks. -/
def smallOuts : Nat → List CTxOut := fun _ => [⟨50, anyoneCanSpend⟩]

theorem plainOutputs_smallOuts (i : Nat) : PlainOutputs (smallOuts i) := by
  have hplain : PlainOutputs [⟨50, anyoneCanSpend⟩] :=
    ⟨List.cons_ne_nil _ _, rfl, by decide⟩
  exact hplain

theorem sigOps_smallOuts (i : Nat) :
    221 + ((smallOuts i).map fun txout => txout.scriptPubKey.GetSigOpCount).sum ≤ 20000 := by
  have hops : 221 + ([(⟨50, anyoneCanSpend⟩ : CTxOut)].map
      fun txout => txout.scriptPubKey.GetSigOpCount).sum ≤ 20000 := by decide
  exact hops

/-- The first block after the genesis block fits every limit. -/
theorem smallBlock_not_refused :
    ¬ RefusedForSize (ProcessBlock (smallNet (smallGenesis [⟨50, anyoneCanSpend⟩])) 2 true
      (lineBlock smallOuts 1) quietStart) := by
  have hpok : (lineBlock smallOuts 1).CalculatePoK
      (smallNet (smallGenesis [⟨50, anyoneCanSpend⟩])).crypto = .ok 0 :=
    calculatePoK_small (isPoKBlock_smallBlock _ _ _ _)
  have hvalid : ValidInBranch (smallNet (smallGenesis [⟨50, anyoneCanSpend⟩]))
      (quietStart.ticks 0).nAdjustedTime (line smallOuts 1)
      ((lineBlock smallOuts 1).SetPoK 0) := by
    have hset : (lineBlock smallOuts 1).SetPoK 0 = lineBlock smallOuts 1 :=
      setPoK_smallBlock _ _ _ _
    have hlimit : 20000 ≤ MaxBlockSizeToSigOps (branchLimit (line smallOuts 1)) :=
      Nat.div_le_div_right (c := 50) (min_le_branchLimit (line smallOuts 1))
    rw [hset]
    apply validInBranch_line (getHash_smallGenesis _) (by decide) (by decide)
    · decide +kernel
    · exact fun i _ => plainOutputs_smallOuts i
    · exact fun i _ => sigOps_smallOuts i
    · exact (sigOps_smallOuts 1).trans hlimit
  have hfits : Fits ((lineBlock smallOuts 1).SetPoK 0)
      quietStart.chainActive.TipMaxBlockSize := by
    unfold Fits
    decide +kernel
  exact (processBlock_size_iff hpok hvalid).mpr (.inr hfits)

end Ziftrcoin.Spec
