/-
Module: Ziftrcoin.Proofs.Tips
Purpose: What a node looks like after its tip has been disconnected, connected,
  or found invalid.
Trusted boundary: none
Main exports: PoolOnly, connectTip_meets
-/
import Ziftrcoin.Proofs.NodeFrame

namespace Ziftrcoin.Spec

open Ziftrcoin.Lib
open Ziftrcoin.Lib.Outcome

/-! ### The pool and the clock -/

/-- Only the pool and the clock have moved on. -/
def PoolOnly (s s' : NodeState) : Prop :=
  ∃ pool ticks, s' = { s with mempool := pool, ticks := ticks }

namespace PoolOnly

theorem refl (s : NodeState) : PoolOnly s s := ⟨s.mempool, s.ticks, rfl⟩

theorem trans {s s' s'' : NodeState} (h : PoolOnly s s') (h' : PoolOnly s' s'') :
    PoolOnly s s'' := by
  obtain ⟨_, _, rfl⟩ := h
  obtain ⟨pool, ticks, rfl⟩ := h'
  exact ⟨pool, ticks, rfl⟩

end PoolOnly

/-- The call returns, if it comes back at all, and only moves the pool and the
clock. -/
def MovesPool (x : Node Unit) (s : NodeState) : Prop :=
  (x s).Meets (fun _ => PoolOnly s) (fun _ _ => False) fun _ => True

namespace MovesPool

theorem bind {x : Node Unit} {f : Unit → Node Unit} {s : NodeState}
    (hx : MovesPool x s) (hf : ∀ s', MovesPool (f ()) s') : MovesPool (x >>= f) s := by
  refine Meets.bind hx fun _ s' hs' => ?_
  exact Meets.mono (hf s') (fun _ _ h => hs'.trans h) (fun _ _ h => h) fun _ h => h

/-- What is known of a call that came back is that it returned. -/
theorem run {x : Node Unit} {s : NodeState} (h : MovesPool x s)
    (R : CValidationState → NodeState → Prop) :
    (x s).Meets (fun _ t => x s = .done () t) R fun _ => True := by
  unfold MovesPool at h
  cases hrun : x s with
  | done a t => rfl
  | refused state t =>
      rw [hrun] at h
      exact h.elim
  | faulted e => trivial

theorem forM {α : Type} {f : α → Node Unit} (h : ∀ a s, MovesPool (f a) s) :
    ∀ {xs : List α} {s : NodeState}, MovesPool (xs.forM f) s
  | [], s => PoolOnly.refl s
  | x :: _, s => bind (h x s) fun _ => forM h

end MovesPool

/-- The program stops with a fault, if it stops. -/
def NeverRejects {α : Type} (x : Run α) : Prop :=
  Errs (fun e => ∃ f, e = .fault f) x

theorem neverRejects_of_poolStop {α : Type} {x : Run α} (h : Errs PoolStop x) : NeverRejects x :=
  h.mono fun _ hstop => hstop.elim (fun heq => ⟨_, heq⟩) fun heq => ⟨_, heq⟩

/-- A call that never rejects, and puts its result into the pool. -/
theorem movesPool_ofRun {r : NodeState → Run (CTxMemPool × List CTransaction)}
    (h : ∀ s, NeverRejects (r s)) (s : NodeState) :
    MovesPool (do
      let s ← Machine.get
      let acc ← Node.ofRun (r s)
      Machine.modify fun s => { s with mempool := acc.1 }) s := by
  unfold MovesPool
  rw [Machine.get_bind_run]
  cases hr : r s with
  | ok acc => exact ⟨acc.1, s.ticks, rfl⟩
  | error e =>
      obtain ⟨f, rfl⟩ := h s e hr
      trivial

theorem movesPool_removeTransaction (cfg : Config) (tx : CTransaction)
    (fRecursive : Bool) (s : NodeState) :
    MovesPool (removeTransaction cfg tx fRecursive) s :=
  movesPool_ofRun (fun _ => neverRejects_of_poolStop poolStop_remove) s

theorem movesPool_removeConflicting (cfg : Config) (tx : CTransaction)
    (s : NodeState) : MovesPool (removeConflicting cfg tx) s :=
  movesPool_ofRun (fun _ => neverRejects_of_poolStop (poolStop_removeConflicts _ _ _)) s

/-- However a loose transaction fares, it only moves the pool and the clock. -/
theorem poolOnly_acceptTransaction (cfg : Config) (tx : CTransaction)
    (fLimitFree fRejectInsaneFee : Bool) (s : NodeState) :
    (acceptTransaction cfg tx fLimitFree fRejectInsaneFee s).Meets
      (fun _ => PoolOnly s) (fun _ => PoolOnly s) fun _ => True := by
  unfold acceptTransaction
  rw [tick_bind_run, Machine.get_bind_run]
  cases AcceptToMemoryPool cfg (s.ticked.poolContext (s.ticks 0)) s.ticked.mempool tx
      fLimitFree fRejectInsaneFee with
  | ok pool => exact ⟨pool, _, rfl⟩
  | error e =>
      cases e with
      | reject state => exact ⟨s.mempool, _, rfl⟩
      | fault e => trivial

theorem movesPool_resurrect (cfg : Config) (tx : CTransaction) (s : NodeState) :
    MovesPool (resurrect cfg tx) s := by
  refine Meets.ite (fun _ => ?_) fun _ => PoolOnly.refl s
  refine Meets.bind (D := fun _ => PoolOnly s)
    (Meets.attempt (poolOnly_acceptTransaction cfg tx false false s))
    fun accepted s₁ hs₁ => ?_
  cases accepted with
  | ok _ => exact hs₁
  | error _ =>
      exact Meets.mono (movesPool_removeTransaction cfg tx true s₁)
        (fun _ _ h => hs₁.trans h) (fun _ _ h => h) fun _ h => h

/-- What `ConnectTip` does to the pool for one transaction of the block. -/
def confirm (cfg : Config) (tx : CTransaction) : Node Unit := do
  removeTransaction cfg tx false
  removeConflicting cfg tx

theorem movesPool_confirm (cfg : Config) (tx : CTransaction) (s : NodeState) :
    MovesPool (confirm cfg tx) s :=
  (movesPool_removeTransaction cfg tx false s).bind
    fun s' => movesPool_removeConflicting cfg tx s'

/-! ### Disconnecting -/

/-- The state after `WriteChainState` with a view to be put in place. -/
def NodeState.writeCoins (s : NodeState) (view : CCoinsViewCache) : NodeState :=
  { s.ticked with pcoinsTip := if (s.ticks 0).fFlush then view.Flush else view }

theorem writeChainState_run {α : Type} (s : NodeState) (view : CCoinsViewCache)
    (f : Unit → Node α) :
    (WriteChainState >>= f) { s with pcoinsTip := view } = f () (s.writeCoins view) := by
  unfold WriteChainState
  rw [Machine.bind_run, tick_bind_run]
  unfold NodeState.writeCoins
  dsimp only
  cases (s.ticks 0).fFlush with
  | false => rfl
  | true => rfl

/-! ### Connecting -/

/-- An entry with no flags but those of a failure. -/
def CBlockIndex.judged (pindex : CBlockIndex) : CBlockIndex :=
  { pindex with
    nStatus :=
      { (default : BlockStatus) with
        failedValid := pindex.nStatus.failedValid
        failedChild := pindex.nStatus.failedChild } }

theorem judged_setStatus (s : NodeState) (p : Ptr) (f : BlockStatus → BlockStatus)
    (h : ∀ nStatus, (f nStatus).failedValid = nStatus.failedValid ∧
      (f nStatus).failedChild = nStatus.failedChild) :
    (s.setStatus p f).mapBlockIndex.map CBlockIndex.judged =
      s.mapBlockIndex.map CBlockIndex.judged := by
  refine map_modify_of_eq s.mapBlockIndex p fun pindex => ?_
  unfold CBlockIndex.judged
  rw [(h pindex.nStatus).1, (h pindex.nStatus).2]

/-- Writing the undo record changes no flag of a failure. -/
theorem writeUndo_run (cfg : Config) (p : Ptr) (pindex : CBlockIndex)
    (vtxundo : CBlockUndo) (s : NodeState) :
    ∃ tree undoFiles, writeUndo cfg p pindex vtxundo s =
        .done () { s with mapBlockIndex := tree, undoFiles := undoFiles } ∧
      tree.map CBlockIndex.judged = s.mapBlockIndex.map CBlockIndex.judged := by
  unfold writeUndo
  rw [Machine.get_bind_run]
  split
  · rw [Machine.modify_bind_run, Machine.modify_run]
    split
    · refine ⟨_, _, rfl, ?_⟩
      exact (judged_setStatus _ p
        (fun nStatus => { nStatus with valid := BLOCK_VALID_SCRIPTS })
        fun _ => ⟨rfl, rfl⟩).trans (judged_setStatus s p
          (fun nStatus => { nStatus with haveUndo := true }) fun _ => ⟨rfl, rfl⟩)
    · exact ⟨_, _, rfl, judged_setStatus s p
        (fun nStatus => { nStatus with valid := BLOCK_VALID_SCRIPTS })
        fun _ => ⟨rfl, rfl⟩⟩
  · exact ⟨s.mapBlockIndex, s.undoFiles, rfl, rfl⟩

/-- The block of the entry has been connected, `t` being the node when the undo
record had been written and `u` when the pool had been brought up to date. -/
inductive Connected (cfg : Config) (p : Ptr) (s : NodeState) : NodeState → Prop where
  | intro {pindexNew : CBlockIndex} {view : CCoinsViewCache} {vtxundo : CBlockUndo}
      {t u : NodeState} (entry : s.mapBlockIndex[p]? = some pindexNew)
      (tip : pindexNew.pprev = s.chainActive.Tip)
      (connect : ConnectBlock cfg
        (s.blockContext pindexNew (s.ticks 0).nAdjustedTime) (s.readBlock p)
        s.pcoinsTip false = .ok (view, vtxundo))
      (undo : writeUndo cfg p pindexNew vtxundo s.ticked = .done () t)
      (pool : (s.readBlock p).vtx.forM (confirm cfg) (t.writeCoins view) =
        .done () u) :
      Connected cfg p s
        { u with
          chainActive := u.chainActive.SetTip cfg u.mapBlockIndex true (some p) }

/-- Mark an entry as failed and take it out of the set. -/
def NodeState.markFailed (s : NodeState) (p : Ptr) (f : BlockStatus → BlockStatus) :
    NodeState :=
  (s.setStatus p f).erase p

/-- The entry is invalid in its own right. -/
def BlockStatus.failValid (nStatus : BlockStatus) : BlockStatus :=
  { nStatus with failedValid := true }

/-- The block of the entry has been rejected; the entry is marked unless the
rejection may be due to corruption or is none of the block. -/
inductive Rejected (cfg : Config) (p : Ptr) (s : NodeState) :
    CValidationState → NodeState → Prop where
  | marked {pindexNew : CBlockIndex} {state : CValidationState} {best : Option Ptr}
      (entry : s.mapBlockIndex[p]? = some pindexNew)
      (tip : pindexNew.pprev = s.chainActive.Tip)
      (reject : ConnectBlock cfg
        (s.blockContext pindexNew (s.ticks 0).nAdjustedTime) (s.readBlock p)
        s.pcoinsTip false = .error (.reject state))
      (invalid : state.IsInvalid = true) (certain : state.CorruptionPossible = false) :
      Rejected cfg p s state
        { s.ticked.markFailed p BlockStatus.failValid with pindexBestInvalid := best }
  | unmarked {pindexNew : CBlockIndex} {state : CValidationState}
      (entry : s.mapBlockIndex[p]? = some pindexNew)
      (tip : pindexNew.pprev = s.chainActive.Tip)
      (reject : ConnectBlock cfg
        (s.blockContext pindexNew (s.ticks 0).nAdjustedTime) (s.readBlock p)
        s.pcoinsTip false = .error (.reject state))
      (unsure : state.IsInvalid = false ∨ state.CorruptionPossible = true) :
      Rejected cfg p s state s.ticked

theorem invalidChainFound_meets (p : Ptr) (s : NodeState) :
    (InvalidChainFound p s).Meets
      (fun _ s' => ∃ best, s' = { s with pindexBestInvalid := best })
      (fun _ _ => False) fun _ => True := by
  unfold InvalidChainFound
  rw [Machine.get_bind_run]
  cases hentry : s.mapBlockIndex.deref (some p) with
  | none =>
      rw [deref_bind_run_none hentry]
      trivial
  | some pindexNew =>
      rw [deref_bind_run hentry]
      have hlog : ∀ u : NodeState, ((do
          let _ ← Node.deref s.chainActive.Tip : Node Unit) u).Meets
          (fun _ s' => s' = u) (fun _ _ => False) fun _ => True := by
        intro u
        cases hderef : u.mapBlockIndex.deref s.chainActive.Tip with
        | none =>
            rw [deref_bind_run_none hderef]
            trivial
        | some entry =>
            rw [deref_bind_run hderef]
            rfl
      refine Meets.ite (fun _ => ?_) fun _ => ?_
      · rw [Machine.modify_bind_run]
        exact Meets.mono (hlog _) (fun _ _ h => ⟨some p, h⟩) (fun _ _ h => h)
          fun _ h => h
      · exact Meets.mono (hlog s) (fun _ _ h => ⟨s.pindexBestInvalid, h⟩)
          (fun _ _ h => h) fun _ h => h

/-- What `ConnectTip` does. -/
theorem connectTip_meets (cfg : Config) (p : Ptr) (s : NodeState) :
    (ConnectTip cfg p s).Meets (fun _ => Connected cfg p s) (Rejected cfg p s)
      fun _ => True := by
  unfold ConnectTip
  rw [Machine.get_bind_run]
  cases hentry : s.mapBlockIndex.deref (some p) with
  | none =>
      rw [deref_bind_run_none hentry]
      trivial
  | some pindexNew =>
      rw [deref_bind_run hentry]
      refine Meets.ite (fun _ => trivial) fun htip => ?_
      rw [not_not] at htip
      dsimp only
      rw [tick_bind_run]
      cases hconnect : ConnectBlock cfg
          (s.blockContext pindexNew (s.ticks 0).nAdjustedTime) (s.readBlock p)
          s.pcoinsTip false with
      | error e =>
          cases e with
          | fault e => trivial
          | reject state =>
              dsimp only
              refine Meets.ite (fun hinvalid => ?_) fun hvalid => ?_
              · unfold InvalidBlockFound
                by_cases hcorrupt : state.CorruptionPossible = false
                · rw [if_pos hcorrupt]
                  refine Meets.bind (D := fun _ s' => ∃ best, s' =
                    { s.ticked.markFailed p BlockStatus.failValid with
                      pindexBestInvalid := best }) ?_ fun _ s' hs' => ?_
                  · rw [Machine.modify_bind_run]
                    exact Meets.mono (invalidChainFound_meets p _) (fun _ _ h => h)
                      (fun _ _ h => h.elim) fun _ h => h
                  · obtain ⟨best, rfl⟩ := hs'
                    exact .marked hentry htip hconnect hinvalid hcorrupt
                · rw [if_neg hcorrupt]
                  exact .unmarked hentry htip hconnect (.inr (by simpa using hcorrupt))
              · exact .unmarked hentry htip hconnect (.inl (by simpa using hvalid))
      | ok r =>
          obtain ⟨view, vtxundo⟩ := r
          obtain ⟨tree, undoFiles, hundo, _⟩ :=
            writeUndo_run cfg p pindexNew vtxundo s.ticked
          dsimp only
          rw [Machine.bind_run_done hundo, Machine.modify_bind_run,
            writeChainState_run]
          have hpool : MovesPool ((s.readBlock p).vtx.forM (confirm cfg))
              (NodeState.writeCoins { s.ticked with
                mapBlockIndex := tree, undoFiles := undoFiles } view) :=
            MovesPool.forM (movesPool_confirm cfg)
          exact Meets.bind (hpool.run _) fun _ u hu =>
            .intro hentry htip hconnect hundo hu

end Ziftrcoin.Spec
