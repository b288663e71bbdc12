/-
Module: Ziftrcoin.Proofs.NodeFrame
Purpose: What activating a chain leaves alone: the stored blocks, the orphans,
  and of the index everything but the flags.
Trusted boundary: none
Main exports: Frame, framed_activateBestChain
-/
import Ziftrcoin.Proofs.BlockAsserts

namespace Ziftrcoin.Spec

open Ziftrcoin.Lib
open Ziftrcoin.Lib.Outcome

/-! ### Running a call -/

@[simp] theorem tick_bind_run {α : Type} (f : Tick → Node α) (s : NodeState) :
    (Node.tick >>= f) s = f (s.ticks 0) s.ticked := rfl

@[simp] theorem ofRun_ok_bind_run {α β : Type} (a : α) (f : α → Node β)
    (s : NodeState) : (Node.ofRun (.ok a) >>= f) s = f a s := rfl

@[simp] theorem ofRun_reject_bind_run {α β : Type} (state : CValidationState)
    (f : α → Node β) (s : NodeState) :
    (Node.ofRun (.error (.reject state)) >>= f) s = .refused state s := rfl

@[simp] theorem ofRun_fault_bind_run {α β : Type} (e : Fault) (f : α → Node β)
    (s : NodeState) : (Node.ofRun (.error (.fault e)) >>= f) s = .faulted e := rfl

theorem deref_bind_run {α : Type} {pindex : Option Ptr} {entry : CBlockIndex}
    {s : NodeState} (h : s.mapBlockIndex.deref pindex = some entry)
    (f : CBlockIndex → Node α) : (Node.deref pindex >>= f) s = f entry s := by
  have hrun : Node.deref pindex s = .done entry s := by
    unfold Node.deref
    rw [Machine.get_bind_run, h]
    rfl
  exact Machine.bind_run_done hrun

theorem deref_bind_run_none {α : Type} {pindex : Option Ptr} {s : NodeState}
    (h : s.mapBlockIndex.deref pindex = none) (f : CBlockIndex → Node α) :
    (Node.deref pindex >>= f) s = .faulted (.crash .blockIndex) := by
  have hrun : Node.deref pindex s = .faulted (.crash .blockIndex) := by
    unfold Node.deref
    rw [Machine.get_bind_run, h]
    rfl
  rw [Machine.bind_run, hrun]

/-! ### The frame -/

/-- Changing an element does not show in what does not depend on the change. -/
theorem map_modify_of_eq {α β : Type} {f : α → α} {g : α → β} (xs : List α)
    (i : Nat) (h : ∀ a, g (f a) = g a) : (xs.modify i f).map g = xs.map g := by
  refine List.ext_getElem? fun j => ?_
  rw [List.getElem?_map, List.getElem?_map, List.getElem?_modify]
  cases xs[j]? with
  | none => simp
  | some a =>
      by_cases hij : i = j
      · simp [hij, h]
      · simp [hij]

/-- An entry without its flags. -/
def CBlockIndex.fixed (pindex : CBlockIndex) : CBlockIndex :=
  { pindex with nStatus := default }

/-- The second state has the blocks, the orphans and the index of the first,
but for flags of entries. -/
structure Frame (s s' : NodeState) : Prop where
  index : s'.mapBlockIndex.map CBlockIndex.fixed =
    s.mapBlockIndex.map CBlockIndex.fixed
  blockFiles : s'.blockFiles = s.blockFiles
  mapFirstTimeSeen : s'.mapFirstTimeSeen = s.mapFirstTimeSeen
  nBlockSequenceId : s'.nBlockSequenceId = s.nBlockSequenceId
  mapOrphanBlocks : s'.mapOrphanBlocks = s.mapOrphanBlocks

namespace Frame

theorem refl (s : NodeState) : Frame s s := ⟨rfl, rfl, rfl, rfl, rfl⟩

theorem trans {s s' s'' : NodeState} (h : Frame s s') (h' : Frame s' s'') :
    Frame s s'' :=
  ⟨h'.index.trans h.index, h'.blockFiles.trans h.blockFiles,
    h'.mapFirstTimeSeen.trans h.mapFirstTimeSeen,
    h'.nBlockSequenceId.trans h.nBlockSequenceId,
    h'.mapOrphanBlocks.trans h.mapOrphanBlocks⟩

theorem setStatus (s : NodeState) (p : Ptr) (f : BlockStatus → BlockStatus) :
    Frame s (s.setStatus p f) :=
  ⟨map_modify_of_eq s.mapBlockIndex p fun _ => rfl, rfl, rfl, rfl, rfl⟩

theorem erase (s : NodeState) (p : Ptr) : Frame s (s.erase p) :=
  ⟨rfl, rfl, rfl, rfl, rfl⟩

end Frame

/-- The call keeps the frame however it comes back, and does not stop at an
assertion about a block. -/
def Framed {α : Type} (x : Node α) (s : NodeState) : Prop :=
  (x s).Meets (fun _ => Frame s) (fun _ => Frame s) OtherFault

namespace Framed

variable {α β : Type} {x : Node α} {s : NodeState}

theorem bind {f : α → Node β} (hx : Framed x s)
    (hf : ∀ a s', Framed (f a) s') : Framed (x >>= f) s := by
  refine Meets.bind hx fun a s' hs' => ?_
  exact Meets.mono (hf a s') (fun _ _ h => hs'.trans h) (fun _ _ h => hs'.trans h)
    fun _ h => h

theorem pure (a : α) : Framed (Pure.pure a : Node α) s := Frame.refl s

theorem refuse (state : CValidationState) :
    Framed (Machine.refuse state : Node α) s := Frame.refl s

theorem fault {e : Fault} (h : OtherFault e) :
    Framed (Machine.fault e : Node α) s := h

theorem crash {site : Site} (h : site ∉ blockAsserts) :
    Framed (Node.crash site : Node α) s := by
  apply fault
  intro site' hmem heq
  injection heq with heq
  exact h (heq ▸ hmem)

theorem get {f : NodeState → Node β} (hf : ∀ t, Framed (f t) s) :
    Framed (Machine.get >>= f) s := hf s

theorem modify {f : NodeState → NodeState} (h : Frame s (f s)) :
    Framed (Machine.modify f) s := h

theorem ite {c : Prop} [Decidable c] {y : Node α} (hx : c → Framed x s)
    (hy : ¬ c → Framed y s) : Framed (if c then x else y) s := by
  by_cases h : c
  · rw [if_pos h]
    exact hx h
  · rw [if_neg h]
    exact hy h

theorem ofRun {r : Run α} (h : Errs OtherStop r) : Framed (Node.ofRun r) s := by
  cases r with
  | ok a => exact Frame.refl s
  | error e =>
      cases e with
      | reject state => exact Frame.refl s
      | fault e => exact h _ rfl

theorem attempt (h : Framed x s) : Framed (Machine.attempt x) s :=
  Meets.attempt h

theorem forM {f : α → Node Unit} (h : ∀ a s, Framed (f a) s) :
    ∀ {xs : List α} {s : NodeState}, Framed (xs.forM f) s
  | [], _ => pure ()
  | x :: _, s => bind (h x s) fun _ _ => forM h

end Framed

/-! ### Every call keeps it -/

theorem framed_tick (s : NodeState) : Framed Node.tick s :=
  ⟨rfl, rfl, rfl, rfl, rfl⟩

theorem framed_deref (pindex : Option Ptr) (s : NodeState) :
    Framed (Node.deref pindex) s := by
  refine .get fun t => ?_
  cases t.mapBlockIndex.deref pindex with
  | none => exact .crash (by decide)
  | some entry => exact .pure entry

theorem framed_acceptTransaction (cfg : Config) (tx : CTransaction)
    (fLimitFree fRejectInsaneFee : Bool) (s : NodeState) :
    Framed (acceptTransaction cfg tx fLimitFree fRejectInsaneFee) s := by
  refine (framed_tick s).bind fun t s => ?_
  refine .get fun u => ?_
  refine (Framed.ofRun (errs_acceptToMemoryPool _ _ _ _ _ _)).bind fun _ _ => ?_
  exact .modify ⟨rfl, rfl, rfl, rfl, rfl⟩

theorem framed_removeTransaction (cfg : Config) (tx : CTransaction)
    (fRecursive : Bool) (s : NodeState) :
    Framed (removeTransaction cfg tx fRecursive) s := by
  refine .get fun u => ?_
  refine (Framed.ofRun (poolStop_remove.mono fun _ => PoolStop.other)).bind fun _ _ => ?_
  exact .modify ⟨rfl, rfl, rfl, rfl, rfl⟩

theorem framed_removeConflicting (cfg : Config) (tx : CTransaction)
    (s : NodeState) : Framed (removeConflicting cfg tx) s := by
  refine .get fun u => ?_
  have hstops := (poolStop_removeConflicts cfg.crypto tx (u.mempool, [])).mono
    fun _ => PoolStop.other
  refine (Framed.ofRun hstops).bind fun _ _ => ?_
  exact .modify ⟨rfl, rfl, rfl, rfl, rfl⟩

theorem framed_writeChainState (s : NodeState) : Framed WriteChainState s := by
  refine (framed_tick s).bind fun t s => ?_
  exact .ite (fun _ => .modify ⟨rfl, rfl, rfl, rfl, rfl⟩) fun _ => .pure ()

theorem framed_updateTip (cfg : Config) (pindexNew : Option Ptr)
    (s : NodeState) : Framed (UpdateTip cfg pindexNew) s :=
  .modify ⟨rfl, rfl, rfl, rfl, rfl⟩

theorem framed_resurrect (cfg : Config) (tx : CTransaction) (s : NodeState) :
    Framed (resurrect cfg tx) s := by
  refine .ite (fun _ => ?_) fun _ => .pure ()
  refine (framed_acceptTransaction cfg tx false false s).attempt.bind
    fun accepted s => ?_
  cases accepted with
  | ok _ => exact .pure ()
  | error _ => exact framed_removeTransaction cfg tx true s

theorem framed_disconnectTip (cfg : Config) (s : NodeState) :
    Framed (DisconnectTip cfg) s := by
  refine .get fun u => ?_
  cases u.chainActive.Tip with
  | none => exact .crash (by decide)
  | some p =>
      refine (framed_deref (some p) s).bind fun pindexDelete s => ?_
      refine (Framed.ofRun (errs_disconnectBlock _ _ _ _ _)).bind
        fun result s => ?_
      refine .ite (fun _ => .refuse _) fun _ => ?_
      refine Framed.bind (.modify ⟨rfl, rfl, rfl, rfl, rfl⟩) fun _ s => ?_
      refine (framed_writeChainState s).bind fun _ s => ?_
      refine (Framed.forM (framed_resurrect cfg)).bind fun _ s => ?_
      exact framed_updateTip cfg _ s

theorem framed_invalidChainFound (p : Ptr) (s : NodeState) :
    Framed (InvalidChainFound p) s := by
  refine .get fun u => ?_
  refine (framed_deref (some p) s).bind fun pindexNew s => ?_
  refine Framed.ite (fun _ => ?_) fun _ => ?_
  · refine Framed.bind (.modify ⟨rfl, rfl, rfl, rfl, rfl⟩) fun _ s => ?_
    exact (framed_deref _ s).bind fun _ _ => .pure ()
  · exact (framed_deref _ s).bind fun _ _ => .pure ()

theorem framed_invalidBlockFound (p : Ptr) (state : CValidationState)
    (s : NodeState) : Framed (InvalidBlockFound p state) s := by
  refine .ite (fun _ => ?_) fun _ => .pure ()
  refine Framed.bind (.modify ?_) fun _ s => framed_invalidChainFound p s
  exact (Frame.setStatus s p _).trans (Frame.erase _ p)

theorem framed_writeUndo (cfg : Config) (p : Ptr) (pindex : CBlockIndex)
    (vtxundo : CBlockUndo) (s : NodeState) :
    Framed (writeUndo cfg p pindex vtxundo) s := by
  refine .get fun u => ?_
  refine .ite (fun _ => ?_) fun _ => .pure ()
  refine Framed.bind (.modify ?_) fun _ s => .modify (Frame.setStatus s p _)
  split
  · exact (Frame.setStatus s p fun nStatus =>
      { nStatus with haveUndo := true }).trans ⟨rfl, rfl, rfl, rfl, rfl⟩
  · exact Frame.refl s

theorem framed_connectTip (cfg : Config) (p : Ptr) (s : NodeState) :
    Framed (ConnectTip cfg p) s := by
  refine .get fun u => ?_
  refine (framed_deref (some p) s).bind fun pindexNew s => ?_
  refine .ite (fun _ => .crash (by decide)) fun _ => ?_
  refine (framed_tick s).bind fun t s => ?_
  have herrs := errs_connectBlock cfg (u.blockContext pindexNew t.nAdjustedTime)
    (u.readBlock p) u.pcoinsTip false
  cases hconnect : ConnectBlock cfg (u.blockContext pindexNew t.nAdjustedTime)
      (u.readBlock p) u.pcoinsTip false with
  | error e =>
      cases e with
      | fault e => exact .fault (herrs _ hconnect)
      | reject state =>
          refine Framed.ite (fun _ => ?_) fun _ => .refuse state
          exact (framed_invalidBlockFound p state s).bind fun _ _ => .refuse state
  | ok r =>
      obtain ⟨view, vtxundo⟩ := r
      refine (framed_writeUndo cfg p pindexNew vtxundo s).bind fun _ s => ?_
      refine Framed.bind (.modify ⟨rfl, rfl, rfl, rfl, rfl⟩) fun _ s => ?_
      refine (framed_writeChainState s).bind fun _ s => ?_
      refine Framed.bind (Framed.forM fun tx s => ?_) fun _ s =>
        framed_updateTip cfg _ s
      exact (framed_removeTransaction cfg tx false s).bind fun _ s =>
        framed_removeConflicting cfg tx s

theorem framed_setMostWork (cfg : Config) (pindexNew : Option Ptr)
    (s : NodeState) : Framed (setMostWork cfg pindexNew) s :=
  .modify ⟨rfl, rfl, rfl, rfl, rfl⟩

theorem otherFault_outOfFuel : OtherFault .outOfFuel := by
  intro site _ h
  cases h

theorem framed_dropFailedTips (cfg : Config) :
    ∀ (fuel : Nat) (s : NodeState), Framed (dropFailedTips cfg fuel) s
  | 0, _ => .fault otherFault_outOfFuel
  | fuel + 1, s => by
      refine .get fun u => ?_
      split
      · refine .ite (fun _ => ?_) fun _ => .pure ()
        refine Framed.bind (.modify ⟨rfl, rfl, rfl, rfl, rfl⟩) fun _ s => ?_
        refine (framed_setMostWork cfg _ s).bind fun _ s => ?_
        exact framed_dropFailedTips cfg fuel s
      · exact .pure ()

theorem errs_findFailed {s : NodeState} :
    ∀ {fuel : Nat} {pindexTest : Option Ptr},
      Errs OtherStop (findFailed s fuel pindexTest)
  | 0, _ => Errs.error otherFault_outOfFuel
  | fuel + 1, pindexTest => by
      unfold findFailed
      split
      · refine Errs.ite (fun _ => Errs.ok _) fun _ => ?_
        exact Errs.ite (fun _ => Errs.ok _) fun _ => errs_findFailed
      · exact Errs.ok _

theorem framed_markFailedChildren (pindexTest : Ptr) :
    ∀ (fuel : Nat) (pindexFailed : Option Ptr) (s : NodeState),
      Framed (markFailedChildren pindexTest fuel pindexFailed) s
  | 0, _, _ => .fault otherFault_outOfFuel
  | fuel + 1, pindexFailed, s => by
      refine .ite (fun _ => .pure ()) fun _ => ?_
      cases pindexFailed with
      | none => exact .crash (by decide)
      | some p =>
          refine (framed_deref (some p) s).bind fun entry s => ?_
          refine Framed.bind (.modify ?_) fun _ s =>
            framed_markFailedChildren pindexTest fuel entry.pprev s
          exact (Frame.setStatus s p _).trans (Frame.erase _ p)

theorem framed_findCandidate :
    ∀ (fuel : Nat) (s : NodeState), Framed (findCandidate fuel) s
  | 0, _ => .fault otherFault_outOfFuel
  | fuel + 1, s => by
      refine .get fun u => ?_
      cases u.rbegin with
      | none => exact .pure none
      | some pindexNew =>
          refine (framed_deref (some pindexNew) s).bind fun entry s => ?_
          refine (Framed.ofRun errs_findFailed).bind fun failed s => ?_
          cases failed with
          | none => exact .pure _
          | some pindexTest =>
              refine Framed.ite (fun _ => ?_) fun _ => ?_
              · refine Framed.bind (.modify ⟨rfl, rfl, rfl, rfl, rfl⟩) fun _ s => ?_
                refine (framed_markFailedChildren _ _ _ s).bind fun _ s => ?_
                exact framed_findCandidate fuel s
              · refine (framed_markFailedChildren _ _ _ s).bind fun _ s => ?_
                exact framed_findCandidate fuel s

theorem framed_findMostWorkChain (cfg : Config) (s : NodeState) :
    Framed (FindMostWorkChain cfg) s := by
  refine .get fun u => ?_
  refine (framed_dropFailedTips cfg _ s).bind fun _ s => ?_
  refine .get fun u => ?_
  refine (framed_findCandidate _ s).bind fun candidate s => ?_
  cases candidate with
  | none => exact .pure ()
  | some pindexNew =>
      refine .get fun u => ?_
      cases u.chainMostWork.Tip with
      | none => exact framed_setMostWork cfg _ s
      | some tip =>
          exact .ite (fun _ => framed_setMostWork cfg _ s) fun _ => .pure ()

theorem framed_disconnectLoop (cfg : Config) :
    ∀ (fuel : Nat) (s : NodeState), Framed (disconnectLoop cfg fuel) s
  | 0, _ => .fault otherFault_outOfFuel
  | fuel + 1, s => by
      refine .get fun u => ?_
      cases u.chainActive.Tip with
      | none => exact .pure ()
      | some tip =>
          refine .ite (fun _ => ?_) fun _ => .pure ()
          refine (framed_disconnectTip cfg s).bind fun _ s => ?_
          exact framed_disconnectLoop cfg fuel s

theorem framed_connectLoop (cfg : Config) (tip : Ptr) :
    ∀ (fuel : Nat) (s : NodeState), Framed (connectLoop cfg tip fuel) s
  | 0, _ => .fault otherFault_outOfFuel
  | fuel + 1, s => by
      refine .get fun u => ?_
      refine .ite (fun _ => .pure true) fun _ => ?_
      cases u.chainMostWork.atHeight u.chainActive.vChain.length with
      | none => exact .crash (by decide)
      | some pindexConnect =>
          refine (framed_connectTip cfg pindexConnect s).attempt.bind
            fun connected s => ?_
          cases connected with
          | ok _ => exact framed_connectLoop cfg tip fuel s
          | error state =>
              refine .ite (fun _ => ?_) fun _ => .refuse state
              refine Framed.ite (fun _ => ?_) fun _ => .pure false
              exact (framed_invalidChainFound tip s).bind fun _ _ => .pure false

theorem framed_activateRound (cfg : Config) (s : NodeState) :
    Framed (activateRound cfg) s := by
  refine (framed_findMostWorkChain cfg s).bind fun _ s => ?_
  refine .get fun u => ?_
  cases u.chainMostWork.Tip with
  | none => exact .pure true
  | some tip =>
      refine (framed_disconnectLoop cfg _ s).bind fun _ s => ?_
      exact framed_connectLoop cfg tip _ s

theorem framed_activateBestChain (cfg : Config) :
    ∀ (fuel : Nat) (s : NodeState), Framed (ActivateBestChain cfg fuel) s
  | 0, _ => .fault otherFault_outOfFuel
  | fuel + 1, s => by
      refine (framed_activateRound cfg s).bind fun fComplete s => ?_
      refine .ite (fun _ => ?_) fun _ => .pure ()
      exact framed_activateBestChain cfg fuel s

end Ziftrcoin.Spec
