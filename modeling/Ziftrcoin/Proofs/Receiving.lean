/-
Module: Ziftrcoin.Proofs.Receiving
Purpose: Which received blocks stop a node at an assertion about the block's
  own data.
Trusted boundary: none
Main exports: ReceivedSafely, processBlock_asserts_iff
-/
import Ziftrcoin.Proofs.Runs
import Ziftrcoin.Proofs.SmallNetwork

namespace Ziftrcoin.Spec

open Ziftrcoin.Lib
open Ziftrcoin.Lib.Outcome

/-! ### Two invariants -/

/-- Nothing that happens to a node stops it at an assertion about a block. -/
theorem nodeInvariant_otherFault (cfg : Config) :
    NodeInvariant cfg (fun _ => True) OtherFault where
  other := fun _ h => h
  world := fun _ _ _ => trivial
  transaction := fun _ _ => trivial
  entry := fun _ _ _ _ => trivial
  activate := fun fuel _ => Meets.mono (framed_activateBestChain cfg fuel _)
    (fun _ _ _ => trivial) (fun _ _ _ => trivial) fun _ h => h

/-- A hash that is in the index stays there. -/
theorem nodeInvariant_find (cfg : Config) (hash : uint256) :
    NodeInvariant cfg (fun s => (s.mapBlockIndex.find hash).isSome = true)
      OtherFault where
  other := fun _ h => h
  world := fun _ _ h => h
  transaction := fun h _ => h
  entry := fun _ h _ _ => find_addEntry (.inl h)
  activate := fun fuel h => Meets.mono (framed_activateBestChain cfg fuel _)
    (fun _ _ hr => hr.find_isSome h) (fun _ _ hr => hr.find_isSome h) fun _ hr => hr

/-! ### Receiving a block -/

/-- The block is in the index or kept as an orphan. -/
def Known (s : NodeState) (hash : uint256) : Prop :=
  (s.mapBlockIndex.find hash).isSome = true ∨
    ∃ o ∈ s.mapOrphanBlocks, o.hashBlock = hash

/-- A block from a peer is accepted or stored as an orphan, or it is rejected;
if the node does not come back, then not for an assertion in `CalculatePoK`,
`CheckProofOfWork` or `GetTxHash`. -/
def ReceivedSafely (cfg : Config) (fuel : Nat) (block : CBlock) (s : NodeState) :
    Prop :=
  (ProcessBlock cfg fuel true block s).Meets
    (fun _ s' => ∃ nPoK, block.CalculatePoK cfg.crypto = .ok nPoK ∧
      Known s' ((block.SetPoK nPoK).GetHash cfg.crypto))
    (fun _ _ => True) OtherFault

theorem errs_preliminaryChecks {cfg : Config} {s : NodeState}
    {nAdjustedTime : Int} {block : CBlock}
    (h : block.IsPoKBlock = false ∨ block.vtx ≠ []) :
    Errs OtherStop (preliminaryChecks cfg s nAdjustedTime block) := by
  refine Errs.bind ?_ fun nPoK _ => ?_
  · rcases h with h | h
    · unfold CBlock.CalculatePoK
      refine Errs.ite (fun _ => Errs.ok _) fun hpok => absurd h hpok
    · exact errs_calculatePoK cfg.crypto h
  refine errs_guard fun _ => ?_
  refine errs_guard fun _ => ?_
  refine (errs_checkBlock _ _ _ _ _ _).bind fun block' _ => ?_
  refine Errs.bind ?_ fun _ _ => Errs.ok _
  unfold checkpointChecks
  cases cfg.GetLastCheckpoint s.mapBlockIndex with
  | none => exact Errs.ok ()
  | some pcheckpoint =>
      refine Errs.ite (fun _ => ?_) fun _ => Errs.ok ()
      refine errs_guard fun _ => ?_
      exact errs_guard fun _ => Errs.ok ()

/-- What becomes of a block that the preliminary checks can handle. -/
theorem receivedSafely_of_errs {cfg : Config} {fuel : Nat} {block : CBlock}
    {s : NodeState} (hs : Settled cfg s)
    (hsafe : ∀ nAdjustedTime, Errs OtherStop
      (preliminaryChecks cfg s.ticked nAdjustedTime block)) :
    ReceivedSafely cfg fuel block s := by
  have hs' : Settled cfg s.ticked := ⟨hs.genesis, hs.orphans⟩
  unfold ReceivedSafely ProcessBlock
  rw [tick_bind_run, Machine.get_bind_run]
  cases hblock : preliminaryChecks cfg s.ticked (s.ticks 0).nAdjustedTime block with
  | error e =>
      cases e with
      | reject state => trivial
      | fault e => exact hsafe _ _ hblock
  | ok block' =>
      obtain ⟨nPoK, hpok, rfl, hcheck⟩ := preliminaryChecks_ok hblock
      have hchecked : CheckedBlock cfg (block.SetPoK nPoK) := ⟨_, _, _, hcheck⟩
      rw [ofRun_ok_bind_run]
      refine Meets.ite (fun _ => ?_) fun _ => ?_
      · rw [if_pos rfl]
        exact Meets.mono ((nodeInvariant_otherFault cfg).addOrphan trivial hs'
          (hchecked.withTree _)) (fun _ _ hr => ⟨nPoK, hpok, .inr hr.2⟩)
          (fun _ _ _ => trivial) fun _ hr => hr
      · refine Meets.bind (Meets.mono ((nodeInvariant_otherFault cfg).acceptBlock
          fuel trivial hs' hchecked) (fun _ _ hr => hr) (fun _ _ _ => trivial)
          fun _ hr => hr) fun _ s₁ hs₁ => ?_
        rw [Machine.get_bind_run]
        have hqueue := (nodeInvariant_find cfg _).processOrphans fuel
          (s₁.mapOrphanBlocks.length + 1)
          [((block.SetPoK nPoK).BuildMerkleTree cfg.crypto).GetHash cfg.crypto]
          hs₁.2 hs₁.1.2
        exact Meets.mono hqueue (fun _ _ hr => ⟨nPoK, hpok, .inl hr.1⟩)
          (fun _ _ _ => trivial) fun _ hr => hr

/-- The proof of knowledge is calculated before anything is checked. -/
theorem processBlock_emptyPoK {cfg : Config} {fuel : Nat} {block : CBlock}
    (hpok : block.IsPoKBlock = true) (hempty : block.vtx = []) (s : NodeState) :
    ProcessBlock cfg fuel true block s = .faulted (.crash .CalculatePoK_vtx) := by
  have hcalc : block.CalculatePoK cfg.crypto = Run.crash .CalculatePoK_vtx := by
    unfold CBlock.CalculatePoK
    simp only [hpok, hempty, Bool.true_eq_false, if_false, List.length_nil,
      Nat.lt_irrefl, Run.assert, Run.crash, error_bind]
  have hchecks : ∀ u nAdjustedTime, preliminaryChecks cfg u nAdjustedTime block =
      Run.crash .CalculatePoK_vtx := by
    intro u nAdjustedTime
    unfold preliminaryChecks
    rw [hcalc]
    rfl
  unfold ProcessBlock
  rw [Machine.bind_run_done (x := Node.tick) rfl, Machine.get_bind_run, hchecks]
  rfl

theorem not_receivedSafely_emptyPoK {cfg : Config} {fuel : Nat} {block : CBlock}
    (hpok : block.IsPoKBlock = true) (hempty : block.vtx = []) (s : NodeState) :
    ¬ ReceivedSafely cfg fuel block s := by
  intro hsafe
  unfold ReceivedSafely at hsafe
  rw [processBlock_emptyPoK hpok hempty] at hsafe
  exact hsafe _ List.mem_cons_self rfl

/-- In every reachable state a block from a peer is received without reaching
an assertion about its own data, exactly when it does not claim a proof of
knowledge about no transactions at all. -/
theorem processBlock_asserts_iff {cfg : Config} {s : NodeState}
    (hs : Reachable cfg s) (fuel : Nat) (block : CBlock) :
    ReceivedSafely cfg fuel block s ↔
      block.IsPoKBlock = false ∨ block.vtx ≠ [] := by
  constructor
  · intro hsafe
    by_contra hbad
    rw [not_or, Bool.not_eq_false, not_not] at hbad
    exact not_receivedSafely_emptyPoK hbad.1 hbad.2 s hsafe
  · intro h
    exact receivedSafely_of_errs hs.settled fun _ => errs_preliminaryChecks h

/-- A node of the small network that has just started. -/
def quietStart : NodeState := started (smallNet (smallGenesis [⟨50, anyoneCanSpend⟩]))
  fun _ => quiet

theorem reachable_quietStart :
    Reachable (smallNet (smallGenesis [⟨50, anyoneCanSpend⟩])) quietStart :=
  reachable_started (by decide +kernel)

/-- A block with the flag for a proof of knowledge set. -/
def flaggedBlock (vtx : List CTransaction) : CBlock :=
  { smallBlock 2 1 (hashOfNonce 1) vtx with nVersion := 0x8001 }

/-- One transaction is enough for the flag. -/
theorem receivedSafely_one_transaction :
    ReceivedSafely (smallNet (smallGenesis [⟨50, anyoneCanSpend⟩])) 2
      (flaggedBlock [coinbaseTx 2 1 [⟨50, anyoneCanSpend⟩]]) quietStart := by
  rw [processBlock_asserts_iff reachable_quietStart]
  exact .inr (List.cons_ne_nil _ _)

/-- The flag on a block without transactions stops the node that receives
it. -/
theorem not_receivedSafely_no_transactions :
    Reachable (smallNet (smallGenesis [⟨50, anyoneCanSpend⟩])) quietStart ∧
      ¬ ReceivedSafely (smallNet (smallGenesis [⟨50, anyoneCanSpend⟩])) 2
        (flaggedBlock []) quietStart :=
  ⟨reachable_quietStart, not_receivedSafely_emptyPoK (by decide) rfl quietStart⟩

end Ziftrcoin.Spec
