/-
Module: Ziftrcoin.Spec.CheckQueue
Purpose: Script checks that a master and any number of workers run together.
Trusted boundary: human-reviewed model of CCheckQueue and CCheckQueueControl in
  src/checkqueue.h and of the use ConnectBlock in src/main.cpp makes of them
Main exports: CCheckQueue, Loop_body, CheckPool
-/
import Ziftrcoin.Spec.Validation
import Mathlib.Logic.Relation

namespace Ziftrcoin.Spec

/-! ### The queue -/

/-- What the mutex protects. -/
structure CCheckQueue (T : Type) where
  /-- A stack; its first element is `queue.back()`. -/
  queue : List T
  nIdle : Nat
  nTotal : Nat
  fAllOk : Bool
  nTodo : Nat
  fQuit : Bool

/-- Where a thread that is in `Loop` can be when nobody holds the mutex. -/
inductive LoopPhase (T : Type) where
  /-- In `cond.wait`, and whether it has been notified. -/
  | waiting (notified : Bool)
  /-- It has taken checks and goes to run them. -/
  | working (vChecks : List T) (fOk : Bool)
  /-- It has run `nNow` checks and goes to enter the critical section. -/
  | worked (nNow : Nat) (fOk : Bool)

namespace LoopPhase

variable {T : Type}

/-- The condition variable wakes the thread, if it waits. -/
def notify : LoopPhase T → LoopPhase T
  | .waiting _ => .waiting true
  | phase => phase

end LoopPhase

section

variable {T : Type}

/-- The constructor. -/
def CCheckQueue.new : CCheckQueue T :=
  { queue := [], nIdle := 0, nTotal := 0, fAllOk := true, nTodo := 0, fQuit := false }

/-- How many checks a thread takes; the quotient is unsigned. -/
def CCheckQueue.nNow (nBatchSize : Nat) (q : CCheckQueue T) : Nat :=
  max 1 (min nBatchSize (uint32 q.queue.length / (q.nTotal + q.nIdle + 1)))

/-- The part of a critical section of `Loop` that follows the clean-up.  The
thread returns a status, or it waits or takes checks. -/
def Loop_body (nBatchSize : Nat) (fMaster : Bool) (q : CCheckQueue T) :
    CCheckQueue T × (Bool ⊕ LoopPhase T) :=
  if q.queue.isEmpty then
    if (fMaster || q.fQuit) && q.nTodo == 0 then
      ({ q with
          nTotal := q.nTotal - 1
          -- reset the status for new work later
          fAllOk := if fMaster then true else q.fAllOk }, .inl q.fAllOk)
    else ({ q with nIdle := q.nIdle + 1 }, .inr (.waiting false))
  else
    ({ q with queue := q.queue.drop (q.nNow nBatchSize) },
      .inr (.working (q.queue.take (q.nNow nBatchSize)) q.fAllOk))

/-- The first iteration. -/
def Loop_enter (q : CCheckQueue T) : CCheckQueue T :=
  { q with nTotal := q.nTotal + 1 }

/-- The clean-up of the previous iteration.  The difference is unsigned. -/
def Loop_cleanup (nNow : Nat) (fOk : Bool) (q : CCheckQueue T) : CCheckQueue T :=
  { q with fAllOk := q.fAllOk && fOk, nTodo := uint32 (q.nTodo + 2 ^ 32 - nNow) }

/-- The thread has the mutex again after `cond.wait`. -/
def Loop_wake (q : CCheckQueue T) : CCheckQueue T :=
  { q with nIdle := q.nIdle - 1 }

/-- The checks of a batch that were run and that were not, and the status. -/
structure BatchRun (T : Type) where
  ran : List T
  skipped : List T
  fOk : Bool

/-- The lock-free part of an iteration. -/
def runBatch (check : T → Bool) : Bool → List T → BatchRun T
  | fOk, [] => { ran := [], skipped := [], fOk }
  | fOk, c :: vChecks =>
      if fOk then
        let rest := runBatch check (check c) vChecks
        { rest with ran := c :: rest.ran }
      else
        let rest := runBatch check fOk vChecks
        { rest with skipped := c :: rest.skipped }

/-- `Add` moves the checks to the queue.  The sum is unsigned. -/
def CCheckQueue.add (vChecks : List T) (q : CCheckQueue T) : CCheckQueue T :=
  { q with
    queue := vChecks.reverse ++ q.queue
    nTodo := uint32 (q.nTodo + vChecks.length) }

/-! ### Master and workers -/

/-- What became of the checks that were added under one `CCheckQueueControl`. -/
structure CheckRound (T : Type) where
  added : List T
  ran : List T
  skipped : List T
  /-- What `Wait` returned. -/
  fRet : Bool

/-- A queue with the threads that are in `Loop`. -/
structure CheckPool (T : Type) where
  pqueue : CCheckQueue T
  workers : List (LoopPhase T)
  /-- The master, when it is in `Wait`. -/
  master : Option (LoopPhase T)
  /-- There is a `CCheckQueueControl` that has not waited yet. -/
  control : Bool
  /-- The checks that were added under it, run and passed over. -/
  added : List T
  ran : List T
  skipped : List T
  /-- What came of the earlier ones. -/
  rounds : List (CheckRound T)

namespace CheckPool

/-- Nobody uses the queue yet. -/
def new : CheckPool T :=
  { pqueue := .new, workers := [], master := none, control := false, added := []
    ran := [], skipped := [], rounds := [] }

/-- A worker between `before` and `after` comes out of a critical section. -/
def leaveWorker (s : CheckPool T) (before after : List (LoopPhase T))
    (left : CCheckQueue T × (Bool ⊕ LoopPhase T)) : CheckPool T :=
  { s with
    pqueue := left.1
    workers := before ++ left.2.elim (fun _ => []) (fun phase => [phase]) ++ after }

/-- The master comes out of a critical section.  When it returns from `Wait`,
the control object has done its work. -/
def leaveMaster (s : CheckPool T) (left : CCheckQueue T × (Bool ⊕ LoopPhase T)) :
    CheckPool T :=
  match left.2 with
  | .inr phase => { s with pqueue := left.1, master := some phase }
  | .inl fRet =>
      { s with
        pqueue := left.1, master := none, control := false
        rounds :=
          { added := s.added, ran := s.ran, skipped := s.skipped, fRet } :: s.rounds
        added := [], ran := [], skipped := [] }

/-- A worker that has processed the last check informs the master. -/
def informMaster (s : CheckPool T) (nTodo : Nat) : CheckPool T :=
  if nTodo = 0 then { s with master := s.master.map LoopPhase.notify } else s

def batchRan (s : CheckPool T) (batch : BatchRun T) : CheckPool T :=
  { s with ran := batch.ran ++ s.ran, skipped := batch.skipped ++ s.skipped }

end CheckPool

/-- `condWorker.notify_one`: one of those that wait is woken, if any does. -/
inductive NotifyOne : List (LoopPhase T) → List (LoopPhase T) → Prop where
  | one (before after : List (LoopPhase T)) :
      NotifyOne (before ++ .waiting false :: after) (before ++ .waiting true :: after)
  | nobody {workers : List (LoopPhase T)} (h : LoopPhase.waiting false ∉ workers) :
      NotifyOne workers workers

/-- What `Add` does about the workers. -/
inductive NotifyWorkers (nChecks : Nat) :
    List (LoopPhase T) → List (LoopPhase T) → Prop where
  | none {workers : List (LoopPhase T)} (h : nChecks = 0) :
      NotifyWorkers nChecks workers workers
  | one {workers workers' : List (LoopPhase T)} (h : nChecks = 1)
      (hone : NotifyOne workers workers') : NotifyWorkers nChecks workers workers'
  | all {workers : List (LoopPhase T)} (h : 1 < nChecks) :
      NotifyWorkers nChecks workers (workers.map LoopPhase.notify)

/-- The kinds of steps. -/
inductive CheckAct where
  | control
  | add
  | wait
  | join
  | run
  | fold
  /-- A thread that waits comes back, notified or not. -/
  | wake (notified : Bool)
deriving DecidableEq

/-- The steps that bring a round to its end: checks are run, results are taken
in, and whoever was notified comes back. -/
def CheckAct.Proper : CheckAct → Prop
  | .run | .fold | .wake true => True
  | _ => False

/-- One critical section, or the lock-free part of an iteration.  The checks of
a block are so few that the counter does not overflow. -/
inductive CheckStep (check : T → Bool) (nBatchSize : Nat) (s : CheckPool T) :
    CheckAct → CheckPool T → Prop where
  | control (hmaster : s.master = none) (hcontrol : s.control = false) :
      CheckStep check nBatchSize s .control { s with control := true }
  | add {vChecks : List T} {workers : List (LoopPhase T)} (hmaster : s.master = none)
      (hcontrol : s.control = true) (hfits : s.pqueue.nTodo + vChecks.length < 2 ^ 32)
      (hnotify : NotifyWorkers vChecks.length s.workers workers) :
      CheckStep check nBatchSize s .add
        { s with pqueue := s.pqueue.add vChecks, workers, added := s.added ++ vChecks }
  | wait (hmaster : s.master = none) (hcontrol : s.control = true) :
      CheckStep check nBatchSize s .wait
        (s.leaveMaster (Loop_body nBatchSize true (Loop_enter s.pqueue)))
  | join (before after : List (LoopPhase T)) (h : s.workers = before ++ after) :
      CheckStep check nBatchSize s .join
        (s.leaveWorker before after (Loop_body nBatchSize false (Loop_enter s.pqueue)))
  | workerRuns {before after : List (LoopPhase T)} {vChecks : List T} {fOk : Bool}
      (h : s.workers = before ++ .working vChecks fOk :: after) :
      CheckStep check nBatchSize s .run
        { s.batchRan (runBatch check fOk vChecks) with
          workers := before ++
            .worked vChecks.length (runBatch check fOk vChecks).fOk :: after }
  | masterRuns {vChecks : List T} {fOk : Bool} (h : s.master = some (.working vChecks fOk)) :
      CheckStep check nBatchSize s .run
        { s.batchRan (runBatch check fOk vChecks) with
          master := some (.worked vChecks.length (runBatch check fOk vChecks).fOk) }
  | workerFolds {before after : List (LoopPhase T)} {nNow : Nat} {fOk : Bool}
      (h : s.workers = before ++ .worked nNow fOk :: after) :
      CheckStep check nBatchSize s .fold
        ((s.informMaster (Loop_cleanup nNow fOk s.pqueue).nTodo).leaveWorker before after
          (Loop_body nBatchSize false (Loop_cleanup nNow fOk s.pqueue)))
  | masterFolds {nNow : Nat} {fOk : Bool} (h : s.master = some (.worked nNow fOk)) :
      CheckStep check nBatchSize s .fold
        (s.leaveMaster (Loop_body nBatchSize true (Loop_cleanup nNow fOk s.pqueue)))
  | workerWakes {before after : List (LoopPhase T)} {notified : Bool}
      (h : s.workers = before ++ .waiting notified :: after) :
      CheckStep check nBatchSize s (.wake notified)
        (s.leaveWorker before after (Loop_body nBatchSize false (Loop_wake s.pqueue)))
  | masterWakes {notified : Bool} (h : s.master = some (.waiting notified)) :
      CheckStep check nBatchSize s (.wake notified)
        (s.leaveMaster (Loop_body nBatchSize true (Loop_wake s.pqueue)))

/-- The states that any interleaving leads to. -/
def CheckRun (check : T → Bool) (nBatchSize : Nat) : CheckPool T → Prop :=
  Relation.ReflTransGen (fun s s' => ∃ act, CheckStep check nBatchSize s act s') .new

end

/-! ### Connecting a block -/

/-- `ConnectBlock` up to `control.Wait()`: the state of its loop, with the checks
that it has added to the queue when there are threads for them. -/
def ConnectBlock_collect (cfg : Config) (ctx : BlockContext) (block : CBlock)
    (view : CCoinsViewCache) (fJustCheck : Bool) : Run ConnectState := do
  let block ← CheckBlock cfg ctx.nAdjustedTime block ctx.nMaxBlockSize
    (!fJustCheck) (!fJustCheck)
  Run.assert .ConnectBlock_prev (ctx.hashPrev.getD 0 = view.hashBlock)
  let fScriptChecks := decide (cfg.GetTotalBlocksEstimate ≤ ctx.nHeight)
  checkOverwrite view block
  let acc ← block.vtx.zipIdx.foldlM (connectTx cfg ctx fScriptChecks block)
    { view, nFees := 0, nSigOps := 0, vtxundo := [], vChecks := [] }
  let coinbase ← Run.get .ConnectBlock_vtx block.vtx 0
  let nValueOut ← valueOut coinbase
  if cfg.GetBlockValue ctx.nHeight acc.nFees block.IsPoKBlock < nValueOut ∧
      block.GetHash cfg.crypto ≠ cfg.HashGenesisBlock then
    Run.DoS 100 .REJECT_INVALID "bad-cb-amount" false
  return acc

/-- The rest of `ConnectBlock`, with what `control.Wait()` returned. -/
def ConnectBlock_finish (ctx : BlockContext) (fJustCheck : Bool) (acc : ConnectState)
    (fRet : Bool) : Run (CCoinsViewCache × CBlockUndo) := do
  if fRet = false then
    Run.DoS 100 .none "" false
  if fJustCheck then
    return (acc.view, acc.vtxundo)
  return (acc.view.SetBestBlock ctx.hash, acc.vtxundo)

end Ziftrcoin.Spec
