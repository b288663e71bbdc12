/-
Module: Ziftrcoin.Proofs.ParallelChecks
Purpose: However master and workers interleave, all checks that were added are
  dealt with once, and `Wait` returns whether all of them pass.
Trusted boundary: none
Main exports: Tally, PoolSound.exact
-/
import Ziftrcoin.Spec.CheckQueue
import Mathlib.Algebra.Order.Group.Multiset
import Mathlib.Algebra.Order.Group.Nat
import Mathlib.Tactic.Abel
import Mathlib.Algebra.Order.BigOperators.Group.Multiset

namespace Ziftrcoin.Spec

open Ziftrcoin.Lib

variable {T : Type} {check : T → Bool} {nBatchSize : ℕ}

/-! ### Batches -/

theorem runBatch_checks :
    ∀ {fOk : Bool} {vChecks : List T},
      ((runBatch check fOk vChecks).ran : Multiset T) +
        (runBatch check fOk vChecks).skipped = vChecks := by
  intro fOk vChecks
  induction vChecks generalizing fOk with
  | nil => rfl
  | cons c vChecks ih =>
      unfold runBatch
      cases fOk with
      | true => simpa using @ih (check c)
      | false => simpa [← Multiset.cons_coe] using @ih false

theorem runBatch_fOk :
    ∀ {fOk : Bool} {vChecks : List T},
      (runBatch check fOk vChecks).fOk = true ↔
        fOk = true ∧ ∀ c ∈ vChecks, check c = true := by
  intro fOk vChecks
  induction vChecks generalizing fOk with
  | nil => simp [runBatch]
  | cons c vChecks ih => cases fOk <;> simp [runBatch, ih]

/-- Checks are passed over only after one has failed. -/
theorem runBatch_skipped :
    ∀ {fOk : Bool} {vChecks : List T}, (runBatch check fOk vChecks).fOk = true →
      (runBatch check fOk vChecks).skipped = [] := by
  intro fOk vChecks
  induction vChecks generalizing fOk with
  | nil => simp [runBatch]
  | cons c vChecks ih =>
      intro h
      obtain rfl : fOk = true := (runBatch_fOk.mp h).1
      simp only [runBatch, if_true] at h ⊢
      exact ih h

/-! ### Counting -/

namespace LoopPhase

def idle : LoopPhase T → ℕ
  | .waiting _ => 1
  | _ => 0

/-- The checks of a thread that `nTodo` still counts. -/
def pending : LoopPhase T → ℕ
  | .waiting _ => 0
  | .working vChecks _ => vChecks.length
  | .worked nNow _ => nNow

def batch : LoopPhase T → Multiset T
  | .working vChecks _ => vChecks
  | _ => 0

/-- What the thread will report is good. -/
def Passes (check : T → Bool) : LoopPhase T → Prop
  | .waiting _ => True
  | .working vChecks fOk => fOk = true ∧ ∀ c ∈ vChecks, check c = true
  | .worked _ fOk => fOk = true

/-- A thread that does not wait has checks. -/
def Loaded : LoopPhase T → Prop
  | .waiting _ => True
  | phase => 0 < phase.pending

@[simp] theorem batch_waiting (notified : Bool) :
    (waiting notified : LoopPhase T).batch = 0 := rfl

@[simp] theorem batch_worked (nNow : ℕ) (fOk : Bool) :
    (worked nNow fOk : LoopPhase T).batch = 0 := rfl

@[simp] theorem idle_notify (p : LoopPhase T) : p.notify.idle = p.idle := by
  cases p <;> rfl

@[simp] theorem pending_notify (p : LoopPhase T) : p.notify.pending = p.pending := by
  cases p <;> rfl

@[simp] theorem batch_notify (p : LoopPhase T) : p.notify.batch = p.batch := by
  cases p <;> rfl

@[simp] theorem passes_notify (p : LoopPhase T) :
    p.notify.Passes check ↔ p.Passes check := by
  cases p <;> rfl

@[simp] theorem loaded_notify (p : LoopPhase T) : p.notify.Loaded ↔ p.Loaded := by
  cases p <;> rfl

end LoopPhase

/-- The counters of the queue are right, with `coming` threads inside a critical
section; no check is lost; and the results that were taken in, those that are
to come and the checks in the queue decide what all checks say. -/
structure Tally (check : T → Bool) (coming : ℕ) (q : CCheckQueue T)
    (threads : Multiset (LoopPhase T)) (added ran skipped : List T) : Prop where
  total : q.nTotal = threads.card + coming
  idle : q.nIdle = (threads.map LoopPhase.idle).sum
  todo : q.nTodo = q.queue.length + (threads.map LoopPhase.pending).sum
  todo_lt : q.nTodo < 2 ^ 32
  loaded : ∀ p ∈ threads, p.Loaded
  checks : (added : Multiset T) =
    q.queue + (threads.map LoopPhase.batch).sum + ran + skipped
  verdict : (q.fAllOk = true ∧ (∀ p ∈ threads, p.Passes check) ∧
    ∀ c ∈ q.queue, check c = true) ↔ ∀ c ∈ added, check c = true
  skipped : (q.fAllOk = true ∧ ∀ p ∈ threads, p.Passes check) → skipped = []
  quit : q.fQuit = false

/-! ### Inside a critical section -/

/-- What a thread can do after the clean-up. -/
theorem loop_body_cases (nBatchSize : ℕ) (fMaster : Bool) {q : CCheckQueue T}
    (hquit : q.fQuit = false) :
    (q.queue = [] ∧ fMaster = true ∧ q.nTodo = 0 ∧
      Loop_body nBatchSize fMaster q =
        ({ q with nTotal := q.nTotal - 1, fAllOk := true }, .inl q.fAllOk)) ∨
    (q.queue = [] ∧ (fMaster = true → q.nTodo ≠ 0) ∧
      Loop_body nBatchSize fMaster q =
        ({ q with nIdle := q.nIdle + 1 }, .inr (.waiting false))) ∨
    (∃ vChecks rest, q.queue = vChecks ++ rest ∧ vChecks ≠ [] ∧
      Loop_body nBatchSize fMaster q =
        ({ q with queue := rest }, .inr (.working vChecks q.fAllOk))) := by
  unfold Loop_body
  cases hqueue : q.queue with
  | nil =>
      rw [hquit, Bool.or_false]
      by_cases h : fMaster = true ∧ q.nTodo = 0
      · left
        simp [h]
      · right
        left
        refine ⟨rfl, fun hmaster htodo => h ⟨hmaster, htodo⟩, ?_⟩
        rw [if_pos List.isEmpty_nil, if_neg (by simpa using h)]
  | cons c queue =>
      right
      right
      refine ⟨_, _, (List.take_append_drop (q.nNow nBatchSize) _).symm, ?_, rfl⟩
      obtain ⟨n, hn⟩ : ∃ n, q.nNow nBatchSize = n + 1 :=
        Nat.exists_eq_add_one.mpr (le_max_left 1 _)
      rw [hn, List.take_succ_cons]
      exact List.cons_ne_nil _ _

namespace Tally

variable {q : CCheckQueue T} {threads : Multiset (LoopPhase T)} {added ran skipped : List T}
  {coming : ℕ}

theorem enter (h : Tally check 0 q threads added ran skipped) :
    Tally check 1 (Loop_enter q) threads added ran skipped :=
  { h with total := congrArg (· + 1) h.total }

theorem wake {notified : Bool}
    (h : Tally check 0 q (.waiting notified ::ₘ threads) added ran skipped) :
    Tally check 1 (Loop_wake q) threads added ran skipped where
  total := h.total.trans (Multiset.card_cons _ _)
  idle := by
    change q.nIdle - 1 = _
    rw [h.idle, Multiset.map_cons, Multiset.sum_cons]
    exact Nat.add_sub_cancel_left 1 _
  todo := by
    change q.nTodo = q.queue.length + _
    rw [h.todo, Multiset.map_cons, Multiset.sum_cons]
    exact congrArg _ (Nat.zero_add _)
  todo_lt := h.todo_lt
  loaded := fun p hp => h.loaded p (Multiset.mem_cons_of_mem hp)
  checks := by
    rw [h.checks, Multiset.map_cons, Multiset.sum_cons, LoopPhase.batch_waiting, zero_add]
    rfl
  verdict := by
    rw [← h.verdict, Multiset.forall_mem_cons]
    simp [Loop_wake, LoopPhase.Passes]
  skipped := by
    intro hpass
    apply h.skipped
    rw [Multiset.forall_mem_cons]
    exact ⟨hpass.1, trivial, hpass.2⟩
  quit := h.quit

theorem cleanup {nNow : ℕ} {fOk : Bool}
    (h : Tally check 0 q (.worked nNow fOk ::ₘ threads) added ran skipped) :
    Tally check 1 (Loop_cleanup nNow fOk q) threads added ran skipped := by
  have htodo := h.todo
  have hlt := h.todo_lt
  rw [Multiset.map_cons, Multiset.sum_cons, LoopPhase.pending] at htodo
  have hdiff : uint32 (q.nTodo + 2 ^ 32 - nNow) = q.nTodo - nNow := by
    rw [uint32]
    omega
  constructor
  · exact h.total.trans (Multiset.card_cons _ _)
  · change q.nIdle = _
    rw [h.idle, Multiset.map_cons, Multiset.sum_cons]
    exact Nat.zero_add _
  · change uint32 (q.nTodo + 2 ^ 32 - nNow) = q.queue.length + _
    omega
  · change uint32 (q.nTodo + 2 ^ 32 - nNow) < 2 ^ 32
    omega
  · exact fun p hp => h.loaded p (Multiset.mem_cons_of_mem hp)
  · rw [h.checks, Multiset.map_cons, Multiset.sum_cons, LoopPhase.batch_worked, zero_add]
    rfl
  · rw [← h.verdict, Multiset.forall_mem_cons]
    simp [Loop_cleanup, LoopPhase.Passes, and_assoc]
  · intro hpass
    apply h.skipped
    rw [Multiset.forall_mem_cons]
    simpa [Loop_cleanup, LoopPhase.Passes, and_assoc] using hpass
  · exact h.quit

/-- A thread begins to wait. -/
theorem goesIdle (h : Tally check 1 q threads added ran skipped) :
    Tally check 0 { q with nIdle := q.nIdle + 1 } (.waiting false ::ₘ threads)
      added ran skipped where
  total := by
    rw [Multiset.card_cons]
    exact h.total
  idle := by
    rw [Multiset.map_cons, Multiset.sum_cons, ← h.idle]
    exact Nat.add_comm _ _
  todo := by
    rw [Multiset.map_cons, Multiset.sum_cons, LoopPhase.pending, Nat.zero_add]
    exact h.todo
  todo_lt := h.todo_lt
  loaded := by
    rw [Multiset.forall_mem_cons]
    exact ⟨trivial, h.loaded⟩
  checks := by
    rw [Multiset.map_cons, Multiset.sum_cons, LoopPhase.batch_waiting, zero_add]
    exact h.checks
  verdict := by
    rw [← h.verdict, Multiset.forall_mem_cons]
    simp [LoopPhase.Passes]
  skipped := by
    rw [Multiset.forall_mem_cons]
    exact fun hpass => h.skipped ⟨hpass.1, hpass.2.2⟩
  quit := h.quit

/-- A thread takes checks. -/
theorem takes {vChecks rest : List T} (h : Tally check 1 q threads added ran skipped)
    (hqueue : q.queue = vChecks ++ rest) (hne : vChecks ≠ []) :
    Tally check 0 { q with queue := rest } (.working vChecks q.fAllOk ::ₘ threads)
      added ran skipped where
  total := by
    rw [Multiset.card_cons]
    exact h.total
  idle := by
    rw [Multiset.map_cons, Multiset.sum_cons]
    exact h.idle.trans (Nat.zero_add _).symm
  todo := by
    have htodo := h.todo
    rw [hqueue, List.length_append] at htodo
    rw [Multiset.map_cons, Multiset.sum_cons, LoopPhase.pending]
    dsimp only
    omega
  todo_lt := h.todo_lt
  loaded := by
    rw [Multiset.forall_mem_cons]
    exact ⟨List.length_pos_of_ne_nil hne, h.loaded⟩
  checks := by
    rw [h.checks, hqueue, Multiset.map_cons, Multiset.sum_cons, LoopPhase.batch,
      ← Multiset.coe_add]
    dsimp only
    rw [add_left_comm (rest : Multiset T), add_assoc (vChecks : Multiset T)]
  verdict := by
    rw [← h.verdict, Multiset.forall_mem_cons, hqueue]
    simp only [LoopPhase.Passes, List.forall_mem_append]
    constructor
    · rintro ⟨hall, ⟨⟨-, hbatch⟩, hthreads⟩, hrest⟩
      exact ⟨hall, hthreads, hbatch, hrest⟩
    · rintro ⟨hall, hthreads, hbatch, hrest⟩
      exact ⟨hall, ⟨⟨hall, hbatch⟩, hthreads⟩, hrest⟩
  skipped := by
    rw [Multiset.forall_mem_cons]
    exact fun hpass => h.skipped ⟨hpass.1, hpass.2.2⟩
  quit := h.quit

/-- When everything has been taken in, every thread waits. -/
theorem all_waiting (h : Tally check coming q threads added ran skipped)
    (htodo : q.nTodo = 0) : ∀ p ∈ threads, ∃ notified, p = .waiting notified := by
  intro p hp
  have hsum := h.todo
  have hpending : p.pending ≤ (threads.map LoopPhase.pending).sum :=
    Multiset.le_sum_of_mem (Multiset.mem_map_of_mem _ hp)
  have hzero : p.pending = 0 := by omega
  have hloaded := h.loaded p hp
  cases p with
  | waiting notified => exact ⟨notified, rfl⟩
  | working vChecks fOk => exact absurd hzero hloaded.ne'
  | worked nNow fOk => exact absurd hzero hloaded.ne'

theorem batches_of_todo (h : Tally check coming q threads added ran skipped)
    (htodo : q.nTodo = 0) : (threads.map LoopPhase.batch).sum = 0 := by
  have hzero : threads.map LoopPhase.batch = threads.map fun _ => 0 := by
    apply Multiset.map_congr rfl
    intro p hp
    obtain ⟨notified, rfl⟩ := h.all_waiting htodo p hp
    rfl
  rw [hzero, Multiset.sum_map_zero]

theorem passes_of_todo (h : Tally check coming q threads added ran skipped)
    (htodo : q.nTodo = 0) : ∀ p ∈ threads, p.Passes check := by
  intro p hp
  obtain ⟨notified, rfl⟩ := h.all_waiting htodo p hp
  trivial

/-- The master returns, and leaves the queue as it was made. -/
theorem returns (h : Tally check 1 q threads added ran skipped) (hqueue : q.queue = [])
    (htodo : q.nTodo = 0) :
    Tally check 0 { q with nTotal := q.nTotal - 1, fAllOk := true } threads [] [] [] where
  total := by
    dsimp only
    rw [h.total]
    rfl
  idle := h.idle
  todo := h.todo
  todo_lt := h.todo_lt
  loaded := h.loaded
  checks := by
    dsimp only
    rw [hqueue, h.batches_of_todo htodo]
    rfl
  verdict := by
    dsimp only
    rw [hqueue]
    simpa using h.passes_of_todo htodo
  skipped := fun _ => rfl
  quit := h.quit

/-- A batch is run. -/
theorem runs {vChecks : List T} {fOk : Bool}
    (h : Tally check 0 q (.working vChecks fOk ::ₘ threads) added ran skipped) :
    Tally check 0 q
      (.worked vChecks.length (runBatch check fOk vChecks).fOk ::ₘ threads) added
      ((runBatch check fOk vChecks).ran ++ ran)
      ((runBatch check fOk vChecks).skipped ++ skipped) where
  total := by
    rw [Multiset.card_cons, ← Multiset.card_cons]
    exact h.total
  idle := by
    rw [Multiset.map_cons, Multiset.sum_cons]
    exact h.idle.trans (by rw [Multiset.map_cons, Multiset.sum_cons]; rfl)
  todo := by
    rw [Multiset.map_cons, Multiset.sum_cons]
    exact h.todo.trans (by rw [Multiset.map_cons, Multiset.sum_cons]; rfl)
  todo_lt := h.todo_lt
  loaded := by
    have hloaded := h.loaded
    rw [Multiset.forall_mem_cons] at hloaded ⊢
    exact hloaded
  checks := by
    rw [h.checks, Multiset.map_cons, Multiset.sum_cons, Multiset.map_cons,
      Multiset.sum_cons, LoopPhase.batch,
      ← @runBatch_checks T check fOk vChecks, ← Multiset.coe_add, ← Multiset.coe_add,
      LoopPhase.batch_worked, zero_add]
    abel
  verdict := by
    rw [← h.verdict, Multiset.forall_mem_cons, Multiset.forall_mem_cons]
    simp only [LoopPhase.Passes, runBatch_fOk]
  skipped := by
    intro hpass
    rw [Multiset.forall_mem_cons] at hpass
    have hskipped : skipped = [] := by
      apply h.skipped
      rw [Multiset.forall_mem_cons]
      exact ⟨hpass.1, runBatch_fOk.mp hpass.2.1, hpass.2.2⟩
    rw [hskipped, runBatch_skipped hpass.2.1]
    rfl
  quit := h.quit

theorem notify {woken : Multiset (LoopPhase T)}
    (h : Tally check coming q (woken + threads) added ran skipped) :
    Tally check coming q (woken.map LoopPhase.notify + threads) added ran skipped := by
  have hforall : ∀ {P : LoopPhase T → Prop}, (∀ p : LoopPhase T, P p.notify ↔ P p) →
      ((∀ p ∈ woken.map LoopPhase.notify + threads, P p) ↔ ∀ p ∈ woken + threads, P p) := by
    intro P hP
    simp [or_imp, forall_and, hP]
  constructor
  · simpa using h.total
  · simpa using h.idle
  · simpa using h.todo
  · exact h.todo_lt
  · exact (hforall LoopPhase.loaded_notify).mpr h.loaded
  · simpa using h.checks
  · rw [hforall LoopPhase.passes_notify]
    exact h.verdict
  · rw [hforall LoopPhase.passes_notify]
    exact h.skipped
  · exact h.quit

/-- The master adds checks. -/
theorem add {vChecks : List T} (h : Tally check coming q threads added ran skipped)
    (hfits : q.nTodo + vChecks.length < 2 ^ 32) :
    Tally check coming (q.add vChecks) threads (added ++ vChecks) ran skipped where
  total := h.total
  idle := h.idle
  todo := by
    change uint32 (q.nTodo + vChecks.length) = (vChecks.reverse ++ q.queue).length + _
    rw [uint32, Nat.mod_eq_of_lt hfits, h.todo, List.length_append, List.length_reverse]
    omega
  todo_lt := Nat.mod_lt _ (by decide)
  loaded := h.loaded
  checks := by
    change _ = ((vChecks.reverse ++ q.queue : List T) : Multiset T) + _ + _ + _
    rw [← Multiset.coe_add, h.checks, ← Multiset.coe_add, Multiset.coe_reverse]
    abel
  verdict := by
    change (q.fAllOk = true ∧ (∀ p ∈ threads, p.Passes check) ∧
      ∀ c ∈ vChecks.reverse ++ q.queue, check c = true) ↔ _
    rw [List.forall_mem_append, List.forall_mem_append, ← h.verdict]
    simp only [List.mem_reverse]
    tauto
  skipped := h.skipped
  quit := h.quit

end Tally

/-! ### The pool -/

/-- What a round must come to: `Wait` returned whether all checks pass, and every
check was run or, once one had failed, passed over, and none of them twice. -/
structure CheckRound.Exact (check : T → Bool) (r : CheckRound T) : Prop where
  verdict : r.fRet = true ↔ ∀ c ∈ r.added, check c = true
  checks : r.added.Perm (r.ran ++ r.skipped)
  skipped : r.fRet = true → r.skipped = []

/-- The threads in `Loop`. -/
def CheckPool.threads (s : CheckPool T) : Multiset (LoopPhase T) :=
  (s.master.toList ++ s.workers : List (LoopPhase T))

structure PoolSound (check : T → Bool) (s : CheckPool T) : Prop where
  tally : Tally check 0 s.pqueue s.threads s.added s.ran s.skipped
  outside : s.control = false → s.master = none ∧ s.added = [] ∧ s.pqueue.nTodo = 0
  /-- The master that waits without having been notified waits for somebody. -/
  alert : s.master = some (.waiting false) →
    s.pqueue.queue = [] ∧ s.pqueue.nTodo ≠ 0
  rounds : ∀ r ∈ s.rounds, r.Exact check

theorem Tally.exact {q : CCheckQueue T} {threads : Multiset (LoopPhase T)}
    {added ran skipped : List T} {coming : ℕ}
    (h : Tally check coming q threads added ran skipped) (hqueue : q.queue = [])
    (htodo : q.nTodo = 0) :
    CheckRound.Exact check { added, ran, skipped, fRet := q.fAllOk } where
  verdict := by
    rw [← h.verdict, hqueue]
    simpa using fun _ => h.passes_of_todo htodo
  checks := by
    have hchecks := h.checks
    rw [hqueue, h.batches_of_todo htodo, Multiset.coe_nil, zero_add, zero_add,
      Multiset.coe_add] at hchecks
    exact Multiset.coe_eq_coe.mp hchecks
  skipped := fun hret => h.skipped ⟨hret, h.passes_of_todo htodo⟩

theorem coe_cons_between {α : Type} {a : α} {first before after : List α} :
    ((first ++ (before ++ a :: after) : List α) : Multiset α) =
      a ::ₘ (first ++ (before ++ after) : List α) := by
  rw [Multiset.cons_coe, Multiset.coe_eq_coe, ← List.append_assoc, ← List.append_assoc]
  exact List.perm_middle

namespace PoolSound

variable {s : CheckPool T} {q : CCheckQueue T} {before after : List (LoopPhase T)}

theorem new : PoolSound check .new where
  tally := by constructor <;> simp [CheckPool.new, CCheckQueue.new, CheckPool.threads]
  outside := fun _ => ⟨rfl, rfl, rfl⟩
  alert := fun h => nomatch h
  rounds := fun r hr => nomatch hr

theorem leaveWorker
    (h : Tally check 1 q (s.master.toList ++ (before ++ after) : List (LoopPhase T))
      s.added s.ran s.skipped)
    (houtside : s.control = false → s.master = none ∧ s.added = [] ∧ q.nTodo = 0)
    (halert : s.master = some (.waiting false) → q.queue = [] ∧ q.nTodo ≠ 0)
    (hrounds : ∀ r ∈ s.rounds, r.Exact check) :
    PoolSound check (s.leaveWorker before after (Loop_body nBatchSize false q)) := by
  rcases loop_body_cases nBatchSize false h.quit with
    ⟨-, hmaster, -⟩ | ⟨hqueue, -, hbody⟩ | ⟨vChecks, rest, hqueue, hne, hbody⟩
  · cases hmaster
  · rw [hbody]
    refine ⟨?_, houtside, halert, hrounds⟩
    have htally := h.goesIdle
    rw [← coe_cons_between] at htally
    simpa [CheckPool.threads, CheckPool.leaveWorker] using htally
  · rw [hbody]
    refine ⟨?_, houtside, fun hwaits => ?_, hrounds⟩
    · have htally := h.takes hqueue hne
      rw [← coe_cons_between] at htally
      simpa [CheckPool.threads, CheckPool.leaveWorker] using htally
    · rw [(halert hwaits).1] at hqueue
      exact absurd (List.append_eq_nil_iff.mp hqueue.symm).1 hne

theorem leaveMaster (h : Tally check 1 q s.workers s.added s.ran s.skipped)
    (hcontrol : s.control = true) (hrounds : ∀ r ∈ s.rounds, r.Exact check) :
    PoolSound check (s.leaveMaster (Loop_body nBatchSize true q)) := by
  rcases loop_body_cases nBatchSize true h.quit with
    ⟨hqueue, -, htodo, hbody⟩ | ⟨hqueue, htodo, hbody⟩ | ⟨vChecks, rest, hqueue, hne, hbody⟩
  · rw [hbody]
    refine ⟨h.returns hqueue htodo, fun _ => ⟨rfl, rfl, htodo⟩, fun hwaits => (nomatch hwaits), ?_⟩
    intro r hr
    rcases List.mem_cons.mp hr with rfl | hr
    · exact h.exact hqueue htodo
    · exact hrounds r hr
  · rw [hbody]
    exact ⟨h.goesIdle, fun hfalse => absurd hfalse (by simp [CheckPool.leaveMaster, hcontrol]),
      fun _ => ⟨hqueue, htodo rfl⟩, hrounds⟩
  · rw [hbody]
    exact ⟨h.takes hqueue hne,
      fun hfalse => absurd hfalse (by simp [CheckPool.leaveMaster, hcontrol]),
      fun hwaits => (nomatch hwaits), hrounds⟩

end PoolSound

/-! ### Steps -/

section

variable {s s' : CheckPool T} {q : CCheckQueue T} {act : CheckAct} {nNow : ℕ} {fOk : Bool}
  {before after : List (LoopPhase T)} {added ran skipped : List T}

theorem NotifyOne.tally {coming : ℕ} {workers workers' : List (LoopPhase T)}
    (hnotify : NotifyOne workers workers')
    (h : Tally check coming q workers added ran skipped) :
    Tally check coming q workers' added ran skipped := by
  cases hnotify with
  | one before after =>
      have hcons : ∀ phase : LoopPhase T,
          ((before ++ phase :: after : List (LoopPhase T)) : Multiset (LoopPhase T)) =
            {phase} + (before ++ after : List (LoopPhase T)) :=
        fun phase => @coe_cons_between _ phase [] before after
      rw [hcons] at h ⊢
      exact h.notify
  | nobody _ => exact h

theorem NotifyWorkers.tally {coming n : ℕ} {workers workers' : List (LoopPhase T)}
    (hnotify : NotifyWorkers n workers workers')
    (h : Tally check coming q workers added ran skipped) :
    Tally check coming q workers' added ran skipped := by
  cases hnotify with
  | none _ => exact h
  | one _ hone => exact hone.tally h
  | all _ =>
      rw [← add_zero (workers : Multiset (LoopPhase T))] at h
      rw [← Multiset.map_coe, ← add_zero (Multiset.map _ _)]
      exact h.notify

theorem tally_informMaster {coming nTodo : ℕ} {workers : List (LoopPhase T)}
    (h : Tally check coming q (s.master.toList ++ workers : List (LoopPhase T))
      added ran skipped) :
    Tally check coming q
      ((s.informMaster nTodo).master.toList ++ workers : List (LoopPhase T))
      added ran skipped := by
  unfold CheckPool.informMaster
  split
  · cases hmaster : s.master with
    | none =>
        rw [hmaster] at h
        exact h
    | some phase =>
        rw [hmaster] at h
        have hcons : Tally check coming q ({phase} + (workers : Multiset (LoopPhase T)))
            added ran skipped := h
        exact hcons.notify
  · exact h

/-- A master that still has not been notified was not, and there is more to do. -/
theorem waiting_informMaster {nTodo : ℕ}
    (h : (s.informMaster nTodo).master = some (.waiting false)) :
    s.master = some (.waiting false) ∧ nTodo ≠ 0 := by
  unfold CheckPool.informMaster at h
  split at h
  · cases hmaster : s.master with
    | none =>
        rw [hmaster] at h
        cases h
    | some phase =>
        rw [hmaster] at h
        cases phase <;> cases h
  · rename_i hne
    exact ⟨h, hne⟩

theorem threads_worker {phase : LoopPhase T}
    (h : s.workers = before ++ phase :: after) :
    s.threads = phase ::ₘ (s.master.toList ++ (before ++ after) : List (LoopPhase T)) := by
  rw [CheckPool.threads, h, coe_cons_between]

theorem threads_master {phase : LoopPhase T} (h : s.master = some phase) :
    s.threads = phase ::ₘ (s.workers : Multiset (LoopPhase T)) := by
  rw [CheckPool.threads, h]
  rfl

theorem threads_outside (h : s.master = none) :
    s.threads = (s.workers : Multiset (LoopPhase T)) := by
  rw [CheckPool.threads, h]
  rfl

/-- A master in `Wait` has a control object. -/
theorem PoolSound.control (h : PoolSound check s) {phase : LoopPhase T}
    (hmaster : s.master = some phase) : s.control = true := by
  cases hcontrol : s.control with
  | true => rfl
  | false =>
      rw [(h.outside hcontrol).1] at hmaster
      cases hmaster

theorem PoolSound.workerFolds (h : PoolSound check s)
    (hworker : s.workers = before ++ .worked nNow fOk :: after) :
    PoolSound check
      ((s.informMaster (Loop_cleanup nNow fOk s.pqueue).nTodo).leaveWorker before after
        (Loop_body nBatchSize false (Loop_cleanup nNow fOk s.pqueue))) := by
  have htally := h.tally
  rw [threads_worker hworker] at htally
  have hframe : ∀ nTodo, (s.informMaster nTodo).control = s.control ∧
      (s.informMaster nTodo).added = s.added ∧ (s.informMaster nTodo).ran = s.ran ∧
      (s.informMaster nTodo).skipped = s.skipped ∧
      (s.informMaster nTodo).rounds = s.rounds := by
    intro nTodo
    unfold CheckPool.informMaster
    split <;> exact ⟨rfl, rfl, rfl, rfl, rfl⟩
  obtain ⟨hcontrol, hadded, hran, hskipped, hrounds⟩ :=
    hframe (Loop_cleanup nNow fOk s.pqueue).nTodo
  apply PoolSound.leaveWorker
  · rw [hadded, hran, hskipped]
    exact tally_informMaster htally.cleanup
  · rw [hcontrol, hadded]
    intro houtside
    obtain ⟨hmaster, hnone, htodo⟩ := h.outside houtside
    obtain ⟨notified, hwaits⟩ := htally.all_waiting htodo _ (Multiset.mem_cons_self _ _)
    cases hwaits
  · intro hwaits
    obtain ⟨hmaster, htodo⟩ := waiting_informMaster hwaits
    exact ⟨(h.alert hmaster).1, htodo⟩
  · rw [hrounds]
    exact h.rounds

/-- Every step keeps the counters right. -/
theorem CheckStep.sound (hstep : CheckStep check nBatchSize s act s')
    (h : PoolSound check s) : PoolSound check s' := by
  have htally := h.tally
  cases hstep with
  | control hmaster hcontrol =>
      exact ⟨htally, fun hfalse => (nomatch hfalse), h.alert, h.rounds⟩
  | @add vChecks workers hmaster hcontrol hfits hnotify =>
      rw [threads_outside hmaster] at htally
      refine ⟨?_, fun hfalse => absurd hfalse (by simp [hcontrol]),
        fun hwaits => absurd hwaits (by simp [hmaster]), h.rounds⟩
      rw [CheckPool.threads]
      dsimp only
      rw [hmaster]
      exact hnotify.tally (htally.add hfits)
  | wait hmaster hcontrol =>
      rw [threads_outside hmaster] at htally
      exact .leaveMaster htally.enter hcontrol h.rounds
  | join before after hworkers =>
      rw [CheckPool.threads, hworkers] at htally
      exact .leaveWorker htally.enter h.outside h.alert h.rounds
  | workerRuns hworker =>
      rw [threads_worker hworker] at htally
      refine ⟨?_, h.outside, h.alert, h.rounds⟩
      rw [threads_worker rfl]
      exact htally.runs
  | masterRuns hmaster =>
      have hcontrol := h.control hmaster
      rw [threads_master hmaster] at htally
      refine ⟨?_, fun hfalse => absurd (hcontrol.symm.trans hfalse) (by decide),
        fun hwaits => (nomatch hwaits), h.rounds⟩
      rw [threads_master rfl]
      exact htally.runs
  | workerFolds hworker => exact h.workerFolds hworker
  | masterFolds hmaster =>
      rw [threads_master hmaster] at htally
      exact .leaveMaster htally.cleanup (h.control hmaster) h.rounds
  | workerWakes hworker =>
      rw [threads_worker hworker] at htally
      exact .leaveWorker htally.wake h.outside h.alert h.rounds
  | masterWakes hmaster =>
      rw [threads_master hmaster] at htally
      exact .leaveMaster htally.wake (h.control hmaster) h.rounds

end

theorem CheckRun.sound {s : CheckPool T} (h : CheckRun check nBatchSize s) :
    PoolSound check s := by
  induction h with
  | refl => exact .new
  | tail _ hstep ih =>
      obtain ⟨act, hstep⟩ := hstep
      exact hstep.sound ih

/-! ### Coming to an end -/

/-- How far a thread is from waiting for good. -/
def LoopPhase.weight : LoopPhase T → ℕ
  | .waiting notified => notified.toNat
  | .working _ _ => 4
  | .worked _ _ => 3

/-- What is left to do in a round. -/
def CheckPool.weight (s : CheckPool T) : ℕ :=
  5 * s.pqueue.queue.length + (s.threads.map LoopPhase.weight).sum

section

variable {s s' : CheckPool T} {q : CCheckQueue T} {act : CheckAct}
  {before after : List (LoopPhase T)}

theorem weight_notify_le (p : LoopPhase T) : p.notify.weight ≤ p.weight + 1 := by
  cases p with
  | waiting notified => exact Nat.le_add_left 1 _
  | working vChecks fOk => exact Nat.le_succ _
  | worked nNow fOk => exact Nat.le_succ _

/-- A critical section does not add to what is left. -/
theorem weight_leaveWorker_le (hquit : q.fQuit = false) :
    (s.leaveWorker before after (Loop_body nBatchSize false q)).weight ≤
      5 * q.queue.length +
        ((s.master.toList ++ (before ++ after)).map LoopPhase.weight).sum := by
  rcases loop_body_cases nBatchSize false hquit with
    ⟨-, hmaster, -⟩ | ⟨hqueue, -, hbody⟩ | ⟨vChecks, rest, hqueue, hne, hbody⟩
  · cases hmaster
  · rw [hbody]
    simp [CheckPool.weight, CheckPool.threads, CheckPool.leaveWorker, LoopPhase.weight]
  · have hlength := List.length_pos_of_ne_nil hne
    rw [hbody, hqueue]
    simp only [CheckPool.weight, CheckPool.threads, CheckPool.leaveWorker, LoopPhase.weight,
      Multiset.map_coe, Multiset.sum_coe, List.map_append, List.sum_append,
      List.length_append, Sum.elim_inr, List.map_cons, List.map_nil, List.sum_cons,
      List.sum_nil]
    omega

theorem weight_leaveMaster_le (hquit : q.fQuit = false) :
    (s.leaveMaster (Loop_body nBatchSize true q)).weight ≤
      5 * q.queue.length + (s.workers.map LoopPhase.weight).sum := by
  rcases loop_body_cases nBatchSize true hquit with
    ⟨hqueue, -, -, hbody⟩ | ⟨hqueue, -, hbody⟩ | ⟨vChecks, rest, hqueue, hne, hbody⟩
  · rw [hbody]
    simp [CheckPool.weight, CheckPool.threads, CheckPool.leaveMaster]
  · rw [hbody]
    simp [CheckPool.weight, CheckPool.threads, CheckPool.leaveMaster, LoopPhase.weight]
  · have hlength := List.length_pos_of_ne_nil hne
    rw [hbody, hqueue]
    simp only [CheckPool.weight, CheckPool.threads, CheckPool.leaveMaster, LoopPhase.weight,
      Multiset.map_coe, Multiset.sum_coe, Option.toList_some, List.singleton_append,
      List.length_append, List.map_cons, List.sum_cons]
    omega

theorem weight_informMaster_le {nTodo : ℕ} :
    ((s.informMaster nTodo).master.toList.map LoopPhase.weight).sum ≤
      (s.master.toList.map LoopPhase.weight).sum + 1 := by
  unfold CheckPool.informMaster
  split
  · cases s.master with
    | none => exact Nat.zero_le _
    | some phase => simpa using weight_notify_le phase
  · exact Nat.le_succ _

theorem weight_worker {phase : LoopPhase T} (h : s.workers = before ++ phase :: after) :
    s.weight = 5 * s.pqueue.queue.length + phase.weight +
      ((s.master.toList ++ (before ++ after)).map LoopPhase.weight).sum := by
  rw [CheckPool.weight, threads_worker h, Multiset.map_cons, Multiset.sum_cons,
    Multiset.map_coe, Multiset.sum_coe, Nat.add_assoc]

theorem weight_master {phase : LoopPhase T} (h : s.master = some phase) :
    s.weight = 5 * s.pqueue.queue.length + phase.weight +
      (s.workers.map LoopPhase.weight).sum := by
  rw [CheckPool.weight, threads_master h, Multiset.map_cons, Multiset.sum_cons,
    Multiset.map_coe, Multiset.sum_coe, Nat.add_assoc]

/-- There are only so many steps before a round is over, whoever takes them. -/
theorem CheckStep.weight_lt (hstep : CheckStep check nBatchSize s act s')
    (hproper : act.Proper) (hquit : s.pqueue.fQuit = false) : s'.weight < s.weight := by
  cases hstep with
  | control hmaster hcontrol => exact hproper.elim
  | add hmaster hcontrol hfits hnotify => exact hproper.elim
  | wait hmaster hcontrol => exact hproper.elim
  | join before after hworkers => exact hproper.elim
  | workerRuns hworker =>
      rw [weight_worker hworker, weight_worker rfl]
      exact Nat.add_lt_add_right (Nat.add_lt_add_left (Nat.lt_succ_self 3) _) _
  | masterRuns hmaster =>
      rw [weight_master hmaster, weight_master rfl]
      exact Nat.add_lt_add_right (Nat.add_lt_add_left (Nat.lt_succ_self 3) _) _
  | @workerFolds before after nNow fOk hworker =>
      have hleave := @weight_leaveWorker_le T nBatchSize
        (s.informMaster (Loop_cleanup nNow fOk s.pqueue).nTodo) (Loop_cleanup nNow fOk s.pqueue)
        before after hquit
      have hinform := @weight_informMaster_le T s (Loop_cleanup nNow fOk s.pqueue).nTodo
      rw [weight_worker hworker]
      simp only [List.map_append, List.sum_append, LoopPhase.weight] at hleave ⊢
      change _ ≤ 5 * s.pqueue.queue.length + _ at hleave
      omega
  | @masterFolds nNow fOk hmaster =>
      have hleave := @weight_leaveMaster_le T nBatchSize s (Loop_cleanup nNow fOk s.pqueue) hquit
      rw [weight_master hmaster]
      change _ ≤ 5 * s.pqueue.queue.length + _ at hleave
      simp only [LoopPhase.weight]
      omega
  | @workerWakes before after notified hworker =>
      cases notified with
      | false => exact hproper.elim
      | true =>
          have hleave := @weight_leaveWorker_le T nBatchSize s (Loop_wake s.pqueue) before after
            hquit
          rw [weight_worker hworker]
          change _ ≤ 5 * s.pqueue.queue.length + _ at hleave
          simp only [LoopPhase.weight, Bool.toNat_true]
          omega
  | @masterWakes notified hmaster =>
      cases notified with
      | false => exact hproper.elim
      | true =>
          have hleave := @weight_leaveMaster_le T nBatchSize s (Loop_wake s.pqueue) hquit
          rw [weight_master hmaster]
          change _ ≤ 5 * s.pqueue.queue.length + _ at hleave
          simp only [LoopPhase.weight, Bool.toNat_true]
          omega

/-- A worker that is to be waited for has a step. -/
theorem exists_step_of_worker {phase : LoopPhase T} (hphase : phase ∈ s.workers)
    (hpending : phase.pending ≠ 0) :
    ∃ act s', act.Proper ∧ CheckStep check nBatchSize s act s' := by
  obtain ⟨before, after, hworkers⟩ := List.append_of_mem hphase
  cases phase with
  | waiting notified => exact absurd rfl hpending
  | working vChecks fOk => exact ⟨.run, _, trivial, .workerRuns hworkers⟩
  | worked nNow fOk => exact ⟨.fold, _, trivial, .workerFolds hworkers⟩

/-- While the master is in `Wait` somebody has a step: no wakeup is lost. -/
theorem PoolSound.exists_step (h : PoolSound check s) {phase : LoopPhase T}
    (hmaster : s.master = some phase) :
    ∃ act s', act.Proper ∧ CheckStep check nBatchSize s act s' := by
  cases phase with
  | working vChecks fOk => exact ⟨.run, _, trivial, .masterRuns hmaster⟩
  | worked nNow fOk => exact ⟨.fold, _, trivial, .masterFolds hmaster⟩
  | waiting notified =>
      cases notified with
      | true => exact ⟨.wake true, _, trivial, .masterWakes hmaster⟩
      | false =>
          obtain ⟨hqueue, htodo⟩ := h.alert hmaster
          have hsum := h.tally.todo
          rw [hqueue, threads_master hmaster, Multiset.map_cons, Multiset.sum_cons,
            Multiset.map_coe, Multiset.sum_coe] at hsum
          by_contra hnone
          have hzero : (s.workers.map LoopPhase.pending).sum = 0 := by
            apply List.sum_eq_zero
            intro n hn
            obtain ⟨worker, hworker, rfl⟩ := List.mem_map.mp hn
            by_contra hpending
            exact hnone (exists_step_of_worker hworker hpending)
          rw [hzero] at hsum
          exact htodo hsum

end

/-! ### All runs -/

/-- A queue that works: every round came to what it must, the counter never goes
below zero, the next `CCheckQueueControl` finds its queue unused, and a master
in `Wait` gets out of it, since somebody always has a step that brings the end
closer. -/
structure PoolExact {T : Type} (check : T → Bool) (nBatchSize : ℕ) (s : CheckPool T) :
    Prop where
  rounds : ∀ r ∈ s.rounds, r.Exact check
  noUnderflow : ∀ phase ∈ s.threads, phase.pending ≤ s.pqueue.nTodo
  asserts : s.control = false →
    s.pqueue.nTotal = s.pqueue.nIdle ∧ s.pqueue.nTodo = 0 ∧ s.pqueue.fAllOk = true
  progress : s.master ≠ none → ∃ act s', act.Proper ∧ CheckStep check nBatchSize s act s'
  ends : ∀ act s', act.Proper → CheckStep check nBatchSize s act s' → s'.weight < s.weight

theorem PoolSound.noUnderflow {T : Type} {check : T → Bool} {s : CheckPool T}
    (h : PoolSound check s) : ∀ phase ∈ s.threads, phase.pending ≤ s.pqueue.nTodo := by
  intro phase hphase
  have hle : phase.pending ≤ (s.threads.map LoopPhase.pending).sum :=
    Multiset.le_sum_of_mem (Multiset.mem_map_of_mem _ hphase)
  rw [h.tally.todo]
  exact hle.trans (Nat.le_add_left _ _)

theorem PoolSound.asserts {T : Type} {check : T → Bool} {s : CheckPool T}
    (h : PoolSound check s) (hcontrol : s.control = false) :
    s.pqueue.nTotal = s.pqueue.nIdle ∧ s.pqueue.nTodo = 0 ∧ s.pqueue.fAllOk = true := by
  obtain ⟨-, hadded, htodo⟩ := h.outside hcontrol
  have hverdict := h.tally.verdict
  rw [hadded] at hverdict
  refine ⟨?_, htodo, (hverdict.mpr fun c hc => nomatch hc).1⟩
  have hidle : s.threads.map LoopPhase.idle = s.threads.map fun _ => 1 := by
    apply Multiset.map_congr rfl
    intro phase hphase
    obtain ⟨notified, rfl⟩ := h.tally.all_waiting htodo phase hphase
    rfl
  rw [h.tally.total, h.tally.idle, hidle, Multiset.map_const', Multiset.sum_replicate]
  simp

theorem PoolSound.exact {T : Type} {check : T → Bool} {nBatchSize : ℕ} {s : CheckPool T}
    (h : PoolSound check s) : PoolExact check nBatchSize s where
  rounds := h.rounds
  noUnderflow := h.noUnderflow
  asserts := h.asserts
  progress := by
    intro hmaster
    obtain ⟨phase, hphase⟩ := Option.ne_none_iff_exists'.mp hmaster
    exact h.exists_step hphase
  ends := fun act s' hproper hstep => hstep.weight_lt hproper h.tally.quit

end Ziftrcoin.Spec
