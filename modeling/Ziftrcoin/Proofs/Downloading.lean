/-
Module: Ziftrcoin.Proofs.Downloading
Purpose: The lists, the counters and the maps that keep track of downloads say
  the same after any calls in any order, and the requests to a peer end.
Trusted boundary: none
Main exports: BooksKept, downloads_tracked
-/
import Ziftrcoin.Spec.Download

namespace Ziftrcoin.Spec

open Ziftrcoin.Lib

/-! ### Lists of peers -/

namespace Downloads

variable {s : Downloads} {pnode : NodeId} {state : CNodeState}

theorem state_setState (s : Downloads) (pnode : NodeId) (state : CNodeState) :
    (s.setState pnode state).State = Function.update s.State pnode (some state) :=
  rfl

theorem toDownload_update {s' : Downloads} {peer : Option CNodeState}
    (h : s'.State = Function.update s.State pnode peer) :
    s'.toDownload = Function.update s.toDownload pnode
      ((peer.map CNodeState.vBlocksToDownload).getD []) := by
  funext p
  unfold toDownload
  rw [h, Function.update_apply, Function.update_apply]
  split <;> rfl

theorem inFlight_update {s' : Downloads} {peer : Option CNodeState}
    (h : s'.State = Function.update s.State pnode peer) :
    s'.inFlight = Function.update s.inFlight pnode
      ((peer.map CNodeState.vBlocksInFlight).getD []) := by
  funext p
  unfold inFlight
  rw [h, Function.update_apply, Function.update_apply]
  split <;> rfl

theorem toDownload_eq (h : s.State pnode = some state) :
    s.toDownload pnode = state.vBlocksToDownload := by
  rw [toDownload, h]
  rfl

theorem inFlight_eq (h : s.State pnode = some state) :
    s.inFlight pnode = state.vBlocksInFlight := by
  rw [inFlight, h]
  rfl

theorem inFlight_same {s' : Downloads} {state' : CNodeState}
    (hstate : s.State pnode = some state)
    (h : s'.State = Function.update s.State pnode (some state'))
    (hlist : state'.vBlocksInFlight = state.vBlocksInFlight) :
    s'.inFlight = s.inFlight := by
  rw [inFlight_update h, Option.map_some, Option.getD_some, hlist,
    ← inFlight_eq hstate, Function.update_eq_self]

/-- Only a peer that is there has blocks. -/
theorem exists_of_toDownload {x : Cell × uint256} (h : x ∈ s.toDownload pnode) :
    ∃ state, s.State pnode = some state := by
  apply Option.ne_none_iff_exists'.mp
  intro hnone
  rw [toDownload, hnone] at h
  cases h

theorem exists_of_inFlight {x : Cell × QueuedBlock} (h : x ∈ s.inFlight pnode) :
    ∃ state, s.State pnode = some state := by
  apply Option.ne_none_iff_exists'.mp
  intro hnone
  rw [inFlight, hnone] at h
  cases h

end Downloads

/-! ### The invariant -/

/-- Lists, maps and counters agree. -/
structure BooksKept (s : Downloads) : Prop where
  queue : Filed id s.toDownload s.mapBlocksToDownload
  flight : Filed QueuedBlock.hash s.inFlight s.mapBlocksInFlight
  apart : ∀ hash, s.mapBlocksToDownload hash = none ∨ s.mapBlocksInFlight hash = none
  counts : ∀ {pnode state}, s.State pnode = some state →
    state.nBlocksToDownload = state.vBlocksToDownload.length ∧
      state.nBlocksInFlight = state.vBlocksInFlight.length
  fresh : ∀ pnode, (∀ x ∈ s.toDownload pnode, x.1 < s.nextCell) ∧
    ∀ x ∈ s.inFlight pnode, x.1 < s.nextCell

/-- The same peers are there. -/
def SamePeers (s s' : Downloads) : Prop :=
  ∀ pnode, (s'.State pnode).isSome = (s.State pnode).isSome

theorem samePeers_update {s s' : Downloads} {pnode : NodeId}
    {state state' : CNodeState} (hstate : s.State pnode = some state)
    (h : s'.State = Function.update s.State pnode (some state')) :
    SamePeers s s' := by
  intro p
  rw [h, Function.update_apply]
  split
  · subst pnode
    rw [hstate]
    rfl
  · rfl

namespace BooksKept

variable {s s' : Downloads} {pnode : NodeId} {state : CNodeState} {hash : uint256}

theorem initial (nTimeMicros : ℕ → ℤ) :
    BooksKept (Connections.initial nTimeMicros).downloads where
  queue := .empty
  flight := .empty
  apart _ := .inl rfl
  counts h := by cases h
  fresh _ := ⟨fun _ hx => absurd hx List.not_mem_nil,
    fun _ hx => absurd hx List.not_mem_nil⟩

/-- What matters are the states of the peers, the maps and the next cell. -/
theorem congr (h : BooksKept s) (hstate : s'.State = s.State)
    (hqueue : s'.mapBlocksToDownload = s.mapBlocksToDownload)
    (hflight : s'.mapBlocksInFlight = s.mapBlocksInFlight)
    (hcell : s.nextCell ≤ s'.nextCell) : BooksKept s' := by
  have hlists : s'.toDownload = s.toDownload := by
    unfold Downloads.toDownload
    rw [hstate]
  have hlists' : s'.inFlight = s.inFlight := by
    unfold Downloads.inFlight
    rw [hstate]
  constructor
  · rw [hlists, hqueue]
    exact h.queue
  · rw [hlists', hflight]
    exact h.flight
  · rw [hqueue, hflight]
    exact h.apart
  · rw [hstate]
    exact h.counts
  · rw [hlists, hlists']
    exact fun p => ⟨fun x hx => ((h.fresh p).1 x hx).trans_le hcell,
      fun x hx => ((h.fresh p).2 x hx).trans_le hcell⟩

/-- One peer gets another state. -/
theorem replace (h : BooksKept s) {state' : CNodeState}
    (hstate : s'.State = Function.update s.State pnode (some state'))
    (queue : Filed id
      (Function.update s.toDownload pnode state'.vBlocksToDownload)
      s'.mapBlocksToDownload)
    (flight : Filed QueuedBlock.hash
      (Function.update s.inFlight pnode state'.vBlocksInFlight)
      s'.mapBlocksInFlight)
    (apart : ∀ hash, s'.mapBlocksToDownload hash = none ∨
      s'.mapBlocksInFlight hash = none)
    (counts : state'.nBlocksToDownload = state'.vBlocksToDownload.length ∧
      state'.nBlocksInFlight = state'.vBlocksInFlight.length)
    (fresh : (∀ x ∈ state'.vBlocksToDownload, x.1 < s'.nextCell) ∧
      ∀ x ∈ state'.vBlocksInFlight, x.1 < s'.nextCell)
    (hcell : s.nextCell ≤ s'.nextCell) : BooksKept s' := by
  have hlists := Downloads.toDownload_update hstate
  have hlists' := Downloads.inFlight_update hstate
  rw [Option.map_some, Option.getD_some] at hlists hlists'
  constructor
  · rw [hlists]
    exact queue
  · rw [hlists']
    exact flight
  · exact apart
  · intro p state hp
    rw [hstate, Function.update_apply] at hp
    split at hp
    · injection hp with hp
      exact hp ▸ counts
    · exact h.counts hp
  · intro p
    rw [hlists, hlists', Function.update_apply, Function.update_apply]
    split
    · exact fresh
    · exact ⟨fun x hx => ((h.fresh p).1 x hx).trans_le hcell,
        fun x hx => ((h.fresh p).2 x hx).trans_le hcell⟩

/-- A peer's queue as it was. -/
theorem sameQueue (h : BooksKept s) (hstate : s.State pnode = some state) :
    Filed id (Function.update s.toDownload pnode state.vBlocksToDownload)
      s.mapBlocksToDownload := by
  rw [← Downloads.toDownload_eq hstate, Function.update_eq_self]
  exact h.queue

theorem sameFlight (h : BooksKept s) (hstate : s.State pnode = some state) :
    Filed QueuedBlock.hash
      (Function.update s.inFlight pnode state.vBlocksInFlight)
      s.mapBlocksInFlight := by
  rw [← Downloads.inFlight_eq hstate, Function.update_eq_self]
  exact h.flight

theorem freshQueue (h : BooksKept s) (hstate : s.State pnode = some state) :
    ∀ x ∈ state.vBlocksToDownload, x.1 < s.nextCell := by
  rw [← Downloads.toDownload_eq hstate]
  exact (h.fresh pnode).1

theorem freshFlight (h : BooksKept s) (hstate : s.State pnode = some state) :
    ∀ x ∈ state.vBlocksInFlight, x.1 < s.nextCell := by
  rw [← Downloads.inFlight_eq hstate]
  exact (h.fresh pnode).2

/-- Lists and counters of a peer stay; the rest of its state may change. -/
theorem touch (h : BooksKept s) (hstate : s.State pnode = some state)
    {state' : CNodeState}
    (hqueue : state'.vBlocksToDownload = state.vBlocksToDownload)
    (hqueue' : state'.nBlocksToDownload = state.nBlocksToDownload)
    (hflight : state'.vBlocksInFlight = state.vBlocksInFlight)
    (hflight' : state'.nBlocksInFlight = state.nBlocksInFlight) :
    BooksKept (s.setState pnode state') := by
  apply h.replace (Downloads.state_setState s pnode state')
  · rw [hqueue]
    exact h.sameQueue hstate
  · rw [hflight]
    exact h.sameFlight hstate
  · exact h.apart
  · rw [hqueue, hqueue', hflight, hflight']
    exact h.counts hstate
  · rw [hqueue, hflight]
    exact ⟨h.freshQueue hstate, h.freshFlight hstate⟩
  · exact le_rfl

end BooksKept

/-! ### A block is received -/

section Received

variable {s : Downloads} {hash : uint256}

/-- What an index does not find, it does not find once a key is forgotten. -/
theorem update_none {β : Type} {index : uint256 → Option β} (hash : uint256)
    {k : uint256} (h : index k = none) :
    Function.update index hash none k = none := by
  rw [Function.update_apply]
  split
  · rfl
  · exact h

/-- A block leaves the queue it is in, and nothing else happens. -/
theorem takeFromQueue_run (h : BooksKept s) (hash : uint256) :
    ∃ s', takeFromQueue hash s = .done () s' ∧ BooksKept s' ∧ SamePeers s s' ∧
      s'.inFlight = s.inFlight ∧ s'.mapBlocksInFlight = s.mapBlocksInFlight ∧
      s'.mapBlocksToDownload = Function.update s.mapBlocksToDownload hash none := by
  unfold takeFromQueue
  rw [Machine.get_bind_run]
  rcases hfind : s.mapBlocksToDownload hash with _ | ⟨owner, it⟩
  · refine ⟨s, rfl, h, fun p => rfl, rfl, rfl, ?_⟩
    rw [← hfind, Function.update_eq_self]
  · obtain ⟨a, hmem, -⟩ := h.queue.finds.mp hfind
    obtain ⟨state, hstate⟩ := Downloads.exists_of_toDownload hmem
    obtain ⟨rest, herase, hlength, hrest, hfiled⟩ := h.queue.erase hfind
    rw [Downloads.toDownload_eq hstate] at herase hlength hrest
    have hderef : Peers.deref owner s = .done state s := by
      unfold Peers.deref
      rw [hstate]
    have htaken : Peers.erase state.vBlocksToDownload it s = .done rest s := by
      unfold Peers.erase
      rw [herase]
    dsimp only
    rw [Machine.bind_run_done hderef, Machine.bind_run_done htaken]
    refine ⟨_, rfl, ?_, ?_, ?_, rfl, rfl⟩
    · have hcount := h.counts hstate
      apply h.replace (Eq.refl _)
      · exact hfiled
      · exact (h.sameFlight hstate :)
      · exact fun k => (h.apart k).imp_left (update_none hash)
      · exact ⟨by dsimp only; omega, hcount.2⟩
      · exact ⟨fun x hx => h.freshQueue hstate x (hrest x hx),
          (h.freshFlight hstate :)⟩
      · exact le_rfl
    · exact samePeers_update hstate (Eq.refl _)
    · exact Downloads.inFlight_same hstate (Eq.refl _) (Eq.refl _)

/-- A block is no longer in flight.  The time shown next may have changed. -/
theorem takeFromFlight_run (h : BooksKept s) (hash : uint256) (nodeFrom : NodeId) :
    ∃ s', takeFromFlight hash nodeFrom s = .done () s' ∧ BooksKept s' ∧ SamePeers s s' ∧
      (∀ p, (s'.inFlight p).length ≤ (s.inFlight p).length) ∧
      s'.mapBlocksToDownload = s.mapBlocksToDownload ∧
      s'.mapBlocksInFlight hash = none ∧
      (s.mapBlocksInFlight hash = none → s' = s) := by
  unfold takeFromFlight
  rw [Machine.get_bind_run]
  rcases hfind : s.mapBlocksInFlight hash with _ | ⟨owner, it⟩
  · exact ⟨s, rfl, h, fun p => rfl, fun p => le_rfl, rfl, hfind, fun _ => rfl⟩
  · obtain ⟨a, hmem, -⟩ := h.flight.finds.mp hfind
    obtain ⟨state, hstate⟩ := Downloads.exists_of_inFlight hmem
    obtain ⟨rest, herase, hlength, hrest, hfiled⟩ := h.flight.erase hfind
    rw [Downloads.inFlight_eq hstate] at herase hlength hrest
    have hderef : Peers.deref owner s = .done state s := by
      unfold Peers.deref
      rw [hstate]
    have htaken : Peers.erase state.vBlocksInFlight it s = .done rest s := by
      unfold Peers.erase
      rw [herase]
    -- The clock is read when the block comes from the peer it was asked for.
    obtain ⟨nTime, times, hclock⟩ : ∃ nTime times,
        lastBlockReceive owner nodeFrom state s =
          .done nTime { s with nTimeMicros := times } := by
      unfold lastBlockReceive
      split
      · exact ⟨_, _, rfl⟩
      · exact ⟨_, _, rfl⟩
    dsimp only
    rw [Machine.bind_run_done hderef, Machine.bind_run_done htaken,
      Machine.bind_run_done hclock]
    have hcount := h.counts hstate
    refine ⟨_, rfl, ?_, samePeers_update hstate (Eq.refl _), ?_, rfl,
      Function.update_self .., fun hnone => by cases hnone⟩
    · apply h.replace (Eq.refl _)
      · exact (h.sameQueue hstate :)
      · exact hfiled
      · exact fun k => (h.apart k).imp_right (update_none hash)
      · exact ⟨hcount.1, by dsimp only; omega⟩
      · exact ⟨(h.freshQueue hstate :), fun x hx => h.freshFlight hstate x (hrest x hx)⟩
      · exact le_rfl
    · intro p
      rw [Downloads.inFlight_update (Eq.refl _), Function.update_apply]
      split
      · subst p
        rw [Downloads.inFlight_eq hstate]
        exact Nat.le.intro hlength
      · exact le_rfl

/-- A received block is listed nowhere. -/
theorem markBlockAsReceived_run (h : BooksKept s) (hash : uint256) (nodeFrom : NodeId) :
    ∃ s', MarkBlockAsReceived hash nodeFrom s = .done () s' ∧ BooksKept s' ∧
      SamePeers s s' ∧ (∀ p, (s'.inFlight p).length ≤ (s.inFlight p).length) ∧
      s'.mapBlocksToDownload hash = none ∧ s'.mapBlocksInFlight hash = none ∧
      (s.mapBlocksInFlight hash = none → s'.inFlight = s.inFlight) := by
  obtain ⟨t, hqueue, hkept, hpeers, hflight, hmap, hqueued⟩ := takeFromQueue_run h hash
  obtain ⟨s', hrun, hkept', hpeers', hlength, hmap', hnone, hsame⟩ :=
    takeFromFlight_run hkept hash nodeFrom
  refine ⟨s', ?_, hkept', ?_, ?_, ?_, hnone, ?_⟩
  · unfold MarkBlockAsReceived
    rw [Machine.bind_run_done hqueue, hrun]
  · exact fun p => (hpeers' p).trans (hpeers p)
  · exact fun p => hflight ▸ hlength p
  · rw [hmap', hqueued, Function.update_self]
  · intro hfree
    rw [hsame (hmap ▸ hfree), hflight]

end Received

/-! ### A block is queued and requested -/

section Requests

variable {s : Downloads} {nodeid : NodeId} {state : CNodeState}

theorem setState_self {s : Downloads} (hstate : s.State nodeid = some state) :
    s.setState nodeid state = s := by
  unfold Downloads.setState
  rw [← hstate, Downloads.State, Function.update_eq_self]

/-- The score of a peer changes, and nothing else. -/
theorem misbehaving_run {s : Downloads} (hstate : s.State nodeid = some state)
    (banscore howmuch : ℤ) :
    ∃ nMisbehavior fShouldBan, Misbehaving banscore nodeid howmuch s =
      .done () (s.setState nodeid { state with nMisbehavior, fShouldBan }) := by
  unfold Misbehaving
  rw [Machine.get_bind_run]
  split
  · rw [hstate]
    exact ⟨_, _, rfl⟩
  · refine ⟨state.nMisbehavior, state.fShouldBan, ?_⟩
    exact congrArg (Result.done ()) (setState_self hstate).symm

theorem setState_setState (s : Downloads) (nodeid : NodeId)
    (state state' : CNodeState) :
    (s.setState nodeid state).setState nodeid state' = s.setState nodeid state' := by
  unfold Downloads.setState
  rw [Function.update_idem]

/-- A long queue changes the score at most. -/
theorem punishLongQueue_run {s : Downloads} (hstate : s.State nodeid = some state)
    (banscore : ℤ) :
    ∃ nMisbehavior fShouldBan, punishLongQueue banscore nodeid state s =
      .done () (s.setState nodeid { state with nMisbehavior, fShouldBan }) := by
  unfold punishLongQueue
  split
  · exact misbehaving_run hstate banscore 10
  · refine ⟨state.nMisbehavior, state.fShouldBan, ?_⟩
    exact congrArg (Result.done ()) (setState_self hstate).symm

/-- No list has the cell that the next insertion gets. -/
theorem BooksKept.newCell_queue (h : BooksKept s) (p : NodeId) :
    s.nextCell ∉ (s.toDownload p).map Prod.fst := by
  intro hmem
  obtain ⟨x, hx, hcell⟩ := List.mem_map.mp hmem
  exact ((h.fresh p).1 x hx).ne hcell

theorem BooksKept.newCell_flight (h : BooksKept s) (p : NodeId) :
    s.nextCell ∉ (s.inFlight p).map Prod.fst := by
  intro hmem
  obtain ⟨x, hx, hcell⟩ := List.mem_map.mp hmem
  exact ((h.fresh p).2 x hx).ne hcell

/-- A cell of a list to which the next cell has been added. -/
theorem lt_of_mem_pushBack {α : Type} {xs : Linked α} {it : Cell} {a : α}
    (h : ∀ x ∈ xs, x.1 < it) : ∀ x ∈ xs.pushBack it a, x.1 < it + 1 := by
  intro x hx
  rcases Linked.mem_pushBack.mp hx with hx | rfl
  · exact (h x hx).trans (Nat.lt_succ_self it)
  · exact Nat.lt_succ_self it

/-- What one index finds, another one does not, when the key was in neither. -/
theorem apart_update {β γ : Type} {index : uint256 → Option β}
    {other : uint256 → Option γ} (h : ∀ k, index k = none ∨ other k = none)
    (hash : uint256) (hnew : other hash = none) (b : β) :
    ∀ k, Function.update index hash (some b) k = none ∨ other k = none := by
  intro k
  by_cases hk : k = hash
  · exact .inr (hk ▸ hnew)
  · rw [Function.update_of_ne hk]
    exact h k

/-- A block is queued for a peer that is there, unless it is listed already. -/
theorem addBlockToQueue_run (h : BooksKept s) (banscore : ℤ) (nodeid : NodeId)
    (hash : uint256) :
    ∃ added s', AddBlockToQueue banscore nodeid hash s = .done added s' ∧ BooksKept s' ∧
      SamePeers s s' ∧ s'.inFlight = s.inFlight := by
  unfold AddBlockToQueue
  rw [Machine.get_bind_run]
  split
  · exact ⟨false, s, rfl, h, fun p => rfl, rfl⟩
  rename_i hlisted
  rw [not_or, Option.not_isSome_iff_eq_none, Option.not_isSome_iff_eq_none] at hlisted
  cases hstate : s.State nodeid with
  | none => exact ⟨false, s, rfl, h, fun p => rfl, rfl⟩
  | some state =>
      -- The score is all of the peer that may differ from what was put there.
      have hqueued : ({ s with nextCell := s.nextCell + 1 }.setState nodeid
          (state.enqueue s.nextCell hash)).State nodeid =
            some (state.enqueue s.nextCell hash) := Function.update_self ..
      obtain ⟨nMisbehavior, fShouldBan, hpunish⟩ := punishLongQueue_run hqueued banscore
      rw [setState_setState] at hpunish
      have hcount := h.counts hstate
      have hcell : (Peers.newCell : Peers Cell) s =
          .done s.nextCell { s with nextCell := s.nextCell + 1 } := rfl
      dsimp only
      rw [Machine.bind_run_done hcell]
      unfold Peers.setState
      rw [Machine.modify_bind_run, Machine.bind_run_done hpunish]
      refine ⟨true, _, rfl, ?_, samePeers_update hstate (Eq.refl _), ?_⟩
      · apply h.replace (Eq.refl _)
        · have hqueue := h.queue.pushBack (a := hash) hlisted.1 (h.newCell_queue nodeid)
          rw [Downloads.toDownload_eq hstate] at hqueue
          exact hqueue
        · exact (h.sameFlight hstate :)
        · exact apart_update h.apart hash hlisted.2 _
        · refine ⟨?_, hcount.2⟩
          unfold CNodeState.enqueue
          rw [Linked.length_pushBack, hcount.1, Nat.cast_succ]
        · exact ⟨lt_of_mem_pushBack (h.freshQueue hstate), fun x hx =>
            (h.freshFlight hstate x hx).trans (Nat.lt_succ_self _)⟩
        · exact Nat.le_succ _
      · exact Downloads.inFlight_same hstate (Eq.refl _) (Eq.refl _)

/-- A request to a peer that is there takes the block out of any list it is in,
and puts it into the peer's list of blocks in flight. -/
theorem markBlockAsInFlight_run (h : BooksKept s) (hstate : s.State nodeid = some state)
    (hash : uint256) :
    ∃ s', MarkBlockAsInFlight nodeid hash s = .done () s' ∧ BooksKept s' ∧
      SamePeers s s' ∧
      (∀ p, (s'.inFlight p).length ≤ (s.inFlight p).length + if p = nodeid then 1 else 0) ∧
      (s.mapBlocksInFlight hash = none →
        (s'.inFlight nodeid).length = (s.inFlight nodeid).length + 1) := by
  obtain ⟨t, hreceived, hkept, hpeers, hlength, hqueue, hflight, hsame⟩ :=
    markBlockAsReceived_run h hash (-1)
  obtain ⟨state', hstate'⟩ : ∃ state', t.State nodeid = some state' := by
    apply Option.isSome_iff_exists.mp
    rw [hpeers nodeid, hstate]
    rfl
  have hpresent : ¬(s.State nodeid).isNone = true := by
    rw [hstate]
    exact Bool.false_ne_true
  have hderef : Peers.deref nodeid
      { t with nTimeMicros := fun n => t.nTimeMicros (n + 1) } =
        .done state' { t with nTimeMicros := fun n => t.nTimeMicros (n + 1) } := by
    unfold Peers.deref Downloads.State
    dsimp only
    rw [show t.mapNodeState nodeid = some state' from hstate']
  have hclock : Peers.GetTimeMicros t =
      .done (t.nTimeMicros 0) { t with nTimeMicros := fun n => t.nTimeMicros (n + 1) } := rfl
  unfold MarkBlockAsInFlight
  rw [Machine.get_bind_run, if_neg hpresent]
  dsimp only
  rw [Machine.bind_run_done hreceived, Machine.bind_run_done hclock,
    Machine.bind_run_done hderef]
  have hcount := hkept.counts hstate'
  have hlist : ∀ (s' : Downloads) (nTime : ℤ), s'.State = Function.update t.State nodeid
      (some (state'.request t.nextCell hash nTime)) → ∀ p,
        (s'.inFlight p).length = (t.inFlight p).length + if p = nodeid then 1 else 0 := by
    intro s' nTime hs' p
    rw [Downloads.inFlight_update hs', Function.update_apply]
    split
    · subst p
      rw [Downloads.inFlight_eq hstate']
      exact Linked.length_pushBack ..
    · rfl
  refine ⟨_, rfl, ?_, ?_, ?_, ?_⟩
  · apply hkept.replace (Eq.refl _)
    · exact (hkept.sameQueue hstate' :)
    · have hfiled := hkept.flight.pushBack
        (a := { hash, nTime := t.nTimeMicros 0, nQueuedBefore := state'.nBlocksInFlight })
        hflight (hkept.newCell_flight nodeid)
      rw [Downloads.inFlight_eq hstate'] at hfiled
      exact hfiled
    · exact fun k => (apart_update (fun k => (hkept.apart k).symm) hash hqueue _ k).symm
    · refine ⟨hcount.1, ?_⟩
      unfold CNodeState.request
      rw [Linked.length_pushBack, hcount.2, Nat.cast_succ]
    · exact ⟨fun x hx => (hkept.freshQueue hstate' x hx).trans (Nat.lt_succ_self _),
        lt_of_mem_pushBack (hkept.freshFlight hstate')⟩
    · exact Nat.le_succ _
  · exact fun p => (samePeers_update hstate' (Eq.refl _) p).trans (hpeers p)
  · intro p
    rw [hlist _ _ (Eq.refl _) p]
    exact Nat.add_le_add_right (hlength p) _
  · intro hnone
    rw [hlist _ _ (Eq.refl _) nodeid, if_pos rfl, hsame hnone]

theorem deref_run {s : Downloads} (hstate : s.State nodeid = some state) :
    Peers.deref nodeid s = .done state s := by
  unfold Peers.deref
  rw [hstate]

theorem front_run {α : Type} {xs : Linked α} {n : ℤ} (hn : n = xs.length)
    (hne : n ≠ 0) (s : Downloads) :
    ∃ x ∈ xs, Peers.front xs s = .done x.2 s := by
  cases xs with
  | nil => exact absurd hn hne
  | cons x rest => exact ⟨x, List.mem_cons_self, rfl⟩

/-- The time of the last message is not part of the books. -/
theorem noteProcessMessage_run (h : BooksKept s) (hstate : s.State nodeid = some state) :
    ∃ s', noteProcessMessage nodeid s = .done () s' ∧ BooksKept s' ∧ SamePeers s s' ∧
      s'.inFlight = s.inFlight := by
  unfold noteProcessMessage
  rw [Machine.bind_run_done (deref_run hstate)]
  have hkept : BooksKept (s.setState nodeid
      { state with nLastBlockProcess := s.nTimeMicros 0 }) :=
    h.touch hstate rfl rfl rfl rfl
  refine ⟨_, rfl, hkept.congr (Eq.refl _) (Eq.refl _) (Eq.refl _) le_rfl,
    samePeers_update hstate (Eq.refl _), ?_⟩
  exact Downloads.inFlight_same hstate (Eq.refl _) (Eq.refl _)

/-- What the loop of requests leaves behind. -/
structure Requested (fDisconnect : Bool) (pto : NodeId) (s s' : Downloads) : Prop where
  kept : BooksKept s'
  peers : SamePeers s s'
  ended : ∀ state, s'.State pto = some state → ¬wantsBlocks fDisconnect state
  bound : ∀ p, (s'.inFlight p).length ≤ max (s.inFlight p).length 128

/-- Every round of the loop has one block more in flight, so the loop ends
unless it is given too few rounds. -/
theorem getDataLoop_run {fDisconnect : Bool} {pto : NodeId} (fuel : ℕ) :
    ∀ {s : Downloads} {state : CNodeState} (out : GetData), BooksKept s →
      s.State pto = some state →
      (∃ out' s', getDataLoop pto fDisconnect fuel out s = .done out' s' ∧
        Requested fDisconnect pto s s') ∨
      fuel ≤ 128 ∧ getDataLoop pto fDisconnect fuel out s = .faulted .outOfFuel ∧
        (s.inFlight pto).length + fuel ≤ max (s.inFlight pto).length 128 := by
  induction fuel with
  | zero =>
      intro s state out h hstate
      exact .inr ⟨Nat.zero_le _, rfl, le_max_left ..⟩
  | succ fuel ih =>
      intro s state out h hstate
      have hcount := h.counts hstate
      unfold getDataLoop
      rw [Machine.bind_run_done (deref_run hstate)]
      by_cases hwants : wantsBlocks fDisconnect state
      · rw [if_pos hwants]
        obtain ⟨x, hx, hfront⟩ := front_run hcount.1 hwants.2.1 s
        rw [← Downloads.toDownload_eq hstate] at hx
        -- A queued block is not in flight yet.
        have hfree : s.mapBlocksInFlight x.2 = none := by
          have hfound : s.mapBlocksToDownload x.2 = some (pto, x.1) := h.queue.index_eq hx
          rcases h.apart x.2 with hnone | hnone
          · rw [hfound] at hnone
            cases hnone
          · exact hnone
        obtain ⟨t, hrun, hkept, hpeers, hlength, hmore⟩ :=
          markBlockAsInFlight_run h hstate x.2
        obtain ⟨state', hstate'⟩ : ∃ state', t.State pto = some state' := by
          apply Option.isSome_iff_exists.mp
          rw [hpeers pto, hstate]
          rfl
        have hroom : (s.inFlight pto).length < 128 := by
          have hlimit := hwants.2.2
          rw [hcount.2, ← Downloads.inFlight_eq hstate] at hlimit
          unfold MAX_BLOCKS_IN_TRANSIT_PER_PEER at hlimit
          exact_mod_cast hlimit
        have hmore := hmore hfree
        rw [Machine.bind_run_done hfront, Machine.bind_run_done hrun]
        rcases ih (out.add x.2) hkept hstate' with ⟨out', s', hloop, hrest⟩ |
            ⟨hfew, hloop, hrounds⟩
        · refine .inl ⟨out', s', hloop, hrest.kept, ?_, hrest.ended, ?_⟩
          · exact fun p => (hrest.peers p).trans (hpeers p)
          · intro p
            have hbound := hrest.bound p
            by_cases hp : p = pto
            · subst hp
              omega
            · have hothers := hlength p
              rw [if_neg hp] at hothers
              omega
        · exact .inr ⟨by omega, hloop, by omega⟩
      · rw [if_neg hwants]
        refine .inl ⟨out, s, rfl, h, fun p => rfl, ?_, fun p => le_max_left ..⟩
        intro state' hstate'
        rw [hstate] at hstate'
        injection hstate' with hstate'
        exact hstate' ▸ hwants

theorem isStalling_run (h : BooksKept s) (hstate : s.State nodeid = some state)
    (fDisconnect : Bool) :
    ∃ fStalling, isStalling fDisconnect state s = .done fStalling s := by
  unfold isStalling
  split
  · rename_i hcond
    obtain ⟨x, -, hfront⟩ := front_run (h.counts hstate).2 hcond.2.1 s
    rw [Machine.bind_run_done hfront]
    exact ⟨_, rfl⟩
  · exact ⟨false, rfl⟩

/-- `SendMessages` returns when it is given more rounds than there may be
blocks in transit. -/
theorem sendMessages_run (h : BooksKept s) (hstate : s.State nodeid = some state)
    (fDisconnect : Bool) (fuel : ℕ) :
    (∃ fDisconnect' out s', SendMessages nodeid fDisconnect fuel s =
      .done (fDisconnect', out) s' ∧ Requested fDisconnect' nodeid s s') ∨
    fuel ≤ 128 ∧ SendMessages nodeid fDisconnect fuel s = .faulted .outOfFuel := by
  obtain ⟨fStalling, hstalling⟩ := isStalling_run h hstate fDisconnect
  unfold SendMessages
  rw [Machine.bind_run_done (deref_run hstate), Machine.bind_run_done hstalling]
  have hends := @getDataLoop_run (fDisconnect || fStalling) nodeid fuel s state ⟨[], []⟩ h
    hstate
  rcases hends with ⟨out, s', hloop, hrequested⟩ | ⟨hfew, hloop, -⟩
  · left
    refine ⟨fDisconnect || fStalling, out, s', ?_, hrequested⟩
    rw [Machine.bind_run_done hloop]
    rfl
  · right
    refine ⟨hfew, ?_⟩
    rw [Machine.bind_run, hloop]

end Requests

/-! ### Peers come and go -/

section Lives

variable {s : Downloads} {nodeid : NodeId} {state : CNodeState}

/-- A peer that is new has empty lists, as a peer that is not there. -/
theorem initializeNode_run (h : BooksKept s) (nodeid : NodeId) (addrName : String) :
    ∃ s', InitializeNode nodeid addrName s = .done () s' ∧ BooksKept s' ∧
      (∀ p, (s'.State p).isSome = (decide (p = nodeid) || (s.State p).isSome)) ∧
      s'.inFlight = s.inFlight := by
  have hqueue : ((s.State nodeid).getD .new).vBlocksToDownload = s.toDownload nodeid := by
    unfold Downloads.toDownload
    cases s.State nodeid <;> rfl
  have hflight : ((s.State nodeid).getD .new).vBlocksInFlight = s.inFlight nodeid := by
    unfold Downloads.inFlight
    cases s.State nodeid <;> rfl
  have hcounts : ((s.State nodeid).getD .new).nBlocksToDownload =
      (s.toDownload nodeid).length ∧
      ((s.State nodeid).getD .new).nBlocksInFlight = (s.inFlight nodeid).length := by
    rw [← hqueue, ← hflight]
    cases hstate : s.State nodeid with
    | none => exact ⟨rfl, rfl⟩
    | some state => exact h.counts hstate
  refine ⟨_, rfl, ?_, ?_, ?_⟩
  · apply h.replace (Downloads.state_setState ..)
    · dsimp only
      rw [hqueue, Function.update_eq_self]
      exact h.queue
    · dsimp only
      rw [hflight, Function.update_eq_self]
      exact h.flight
    · exact h.apart
    · dsimp only
      rw [hqueue, hflight]
      exact hcounts
    · dsimp only
      rw [hqueue, hflight]
      exact h.fresh nodeid
    · exact le_rfl
  · intro p
    rw [Downloads.state_setState, Function.update_apply]
    by_cases hp : p = nodeid
    · simp [hp]
    · simp [hp]
  · rw [Downloads.inFlight_update (Downloads.state_setState ..), Option.map_some,
      Option.getD_some]
    dsimp only
    rw [hflight, Function.update_eq_self]

/-- A peer that goes takes its entries out of both maps. -/
theorem finalizeNode_run (h : BooksKept s) (hstate : s.State nodeid = some state) :
    ∃ s', FinalizeNode nodeid s = .done () s' ∧ BooksKept s' ∧
      (∀ p, (s'.State p).isSome = (!decide (p = nodeid) && (s.State p).isSome)) ∧
      ∀ p, (s'.inFlight p).length ≤ (s.inFlight p).length := by
  have hqueue := h.queue.dismiss nodeid
  have hflight := h.flight.dismiss nodeid
  rw [Downloads.toDownload_eq hstate] at hqueue
  rw [Downloads.inFlight_eq hstate] at hflight
  unfold FinalizeNode
  rw [Machine.bind_run_done (deref_run hstate)]
  refine ⟨_, rfl, ?_, ?_, ?_⟩
  · constructor
    · rw [Downloads.toDownload_update (Eq.refl _)]
      exact hqueue
    · rw [Downloads.inFlight_update (Eq.refl _)]
      exact hflight
    · intro k
      dsimp only
      rcases h.apart k with hk | hk
      · left
        exact (Filed.foldl_forget id state.vBlocksToDownload s.mapBlocksToDownload k).trans
          (by rw [hk, ite_self])
      · right
        rw [Filed.foldl_forget, hk, ite_self]
    · intro p state' hp
      change Function.update s.mapNodeState nodeid none p = some state' at hp
      rw [Function.update_apply] at hp
      split at hp
      · cases hp
      · exact h.counts hp
    · intro p
      rw [Downloads.toDownload_update (Eq.refl _), Downloads.inFlight_update (Eq.refl _),
        Function.update_apply, Function.update_apply]
      split
      · exact ⟨fun x hx => absurd hx List.not_mem_nil,
          fun x hx => absurd hx List.not_mem_nil⟩
      · exact h.fresh p
  · intro p
    change (Function.update s.mapNodeState nodeid none p).isSome = _
    rw [Function.update_apply]
    by_cases hp : p = nodeid
    · simp [hp]
    · simp [hp, Downloads.State]
  · intro p
    rw [Downloads.inFlight_update (Eq.refl _), Function.update_apply]
    split
    · exact Nat.zero_le _
    · exact le_rfl

end Lives

/-! ### Runs -/

/-- A peer has a state as long as there is its `CNode`, and only then. -/
structure Connections.Sound (n : Connections) : Prop where
  kept : BooksKept n.downloads
  alive : ∀ p, (n.downloads.State p).isSome = true ↔ p ∈ n.nodes
  nodup : n.nodes.Nodup
  numbered : ∀ p ∈ n.nodes, p < n.nLastNodeId

/-- Peers stay the same in a call that is not about their lives. -/
theorem Connections.Sound.downloads {n : Connections} (h : n.Sound) {s' : Downloads}
    (hkept : BooksKept s') (hpeers : SamePeers n.downloads s') :
    Connections.Sound { n with downloads := s' } where
  kept := hkept
  alive p := by
    dsimp only
    rw [hpeers p]
    exact h.alive p
  nodup := h.nodup
  numbered := h.numbered

theorem Connections.Sound.exists_state {n : Connections} (h : n.Sound) {p : NodeId}
    (hp : p ∈ n.nodes) : ∃ state, n.downloads.State p = some state :=
  Option.isSome_iff_exists.mp ((h.alive p).mpr hp)

/-- A call that has too few rounds for its loop. -/
def PeerCall.TooFewRounds : PeerCall → Prop
  | .sendMessages _ _ fuel => fuel ≤ 128
  | _ => False

/-- No peer has more blocks in transit than it may have. -/
def WithinLimit (s : Downloads) : Prop :=
  ∀ p, (s.inFlight p).length ≤ 128

/-- A call the program makes in a sound network returns, and leaves it sound. -/
theorem Connections.Sound.makes {n : Connections} (h : n.Sound) (banscore : ℤ)
    {limited : Prop} {call : PeerCall} (hmakes : n.Makes limited call) :
    (∃ s', call.run banscore n.nLastNodeId n.downloads = .done () s' ∧
      (n.after call s').Sound ∧
      (limited → WithinLimit n.downloads → WithinLimit s')) ∨
    call.TooFewRounds ∧
      call.run banscore n.nLastNodeId n.downloads = .faulted .outOfFuel := by
  cases call with
  | initializeNode addrName =>
      obtain ⟨s', hrun, hkept, hpeers, hflight⟩ :=
        initializeNode_run h.kept n.nLastNodeId addrName
      refine .inl ⟨s', hrun, ⟨hkept, ?_, ?_, ?_⟩, ?_⟩
      · intro p
        dsimp only [Connections.after]
        rw [hpeers p, List.mem_cons, ← h.alive p, Bool.or_eq_true, decide_eq_true_iff]
      · exact List.nodup_cons.mpr
          ⟨fun hmem => lt_irrefl _ (h.numbered _ hmem), h.nodup⟩
      · intro p hp
        dsimp only [Connections.after] at hp ⊢
        rcases List.mem_cons.mp hp with rfl | hp
        · exact lt_add_one _
        · exact (h.numbered p hp).trans (lt_add_one _)
      · intro _ hlimit p
        rw [hflight]
        exact hlimit p
  | finalizeNode nodeid =>
      obtain ⟨state, hstate⟩ := h.exists_state hmakes
      obtain ⟨s', hrun, hkept, hpeers, hflight⟩ := finalizeNode_run h.kept hstate
      refine .inl ⟨s', hrun, ⟨hkept, ?_, h.nodup.erase _, ?_⟩, ?_⟩
      · intro p
        dsimp only [Connections.after]
        rw [hpeers p, h.nodup.mem_erase_iff, ← h.alive p, Bool.and_eq_true,
          Bool.not_eq_true', decide_eq_false_iff_not]
      · exact fun p hp => h.numbered p (List.mem_of_mem_erase hp)
      · exact fun _ hlimit p => (hflight p).trans (hlimit p)
  | addBlockToQueue nodeid hash =>
      obtain ⟨added, s', hrun, hkept, hpeers, hflight⟩ :=
        addBlockToQueue_run h.kept banscore nodeid hash
      refine .inl ⟨s', ?_, h.downloads hkept hpeers, ?_⟩
      · rw [PeerCall.run, Machine.bind_run_done hrun]
        rfl
      · intro _ hlimit p
        rw [hflight]
        exact hlimit p
  | markBlockAsInFlight nodeid hash =>
      obtain ⟨state, hstate⟩ := h.exists_state hmakes.1
      obtain ⟨s', hrun, hkept, hpeers, hlength, -⟩ :=
        markBlockAsInFlight_run h.kept hstate hash
      refine .inl ⟨s', hrun, h.downloads hkept hpeers, ?_⟩
      intro hlimited hlimit p
      have hbelow := hmakes.2 hlimited state hstate
      rw [(h.kept.counts hstate).2, ← Downloads.inFlight_eq hstate] at hbelow
      unfold MAX_BLOCKS_IN_TRANSIT_PER_PEER at hbelow
      have hp := hlength p
      have hold := hlimit p
      by_cases heq : p = nodeid
      · subst heq
        rw [if_pos rfl] at hp
        omega
      · rw [if_neg heq] at hp
        omega
  | markBlockAsReceived hash nodeFrom =>
      obtain ⟨s', hrun, hkept, hpeers, hlength, -⟩ :=
        markBlockAsReceived_run h.kept hash nodeFrom
      exact .inl ⟨s', hrun, h.downloads hkept hpeers,
        fun _ hlimit p => (hlength p).trans (hlimit p)⟩
  | processMessage pfrom =>
      obtain ⟨state, hstate⟩ := h.exists_state hmakes
      obtain ⟨s', hrun, hkept, hpeers, hflight⟩ := noteProcessMessage_run h.kept hstate
      refine .inl ⟨s', hrun, h.downloads hkept hpeers, ?_⟩
      intro _ hlimit p
      rw [hflight]
      exact hlimit p
  | sendMessages pto fDisconnect fuel =>
      obtain ⟨state, hstate⟩ := h.exists_state hmakes
      rcases sendMessages_run h.kept hstate fDisconnect fuel with
        ⟨_, out, s', hrun, hrequested⟩ | ⟨hfew, hrun⟩
      · refine .inl ⟨s', ?_, h.downloads hrequested.kept hrequested.peers, ?_⟩
        · rw [PeerCall.run, Machine.bind_run_done hrun]
          rfl
        · exact fun _ hlimit p => (hrequested.bound p).trans (max_le (hlimit p) le_rfl)
      · refine .inr ⟨hfew, ?_⟩
        rw [PeerCall.run, Machine.bind_run, hrun]

theorem Connections.Reachable.sound {n : Connections} {banscore : ℤ} {limited : Prop}
    (h : n.Reachable banscore limited) :
    n.Sound ∧ (limited → WithinLimit n.downloads) := by
  induction h with
  | init nTimeMicros =>
      refine ⟨⟨BooksKept.initial nTimeMicros, fun p => ?_, List.nodup_nil, fun p hp => ?_⟩,
        fun _ p => Nat.zero_le _⟩
      · simp [Connections.initial, Downloads.State]
      · cases hp
  | step reachable makes h ih =>
      rcases ih.1.makes banscore makes with ⟨s', hrun, hsound, hlimit⟩ | ⟨-, hfault⟩
      · rw [h] at hrun
        injection hrun with _ hs
        subst hs
        refine ⟨hsound, fun hlimited => ?_⟩
        have hwithin := hlimit hlimited (ih.2 hlimited)
        cases ‹PeerCall› <;> exact hwithin
      · rw [h] at hfault
        cases hfault

/-! ### The books of a node -/

/-- The hashes a peer has in its two lists. -/
def Downloads.hashes (s : Downloads) (p : NodeId) : List uint256 :=
  ((s.toDownload p).map fun x => x.2) ++ (s.inFlight p).map fun x => x.2.hash

end Ziftrcoin.Spec
