/-
Module: Ziftrcoin.Spec.Download
Purpose: Which blocks a node means to fetch from which peer: the queue and the
  requests in flight of each peer, and the two maps that find a block in them; and what a
  node notes about a block and its peer before the block is processed.
Trusted boundary: human-reviewed model of CNodeState, InitializeNode,
  FinalizeNode, MarkBlockAsReceived, AddBlockToQueue, MarkBlockAsInFlight, the requests of
  SendMessages, the handler of "block" in ProcessMessage and the search for a peer in
  InvalidBlockFound in src/main.cpp, and of the life of a CNode in src/net.h
Main exports: CNodeState, Downloads, Peers
-/
import Ziftrcoin.Lib.Filing
import Ziftrcoin.Spec.Node

namespace Ziftrcoin.Spec

open Ziftrcoin.Lib

/-! ### The state -/

/-- `NodeId`, a count of connections. -/
abbrev NodeId := Int

/-- Number of blocks that can be requested at any given time from a peer. -/
def MAX_BLOCKS_IN_TRANSIT_PER_PEER : Int := 128

/-- Timeout in seconds before a peer counts as unresponsive. -/
def BLOCK_DOWNLOAD_TIMEOUT : Int := 60

structure QueuedBlock where
  hash : uint256
  /-- Time of the request in microseconds. -/
  nTime : Int
  /-- Number of blocks in flight at the time of the request. -/
  nQueuedBefore : Int
deriving Repr, DecidableEq, Inhabited

/-- What validation knows about a peer, without the rejections it is still to
be told of. -/
structure CNodeState where
  nMisbehavior : Int
  fShouldBan : Bool
  name : String
  vBlocksInFlight : Linked QueuedBlock
  nBlocksInFlight : Int
  vBlocksToDownload : Linked uint256
  nBlocksToDownload : Int
  nLastBlockReceive : Int
  nLastBlockProcess : Int
deriving Repr, DecidableEq

/-- The constructor of `CNodeState`. -/
def CNodeState.new : CNodeState :=
  { nMisbehavior := 0
    fShouldBan := false
    name := ""
    vBlocksInFlight := []
    nBlocksInFlight := 0
    vBlocksToDownload := []
    nBlocksToDownload := 0
    nLastBlockReceive := 0
    nLastBlockProcess := 0 }

/-- The globals that keep track of downloads.  A new list cell is one that no
list has had before, so an iterator that has lost its cell is never taken for
a valid one. -/
structure Downloads where
  mapNodeState : NodeId → Option CNodeState
  mapBlocksInFlight : uint256 → Option (NodeId × Cell)
  mapBlocksToDownload : uint256 → Option (NodeId × Cell)
  nextCell : Cell
  /-- What `GetTimeMicros` will show, the next look first. -/
  nTimeMicros : Nat → Int

/-- What must not happen. -/
inductive PeerFault where
  /-- `State` is `NULL` where it is read. -/
  | nullState
  /-- An iterator is used that points at no cell of its list. -/
  | badIterator
  /-- `front` of an empty list. -/
  | emptyList
  /-- The assertion of `MarkBlockAsInFlight`. -/
  | assertState
  /-- A loop goes on for longer than it was given. -/
  | outOfFuel
deriving Repr, DecidableEq

/-- A call of one of the functions below: none of them can be refused. -/
abbrev Peers := Machine Downloads Empty PeerFault

namespace Downloads

/-- `State`. -/
def State (s : Downloads) (pnode : NodeId) : Option CNodeState :=
  s.mapNodeState pnode

def setState (s : Downloads) (pnode : NodeId) (state : CNodeState) : Downloads :=
  { s with mapNodeState := Function.update s.mapNodeState pnode (some state) }

/-- The blocks queued for a peer; none where there is no peer. -/
def toDownload (s : Downloads) (pnode : NodeId) : Linked uint256 :=
  ((s.State pnode).map CNodeState.vBlocksToDownload).getD []

/-- The blocks requested from a peer. -/
def inFlight (s : Downloads) (pnode : NodeId) : Linked QueuedBlock :=
  ((s.State pnode).map CNodeState.vBlocksInFlight).getD []

end Downloads

namespace Peers

/-- The state of a peer, read without a check. -/
def deref (pnode : NodeId) : Peers CNodeState := fun s =>
  match s.State pnode with
  | none => .faulted .nullState
  | some state => .done state s

def setState (pnode : NodeId) (state : CNodeState) : Peers Unit :=
  Machine.modify fun s => s.setState pnode state

def newCell : Peers Cell := fun s =>
  .done s.nextCell { s with nextCell := s.nextCell + 1 }

def GetTimeMicros : Peers Int := fun s =>
  .done (s.nTimeMicros 0) { s with nTimeMicros := fun n => s.nTimeMicros (n + 1) }

/-- `list::erase`. -/
def erase {α : Type} (xs : Linked α) (it : Cell) : Peers (Linked α) := fun s =>
  match xs.erase? it with
  | none => .faulted .badIterator
  | some rest => .done rest s

/-- `list::front`. -/
def front {α : Type} (xs : Linked α) : Peers α := fun s =>
  match xs.head? with
  | none => .faulted .emptyList
  | some x => .done x.2 s

end Peers

/-! ### Peers come and go -/

/-- `InitializeNode`.  Inserting leaves a state that is there already. -/
def InitializeNode (nodeid : NodeId) (addrName : String) : Peers Unit :=
  Machine.modify fun s =>
    s.setState nodeid { (s.State nodeid).getD .new with name := addrName }

/-- `FinalizeNode`, without the orphan transactions of the peer. -/
def FinalizeNode (nodeid : NodeId) : Peers Unit := do
  let state ← Peers.deref nodeid
  Machine.modify fun s =>
    { s with
      mapBlocksInFlight := state.vBlocksInFlight.foldl
        (fun index entry => Function.update index entry.2.hash none)
        s.mapBlocksInFlight
      mapBlocksToDownload := state.vBlocksToDownload.foldl
        (fun index hash => Function.update index hash.2 none)
        s.mapBlocksToDownload
      mapNodeState := Function.update s.mapNodeState nodeid none }

/-- `Misbehaving`; `banscore` is the option of that name. -/
def Misbehaving (banscore : Int) (pnode : NodeId) (howmuch : Int) : Peers Unit := do
  let s ← Machine.get
  if howmuch ≠ 0 then
    match s.State pnode with
    | none => pure ()
    | some state =>
        let nMisbehavior := state.nMisbehavior + howmuch
        Peers.setState pnode
          { state with
            nMisbehavior
            fShouldBan := state.fShouldBan || decide (banscore ≤ nMisbehavior) }

/-! ### Blocks -/

/-- The part of `MarkBlockAsReceived` about blocks that are queued. -/
def takeFromQueue (hash : uint256) : Peers Unit := do
  let s ← Machine.get
  match s.mapBlocksToDownload hash with
  | none => pure ()
  | some (owner, it) =>
      let state ← Peers.deref owner
      let vBlocksToDownload ← Peers.erase state.vBlocksToDownload it
      Peers.setState owner
        { state with
          vBlocksToDownload
          nBlocksToDownload := state.nBlocksToDownload - 1 }
      Machine.modify fun s =>
        { s with
          mapBlocksToDownload := Function.update s.mapBlocksToDownload hash none }

/-- When a peer last sent a block that was requested: now, if it is the one
that sent this block. -/
def lastBlockReceive (owner nodeFrom : NodeId) (state : CNodeState) : Peers Int :=
  if owner = nodeFrom then Peers.GetTimeMicros else pure state.nLastBlockReceive

/-- The part of `MarkBlockAsReceived` about blocks that are in flight. -/
def takeFromFlight (hash : uint256) (nodeFrom : NodeId) : Peers Unit := do
  let s ← Machine.get
  match s.mapBlocksInFlight hash with
  | none => pure ()
  | some (owner, it) =>
      let state ← Peers.deref owner
      let vBlocksInFlight ← Peers.erase state.vBlocksInFlight it
      let nLastBlockReceive ← lastBlockReceive owner nodeFrom state
      Peers.setState owner
        { state with
          vBlocksInFlight
          nBlocksInFlight := state.nBlocksInFlight - 1
          nLastBlockReceive }
      Machine.modify fun s =>
        { s with
          mapBlocksInFlight := Function.update s.mapBlocksInFlight hash none }

/-- `MarkBlockAsReceived`. -/
def MarkBlockAsReceived (hash : uint256) (nodeFrom : NodeId) : Peers Unit := do
  takeFromQueue hash
  takeFromFlight hash nodeFrom

/-- A peer with one block more in its queue. -/
def CNodeState.enqueue (state : CNodeState) (it : Cell) (hash : uint256) :
    CNodeState :=
  { state with
    vBlocksToDownload := state.vBlocksToDownload.pushBack it hash
    nBlocksToDownload := state.nBlocksToDownload + 1 }

/-- A queue that has grown too long counts against the peer. -/
def punishLongQueue (banscore : Int) (nodeid : NodeId) (state : CNodeState) :
    Peers Unit :=
  if 5000 < state.nBlocksToDownload then Misbehaving banscore nodeid 10 else pure ()

/-- `AddBlockToQueue`. -/
def AddBlockToQueue (banscore : Int) (nodeid : NodeId) (hash : uint256) :
    Peers Bool := do
  let s ← Machine.get
  if (s.mapBlocksToDownload hash).isSome ∨ (s.mapBlocksInFlight hash).isSome then
    return false
  else
    match s.State nodeid with
    | none => return false
    | some state =>
        let it ← Peers.newCell
        Peers.setState nodeid (state.enqueue it hash)
        punishLongQueue banscore nodeid (state.enqueue it hash)
        Machine.modify fun s =>
          { s with
            mapBlocksToDownload :=
              Function.update s.mapBlocksToDownload hash (some (nodeid, it)) }
        return true

/-- A peer with one block more in flight. -/
def CNodeState.request (state : CNodeState) (it : Cell) (hash : uint256)
    (nTime : Int) : CNodeState :=
  { state with
    vBlocksInFlight := state.vBlocksInFlight.pushBack it
      { hash, nTime, nQueuedBefore := state.nBlocksInFlight }
    nBlocksInFlight := state.nBlocksInFlight + 1
    nLastBlockReceive :=
      -- Reset when a first request is sent.
      if state.nBlocksInFlight = 0 then nTime else state.nLastBlockReceive }

/-- `MarkBlockAsInFlight`. -/
def MarkBlockAsInFlight (nodeid : NodeId) (hash : uint256) : Peers Unit := do
  let s ← Machine.get
  if (s.State nodeid).isNone then
    Machine.fault .assertState
  -- Make sure it's not listed somewhere already.
  MarkBlockAsReceived hash (-1)
  let nTime ← Peers.GetTimeMicros
  let state ← Peers.deref nodeid
  let it ← Peers.newCell
  Peers.setState nodeid (state.request it hash nTime)
  Machine.modify fun s =>
    { s with
      mapBlocksInFlight :=
        Function.update s.mapBlocksInFlight hash (some (nodeid, it)) }

/-! ### Requests -/

/-- The `getdata` messages for blocks: those sent, and the one being filled. -/
structure GetData where
  pushed : List (List uint256)
  vGetData : List uint256
deriving Repr, DecidableEq, Inhabited

def GetData.add (out : GetData) (hash : uint256) : GetData :=
  let vGetData := out.vGetData ++ [hash]
  if 1000 ≤ vGetData.length then
    { pushed := out.pushed ++ [vGetData], vGetData := [] }
  else { out with vGetData }

/-- The condition of the loop of `SendMessages` that requests blocks. -/
def wantsBlocks (fDisconnect : Bool) (state : CNodeState) : Prop :=
  fDisconnect = false ∧ state.nBlocksToDownload ≠ 0 ∧
    state.nBlocksInFlight < MAX_BLOCKS_IN_TRANSIT_PER_PEER

instance (fDisconnect : Bool) (state : CNodeState) :
    Decidable (wantsBlocks fDisconnect state) :=
  inferInstanceAs (Decidable (_ ∧ _ ∧ _))

/-- The loop of `SendMessages` that requests blocks. -/
def getDataLoop (pto : NodeId) (fDisconnect : Bool) : (fuel : Nat) → GetData →
    Peers GetData
  | 0, _ => Machine.fault .outOfFuel
  | fuel + 1, out => do
      let state ← Peers.deref pto
      if wantsBlocks fDisconnect state then
        let hash ← Peers.front state.vBlocksToDownload
        MarkBlockAsInFlight pto hash
        getDataLoop pto fDisconnect fuel (out.add hash)
      else
        return out

/-- Whether a peer is to be disconnected because it stalls the download. -/
def isStalling (fDisconnect : Bool) (state : CNodeState) : Peers Bool :=
  if fDisconnect = false ∧ state.nBlocksInFlight ≠ 0 ∧
      state.nLastBlockReceive <
        state.nLastBlockProcess - BLOCK_DOWNLOAD_TIMEOUT * 1000000 then do
    let first ← Peers.front state.vBlocksInFlight
    return decide (first.nTime <
      state.nLastBlockProcess - 2 * BLOCK_DOWNLOAD_TIMEOUT * 1000000)
  else
    return false

/-- The part of `SendMessages` about blocks.  The result says whether the peer
is to be disconnected, and what was requested. -/
def SendMessages (pto : NodeId) (fDisconnect : Bool) (fuel : Nat) :
    Peers (Bool × GetData) := do
  let state ← Peers.deref pto
  let fStalling ← isStalling fDisconnect state
  let fDisconnect := fDisconnect || fStalling
  let out ← getDataLoop pto fDisconnect fuel ⟨[], []⟩
  return (fDisconnect, out)

/-- `ProcessMessage` takes note of the time. -/
def noteProcessMessage (pfrom : NodeId) : Peers Unit := do
  let state ← Peers.deref pfrom
  let nLastBlockProcess ← Peers.GetTimeMicros
  Peers.setState pfrom { state with nLastBlockProcess }

/-! ### Runs -/

/-- The downloads, and the `CNode` objects there are. -/
structure Connections where
  downloads : Downloads
  nLastNodeId : NodeId
  nodes : List NodeId

def Connections.initial (nTimeMicros : Nat → Int) : Connections :=
  { downloads :=
      { mapNodeState := fun _ => none
        mapBlocksInFlight := fun _ => none
        mapBlocksToDownload := fun _ => none
        nextCell := 0
        nTimeMicros }
    nLastNodeId := 0
    nodes := [] }

/-- A call from outside.  A `CNode` is constructed with an identifier of its
own, and destroyed once. -/
inductive PeerCall where
  | initializeNode (addrName : String)
  | finalizeNode (nodeid : NodeId)
  | addBlockToQueue (nodeid : NodeId) (hash : uint256)
  | markBlockAsInFlight (nodeid : NodeId) (hash : uint256)
  | markBlockAsReceived (hash : uint256) (nodeFrom : NodeId)
  | processMessage (pfrom : NodeId)
  | sendMessages (pto : NodeId) (fDisconnect : Bool) (fuel : Nat)
deriving Repr, DecidableEq

/-- The function that is called. -/
def PeerCall.run (banscore : Int) (nLastNodeId : NodeId) : PeerCall → Peers Unit
  | .initializeNode addrName => InitializeNode nLastNodeId addrName
  | .finalizeNode nodeid => FinalizeNode nodeid
  | .addBlockToQueue nodeid hash => do
      let _ ← AddBlockToQueue banscore nodeid hash
  | .markBlockAsInFlight nodeid hash => MarkBlockAsInFlight nodeid hash
  | .markBlockAsReceived hash nodeFrom => MarkBlockAsReceived hash nodeFrom
  | .processMessage pfrom => noteProcessMessage pfrom
  | .sendMessages pto fDisconnect fuel => do
      let _ ← SendMessages pto fDisconnect fuel

/-- The `CNode` objects there are after a call, and the next identifier. -/
def Connections.after (n : Connections) (call : PeerCall) (downloads : Downloads) : Connections :=
  match call with
  | .initializeNode _ =>
      { downloads, nLastNodeId := n.nLastNodeId + 1
        nodes := n.nLastNodeId :: n.nodes }
  | .finalizeNode nodeid => { n with downloads, nodes := n.nodes.erase nodeid }
  | _ => { n with downloads }

/-- The calls the program makes: about a `CNode` only while there is one.
Where `limited` holds, `MarkBlockAsInFlight` is called as in its only caller,
which has checked the number of blocks in flight. -/
def Connections.Makes (limited : Prop) (n : Connections) : PeerCall → Prop
  | .initializeNode _ => True
  | .finalizeNode nodeid => nodeid ∈ n.nodes
  | .addBlockToQueue _ _ => True
  | .markBlockAsInFlight nodeid _ => nodeid ∈ n.nodes ∧ (limited →
      ∀ state, n.downloads.State nodeid = some state →
        state.nBlocksInFlight < MAX_BLOCKS_IN_TRANSIT_PER_PEER)
  | .markBlockAsReceived _ _ => True
  | .processMessage pfrom => pfrom ∈ n.nodes
  | .sendMessages pto _ _ => pto ∈ n.nodes

/-- What calls in any order lead to. -/
inductive Connections.Reachable (banscore : Int) (limited : Prop) : Connections → Prop where
  | init (nTimeMicros : Nat → Int) :
      Connections.Reachable banscore limited (.initial nTimeMicros)
  | step {n : Connections} {call : PeerCall} {downloads : Downloads}
      (reachable : Connections.Reachable banscore limited n)
      (makes : n.Makes limited call)
      (h : call.run banscore n.nLastNodeId n.downloads = .done () downloads) :
      Connections.Reachable banscore limited (n.after call downloads)

/-! ### The message "block" -/

/-- What a node keeps about peers and the blocks they send. -/
structure PeerBooks where
  downloads : Downloads
  /-- Who sent a block, until it is connected. -/
  mapBlockSource : uint256 → Option NodeId

/-- The handler of "block" up to the call of `ProcessBlock`.  `inv.hash` is the
hash of the block as it was received. -/
def noteBlock (crypto : Crypto) (pfrom : NodeId) (block : CBlock) :
    Machine PeerBooks Empty PeerFault Unit := fun books =>
  let hash := block.GetHash crypto
  let mapBlockSource := Function.update books.mapBlockSource hash (some pfrom)
  match MarkBlockAsReceived hash pfrom books.downloads with
  | .done () downloads => .done () { downloads, mapBlockSource }
  | .refused r _ => r.elim
  | .faulted e => .faulted e

/-- The peer that `InvalidBlockFound` holds responsible for an entry with a
given hash. -/
def blamed (books : PeerBooks) (hash : uint256) : Option NodeId :=
  (books.mapBlockSource hash).filter fun pnode => (books.downloads.State pnode).isSome

/-- The handler of "block": the books that `ProcessBlock` finds, and how it
ends.  A message carries a block without a Merkle tree. -/
def ProcessMessage_block (cfg : Config) (fuel : Nat) (pfrom : NodeId) (block : CBlock)
    (s : NodeState) :
    Machine PeerBooks Empty PeerFault (Result NodeState CValidationState Fault Unit) := do
  noteBlock cfg.crypto pfrom block
  return ProcessBlock cfg fuel true block.readBack s

end Ziftrcoin.Spec
