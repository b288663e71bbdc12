/-
Module: Ziftrcoin.Spec.Inventory
Purpose: What a node does with the items that a peer announces or asks for.
Trusted boundary: human-reviewed model of IsKnownType, GetCommand and ToString of CInv in
  src/protocol.cpp, and of AlreadyHave, ProcessGetData and the messages inv and getdata
  of ProcessMessage in src/main.cpp.  The calls of AskFor, AddBlockToQueue and
  PushGetBlocks are recorded; the blocks, the relay memory and the memory pool are what
  they answer.
Main exports: CInv, InvNode, InvView
-/
import Ziftrcoin.Spec.Transaction

namespace Ziftrcoin.Spec

/-! ### Items -/

def MSG_TX : Int := 1

def MSG_BLOCK : Int := 2

def MSG_FILTERED_BLOCK : Int := 3

def MAX_INV_SZ : Nat := 50000

def ppszTypeName : List String := ["ERROR", "tx", "block", "filtered block"]

/-- An item: a type, which is any 32-bit number, and a hash. -/
structure CInv where
  type : Int
  hash : uint256
deriving Repr, DecidableEq

namespace CInv

def IsKnownType (inv : CInv) : Bool :=
  1 ≤ inv.type && inv.type < ppszTypeName.length

/-- `GetCommand`; the error is the `out_of_range` that it throws. -/
def GetCommand (inv : CInv) : Except String String :=
  if inv.IsKnownType then .ok (ppszTypeName.getD inv.type.toNat "")
  else .error s!"CInv::GetCommand() : type={inv.type} unknown type"

/-- `ToString`. -/
def ToString (inv : CInv) : Except String String := do
  let command ← inv.GetCommand
  return s!"{command} {inv.hash}"

end CInv

/-! ### Announcements -/

/-- What the node knows when it looks at an announcement. -/
structure InvView where
  fImporting : Bool
  fReindex : Bool
  mempoolExists : uint256 → Bool
  orphanTransactions : uint256 → Bool
  HaveCoins : uint256 → Bool
  blockIndex : uint256 → Bool
  orphanBlocks : uint256 → Bool
  GetOrphanRoot : uint256 → uint256
  SendBufferSize : Nat
  /-- `nSendSize` once the blocks before these roots have been asked for. -/
  nSendSize : List uint256 → Nat

def AlreadyHave (view : InvView) (inv : CInv) : Bool :=
  if inv.type = MSG_TX then
    view.mempoolExists inv.hash || view.orphanTransactions inv.hash || view.HaveCoins inv.hash
  else if inv.type = MSG_BLOCK then view.blockIndex inv.hash || view.orphanBlocks inv.hash
  else
    -- Don't know what it is, just say we already got one
    true

/-- What is asked for later. -/
inductive Wanted where
  | AskFor (inv : CInv)
  | AddBlockToQueue (hash : uint256)
deriving Repr, DecidableEq

/-- The peer, with the calls that were made for it. -/
structure InvNode where
  setInventoryKnown : List CInv
  wanted : List Wanted
  /-- The roots of orphan blocks that `PushGetBlocks` was called for. -/
  roots : List uint256
  /-- The hashes that the wallets were told. -/
  inventory : List uint256
  nMisbehavior : Int
deriving Repr, DecidableEq

/-- How a message ends. -/
inductive InvEnd where
  | done
  /-- `error`. -/
  | refused (text : String)
  /-- An exception. -/
  | thrown (what : String)
deriving Repr, DecidableEq

/-- What is called for an item, before its hash is passed on. -/
def InvNode.request (view : InvView) (pfrom : InvNode) (inv : CInv) : InvNode :=
  if AlreadyHave view inv = false then
    if view.fImporting = false ∧ view.fReindex = false then
      if inv.type = MSG_BLOCK then
        { pfrom with wanted := pfrom.wanted ++ [.AddBlockToQueue inv.hash] }
      else { pfrom with wanted := pfrom.wanted ++ [.AskFor inv] }
    else pfrom
  else if inv.type = MSG_BLOCK ∧ view.orphanBlocks inv.hash = true then
    { pfrom with roots := pfrom.roots ++ [view.GetOrphanRoot inv.hash] }
  else pfrom

/-- The loop of `inv`.  The text for the log is made whether or not it is logged. -/
def invLoop (view : InvView) : List CInv → InvNode → InvNode × InvEnd
  | [], pfrom => (pfrom, .done)
  | inv :: vInv, pfrom =>
      let pfrom := { pfrom with setInventoryKnown := pfrom.setInventoryKnown ++ [inv] }
      match inv.ToString with
      | .error what => (pfrom, .thrown what)
      | .ok _ =>
          let pfrom := pfrom.request view inv
          let pfrom := { pfrom with inventory := pfrom.inventory ++ [inv.hash] }
          let nSendSize := view.nSendSize pfrom.roots
          if view.SendBufferSize * 2 < nSendSize then
            ({ pfrom with nMisbehavior := pfrom.nMisbehavior + 50 },
              .refused s!"send buffer size() = {nSendSize}")
          else invLoop view vInv pfrom

/-- The message `inv`. -/
def ProcessMessage_inv (view : InvView) (pfrom : InvNode) (vInv : List CInv) :
    InvNode × InvEnd :=
  if MAX_INV_SZ < vInv.length then
    ({ pfrom with nMisbehavior := pfrom.nMisbehavior + 20 },
      .refused s!"message inv size() = {vInv.length}")
  else invLoop view vInv pfrom

/-! ### Requests -/

/-- What is pushed for a request. -/
inductive Reply where
  /-- A block or a filtered block, with what goes with it. -/
  | block (inv : CInv)
  /-- From the relay memory. -/
  | relayed (command : String) (payload : valtype)
  | tx (tx : CTransaction)
  | notfound (vNotFound : List CInv)
deriving Repr, DecidableEq

/-- What there is to answer with. -/
structure GetDataView where
  /-- Whether the block is known and is served, and there is a filter if it is to be
  filtered. -/
  serves : CInv → Bool
  mapRelay : CInv → Option valtype
  /-- `mempool.lookup`. -/
  lookup : uint256 → Option CTransaction
  SendBufferSize : Nat
  /-- `nSendSize` once these replies have been pushed. -/
  nSendSize : List Reply → Nat

/-- The branch for an item of a known type that is not a block: what is pushed, or else
the item is not found. -/
def findItem (view : GetDataView) (inv : CInv) : Except String (Option Reply) :=
  match view.mapRelay inv with
  | some payload => do
      let command ← inv.GetCommand
      return some (.relayed command payload)
  | none =>
      if inv.type = MSG_TX then .ok ((view.lookup inv.hash).map .tx) else .ok none

/-- The loop of `ProcessGetData`: the requests that are left, what has been pushed, and
what was not found. -/
def answerLoop (view : GetDataView) : List CInv → List Reply → List CInv →
    Except String (List CInv × List Reply × List CInv)
  | [], pushed, vNotFound => .ok ([], pushed, vNotFound)
  | inv :: rest, pushed, vNotFound =>
      if view.SendBufferSize ≤ view.nSendSize pushed then .ok (inv :: rest, pushed, vNotFound)
      else if inv.type = MSG_BLOCK ∨ inv.type = MSG_FILTERED_BLOCK then
        -- one block in a call
        .ok (rest, if view.serves inv then pushed ++ [.block inv] else pushed, vNotFound)
      else if inv.IsKnownType then
        match findItem view inv with
        | .error what => .error what
        | .ok (some reply) => answerLoop view rest (pushed ++ [reply]) vNotFound
        | .ok none => answerLoop view rest pushed (vNotFound ++ [inv])
      else answerLoop view rest pushed vNotFound

/-- `ProcessGetData`: the requests that are left and what is pushed. -/
def ProcessGetData (view : GetDataView) (vRecvGetData : List CInv) :
    Except String (List CInv × List Reply) :=
  match answerLoop view vRecvGetData [] [] with
  | .error what => .error what
  | .ok (rest, pushed, vNotFound) =>
      .ok (rest, if vNotFound = [] then pushed else pushed ++ [.notfound vNotFound])

/-- The message `getdata`, up to the call of `ProcessGetData`: what becomes of
`vRecvGetData`. -/
def ProcessMessage_getdata (fDebug : Bool) (vRecvGetData vInv : List CInv) :
    List CInv × InvEnd :=
  if MAX_INV_SZ < vInv.length then
    (vRecvGetData, .refused s!"message getdata size() = {vInv.length}")
  else
    match vInv with
    | [] => (vRecvGetData, .done)
    | inv :: rest =>
        -- the first item is written to the log
        if fDebug = true ∨ rest = [] then
          match inv.ToString with
          | .error what => (vRecvGetData, .thrown what)
          | .ok _ => (vRecvGetData ++ vInv, .done)
        else (vRecvGetData ++ vInv, .done)

end Ziftrcoin.Spec
