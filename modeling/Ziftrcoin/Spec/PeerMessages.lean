/-
Module: Ziftrcoin.Spec.PeerMessages
Purpose: The framing of messages between peers: how they are queued and sent in
  parts, and how they are received in parts and taken from the queue.
Trusted boundary: human-reviewed model of BeginMessage, EndMessage and CNetMessage in
  src/net.h, of ReceiveMsgBytes, readHeader, readData and SocketSendData in src/net.cpp,
  of CMessageHeader in src/protocol.cpp and of ProcessMessages in src/main.cpp; what
  `send` takes is a parameter, the options that drop or change messages for tests are off
Main exports: CMessageHeader, CNetMessage, ReceiveMsgBytes
-/
import Ziftrcoin.Spec.Transaction

namespace Ziftrcoin.Spec

/-- Overwrite bytes of a buffer from a position on. -/
def memcpy (buffer : valtype) (pos : Nat) (bytes : valtype) : valtype :=
  buffer.take pos ++ bytes ++ buffer.drop (pos + bytes.length)

/-! ### Headers -/

structure CMessageHeader where
  pchMessageStart : valtype
  pchCommand : valtype
  nMessageSize : Nat
  nChecksum : Nat
deriving Repr, DecidableEq, Inhabited

namespace CMessageHeader

def COMMAND_SIZE : Nat := 12

def MESSAGE_SIZE_OFFSET : Nat := 16

def CHECKSUM_OFFSET : Nat := 20

def HEADER_SIZE : Nat := 24

/-- `CMessageHeader()`. -/
def empty (MessageStart : valtype) : CMessageHeader :=
  { pchMessageStart := MessageStart, pchCommand := 0 :: 1 :: List.replicate 10 0
    nMessageSize := 0xffffffff, nChecksum := 0 }

/-- `CMessageHeader(pszCommand, nMessageSizeIn)`: the command is cut or filled up with
zeros by `strncpy`. -/
def make (MessageStart pszCommand : valtype) (nMessageSizeIn : Nat) : CMessageHeader :=
  { pchMessageStart := MessageStart
    pchCommand := (pszCommand ++ List.replicate COMMAND_SIZE 0).take COMMAND_SIZE
    nMessageSize := nMessageSizeIn, nChecksum := 0 }

def serialize (hdr : CMessageHeader) : valtype :=
  hdr.pchMessageStart ++ hdr.pchCommand ++ leBytes 4 hdr.nMessageSize ++ leBytes 4 hdr.nChecksum

/-- Reading fails at the end of the data only. -/
def unserialize (bs : valtype) : Option CMessageHeader :=
  if bs.length < HEADER_SIZE then none
  else some { pchMessageStart := bs.take 4, pchCommand := (bs.drop 4).take COMMAND_SIZE
              nMessageSize := readLE ((bs.drop MESSAGE_SIZE_OFFSET).take 4)
              nChecksum := readLE ((bs.drop CHECKSUM_OFFSET).take 4) }

def GetCommand (hdr : CMessageHeader) : valtype :=
  if hdr.pchCommand[COMMAND_SIZE - 1]? = some 0 then hdr.pchCommand.takeWhile (· != 0)
  else hdr.pchCommand

/-- The check of the command string: printable characters, and zeros only behind the
first zero. -/
def validCommand : valtype → Bool
  | [] => true
  | c :: rest =>
      if c = 0 then rest.all (· == 0)
      else if c < 0x20 ∨ 0x7e < c then false
      else validCommand rest

def IsValid (MessageStart : valtype) (hdr : CMessageHeader) : Bool :=
  hdr.pchMessageStart == MessageStart && validCommand hdr.pchCommand &&
    decide (hdr.nMessageSize ≤ MAX_SIZE)

end CMessageHeader

/-! ### Receiving -/

/-- A message that is being received. -/
structure CNetMessage where
  in_data : Bool
  hdrbuf : valtype
  hdr : CMessageHeader
  nHdrPos : Nat
  vRecv : valtype
  nDataPos : Nat
deriving Repr, DecidableEq, Inhabited

namespace CNetMessage

/-- `CNetMessage()`. -/
def empty (MessageStart : valtype) : CNetMessage :=
  { in_data := false, hdrbuf := List.replicate 24 0, hdr := .empty MessageStart, nHdrPos := 0
    vRecv := [], nDataPos := 0 }

def complete (msg : CNetMessage) : Bool := msg.in_data && msg.hdr.nMessageSize == msg.nDataPos

/-- With the number of bytes that are handled; `none` is −1. -/
def readHeader (msg : CNetMessage) (pch : valtype) : CNetMessage × Option Nat :=
  let nCopy := min (24 - msg.nHdrPos) pch.length
  let msg := { msg with
    hdrbuf := memcpy msg.hdrbuf msg.nHdrPos (pch.take nCopy)
    nHdrPos := msg.nHdrPos + nCopy }
  if msg.nHdrPos < 24 then (msg, some nCopy)
  else
    match CMessageHeader.unserialize msg.hdrbuf with
    | none => (msg, none)
    | some hdr =>
        -- A stream that is read to its end is cleared.
        let msg := { msg with hdr, hdrbuf := [] }
        if MAX_SIZE < hdr.nMessageSize then (msg, none)
        else ({ msg with in_data := true, vRecv := List.replicate hdr.nMessageSize 0 },
          some nCopy)

def readData (msg : CNetMessage) (pch : valtype) : CNetMessage × Option Nat :=
  let nCopy := min (msg.hdr.nMessageSize - msg.nDataPos) pch.length
  ({ msg with
      vRecv := memcpy msg.vRecv msg.nDataPos (pch.take nCopy)
      nDataPos := msg.nDataPos + nCopy }, some nCopy)

end CNetMessage

/-- The messages before the one that the next byte belongs to, and that one. -/
def currentMessage (MessageStart : valtype) (vRecvMsg : List CNetMessage) :
    List CNetMessage × CNetMessage :=
  match vRecvMsg.getLast? with
  | none => (vRecvMsg, .empty MessageStart)
  | some msg =>
      if msg.complete then (vRecvMsg, .empty MessageStart) else (vRecvMsg.dropLast, msg)

/-- What it returns, and the queue; `none`: the fuel did not suffice. -/
def ReceiveMsgBytes (MessageStart : valtype) : (fuel : Nat) → (pch : valtype) →
    (vRecvMsg : List CNetMessage) → Option (Bool × List CNetMessage)
  | _, [], vRecvMsg => some (true, vRecvMsg)
  | 0, _ :: _, _ => none
  | fuel + 1, b :: pch, vRecvMsg =>
      let (front, msg) := currentMessage MessageStart vRecvMsg
      let (msg, handled) :=
        if msg.in_data then msg.readData (b :: pch) else msg.readHeader (b :: pch)
      match handled with
      | none => some (false, front ++ [msg])
      | some handled =>
          ReceiveMsgBytes MessageStart fuel ((b :: pch).drop handled) (front ++ [msg])

/-! ### Processing -/

/-- The command and the payload that are given to `ProcessMessage`, if the message has a
valid header and the right checksum. -/
def messageGiven (crypto : Crypto) (MessageStart : valtype) (msg : CNetMessage) :
    Option (valtype × valtype) :=
  if !msg.hdr.IsValid MessageStart then none
  else if crypto.Hash (msg.vRecv.take msg.hdr.nMessageSize) % 2 ^ 32 ≠ msg.hdr.nChecksum then none
  else some (msg.hdr.GetCommand, msg.vRecv)

/-- What a call of `ProcessMessages` does to the queue. -/
structure Processing where
  /-- The messages that are erased. -/
  erased : List CNetMessage
  vRecvMsg : List CNetMessage
  /-- The message that is given to `ProcessMessage`. -/
  given : Option (valtype × valtype)
  fOk : Bool
deriving Repr, DecidableEq

/-- The loop of `ProcessMessages` on a connection that stays open.  `fFull`: the send
buffer is too full to respond. -/
def ProcessMessages (crypto : Crypto) (MessageStart : valtype) (fFull : Bool) :
    List CNetMessage → Processing
  | [] => { erased := [], vRecvMsg := [], given := none, fOk := true }
  | msg :: rest =>
      if fFull || !msg.complete then
        { erased := [], vRecvMsg := msg :: rest, given := none, fOk := true }
      else if msg.hdr.pchMessageStart ≠ MessageStart then
        { erased := [msg], vRecvMsg := rest, given := none, fOk := false }
      else
        match messageGiven crypto MessageStart msg with
        | none =>
            let later := ProcessMessages crypto MessageStart fFull rest
            { later with erased := msg :: later.erased }
        | some given => { erased := [msg], vRecvMsg := rest, given := some given, fOk := true }

/-! ### Sending -/

/-- The messages that are queued.  The queue fits into memory, so `nSendSize` does not
overflow; that it does not become negative is proved. -/
structure SendState where
  vSendMsg : List valtype
  nSendOffset : Nat
  nSendSize : Int
  /-- The bytes that `send` took. -/
  wire : valtype
deriving Repr, DecidableEq

namespace SendState

def start : SendState := { vSendMsg := [], nSendOffset := 0, nSendSize := 0, wire := [] }

/-- The loop of `SocketSendData`.  Each call of `send` takes as many bytes as the next
number says, at most those that are there; zero, or no number left: it would block. -/
def sendLoop : (sends : List Nat) → (queue : List valtype) → SendState → Option SendState
  | _, [], s => some { s with vSendMsg := [] }
  | sends, data :: rest, s =>
      if ¬ s.nSendOffset < data.length then none
      else
        match sends with
        | [] => some { s with vSendMsg := data :: rest }
        | most :: sends =>
            let nBytes := min most (data.length - s.nSendOffset)
            if nBytes = 0 then some { s with vSendMsg := data :: rest }
            else
              let s := { s with
                wire := s.wire ++ (data.drop s.nSendOffset).take nBytes
                nSendOffset := s.nSendOffset + nBytes }
              if s.nSendOffset = data.length then
                sendLoop sends rest { s with
                  nSendOffset := 0
                  nSendSize := s.nSendSize - data.length }
              else some { s with vSendMsg := data :: rest }

/-- `none`: an assertion fails. -/
def SocketSendData (sends : List Nat) (s : SendState) : Option SendState :=
  (sendLoop sends s.vSendMsg s).bind fun s =>
    if s.vSendMsg = [] ∧ ¬ (s.nSendOffset = 0 ∧ s.nSendSize = 0) then none else some s

/-- What `BeginMessage`, writing the payload and `EndMessage` put into `ssSend`. -/
def framed (crypto : Crypto) (MessageStart pszCommand payload : valtype) : valtype :=
  let ssSend := (CMessageHeader.make MessageStart pszCommand 0).serialize ++ payload
  let nSize := uint32 (ssSend.length - CMessageHeader.HEADER_SIZE)
  let ssSend := memcpy ssSend CMessageHeader.MESSAGE_SIZE_OFFSET (leBytes 4 nSize)
  let hash := crypto.Hash (ssSend.drop CMessageHeader.HEADER_SIZE)
  memcpy ssSend CMessageHeader.CHECKSUM_OFFSET (leBytes 4 (hash % 2 ^ 32))

/-- An empty queue is sent from at once. -/
def PushMessage (crypto : Crypto) (MessageStart pszCommand payload : valtype) (sends : List Nat)
    (s : SendState) : Option SendState :=
  let data := framed crypto MessageStart pszCommand payload
  let pushed := { s with
    vSendMsg := s.vSendMsg ++ [data]
    nSendSize := s.nSendSize + data.length }
  if s.vSendMsg = [] then pushed.SocketSendData sends else some pushed

end SendState

/-! ### Runs -/

inductive SendCall where
  | PushMessage (pszCommand payload : valtype) (sends : List Nat)
  | SocketSendData (sends : List Nat)
deriving Repr, DecidableEq

def SendCall.run (crypto : Crypto) (MessageStart : valtype) (s : SendState) :
    SendCall → Option SendState
  | .PushMessage pszCommand payload sends =>
      s.PushMessage crypto MessageStart pszCommand payload sends
  | .SocketSendData sends => s.SocketSendData sends

/-- The receiving half of a connection. -/
structure ReceiveState where
  vRecvMsg : List CNetMessage
  /-- The connection was closed since `ReceiveMsgBytes` returned false. -/
  fDisconnect : Bool
  /-- The bytes that have arrived. -/
  stream : valtype
  /-- The messages that were erased by `ProcessMessages`. -/
  erased : List CNetMessage
  /-- The messages that were given to `ProcessMessage`. -/
  given : List (valtype × valtype)
deriving Repr, DecidableEq

def ReceiveState.start : ReceiveState :=
  { vRecvMsg := [], fDisconnect := false, stream := [], erased := [], given := [] }

inductive ReceiveCall where
  | ReceiveMsgBytes (pch : valtype)
  | ProcessMessages (fFull : Bool)
deriving Repr, DecidableEq

/-- A closed connection receives and processes nothing. -/
def ReceiveCall.run (crypto : Crypto) (MessageStart : valtype) (fuel : Nat) (s : ReceiveState) :
    ReceiveCall → Option ReceiveState
  | .ReceiveMsgBytes pch =>
      if s.fDisconnect then some { s with stream := s.stream ++ pch }
      else
        (Ziftrcoin.Spec.ReceiveMsgBytes MessageStart fuel pch s.vRecvMsg).map fun result =>
          { s with
            vRecvMsg := result.2
            fDisconnect := !result.1
            stream := s.stream ++ pch }
  | .ProcessMessages fFull =>
      if s.fDisconnect then some s
      else
        let result := Ziftrcoin.Spec.ProcessMessages crypto MessageStart fFull s.vRecvMsg
        some { s with
          vRecvMsg := result.vRecvMsg
          erased := s.erased ++ result.erased
          given := s.given ++ result.given.toList }

/-- What happens on a connection between two nodes. -/
inductive NetEvent where
  | send (call : SendCall)
  /-- Some of the bytes that were sent arrive. -/
  | arrive (n : Nat)
  | process (fFull : Bool)
deriving Repr, DecidableEq

/-- `none`: an assertion fails or the fuel does not suffice. -/
def NetEvent.run (crypto : Crypto) (MessageStart : valtype) (fuel : Nat)
    (s : SendState × ReceiveState) : NetEvent → Option (SendState × ReceiveState)
  | .send call => (call.run crypto MessageStart s.1).map fun sender => (sender, s.2)
  | .arrive n =>
      ((ReceiveCall.ReceiveMsgBytes ((s.1.wire.drop s.2.stream.length).take n)).run crypto
        MessageStart fuel s.2).map fun receiver => (s.1, receiver)
  | .process fFull =>
      ((ReceiveCall.ProcessMessages fFull).run crypto MessageStart fuel s.2).map fun receiver =>
        (s.1, receiver)

end Ziftrcoin.Spec
