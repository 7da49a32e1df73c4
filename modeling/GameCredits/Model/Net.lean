import GameCredits.Model.Transaction

/-!
# Messages between nodes (protocol.h, net.h, net.cpp)

The sending of messages through `vSendMsg` and the receiving of bytes into `vRecvMsg`. How much the
socket takes is an outcome given to the functions. Only one direction of a connection is modelled;
the other one is the same. Left out: `-dropmessagestest` and `-fuzzmessagestest`, which are off unless
they are set.
-/

namespace GC

open Framework

def MESSAGE_START_SIZE : Nat := 4
def COMMAND_SIZE : Nat := 12
def MESSAGE_SIZE_OFFSET : Nat := MESSAGE_START_SIZE + COMMAND_SIZE
def CHECKSUM_OFFSET : Nat := MESSAGE_SIZE_OFFSET + 4
def HEADER_SIZE : Nat := MESSAGE_START_SIZE + COMMAND_SIZE + 4 + 4
def MAX_PROTOCOL_MESSAGE_LENGTH : Nat := 2 * 1024 * 1024

/-- What the messages depend on: double SHA-256 and `Params().MessageStart()`. -/
structure NetParams where
  hash : Bytes → UInt256
  messageStart : Bytes
  length_messageStart : messageStart.length = MESSAGE_START_SIZE

/-- A command as a C string that fits its field. -/
structure NetCommand where
  psz : Bytes
  length_le : psz.length ≤ COMMAND_SIZE
  ne_zero : ∀ c ∈ psz, c ≠ 0

/-! ## Buffers -/

/-- `memcpy` of bytes to a position of a buffer. -/
def memcpy (buf : Bytes) (pos : Nat) (src : Bytes) : Bytes :=
  buf.take pos ++ src ++ buf.drop (pos + src.length)

/-- `resize` of a byte vector. -/
def resizeBytes (buf : Bytes) (n : Nat) : Bytes := buf.take n ++ List.replicate (n - buf.length) 0

/-- `strncpy` into a field of `n` zero bytes. -/
def strncpy (psz : Bytes) (n : Nat) : Bytes := psz.take n ++ List.replicate (n - psz.length) 0

/-! ## Headers -/

structure CMessageHeader where
  pchMessageStart : Bytes
  pchCommand : Bytes
  nMessageSize : Nat
  nChecksum : Nat
  deriving DecidableEq, Repr

namespace CMessageHeader

/-- `CMessageHeader(pchMessageStart)`. -/
def init (params : NetParams) : CMessageHeader :=
  ⟨params.messageStart, List.replicate COMMAND_SIZE 0, 2 ^ 32 - 1, 0⟩

/-- `CMessageHeader(pchMessageStart, pszCommand, nMessageSize)`. -/
def new (params : NetParams) (command : NetCommand) (nMessageSize : Nat) : CMessageHeader :=
  ⟨params.messageStart, strncpy command.psz COMMAND_SIZE, nMessageSize, 0⟩

/-- `GetCommand`. -/
def getCommand (hdr : CMessageHeader) : Bytes := hdr.pchCommand.takeWhile (· != 0)

/-- `SerializationOp` for writing. -/
def write (hdr : CMessageHeader) : Bytes :=
  hdr.pchMessageStart ++ hdr.pchCommand ++ leBytes 4 hdr.nMessageSize ++ leBytes 4 hdr.nChecksum

/-- `SerializationOp` for reading. -/
def read : Get CMessageHeader := do
  let pchMessageStart ← getBytes MESSAGE_START_SIZE
  let pchCommand ← getBytes COMMAND_SIZE
  let nMessageSize ← getLE 4
  let nChecksum ← getLE 4
  return ⟨pchMessageStart, pchCommand, nMessageSize, nChecksum⟩

end CMessageHeader

/-! ## Receiving -/

structure CNetMessage where
  inData : Bool
  hdrbuf : Bytes
  hdr : CMessageHeader
  nHdrPos : Nat
  vRecv : Bytes
  nDataPos : Nat
  deriving DecidableEq, Repr

namespace CNetMessage

/-- `CNetMessage(pchMessageStart)`. -/
def new (params : NetParams) : CNetMessage :=
  ⟨false, List.replicate 24 0, .init params, 0, [], 0⟩

/-- `CNetMessage::complete`. -/
def complete (msg : CNetMessage) : Bool := msg.inData && msg.hdr.nMessageSize == msg.nDataPos

/-- `CNetMessage::readHeader`: how many bytes were handled, none for an error. -/
def readHeader (msg : CNetMessage) (pch : Bytes) : Option Nat × CNetMessage :=
  let nCopy := min (24 - msg.nHdrPos) pch.length
  let msg := { msg with
    hdrbuf := memcpy msg.hdrbuf msg.nHdrPos (pch.take nCopy), nHdrPos := msg.nHdrPos + nCopy }
  if msg.nHdrPos < 24 then (some nCopy, msg)
  else
    match CMessageHeader.read.run msg.hdrbuf with
    | none => (none, msg)
    | some (hdr, hdrbuf) =>
      if MAX_SIZE < hdr.nMessageSize then (none, { msg with hdr, hdrbuf })
      else (some nCopy, { msg with hdr, hdrbuf, inData := true })

/-- `CNetMessage::readData`. -/
def readData (msg : CNetMessage) (pch : Bytes) : Option Nat × CNetMessage :=
  let nCopy := min (msg.hdr.nMessageSize - msg.nDataPos) pch.length
  let vRecv :=
    if msg.vRecv.length < msg.nDataPos + nCopy then
      resizeBytes msg.vRecv (min msg.hdr.nMessageSize (msg.nDataPos + nCopy + 256 * 1024))
    else msg.vRecv
  (some nCopy, { msg with
    vRecv := memcpy vRecv msg.nDataPos (pch.take nCopy), nDataPos := msg.nDataPos + nCopy })

end CNetMessage

section

variable (params : NetParams)

/-- The messages before the current incomplete one, and this one, or a new one. -/
def currentMessage (vRecvMsg : List CNetMessage) : List CNetMessage × CNetMessage :=
  match vRecvMsg.getLast? with
  | none => ([], .new params)
  | some msg => if msg.complete then (vRecvMsg, .new params) else (vRecvMsg.dropLast, msg)

/-- The loop of `CNode::ReceiveMsgBytes`; `fuel` bounds the number of iterations, each of which
handles a byte. -/
def receiveFrom : Nat → List CNetMessage → Bytes → Bool × List CNetMessage
  | _, vRecvMsg, [] => (true, vRecvMsg)
  | 0, vRecvMsg, _ => (false, vRecvMsg)
  | fuel + 1, vRecvMsg, pch =>
    let (before, msg) := currentMessage params vRecvMsg
    match if msg.inData then msg.readData pch else msg.readHeader pch with
    | (none, msg) => (false, before ++ [msg])
    | (some handled, msg) =>
      if msg.inData && decide (MAX_PROTOCOL_MESSAGE_LENGTH < msg.hdr.nMessageSize) then
        (false, before ++ [msg])
      else receiveFrom fuel (before ++ [msg]) (pch.drop handled)

/-- `CNode::ReceiveMsgBytes`. -/
def receiveMsgBytes (vRecvMsg : List CNetMessage) (pch : Bytes) : Bool × List CNetMessage :=
  receiveFrom params pch.length vRecvMsg pch

/-- Chunks received one after another, until one is rejected. -/
def receiveChunks (vRecvMsg : List CNetMessage) : List Bytes → Bool × List CNetMessage
  | [] => (true, vRecvMsg)
  | pch :: chunks =>
    match receiveMsgBytes params vRecvMsg pch with
    | (true, vRecvMsg) => receiveChunks vRecvMsg chunks
    | (false, vRecvMsg) => (false, vRecvMsg)

end

/-- The headers and the data of the complete messages. -/
def completed (vRecvMsg : List CNetMessage) : List (CMessageHeader × Bytes) :=
  (vRecvMsg.filter CNetMessage.complete).map fun msg => (msg.hdr, msg.vRecv)

/-! ## Sending -/

/-- The part of a `CNode` that sends and the part that receives. -/
structure CNode where
  ssSend : Bytes
  nSendSize : Nat
  nSendOffset : Nat
  vSendMsg : List Bytes
  vRecvMsg : List CNetMessage
  fDisconnect : Bool

/-- What the loop of `SocketSendData` leaves: the bytes that the socket took, the messages left, and
the offset and size. -/
structure SendResult where
  taken : Bytes
  vSendMsg : List Bytes
  nSendOffset : Nat
  nSendSize : Nat

/-- The loop of `SocketSendData` and the assertions after it. Each outcome says how many bytes the
socket is ready to take, none when it would block; none is left when it would block from here. The
result is none where an assertion fails. -/
def sendFrom : List Bytes → Nat → Nat → List Nat → Option SendResult
  | [], nSendOffset, nSendSize, _ =>
    if nSendOffset = 0 ∧ nSendSize = 0 then some ⟨[], [], nSendOffset, nSendSize⟩ else none
  | data :: vSendMsg, nSendOffset, nSendSize, outcomes =>
    if nSendOffset < data.length then
      match outcomes with
      | [] => some ⟨[], data :: vSendMsg, nSendOffset, nSendSize⟩
      | ready :: outcomes =>
        let nBytes := min ready (data.length - nSendOffset)
        let taken := (data.drop nSendOffset).take nBytes
        if nBytes = 0 then some ⟨[], data :: vSendMsg, nSendOffset, nSendSize⟩
        else if nSendOffset + nBytes = data.length then
          (sendFrom vSendMsg 0 (nSendSize - data.length) outcomes).map fun r =>
            { r with taken := taken ++ r.taken }
        else some ⟨taken, data :: vSendMsg, nSendOffset + nBytes, nSendSize⟩
    else none

namespace CNode

def init : CNode := ⟨[], 0, 0, [], [], false⟩

/-- `SocketSendData`, with the bytes that the socket took. -/
def socketSendData (node : CNode) (outcomes : List Nat) : Option (Bytes × CNode) :=
  (sendFrom node.vSendMsg node.nSendOffset node.nSendSize outcomes).map fun r =>
    (r.taken, { node with
      vSendMsg := r.vSendMsg, nSendOffset := r.nSendOffset, nSendSize := r.nSendSize })

section

variable (params : NetParams)

/-- `CNode::BeginMessage`. -/
def beginMessage (node : CNode) (command : NetCommand) : Option CNode :=
  if node.ssSend.length = 0 then
    some { node with ssSend := (CMessageHeader.new params command 0).write }
  else none

/-- The message in `ssSend` with its size and checksum set. -/
def finishMessage (ssSend : Bytes) : Bytes :=
  let nSize := ssSend.length - HEADER_SIZE
  let ssSend := memcpy ssSend MESSAGE_SIZE_OFFSET (leBytes 4 nSize)
  memcpy ssSend CHECKSUM_OFFSET (leBytes 4 (params.hash (ssSend.drop HEADER_SIZE)).val)

/-- `CNode::EndMessage`, with the bytes that the socket took. -/
def endMessage (node : CNode) (outcomes : List Nat) : Option (Bytes × CNode) :=
  if node.ssSend.length = 0 then some ([], node)
  else if CHECKSUM_OFFSET + 4 ≤ node.ssSend.length then
    let data := finishMessage params node.ssSend
    let sending := { node with
      ssSend := [], vSendMsg := node.vSendMsg ++ [data], nSendSize := node.nSendSize + data.length }
    -- the optimistic write
    if node.vSendMsg = [] then sending.socketSendData outcomes else some ([], sending)
  else none

/-- `PushMessage` of a serialized payload. -/
def pushMessage (node : CNode) (command : NetCommand) (payload : Bytes) (outcomes : List Nat) :
    Option (Bytes × CNode) :=
  (node.beginMessage params command).bind fun node =>
    endMessage params { node with ssSend := node.ssSend ++ payload } outcomes

/-- `ReceiveMsgBytes` of what was read from the socket; a failure disconnects. -/
def receive (node : CNode) (pch : Bytes) : CNode :=
  match receiveMsgBytes params node.vRecvMsg pch with
  | (ok, vRecvMsg) => { node with vRecvMsg, fDisconnect := node.fDisconnect || !ok }

end

end CNode

/-! ## A connection -/

/-- A message: a command and a payload. -/
structure NetMessage where
  command : NetCommand
  payload : Bytes

/-- Two nodes and the bytes on the way from the first to the second. `pushed` and `taken` record the
messages that were pushed and the bytes that the socket of the first took. -/
structure Connection where
  sender : CNode
  receiver : CNode
  wire : Bytes
  pushed : List NetMessage
  taken : Bytes

inductive NetOp where
  | pushMessage (message : NetMessage) (outcomes : List Nat)
  | socketSendData (outcomes : List Nat)
  | receiveMsgBytes (nBytes : Nat)

namespace Connection

variable (params : NetParams)

def init : Connection := ⟨.init, .init, [], [], []⟩

/-- The sender after it has handed bytes to the socket. -/
def send (s : Connection) (r : Bytes × CNode) : Connection :=
  { s with sender := r.2, wire := s.wire ++ r.1, taken := s.taken ++ r.1 }

/-- One operation, none where an assertion fails. -/
def step (s : Connection) : NetOp → Option Connection
  | .pushMessage message outcomes =>
    (s.sender.pushMessage params message.command message.payload outcomes).map fun r =>
      { s.send r with pushed := s.pushed ++ [message] }
  | .socketSendData outcomes => (s.sender.socketSendData outcomes).map s.send
  | .receiveMsgBytes nBytes =>
    some { s with
      receiver := s.receiver.receive params (s.wire.take nBytes), wire := s.wire.drop nBytes }

/-- The operations one after another. -/
def run (ops : List NetOp) : Option Connection := ops.foldlM (step params) init

end Connection

end GC
