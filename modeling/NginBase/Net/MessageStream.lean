import NginBase.Library.Interleaving
import NginBase.Text.Utf8

namespace NginBase.Net.MessageStream

open Library.Interleaving

/-! `LengthPrefixedMessageStream`: one side writes messages and the other side reads them, over a byte stream that transfers as many
bytes at a time as it likes and can end at any time. -/

inductive NetErrorCode
  | disconnected
  | messageTooLarge
  deriving DecidableEq

/-- A call that does not complete: a `NetError`, or the fault `InvalidTaskUsage`. -/
inductive Failure
  | net (code : NetErrorCode)
  | invalidTaskUsage
  deriving DecidableEq

def lengthBytes : Nat := 4

def maxLength : Nat := 2 ^ 32 - 1

def encodeLength (length : Nat) : Bytes :=
  [.ofNat (length >>> 24 &&& 0xFF), .ofNat (length >>> 16 &&& 0xFF), .ofNat (length >>> 8 &&& 0xFF), .ofNat (length &&& 0xFF)]

def decodeLength : Bytes → Nat
  | [b0, b1, b2, b3] => b0.toNat <<< 24 ||| b1.toNat <<< 16 ||| b2.toNat <<< 8 ||| b3.toNat
  | _ => 0

/-- Where `WriteMessageAsync` is: in `WriteAll` of the header or of the message, with `offset` bytes written. -/
inductive Writing
  | idle
  | header (message : Bytes) (offset : Nat)
  | payload (message : Bytes) (offset : Nat)
  deriving DecidableEq

namespace Writing

/-- The loop of `WriteAll` goes on, or the message is written. -/
def payloadFrom (message : Bytes) (offset : Nat) : Writing := if offset < message.length then .payload message offset else .idle

def headerFrom (message : Bytes) (offset : Nat) : Writing :=
  if offset < lengthBytes then .header message offset else payloadFrom message 0

def source : Writing → Bytes
  | .idle => []
  | .header message offset => (encodeLength message.length).drop offset
  | .payload message offset => message.drop offset

def wrote (bytes : Nat) : Writing → Writing
  | .idle => .idle
  | .header message offset => headerFrom message (offset + bytes)
  | .payload message offset => payloadFrom message (offset + bytes)

def remaining : Writing → Bytes
  | .idle => []
  | .header message offset => (encodeLength message.length).drop offset ++ message
  | .payload message offset => message.drop offset

end Writing

/-- Where `ReadMessageAsync` is: in `ReadExact` of the header or of a message of some size, with the bytes read so far. -/
inductive Reading
  | idle
  | header (bytes : Bytes)
  | payload (size : Nat) (bytes : Bytes)
  deriving DecidableEq

structure Buffer where
  data : Bool
  size : Nat := 0
  capacity : Nat

/-- `toWrite` are the messages whose calls are still to come, and `toRead` is the number of calls that are still to come on the other
    side. The bytes in `pipe` are written and not yet read; those in `lost` are what the end of the stream has cut off. -/
structure State where
  toWrite : List Bytes
  writing : Writing := .idle
  writes : List (Except Failure Unit) := []
  pipe : Bytes := []
  ended : Bool := false
  lost : Bytes := []
  buffer : Buffer
  toRead : Nat
  reading : Reading := .idle
  reads : List (Except Failure Bytes) := []

inductive Action
  | callWrite
  /-- `WriteAsync` writes this number of bytes. -/
  | write (bytes : Nat)
  /-- `WriteAsync` writes nothing. -/
  | writeNothing
  | callRead
  /-- `ReadAsync` reads this number of bytes. -/
  | read (bytes : Nat)
  /-- `ReadAsync` reads nothing. -/
  | readNothing
  /-- The stream ends, and only some of the bytes that were written can still be read. -/
  | stop (kept : Nat)

namespace State

variable (s : State)

def start (messages : List Bytes) (buffer : Buffer) (calls : Nat) : State := { toWrite := messages, buffer := buffer, toRead := calls }

def setWriting (writing : Writing) : State :=
  match writing with
  | .idle => { s with writing := .idle, writes := s.writes ++ [.ok ()] }
  | _ => { s with writing := writing }

def endWrite (failure : Failure) : State := { s with writing := .idle, writes := s.writes ++ [.error failure] }

def endRead (result : Except Failure Bytes) : State := { s with reading := .idle, reads := s.reads ++ [result] }

/-- The loop of `ReadExact` goes on, or the message is read. -/
def payloadRead (size : Nat) (bytes : Bytes) : State :=
  if bytes.length < size then { s with reading := .payload size bytes }
  else { s with buffer.size := size }.endRead (.ok bytes)

def headerRead (bytes : Bytes) : State :=
  if bytes.length < lengthBytes then { s with reading := .header bytes }
  else
    let messageSize := decodeLength bytes
    if messageSize = 0 then { s with buffer.size := 0 }.endRead (.ok [])
    else if !s.buffer.data || decide (s.buffer.capacity < messageSize) then s.endRead (.error .invalidTaskUsage)
    else s.payloadRead messageSize []

def frame (message : Bytes) : Bytes := encodeLength message.length ++ message

def pending : Bytes := s.writing.remaining ++ s.toWrite.flatMap frame

def wanted : Nat :=
  match s.reading with
  | .idle => 0
  | .header bytes => lengthBytes - bytes.length
  | .payload size bytes => size - bytes.length

def act (s : State) : Action → Option State
  | .callWrite =>
    match s.writing, s.toWrite with
    | .idle, message :: rest =>
      let s := { s with toWrite := rest }
      some (if maxLength < message.length then s.endWrite (.net .messageTooLarge) else s.setWriting (.headerFrom message 0))
    | _, _ => none
  | .write bytes =>
    if 0 < bytes ∧ bytes ≤ s.writing.source.length then
      let pipe := if s.ended then s.pipe else s.pipe ++ s.writing.source.take bytes
      some ({ s with pipe := pipe }.setWriting (s.writing.wrote bytes))
    else none
  | .writeNothing =>
    if s.ended = true ∧ s.writing ≠ .idle then some (s.endWrite (.net .disconnected)) else none
  | .callRead =>
    match s.reading, s.toRead with
    | .idle, calls + 1 => some ({ s with toRead := calls }.headerRead [])
    | _, _ => none
  | .read bytes =>
    if 0 < bytes ∧ bytes ≤ s.pipe.length ∧ bytes ≤ s.wanted then
      let rest := { s with pipe := s.pipe.drop bytes }
      match s.reading with
      | .idle => none
      | .header read => some (rest.headerRead (read ++ s.pipe.take bytes))
      | .payload size read => some (rest.payloadRead size (read ++ s.pipe.take bytes))
    else none
  | .readNothing =>
    if s.ended = true ∧ s.pipe = [] ∧ s.reading ≠ .idle then some (s.endRead (.error (.net .disconnected))) else none
  | .stop kept =>
    if s.ended then none
    else some { s with ended := true, pipe := s.pipe.take kept, lost := s.pipe.drop kept ++ s.pending }

def Halted : Prop := ∀ action, (∀ kept, action ≠ .stop kept) → s.act action = none

/-- What the calls on the reading side have returned: the first messages in order, and `Disconnected` after the end of the stream. When
    nothing more happens all calls have returned, unless all messages are read and the stream has not ended; and unless the end has cut
    bytes off these are all messages. -/
structure Delivered (messages : List Bytes) (calls : Nat) : Prop where
  shape : ∃ count failures, s.reads = (messages.take count).map .ok ++ List.replicate failures (.error (.net .disconnected)) ∧
    (0 < failures → s.ended = true)
  whole : s.Halted → s.lost = [] → ∃ failures, s.reads = (messages.take calls).map .ok ++
    List.replicate failures (.error (.net .disconnected)) ∧ (0 < failures → s.ended = true)
  answered : s.Halted → s.ended = true → s.reads.length = calls

end State

end NginBase.Net.MessageStream
