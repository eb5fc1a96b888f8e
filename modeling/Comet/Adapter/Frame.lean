import Comet.Adapter.Message
import Comet.Json.Reader
import Comet.Text.Blank
import Comet.Text.Numeral
import Comet.Text.Utf8

/-! Messages in a stream of bytes. Header lines come before each message, up to an empty line; one
of them gives the length of the message in bytes. -/
namespace Comet.Adapter

/-- Why no more can be read from a stream. -/
inductive StreamError
  | notUtf8
  | truncated
  /-- A block of header lines that gives no length. Reading goes on behind such a block, so it is
  never the outcome of a read. -/
  | missingLength
  /-- Any other reason, in the system's words. -/
  | other (text : String)
  deriving DecidableEq, Repr

def StreamError.message : StreamError → String
  | notUtf8 => "IO error: stream did not contain valid UTF-8"
  | truncated => "IO error: failed to fill whole buffer"
  | missingLength => "message without a Content-Length header"
  | other text => s!"IO error: {text}"

def lengthHeader : String := "Content-Length:"

/-- What a header line leads to. -/
inductive Header
  /-- More header lines, with the length known so far. -/
  | more (length : Option Nat)
  /-- The message, of this length. -/
  | body (length : Nat)
  deriving DecidableEq, Repr

/-- The length a header line gives: nothing if it is no length header, and no length if its value is
not a number of 64 bits. -/
def lengthOf? (line : List Char) : Option (Option Nat) :=
  let name := lengthHeader.toList
  if name.isPrefixOf line then
    some (Text.unsigned? 10 0x10000000000000000 (Text.trim (line.drop name.length)))
  else none

/-- Reads one header line, its line feed included. The last length counts; an empty line ends the
header only once a length is known. -/
def headerLine (length : Option Nat) (bytes : List UInt8) : Except StreamError Header :=
  match Text.utf8Decode? bytes with
  | none => .error .notUtf8
  | some text =>
    let line := Text.trimEnd text.toList
    if line.isEmpty then
      match length with
      | some n => .ok (.body n)
      | none => .ok (.more none)
    else .ok (.more ((lengthOf? line).getD length))

/-- What is found at a place in a stream. -/
inductive Frame
  | endOfInput
  | failed (e : StreamError)
  /-- The bytes of a message, and the stream behind it. -/
  | body (bytes rest : List UInt8)
  deriving DecidableEq, Repr

/-- Takes a message of a known length. There is no length that is too large to be waited for: where
the memory for a message of that length cannot be had, a process stops before it reads any of it,
and here the stream is `truncated`. -/
def takeBody (length : Nat) (bytes : List UInt8) : Frame :=
  let body := bytes.take length
  if body.length = length then .body body (bytes.drop length) else .failed .truncated

/-- Reads header lines and the message behind them; `reversed` is the part of the first line that
has been read already, last byte first. -/
def frameFrom (length : Option Nat) (reversed : List UInt8) : List UInt8 → Frame
  | [] =>
    if reversed.isEmpty then .endOfInput
    else match headerLine length reversed.reverse with
      | .error e => .failed e
      | .ok (.body n) => takeBody n []
      | .ok (.more _) => .endOfInput
  | b :: rest =>
    if b = 10 then
      match headerLine length (b :: reversed).reverse with
      | .error e => .failed e
      | .ok (.body n) => takeBody n rest
      | .ok (.more length) => frameFrom length [] rest
    else frameFrom length (b :: reversed) rest

def readFrame (bytes : List UInt8) : Frame := frameFrom none [] bytes

/-- The frame, if this is what the stream has behind it. -/
def Frame.before (rest : List UInt8) : Frame → Frame
  | body bytes _ => body bytes rest
  | frame => frame

/-- A reader that is given a stream byte by byte. It is in a header line, with the length known so
far, or in a message of which some bytes are missing; what it has of either stands last byte
first. -/
inductive FrameReader
  | header (length : Option Nat) (reversed : List UInt8)
  | body (missing : Nat) (reversed : List UInt8)
  deriving DecidableEq, Repr

namespace FrameReader

def start : FrameReader := header none []

/-- Behind the header. A message without any bytes is there already. -/
def awaiting : Nat → FrameReader ⊕ Frame
  | 0 => .inr (.body [] [])
  | n + 1 => .inl (body (n + 1) [])

/-- Takes one byte more, which may be the last one of a frame. -/
def feed (b : UInt8) : FrameReader → FrameReader ⊕ Frame
  | header length reversed =>
    if b = 10 then
      match headerLine length (b :: reversed).reverse with
      | .error e => .inr (.failed e)
      | .ok (.body n) => awaiting n
      | .ok (.more length) => .inl (header length [])
    else .inl (header length (b :: reversed))
  | body missing reversed =>
    if missing ≤ 1 then .inr (.body (b :: reversed).reverse [])
    else .inl (body (missing - 1) (b :: reversed))

/-- The stream has no more bytes. -/
def close : FrameReader → Frame
  | header length reversed => frameFrom length reversed []
  | body .. => .failed .truncated

def read (r : FrameReader) : List UInt8 → Frame
  | [] => r.close
  | b :: rest => match r.feed b with
    | .inl r => r.read rest
    | .inr frame => frame.before rest

end FrameReader

/-- The most arrays and objects around each other in a message. -/
def maxDepth : Nat := 127

def decodeBody? (bytes : List UInt8) : Option Message :=
  (Text.utf8Decode? bytes).bind fun text =>
    (Json.parse maxDepth text.toList).bind Message.ofJson?

/-- One thing read from a stream. -/
inductive Incoming
  | message (m : Message)
  /-- A frame that holds no message. -/
  | malformed
  | failed (e : StreamError)
  deriving Repr, Inhabited

def Incoming.ofBody (bytes : List UInt8) : Incoming :=
  match decodeBody? bytes with
  | some m => message m
  | none => malformed

def Frame.incoming? : Frame → Option Incoming
  | endOfInput => none
  | failed e => some (.failed e)
  | body bytes _ => some (.ofBody bytes)

def incomingFrom (bytes : List UInt8) : (fuel : Nat) → List Incoming
  | 0 => []
  | fuel + 1 =>
    match readFrame bytes with
    | .endOfInput => []
    | .failed e => [.failed e]
    | .body body rest => .ofBody body :: incomingFrom rest fuel

/-- Everything in a stream, up to its end or to where it cannot be read. Each frame has at least one
byte, so there are no more frames than bytes. -/
def incoming (bytes : List UInt8) : List Incoming := incomingFrom bytes (bytes.length + 1)

/-- A message as it is written to a stream. -/
def frameText (m : Message) : String :=
  let text := m.toJson.text
  s!"{lengthHeader} {text.utf8ByteSize}\r\n\r\n{text}"

end Comet.Adapter
