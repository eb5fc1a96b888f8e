import Comet.Adapter.Server
import Comet.Proofs.Adapter.Framing

namespace Comet.Adapter

/-- What stands behind a frame in its stream. -/
def Frame.behind : Frame → List UInt8
  | body _ rest => rest
  | _ => []

namespace FrameReader

/-- A message is complete with the last of its missing bytes. -/
theorem read_body {missing : Nat} (hmissing : 0 < missing) (reversed bytes : List UInt8) :
    (body missing reversed).read bytes =
      if missing ≤ bytes.length then
        .body (reversed.reverse ++ bytes.take missing) (bytes.drop missing)
      else .failed .truncated := by
  induction bytes generalizing missing reversed with
  | nil =>
    rw [if_neg (by simpa using Nat.ne_of_gt hmissing)]
    rfl
  | cons b bytes ih =>
    rw [read, feed]
    obtain ⟨more, rfl⟩ := Nat.exists_eq_add_of_lt hmissing
    rw [Nat.zero_add]
    by_cases hlast : more = 0
    · subst hlast
      simp [Frame.before]
    · rw [if_neg (by omega)]
      simp only [Nat.add_sub_cancel, ih (Nat.pos_of_ne_zero hlast), List.length_cons,
        Nat.add_le_add_iff_right, List.take_succ_cons, List.drop_succ_cons, List.reverse_cons,
        List.append_assoc, List.singleton_append]

theorem read_awaiting (n : Nat) (bytes : List UInt8) :
    (match awaiting n with
      | .inl r => r.read bytes
      | .inr frame => frame.before bytes) = takeBody n bytes := by
  cases n with
  | zero => simp [awaiting, Frame.before, takeBody]
  | succ n =>
    have hread := read_body (Nat.succ_pos n) [] bytes
    rw [List.reverse_nil, List.nil_append] at hread
    refine hread.trans ?_
    have hwhole : min (n + 1) bytes.length = n + 1 ↔ n + 1 ≤ bytes.length := by omega
    simp only [takeBody, List.length_take, hwhole]

/-- Header lines are read alike, byte by byte or at once. -/
theorem read_header (length : Option Nat) (reversed bytes : List UInt8) :
    (header length reversed).read bytes = frameFrom length reversed bytes := by
  induction bytes generalizing length reversed with
  | nil => rfl
  | cons b bytes ih =>
    rw [read, feed, frameFrom]
    by_cases hfeed : b = 10
    · rw [if_pos hfeed, if_pos hfeed]
      cases headerLine length (b :: reversed).reverse with
      | error e => rfl
      | ok found =>
        cases found with
        | more length => exact ih length []
        | body n => exact read_awaiting n bytes
    · rw [if_neg hfeed, if_neg hfeed]
      exact ih length (b :: reversed)

/-- Byte by byte a stream has the same first frame. -/
theorem read_start (bytes : List UInt8) : start.read bytes = readFrame bytes :=
  read_header none [] bytes

theorem behind_close (r : FrameReader) : r.close.behind = [] := by
  cases r with
  | body => rfl
  | header length reversed =>
    rw [close, frameFrom]
    by_cases hempty : reversed.isEmpty = true
    · rw [if_pos hempty]
      rfl
    · rw [if_neg hempty]
      cases headerLine length reversed.reverse with
      | error e => rfl
      | ok found =>
        cases found with
        | more length => rfl
        | body n =>
          simp only [takeBody]
          split
          · exact List.drop_nil
          · rfl

end FrameReader

namespace Server

variable {h : Host} {s : Server}

/-- Answers a frame, and then goes on with the server as it is behind it. -/
def hear (h : Host) (s : Server) (frame : Frame)
    (next : Server → Option (List Message × Option StreamError)) :
    Option (List Message × Option StreamError) :=
  match frame.incoming? with
  | none => some ([], none)
  | some i => (s.receive h i).bind fun
    | (sent, .over failure) => some (sent, failure)
    | (sent, .going s) => (next s).map fun (more, e) => (sent ++ more, e)

/-- Serves a stream that comes byte by byte: a frame is answered as soon as its last byte is there,
and before another one is taken. -/
def listen (h : Host) (s : Server) (r : FrameReader) :
    List UInt8 → Option (List Message × Option StreamError)
  | [] => s.hear h r.close fun _ => some ([], none)
  | b :: rest => match r.feed b with
    | .inl r => s.listen h r rest
    | .inr frame => s.hear h frame fun s => s.listen h .start rest

theorem serve_incoming (bytes : List UInt8) :
    s.serve h (incoming bytes) = s.hear h (readFrame bytes) fun s =>
      s.serve h (incoming (readFrame bytes).behind) := by
  cases hframe : readFrame bytes with
  | endOfInput =>
    rw [incoming, incomingFrom, hframe]
    rfl
  | failed e =>
    rw [incoming, incomingFrom, hframe]
    rfl
  | body body rest =>
    rw [incoming_of_body hframe, serve_cons]
    rfl

theorem listen_eq_hear (r : FrameReader) (bytes : List UInt8) :
    s.listen h r bytes = s.hear h (r.read bytes) fun s =>
      s.serve h (incoming (r.read bytes).behind) := by
  induction bytes generalizing s r with
  | nil =>
    rw [listen, FrameReader.read, FrameReader.behind_close]
    rfl
  | cons b rest ih =>
    rw [listen, FrameReader.read]
    cases r.feed b with
    | inl r => exact ih r
    | inr frame =>
      cases frame with
      | endOfInput | failed e => rfl
      | body bytes behind =>
        have hnext (s : Server) : s.listen h .start rest = s.serve h (incoming rest) := by
          rw [ih, FrameReader.read_start, serve_incoming]
        simp only [hnext]
        rfl

/-- A server that is given a stream byte by byte sends what it sends for the stream as a whole. -/
theorem listen_eq_serve (h : Host) (s : Server) (bytes : List UInt8) :
    s.listen h .start bytes = s.serve h (incoming bytes) := by
  rw [listen_eq_hear, FrameReader.read_start, serve_incoming]

end Server

end Comet.Adapter
