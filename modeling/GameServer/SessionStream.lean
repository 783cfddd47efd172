import GameServer.Session
import GameServer.Base.ByteStream
import Mathlib.Logic.Relation

set_option autoImplicit false

/- A session reading a byte stream: every completion takes the next bytes of the
stream, however the transport has cut it into segments. -/
namespace GameServer

open Base

/-- A message a peer encodes, with what the packet and the memory behind the text held
before; the body fits the receive buffer behind the header. -/
structure Message where
  side : Side
  event : UINT
  body : List UInt16
  before : WArray
  after : Nat → UInt16
  fits : 2 * body.length ≤ 2040

namespace Message

def packet (m : Message) : Packet :=
  match m.side with
  | .server => (Server.encode m.before m.event (cStr m.body m.after) (UInt32.ofNat m.body.length)).value
  | .client => (Client.encode m.before m.event (cStr m.body m.after) (UInt32.ofNat m.body.length)).value

/-- What the constructor has written for the header and the body. -/
def wire (m : Message) : List UInt8 := m.packet.data.slice 0 (8 + 2 * m.body.length)

theorem wire_eq (m : Message) : m.wire = wireForm m.event m.body := by
  have small : m.body.length ≤ 1020 := by have := m.fits; omega
  have encoded := Server.encode_wire m.before m.event m.body m.after small
  rw [Packet.wire, Server.encode_length _ _ _ _ small] at encoded
  unfold wire packet
  cases m.side
  · exact encoded
  · exact encoded

/-- These are the bytes that are sent, unless the body of a client's message has
overwritten the length. -/
theorem wire_packet (m : Message) (kept : m.side = .client → m.body.length ≤ 510) : m.packet.wire = m.wire := by
  have small : m.body.length ≤ 1020 := by have := m.fits; omega
  have encoded := Server.encode_wire m.before m.event m.body m.after small
  rw [wire_eq]
  unfold packet
  cases maker : m.side with
  | server => exact encoded
  | client =>
      simp only []
      rw [Client.encode_value _ _ _ _ (kept maker)]
      exact encoded

end Message

/-- A session and the segments it has not read yet. -/
structure Link where
  session : Session
  segments : List (List UInt8)

namespace Link

/-- The outstanding read takes its bytes off the stream and its handler runs. There is
no such step when the stream does not hold that many bytes. -/
def deliver (parse : Packet → TaskResult) (link : Link) : Option Link :=
  match link.session.outstanding with
  | none => none
  | some .header =>
      (ByteStream.readExact headerLen link.segments).map fun read =>
        ⟨link.session.next (.header (.ok read.1)), read.2⟩
  | some (.body len) =>
      (ByteStream.readExact len.toNat link.segments).map fun read =>
        ⟨link.session.next (.body (.ok read.1)
          (parse (Packet.ofArray (link.session.data.store headerLen read.1)))), read.2⟩

def Reaches (parse : Packet → TaskResult) : Link → Link → Prop :=
  Relation.ReflTransGen fun link link' => link.deliver parse = some link'

/-- The session has read what it can and waits for bytes that are not there. -/
def Settles (parse : Packet → TaskResult) (link link' : Link) : Prop :=
  link.Reaches parse link' ∧ link'.deliver parse = none

theorem Settles.unique {parse : Packet → TaskResult} {link left right : Link}
    (first : link.Settles parse left) (second : link.Settles parse right) : left = right := by
  obtain ⟨reach, blocked⟩ := first
  induction reach using Relation.ReflTransGen.head_induction_on with
  | refl =>
      rcases Relation.ReflTransGen.cases_head second.1 with same | ⟨mid, step, _⟩
      · exact same
      · rw [blocked] at step
        cases step
  | head step _ ih =>
      rcases Relation.ReflTransGen.cases_head second.1 with rfl | ⟨mid, step', rest⟩
      · rw [second.2] at step
        cases step
      · rw [step] at step'
        cases step'
        exact ih ⟨rest, second.2⟩

theorem Settles.of_reaches {parse : Packet → TaskResult} {link mid link' : Link}
    (reach : link.Reaches parse mid) (rest : mid.Settles parse link') : link.Settles parse link' :=
  ⟨reach.trans rest.1, rest.2⟩

theorem deliver_header (parse : Packet → TaskResult) (s : Session) (segments : List (List UInt8))
    (header more : List UInt8) (waiting : s.outstanding = some .header)
    (length : header.length = headerLen) (stream : segments.flatten = header ++ more) :
    ∃ rest, deliver parse ⟨s, segments⟩ = some ⟨s.next (.header (.ok header)), rest⟩ ∧
      rest.flatten = more := by
  obtain ⟨rest, read, left⟩ := ByteStream.readExact_front segments header more stream
  refine ⟨rest, ?_, left⟩
  simp only [deliver, waiting]
  rw [← length, read]
  rfl

theorem deliver_body (parse : Packet → TaskResult) (s : Session) (segments : List (List UInt8))
    (len : UINT) (body more : List UInt8) (waiting : s.outstanding = some (.body len))
    (length : body.length = len.toNat) (stream : segments.flatten = body ++ more) :
    ∃ rest, deliver parse ⟨s, segments⟩ =
        some ⟨s.next (.body (.ok body) (parse (Packet.ofArray (s.data.store headerLen body)))), rest⟩ ∧
      rest.flatten = more := by
  obtain ⟨rest, read, left⟩ := ByteStream.readExact_front segments body more stream
  refine ⟨rest, ?_, left⟩
  simp only [deliver, waiting]
  rw [← length, read]
  rfl

theorem deliver_short (parse : Packet → TaskResult) (s : Session) (segments : List (List UInt8))
    (read : Read) (waiting : s.outstanding = some read) (short : segments.flatten.length < read.count) :
    deliver parse ⟨s, segments⟩ = none := by
  have failed := ByteStream.readExact_of_lt read.count segments short
  cases read with
  | header =>
      change ByteStream.readExact headerLen segments = none at failed
      simp only [deliver, waiting, failed, Option.map_none]
  | body len =>
      change ByteStream.readExact len.toNat segments = none at failed
      simp only [deliver, waiting, failed, Option.map_none]

end Link

namespace Session

/-- The receive array after a message with event `pevent` and body `s`. -/
def received (data : WArray) (pevent : UINT) (s : List UInt16) : WArray :=
  (data.store 0 (bytes32 pevent ++ bytes32 (UInt32.ofNat (2 * s.length)))).store headerLen (wideBytes s)

theorem received_wire (data : WArray) (pevent : UINT) (s : List UInt16) (fits : 2 * s.length ≤ 2040) :
    (received data pevent s).slice 0 (8 + 2 * s.length) = wireForm pevent s := by
  have header := Block.slice_store data 0 (bytes32 pevent ++ bytes32 (UInt32.ofNat (2 * s.length))) (by simp)
  have body := Block.slice_store (data.store 0 (bytes32 pevent ++ bytes32 (UInt32.ofNat (2 * s.length))))
    headerLen (wideBytes s) (by rw [wideBytes_length]; simp only [headerLen]; omega)
  rw [wideBytes_length] at body
  rw [Block.slice_add, received, Block.slice_store_frame _ _ _ 0 8 (Or.inl (by decide)), wireForm]
  exact congrArg₂ _ header body

/-- A stored header is parsed as what it says. -/
theorem word_store_header (data : WArray) (pevent length : UINT) :
    (data.store 0 (bytes32 pevent ++ bytes32 length)).word 0 = pevent ∧
      (data.store 0 (bytes32 pevent ++ bytes32 length)).word 4 = length := by
  have header := Block.slice_store data 0 (bytes32 pevent ++ bytes32 length) (by simp)
  have parsed := parseHeader_of_slice .received _ _ _ header
  rw [parseHeader_value, Header.mk.injEq] at parsed
  exact ⟨parsed.2, parsed.1⟩

theorem word_received (data : WArray) (pevent : UINT) (s : List UInt16) :
    (received data pevent s).word 0 = pevent ∧
      (received data pevent s).word 4 = UInt32.ofNat (2 * s.length) := by
  have header := word_store_header data pevent (UInt32.ofNat (2 * s.length))
  rw [received, Block.word_store_frame _ _ _ 0 (Or.inl (by decide)),
    Block.word_store_frame _ _ _ 4 (Or.inl (by decide))]
  exact header

/-- The session after one whole message. -/
def afterMessage (parse : Packet → TaskResult) (s : Session) (pevent : UINT) (body : List UInt16) : Session :=
  ⟨received s.data pevent body, some .header,
    s.log ++ [.asyncRead (.body (UInt32.ofNat (2 * body.length))),
      .passTask (Packet.ofArray (received s.data pevent body))
        (parse (Packet.ofArray (received s.data pevent body))), .asyncRead .header]⟩

theorem tasks_afterMessage (parse : Packet → TaskResult) (s : Session) (pevent : UINT) (body : List UInt16) :
    (s.afterMessage parse pevent body).tasks =
      s.tasks ++ [Packet.ofArray (received s.data pevent body)] := by
  simp only [afterMessage, tasks, List.filterMap_append]
  rfl

theorem next_next_eq (parse : Packet → TaskResult) (s : Session) (pevent : UINT) (body : List UInt16) :
    (s.next (.header (.ok (bytes32 pevent ++ bytes32 (UInt32.ofNat (2 * body.length)))))).next
      (.body (.ok (wideBytes body)) (parse (Packet.ofArray (received s.data pevent body)))) =
      s.afterMessage parse pevent body := by
  have announced := (word_store_header s.data pevent (UInt32.ofNat (2 * body.length))).2
  rw [next_body_ok, next_header, ReadResult.bytes, announced, List.append_assoc]
  rfl

/-- One message off the stream: two reads, one task, and the bytes behind it are next. -/
theorem reaches_afterMessage (parse : Packet → TaskResult) (s : Session) (segments : List (List UInt8))
    (pevent : UINT) (body : List UInt16) (more : List UInt8) (waiting : s.outstanding = some .header)
    (fits : 2 * body.length ≤ 2040) (stream : segments.flatten = wireForm pevent body ++ more) :
    ∃ rest, Link.Reaches parse ⟨s, segments⟩ ⟨s.afterMessage parse pevent body, rest⟩ ∧
      rest.flatten = more := by
  rw [wireForm, List.append_assoc] at stream
  obtain ⟨mid, first, left⟩ := Link.deliver_header parse s segments _ _ waiting (by simp) stream
  have announced := (word_store_header s.data pevent (UInt32.ofNat (2 * body.length))).2
  have body_waits : (s.next (.header (.ok (bytes32 pevent ++
      bytes32 (UInt32.ofNat (2 * body.length)))))).outstanding =
        some (.body (UInt32.ofNat (2 * body.length))) := by
    rw [next_header]
    exact congrArg (fun length => some (Read.body length)) announced
  have count := byteCount_toNat body.length (by omega)
  obtain ⟨rest, second, left⟩ := Link.deliver_body parse _ mid _ (wideBytes body) more body_waits
    (by rw [wideBytes_length, count]) left
  refine ⟨rest, ?_, left⟩
  rw [← next_next_eq]
  exact Relation.ReflTransGen.head first (Relation.ReflTransGen.single second)

/-- The stream ends inside the next message: its header may still be read, then the
session waits, and no task has been passed for it. -/
theorem settles_at_cut (parse : Packet → TaskResult) (s : Session) (segments : List (List UInt8))
    (pevent : UINT) (body : List UInt16) (cut : List UInt8) (waiting : s.outstanding = some .header)
    (fits : 2 * body.length ≤ 2040) (part : cut <+: wireForm pevent body)
    (short : cut.length < (wireForm pevent body).length) (stream : segments.flatten = cut) :
    ∃ link, Link.Settles parse ⟨s, segments⟩ link ∧ link.session.tasks = s.tasks ∧
      link.segments.flatten = if cut.length < headerLen then cut else cut.drop headerLen := by
  by_cases partHeader : cut.length < headerLen
  · refine ⟨⟨s, segments⟩, ⟨Relation.ReflTransGen.refl, ?_⟩, rfl, ?_⟩
    · exact Link.deliver_short parse s segments .header waiting (by rw [stream]; exact partHeader)
    · rw [if_pos partHeader]
      exact stream
  · have long : 8 ≤ cut.length := Nat.not_lt.mp partHeader
    have header : cut.take headerLen = bytes32 pevent ++ bytes32 (UInt32.ofNat (2 * body.length)) := by
      have front : cut.take headerLen <+: wireForm pevent body := (List.take_prefix _ _).trans part
      have whole : bytes32 pevent ++ bytes32 (UInt32.ofNat (2 * body.length)) <+: wireForm pevent body :=
        List.prefix_append _ _
      have length : (cut.take headerLen).length = 8 := by rw [List.length_take, Nat.min_eq_left long]
      exact (List.prefix_of_prefix_length_le front whole (Nat.le_of_eq length)).eq_of_length length
    rw [← List.take_append_drop headerLen cut, header] at stream
    obtain ⟨rest, first, left⟩ := Link.deliver_header parse s segments _ _ waiting (by simp) stream
    have announced := (word_store_header s.data pevent (UInt32.ofNat (2 * body.length))).2
    refine ⟨_, ⟨Relation.ReflTransGen.single first, ?_⟩, ?_, ?_⟩
    · refine Link.deliver_short parse _ rest (.body (UInt32.ofNat (2 * body.length))) ?_ ?_
      · rw [next_header]
        exact congrArg (fun length => some (Read.body length)) announced
      · rw [left, List.length_drop]
        rw [wireForm_length] at short
        change cut.length - 8 < (UInt32.ofNat (2 * body.length)).toNat
        rw [byteCount_toNat body.length (by omega)]
        omega
    · simp only [next_header, tasks, List.filterMap_append]
      exact List.append_nil _
    · rw [if_neg partHeader]
      exact left

/-- Whole messages first, then a stream that ends inside one more. -/
theorem settles_stream (parse : Packet → TaskResult) (s : Session) (segments : List (List UInt8))
    (ms : List Message) (last : Message) (cut : List UInt8) (waiting : s.outstanding = some .header)
    (part : cut <+: last.wire) (short : cut.length < last.wire.length)
    (stream : segments.flatten = (ms.map Message.wire).flatten ++ cut) :
    ∃ link more, Link.Settles parse ⟨s, segments⟩ link ∧ link.session.tasks = s.tasks ++ more ∧
      List.Forall₂ (fun task m => task.data.slice 0 m.wire.length = m.wire) more ms ∧
      link.segments.flatten = if cut.length < headerLen then cut else cut.drop headerLen := by
  induction ms generalizing s segments with
  | nil =>
      rw [Message.wire_eq] at part short
      obtain ⟨link, settled, tasks, left⟩ := settles_at_cut parse s segments last.event last.body cut
        waiting last.fits part short stream
      exact ⟨link, [], settled, by rw [tasks, List.append_nil], .nil, left⟩
  | cons m ms ih =>
      rw [List.map_cons, List.flatten_cons, List.append_assoc, m.wire_eq] at stream
      obtain ⟨rest, reach, left⟩ := reaches_afterMessage parse s segments m.event m.body _ waiting
        m.fits stream
      obtain ⟨link, more, settled, tasks, handed, unread⟩ :=
        ih (s.afterMessage parse m.event m.body) rest rfl left
      refine ⟨link, Packet.ofArray (received s.data m.event m.body) :: more,
        settled.of_reaches reach, ?_, .cons ?_ handed, unread⟩
      · rw [tasks, tasks_afterMessage, List.append_assoc, List.singleton_append]
      · rw [m.wire_eq, wireForm_length]
        exact received_wire s.data m.event m.body m.fits

/-- Framing: from any content of `data_` and under any segmentation, a session hands
over one buffer per complete message, in order, each starting with that message's wire
bytes; what the stream still holds is the part of the next message it was cut in. -/
theorem stream_framed (parse : Packet → TaskResult) (data : WArray) (segments : List (List UInt8))
    (ms : List Message) (last : Message) (cut : List UInt8)
    (part : cut <+: last.wire) (short : cut.length < last.wire.length)
    (stream : segments.flatten = (ms.map Message.wire).flatten ++ cut) :
    ∃ link, Link.Settles parse ⟨start data, segments⟩ link ∧
      List.Forall₂ (fun task m => task.data.slice 0 m.wire.length = m.wire) link.session.tasks ms ∧
      link.segments.flatten = if cut.length < headerLen then cut else cut.drop headerLen := by
  obtain ⟨link, more, settled, tasks, handed, unread⟩ :=
    settles_stream parse (start data) segments ms last cut rfl part short stream
  exact ⟨link, settled, by rw [tasks]; exact handed, unread⟩

/-- A client's `42` and a server's `7`. -/
def twoMessages : List Message :=
  [⟨.client, PacketEvent.tester.code, [52, 50], fun _ => 1, fun _ => 9, by decide⟩,
    ⟨.server, PacketEvent.loadInfo.code, [55], fun _ => 2, fun _ => 8, by decide⟩]

/-- Both messages in three segments, cut inside of their bodies, and a third message up to
the middle of its body. -/
theorem stream_framed_two :
    ∃ link, Link.Settles (fun _ => .ok none) ⟨start fun _ => 255,
        [[3, 0, 0, 0, 4, 0, 0, 0, 52], [0, 50, 0, 1, 0, 0, 0, 2, 0, 0, 0],
          [55, 0, 3, 0, 0, 0, 6, 0, 0, 0, 49, 0, 50]]⟩ link ∧
      List.Forall₂ (fun task m => task.data.slice 0 m.wire.length = m.wire) link.session.tasks twoMessages ∧
      link.segments.flatten = [49, 0, 50] := by
  have framed := stream_framed (fun _ => .ok none) (fun _ => 255)
    [[3, 0, 0, 0, 4, 0, 0, 0, 52], [0, 50, 0, 1, 0, 0, 0, 2, 0, 0, 0],
      [55, 0, 3, 0, 0, 0, 6, 0, 0, 0, 49, 0, 50]] twoMessages
    ⟨.client, PacketEvent.tester.code, [49, 50, 51], fun _ => 0, fun _ => 0, by decide⟩
    [3, 0, 0, 0, 6, 0, 0, 0, 49, 0, 50]
  simp only [twoMessages, Message.wire_eq, List.map_cons, List.map_nil] at framed ⊢
  exact framed (by decide) (by decide) (by decide)

end Session

end GameServer
