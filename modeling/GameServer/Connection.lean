import GameServer.ReceiverStream

set_option autoImplicit false

/- One direction of a connection between a client and its session: what was handed to send
at one end, and the receive loop at the other. -/
namespace GameServer

open Base

/-- A packet whose bytes a receive loop can take apart. -/
def Packet.Framed (p : Packet) : Prop := ∃ m : Message, p.wire = m.wire

/-- An array that starts with a packet's bytes. -/
def Packet.StartsArray (data : WArray) (p : Packet) : Prop := data.slice 0 p.wire.length = p.wire

/-- The packets handed to send, the bytes that the writes have put on the connection, and
those that the loop at the other end has taken off it. -/
structure Half where
  sent : List Packet
  carried : List UInt8
  taken : List UInt8
  receiver : Receiver

namespace Half

/-- Everything sent is on the connection, and the loop waits for bytes that are not there. -/
def Settled (h : Half) : Prop :=
  h.carried = h.sent.flatMap Packet.wire ∧ ∀ bytes, h.receiver.enabled (.ok bytes) → ¬ h.taken ++ bytes <+: h.carried

/-- The bytes on the connection are those of the packets, in order, and the loop is where
they have brought it. -/
structure Delivers (h : Half) : Prop where
  stream : h.carried <+: h.sent.flatMap Packet.wire
  follows : ∃ ms handed place, List.Forall₂ (fun p m => p.wire = m.wire) h.sent ms ∧
    h.receiver.Follows ms handed place h.taken

theorem delivers_start (data : WArray) : (⟨[], [], [], Receiver.start data⟩ : Half).Delivers :=
  ⟨List.nil_prefix, [], [], .head, .nil, ⟨Framing.At.start [], rfl, .nil⟩⟩

variable {h : Half}

theorem exists_messages {packets : List Packet} (framed : ∀ p ∈ packets, p.Framed) :
    ∃ ms : List Message, List.Forall₂ (fun p m => p.wire = m.wire) packets ms := by
  induction packets with
  | nil => exact ⟨[], .nil⟩
  | cons p packets ih =>
      rw [List.forall_mem_cons] at framed
      obtain ⟨m, wire⟩ := framed.1
      obtain ⟨ms, rest⟩ := ih framed.2
      exact ⟨m :: ms, .cons wire rest⟩

theorem flatMap_wire_eq {ps : List Packet} {ms : List Message}
    (same : List.Forall₂ (fun p m => p.wire = m.wire) ps ms) :
    ps.flatMap Packet.wire = ms.flatMap messageFraming.wire := by
  rw [flatMap_wire]
  induction same with
  | nil => rfl
  | cons wire _ ih => rw [List.flatMap_cons, List.flatMap_cons, wire, ih]

/-- What is sent later comes behind. -/
theorem Delivers.send (delivers : h.Delivers) (packets : List Packet) (framed : ∀ p ∈ packets, p.Framed) :
    ({ h with sent := h.sent ++ packets } : Half).Delivers := by
  obtain ⟨ms, handed, place, same, follows⟩ := delivers.follows
  obtain ⟨more, later⟩ := exists_messages framed
  refine ⟨?_, ms ++ more, handed, place, List.rel_append same later, follows.append more⟩
  rw [List.flatMap_append]
  exact delivers.stream.trans (List.prefix_append _ _)

theorem Delivers.carry (delivers : h.Delivers) (bytes : List UInt8)
    (front : h.carried ++ bytes <+: h.sent.flatMap Packet.wire) :
    ({ h with carried := h.carried ++ bytes } : Half).Delivers :=
  ⟨front, delivers.follows⟩

/-- The loop takes the next bytes of what is on the connection. -/
theorem Delivers.receive (delivers : h.Delivers) {bytes : List UInt8} (may : h.receiver.enabled (.ok bytes))
    (there : h.taken ++ bytes <+: h.carried) :
    ({ h with taken := h.taken ++ bytes, receiver := h.receiver.next (.ok bytes) } : Half).Delivers := by
  obtain ⟨ms, handed, place, same, follows⟩ := delivers.follows
  have written := there.trans delivers.stream
  rw [flatMap_wire_eq same] at written
  obtain ⟨handed', place', next⟩ := follows.receive may written
  exact ⟨delivers.stream, ms, handed', place', same, next⟩

theorem startsArray_of_startsWith {parsed : List WArray} {handed : List Message} {ps : List Packet}
    (starts : List.Forall₂ StartsWith parsed handed) (same : List.Forall₂ (fun p m => p.wire = m.wire) ps handed) :
    List.Forall₂ Packet.StartsArray parsed ps := by
  induction starts generalizing ps with
  | nil =>
      cases same
      exact .nil
  | cons first _ ih =>
      cases same with
      | cons wire rest =>
          refine .cons ?_ (ih rest)
          unfold Packet.StartsArray
          rw [wire]
          exact first

/-- The loop has parsed the first packets sent, and all of them when nothing can go on. -/
theorem Delivers.parsed (delivers : h.Delivers) :
    ∃ handed rest, h.sent = handed ++ rest ∧ List.Forall₂ Packet.StartsArray h.receiver.parsed handed ∧
      (h.Settled → rest = []) := by
  obtain ⟨ms, handed, place, same, follows⟩ := delivers.follows
  have front : handed = ms.take handed.length := List.prefix_iff_eq_take.mp follows.here.handed_front
  have cut := List.forall₂_take handed.length same
  rw [← front] at cut
  refine ⟨h.sent.take handed.length, h.sent.drop handed.length, (List.take_append_drop _ _).symm,
    startsArray_of_startsWith follows.parsed cut, ?_⟩
  rintro ⟨whole, waits⟩
  have all : handed = ms := by
    by_contra missing
    obtain ⟨bytes, reads, stream⟩ := follows.exists_read missing
    rw [← flatMap_wire_eq same, ← whole] at stream
    exact waits bytes reads stream
  rw [all, ← same.length_eq, List.drop_length]

/-- Nothing sent, nothing parsed. -/
theorem Delivers.parsed_nil (delivers : h.Delivers) (nothing : h.sent = []) : h.receiver.parsed = [] := by
  obtain ⟨handed, rest, whole, parsed, _⟩ := delivers.parsed
  rw [nothing, List.nil_eq_append_iff] at whole
  rw [whole.1] at parsed
  exact List.forall₂_nil_right_iff.mp parsed

end Half

end GameServer
