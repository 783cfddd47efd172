import GameServer.PacketEncode
import GameServer.SessionDecode

set_option autoImplicit false

/- Parse on the very packet that Make_packet built, and the packet do_work answers with.
The terminator of the text is among the characters the constructor copies, so nothing
behind it is read as part of the number. -/
namespace GameServer

open Base

/-- Parse takes `t` out of the packet and answers with the bytes it was given. -/
def Server.Echoes (ar : TextArchive) (scratch : Scratch) (p : Packet) (t : UINT) : Prop :=
  decode ar scratch.buf p.data = .ok t ∧
    ∃ reply, (parse ar scratch p.data).value = .ok (some reply) ∧ reply.length = p.length ∧ reply.wire = p.wire

namespace Server

section Request

variable (ar : TextArchive) (before : WArray) (after : Nat → UInt16) (t : UINT)

theorem makePacket_length : (makePacket ar before after t).value.length = 8 + 2 * ar.size t := by
  have bounds := ar.size_bounds t
  exact encode_length before _ _ (ar.size t) (by omega)

theorem makePacket_wire :
    (makePacket ar before after t).value.wire = wireForm PacketEvent.tester.code (ar.write t) := by
  have bounds := (ar.size_bounds t).2
  unfold TextArchive.size at bounds
  exact encode_wire before _ (ar.write t) after (by omega)

theorem makePacket_header :
    (makePacket ar before after t).value.data.word 0 = PacketEvent.tester.code ∧
      (makePacket ar before after t).value.data.word 4 = UInt32.ofNat (2 * ar.size t) := by
  have wire := makePacket_wire ar before after t
  rw [Packet.wire, makePacket_length] at wire
  have header := parseHeader_of_wireForm _ _ (ar.write t) wire .packet
  rw [parseHeader_value] at header
  exact ⟨congrArg Header.packetEvent header, congrArg Header.packetLen header⟩

/-- Behind the text of the number comes its terminator. -/
theorem makePacket_leftover : leftover (makePacket ar before after t).value.data (ar.size t) = [] := by
  have bounds := ar.size_bounds t
  have last : (makePacket ar before after t).value.data.wide (4 + ar.size t) = 0 := by
    have copied := encode_wide before PacketEvent.tester.code (cStr (ar.write t) after) (ar.size t) (ar.size t)
      (by omega) (by omega) (by omega)
    rw [makePacket, copied]
    exact if_pos rfl
  obtain ⟨more, size⟩ := Nat.exists_eq_add_of_le bounds.1
  have first : (makePacket ar before after t).value.data.wides (4 + ar.size t) 1 = [0] := by
    rw [Block.wides, List.range_one, List.map_singleton, Nat.add_zero, last]
  have split := Block.wides_add (makePacket ar before after t).value.data (4 + ar.size t) 1 more
  rw [← size, first] at split
  rw [leftover, split]
  rfl

end Request

end Server

/-- For every number, whatever lies behind the serialised text and whatever the packets
and the local array held: the packet of either program is decoded to that number, and
the answer repeats it byte for byte. -/
theorem makePacket_echoed (ar : TextArchive) (side : Side) (before : WArray) (after : Nat → UInt16) (t : UINT)
    (scratch : Scratch) : Server.Echoes ar scratch (side.makePacket ar before after t).value t := by
  have bounds := (ar.size_bounds t).2
  unfold TextArchive.size at bounds
  have header := Server.makePacket_header ar before after t
  have body : (Server.makePacket ar before after t).value.data.wides 4 (ar.size t) = ar.write t :=
    Server.encode_body before _ (ar.write t) after (by omega)
  have decoded : Server.decode ar scratch.buf (Server.makePacket ar before after t).value.data = .ok t := by
    rw [Server.decode_text ar scratch.buf _ t header.2 body, Server.makePacket_leftover]
    exact Or.inl rfl
  rw [side.makePacket_value]
  refine ⟨decoded, (Server.doWork ar scratch t).value, ?_, ?_, ?_⟩
  · rw [Server.parse_value, if_pos header.1, decoded]
    rfl
  · rw [Server.doWork, Server.makePacket_length, Server.makePacket_length]
  · rw [Server.doWork, Server.makePacket_wire, Server.makePacket_wire]

end GameServer
