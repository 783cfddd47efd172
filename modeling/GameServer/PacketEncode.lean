import GameServer.PacketParser

set_option autoImplicit false

/- The constructors of Packet in the server's and in the client's copy: the bytes they
make, what they touch for it, and what the accessors say of the result. -/
namespace GameServer

open Base

/-- The encoding constructor of either copy. -/
def Side.encode : Side → WArray → UINT → (Nat → UInt16) → UINT → Traced Place Packet
  | .server => Server.encode
  | .client => Client.encode

/-- test::Make_packet of either copy. -/
def Side.makePacket : Side → TextArchive → WArray → (Nat → UInt16) → UINT → Traced Place Packet
  | .server => Server.makePacket
  | .client => Client.makePacket

theorem Side.encode_data (side : Side) (before : WArray) (pevent : UINT) (data : Nat → UInt16) (len : UINT) :
    (side.encode before pevent data len).value.data = (Server.encode before pevent data len).value.data := by
  cases side <;> rfl

theorem Side.encode_value (side : Side) (before : WArray) (pevent : UINT) (data : Nat → UInt16) (n : Nat)
    (short : n ≤ 510) :
    (side.encode before pevent data (UInt32.ofNat n)).value =
      (Server.encode before pevent data (UInt32.ofNat n)).value := by
  cases side with
  | server => rfl
  | client => exact Client.encode_value before pevent data n short

theorem Side.makePacket_value (side : Side) (ar : TextArchive) (before : WArray) (after : Nat → UInt16) (t : UINT) :
    (side.makePacket ar before after t).value = (Server.makePacket ar before after t).value := by
  have bound := (ar.size_bounds t).2
  cases side with
  | server => rfl
  | client => exact Client.encode_value before _ _ (ar.size t) (by omega)

section Bytes

/-- Both copies of ParseHeader find the event and the byte count in front of a message. -/
theorem parseHeader_of_wireForm (data : WArray) (pevent : UINT) (s : List UInt16)
    (starts : data.slice 0 (8 + 2 * s.length) = wireForm pevent s) (place : Place) :
    (parseHeader place data).value = ⟨UInt32.ofNat (2 * s.length), pevent⟩ := by
  rw [Block.slice_add, wireForm] at starts
  have header := (List.append_inj starts (by simp)).1
  exact parseHeader_of_slice place data pevent _ header

/-- Whatever lies behind the text and whatever the packets held: both copies send the
same bytes, and both copies of ParseHeader read off them what was put in. -/
theorem encodes_alike (pevent : UINT) (s : List UInt16) (short : s.length ≤ 510)
    (before : Side → WArray) (after : Side → Nat → UInt16) :
    (∀ side : Side, (side.encode (before side) pevent (cStr s (after side)) (UInt32.ofNat s.length)).value.wire =
        bytes32 pevent ++ bytes32 (UInt32.ofNat (2 * s.length)) ++ wideBytes s ∧
      (side.encode (before side) pevent (cStr s (after side)) (UInt32.ofNat s.length)).value.length =
        8 + 2 * s.length) ∧
    ∀ p : Packet, p.data.slice 0 (8 + 2 * s.length) =
        bytes32 pevent ++ bytes32 (UInt32.ofNat (2 * s.length)) ++ wideBytes s →
      (Server.parseHeader p.data).value = ⟨UInt32.ofNat (2 * s.length), pevent⟩ ∧
      (Client.parseHeader p).value = ⟨UInt32.ofNat (2 * s.length), pevent⟩ ∧
      8 + (UInt32.ofNat (2 * s.length)).toNat = 8 + 2 * s.length := by
  have small : s.length ≤ 1020 := by omega
  constructor
  · intro side
    rw [side.encode_value _ _ _ _ short]
    exact ⟨Server.encode_wire _ pevent s _ small, Server.encode_length _ _ _ _ small⟩
  · intro p starts
    have read (place : Place) := parseHeader_of_wireForm p.data pevent s starts place
    exact ⟨read _, read _, by rw [byteCount_toNat _ small]⟩

/-- One character. -/
theorem encodes_alike_one :
    (∀ side : Side, (side.encode (fun _ => 0) 3 (cStr [55] fun _ => 7) (UInt32.ofNat 1)).value.wire =
        bytes32 3 ++ bytes32 (UInt32.ofNat (2 * 1)) ++ wideBytes [55] ∧
      (side.encode (fun _ => 0) 3 (cStr [55] fun _ => 7) (UInt32.ofNat 1)).value.length = 8 + 2 * 1) ∧
    (Client.parseHeader (Server.encode (fun _ => 0) 3 (cStr [55] fun _ => 7) (UInt32.ofNat 1)).value).value =
      ⟨2, 3⟩ := by
  have alike := encodes_alike 3 [55] (by decide) (fun _ _ => 0) (fun _ _ => 7)
  refine ⟨alike.1, (alike.2 _ ?_).2.1⟩
  have sent := alike.1 .server
  rw [Packet.wire, sent.2] at sent
  exact sent.1

end Bytes

section Bounds

/-- MAX_BODY_LEN, in characters. -/
abbrev maxBodyLen : Nat := 1016

/-- A text of `n` characters has `n` and its terminator to read; every other array is a
`boost::array<wchar_t, 1024>`. -/
def encodeSize (n : Nat) : Place → Nat
  | .source => 2 * (n + 1)
  | _ => 2048

/-- What the constructor touches besides the header: `2 * n` characters on either end. -/
theorem Side.encode_inBounds (side : Side) (size : Place → Nat) (before : WArray) (pevent : UINT)
    (data : Nat → UInt16) (n : Nat) (small : n ≤ maxBodyLen) (header : 8 ≤ size .made) :
    (side.encode before pevent data (UInt32.ofNat n)).InBounds size ↔
      2 * (2 * n) ≤ size .source ∧ 2 * (4 + 2 * n) ≤ size .made := by
  have doubled := double_toNat n (Nat.le_trans small (by decide))
  cases side with
  | server =>
      unfold Side.encode Server.encode headerLen
      simp only [Traced.inBounds_bind, Traced.inBounds_write, Traced.inBounds_touch, Traced.inBounds_pure,
        wideBytes_length, List.length_map, List.length_range, bytes32_length, doubled, and_true]
      omega
  | client =>
      unfold Side.encode Client.encode Client.headerIdx Client.wstrRealen
      simp only [Traced.inBounds_bind, Traced.inBounds_write, Traced.inBounds_touch, Traced.inBounds_pure,
        wideBytes_length, List.length_map, List.length_range, bytes32_length, doubled, and_true]
      omega

/-- Either copy stays inside the text and inside the packet for bodies of at most one
character, and leaves the text for every longer one. -/
theorem encode_inBounds_iff (pevent : UINT) (s : List UInt16) (small : s.length ≤ maxBodyLen)
    (before : Side → WArray) (after : Side → Nat → UInt16) (side : Side) :
    (side.encode (before side) pevent (cStr s (after side)) (UInt32.ofNat s.length)).InBounds
      (encodeSize s.length) ↔ s.length ≤ 1 := by
  have header : 8 ≤ encodeSize s.length .made := by
    simp only [encodeSize]
    omega
  rw [side.encode_inBounds _ _ _ _ _ small header]
  simp only [encodeSize]
  omega

/-- One character, on the server. -/
theorem encode_inBounds_one :
    (Side.server.encode (fun _ => 0) 3 (cStr [55] fun _ => 7) (UInt32.ofNat 1)).InBounds (encodeSize 1) :=
  (encode_inBounds_iff 3 [55] (by decide) (fun _ _ => 0) (fun _ _ => 7) .server).mpr (by decide)

/-- Of a text of two characters either copy takes four: the terminator is not the last
of them. -/
theorem encode_leaves_source :
    ¬ (Side.server.encode (fun _ => 0) 3 (cStr [52, 50] fun _ => 7) (UInt32.ofNat 2)).InBounds (encodeSize 2) ∧
    ¬ (Side.client.encode (fun _ => 0) 3 (cStr [52, 50] fun _ => 7) (UInt32.ofNat 2)).InBounds (encodeSize 2) := by
  decide

end Bounds

section Representation

/-- The copy constructor. -/
def Packet.copy (it : Packet) : Packet := ⟨it.data, it.len⟩

/-- get_body, as an index of the packet's array. The server adds the number of bytes in
the header to a pointer to wide characters. -/
def Side.getBody : Side → Nat
  | .server => headerLen
  | .client => Client.headerIdx

/-- The index Parse hands to Make_Body. -/
def Side.parsedBody : Side → Nat
  | .server => headerLen / 2
  | .client => Client.headerIdx

theorem Server.decode_parsedBody (ar : TextArchive) (buf p : WArray) :
    Server.decode ar buf p = (Server.makeBody ar p Side.server.parsedBody (p.word 4) buf).value := rfl

/-- How a packet that holds a message comes about. -/
inductive Construction where
  | encode (before : WArray) (pevent : UINT) (s : List UInt16) (after : Nat → UInt16) (short : s.length ≤ 510)
  | array (data : WArray) (pevent : UINT) (s : List UInt16) (fits : s.length ≤ 1020)
      (starts : data.slice 0 (8 + 2 * s.length) = wireForm pevent s)
  | copy (it : Construction)

namespace Construction

def packet (side : Side) : Construction → Packet
  | .encode before pevent s after _ => (side.encode before pevent (cStr s after) (UInt32.ofNat s.length)).value
  | .array data _ _ _ _ => Packet.ofArray data
  | .copy it => (it.packet side).copy

/-- The message was put together here and not received. -/
def encoded : Construction → Prop
  | .encode _ _ _ _ _ => True
  | .array _ _ _ _ _ => False
  | .copy it => it.encoded

instance decidableEncoded : (c : Construction) → Decidable c.encoded
  | .encode _ _ _ _ _ => isTrue trivial
  | .array _ _ _ _ _ => isFalse id
  | .copy it => decidableEncoded it

end Construction

/-- The accessors of a packet fit the header it holds. -/
structure Represented (side : Side) (p : Packet) : Prop where
  length : p.length = 8 + (p.data.word 4).toNat
  body : 2 * side.getBody = headerLen
  parsed : side.getBody = side.parsedBody

theorem word_encode (side : Side) (before : WArray) (pevent : UINT) (s : List UInt16) (after : Nat → UInt16)
    (short : s.length ≤ 510) :
    ((side.encode before pevent (cStr s after) (UInt32.ofNat s.length)).value.data.word 4).toNat = 2 * s.length := by
  have small : s.length ≤ 1020 := by omega
  have header := Server.encode_header before pevent (cStr s after) s.length small
  have read := parseHeader_of_slice .packet _ _ _ header
  rw [side.encode_data, show Block.word _ 4 = UInt32.ofNat (2 * s.length) from congrArg Header.packetLen read,
    byteCount_toNat _ small]

/-- An encoded packet counts its header and its body, on either side; one made from a
received array has length 0. -/
theorem Construction.length_packet (side : Side) (c : Construction) :
    (c.packet side).length = 8 + ((c.packet side).data.word 4).toNat ↔ c.encoded := by
  induction c with
  | encode before pevent s after short =>
      have small : s.length ≤ 1020 := by omega
      apply iff_of_true _ trivial
      rw [Construction.packet, word_encode side before pevent s after short, side.encode_value _ _ _ _ short]
      exact Server.encode_length before pevent _ _ small
  | array data pevent s fits starts =>
      apply iff_of_false _ id
      intro counted
      have zero : (Packet.ofArray data).length = 0 := rfl
      rw [Construction.packet, zero] at counted
      omega
  | copy it ih => exact ih

/-- The accessors fit the header for what the client encodes and copies of it, and for
no other packet. -/
theorem represented_iff (side : Side) (c : Construction) :
    Represented side (c.packet side) ↔ side = .client ∧ c.encoded := by
  constructor
  · intro fits
    refine ⟨?_, (c.length_packet side).mp fits.length⟩
    have body := fits.body
    revert body
    cases side <;> decide
  · rintro ⟨rfl, encoded⟩
    exact ⟨(c.length_packet .client).mpr encoded, rfl, rfl⟩

/-- A message as it may lie in `data_`: event 3 and the character 7. -/
def receivedOne : Construction :=
  .array (Server.encode (fun _ => 0) 3 (cStr [55] fun _ => 7) (UInt32.ofNat 1)).value.data 3 [55] (by decide) (by
    have wire := Server.encode_wire (fun _ => 0) 3 [55] (fun _ => 7) (by decide)
    rwa [Packet.wire, Server.encode_length _ _ _ _ (by decide)] at wire)

/-- The server's get_body misses the body even of a packet it encoded, and on the client
a received packet counts no byte of its message. -/
theorem represented_fails :
    ¬ Represented .server ((Construction.encode (fun _ => 0) 3 [55] (fun _ => 7) (by decide)).packet .server) ∧
    ¬ Represented .client (receivedOne.packet .client) := by
  constructor
  · intro fits
    exact absurd fits.body (by decide)
  · intro fits
    exact (receivedOne.length_packet .client).mp fits.length

end Representation

end GameServer
