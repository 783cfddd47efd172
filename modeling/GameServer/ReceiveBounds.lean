import GameServer.SessionStream

set_option autoImplicit false

/- Which bytes of its arrays one received message makes a peer touch. The length field
is a byte count for read_header and a count of wide characters for Make_Body. -/
namespace GameServer

open Base

/-- Every array of the receive path is a `boost::array<wchar_t, 1024>`. -/
def arraySize (_ : Place) : Nat := 2048

namespace Server

/-- A message read by game_session: handle_read_body copies `data_` into the packet it
has parsed. -/
def receive (ar : TextArchive) (scratch : Scratch) (data : WArray) (header body : List UInt8) :
    Traced Place TaskResult := do
  let data ← Traced.write .received data 0 header
  let _ ← readHeader data false
  parse ar scratch (Packet.ofArray (data.store headerLen body)).data

end Server

namespace Client

/-- client::read_header -/
def readHeader (data : WArray) (_error : Bool) : Traced Place (List Action) := do
  let header ← GameServer.parseHeader .received data
  Traced.touch .received (2 * headerIdx) header.packetLen.toNat
  pure [.asyncRead (.body header.packetLen)]

/-- A message read by the client, which parses the receive buffer itself. -/
def receive (ar : TextArchive) (buf data : WArray) (header body : List UInt8) :
    Traced Place (Option UINT) := do
  let data ← Traced.write .received data 0 header
  let _ ← readHeader data false
  parse ar buf (data.store headerLen body)

/-- The text the client's Make_Body reads ends: among the characters it copies, or in
what its local array held behind them. -/
def Terminated (p buf : WArray) (len : Nat) : Prop :=
  ∃ index < 1024, (if index < len then p.wide (headerIdx + index) else buf.wide index) = 0

end Client

section Bounds

variable (ar : TextArchive) (p buf : WArray)

theorem parseHeader_inBounds (place : Place) (data : WArray) : (parseHeader place data).InBounds arraySize := by
  unfold parseHeader
  simp only [Traced.inBounds_bind, Traced.inBounds_readWord, Traced.inBounds_pure, arraySize]
  decide

theorem Server.readHeader_inBounds_iff (data : WArray) (error : Bool) :
    (Server.readHeader data error).InBounds arraySize ↔ (data.word 4).toNat ≤ 2040 := by
  have header := parseHeader_inBounds .received data
  unfold Server.readHeader
  simp only [Traced.inBounds_bind, header, Traced.inBounds_touch, Traced.inBounds_pure, parseHeader_value,
    arraySize, true_and, and_true]
  change 8 + _ ≤ 2048 ↔ _
  omega

/-- The two ends read a header alike. -/
theorem Client.readHeader_eq (data : WArray) (error : Bool) :
    Client.readHeader data error = Server.readHeader data error := rfl

theorem Client.readHeader_inBounds_iff (data : WArray) (error : Bool) :
    (Client.readHeader data error).InBounds arraySize ↔ (data.word 4).toNat ≤ 2040 := by
  rw [Client.readHeader_eq, Server.readHeader_inBounds_iff]

/-- The copy out of the packet is the access with the narrowest bound: the local array
is as long as the packet, but the body starts behind its header. -/
theorem Server.makeBody_inBounds_iff (len : UINT) :
    (Server.makeBody ar p 4 len buf).InBounds arraySize ↔ len.toNat ≤ 1020 := by
  unfold Server.makeBody
  simp only [Traced.inBounds_bind, Traced.inBounds_readWides, Traced.inBounds_write, Traced.inBounds_readText,
    Traced.inBounds_pure, Traced.value_readWides, Traced.value_write, wideBytes_length, Block.wides_length,
    bytes16_length, arraySize, and_true]
  constructor
  · intro accesses
    omega
  · intro short
    have closed : (Traced.cstring ((buf.store 0 (wideBytes (p.wides 4 len.toNat))).store
        (2 * len.toNat) (bytes16 0))).length < 2048 / 2 := by
      rw [Traced.cstring_terminated]
      refine ⟨len.toNat, by omega, ?_⟩
      exact Block.wide_store_inside _ len.toNat [0] 0 (by decide) (by omega)
    omega

theorem Client.makeBody_inBounds_iff (len : UINT) :
    (Client.makeBody ar p 4 len buf).InBounds arraySize ↔
      len.toNat ≤ 1020 ∧ Client.Terminated p buf len.toNat := by
  unfold Client.makeBody
  simp only [Traced.inBounds_bind, Traced.inBounds_readWides, Traced.inBounds_write, Traced.inBounds_readText,
    Traced.inBounds_pure, Traced.value_readWides, Traced.value_write, wideBytes_length, Block.wides_length,
    arraySize, and_true]
  have copied : len.toNat ≤ 1020 → ∀ index < 1024,
      (buf.store 0 (wideBytes (p.wides 4 len.toNat))).wide index =
        if index < len.toNat then p.wide (4 + index) else buf.wide index := by
    intro short index inside
    by_cases below : index < len.toNat
    · have copy := Block.wide_store_inside buf 0 (p.wides 4 len.toNat) index
        (by rwa [Block.wides_length]) (by omega)
      rw [Nat.zero_add, Nat.mul_zero, Block.wides_getElem] at copy
      rw [if_pos below, copy]
    · rw [if_neg below, Block.wide_store_outside _ _ _ _
        (Or.inr (by rw [wideBytes_length, Block.wides_length]; omega))]
  have ends : len.toNat ≤ 1020 → ((Traced.cstring (buf.store 0 (wideBytes (p.wides 4 len.toNat)))).length < 2048 / 2 ↔
      Client.Terminated p buf len.toNat) := by
    intro short
    rw [Traced.cstring_terminated]
    unfold Client.Terminated
    constructor
    · rintro ⟨index, inside, zero⟩
      exact ⟨index, inside, by rw [← copied short index inside]; exact zero⟩
    · rintro ⟨index, inside, zero⟩
      exact ⟨index, inside, by rw [copied short index inside]; exact zero⟩
  constructor
  · intro accesses
    have short : len.toNat ≤ 1020 := by omega
    exact ⟨short, (ends short).mp (by omega)⟩
  · intro both
    have closed := (ends both.1).mpr both.2
    omega

theorem Server.parseTester_inBounds_iff (scratch : Scratch) (len : UINT) :
    (Server.parseTester ar scratch p len).InBounds arraySize ↔ len.toNat ≤ 1020 := by
  rw [← Server.makeBody_inBounds_iff ar p scratch.buf len]
  apply Traced.inBounds_bind_of_forall
  intro made
  cases made <;> exact Traced.inBounds_pure _ _

/-- Parse reads the two words of the header, and only for one event anything else. -/
theorem parse_inBounds_of {α : Type} (body : UINT → Traced Place α) (other : α) :
    (do
        let event ← Traced.readWord .packet p 0
        let length ← Traced.readWord .packet p 4
        if event = PacketEvent.tester.code then body length else pure other : Traced Place α).InBounds arraySize ↔
      (p.word 0 = PacketEvent.tester.code → (body (p.word 4)).InBounds arraySize) := by
  rw [Traced.inBounds_bind, Traced.inBounds_bind, Traced.inBounds_readWord, Traced.inBounds_readWord,
    Traced.value_readWord, Traced.value_readWord]
  have header : 0 + 4 ≤ arraySize .packet ∧ 4 + 4 ≤ arraySize .packet := by decide
  by_cases tester : p.word 0 = PacketEvent.tester.code
  · rw [if_pos tester]
    constructor
    · intro accesses _
      exact accesses.2.2
    · intro inside
      exact ⟨header.1, header.2, inside tester⟩
  · rw [if_neg tester]
    constructor
    · intro _ impossible
      exact absurd impossible tester
    · intro _
      exact ⟨header.1, header.2, Traced.inBounds_pure _ _⟩

theorem Server.parse_inBounds_iff (scratch : Scratch) :
    (Server.parse ar scratch p).InBounds arraySize ↔
      (p.word 0 = PacketEvent.tester.code → (p.word 4).toNat ≤ 1020) := by
  rw [← Server.parseTester_inBounds_iff ar p scratch (p.word 4)]
  exact parse_inBounds_of p (Server.parseTester ar scratch p) (.ok none)

theorem Client.parse_inBounds_iff :
    (Client.parse ar buf p).InBounds arraySize ↔
      (p.word 0 = PacketEvent.tester.code →
        (p.word 4).toNat ≤ 1020 ∧ Client.Terminated p buf (p.word 4).toNat) := by
  rw [← Client.makeBody_inBounds_iff ar p buf (p.word 4), Client.parse, parse_inBounds_of,
    Traced.inBounds_bind_of_forall]
  intro made
  cases made <;> exact Traced.inBounds_pure _ _

variable (scratch : Scratch) (data : WArray) (event length : UINT) (body : List UInt8)

/-- The receive array once the header and the body of a message are stored. -/
def stored : WArray := (data.store 0 (bytes32 event ++ bytes32 length)).store headerLen body

theorem word_stored : (stored data event length body).word 0 = event ∧
    (stored data event length body).word 4 = length := by
  have header := Session.word_store_header data event length
  rw [stored, Block.word_store_frame _ _ _ 0 (Or.inl (by decide)),
    Block.word_store_frame _ _ _ 4 (Or.inl (by decide))]
  exact header

theorem Server.receive_inBounds_iff :
    (Server.receive ar scratch data (bytes32 event ++ bytes32 length) body).InBounds arraySize ↔
      length.toNat ≤ 2040 ∧ (event = PacketEvent.tester.code → length.toNat ≤ 1020) := by
  have header := Session.word_store_header data event length
  have message := word_stored data event length body
  unfold Server.receive
  rw [Traced.inBounds_bind, Traced.inBounds_bind, Traced.inBounds_write, Traced.value_write,
    Server.readHeader_inBounds_iff, header.2]
  change _ ∧ _ ∧ (Server.parse ar scratch (stored data event length body)).InBounds arraySize ↔ _
  rw [Server.parse_inBounds_iff, message.1, message.2]
  apply and_iff_right
  rw [List.length_append, bytes32_length, bytes32_length]
  decide

theorem Client.receive_inBounds_iff :
    (Client.receive ar buf data (bytes32 event ++ bytes32 length) body).InBounds arraySize ↔
      length.toNat ≤ 2040 ∧ (event = PacketEvent.tester.code →
        length.toNat ≤ 1020 ∧ Client.Terminated (stored data event length body) buf length.toNat) := by
  have header := Session.word_store_header data event length
  have message := word_stored data event length body
  unfold Client.receive
  rw [Traced.inBounds_bind, Traced.inBounds_bind, Traced.inBounds_write, Traced.value_write,
    Client.readHeader_inBounds_iff, header.2]
  change _ ∧ _ ∧ (Client.parse ar buf (stored data event length body)).InBounds arraySize ↔ _
  rw [Client.parse_inBounds_iff, message.1, message.2]
  apply and_iff_right
  rw [List.length_append, bytes32_length, bytes32_length]
  decide

/-- For every header and whatever bytes follow it, from any content of all arrays: what
the length has to satisfy for one message to be received inside the arrays. -/
theorem receive_inBounds :
    ((Server.receive ar scratch data (bytes32 event ++ bytes32 length) body).InBounds arraySize ↔
      length.toNat ≤ 2040 ∧ (event = PacketEvent.tester.code → length.toNat ≤ 1020)) ∧
    ((Client.receive ar buf data (bytes32 event ++ bytes32 length) body).InBounds arraySize ↔
      length.toNat ≤ 2040 ∧ (event = PacketEvent.tester.code →
        length.toNat ≤ 1020 ∧ Client.Terminated (stored data event length body) buf length.toNat)) :=
  ⟨Server.receive_inBounds_iff ar scratch data event length body,
    Client.receive_inBounds_iff ar buf data event length body⟩

end Bounds

/-- A length of 2041 takes the body read of both programs out of the receive buffer. One
of 1021 leaves it inside, and Make_Body copies from behind the packet. -/
theorem receive_out_of_bounds :
    ¬ (Server.receive .boost cleared (fun _ => 0) (bytes32 PacketEvent.gameStart.code ++ bytes32 2041)
        (List.replicate 2041 0)).InBounds arraySize ∧
      ¬ (Client.receive .boost (fun _ => 0) (fun _ => 0)
        (bytes32 PacketEvent.gameStart.code ++ bytes32 2041) (List.replicate 2041 0)).InBounds arraySize ∧
      ¬ (Server.receive .boost cleared (fun _ => 0) (bytes32 PacketEvent.tester.code ++ bytes32 1021)
        (List.replicate 1021 48)).InBounds arraySize := by
  rw [Server.receive_inBounds_iff, Client.receive_inBounds_iff, Server.receive_inBounds_iff]
  refine ⟨?_, ?_, ?_⟩
  · exact fun all => absurd all.1 (by decide)
  · exact fun all => absurd all.1 (by decide)
  · exact fun all => absurd (all.2 rfl) (by decide)

end GameServer
