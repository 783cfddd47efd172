import GameServer.ClientLoop

set_option autoImplicit false

/- A receive loop on a connection that carries whole messages: where it stands between
them and what its buffer holds, from any content of the buffer. -/
namespace GameServer

open Base

/-- Messages as read_header and handle_read_body take them. -/
def messageFraming : Framing Message UInt8 where
  head m := bytes32 m.event ++ bytes32 (UInt32.ofNat (2 * m.body.length))
  body m := wideBytes m.body
  size := headerLen
  head_length m := by rw [List.length_append, bytes32_length, bytes32_length]

theorem Message.wire_framing (m : Message) : m.wire = messageFraming.wire m := m.wire_eq

theorem flatMap_wire (ms : List Message) : ms.flatMap messageFraming.wire = ms.flatMap Message.wire := by
  congr 1
  funext m
  exact m.wire_framing.symm

/-- A buffer that starts with a message's bytes. -/
def StartsWith (data : WArray) (m : Message) : Prop := data.slice 0 m.wire.length = m.wire

namespace Receiver

/-- The read that is outstanding, and for a body the header that announced it. -/
def Stands (r : Receiver) : Framing.Place Message → Prop
  | .head => r.outstanding = some .header
  | .body m => r.outstanding = some (.body (UInt32.ofNat (2 * m.body.length))) ∧
      r.data.slice 0 headerLen = messageFraming.head m

/-- The loop has parsed the first messages of those sent, one buffer for each. -/
structure Follows (r : Receiver) (sent handed : List Message) (place : Framing.Place Message) (taken : List UInt8) :
    Prop where
  here : messageFraming.At sent handed place taken
  stands : r.Stands place
  parsed : List.Forall₂ StartsWith r.parsed handed

variable {r : Receiver} {sent handed : List Message} {place : Framing.Place Message} {taken bytes : List UInt8}

theorem Follows.append (follows : r.Follows sent handed place taken) (later : List Message) :
    r.Follows (sent ++ later) handed place taken :=
  ⟨follows.here.append later, follows.stands, follows.parsed⟩

/-- The outstanding read asks for what the framing says comes next. -/
theorem Follows.outstanding (follows : r.Follows sent handed place taken) :
    ∃ read, r.outstanding = some read ∧ read.count = messageFraming.count place := by
  have stands := follows.stands
  cases place with
  | head => exact ⟨.header, stands, rfl⟩
  | body m =>
      refine ⟨_, stands.1, ?_⟩
      have fits := m.fits
      have count := byteCount_toNat m.body.length (by omega)
      change (UInt32.ofNat (2 * m.body.length)).toNat = (wideBytes m.body).length
      rw [count, wideBytes_length]

theorem Follows.receive_header (follows : r.Follows sent handed .head taken) (length : bytes.length = headerLen)
    (stream : taken ++ bytes <+: sent.flatMap messageFraming.wire) :
    ∃ m, (r.next (.ok bytes)).Follows sent handed (.body m) (taken ++ bytes) := by
  obtain ⟨m, same, here⟩ := follows.here.next_head length (by decide) stream
  refine ⟨m, here, ?_, ?_⟩
  · rw [r.next_header follows.stands, ReadResult.bytes, same]
    have announced := (Session.word_store_header r.data m.event (UInt32.ofNat (2 * m.body.length))).2
    refine ⟨congrArg (fun length => some (Read.body length)) announced, ?_⟩
    have stored := Block.slice_store r.data 0 (messageFraming.head m) (by rw [messageFraming.head_length]; decide)
    rw [messageFraming.head_length] at stored
    exact stored
  · rw [r.next_header follows.stands]
    exact follows.parsed

theorem Follows.receive_body {m : Message} (follows : r.Follows sent handed (.body m) taken)
    (length : bytes.length = (wideBytes m.body).length) (stream : taken ++ bytes <+: sent.flatMap messageFraming.wire) :
    (r.next (.ok bytes)).Follows sent (handed ++ [m]) .head (taken ++ bytes) := by
  obtain ⟨same, here⟩ := follows.here.next_body length stream
  obtain ⟨waiting, header⟩ := follows.stands
  refine ⟨here, ?_, ?_⟩
  · rw [r.next_body waiting]
    rfl
  · rw [r.next_body waiting]
    apply List.rel_append follows.parsed
    refine .cons ?_ .nil
    -- the header is still in front of the body
    have front := Block.slice_store_frame r.data headerLen (wideBytes m.body) 0 headerLen (Or.inl (by decide))
    have fits := m.fits
    have back := Block.slice_store r.data headerLen (wideBytes m.body)
      (by rw [wideBytes_length]; change 8 + 2 * m.body.length ≤ 2048; omega)
    rw [header] at front
    unfold StartsWith
    rw [m.wire_framing, Framing.wire, List.length_append, messageFraming.head_length, ReadResult.bytes, same,
      Block.slice_add]
    exact congrArg₂ _ front back

/-- One read of the loop, whatever it is waiting for. -/
theorem Follows.receive (follows : r.Follows sent handed place taken) (may : r.enabled (.ok bytes))
    (stream : taken ++ bytes <+: sent.flatMap messageFraming.wire) :
    ∃ handed place, (r.next (.ok bytes)).Follows sent handed place (taken ++ bytes) := by
  obtain ⟨read, waiting, length⟩ := may
  obtain ⟨read', waiting', count⟩ := follows.outstanding
  rw [Option.mem_def, waiting', Option.some.injEq] at waiting
  rw [← waiting] at length
  change bytes.length = read'.count at length
  rw [count] at length
  cases place with
  | head =>
      obtain ⟨m, next⟩ := follows.receive_header length stream
      exact ⟨handed, .body m, next⟩
  | body m => exact ⟨handed ++ [m], .head, follows.receive_body length stream⟩

/-- While a message has not been parsed and its bytes are there, a read can complete. -/
theorem Follows.exists_read (follows : r.Follows sent handed place taken) (missing : handed ≠ sent) :
    ∃ bytes, r.enabled (.ok bytes) ∧ taken ++ bytes <+: sent.flatMap messageFraming.wire := by
  obtain ⟨bytes, length, stream⟩ := follows.here.available missing
  obtain ⟨read, waiting, count⟩ := follows.outstanding
  refine ⟨bytes, ⟨read, waiting, ?_⟩, stream⟩
  change bytes.length = read.count
  rw [length, count]

end Receiver

end GameServer
