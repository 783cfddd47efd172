import GameServer.PacketStructure

set_option autoImplicit false

/- packet_parser.hpp and packet_parser.cpp of both programs, and game_logic::do_work. -/
namespace GameServer

open Base

/-- What PassTask gets out of the future of a task: a packet, a null packet_ptr, or the
exception the task ended with. -/
abbrev TaskResult := Except ArchiveException (Option Packet)

/-- game_room::PassTask once the future is ready: what it broadcasts. The catch block
ends an exception of the task here, so the caller always goes on. -/
def passTask : TaskResult → Option Packet
  | .ok (some packet) => some packet
  | .ok none => none
  | .error _ => none

/-- Memory a call finds uninitialised: Make_Body's local array, the array of the reply
packet, and what lies behind the reply's serialised text. -/
structure Scratch where
  buf : WArray
  fresh : WArray
  after : Nat → UInt16

def cleared : Scratch := ⟨fun _ => 0, fun _ => 0, fun _ => 0⟩

/-- Both copies of ParseHeader; `place` is the array the pointer leads to. -/
def parseHeader (place : Place) (data : WArray) : Traced Place Header := do
  let event ← Traced.readWord place data 0
  let length ← Traced.readWord place data 4
  pure ⟨length, event⟩

/-- The server's copy takes a pointer into the array it reads. -/
def Server.parseHeader (data : WArray) : Traced Place Header := GameServer.parseHeader .received data

/-- The client's copy takes the packet. -/
def Client.parseHeader (p : Packet) : Traced Place Header := GameServer.parseHeader .packet p.data

namespace Server

/-- game_logic::do_work: a packet for the same `t`. -/
def doWork (ar : TextArchive) (scratch : Scratch) (t : UINT) : Traced Place Packet :=
  makePacket ar scratch.fresh scratch.after t

/-- The branch of Parse for event TESTER. The arrays of the reply are touched by its
constructor, whose accesses are logged there. -/
def parseTester (ar : TextArchive) (scratch : Scratch) (p : WArray) (length : UINT) :
    Traced Place TaskResult := do
  match ← makeBody ar p (headerLen / 2) length scratch.buf with
  | .error thrown => pure (.error thrown)
  | .ok t => pure (.ok (some (doWork ar scratch t).value))

/-- Packet::Parse. The room's mutex, which it holds from the second memcpy on, is part
of the thread pool's model. -/
def parse (ar : TextArchive) (scratch : Scratch) (p : WArray) : Traced Place TaskResult := do
  let event ← Traced.readWord .packet p 0
  let length ← Traced.readWord .packet p 4
  if event = PacketEvent.tester.code then
    parseTester ar scratch p length
  else
    -- "no match": the packet_ptr stays null
    pure (.ok none)

/-- The value of `t` that Parse takes out of a packet with event TESTER. -/
def decode (ar : TextArchive) (buf : WArray) (p : WArray) : Except ArchiveException UINT :=
  (makeBody ar p (headerLen / 2) (p.word 4) buf).value

theorem parseTester_value (ar : TextArchive) (scratch : Scratch) (p : WArray) :
    (parseTester ar scratch p (p.word 4)).value =
      (decode ar scratch.buf p).map fun t => some (doWork ar scratch t).value := by
  unfold parseTester decode
  rw [Traced.value_bind]
  cases (makeBody ar p (headerLen / 2) (p.word 4) scratch.buf).value <;> rfl

theorem parse_value (ar : TextArchive) (scratch : Scratch) (p : WArray) :
    (parse ar scratch p).value =
      if p.word 0 = PacketEvent.tester.code then
        (decode ar scratch.buf p).map fun t => some (doWork ar scratch t).value
      else .ok none := by
  change (if p.word 0 = PacketEvent.tester.code then parseTester ar scratch p (p.word 4)
    else pure (.ok none)).value = _
  rw [apply_ite Traced.value, parseTester_value, Traced.value_pure]

/-- A message with event TESTER is answered when its text is decoded. -/
theorem parse_answered {ar : TextArchive} {scratch : Scratch} {p : WArray} {t : UINT}
    (event : p.word 0 = PacketEvent.tester.code) (decoded : decode ar scratch.buf p = .ok t) :
    (parse ar scratch p).value = .ok (some (doWork ar scratch t).value) := by
  rw [parse_value, if_pos event, decoded]
  rfl

end Server

namespace Client

/-- The client's Parse prints the decoded `t` and catches what Make_Body throws. -/
def parse (ar : TextArchive) (buf : WArray) (p : WArray) : Traced Place (Option UINT) := do
  let event ← Traced.readWord .packet p 0
  let length ← Traced.readWord .packet p 4
  if event = PacketEvent.tester.code then
    match ← makeBody ar p headerIdx length buf with
    | .error _ => pure none
    | .ok t => pure (some t)
  else
    pure none

end Client

theorem parseHeader_value (place : Place) (data : WArray) :
    (parseHeader place data).value = ⟨data.word 4, data.word 0⟩ := rfl

/-- Header bytes written by a constructor are read back as event and length. -/
theorem parseHeader_of_slice (place : Place) (data : WArray) (pevent length : UINT)
    (header : data.slice 0 8 = bytes32 pevent ++ bytes32 length) :
    (parseHeader place data).value = ⟨length, pevent⟩ := by
  rw [show (8 : Nat) = 4 + 4 from rfl, Block.slice_add] at header
  obtain ⟨event, len⟩ := List.append_inj header (by simp)
  rw [parseHeader_value, Block.word_of_slice data 0 pevent event, Block.word_of_slice data 4 length len]

end GameServer
