import GameServer.Room
import GameServer.SessionDecode
import GameServer.Connection

set_option autoImplicit false

/- A room and the clients connected to it. Session `u` and client `u` are the two ends of
one connection. What the writes of an end put on it is left open: the packets may come in
parts, mixed, or as what lies where a packet was, and a write that fails puts nothing. -/
namespace GameServer

open Base

/-- `submitted` are the packets that the clients have handed to send, `up` and `down` the
bytes put on the connections; `read` and `received` have been taken off by the other end. -/
structure World where
  room : Room
  submitted : Nat → List Packet
  up : Nat → List UInt8
  read : Nat → List UInt8
  down : Nat → List UInt8
  received : Nat → List UInt8
  clients : Nat → Receiver

namespace World

inductive Move where
  | accept (error : Bool)
  /-- client::send with what Make_packet returned. -/
  | submit (u : Nat) (p : Packet)
  | carryUp (u : Nat) (bytes : List UInt8)
  /-- A read of session `u` ends and its handler runs. -/
  | serve (u : Nat) (c : Completion)
  | written (u : Nat) (index : Nat) (error : Bool)
  | carryDown (u : Nat) (bytes : List UInt8)
  /-- A read of client `u` ends and its handler runs. -/
  | receive (u : Nat) (result : ReadResult)

/-- The arrays of both ends hold anything. -/
def start (memory buffers : Nat → WArray) : World :=
  ⟨Room.start memory, fun _ => [], fun _ => [], fun _ => [], fun _ => [], fun _ => [],
    fun u => Receiver.start (buffers u)⟩

def enabled (ar : TextArchive) (w : World) : Move → Prop
  | .accept error => w.room.enabled ar (.accept error)
  | .submit _ p => ∃ x : Request, p = x.packet ar
  | .carryUp _ _ => True
  | .serve u c => w.room.enabled ar (.read u c) ∧ w.read u ++ c.result.bytes <+: w.up u
  | .written u index error => w.room.enabled ar (.write u index error)
  | .carryDown _ _ => True
  | .receive u result => (w.clients u).enabled result ∧ w.received u ++ result.bytes <+: w.down u

def next (w : World) : Move → World
  | .accept error => { w with room := w.room.next (.accept error) }
  | .submit u p => { w with submitted := Function.update w.submitted u (w.submitted u ++ [p]) }
  | .carryUp u bytes => { w with up := Function.update w.up u (w.up u ++ bytes) }
  | .serve u c =>
      { w with
        room := w.room.next (.read u c)
        read := Function.update w.read u (w.read u ++ c.result.bytes) }
  | .written u index error => { w with room := w.room.next (.write u index error) }
  | .carryDown u bytes => { w with down := Function.update w.down u (w.down u ++ bytes) }
  | .receive u result =>
      { w with
        clients := Function.update w.clients u ((w.clients u).next result)
        received := Function.update w.received u (w.received u ++ result.bytes) }

/-- Connection `u` from the room to the client. -/
def downHalf (w : World) (u : Nat) : Half := ⟨w.room.sent u, w.down u, w.received u, w.clients u⟩

/-- Connection `u` from the client to its session. -/
def upHalf (w : World) (u : Nat) : Half := ⟨w.submitted u, w.up u, w.read u, (w.room.sessions u).asReceiver⟩

end World

def worldSystem (ar : TextArchive) : System World World.Move := ⟨World.enabled ar, World.next⟩

namespace World

/-- The downward half of connection `u` holds: its reads succeed, and the bytes put on it
are, in order, those of the packets sent. -/
def SteadyDown (u : Nat) (w : World) : Move → Prop
  | .carryDown v bytes => v = u → w.down u ++ bytes <+: (w.room.sent u).flatMap Packet.wire
  | .receive v result => v = u → result.failed = false
  | _ => True

/-- The upward half holds. -/
def SteadyUp (u : Nat) (w : World) : Move → Prop
  | .carryUp v bytes => v = u → w.up u ++ bytes <+: (w.submitted u).flatMap Packet.wire
  | .serve v c => v = u → c.failed = false
  | _ => True

instance (u : Nat) (w : World) : ∀ move, Decidable (w.SteadyDown u move)
  | .carryDown v bytes =>
      inferInstanceAs (Decidable (v = u → w.down u ++ bytes <+: (w.room.sent u).flatMap Packet.wire))
  | .receive v result => inferInstanceAs (Decidable (v = u → result.failed = false))
  | .accept _ | .submit _ _ | .carryUp _ _ | .serve _ _ | .written _ _ _ => isTrue trivial

instance (u : Nat) (w : World) : ∀ move, Decidable (w.SteadyUp u move)
  | .carryUp v bytes => inferInstanceAs (Decidable (v = u → w.up u ++ bytes <+: (w.submitted u).flatMap Packet.wire))
  | .serve v c => inferInstanceAs (Decidable (v = u → c.failed = false))
  | .accept _ | .submit _ _ | .written _ _ _ | .carryDown _ _ | .receive _ _ => isTrue trivial

section TwoClients

/-- The packet with the number `t`, made where there were zeros. -/
def question (t : UINT) : Packet := (⟨t, fun _ => 0, fun _ => 0⟩ : Request).packet .boost

/-- Client `u` sends the number `t`, its bytes arrive in two parts, and the session's
message is answered. -/
def asks (u : Nat) (t : UINT) : List Move :=
  [.submit u (question t), .carryUp u ((question t).wire.take 10),
    .serve u (.header (.ok ((question t).wire.take 8))), .carryUp u ((question t).wire.drop 10),
    .serve u (.body (.ok ((question t).wire.drop 8)) (Room.reply t))]

/-- The answer with the number `t` reaches client `u`. -/
def hears (u : Nat) (t : UINT) : List Move :=
  let bytes := (Server.doWork .boost cleared t).value.wire
  [.carryDown u bytes, .receive u (.ok (bytes.take 8)), .receive u (.ok (bytes.drop 8))]

/-- Client 0 is accepted and answered, then client 1, whose number is answered to both. -/
def twoClients : List Move :=
  [.accept false] ++ asks 0 42 ++ [.accept false] ++ asks 1 7 ++ hears 1 7 ++ hears 0 42 ++ hears 0 7 ++
    [.written 0 0 false, .written 1 0 false]

theorem twoClients_valid : (worldSystem .boost).Valid (start (fun _ _ => 0) fun _ _ => 0) twoClients := by
  have asked (w : World) (u : Nat) (bytes : List UInt8) (may : (w.room.sessions u).enabled (.header (.ok bytes)))
      (there : w.read u ++ bytes <+: w.up u) : w.enabled .boost (.serve u (.header (.ok bytes))) :=
    ⟨Room.enabled_header may, there⟩
  exact ⟨rfl, ⟨_, rfl⟩, trivial, asked _ _ _ ⟨rfl, by decide⟩ (by decide +kernel), trivial,
    ⟨Room.enabled_reply ⟨_, rfl, by decide⟩ (by decide +kernel) (by decide +kernel), by decide +kernel⟩,
    rfl, ⟨_, rfl⟩, trivial, asked _ _ _ ⟨rfl, by decide⟩ (by decide +kernel), trivial,
    ⟨Room.enabled_reply ⟨_, rfl, by decide⟩ (by decide +kernel) (by decide +kernel), by decide +kernel⟩,
    trivial, ⟨⟨_, rfl, by decide⟩, by decide +kernel⟩, ⟨⟨_, rfl, by decide⟩, by decide +kernel⟩,
    trivial, ⟨⟨_, rfl, by decide⟩, by decide +kernel⟩, ⟨⟨_, rfl, by decide⟩, by decide +kernel⟩,
    trivial, ⟨⟨_, rfl, by decide⟩, by decide +kernel⟩, ⟨⟨_, rfl, by decide⟩, by decide +kernel⟩,
    Nat.zero_lt_succ _, Nat.zero_lt_succ _, trivial⟩

end TwoClients

end World

end GameServer
