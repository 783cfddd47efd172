import GameServer.ServerProcess
import GameServer.World

set_option autoImplicit false

/- The server process on the network: its rooms, its pool and its one thread, and the clients
connected to each room. The thread takes a body off its connection before it waits for the
pool; meanwhile the clients and the network go on. -/
namespace GameServer

open Base

/-- The connections of one room, with the clients at their other ends. -/
structure Net where
  submitted : Nat → List Packet
  up : Nat → List UInt8
  read : Nat → List UInt8
  down : Nat → List UInt8
  received : Nat → List UInt8
  clients : Nat → Receiver

structure Deployment (n : Nat) (R : Type) where
  process : ServerProcess n R
  nets : R → Net

namespace World

def net (w : World) : Net := ⟨w.submitted, w.up, w.read, w.down, w.received, w.clients⟩

/-- What happens outside of the handlers of the room. -/
def Move.Outside : Move → Prop
  | .submit _ _ => True
  | .carryUp _ _ => True
  | .carryDown _ _ => True
  | .receive _ _ => True
  | _ => False

end World

/-- The bytes a handler finds on its connection. -/
def ServerProcess.Move.takes {n : Nat} {R : Type} : ServerProcess.Move n R → Option (R × Nat × List UInt8)
  | .handler r (.read u c) => some (r, u, c.result.bytes)
  | .receive _ r u bytes => some (r, u, bytes)
  | _ => none

namespace Deployment

variable {n : Nat} {R : Type}

inductive Move (n : Nat) (R : Type) where
  | server (move : ServerProcess.Move n R)
  | outside (r : R) (move : World.Move)

def start (memory buffers : R → Nat → WArray) : Deployment n R :=
  ⟨ServerProcess.start memory, fun r => (World.start (memory r) (buffers r)).net⟩

/-- A room as it is now with its connections. -/
def world (d : Deployment n R) (r : R) : World :=
  ⟨d.process.rooms r, (d.nets r).submitted, (d.nets r).up, (d.nets r).read, (d.nets r).down, (d.nets r).received,
    (d.nets r).clients⟩

def enabled (ar : TextArchive) (d : Deployment n R) : Move n R → Prop
  | .server move => d.process.enabled ar move ∧
      ∀ r u bytes, move.takes = some (r, u, bytes) → (d.nets r).read u ++ bytes <+: (d.nets r).up u
  | .outside r move => move.Outside ∧ (d.world r).enabled ar move

section Next

variable [DecidableEq R]

/-- The bytes that belong to one connection. -/
def bytesOn (taken : Option (R × Nat × List UInt8)) (r : R) (u : Nat) : List UInt8 :=
  match taken with
  | some (r', u', bytes) => if r' = r ∧ u' = u then bytes else []
  | none => []

def next (d : Deployment n R) : Move n R → Deployment n R
  | .server move =>
      { process := d.process.next move
        nets := fun r => { d.nets r with read := fun u => (d.nets r).read u ++ bytesOn move.takes r u } }
  | .outside r move => { d with nets := Function.update d.nets r ((d.world r).next move).net }

end Next

end Deployment

def deploymentSystem (n : Nat) (R : Type) [DecidableEq R] (ar : TextArchive) :
    System (Deployment n R) (Deployment.Move n R) :=
  ⟨Deployment.enabled ar, Deployment.next⟩

end GameServer
