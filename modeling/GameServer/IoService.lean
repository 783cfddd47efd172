import GameServer.Session
import GameServer.Base.EventLoop

set_option autoImplicit false

/- The io_service of main, as far as one room goes: the operations asio has outstanding,
the handlers bound to them, and the calls each handler makes one after the other. -/
namespace GameServer

open Base

/-- `data_` with the bytes a completed read has stored. -/
def Completion.store (data : WArray) : Completion → WArray
  | .header result => data.store 0 result.bytes
  | .body result _ => data.store headerLen result.bytes

namespace IoService

/-- An outstanding operation. handle_accept is bound to the session_ptr of a new session,
the handlers of reads and writes to a raw `this`. -/
inductive Operation where
  | accept (u : Nat)
  | read (u : Nat) (read : Read)
  | write (u : Nat) (p : Packet)

namespace Operation

/-- The session a handler's raw `this` is. -/
def this : Operation → Option Nat
  | .accept _ => none
  | .read u _ => some u
  | .write u _ => some u

/-- The session a session_ptr among the handler's arguments owns. -/
def bound : Operation → Option Nat
  | .accept u => some u
  | _ => none

/-- The session whose `data_` the operation fills. -/
def filled : Operation → Option Nat
  | .read u _ => some u
  | _ => none

end Operation

inductive Outcome where
  | accept (error : Bool)
  | read (c : Completion)
  | write (error : Bool)

/-- The operation number `index` completes. -/
structure Event where
  index : Nat
  outcome : Outcome

/-- The calls by which a handler changes anything. PassTask pushes the task, waits until
it has been run, and broadcasts what it returned. -/
inductive Call where
  | pushBack (u : Nat)
  | asyncRead (u : Nat) (read : Read)
  | startAccept
  | enqueue (u : Nat)
  | wait
  | broadcast (p : Packet)

end IoService

open IoService in
/-- `created` sessions have been constructed so far; `task` is the session whose message
a task is being run for. -/
structure IoService where
  users : List Nat
  created : Nat
  data : Nat → WArray
  operations : List Operation
  task : Option Nat

namespace IoService

/-- game_room::PassTask, for a task whose future gives `result`. -/
def passTask (u : Nat) (result : TaskResult) : List Call :=
  .enqueue u :: .wait :: (GameServer.passTask result).toList.map .broadcast

/-- What a session does, as calls on the room and on asio. -/
def perform (u : Nat) : Action → List Call
  | .asyncRead read => [.asyncRead u read]
  | .passTask _ result => passTask u result

/-- game_room::handle_accept -/
def handleAccept (u : Nat) (error : Bool) : List Call :=
  if error then []
  else .pushBack u :: (Server.start.flatMap (perform u) ++ [.startAccept])

/-- game_session::handle_write only prints an error. -/
def handleWrite (_error : Bool) : List Call := []

def exec (s : IoService) : Call → IoService
  | .pushBack u => { s with users := s.users ++ [u] }
  | .asyncRead u read => { s with operations := s.operations ++ [.read u read] }
  | .startAccept => { s with operations := s.operations ++ [.accept s.created], created := s.created + 1 }
  | .enqueue u => { s with task := some u }
  | .wait => { s with task := none }
  | .broadcast p => { s with operations := s.operations ++ s.users.map fun u => .write u p }

/-- The room's constructor; `memory` is what the sessions' arrays hold at first. -/
def start (memory : Nat → WArray) : IoService := exec ⟨[], 0, memory, [], none⟩ .startAccept

/-- A read ends with the bytes it asked for, or with an error after some of them; a task
returns what Parse makes of the packet handle_read_body copies. -/
def Fits (ar : TextArchive) (s : IoService) : Operation → Outcome → Prop
  | .accept _, .accept _ => True
  | .read _ .header, .read (.header result) => result.Fits headerLen
  | .read u (.body len), .read (.body result returned) => result.Fits len.toNat ∧
      ∃ scratch, returned =
        (Server.parse ar scratch (Packet.ofArray (Completion.store (s.data u) (.body result returned))).data).value
  | .write _ _, .write _ => True
  | _, _ => False

def enabled (ar : TextArchive) (s : IoService) (e : Event) : Prop :=
  ∃ op ∈ s.operations[e.index]?, Fits ar s op e.outcome

/-- The operation leaves the list; a read has stored its bytes. -/
def taken (s : IoService) (e : Event) : IoService :=
  match s.operations[e.index]?, e.outcome with
  | some (.read u _), .read c =>
      { s with
        operations := s.operations.eraseIdx e.index
        data := Function.update s.data u (Completion.store (s.data u) c) }
  | _, _ => { s with operations := s.operations.eraseIdx e.index }

/-- The handler bound to the operation. -/
def handler (s : IoService) (e : Event) : List Call :=
  match s.operations[e.index]?, e.outcome with
  | some (.accept u), .accept error => handleAccept u error
  | some (.read u _), .read (.header result) =>
      (Server.readHeader (Completion.store (s.data u) (.header result)) result.failed).value.flatMap (perform u)
  | some (.read u _), .read (.body result returned) =>
      (Server.handleReadBody (Completion.store (s.data u) (.body result returned)) result.failed returned).flatMap
        (perform u)
  | some (.write _ _), .write error => handleWrite error
  | _, _ => []

end IoService

def ioLoop (ar : TextArchive) : EventLoop IoService IoService.Event IoService.Call :=
  ⟨IoService.enabled ar, IoService.taken, IoService.handler, IoService.exec⟩

end GameServer
