import GameServer.Room
import GameServer.ThreadPoolProgress
import GameServer.Base.Family

set_option autoImplicit false

/- main of the server: rooms that share one pool, and the one thread that runs the
io_service. The thread runs the handlers of all rooms; in handle_read_body it waits for the
pool, in handle_accept it locks the mutex of the room. -/
namespace GameServer

open Base

/-- What the thread of the io_service does: wait for the next completion, the call `k` of
PassTask for a body that session `u` of a room has received, or the call `a` of
handle_accept. -/
inductive IoThread (R : Type) where
  | idle
  | passing (k : Nat) (r : R) (u : Nat) (bytes : List UInt8)
  | accepting (a : Nat) (r : R)

structure ServerProcess (n : Nat) (R : Type) where
  rooms : R → Room
  pool : ThreadPool.Pool n R
  thread : IoThread R

namespace ServerProcess

variable {n : Nat} {R : Type}

inductive Move (n : Nat) (R : Type) where
  /-- A handler that ends without the pool and without a mutex. -/
  | handler (r : R) (e : Room.Event)
  /-- A body is complete: handle_read_body up to its call of PassTask. -/
  | receive (k : Nat) (r : R) (u : Nat) (bytes : List UInt8)
  /-- A connection is accepted: handle_accept up to its lock_guard. -/
  | accept (a : Nat) (r : R)
  /-- A step of a worker, or of the thread inside PassTask or handle_accept. -/
  | pool (step : ThreadPool.Step n R)

end ServerProcess

/-- The thread's own steps in the pool, and the workers'. main waits for the thread, so
the pool is not destroyed meanwhile. -/
def IoThread.Runs {n : Nat} {R : Type} (thread : IoThread R) : ThreadPool.Step n R → Prop
  | .push k _ => ∃ r u bytes, thread = .passing k r u bytes
  | .notify k _ _ => ∃ r u bytes, thread = .passing k r u bytes
  | .collect k _ _ => ∃ r u bytes, thread = .passing k r u bytes
  | .lockAccept a _ => ∃ r, thread = .accepting a r
  | .leaveAccept a _ => ∃ r, thread = .accepting a r
  | .pop _ _ => True
  | .sleep _ => True
  | .wake _ => True
  | .lock _ _ => True
  | .parse _ _ _ => True
  | .fulfil _ _ _ => True
  | _ => False

/-- The handlers that neither lock a mutex nor call PassTask. -/
def Room.Event.Short : Room.Event → Prop
  | .accept error => error = true
  | .read _ (.header _) => True
  | .read _ (.body result _) => result.failed = true
  | .write _ _ _ => True

namespace Room

/-- The session whose body is complete while its handler runs: `data_` holds the bytes and
no read is outstanding. -/
def arriving (room : Room) (u : Nat) (bytes : List UInt8) : Room :=
  room.setSession u ⟨(room.sessions u).data.store headerLen bytes, none, (room.sessions u).log⟩

/-- handle_read_body from the return of the future's get on: PassTask broadcasts, then the
next header is read. -/
def resume (room : Room) (u : Nat) (result : TaskResult) : Room :=
  let actions := Server.handleReadBody (room.sessions u).data false result
  actions.foldl act (room.setSession u ((room.sessions u).perform (room.sessions u).data actions))

end Room

namespace ServerProcess

variable {n : Nat} {R : Type}

def start (memory : R → Nat → WArray) : ServerProcess n R :=
  ⟨fun r => Room.start (memory r), ThreadPool.Pool.start, .idle⟩

/-- The packet handle_read_body makes of a copy of `data_`. -/
def packet (s : ServerProcess n R) (r : R) (u : Nat) (bytes : List UInt8) : Packet :=
  Packet.ofArray (((s.rooms r).sessions u).data.store headerLen bytes)

def enabled (ar : TextArchive) (s : ServerProcess n R) : Move n R → Prop
  | .handler r e => s.thread = .idle ∧ e.Short ∧ (s.rooms r).enabled ar e
  | .receive k r u bytes => s.thread = .idle ∧ s.pool.enabled ar (.pass k r (s.packet r u bytes)) ∧
      ∃ len, ((s.rooms r).sessions u).outstanding = some (.body len) ∧ bytes.length = len.toNat
  | .accept a r => s.thread = .idle ∧ s.pool.enabled ar (.accept a r) ∧ (s.rooms r).accepting.isSome
  | .pool step => s.thread.Runs step ∧ s.pool.enabled ar step

section Next

variable [DecidableEq R] (s : ServerProcess n R)

def setRoom (r : R) (room : Room) : ServerProcess n R := { s with rooms := Function.update s.rooms r room }

/-- What the thread does besides its step in the pool: behind get() it goes on in PassTask,
and the section under the room's mutex is done when it is left. -/
def follow : IoThread R → ThreadPool.Step n R → ServerProcess n R
  | .passing _ r u _, .collect _ _ result => { s.setRoom r ((s.rooms r).resume u result) with thread := .idle }
  | .accepting _ r, .leaveAccept _ _ => { s.setRoom r ((s.rooms r).next (.accept false)) with thread := .idle }
  | _, _ => s

def next : Move n R → ServerProcess n R
  | .handler r e => s.setRoom r ((s.rooms r).next e)
  | .receive k r u bytes =>
      { s.setRoom r ((s.rooms r).arriving u bytes) with
        pool := s.pool.next (.pass k r (s.packet r u bytes))
        thread := .passing k r u bytes }
  | .accept a r => { s with pool := s.pool.next (.accept a r), thread := .accepting a r }
  | .pool step => { s with pool := s.pool.next step }.follow s.thread step

end Next

end ServerProcess

def serverProcessSystem (n : Nat) (R : Type) [DecidableEq R] (ar : TextArchive) :
    System (ServerProcess n R) (ServerProcess.Move n R) :=
  ⟨ServerProcess.enabled ar, ServerProcess.next⟩

end GameServer
