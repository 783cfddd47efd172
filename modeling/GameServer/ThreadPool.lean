import GameServer.PacketParser
import GameServer.Base.Transition

set_option autoImplicit false

/- ThreadPool.h with the threads around it: calls of game_room::PassTask, the pool's
workers, and handle_accept, which locks the mutex of its room as Parse does. A section
under the queue's mutex is one step; a room's mutex is locked and released in separate
steps. -/
namespace GameServer

open Base

namespace ThreadPool

/-- The packaged_task of a call: Parse of a packet, bound to the call's room. -/
structure Task (R : Type) where
  call : Nat
  room : R
  packet : Packet

/-- Where a call of PassTask stands: before the push, before notify_one, in wait() of
its future, returned, or left by the exception that enqueue throws on a stopped pool. -/
inductive Phase where
  | entered
  | pushed
  | waiting
  | returned
  | rejected
  deriving DecidableEq, Repr

structure PassCall (R : Type) where
  room : R
  packet : Packet
  phase : Phase

def PassCall.task {R : Type} (c : PassCall R) (k : Nat) : Task R := ⟨k, c.room, c.packet⟩

/-- Where a worker stands in its loop: about to lock the queue's mutex and test the
predicate, in `condition.wait`, behind the pop, in Parse with the room's mutex locked,
behind Parse with the promise still to be set, or ended. -/
inductive Worker (R : Type) where
  | testing
  | asleep
  | popped (task : Task R)
  | parsing (task : Task R)
  | parsed (task : Task R) (result : TaskResult)
  | exited

/-- A call of handle_accept without error, before and after it locks its room. -/
inductive Accept (R : Type) where
  | locking (room : R)
  | inside (room : R)
  | returned

inductive Owner (n : Nat) where
  | worker (w : Fin n)
  | accept (a : Nat)

/-- A call of game_room::broadcast. -/
structure Broadcast (R : Type) where
  room : R
  call : Nat
  packet : Packet

/-- The pool, its callers and the rooms' mutexes. `enqueued`, `taken`, `ran` and
`broadcasts` record what has happened so far. -/
structure Pool (n : Nat) (R : Type) where
  calls : Nat → Option (PassCall R)
  accepts : Nat → Option (Accept R)
  queue : List (Task R)
  stop : Bool
  workers : Fin n → Worker R
  mutex : R → Option (Owner n)
  futures : Nat → Option TaskResult
  enqueued : List (Task R)
  taken : List (Task R)
  ran : List (Task R × TaskResult)
  broadcasts : List (Broadcast R)

inductive Step (n : Nat) (R : Type) where
  /-- A room calls PassTask. -/
  | pass (k : Nat) (room : R) (packet : Packet)
  | push (k : Nat) (c : PassCall R)
  /-- enqueue throws. -/
  | reject (k : Nat) (c : PassCall R)
  /-- notify_one wakes one of the workers that sleep, if any. -/
  | notify (k : Nat) (c : PassCall R) (woken : Option (Fin n))
  /-- The future is ready: get() and what follows it. -/
  | collect (k : Nat) (c : PassCall R) (result : TaskResult)
  | pop (w : Fin n) (task : Task R)
  | sleep (w : Fin n)
  | exit (w : Fin n)
  /-- A sleeping worker wakes without a notification. -/
  | wake (w : Fin n)
  | lock (w : Fin n) (task : Task R)
  | parse (w : Fin n) (task : Task R) (result : TaskResult)
  /-- The packaged_task makes its future ready. -/
  | fulfil (w : Fin n) (task : Task R) (result : TaskResult)
  | accept (a : Nat) (room : R)
  | lockAccept (a : Nat) (room : R)
  | leaveAccept (a : Nat) (room : R)
  /-- The destructor sets `stop`. -/
  | stop
  | notifyAll

namespace Pool

variable {n : Nat} {R : Type}

def start : Pool n R :=
  ⟨fun _ => none, fun _ => none, [], false, fun _ => .testing, fun _ => none, fun _ => none, [], [], [], []⟩

def enabled (ar : TextArchive) (s : Pool n R) : Step n R → Prop
  | .pass k _ _ => s.calls k = none
  | .push k c => s.calls k = some c ∧ c.phase = .entered ∧ s.stop = false
  | .reject k c => s.calls k = some c ∧ c.phase = .entered ∧ s.stop = true
  | .notify k c woken => s.calls k = some c ∧ c.phase = .pushed ∧
      match woken with
      | some w => s.workers w = .asleep
      | none => ∀ w, s.workers w ≠ .asleep
  | .collect k c result => s.calls k = some c ∧ c.phase = .waiting ∧ s.futures k = some result
  | .pop w task => s.workers w = .testing ∧ s.queue.head? = some task
  | .sleep w => s.workers w = .testing ∧ s.queue = [] ∧ s.stop = false
  | .exit w => s.workers w = .testing ∧ s.queue = [] ∧ s.stop = true
  | .wake w => s.workers w = .asleep
  | .lock w task => s.workers w = .popped task ∧ s.mutex task.room = none
  | .parse w task result => s.workers w = .parsing task ∧
      ∃ scratch, result = (Server.parse ar scratch task.packet.data).value
  | .fulfil w task result => s.workers w = .parsed task result
  | .accept a _ => s.accepts a = none
  | .lockAccept a room => s.accepts a = some (.locking room) ∧ s.mutex room = none
  | .leaveAccept a room => s.accepts a = some (.inside room)
  | .stop => s.stop = false
  | .notifyAll => s.stop = true

section Next

variable [DecidableEq R] (s : Pool n R)

def setCall (k : Nat) (c : PassCall R) (phase : Phase) : Pool n R :=
  { s with calls := Function.update s.calls k (some { c with phase }) }

def setWorker (w : Fin n) (worker : Worker R) : Pool n R :=
  { s with workers := Function.update s.workers w worker }

def setMutex (room : R) (owner : Option (Owner n)) : Pool n R :=
  { s with mutex := Function.update s.mutex room owner }

def setAccept (a : Nat) (accept : Accept R) : Pool n R :=
  { s with accepts := Function.update s.accepts a (some accept) }

def rouse : Worker R → Worker R
  | .asleep => .testing
  | worker => worker

def next : Step n R → Pool n R
  | .pass k room packet => s.setCall k ⟨room, packet, .entered⟩ .entered
  | .push k c =>
      { s.setCall k c .pushed with
        queue := s.queue ++ [c.task k]
        enqueued := s.enqueued ++ [c.task k] }
  | .reject k c => s.setCall k c .rejected
  | .notify k c none => s.setCall k c .waiting
  | .notify k c (some w) => (s.setCall k c .waiting).setWorker w .testing
  | .collect k c result =>
      { s.setCall k c .returned with
        broadcasts := s.broadcasts ++ (passTask result).toList.map fun packet => ⟨c.room, k, packet⟩ }
  | .pop w task =>
      { s.setWorker w (.popped task) with
        queue := s.queue.tail
        taken := s.taken ++ [task] }
  | .sleep w => s.setWorker w .asleep
  | .exit w => s.setWorker w .exited
  | .wake w => s.setWorker w .testing
  | .lock w task => (s.setWorker w (.parsing task)).setMutex task.room (some (.worker w))
  | .parse w task result =>
      { (s.setWorker w (.parsed task result)).setMutex task.room none with
        ran := s.ran ++ [(task, result)] }
  | .fulfil w task result =>
      { s.setWorker w .testing with
        futures := Function.update s.futures task.call (some result) }
  | .accept a room => s.setAccept a (.locking room)
  | .lockAccept a room => (s.setAccept a (.inside room)).setMutex room (some (.accept a))
  | .leaveAccept a room => (s.setAccept a .returned).setMutex room none
  | .stop => { s with stop := true }
  | .notifyAll => { s with workers := fun w => rouse (s.workers w) }

end Next

end Pool

end ThreadPool

def poolSystem (n : Nat) (R : Type) [DecidableEq R] (ar : TextArchive) :
    System (ThreadPool.Pool n R) (ThreadPool.Step n R) :=
  ⟨ThreadPool.Pool.enabled ar, ThreadPool.Pool.next⟩

end GameServer
