import GameServer.Base.Family
import GameServer.Room

set_option autoImplicit false

/- All calls of PassTask of a room, in one order that keeps the order of each session. -/
namespace GameServer

open Base

/-- A call of PassTask, with what came back. -/
def Action.call? : Action → Option (Packet × TaskResult)
  | .asyncRead _ => none
  | .passTask task result => some (task, result)

def Session.calls (s : Session) : List (Packet × TaskResult) := s.log.filterMap Action.call?

theorem Session.tasks_eq (s : Session) : s.tasks = s.calls.map Prod.fst := by
  rw [tasks, calls, List.map_filterMap]
  congr 1
  funext action
  cases action <;> rfl

namespace Room

theorem sessions_broadcast (room : Room) (p : Packet) : (room.broadcast p).sessions = room.sessions := by
  have sends (users : List Nat) (room : Room) : (users.foldl (send p) room).sessions = room.sessions := by
    induction users generalizing room with
    | nil => rfl
    | cons v users ih => exact ih (room.send p v)
  exact sends room.users _

theorem sessions_act (room : Room) (action : Action) : (room.act action).sessions = room.sessions := by
  cases action with
  | asyncRead read => rfl
  | passTask task result =>
      rw [act]
      cases passTask result with
      | none => rfl
      | some p => exact room.sessions_broadcast p

/-- The handler of a read moves its own session and no other. -/
theorem sessions_read (room : Room) (v : Nat) (c : Completion) :
    (room.next (.read v c)).sessions = Function.update room.sessions v ((room.sessions v).next c) := by
  have acts (actions : List Action) (room : Room) : (actions.foldl act room).sessions = room.sessions := by
    induction actions generalizing room with
    | nil => rfl
    | cons action actions ih => rw [List.foldl_cons, ih, sessions_act]
  exact acts _ _

theorem sessions_accept (room : Room) (v : Nat) (pending : room.accepting = some v) :
    (room.next (.accept false)).sessions =
      Function.update room.sessions v ((room.sessions v).perform (room.sessions v).data Server.start) := by
  simp only [next, pending]
  rfl

theorem next_accept_none (room : Room) (pending : room.accepting = none) (error : Bool) :
    room.next (.accept error) = room := by
  simp only [next, pending, Option.elim_none]

/-- A failed accept starts no other one. -/
theorem next_accept_true (room : Room) (v : Nat) (pending : room.accepting = some v) :
    room.next (.accept true) = { room with accepting := none } := by
  simp only [next, pending, Option.elim_some, handleAccept, if_true]

/-- A handler's calls are the message it receives, if any. -/
theorem calls_next (room : Room) (u : Nat) (c : Completion) :
    ((room.sessions u).next c).calls = (room.sessions u).calls ++ (room.message (.read u c)).toList := by
  rw [Session.calls, Session.next, Session.perform, List.filterMap_append, Session.calls]
  congr 1
  cases c with
  | header result => rfl
  | body result returned => cases result <;> rfl

/-- `order` has the calls of all sessions, those of each in their order; the broadcasts are
what they returned. -/
structure Merges (ar : TextArchive) (room : Room) (order : List (Nat × Packet × TaskResult)) : Prop where
  own : ∀ u, System.own u order = (room.sessions u).calls
  broadcasts : room.broadcasts = order.filterMap fun call => passTask call.2.2
  parsed : ∀ call ∈ order, ∃ scratch, call.2.2 = (Server.parse ar scratch call.2.1.data).value

variable {ar : TextArchive} {room : Room} {order : List (Nat × Packet × TaskResult)}

theorem merges_start (memory : Nat → WArray) : (start memory).Merges ar [] :=
  ⟨fun _ => rfl, rfl, fun _ member => (List.not_mem_nil member).elim⟩

/-- A handler without a message adds no call. -/
theorem Merges.of_same (merges : room.Merges ar order) (room' : Room)
    (calls : ∀ u, (room'.sessions u).calls = (room.sessions u).calls)
    (broadcasts : room'.broadcasts = room.broadcasts) : room'.Merges ar order := by
  refine ⟨fun u => ?_, ?_, merges.parsed⟩
  · rw [calls]
    exact merges.own u
  · rw [broadcasts]
    exact merges.broadcasts

theorem Merges.read (merges : room.Merges ar order) (good : room.Good) (u : Nat) (c : Completion)
    (may : room.enabled ar (.read u c)) : ∃ order, (room.next (.read u c)).Merges ar order := by
  have sessions := room.sessions_read u c
  have calls := room.calls_next u c
  obtain ⟨_, broadcasts, _⟩ := room.next_eq (.read u c) good.nodup
  have other {v : Nat} (different : v ≠ u) : (room.next (.read u c)).sessions v = room.sessions v := by
    rw [sessions, Function.update_of_ne different]
  have own : (room.next (.read u c)).sessions u = (room.sessions u).next c := by rw [sessions, Function.update_self]
  cases message : room.message (.read u c) with
  | none =>
      rw [message] at calls broadcasts
      refine ⟨order, merges.of_same _ (fun v => ?_) (broadcasts.trans (List.append_nil _))⟩
      by_cases same : v = u
      · rw [same, own, calls]
        exact List.append_nil _
      · rw [other same]
  | some m =>
      rw [message] at calls broadcasts
      refine ⟨order ++ [(u, m)], fun v => ?_, ?_, fun call member => ?_⟩
      · rw [System.own_append]
        by_cases same : v = u
        · rw [same, own, calls, merges.own, System.own_cons_self]
          rfl
        · rw [other same, merges.own, System.own_cons_other (Ne.symm same)]
          exact List.append_nil _
      · rw [broadcasts, merges.broadcasts, List.filterMap_append]
        rfl
      · rcases List.mem_append.mp member with old | new
        · exact merges.parsed call old
        · rw [List.mem_singleton.mp new]
          apply parsed_of_mem_messages ar room [.read u c] ⟨may, trivial⟩
          rw [messages_singleton, message]
          exact List.mem_singleton_self m

theorem Merges.accept (merges : room.Merges ar order) (error : Bool) : (room.next (.accept error)).Merges ar order := by
  cases pending : room.accepting with
  | none =>
      rw [room.next_accept_none pending]
      exact merges
  | some v =>
      cases error with
      | true =>
          rw [room.next_accept_true v pending]
          exact merges.of_same _ (fun _ => rfl) rfl
      | false =>
          have sessions := room.sessions_accept v pending
          refine merges.of_same _ (fun u => ?_) ?_
          · rw [sessions]
            by_cases same : u = v
            · rw [same, Function.update_self, Session.calls, Session.perform, List.filterMap_append]
              exact List.append_nil _
            · rw [Function.update_of_ne same]
          · simp only [Room.next, pending]
            rfl

theorem Merges.next (merges : room.Merges ar order) (good : room.Good) (e : Event) (may : room.enabled ar e) :
    ∃ order, (room.next e).Merges ar order := by
  cases e with
  | accept error => exact ⟨order, merges.accept error⟩
  | read u c => exact merges.read good u c may
  | write u index error => exact ⟨order, merges.of_same _ (fun _ => rfl) rfl⟩

end Room

end GameServer
