import GameServer.RoomCalls
import GameServer.WorldDown

set_option autoImplicit false

/- From the clients to the room: the tasks a session passes are the messages its client has
sent, each once and in order. -/
namespace GameServer

open Base

theorem Completion.failed_result (c : Completion) : c.failed = c.result.failed := by
  cases c <;> rfl

theorem Request.framed (ar : TextArchive) (x : Request) : (x.packet ar).Framed :=
  ⟨x.message ar, (x.wire_message ar).symm⟩

namespace World

variable {ar : TextArchive} {w : World} {u : Nat}

/-- The receive loop of session `u`; before it is accepted, the one it will start with. -/
def loop (w : World) (u : Nat) : Receiver :=
  if u ∈ w.room.users then (w.room.sessions u).asReceiver else Receiver.start (w.room.sessions u).data

/-- The session's half of connection `u`. -/
structure Upward (u : Nat) (w : World) : Prop where
  good : w.room.Good
  absent : u ∉ w.room.users → (w.room.sessions u).outstanding = none ∧ (w.room.sessions u).log = []
  delivers : (⟨w.submitted u, w.up u, w.read u, w.loop u⟩ : Half).Delivers

/-- The room is where it was as far as session `u` goes. -/
theorem Upward.of_same (upward : w.Upward u) (w' : World) (good : w'.room.Good)
    (users : u ∈ w'.room.users ↔ u ∈ w.room.users) (session : w'.room.sessions u = w.room.sessions u)
    (delivers : (⟨w'.submitted u, w'.up u, w'.read u, w.loop u⟩ : Half).Delivers) : w'.Upward u := by
  have same : w'.loop u = w.loop u := by simp only [loop, users, session]
  refine ⟨good, ?_, ?_⟩
  · rw [users, session]
    exact upward.absent
  · rw [same]
    exact delivers

/-- A session that is accepted starts its loop. -/
theorem Upward.accept (upward : w.Upward u) (error : Bool) : (w.next (.accept error)).Upward u := by
  have good := upward.good.next (.accept error)
  have users := (w.room.next_eq (.accept error) upward.good.nodup).1
  cases pending : w.room.accepting with
  | none =>
      have still := w.room.next_accept_none pending error
      apply upward.of_same (w.next (.accept error)) good ?_ ?_ upward.delivers
      · change u ∈ (w.room.next (.accept error)).users ↔ _
        rw [still]
      · change (w.room.next (.accept error)).sessions u = _
        rw [still]
  | some v =>
      cases error with
      | true =>
          have dropped := w.room.next_accept_true v pending
          apply upward.of_same (w.next (.accept true)) good ?_ ?_ upward.delivers
          · change u ∈ (w.room.next (.accept true)).users ↔ _
            rw [dropped]
          · change (w.room.next (.accept true)).sessions u = _
            rw [dropped]
      | false =>
          have sessions := w.room.sessions_accept v pending
          rw [Room.accepted, pending, Option.toList_some] at users
          by_cases same : v = u
          · subst same
            have fresh := (upward.good.fresh v pending).1
            have inside : v ∈ (w.next (.accept false)).room.users := by
              change v ∈ (w.room.next (.accept false)).users
              rw [users]
              exact List.mem_append_right _ (List.mem_singleton_self v)
            have started : (w.next (.accept false)).loop v = w.loop v := by
              rw [loop, if_pos inside, loop, if_neg fresh]
              change ((w.room.next (.accept false)).sessions v).asReceiver = _
              rw [sessions, Function.update_self, Session.asReceiver, Session.tasks, Session.perform,
                (upward.absent fresh).2]
              rfl
            refine ⟨good, fun out => absurd inside out, ?_⟩
            rw [started]
            exact upward.delivers
          · apply upward.of_same (w.next (.accept false)) good ?_ ?_ upward.delivers
            · change u ∈ (w.room.next (.accept false)).users ↔ _
              rw [users, List.mem_append, List.mem_singleton]
              exact or_iff_left (Ne.symm same)
            · change (w.room.next (.accept false)).sessions u = _
              rw [sessions, Function.update_of_ne (Ne.symm same)]

/-- The session takes the next bytes of what is on the connection. -/
theorem Upward.serve (upward : w.Upward u) (v : Nat) (c : Completion) (may : w.enabled ar (.serve v c))
    (steady : v = u → c.failed = false) : (w.next (.serve v c)).Upward u := by
  obtain ⟨room, there⟩ := may
  have good := upward.good.next (.read v c)
  have users : (w.next (.serve v c)).room.users = w.room.users := (w.room.next_read v c upward.good.nodup).1
  have sessions : (w.next (.serve v c)).room.sessions = Function.update w.room.sessions v
    ((w.room.sessions v).next c) :=
    w.room.sessions_read v c
  by_cases same : v = u
  · subst same
    have inside : v ∈ w.room.users := by
      by_contra out
      exact Session.not_enabled_of_ended (upward.absent out).1 room.1
    have whole := steady rfl
    rw [c.failed_result] at whole
    have delivers := upward.delivers
    rw [loop, if_pos inside] at delivers
    refine ⟨good, fun out => absurd inside (by rwa [users] at out), ?_⟩
    rw [loop, users, if_pos inside, sessions, Function.update_self, Session.asReceiver_next room.1]
    change Half.Delivers ⟨w.submitted v, w.up v, Function.update w.read v _ v, _⟩
    rw [Function.update_self]
    have reads := Session.enabled_asReceiver room.1
    cases result : c.result with
    | error bytes =>
        rw [result] at whole
        cases whole
    | ok bytes =>
        rw [result] at reads there
        exact delivers.receive reads there
  · apply upward.of_same (w.next (.serve v c)) good
    · rw [users]
    · rw [sessions, Function.update_of_ne (Ne.symm same)]
    · change Half.Delivers ⟨w.submitted u, w.up u, Function.update w.read v _ u, _⟩
      rw [Function.update_of_ne (Ne.symm same)]
      exact upward.delivers

theorem Upward.next (upward : w.Upward u) (move : Move) (may : w.enabled ar move) (steady : w.SteadyUp u move) :
    (w.next move).Upward u := by
  cases move with
  | accept error => exact upward.accept error
  | serve v c => exact upward.serve v c may steady
  | written v index error => exact ⟨upward.good.next (.write v index error), upward.absent, upward.delivers⟩
  | carryDown v bytes => exact ⟨upward.good, upward.absent, upward.delivers⟩
  | receive v result => exact ⟨upward.good, upward.absent, upward.delivers⟩
  | submit v p =>
      refine ⟨upward.good, upward.absent, ?_⟩
      change Half.Delivers ⟨Function.update w.submitted v _ u, w.up u, w.read u, w.loop u⟩
      by_cases same : v = u
      · subst same
        obtain ⟨x, rfl⟩ := may
        rw [Function.update_self]
        apply upward.delivers.send [x.packet ar]
        intro p member
        rw [List.mem_singleton.mp member]
        exact x.framed ar
      · rw [Function.update_of_ne (Ne.symm same)]
        exact upward.delivers
  | carryUp v bytes =>
      refine ⟨upward.good, upward.absent, ?_⟩
      change Half.Delivers ⟨w.submitted u, Function.update w.up v _ u, w.read u, w.loop u⟩
      by_cases same : v = u
      · subst same
        rw [Function.update_self]
        exact upward.delivers.carry bytes (steady rfl)
      · rw [Function.update_of_ne (Ne.symm same)]
        exact upward.delivers

theorem upward_start (memory buffers : Nat → WArray) (u : Nat) : (start memory buffers).Upward u :=
  ⟨Room.good_start memory, fun _ => ⟨rfl, rfl⟩, Half.delivers_start (memory u)⟩

theorem upward_run (memory buffers : Nat → WArray) (u : Nat) (moves : List Move)
    (valid : (worldSystem ar).Valid (start memory buffers) moves)
    (steady : (worldSystem ar).Always (SteadyUp u) (start memory buffers) moves) :
    ((worldSystem ar).run (start memory buffers) moves).Upward u :=
  System.invariant_run _ (fun w move (upward : w.Upward u) may kept => upward.next move may kept)
    (upward_start memory buffers u) valid steady

/-- The tasks of session `u` are, in order and each once, the packets that client `u` has
handed to send, except for a last part that is on its way. -/
def Handed (w : World) (u : Nat) : Prop :=
  ∃ handed rest, w.submitted u = handed ++ rest ∧
    List.Forall₂ (fun task p => Packet.StartsArray task.data p) (w.room.sessions u).tasks handed ∧
    (u ∈ w.room.users → (w.upHalf u).Settled → rest = [])

theorem Upward.handed (upward : w.Upward u) : w.Handed u := by
  by_cases inside : u ∈ w.room.users
  · have delivers := upward.delivers
    rw [loop, if_pos inside] at delivers
    obtain ⟨handed, rest, whole, parsed, settled⟩ := delivers.parsed
    exact ⟨handed, rest, whole, List.forall₂_map_left_iff.mp parsed, fun _ => settled⟩
  · refine ⟨[], w.submitted u, rfl, ?_, fun member => absurd member inside⟩
    rw [Session.tasks, (upward.absent inside).2]
    exact .nil

/-- In every run of the room and all its clients, as long as the upward half of connection
`u` holds. -/
theorem messages_handed (memory buffers : Nat → WArray) (u : Nat) (moves : List Move)
    (valid : (worldSystem ar).Valid (start memory buffers) moves)
    (steady : (worldSystem ar).Always (SteadyUp u) (start memory buffers) moves) :
    ((worldSystem ar).run (start memory buffers) moves).Handed u :=
  (upward_run memory buffers u moves valid steady).handed

theorem messages_handed_two :
    ((worldSystem .boost).run (start (fun _ _ => 0) fun _ _ => 0) twoClients).Handed 0 ∧
      ((worldSystem .boost).run (start (fun _ _ => 0) fun _ _ => 0) twoClients).Handed 1 ∧
      (((worldSystem .boost).run (start (fun _ _ => 0) fun _ _ => 0) twoClients).room.sessions 1).tasks.length = 1 := by
  refine ⟨?_, ?_, rfl⟩
  · apply messages_handed _ _ _ _ twoClients_valid
    decide +kernel
  · apply messages_handed _ _ _ _ twoClients_valid
    decide +kernel

end World

end GameServer
