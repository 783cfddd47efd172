import GameServer.Session
import Mathlib.Data.List.Nodup

set_option autoImplicit false

/- game_room of game_room.cpp, with the handlers of all its sessions. main runs one
io_service thread, so a handler runs to its end before the next one. Sessions are told
apart by the order in which start_accept creates them. -/
namespace GameServer

open Base

/-- `sessions` holds, for a session that is not started yet, what its memory will hold.
`broadcasts` and `sent` record the calls of broadcast and of each session's send;
`writes` are the packets of the writes outstanding on each socket. -/
structure Room where
  users : List Nat
  accepting : Option Nat
  created : Nat
  sessions : Nat → Session
  broadcasts : List Packet
  sent : Nat → List Packet
  writes : Nat → List Packet

namespace Room

/-- A handler that may run: the accept's, one of a session's read or a write's. -/
inductive Event where
  | accept (error : Bool)
  | read (u : Nat) (c : Completion)
  | write (u : Nat) (index : Nat) (error : Bool)

/-- game_room::start_accept -/
def startAccept (room : Room) : Room :=
  { room with accepting := some room.created, created := room.created + 1 }

def setSession (room : Room) (u : Nat) (s : Session) : Room :=
  { room with sessions := Function.update room.sessions u s }

/-- game_room::handle_accept. On an error it drops the session and does nothing else. -/
def handleAccept (room : Room) (u : Nat) (error : Bool) : Room :=
  if error then room
  else
    let room := { room with users := room.users ++ [u] }
    startAccept (room.setSession u ((room.sessions u).perform (room.sessions u).data Server.start))

/-- game_session::send -/
def send (p : Packet) (room : Room) (u : Nat) : Room :=
  { room with
    sent := Function.update room.sent u (room.sent u ++ [p])
    writes := Function.update room.writes u (room.writes u ++ [p]) }

/-- game_room::broadcast -/
def broadcast (room : Room) (p : Packet) : Room :=
  room.users.foldl (send p) { room with broadcasts := room.broadcasts ++ [p] }

/-- What a handler of a session does to the room: PassTask broadcasts. -/
def act (room : Room) : Action → Room
  | .asyncRead _ => room
  | .passTask _ result => (passTask result).elim room room.broadcast

/-- The room that game_room's constructor makes; `memory` is what the sessions' arrays
hold before they are used. -/
def start (memory : Nat → WArray) : Room :=
  startAccept ⟨[], none, 0, fun u => ⟨memory u, none, []⟩, [], fun _ => [], fun _ => []⟩

/-- A task returns what Parse makes of the packet that handle_read_body copies. -/
def enabled (ar : TextArchive) (room : Room) : Event → Prop
  | .accept _ => room.accepting.isSome
  | .read u c => (room.sessions u).enabled c ∧
      ∀ result returned, c = .body result returned →
        ∃ scratch, returned = (Server.parse ar scratch (Packet.ofArray ((room.sessions u).arrived c)).data).value
  | .write u index _ => index < (room.writes u).length

def next (room : Room) : Event → Room
  | .accept error => room.accepting.elim room fun u => handleAccept { room with accepting := none } u error
  | .read u c => ((room.sessions u).actions c).foldl act (room.setSession u ((room.sessions u).next c))
  -- handle_write only prints an error
  | .write u index _ =>
      { room with writes := Function.update room.writes u ((room.writes u).eraseIdx index) }

end Room

def roomSystem (ar : TextArchive) : System Room Room.Event := ⟨Room.enabled ar, Room.next⟩

namespace Room

/-- The message whose body a completion completes, and what Parse makes of it. -/
def message (room : Room) : Event → Option (Packet × TaskResult)
  | .read u (.body (.ok bytes) returned) =>
      some (Packet.ofArray ((room.sessions u).arrived (.body (.ok bytes) returned)), returned)
  | _ => none

/-- The messages received in a run, in the order their bodies were complete. -/
def messages : Room → List Event → List (Packet × TaskResult)
  | _, [] => []
  | room, event :: events => (room.message event).toList ++ messages (room.next event) events

/-- The packets among the results: neither null nor an exception. -/
def replies (received : List (Packet × TaskResult)) : List Packet := received.filterMap fun m => passTask m.2

/-- The session a completion adds to the users. -/
def accepted (room : Room) : Event → Option Nat
  | .accept false => room.accepting
  | _ => none

section Broadcast

theorem sends (p : Packet) (users : List Nat) (room : Room) (nodup : users.Nodup) :
    (users.foldl (send p) room).users = room.users ∧
      (users.foldl (send p) room).accepting = room.accepting ∧
      (users.foldl (send p) room).created = room.created ∧
      (users.foldl (send p) room).broadcasts = room.broadcasts ∧
      ∀ u, (users.foldl (send p) room).sent u = if u ∈ users then room.sent u ++ [p] else room.sent u := by
  induction users generalizing room with
  | nil => simp
  | cons v users ih =>
      obtain ⟨fresh, nodup⟩ := List.nodup_cons.mp nodup
      obtain ⟨same, accepting, created, broadcasts, sent⟩ := ih (room.send p v) nodup
      refine ⟨same, accepting, created, broadcasts, fun u => ?_⟩
      rw [List.foldl_cons, sent]
      by_cases first : u = v
      · subst first
        simp [fresh, send]
      · simp [first, send]

theorem broadcast_users (room : Room) (p : Packet) (nodup : room.users.Nodup) :
    (room.broadcast p).users = room.users ∧ (room.broadcast p).accepting = room.accepting ∧
      (room.broadcast p).created = room.created ∧ (room.broadcast p).broadcasts = room.broadcasts ++ [p] ∧
      ∀ u, (room.broadcast p).sent u = if u ∈ room.users then room.sent u ++ [p] else room.sent u :=
  sends p room.users { room with broadcasts := room.broadcasts ++ [p] } nodup

/-- What the handler of a read does to the room: the reply to a complete body goes to
every user. -/
theorem next_read (room : Room) (u : Nat) (c : Completion) (nodup : room.users.Nodup) :
    (room.next (.read u c)).users = room.users ∧ (room.next (.read u c)).accepting = room.accepting ∧
      (room.next (.read u c)).created = room.created ∧
      (room.next (.read u c)).broadcasts = room.broadcasts ++ replies (room.message (.read u c)).toList ∧
      ∀ v, (room.next (.read u c)).sent v =
        if v ∈ room.users then room.sent v ++ replies (room.message (.read u c)).toList else room.sent v := by
  have nothing : ∀ packets : Nat → List Packet, ∀ v,
      packets v = if v ∈ room.users then packets v ++ [] else packets v := by
    intro packets v
    rw [List.append_nil, ite_self]
  cases c with
  | header result => exact ⟨rfl, rfl, rfl, (List.append_nil _).symm, nothing room.sent⟩
  | body result returned =>
      cases result with
      | error bytes => exact ⟨rfl, rfl, rfl, (List.append_nil _).symm, nothing room.sent⟩
      | ok bytes =>
          let moved := room.setSession u ((room.sessions u).next (.body (.ok bytes) returned))
          have step : room.next (.read u (.body (.ok bytes) returned)) =
              (passTask returned).elim moved moved.broadcast := rfl
          rw [step]
          simp only [message, replies, Option.toList_some, List.filterMap_cons, List.filterMap_nil]
          cases passTask returned with
          | none => exact ⟨rfl, rfl, rfl, (List.append_nil _).symm, nothing room.sent⟩
          | some p => exact moved.broadcast_users p nodup

end Broadcast

/-- Session numbers are fresh when they are accepted, and nothing was sent before. -/
structure Good (room : Room) : Prop where
  nodup : room.users.Nodup
  known : ∀ u ∈ room.users, u < room.created
  fresh : ∀ u ∈ room.accepting, u ∉ room.users ∧ u < room.created
  quiet : ∀ u ∉ room.users, room.sent u = []

theorem good_start (memory : Nat → WArray) : (start memory).Good := by
  refine ⟨List.nodup_nil, fun u member => ?_, fun u accepting => ?_, fun _ _ => rfl⟩
  · cases member
  · cases accepting
    exact ⟨List.not_mem_nil, Nat.zero_lt_one⟩

/-- What any completion does to the users, the broadcasts and what each user was sent. -/
theorem next_eq (room : Room) (event : Event) (nodup : room.users.Nodup) :
    (room.next event).users = room.users ++ (room.accepted event).toList ∧
      (room.next event).broadcasts = room.broadcasts ++ replies (room.message event).toList ∧
      ∀ u, (room.next event).sent u =
        if u ∈ room.users then room.sent u ++ replies (room.message event).toList else room.sent u := by
  have quiet : ∀ u, room.sent u = if u ∈ room.users then room.sent u ++ [] else room.sent u := by
    intro u
    rw [List.append_nil, ite_self]
  cases event with
  | read u c =>
      obtain ⟨users, _, _, broadcasts, sent⟩ := room.next_read u c nodup
      exact ⟨users.trans (List.append_nil _).symm, broadcasts, sent⟩
  | write u index error => exact ⟨(List.append_nil _).symm, (List.append_nil _).symm, quiet⟩
  | accept error =>
      cases pending : room.accepting with
      | none =>
          simp only [next, accepted, message, pending]
          cases error <;> exact ⟨(List.append_nil _).symm, (List.append_nil _).symm, quiet⟩
      | some u =>
          simp only [next, accepted, message, pending]
          cases error
          · exact ⟨rfl, (List.append_nil _).symm, quiet⟩
          · exact ⟨(List.append_nil _).symm, (List.append_nil _).symm, quiet⟩

/-- A session is accepted once: it is not pending any more, and the next one is new. -/
theorem Good.next {room : Room} (good : room.Good) (event : Event) : (room.next event).Good := by
  obtain ⟨users, _, sent⟩ := room.next_eq event good.nodup
  cases event with
  | read u c =>
      obtain ⟨same, accepting, created, _, _⟩ := room.next_read u c good.nodup
      refine ⟨?_, ?_, ?_, ?_⟩
      · rw [same]
        exact good.nodup
      · rw [same, created]
        exact good.known
      · rw [same, accepting, created]
        exact good.fresh
      · intro v absent
        rw [same] at absent
        rw [sent, if_neg absent, good.quiet v absent]
  | write u index error => exact ⟨good.nodup, good.known, good.fresh, good.quiet⟩
  | accept error =>
      cases pending : room.accepting with
      | none =>
          have still : room.next (.accept error) = room := by
            simp only [Room.next, pending, Option.elim_none]
          rw [still]
          exact good
      | some u =>
          have fresh := good.fresh u pending
          cases error with
          | true =>
              have dropped : room.next (.accept true) = { room with accepting := none } := by
                simp only [Room.next, pending, Option.elim_some, handleAccept, if_true]
              rw [dropped]
              exact ⟨good.nodup, good.known, fun _ impossible => (by cases impossible), good.quiet⟩
          | false =>
              have added : (room.next (.accept false)).users = room.users ++ [u] ∧
                  (room.next (.accept false)).created = room.created + 1 ∧
                  (room.next (.accept false)).accepting = some room.created := by
                simp only [Room.next, pending]
                exact ⟨rfl, rfl, rfl⟩
              obtain ⟨users, created, accepting⟩ := added
              refine ⟨?_, ?_, ?_, ?_⟩
              · rw [users]
                exact List.nodup_append.mpr ⟨good.nodup, List.nodup_singleton u,
                  fun v old w new => by rw [List.mem_singleton.mp new]; rintro rfl; exact fresh.1 old⟩
              · intro v member
                rw [users, List.mem_append, List.mem_singleton] at member
                rw [created]
                rcases member with old | rfl
                · exact Nat.lt_succ_of_lt (good.known v old)
                · exact Nat.lt_succ_of_lt fresh.2
              · intro v next
                rw [accepting, Option.mem_some_iff] at next
                subst next
                rw [users, created]
                refine ⟨fun member => ?_, Nat.lt_succ_self _⟩
                rcases List.mem_append.mp member with old | new
                · exact Nat.lt_irrefl _ (good.known _ old)
                · rw [List.mem_singleton.mp new] at fresh
                  exact Nat.lt_irrefl _ fresh.2
              · intro v absent
                rw [users, List.mem_append, not_or] at absent
                rw [sent, if_neg absent.1, good.quiet v absent.1]

theorem messages_append (ar : TextArchive) (room : Room) (front back : List Event) :
    room.messages (front ++ back) = room.messages front ++ ((roomSystem ar).run room front).messages back := by
  induction front generalizing room with
  | nil => rfl
  | cons event front ih => rw [List.cons_append, messages, messages, ih, List.append_assoc]; rfl

theorem messages_singleton (room : Room) (event : Event) : room.messages [event] = (room.message event).toList :=
  List.append_nil _

theorem replies_messages (ar : TextArchive) (room : Room) (front : List Event) (event : Event) :
    replies (room.messages (front ++ [event])) =
      replies (room.messages front) ++ replies (((roomSystem ar).run room front).message event).toList := by
  rw [messages_append ar, messages_singleton, replies, List.filterMap_append]
  rfl

/-- What the tasks of a run return is what Parse makes of the messages. -/
theorem parsed_of_mem_messages (ar : TextArchive) (room : Room) (events : List Event)
    (valid : (roomSystem ar).Valid room events) (m : Packet × TaskResult) (member : m ∈ room.messages events) :
    ∃ scratch, m.2 = (Server.parse ar scratch m.1.data).value := by
  induction events generalizing room with
  | nil => cases member
  | cons event events ih =>
      rw [messages, List.mem_append] at member
      rcases member with here | later
      · unfold message at here
        split at here
        · rename_i u bytes returned
          rw [Option.toList_some, List.mem_singleton] at here
          subst here
          exact valid.1.2 _ _ rfl
        · cases here
      · exact ih (room.next event) valid.2 later

theorem good_run (ar : TextArchive) (memory : Nat → WArray) (events : List Event) :
    ((roomSystem ar).run (start memory) events).Good := by
  have kept (room : Room) (good : room.Good) : ((roomSystem ar).run room events).Good := by
    induction events generalizing room with
    | nil => exact good
    | cons event events ih => exact ih (room.next event) (good.next event)
  exact kept _ (good_start memory)

/-- The broadcasts of a run are the non-null replies of Parse in the order of the body
completions, and what was handed to a user's send is what was broadcast since that user
was accepted. -/
def TotallyOrdered (ar : TextArchive) (room : Room) (events : List Event) : Prop :=
  (∀ m ∈ room.messages events, ∃ scratch, m.2 = (Server.parse ar scratch m.1.data).value) ∧
    ((roomSystem ar).run room events).broadcasts = replies (room.messages events) ∧
    ∀ u ∈ ((roomSystem ar).run room events).users,
      ∃ front back, events = front ++ .accept false :: back ∧
        ((roomSystem ar).run room front).accepting = some u ∧
        ((roomSystem ar).run room events).sent u =
          replies (((roomSystem ar).run room (front ++ [.accept false])).messages back) ∧
        ((roomSystem ar).run room events).broadcasts =
          ((roomSystem ar).run room front).broadcasts ++ ((roomSystem ar).run room events).sent u

theorem broadcasts_ordered (ar : TextArchive) (memory : Nat → WArray) (events : List Event)
    (valid : (roomSystem ar).Valid (start memory) events) : TotallyOrdered ar (start memory) events := by
  refine ⟨parsed_of_mem_messages ar _ events valid, ?_⟩
  clear valid
  induction events using List.reverseRecOn with
  | nil => exact ⟨rfl, fun u member => by cases member⟩
  | append_singleton events event ih =>
      have good := good_run ar memory events
      obtain ⟨log, histories⟩ := ih
      obtain ⟨users, broadcasts, sent⟩ :=
        ((roomSystem ar).run (start memory) events).next_eq event good.nodup
      have step : (roomSystem ar).run (start memory) (events ++ [event]) =
          ((roomSystem ar).run (start memory) events).next event := by
        rw [System.run_append]
        rfl
      rw [step]
      constructor
      · rw [broadcasts, log, replies_messages ar]
      · intro u member
        rw [users, List.mem_append] at member
        rcases member with old | new
        · obtain ⟨front, back, split, pending, history, suffix⟩ := histories u old
          refine ⟨front, back ++ [event], ?_, pending, ?_, ?_⟩
          · rw [split, List.append_assoc, List.cons_append]
          · rw [sent, if_pos old, history, replies_messages ar, ← System.run_append, List.append_assoc,
              List.singleton_append, ← split]
          · rw [broadcasts, sent, if_pos old, suffix, List.append_assoc]
        · unfold accepted at new
          split at new
          · rw [Option.mem_toList] at new
            have fresh := (good.fresh u new).1
            have silent := sent u
            rw [if_neg fresh, good.quiet u fresh] at silent
            refine ⟨events, [], rfl, new, silent, ?_⟩
            rw [broadcasts, silent]
            rfl
          · cases new

/-- What the task of a message that is decoded to `t` returns. -/
def reply (t : UINT) : TaskResult := .ok (some (Server.doWork .boost cleared t).value)

/-- The header of a message with the number `t`. -/
def testerHeader (t : UINT) : List UInt8 :=
  bytes32 PacketEvent.tester.code ++ bytes32 (UInt32.ofNat (2 * TextArchive.boost.size t))

/-- Session `u` receives a message with the number `t` that is decoded to it. -/
def testerReads (u : Nat) (t : UINT) : List Event :=
  [.read u (.header (.ok (testerHeader t))), .read u (.body (.ok (wideBytes (TextArchive.boost.write t))) (reply t))]

theorem enabled_header {ar : TextArchive} {room : Room} {u : Nat} {result : ReadResult}
    (may : (room.sessions u).enabled (.header result)) : room.enabled ar (.read u (.header result)) :=
  ⟨may, fun _ _ impossible => by cases impossible⟩

theorem enabled_reply {room : Room} {u : Nat} {bytes : List UInt8} {t : UINT}
    (may : (room.sessions u).enabled (.body (.ok bytes) (reply t)))
    (event : ((room.sessions u).arrived (.body (.ok bytes) (reply t))).word 0 = PacketEvent.tester.code)
    (decoded : Server.decode .boost (fun _ => 0) ((room.sessions u).arrived (.body (.ok bytes) (reply t))) = .ok t) :
    room.enabled .boost (.read u (.body (.ok bytes) (reply t))) := by
  refine ⟨may, fun result returned same => ⟨cleared, ?_⟩⟩
  cases same
  have value : (Server.parse .boost cleared _).value = reply t := Server.parse_answered event decoded
  exact value.symm

/-- Session 0 is answered alone; then session 1 is accepted, and its message is answered to
both. A write ends, a message is not matched, a connection breaks, and an accept fails. -/
def twoUsers : List Event :=
  [.accept false] ++ testerReads 0 42 ++ [.accept false] ++ testerReads 1 7 ++
    [.write 0 1 false, .read 0 (.header (.ok (bytes32 0 ++ bytes32 0))), .read 0 (.body (.ok []) (.ok none)),
      .read 1 (.header (.error [])), .accept true]

theorem twoUsers_ordered :
    TotallyOrdered .boost (start fun _ _ => 0) twoUsers ∧
      ((roomSystem .boost).run (start fun _ _ => 0) twoUsers).users = [0, 1] ∧
      (((roomSystem .boost).run (start fun _ _ => 0) twoUsers).sent 0).length = 2 ∧
      (((roomSystem .boost).run (start fun _ _ => 0) twoUsers).sent 1).length = 1 := by
  refine ⟨?_, rfl, rfl, rfl⟩
  apply broadcasts_ordered
  refine ⟨rfl, enabled_header ⟨rfl, by decide⟩, enabled_reply ⟨_, rfl, by decide⟩ (by decide +kernel) (by decide +kernel),
    rfl, enabled_header ⟨rfl, by decide⟩, enabled_reply ⟨_, rfl, by decide⟩ (by decide +kernel) (by decide +kernel),
    Nat.lt_succ_self 1, enabled_header ⟨rfl, by decide⟩,
    ⟨⟨_, rfl, by decide⟩, fun result returned same => ⟨cleared, ?_⟩⟩, enabled_header ⟨rfl, by decide⟩, rfl, trivial⟩
  cases same
  rw [Server.parse_value, if_neg]
  decide +kernel

end Room

end GameServer
