import GameServer.World

set_option autoImplicit false

/- From the room to its clients: what a client parses are the packets that were broadcast
since it was accepted, each once and in the room's order. -/
namespace GameServer

open Base

/-- A packet Parse returns is one that Make_packet has made. -/
theorem passTask_framed {ar : TextArchive} {scratch : Scratch} {data : WArray} {p : Packet}
    (reply : passTask (Server.parse ar scratch data).value = some p) : p.Framed := by
  rw [Server.parse_value] at reply
  split at reply
  · cases decoded : Server.decode ar scratch.buf data with
    | error thrown =>
        rw [decoded] at reply
        cases reply
    | ok t =>
        rw [decoded] at reply
        cases reply
        have bounds := (ar.size_bounds t).2
        unfold TextArchive.size at bounds
        let m : Message := ⟨.server, PacketEvent.tester.code, ar.write t, scratch.fresh, scratch.after, by omega⟩
        exact ⟨m, m.wire_packet fun impossible => by cases impossible⟩
  · cases reply

namespace Room

variable {ar : TextArchive} {room : Room} {e : Event}

theorem replies_framed (may : room.enabled ar e) : ∀ p ∈ replies (room.message e).toList, p.Framed := by
  intro p member
  obtain ⟨m, received, reply⟩ := List.mem_filterMap.mp member
  rw [Option.mem_toList] at received
  obtain ⟨scratch, value⟩ := parsed_of_mem_messages ar room [e] ⟨may, trivial⟩ m
    (by rw [messages_singleton, received]; exact List.mem_singleton_self m)
  rw [value] at reply
  exact passTask_framed reply

/-- What the handlers of a run step send to one user. -/
theorem sent_next (room : Room) (e : Event) (nodup : room.users.Nodup) (u : Nat) :
    ∃ new, (room.next e).sent u = room.sent u ++ new ∧
      (u ∈ room.users ∧ new = replies (room.message e).toList ∨ u ∉ room.users ∧ new = []) := by
  obtain ⟨_, _, sent⟩ := room.next_eq e nodup
  rw [sent]
  by_cases user : u ∈ room.users
  · rw [if_pos user]
    exact ⟨_, rfl, Or.inl ⟨user, rfl⟩⟩
  · rw [if_neg user]
    exact ⟨[], (List.append_nil _).symm, Or.inr ⟨user, rfl⟩⟩

/-- A session that becomes a user is the one that was waited for. -/
theorem accept_of_joined (nodup : room.users.Nodup) {u : Nat} (out : u ∉ room.users)
    (inside : u ∈ (room.next e).users) :
    e = .accept false ∧ room.accepting = some u := by
  rw [(room.next_eq e nodup).1, List.mem_append] at inside
  rcases inside with before | joined
  · exact absurd before out
  · rw [Option.mem_toList] at joined
    unfold accepted at joined
    split at joined
    · exact ⟨rfl, joined⟩
    · cases joined

/-- `u` is a user, and what was broadcast behind `earlier` was sent to it. -/
structure Since (u : Nat) (earlier : List Packet) (room : Room) : Prop where
  good : room.Good
  user : u ∈ room.users
  broadcasts : room.broadcasts = earlier ++ room.sent u

theorem Since.next {u : Nat} {earlier : List Packet} (since : room.Since u earlier) (e : Event) :
    (room.next e).Since u earlier := by
  obtain ⟨users, broadcasts, sent⟩ := room.next_eq e since.good.nodup
  refine ⟨since.good.next e, ?_, ?_⟩
  · rw [users]
    exact List.mem_append_left _ since.user
  · rw [broadcasts, sent, if_pos since.user, since.broadcasts, List.append_assoc]

theorem since_of_joined (good : room.Good) {u : Nat} (out : u ∉ room.users) (inside : u ∈ (room.next e).users) :
    (room.next e).Since u room.broadcasts := by
  obtain ⟨rfl, _⟩ := accept_of_joined good.nodup out inside
  obtain ⟨_, broadcasts, sent⟩ := room.next_eq (.accept false) good.nodup
  refine ⟨good.next (.accept false), inside, ?_⟩
  rw [broadcasts, sent, if_neg out, good.quiet u out]
  rfl

end Room

namespace World

variable {ar : TextArchive} {w : World} {u : Nat}

/-- The handler of the room that a move runs. -/
def Move.event? : Move → Option Room.Event
  | .accept error => some (.accept error)
  | .serve u c => some (.read u c)
  | .written u index error => some (.write u index error)
  | _ => none

theorem room_next (w : World) (move : Move) : (w.next move).room = move.event?.elim w.room w.room.next := by
  cases move <;> rfl

theorem enabled_event {move : Move} {e : Room.Event} (runs : move.event? = some e) (may : w.enabled ar move) :
    w.room.enabled ar e := by
  cases move with
  | accept error =>
      cases runs
      exact may
  | serve v c =>
      cases runs
      exact may.1
  | written v index error =>
      cases runs
      exact may
  | _ => cases runs

/-- What holds of a room after every handler holds of it in a run of the world. -/
theorem room_invariant {inv : Room → Prop} (step : ∀ room e, inv room → inv (room.next e)) (w : World) (move : Move)
    (holds : inv w.room) : inv (w.next move).room := by
  rw [room_next]
  cases move.event? with
  | none => exact holds
  | some e => exact step w.room e holds

theorem good_run (memory buffers : Nat → WArray) (moves : List Move)
    (valid : (worldSystem ar).Valid (start memory buffers) moves) :
    ((worldSystem ar).run (start memory buffers) moves).room.Good := by
  have keeps : ∀ w move, w.room.Good → (worldSystem ar).enabled w move → ((worldSystem ar).next w move).room.Good :=
    fun w move good _ => w.room_invariant (fun _ e good => good.next e) move good
  exact (worldSystem ar).invariant keeps (Room.good_start memory) valid

/-- A user has been accepted by a move of the run, and has been sent what was broadcast since. -/
theorem exists_accept (memory buffers : Nat → WArray) (moves : List Move)
    (valid : (worldSystem ar).Valid (start memory buffers) moves)
    (user : u ∈ ((worldSystem ar).run (start memory buffers) moves).room.users) :
    ∃ before after, moves = before ++ .accept false :: after ∧
      ((worldSystem ar).run (start memory buffers) before).room.accepting = some u ∧
      ((worldSystem ar).run (start memory buffers) moves).room.broadcasts =
        ((worldSystem ar).run (start memory buffers) before).room.broadcasts ++
          ((worldSystem ar).run (start memory buffers) moves).room.sent u := by
  have nobody : u ∉ (start memory buffers).room.users := List.not_mem_nil
  obtain ⟨before, move, after, rfl, out, inside⟩ :=
    (worldSystem ar).exists_entry (fun w => u ∈ w.room.users) nobody user
  obtain ⟨reached, _, rest⟩ := (System.valid_append _ _ before (move :: after)).mp valid
  have good := good_run memory buffers before reached
  let w := (worldSystem ar).run (start memory buffers) before
  have joins : u ∈ (w.next move).room.users := inside
  obtain ⟨runs, pending⟩ : move = .accept false ∧ w.room.accepting = some u := by
    cases event : move.event? with
    | none =>
        rw [room_next, event] at joins
        exact absurd joins out
    | some e =>
        rw [room_next, event] at joins
        obtain ⟨same, pending⟩ := Room.accept_of_joined good.nodup out joins
        rw [same] at event
        refine ⟨?_, pending⟩
        cases move <;> cases event
        rfl
  have since : ((worldSystem ar).run (w.next move) after).room.Since u w.room.broadcasts := by
    have keeps : ∀ w' move, w'.room.Since u w.room.broadcasts → (worldSystem ar).enabled w' move →
        ((worldSystem ar).next w' move).room.Since u w.room.broadcasts :=
      fun w' move since _ => w'.room_invariant (fun _ e since => since.next e) move since
    have starts : (w.next move).room.Since u w.room.broadcasts := by
      rw [runs] at joins ⊢
      exact Room.since_of_joined good out joins
    exact (worldSystem ar).invariant keeps starts rest
  refine ⟨before, after, by rw [runs], pending, ?_⟩
  rw [System.run_append]
  exact since.broadcasts

/-- The client's half of connection `u`, and the room in front of it. -/
structure Downward (u : Nat) (w : World) : Prop where
  good : w.room.Good
  delivers : (w.downHalf u).Delivers

/-- A handler of the room may send more. -/
theorem Downward.handle (downward : w.Downward u) (e : Room.Event) (may : w.room.enabled ar e) (w' : World)
    (room : w'.room = w.room.next e) (down : w'.down = w.down) (received : w'.received = w.received)
    (clients : w'.clients = w.clients) : w'.Downward u := by
  obtain ⟨new, sent, what⟩ := w.room.sent_next e downward.good.nodup u
  have framed : ∀ p ∈ new, p.Framed := by
    rcases what with ⟨_, rfl⟩ | ⟨_, rfl⟩
    · exact Room.replies_framed may
    · exact fun p member => (List.not_mem_nil member).elim
  constructor
  · rw [room]
    exact downward.good.next e
  · rw [downHalf, room, down, received, clients, sent]
    exact downward.delivers.send new framed

theorem Downward.next (downward : w.Downward u) (move : Move) (may : w.enabled ar move) (steady : w.SteadyDown u move) :
    (w.next move).Downward u := by
  cases move with
  | accept error =>
      have room : w.room.enabled ar (.accept error) := may
      exact downward.handle (.accept error) room _ rfl rfl rfl rfl
  | written v index error =>
      have room : w.room.enabled ar (.write v index error) := may
      exact downward.handle (.write v index error) room _ rfl rfl rfl rfl
  | serve v c => exact downward.handle (.read v c) may.1 _ rfl rfl rfl rfl
  | submit v p => exact ⟨downward.good, downward.delivers⟩
  | carryUp v bytes => exact ⟨downward.good, downward.delivers⟩
  | carryDown v bytes =>
      refine ⟨downward.good, ?_⟩
      change Half.Delivers ⟨w.room.sent u, Function.update w.down v _ u, w.received u, w.clients u⟩
      by_cases same : v = u
      · subst same
        rw [Function.update_self]
        exact downward.delivers.carry bytes (steady rfl)
      · rw [Function.update_of_ne (Ne.symm same)]
        exact downward.delivers
  | receive v result =>
      refine ⟨downward.good, ?_⟩
      change Half.Delivers ⟨w.room.sent u, w.down u, Function.update w.received v _ u, Function.update w.clients v _ u⟩
      by_cases same : v = u
      · subst same
        rw [Function.update_self, Function.update_self]
        cases result with
        | error bytes => cases steady rfl
        | ok bytes => exact downward.delivers.receive may.1 may.2
      · rw [Function.update_of_ne (Ne.symm same), Function.update_of_ne (Ne.symm same)]
        exact downward.delivers

theorem downward_run (memory buffers : Nat → WArray) (u : Nat) (moves : List Move)
    (valid : (worldSystem ar).Valid (start memory buffers) moves)
    (steady : (worldSystem ar).Always (SteadyDown u) (start memory buffers) moves) :
    ((worldSystem ar).run (start memory buffers) moves).Downward u :=
  System.invariant_run _ (fun w move (downward : w.Downward u) may kept => downward.next move may kept)
    ⟨Room.good_start memory, Half.delivers_start (buffers u)⟩ valid steady

/-- What client `u` has parsed in a run: nothing before it is accepted; from then on, in the
room's order and each once, the packets broadcast since, except for a last part that is on
its way. -/
structure Parsed (ar : TextArchive) (memory buffers : Nat → WArray) (moves : List Move) (u : Nat) : Prop where
  outside : u ∉ ((worldSystem ar).run (start memory buffers) moves).room.users →
    (((worldSystem ar).run (start memory buffers) moves).clients u).parsed = []
  inside : u ∈ ((worldSystem ar).run (start memory buffers) moves).room.users →
    ∃ before after handed rest, moves = before ++ .accept false :: after ∧
      ((worldSystem ar).run (start memory buffers) before).room.accepting = some u ∧
      ((worldSystem ar).run (start memory buffers) moves).room.broadcasts =
        ((worldSystem ar).run (start memory buffers) before).room.broadcasts ++ (handed ++ rest) ∧
      List.Forall₂ Packet.StartsArray (((worldSystem ar).run (start memory buffers) moves).clients u).parsed handed ∧
      ((((worldSystem ar).run (start memory buffers) moves).downHalf u).Settled → rest = [])

/-- In every run of the room and all its clients, whatever other connections do, as long as
the downward half of connection `u` holds. -/
theorem broadcasts_parsed (memory buffers : Nat → WArray) (u : Nat) (moves : List Move)
    (valid : (worldSystem ar).Valid (start memory buffers) moves)
    (steady : (worldSystem ar).Always (SteadyDown u) (start memory buffers) moves) :
    Parsed ar memory buffers moves u := by
  have downward := downward_run memory buffers u moves valid steady
  constructor
  · intro out
    exact downward.delivers.parsed_nil (downward.good.quiet u out)
  · intro user
    obtain ⟨before, after, split, pending, since⟩ := exists_accept memory buffers moves valid user
    obtain ⟨handed, rest, sent, parsed, settled⟩ := downward.delivers.parsed
    refine ⟨before, after, handed, rest, split, pending, ?_, parsed, settled⟩
    rw [since, ← sent]
    rfl

/-- Client 0 has parsed both answers, client 1 the second one. -/
theorem broadcasts_parsed_two :
    Parsed .boost (fun _ _ => 0) (fun _ _ => 0) twoClients 0 ∧
      Parsed .boost (fun _ _ => 0) (fun _ _ => 0) twoClients 1 ∧
      (((worldSystem .boost).run (start (fun _ _ => 0) fun _ _ => 0) twoClients).clients 0).parsed.length = 2 ∧
      (((worldSystem .boost).run (start (fun _ _ => 0) fun _ _ => 0) twoClients).clients 1).parsed.length = 1 := by
  refine ⟨?_, ?_, rfl, rfl⟩
  · apply broadcasts_parsed _ _ _ _ twoClients_valid
    decide +kernel
  · apply broadcasts_parsed _ _ _ _ twoClients_valid
    decide +kernel

end World

end GameServer
