import GameServer.IoServiceSafety
import GameServer.Room

set_option autoImplicit false

/- The operations that asio has outstanding, seen from the room: every completion of the
io_service is a completion of the room's model, which keeps the pending accept, the read
of each session and the writes on each socket apart. -/
namespace GameServer.IoService

open Base

/-- The read that is outstanding into the `data_` of `u`. -/
def Operation.readOf (u : Nat) : Operation → Option Read
  | .read v r => if v = u then some r else none
  | _ => none

/-- The packet of a write that is outstanding on the socket of `u`. -/
def Operation.writeOf (u : Nat) : Operation → Option Packet
  | .write v p => if v = u then some p else none
  | _ => none

structure Represents (s : IoService) (room : Room) : Prop where
  users : room.users = s.users
  created : room.created = s.created
  accepting : room.accepting.toList = s.operations.filterMap Operation.bound
  data : ∀ u, (room.sessions u).data = s.data u
  outstanding : ∀ u, (room.sessions u).outstanding.toList = s.operations.filterMap (Operation.readOf u)
  writes : ∀ u, room.writes u = s.operations.filterMap (Operation.writeOf u)

theorem represents_start (memory : Nat → WArray) : Represents (start memory) (Room.start memory) :=
  ⟨rfl, rfl, rfl, fun _ => rfl, fun _ => rfl, fun _ => rfl⟩

theorem split_eraseIdx {operations : List Operation} {index : Nat} {op : Operation}
    (found : operations[index]? = some op) :
    ∃ front back, operations = front ++ op :: back ∧ operations.eraseIdx index = front ++ back := by
  obtain ⟨inside, same⟩ := List.getElem?_eq_some_iff.mp found
  refine ⟨operations.take index, operations.drop (index + 1), ?_, List.eraseIdx_eq_take_drop_succ _ _⟩
  rw [← same, ← List.drop_eq_getElem_cons inside, List.take_append_drop]

section Completed

variable (ar : TextArchive) {s : IoService} {index u : Nat}

theorem next_accept (found : s.operations[index]? = some (.accept u)) (error : Bool) :
    (ioLoop ar).next s ⟨index, .accept error⟩ =
      (handleAccept u error).foldl exec { s with operations := s.operations.eraseIdx index } := by
  simp only [ioLoop, EventLoop.next, handler, taken, found]

theorem next_write {p : Packet} (found : s.operations[index]? = some (.write u p)) (error : Bool) :
    (ioLoop ar).next s ⟨index, .write error⟩ = { s with operations := s.operations.eraseIdx index } := by
  simp only [ioLoop, EventLoop.next, handler, taken, found, handleWrite, List.foldl_nil]

/-- A read has stored its bytes before its handler runs, which does the same as for a
session with that array. -/
theorem next_read {read : Read} (found : s.operations[index]? = some (.read u read)) (c : Completion)
    (session : Session) (same : session.data = s.data u) :
    (ioLoop ar).next s ⟨index, .read c⟩ =
      ((session.actions c).flatMap (perform u)).foldl exec
        { s with
          operations := s.operations.eraseIdx index
          data := Function.update s.data u (session.arrived c) } := by
  cases c with
  | header result =>
      simp only [ioLoop, EventLoop.next, handler, taken, found, Session.actions, Session.arrived, Completion.store,
        same]
  | body result returned =>
      simp only [ioLoop, EventLoop.next, handler, taken, found, Session.actions, Session.arrived, Completion.store,
        same]

end Completed

section Calls

variable (s : IoService) (u : Nat)

/-- The writes a broadcast starts. -/
def writesOf (users : List Nat) (packets : List Packet) : List Operation :=
  packets.flatMap fun p => users.map fun v => .write v p

theorem filterMap_writesOf {α : Type} (f : Operation → Option α) (users : List Nat) (packets : List Packet)
    (other : ∀ v p, f (.write v p) = none) : (writesOf users packets).filterMap f = [] := by
  rw [writesOf, List.filterMap_flatMap, List.flatMap_eq_nil_iff]
  exact fun p _ => filterMap_writes f users p fun v => other v p

theorem perform_asyncRead (read : Read) :
    (perform u (.asyncRead read)).foldl exec s = { s with operations := s.operations ++ [.read u read] } := rfl

theorem perform_passTask (task : Packet) (returned : TaskResult) :
    (perform u (.passTask task returned)).foldl exec s =
      { s with
        operations := s.operations ++ writesOf s.users (GameServer.passTask returned).toList
        task := none } := by
  change (Call.enqueue u :: Call.wait :: (GameServer.passTask returned).toList.map Call.broadcast).foldl exec s = _
  cases GameServer.passTask returned with
  | none => simp [exec, writesOf]
  | some p => simp [exec, writesOf]

end Calls

theorem foldl_send (p : Packet) (users : List Nat) (room : Room) :
    ∃ sent, users.foldl (Room.send p) room =
      { room with
        sent
        writes := fun v => room.writes v ++ (users.map fun u => Operation.write u p).filterMap
          (Operation.writeOf v) } := by
  induction users generalizing room with
  | nil =>
      refine ⟨room.sent, ?_⟩
      simp
  | cons u users ih =>
      obtain ⟨sent, rest⟩ := ih (room.send p u)
      refine ⟨sent, ?_⟩
      rw [List.foldl_cons, rest]
      simp only [Room.send]
      congr 1
      funext v
      by_cases own : v = u
      · subst own
        simp [Operation.writeOf]
      · have other : ¬ u = v := fun same => own same.symm
        simp [Operation.writeOf, own, other]

theorem eq_some_of_toList {α : Type} {found : Option α} {front back : List α} {x : α}
    (whole : found.toList = front ++ x :: back) : found = some x ∧ front = [] ∧ back = [] := by
  have one := Option.length_toList_le (o := found)
  have length := congrArg List.length whole
  rw [List.length_append, List.length_cons] at length
  have none : front = [] ∧ back = [] := by
    rw [← List.length_eq_zero_iff, ← List.length_eq_zero_iff]
    omega
  rw [none.1, none.2, List.nil_append, Option.toList_eq_singleton_iff] at whole
  exact ⟨whole, none⟩

section Step

variable {s : IoService} {room : Room}

/-- A session has one read outstanding at most. -/
theorem Represents.reads (rep : Represents s room) {front back : List Operation} {u : Nat} {read : Read}
    (whole : s.operations = front ++ .read u read :: back) :
    (room.sessions u).outstanding = some read ∧ front.filterMap (Operation.readOf u) = [] ∧
      back.filterMap (Operation.readOf u) = [] := by
  have outstanding := rep.outstanding u
  simp only [whole, List.filterMap_append, List.filterMap_cons, Operation.readOf, if_true] at outstanding
  exact eq_some_of_toList outstanding

/-- There is one pending accept at most. -/
theorem Represents.accepts (rep : Represents s room) {front back : List Operation} {u : Nat}
    (whole : s.operations = front ++ .accept u :: back) :
    room.accepting = some u ∧ front.filterMap Operation.bound = [] ∧ back.filterMap Operation.bound = [] := by
  have accepting := rep.accepting
  simp only [whole, List.filterMap_append, List.filterMap_cons, Operation.bound] at accepting
  exact eq_some_of_toList accepting

/-- A session's handler has run: its `data_`, its read and the writes it has started. -/
theorem Represents.read (rep : Represents s room) {front back : List Operation} {u : Nat} {read : Read}
    (whole : s.operations = front ++ .read u read :: back) (packets : List Packet) (session : Session)
    (task : Option Nat) (broadcasts : List Packet) (sent : Nat → List Packet) :
    Represents
      { s with
        operations := front ++ back ++ writesOf s.users packets ++ session.outstanding.toList.map (.read u)
        data := Function.update s.data u session.data
        task }
      { room with
        sessions := Function.update room.sessions u session
        writes := fun v => room.writes v ++ (writesOf s.users packets).filterMap (Operation.writeOf v)
        broadcasts
        sent } := by
  have accepting := rep.accepting
  have outstanding := rep.outstanding
  have writes := rep.writes
  simp only [whole, List.filterMap_append, List.filterMap_cons] at accepting outstanding writes
  have others := (rep.reads whole).2
  constructor
  · exact rep.users
  · exact rep.created
  · simp only [List.filterMap_append, filterMap_writesOf Operation.bound _ _ fun _ _ => rfl]
    rw [accepting]
    cases session.outstanding <;> simp [Operation.bound]
  · intro v
    by_cases own : v = u
    · subst own
      simp
    · simp [own, rep.data v]
  · intro v
    simp only [List.filterMap_append, filterMap_writesOf (Operation.readOf v) _ _ fun _ _ => rfl]
    by_cases own : v = u
    · subst own
      cases read : session.outstanding <;> simp [read, others, Operation.readOf]
    · have other : ¬ u = v := fun same => own same.symm
      have before := outstanding v
      simp only [Operation.readOf, if_neg other] at before
      rw [Function.update_of_ne own, before]
      cases session.outstanding <;> simp [Operation.readOf, other]
  · intro v
    have before := writes v
    simp only [Operation.writeOf] at before
    change room.writes v ++ _ = _
    rw [before]
    cases session.outstanding <;> simp [Operation.writeOf]

theorem Represents.write (rep : Represents s room) {front back : List Operation} {u : Nat} {p : Packet}
    (whole : s.operations = front ++ .write u p :: back) :
    ∃ index < (room.writes u).length, Represents { s with operations := front ++ back }
      { room with writes := Function.update room.writes u ((room.writes u).eraseIdx index) } := by
  have accepting := rep.accepting
  have outstanding := rep.outstanding
  have writes := rep.writes
  simp only [whole, List.filterMap_append, List.filterMap_cons] at accepting outstanding writes
  have own := writes u
  simp only [Operation.writeOf, if_true] at own
  refine ⟨(front.filterMap (Operation.writeOf u)).length, ?_, rep.users, rep.created, ?_, rep.data, ?_, ?_⟩
  · rw [own, List.length_append, List.length_cons]
    omega
  · simp only [List.filterMap_append]
    exact accepting
  · intro v
    simp only [List.filterMap_append]
    exact outstanding v
  · intro v
    by_cases same : v = u
    · subst same
      simp only [Function.update_self, own, List.filterMap_append]
      rw [List.eraseIdx_append_of_length_le (Nat.le_refl _), Nat.sub_self, List.eraseIdx_cons_zero]
    · have other : ¬ u = v := fun equal => same equal.symm
      have before := writes v
      simp only [Operation.writeOf, if_neg other] at before
      simp [same, before, Operation.writeOf]

theorem Represents.refused (rep : Represents s room) {front back : List Operation} {u : Nat}
    (whole : s.operations = front ++ .accept u :: back) :
    Represents { s with operations := front ++ back } { room with accepting := none } := by
  have accepts := rep.accepts whole
  have outstanding := rep.outstanding
  have writes := rep.writes
  simp only [whole, List.filterMap_append, List.filterMap_cons] at outstanding writes
  refine ⟨rep.users, rep.created, ?_, rep.data, fun v => ?_, fun v => ?_⟩
  · simp only [List.filterMap_append, accepts.2.1, accepts.2.2]
    rfl
  · simp only [List.filterMap_append]
    exact outstanding v
  · simp only [List.filterMap_append]
    exact writes v

/-- A new session reads its first header and is a user, and the next accept is pending. -/
theorem Represents.admit (rep : Represents s room) (answered : room.accepting = none) {u : Nat}
    (silent : s.operations.filterMap (Operation.readOf u) = []) (log : List Action) :
    Represents
      { s with
        users := s.users ++ [u]
        operations := s.operations ++ [.read u .header] ++ [.accept s.created]
        created := s.created + 1 }
      { room with
        users := room.users ++ [u]
        accepting := some room.created
        created := room.created + 1
        sessions := Function.update room.sessions u ⟨(room.sessions u).data, some .header, log⟩ } := by
  have accepting := rep.accepting
  rw [answered] at accepting
  refine ⟨?_, ?_, ?_, fun v => ?_, fun v => ?_, fun v => ?_⟩
  · rw [rep.users]
  · rw [rep.created]
  · simp only [List.filterMap_append, ← accepting, rep.created]
    rfl
  · by_cases own : v = u
    · subst own
      simp [rep.data v]
    · simp [own, rep.data v]
  · simp only [List.filterMap_append]
    by_cases own : v = u
    · subst own
      simp [silent, Operation.readOf]
    · have other : ¬ u = v := fun same => own same.symm
      simp [own, other, rep.outstanding v, Operation.readOf]
  · simp only [List.filterMap_append, ← rep.writes v]
    simp [Operation.writeOf]

theorem foldl_broadcast (packets : List Packet) (room : Room) :
    ∃ broadcasts sent, packets.foldl Room.broadcast room =
      { room with
        writes := fun v => room.writes v ++ (writesOf room.users packets).filterMap (Operation.writeOf v)
        broadcasts
        sent } := by
  induction packets generalizing room with
  | nil =>
      refine ⟨room.broadcasts, room.sent, ?_⟩
      simp [writesOf]
  | cons p packets ih =>
      obtain ⟨sent, sends⟩ := foldl_send p room.users { room with broadcasts := room.broadcasts ++ [p] }
      obtain ⟨broadcasts, sent', rest⟩ := ih (room.broadcast p)
      refine ⟨broadcasts, sent', ?_⟩
      rw [List.foldl_cons, rest, Room.broadcast, sends]
      simp only [writesOf, List.flatMap_cons, List.filterMap_append, List.append_assoc]

/-- The room's model does what the handler of a read makes the io_service do. -/
theorem Represents.handle (rep : Represents s room) {front back : List Operation} {u : Nat} {read : Read}
    (whole : s.operations = front ++ .read u read :: back) (c : Completion) :
    Represents
      ((((room.sessions u).actions c).flatMap (perform u)).foldl exec
        { s with
          operations := front ++ back
          data := Function.update s.data u ((room.sessions u).arrived c) })
      (room.next (.read u c)) := by
  have quiet := rep.read whole [] ((room.sessions u).next c) s.task room.broadcasts room.sent
  simp only [writesOf, List.flatMap_nil, List.filterMap_nil, List.append_nil] at quiet
  cases c with
  | header result => exact quiet
  | body result returned =>
      cases result with
      | error bytes =>
          have ended : ((room.sessions u).next (.body (.error bytes) returned)).outstanding = none := rfl
          rw [ended, Option.toList_none, List.map_nil, List.append_nil] at quiet
          exact quiet
      | ok bytes =>
          let session := (room.sessions u).next (.body (.ok bytes) returned)
          let replies := (GameServer.passTask returned).toList
          obtain ⟨broadcasts, sent, told⟩ := foldl_broadcast replies (room.setSession u session)
          have moved := rep.read whole replies session none broadcasts sent
          have step : room.next (.read u (.body (.ok bytes) returned)) =
              replies.foldl Room.broadcast (room.setSession u session) := by
            change (GameServer.passTask returned).elim _ _ = _
            cases reply : GameServer.passTask returned <;> simp [replies, reply, session]
          have calls : ((room.sessions u).actions (.body (.ok bytes) returned)).flatMap (perform u) =
              perform u (.passTask (Packet.ofArray
                ((room.sessions u).arrived (.body (.ok bytes) returned))) returned) ++
                perform u (.asyncRead .header) := rfl
          rw [step, told, calls, List.foldl_append, perform_passTask, perform_asyncRead]
          rw [← rep.users] at moved ⊢
          exact moved

/-- A session that has not been accepted yet has nothing to read. -/
theorem Tended.unread (tended : s.Tended []) {front back : List Operation} {u : Nat}
    (whole : s.operations = front ++ .accept u :: back) : (front ++ back).filterMap (Operation.readOf u) = [] := by
  have once := tended.once
  simp only [links, whole, List.filterMap_append, List.filterMap_cons, Operation.chain, List.filterMap_nil,
    List.append_nil, List.nodup_middle, List.nodup_cons] at once
  rw [List.filterMap_eq_nil_iff]
  intro op member
  cases op with
  | accept v => rfl
  | write v p => rfl
  | read v r =>
      apply if_neg
      intro same
      apply once.1
      rw [← List.filterMap_append]
      exact List.mem_filterMap.mpr ⟨_, member, congrArg some same⟩

/-- A completion of the io_service is one of the room's. -/
theorem Represents.next {ar : TextArchive} {e : Event} (rep : Represents s room) (tended : s.Tended [])
    (may : enabled ar s e) :
    ∃ event, (roomSystem ar).enabled room event ∧ Represents ((ioLoop ar).system.next s e) (room.next event) := by
  obtain ⟨op, found, fits⟩ := may
  obtain ⟨index, outcome⟩ := e
  obtain ⟨front, back, whole, erased⟩ := split_eraseIdx found
  change ∃ event, Room.enabled ar room event ∧ Represents ((ioLoop ar).next s ⟨index, outcome⟩) (room.next event)
  cases op with
  | accept u =>
      obtain ⟨accepting, none⟩ := rep.accepts whole
      cases outcome with
      | read c => cases fits
      | write error => cases fits
      | accept error =>
          refine ⟨.accept error, by rw [Room.enabled, accepting]; rfl, ?_⟩
          have refused := rep.refused whole
          rw [next_accept ar found, erased]
          cases error with
          | true =>
              simp only [Room.next, accepting, Option.elim_some, Room.handleAccept, if_true]
              exact refused
          | false =>
              simp only [Room.next, accepting, Option.elim_some, Room.handleAccept, Bool.false_eq_true, if_false]
              exact refused.admit rfl (tended.unread whole) ((room.sessions u).log ++ Server.start)
  | write u p =>
      cases outcome with
      | read c => cases fits
      | accept error => cases fits
      | write error =>
          obtain ⟨position, inside, moved⟩ := rep.write whole
          refine ⟨.write u position error, inside, ?_⟩
          rw [next_write ar found, erased]
          exact moved
  | read u read =>
      cases outcome with
      | accept error => cases read <;> cases fits
      | write error => cases read <;> cases fits
      | read c =>
          have outstanding := (rep.reads whole).1
          have arrived : (room.sessions u).arrived c = Completion.store (s.data u) c := by
            rw [← rep.data u]
            cases c <;> rfl
          refine ⟨.read u c, ?_, ?_⟩
          · cases c with
            | header result =>
                cases read with
                | body len => cases fits
                | header => exact ⟨⟨outstanding, fits⟩, fun _ _ impossible => by cases impossible⟩
            | body result returned =>
                cases read with
                | header => cases fits
                | body len =>
                    refine ⟨⟨len, outstanding, fits.1⟩, fun result' returned' same => ?_⟩
                    cases same
                    rw [arrived]
                    exact fits.2
          · rw [next_read ar found c (room.sessions u) (rep.data u), erased]
            exact rep.handle whole c

end Step

/-- Every run of the io_service is a run of the room. -/
theorem run_represented (ar : TextArchive) (memory : Nat → WArray) (events : List Event)
    (valid : (ioLoop ar).system.Valid (start memory) events) :
    ∃ moves, (roomSystem ar).Valid (Room.start memory) moves ∧
      Represents ((ioLoop ar).system.run (start memory) events)
        ((roomSystem ar).run (Room.start memory) moves) := by
  have keeps (s : IoService) (e : Event) (tended : s.Tended []) (may : enabled ar s e) :
      ((ioLoop ar).system.next s e).Tended [] := (keeps_tended ar).next tended may
  have step (s : IoService) (room : Room) (e : Event) (tended : s.Tended []) (rep : Represents s room)
      (may : enabled ar s e) := rep.next tended may
  exact (ioLoop ar).system.exists_simulating_run (roomSystem ar) keeps step (tended_start memory)
    (represents_start memory) valid

end GameServer.IoService
