import GameServer.ServerProcessSafety

set_option autoImplicit false

/- The process seen from its rooms: a handler that waits for the pool or for a mutex takes
effect when it ends, so every room goes through a run of handlers that end at once. -/
namespace GameServer

open Base

namespace Room

theorem arriving_session (room : Room) (u : Nat) (bytes : List UInt8) : (room.arriving u bytes).sessions u =
    ⟨(room.sessions u).data.store headerLen bytes, none, (room.sessions u).log⟩ := Function.update_self ..

theorem log_arriving (room : Room) (u : Nat) (bytes : List UInt8) (v : Nat) :
    ((room.arriving u bytes).sessions v).log = (room.sessions v).log := by
  by_cases same : v = u
  · rw [same, arriving_session]
  · exact congrArg Session.log (Function.update_of_ne same ..)

/-- The session of a complete body, once PassTask returns, is where a handler without a
wait would have left it. -/
theorem resume_arriving (room : Room) (u : Nat) (bytes : List UInt8) (result : TaskResult) :
    (room.arriving u bytes).resume u result = room.next (.read u (.body (.ok bytes) result)) := by
  unfold resume
  rw [arriving_session]
  simp only [arriving, setSession, Function.update_idem]
  rfl

/-- A handler that does not call PassTask broadcasts nothing. -/
theorem message_of_short (room : Room) (e : Event) (short : e.Short) : room.message e = none := by
  cases e with
  | accept error => rfl
  | write u index error => rfl
  | read u c =>
      cases c with
      | header result => rfl
      | body result returned =>
          cases result with
          | ok bytes => cases short
          | error bytes => rfl

theorem broadcasts_next (room : Room) (good : room.Good) (e : Event) (message : room.message e = none) :
    (room.next e).broadcasts = room.broadcasts := by
  rw [(room.next_eq e good.nodup).2.1, message]
  exact List.append_nil _

end Room

namespace ServerProcess

variable {n : Nat} {R : Type} {ar : TextArchive}

/-- What the pool's calls have broadcast to a room. -/
def broadcastsTo [DecidableEq R] (s : ServerProcess n R) (r : R) : List Packet :=
  (s.pool.broadcasts.filter fun b => b.room = r).map ThreadPool.Broadcast.packet

/-- The handler that ends with a move. -/
def ended (s : ServerProcess n R) : Move n R → Option (R × Room.Event)
  | .handler r e => some (r, e)
  | .pool (.collect _ _ result) =>
      match s.thread with
      | .passing _ r u bytes => some (r, .read u (.body (.ok bytes) result))
      | _ => none
  | .pool (.leaveAccept _ _) =>
      match s.thread with
      | .accepting _ r => some (r, .accept false)
      | _ => none
  | _ => none

section Simulation

variable [DecidableEq R]

/-- `rooms` are the rooms as the handlers that have ended left them. -/
structure Behind (s : ServerProcess n R) (rooms : R → Room) : Prop where
  good : ∀ r, (rooms r).Good
  log : ∀ r, s.broadcastsTo r = (rooms r).broadcasts
  idle : s.thread = .idle → s.rooms = rooms
  accepting : ∀ a r, s.thread = .accepting a r → s.rooms = rooms ∧ (rooms r).accepting.isSome
  passing : ∀ k r u bytes, s.thread = .passing k r u bytes →
    s.rooms = Function.update rooms r ((rooms r).arriving u bytes) ∧
      ∃ len, ((rooms r).sessions u).outstanding = some (.body len) ∧ bytes.length = len.toNat

variable {s : ServerProcess n R} {rooms : R → Room}

theorem Behind.of_idle {s' : ServerProcess n R} {rooms' : R → Room} (good : ∀ r, (rooms' r).Good)
    (log : ∀ r, s'.broadcastsTo r = (rooms' r).broadcasts) (thread : s'.thread = .idle) (same : s'.rooms = rooms') :
    s'.Behind rooms' := by
  refine ⟨good, log, fun _ => same, ?_, ?_⟩
  · intro a r impossible
    rw [thread] at impossible
    cases impossible
  · intro k r u bytes impossible
    rw [thread] at impossible
    cases impossible

/-- The room of a handler that ends, and the others. -/
theorem Behind.good_next (ar : TextArchive) (behind : s.Behind rooms) (r : R) (e : Room.Event) (r' : R) :
    ((roomSystem ar).family.next rooms (r, e) r').Good := by
  change (Function.update rooms r ((rooms r).next e) r').Good
  by_cases same : r' = r
  · rw [same, Function.update_self]
    exact (behind.good r).next e
  · rw [Function.update_of_ne same]
    exact behind.good r'

theorem Behind.handler (behind : s.Behind rooms) (r : R) (e : Room.Event) (idle : s.thread = .idle) (short : e.Short) :
    (s.next (.handler r e)).Behind ((roomSystem ar).family.next rooms (r, e)) := by
  apply Behind.of_idle (behind.good_next ar r e)
  · intro r'
    rw [show (s.next (.handler r e)).broadcastsTo r' = s.broadcastsTo r' from rfl, behind.log]
    change _ = (Function.update rooms r ((rooms r).next e) r').broadcasts
    by_cases same : r' = r
    · rw [same, Function.update_self]
      exact (Room.broadcasts_next _ (behind.good r) e (Room.message_of_short _ e short)).symm
    · rw [Function.update_of_ne same]
  · exact idle
  · change Function.update s.rooms r ((s.rooms r).next e) = Function.update rooms r ((rooms r).next e)
    rw [behind.idle idle]

theorem Behind.receive (behind : s.Behind rooms) (k : Nat) (r : R) (u : Nat) (bytes : List UInt8)
    (may : s.enabled ar (.receive k r u bytes)) : (s.next (.receive k r u bytes)).Behind rooms := by
  obtain ⟨idle, _, reading⟩ := may
  rw [behind.idle idle] at reading
  refine ⟨behind.good, behind.log, ?_, ?_, ?_⟩
  · intro impossible
    cases impossible
  · intro a r' impossible
    cases impossible
  · intro k' r' u' bytes' thread
    cases thread
    refine ⟨?_, reading⟩
    change Function.update s.rooms r _ = _
    rw [behind.idle idle]

theorem Behind.accept (behind : s.Behind rooms) (a : Nat) (r : R) (may : s.enabled ar (.accept a r)) :
    (s.next (.accept a r)).Behind rooms := by
  obtain ⟨idle, _, pending⟩ := may
  rw [behind.idle idle] at pending
  refine ⟨behind.good, behind.log, ?_, ?_, ?_⟩
  · intro impossible
    cases impossible
  · intro a' r' thread
    cases thread
    exact ⟨behind.idle idle, pending⟩
  · intro k r' u bytes impossible
    cases impossible

/-- A step in the pool that ends no call broadcasts nothing. -/
theorem Behind.pool (behind : s.Behind rooms) (step : ThreadPool.Step n R)
    (collect : ∀ k c result, step ≠ .collect k c result) (leave : ∀ a r, step ≠ .leaveAccept a r) :
    (s.next (.pool step)).Behind rooms := by
  have same : (s.pool.next step).broadcasts = s.pool.broadcasts := by
    cases step with
    | collect k c result => exact absurd rfl (collect k c result)
    | notify k c woken => cases woken <;> rfl
    | _ => rfl
  rw [next, follow_of_ne _ _ _ collect leave]
  refine ⟨behind.good, fun r => ?_, behind.idle, behind.accepting, behind.passing⟩
  rw [broadcastsTo, same]
  exact behind.log r

/-- handle_accept ends. -/
theorem Behind.leaveAccept (behind : s.Behind rooms) (a : Nat) (r' : R)
    (runs : s.thread.Runs (n := n) (.leaveAccept a r')) :
    (roomSystem ar).family.Valid rooms (s.ended (.pool (.leaveAccept a r'))).toList ∧
      (s.next (.pool (.leaveAccept a r'))).Behind
        ((roomSystem ar).family.run rooms (s.ended (.pool (.leaveAccept a r'))).toList) := by
  obtain ⟨r, thread⟩ := runs
  obtain ⟨same, pending⟩ := behind.accepting a r thread
  have step : s.next (.pool (.leaveAccept a r')) =
      { ({ s with pool := s.pool.next (.leaveAccept a r') } : ServerProcess n R).setRoom r
          ((s.rooms r).next (.accept false)) with thread := .idle } := by
    rw [next, thread]
    rfl
  have ended : s.ended (.pool (.leaveAccept a r')) = some (r, .accept false) := by simp only [ended, thread]
  rw [ended, step]
  refine ⟨⟨pending, trivial⟩, ?_⟩
  apply Behind.of_idle (behind.good_next ar r (.accept false))
  · intro r''
    change s.broadcastsTo r'' = (Function.update rooms r ((rooms r).next (.accept false)) r'').broadcasts
    rw [behind.log]
    by_cases this : r'' = r
    · rw [this, Function.update_self]
      exact (Room.broadcasts_next _ (behind.good r) _ rfl).symm
    · rw [Function.update_of_ne this]
  · rfl
  · change Function.update s.rooms r ((s.rooms r).next (.accept false)) = _
    rw [same]
    rfl

/-- PassTask returns and handle_read_body ends. -/
theorem Behind.collect (behind : s.Behind rooms) (good : s.Good ar) (k : Nat) (c : ThreadPool.PassCall R)
    (result : TaskResult) (may : s.enabled ar (.pool (.collect k c result))) :
    (roomSystem ar).family.Valid rooms (s.ended (.pool (.collect k c result))).toList ∧
      (s.next (.pool (.collect k c result))).Behind
        ((roomSystem ar).family.run rooms (s.ended (.pool (.collect k c result))).toList) := by
  obtain ⟨⟨r, u, bytes, thread⟩, here, phase, ready⟩ := may
  obtain ⟨same, len, waiting, length⟩ := behind.passing k r u bytes thread
  have room : s.rooms r = (rooms r).arriving u bytes := by rw [same, Function.update_self]
  obtain ⟨c', there, _, which, packet⟩ := good.alone.passing k r u bytes thread
  rw [here, Option.some.injEq] at there
  subst there
  -- the future was set by the call's own task
  have returned : ∃ scratch, result = (Server.parse ar scratch c.packet.data).value :=
    good.parsed _ (good.pool.ran_of_future here ready)
  have arrived : c.packet = Packet.ofArray (((rooms r).sessions u).arrived (.body (.ok bytes) result)) := by
    rw [packet, room, Room.arriving_session]
    rfl
  have may : (roomSystem ar).family.enabled rooms (r, .read u (.body (.ok bytes) result)) := by
    refine ⟨⟨len, waiting, length⟩, fun result' returned' same => ?_⟩
    cases same
    rw [← arrived]
    exact returned
  have step : s.next (.pool (.collect k c result)) =
      { ({ s with pool := s.pool.next (.collect k c result) } : ServerProcess n R).setRoom r
          ((s.rooms r).resume u result) with thread := .idle } := by
    rw [next, thread]
    rfl
  have ended : s.ended (.pool (.collect k c result)) = some (r, .read u (.body (.ok bytes) result)) := by
    simp only [ended, thread]
  rw [ended, step, room, Room.resume_arriving]
  refine ⟨⟨may, trivial⟩, ?_⟩
  apply Behind.of_idle (behind.good_next ar r _)
  · intro r'
    change ((s.pool.broadcasts ++ (passTask result).toList.map fun packet =>
      (⟨c.room, k, packet⟩ : ThreadPool.Broadcast R)).filter _).map _ =
      (Function.update rooms r ((rooms r).next (.read u (.body (.ok bytes) result))) r').broadcasts
    rw [List.filter_append, List.map_append, which]
    have log : _ = (rooms r').broadcasts := behind.log r'
    rw [broadcastsTo] at log
    rw [log]
    by_cases this : r' = r
    · rw [this, Function.update_self, ((rooms r).next_eq _ (behind.good r).nodup).2.1]
      congr 1
      change _ = ([(_, result)] : List (Packet × TaskResult)).filterMap fun m => passTask m.2
      cases reply : passTask result with
      | none => simp [reply]
      | some p => simp [reply]
    · rw [Function.update_of_ne this]
      simp [Ne.symm this]
  · rfl
  · change Function.update s.rooms r _ = Function.update rooms r _
    rw [same, Function.update_idem]
    rfl

theorem Behind.next (behind : s.Behind rooms) (good : s.Good ar) (move : Move n R) (may : s.enabled ar move) :
    (roomSystem ar).family.Valid rooms (s.ended move).toList ∧
      (s.next move).Behind ((roomSystem ar).family.run rooms (s.ended move).toList) := by
  cases move with
  | handler r e =>
      refine ⟨⟨?_, trivial⟩, behind.handler r e may.1 may.2.1⟩
      have room := may.2.2
      rw [behind.idle may.1] at room
      exact room
  | receive k r u bytes => exact ⟨trivial, behind.receive k r u bytes may⟩
  | accept a r => exact ⟨trivial, behind.accept a r may⟩
  | pool step =>
      cases step with
      | collect k c result => exact behind.collect good k c result may
      | leaveAccept a r => exact behind.leaveAccept a r may.1
      | _ => exact ⟨trivial, behind.pool _ (by simp) (by simp)⟩

/-- What anyone but the session whose body is being handled can see of a room. -/
structure Shows (s : ServerProcess n R) (r : R) (room : Room) : Prop where
  users : (s.rooms r).users = room.users
  accepting : (s.rooms r).accepting = room.accepting
  broadcasts : (s.rooms r).broadcasts = room.broadcasts
  sent : (s.rooms r).sent = room.sent
  writes : (s.rooms r).writes = room.writes
  actions : ∀ u, ((s.rooms r).sessions u).log = (room.sessions u).log
  log : s.broadcastsTo r = room.broadcasts
  idle : s.thread = .idle → s.rooms r = room

theorem Behind.shows (behind : s.Behind rooms) (r : R) : s.Shows r (rooms r) := by
  have cases : s.rooms r = rooms r ∨ ∃ u bytes, s.rooms r = (rooms r).arriving u bytes := by
    cases thread : s.thread with
    | idle => exact Or.inl (by rw [behind.idle thread])
    | accepting a r' => exact Or.inl (by rw [(behind.accepting a r' thread).1])
    | passing k r' u bytes =>
        rw [(behind.passing k r' u bytes thread).1]
        by_cases this : r = r'
        · rw [this, Function.update_self]
          exact Or.inr ⟨u, bytes, rfl⟩
        · rw [Function.update_of_ne this]
          exact Or.inl rfl
  have idle : s.thread = .idle → s.rooms r = rooms r := fun thread => by rw [behind.idle thread]
  rcases cases with same | ⟨u, bytes, arriving⟩
  · rw [same] at idle
    exact ⟨by rw [same], by rw [same], by rw [same], by rw [same], by rw [same], fun u => by rw [same], behind.log r,
      by rw [same]; exact idle⟩
  · exact ⟨by rw [arriving]; rfl, by rw [arriving]; rfl, by rw [arriving]; rfl, by rw [arriving]; rfl,
      by rw [arriving]; rfl, fun v => by rw [arriving, Room.log_arriving], behind.log r, idle⟩

end Simulation

section Runs

variable [DecidableEq R]

theorem behind_start (memory : R → Nat → WArray) :
    (start memory : ServerProcess n R).Behind fun r => Room.start (memory r) :=
  Behind.of_idle (fun r => Room.good_start (memory r)) (fun _ => rfl) rfl rfl

/-- The handlers of room `r` that end in a run, in the order in which they end. -/
def endedIn (ar : TextArchive) (memory : R → Nat → WArray) (moves : List (Move n R)) (r : R) : List Room.Event :=
  System.own r ((serverProcessSystem n R ar).collect ended (start memory) moves)

/-- With at least one worker, and whatever the workers and the thread do: what a room has
accepted, broadcast and sent is what its handlers do when they end at once, in the order in
which they really end. -/
theorem run_serializable (positive : 0 < n) (memory : R → Nat → WArray) (moves : List (Move n R))
    (valid : (serverProcessSystem n R ar).Valid (start memory) moves) (r : R) :
    (roomSystem ar).Valid (Room.start (memory r)) (endedIn ar memory moves r) ∧
      ((serverProcessSystem n R ar).run (start memory) moves).Shows r
        ((roomSystem ar).run (Room.start (memory r)) (endedIn ar memory moves r)) := by
  obtain ⟨may, behind⟩ := System.simulate_collect (serverProcessSystem n R ar) (roomSystem ar).family ended
    (fun s move (good : s.Good ar) may => good.next positive move may)
    (fun s rooms move good (behind : s.Behind rooms) may => behind.next good move may)
    (good_start memory) (behind_start memory) valid
  have shown := behind.shows r
  rw [System.run_family] at shown
  exact ⟨System.valid_own (roomSystem ar) may r, shown⟩

/-- In the first room both users have been sent the answer; the second message's handler has
not ended. -/
theorem run_serializable_answered :
    ((roomSystem .boost).Valid (Room.start fun _ _ => 0) (endedIn .boost (fun _ _ _ => 0) answeredThenPopped 0) ∧
      ((serverProcessSystem 3 (Fin 10) .boost).run (start fun _ _ _ => 0) answeredThenPopped).Shows 0
        ((roomSystem .boost).run (Room.start fun _ _ => 0) (endedIn .boost (fun _ _ _ => 0) answeredThenPopped 0))) ∧
      endedIn .boost (fun _ _ _ => 0) answeredThenPopped 0 =
        [.accept false, .accept false] ++ Room.testerReads 0 42 ++
          [.write 1 0 false, .read 1 (.header (.ok (Room.testerHeader 7)))] ∧
      (((serverProcessSystem 3 (Fin 10) .boost).run (start fun _ _ _ => 0) answeredThenPopped).rooms 0).sent 1 =
        [(Server.doWork .boost cleared 42).value] :=
  ⟨run_serializable (by decide) (fun _ _ _ => 0) answeredThenPopped answeredThenPopped_valid 0, rfl, rfl⟩

end Runs

end ServerProcess

end GameServer
