import GameServer.ServerProcess
import GameServer.ThreadPoolLoad

set_option autoImplicit false

/- While the thread of the io_service waits for the pool no other handler runs, so there
is never more than one task, and never a second thread at the mutex of a room. -/
namespace GameServer

open Base

namespace ThreadPool

/-- A call of handle_accept that has not returned, for a room. -/
def Accept.For {R : Type} (r : R) : Accept R → Prop
  | .locking room => room = r
  | .inside room => room = r
  | .returned => False

namespace Pool

variable {n : Nat} {R : Type} {ar : TextArchive} {s : Pool n R}

/-- What the tasks have returned is what Parse makes of their packets. -/
def Parsed (ar : TextArchive) (s : Pool n R) : Prop :=
  ∀ m ∈ s.ran, ∃ scratch, m.2 = (Server.parse ar scratch m.1.packet.data).value

theorem Parsed.next [DecidableEq R] (parsed : s.Parsed ar) (step : ThreadPool.Step n R) (may : s.enabled ar step) :
    (s.next step).Parsed ar := by
  cases step with
  | parse w task result =>
      intro m member
      rcases List.mem_append.mp member with before | now
      · exact parsed m before
      · rw [List.mem_singleton.mp now]
        exact may.2
  | notify k c woken => cases woken <;> exact parsed
  | _ => exact parsed

section Calls

/-- A call of PassTask in progress. -/
def Calling (s : Pool n R) (k : Nat) (r : R) (packet : Packet) : Prop :=
  ∃ c, s.calls k = some c ∧ c.phase.InProgress ∧ c.room = r ∧ c.packet = packet

/-- A call of handle_accept in progress. -/
def Accepting (s : Pool n R) (a : Nat) (r : R) : Prop := ∃ accept, s.accepts a = some accept ∧ accept.For r

theorem calling_setCall (k : Nat) (c : PassCall R) (phase : Phase) (k' : Nat) (r : R) (packet : Packet) :
    (s.setCall k c phase).Calling k' r packet ↔
      k' = k ∧ phase.InProgress ∧ c.room = r ∧ c.packet = packet ∨ k' ≠ k ∧ s.Calling k' r packet := by
  unfold Calling
  rw [setCall_eq]
  by_cases same : k' = k
  · rw [if_pos same]
    simp only [same, Option.some.injEq, exists_eq_left', true_and, ne_eq, not_true_eq_false, false_and, or_false]
  · rw [if_neg same]
    simp only [same, false_and, ne_eq, not_false_eq_true, true_and, false_or]

theorem accepting_setAccept (a : Nat) (accept : Accept R) (a' : Nat) (r : R) :
    (s.setAccept a accept).Accepting a' r ↔ a' = a ∧ accept.For r ∨ a' ≠ a ∧ s.Accepting a' r := by
  unfold Accepting
  rw [setAccept_eq]
  by_cases same : a' = a
  · rw [if_pos same]
    simp only [same, Option.some.injEq, exists_eq_left', true_and, ne_eq, not_true_eq_false, false_and, or_false]
  · rw [if_neg same]
    simp only [same, false_and, ne_eq, not_false_eq_true, true_and, false_or]

/-- A call that goes on is in progress before and behind its step. -/
theorem calling_setCall_iff {k : Nat} {c : PassCall R} {phase : Phase} (here : s.calls k = some c)
    (progress : c.phase.InProgress) (goes : phase.InProgress) (k' : Nat) (r : R) (packet : Packet) :
    (s.setCall k c phase).Calling k' r packet ↔ s.Calling k' r packet := by
  rw [calling_setCall]
  by_cases same : k' = k
  · subst same
    simp only [Calling, here, progress, goes, Option.some.injEq, exists_eq_left', true_and, ne_eq,
      not_true_eq_false, false_and, or_false]
  · simp only [same, false_and, ne_eq, not_false_eq_true, true_and, false_or]

end Calls

end Pool

end ThreadPool

namespace ServerProcess

variable {n : Nat} {R : Type} {ar : TextArchive} {s : ServerProcess n R}

/-- The one call of PassTask or handle_accept in progress is the one the thread is in. -/
structure Alone (s : ServerProcess n R) : Prop where
  passing : ∀ k r u bytes, s.thread = .passing k r u bytes →
    s.pool.Calling k r (Packet.ofArray ((s.rooms r).sessions u).data)
  calls : ∀ k r packet, s.pool.Calling k r packet → ∃ u bytes, s.thread = .passing k r u bytes
  accepting : ∀ a r, s.thread = .accepting a r → s.pool.Accepting a r
  accepts : ∀ a r, s.pool.Accepting a r → s.thread = .accepting a r

/-- Everything that holds in every state of the process. -/
structure Good (ar : TextArchive) (s : ServerProcess n R) : Prop where
  pool : s.pool.Good
  running : s.pool.stop = false
  parsed : s.pool.Parsed ar
  alone : s.Alone

section Alone

/-- The pool's step neither starts a call nor ends one. -/
theorem Alone.of_iff (alone : s.Alone) (pool : ThreadPool.Pool n R)
    (calls : ∀ k r packet, pool.Calling k r packet ↔ s.pool.Calling k r packet)
    (accepts : ∀ a r, pool.Accepting a r ↔ s.pool.Accepting a r) : Alone { s with pool := pool } := by
  refine ⟨?_, ?_, ?_, ?_⟩
  · intro k r u bytes thread
    exact (calls k r _).mpr (alone.passing k r u bytes thread)
  · intro k r packet calling
    exact alone.calls k r packet ((calls k r packet).mp calling)
  · intro a r thread
    exact (accepts a r).mpr (alone.accepting a r thread)
  · intro a r accepting
    exact alone.accepts a r ((accepts a r).mp accepting)

theorem Alone.of_idle {s' : ServerProcess n R} (idle : s'.thread = .idle)
    (calls : ∀ k r packet, ¬ s'.pool.Calling k r packet) (accepts : ∀ a r, ¬ s'.pool.Accepting a r) : s'.Alone := by
  refine ⟨?_, ?_, ?_, ?_⟩
  · intro k r u bytes thread
    rw [idle] at thread
    cases thread
  · intro k r packet calling
    exact absurd calling (calls k r packet)
  · intro a r thread
    rw [idle] at thread
    cases thread
  · intro a r accepting
    exact absurd accepting (accepts a r)

/-- Only the call the thread is in can be in progress. -/
theorem Alone.not_calling (alone : s.Alone) {k : Nat} (other : ∀ r u bytes, s.thread ≠ .passing k r u bytes) (r : R)
    (packet : Packet) : ¬ s.pool.Calling k r packet := by
  intro calling
  obtain ⟨u, bytes, thread⟩ := alone.calls k r packet calling
  exact other r u bytes thread

theorem Alone.not_accepting (alone : s.Alone) {a : Nat} {r : R} (other : s.thread ≠ .accepting a r) :
    ¬ s.pool.Accepting a r := fun accepting => other (alone.accepts a r accepting)

variable [DecidableEq R]

/-- The task's packet is a copy of `data_` as it is from then on. -/
theorem packet_receive (s : ServerProcess n R) (k : Nat) (r : R) (u : Nat) (bytes : List UInt8) :
    s.packet r u bytes = Packet.ofArray (((s.next (.receive k r u bytes)).rooms r).sessions u).data := by
  simp only [packet, next, setRoom, Room.arriving, Room.setSession, Function.update_self]

theorem Alone.receive (alone : s.Alone) (k : Nat) (r : R) (u : Nat) (bytes : List UInt8) (idle : s.thread = .idle) :
    (s.next (.receive k r u bytes)).Alone := by
  refine ⟨?_, ?_, ?_, ?_⟩
  · intro k' r' u' bytes' thread
    cases thread
    apply (ThreadPool.Pool.calling_setCall ..).mpr
    exact Or.inl ⟨rfl, trivial, rfl, s.packet_receive k r u bytes⟩
  · intro k' r' packet calling
    rcases (ThreadPool.Pool.calling_setCall ..).mp calling with ⟨rfl, _, rfl, _⟩ | ⟨_, before⟩
    · exact ⟨u, bytes, rfl⟩
    · exact absurd before (alone.not_calling (fun _ _ _ => by rw [idle]; simp) r' packet)
  · intro a r' thread
    cases thread
  · intro a r' accepting
    exact absurd accepting (alone.not_accepting (by rw [idle]; simp))

theorem Alone.accept (alone : s.Alone) (a : Nat) (r : R) (idle : s.thread = .idle) : (s.next (.accept a r)).Alone := by
  refine ⟨?_, ?_, ?_, ?_⟩
  · intro k r' u bytes thread
    cases thread
  · intro k r' packet calling
    exact absurd calling (alone.not_calling (fun _ _ _ => by rw [idle]; simp) r' packet)
  · intro a' r' thread
    cases thread
    exact (ThreadPool.Pool.accepting_setAccept ..).mpr (Or.inl ⟨rfl, rfl⟩)
  · intro a' r' accepting
    rcases (ThreadPool.Pool.accepting_setAccept ..).mp accepting with ⟨rfl, room⟩ | ⟨_, before⟩
    · change r = r' at room
      rw [← room]
      rfl
    · exact absurd before (alone.not_accepting (by rw [idle]; simp))

/-- The call the thread is in ends. -/
theorem Alone.collect (alone : s.Alone) (k : Nat) (c : ThreadPool.PassCall R) (result : TaskResult)
    (runs : s.thread.Runs (n := n) (.collect k c result)) : (s.next (.pool (.collect k c result))).Alone := by
  obtain ⟨r, u, bytes, thread⟩ := runs
  have step : s.next (.pool (.collect k c result)) =
      { ({ s with pool := s.pool.next (.collect k c result) } : ServerProcess n R).setRoom r
          ((s.rooms r).resume u result) with thread := .idle } := by
    rw [next, thread]
    rfl
  rw [step]
  apply Alone.of_idle rfl
  · intro k' r' packet calling
    rcases (ThreadPool.Pool.calling_setCall (s := s.pool) k c .returned k' r' packet).mp calling with
      ⟨_, impossible, _⟩ | ⟨other, before⟩
    · exact impossible
    · refine alone.not_calling (fun r'' u' bytes' same => ?_) r' packet before
      rw [thread] at same
      cases same
      exact other rfl
  · intro a r' accepting
    exact alone.not_accepting (by rw [thread]; simp) accepting

theorem Alone.leaveAccept (alone : s.Alone) (a : Nat) (r : R) (runs : s.thread.Runs (n := n) (.leaveAccept a r)) :
    (s.next (.pool (.leaveAccept a r))).Alone := by
  obtain ⟨r', thread⟩ := runs
  have step : s.next (.pool (.leaveAccept a r)) =
      { ({ s with pool := s.pool.next (.leaveAccept a r) } : ServerProcess n R).setRoom r'
          ((s.rooms r').next (.accept false)) with thread := .idle } := by
    rw [next, thread]
    rfl
  rw [step]
  apply Alone.of_idle rfl
  · intro k r'' packet calling
    exact alone.not_calling (fun _ _ _ => by rw [thread]; simp) r'' packet calling
  · intro a' r'' accepting
    rcases (ThreadPool.Pool.accepting_setAccept (s := s.pool) a .returned a' r'').mp accepting with
      ⟨_, impossible⟩ | ⟨other, before⟩
    · exact impossible
    · refine alone.not_accepting (fun same => ?_) before
      rw [thread] at same
      cases same
      exact other rfl

theorem follow_of_ne (s : ServerProcess n R) (thread : IoThread R) (step : ThreadPool.Step n R)
    (collect : ∀ k c result, step ≠ .collect k c result) (leave : ∀ a r, step ≠ .leaveAccept a r) :
    s.follow thread step = s := by
  cases step with
  | collect k c result => exact absurd rfl (collect k c result)
  | leaveAccept a r => exact absurd rfl (leave a r)
  | _ => cases thread <;> rfl

/-- What a step in the pool leaves of the calls, unless it ends one. -/
theorem Alone.pool (alone : s.Alone) (step : ThreadPool.Step n R) (runs : s.thread.Runs step)
    (may : s.pool.enabled ar step) : (s.next (.pool step)).Alone := by
  have worker (unchanged : (s.pool.next step).calls = s.pool.calls ∧ (s.pool.next step).accepts = s.pool.accepts) :
      Alone { s with pool := s.pool.next step } := by
    apply alone.of_iff
    · intro k r packet
      rw [ThreadPool.Pool.Calling, unchanged.1]
      rfl
    · intro a r
      rw [ThreadPool.Pool.Accepting, unchanged.2]
      rfl
  cases step with
  | collect k c result => exact alone.collect k c result runs
  | leaveAccept a r => exact alone.leaveAccept a r runs
  | push k c =>
      rw [next, follow_of_ne _ _ _ (by simp) (by simp)]
      exact alone.of_iff _ (ThreadPool.Pool.calling_setCall_iff may.1 (by rw [may.2.1]; trivial) trivial)
        (fun _ _ => Iff.rfl)
  | notify k c woken =>
      rw [next, follow_of_ne _ _ _ (by simp) (by simp)]
      have moved : Alone { s with pool := s.pool.setCall k c .waiting } :=
        alone.of_iff _ (ThreadPool.Pool.calling_setCall_iff may.1 (by rw [may.2.1]; trivial) trivial)
          (fun _ _ => Iff.rfl)
      cases woken <;> exact ⟨moved.passing, moved.calls, moved.accepting, moved.accepts⟩
  | lockAccept a r =>
      rw [next, follow_of_ne _ _ _ (by simp) (by simp)]
      refine alone.of_iff (s.pool.next (.lockAccept a r)) (fun _ _ _ => Iff.rfl) (fun a' r' => ?_)
      apply (ThreadPool.Pool.accepting_setAccept ..).trans
      by_cases same : a' = a
      · subst same
        simp only [ThreadPool.Pool.Accepting, ThreadPool.Accept.For, may.1, Option.some.injEq, exists_eq_left',
          true_and, ne_eq,
          not_true_eq_false, false_and, or_false]
      · simp only [same, false_and, ne_eq, not_false_eq_true, true_and, false_or]
  | pass k r packet => exact runs.elim
  | reject k c => exact runs.elim
  | exit w => exact runs.elim
  | accept a r => exact runs.elim
  | stop => exact runs.elim
  | notifyAll => exact runs.elim
  | _ =>
      rw [next, follow_of_ne _ _ _ (by simp) (by simp)]
      exact worker ⟨rfl, rfl⟩

end Alone

section Runs

theorem good_start (memory : R → Nat → WArray) : (start memory : ServerProcess n R).Good ar := by
  refine ⟨ThreadPool.Pool.good_start, rfl, fun m member => ?_, Alone.of_idle rfl ?_ ?_⟩
  · cases member
  · rintro k r packet ⟨c, here, _⟩
    cases here
  · rintro a r ⟨accept, here, _⟩
    cases here

variable [DecidableEq R]

theorem pool_follow (s : ServerProcess n R) (thread : IoThread R) (step : ThreadPool.Step n R) :
    (s.follow thread step).pool = s.pool := by
  unfold follow
  split <;> rfl

/-- Every move is a step of the pool or leaves it alone. -/
theorem Good.next_pool (good : s.Good ar) (positive : 0 < n) (step : ThreadPool.Step n R)
    (may : s.pool.enabled ar step) (goes : step ≠ .stop) :
    (s.pool.next step).Good ∧ (s.pool.next step).stop = false ∧ (s.pool.next step).Parsed ar := by
  refine ⟨good.pool.next positive step may, ?_, good.parsed.next step may⟩
  rw [← good.running]
  cases step with
  | stop => exact absurd rfl goes
  | notify k c woken => cases woken <;> rfl
  | _ => rfl

theorem Good.next (good : s.Good ar) (positive : 0 < n) (move : Move n R) (may : s.enabled ar move) :
    (s.next move).Good ar := by
  cases move with
  | handler r e =>
      refine ⟨good.pool, good.running, good.parsed, Alone.of_idle may.1 ?_ ?_⟩
      · exact fun k r packet => good.alone.not_calling (fun _ _ _ => by rw [may.1]; simp) r packet
      · exact fun a r => good.alone.not_accepting (by rw [may.1]; simp)
  | receive k r u bytes =>
      obtain ⟨pool, running, parsed⟩ := good.next_pool positive (.pass k r (s.packet r u bytes)) may.2.1 (by simp)
      exact ⟨pool, running, parsed, good.alone.receive k r u bytes may.1⟩
  | accept a r =>
      obtain ⟨pool, running, parsed⟩ := good.next_pool positive (.accept a r) may.2.1 (by simp)
      exact ⟨pool, running, parsed, good.alone.accept a r may.1⟩
  | pool step =>
      obtain ⟨pool, running, parsed⟩ := good.next_pool positive step may.2 (by rintro rfl; exact may.1.elim)
      have alone := good.alone.pool step may.1 may.2
      refine ⟨?_, ?_, ?_, alone⟩ <;> rw [ServerProcess.next, pool_follow]
      · exact pool
      · exact running
      · exact parsed

theorem good_run (positive : 0 < n) (memory : R → Nat → WArray) (moves : List (Move n R))
    (valid : (serverProcessSystem n R ar).Valid (start memory) moves) :
    ((serverProcessSystem n R ar).run (start memory) moves).Good ar := by
  refine System.invariant _ (fun s move (good : s.Good ar) may => ?_) (good_start memory) valid
  exact good.next positive move may

end Runs

section Single

/-- All unfinished tasks belong to the call the thread is in. -/
theorem Good.call_of_inFlight (good : s.Good ar) {t : ThreadPool.Task R} (member : t ∈ s.pool.inFlight) :
    ∃ u bytes, s.thread = .passing t.call t.room u bytes := by
  obtain ⟨enqueued, unset⟩ := good.pool.inFlight_unset member
  obtain ⟨c, here, task, progress⟩ := good.pool.inProgress enqueued unset
  exact good.alone.calls t.call t.room t.packet ⟨c, here, progress, by rw [← task]; rfl, by rw [← task]; rfl⟩

theorem Good.inFlight_le (good : s.Good ar) : s.pool.inFlight.length ≤ 1 := by
  have nodup := good.pool.inFlight_nodup
  cases tasks : s.pool.inFlight with
  | nil => exact Nat.zero_le 1
  | cons t rest =>
      cases rest with
      | nil => exact Nat.le_refl 1
      | cons t' rest =>
          obtain ⟨u, bytes, thread⟩ := good.call_of_inFlight (t := t) (by rw [tasks]; simp)
          obtain ⟨u', bytes', thread'⟩ := good.call_of_inFlight (t := t') (by rw [tasks]; simp)
          rw [thread, IoThread.passing.injEq] at thread'
          rw [tasks, List.map_cons, List.map_cons, thread'.1] at nodup
          exact absurd List.mem_cons_self (List.nodup_cons.mp nodup).1

/-- The owner of a room's mutex, if any, is what the thread waits for or the thread itself. -/
theorem Good.owner (good : s.Good ar) {r : R} {owner : ThreadPool.Owner n} (held : s.pool.mutex r = some owner) :
    (∃ w t, owner = .worker w ∧ t ∈ s.pool.inFlight ∧ s.pool.workers w = .parsing t ∧ t.room = r) ∨
      ∃ a, owner = .accept a ∧ s.thread = .accepting a r := by
  cases owner with
  | worker w =>
      obtain ⟨t, parsing, room⟩ := good.pool.locked.worker r w held
      refine Or.inl ⟨w, t, rfl, ?_, parsing, room⟩
      apply List.mem_append_right
      exact List.mem_filterMap.mpr ⟨w, List.mem_finRange w, by rw [parsing]; rfl⟩
  | accept a =>
      exact Or.inr ⟨a, rfl, good.alone.accepts a r ⟨_, good.pool.locked.accept r a held, rfl⟩⟩

/-- Nothing runs in parallel: there is at most one unfinished task, it is the one the
thread waits for, and whoever is about to lock the mutex of a room finds it free. -/
structure Sequential (s : ServerProcess n R) : Prop where
  tasks : s.pool.inFlight.length ≤ 1
  waiting : ∀ t ∈ s.pool.inFlight, ∃ u bytes, s.thread = .passing t.call t.room u bytes
  worker : ∀ w t, s.pool.workers w = .popped t → s.pool.mutex t.room = none
  accept : ∀ a r, s.thread = .accepting a r → s.pool.inFlight = [] ∧
    (s.pool.accepts a = some (.locking r) → s.pool.mutex r = none)

theorem Good.sequential (good : s.Good ar) : s.Sequential := by
  have held (w : Fin n) (t : ThreadPool.Task R) (has : (s.pool.workers w).task? = some t) : t ∈ s.pool.inFlight :=
    List.mem_append_right _ (List.mem_filterMap.mpr ⟨w, List.mem_finRange w, has⟩)
  have none_of_accepting {a : Nat} {r : R} (thread : s.thread = .accepting a r) : s.pool.inFlight = [] := by
    apply List.eq_nil_iff_forall_not_mem.mpr
    intro t member
    obtain ⟨u, bytes, passing⟩ := good.call_of_inFlight member
    rw [thread] at passing
    cases passing
  refine ⟨good.inFlight_le, fun t member => good.call_of_inFlight member, ?_, ?_⟩
  · intro w t popped
    have mine := held w t (by rw [popped]; rfl)
    cases owned : s.pool.mutex t.room with
    | none => rfl
    | some owner =>
        rcases good.owner owned with ⟨w', t', _, member, parsing, _⟩ | ⟨a, _, thread⟩
        · have same : t.call = t'.call := by
            obtain ⟨u, bytes, thread⟩ := good.call_of_inFlight mine
            obtain ⟨u', bytes', thread'⟩ := good.call_of_inFlight member
            rw [thread, IoThread.passing.injEq] at thread'
            exact thread'.1
          have worker := good.pool.worked.apart w w' t t' (by rw [popped]; rfl) (by rw [parsing]; rfl) same
          rw [← worker, popped] at parsing
          cases parsing
        · rw [none_of_accepting thread] at mine
          cases mine
  · intro a r thread
    refine ⟨none_of_accepting thread, fun locking => ?_⟩
    cases owned : s.pool.mutex r with
    | none => rfl
    | some owner =>
        rcases good.owner owned with ⟨w, t, _, member, _, _⟩ | ⟨a', rfl, thread'⟩
        · rw [none_of_accepting thread] at member
          cases member
        · rw [thread, IoThread.accepting.injEq] at thread'
          have inside := good.pool.locked.accept r a' owned
          rw [← thread'.1, locking] at inside
          cases inside

/-- For any number of rooms, at least one worker, and every interleaving of the thread with
the workers. -/
theorem run_sequential [DecidableEq R] (positive : 0 < n) (memory : R → Nat → WArray) (moves : List (Move n R))
    (valid : (serverProcessSystem n R ar).Valid (start memory) moves) :
    ((serverProcessSystem n R ar).run (start memory) moves).Sequential :=
  (good_run positive memory moves valid).sequential

/-- What an array of zeros holds once a message with the number `t` has been received. -/
def testerPacket (t : UINT) : Packet :=
  Packet.ofArray ((Block.store (fun _ => 0) 0 (Room.testerHeader t)).store headerLen
    (wideBytes (TextArchive.boost.write t)))

def acceptMoves (a : Nat) (r : Fin 10) : List (Move 3 (Fin 10)) :=
  [.accept a r, .pool (.lockAccept a r), .pool (.leaveAccept a r)]

/-- A message of session `u`, until worker 1 has popped its task. -/
def testerMoves (r : Fin 10) (k u : Nat) (t : UINT) : List (Move 3 (Fin 10)) :=
  [.handler r (.read u (.header (.ok (Room.testerHeader t)))), .receive k r u (wideBytes (TextArchive.boost.write t)),
    .pool (.push k ⟨r, testerPacket t, .entered⟩), .pool (.pop 1 ⟨k, r, testerPacket t⟩)]

/-- The task is run, and PassTask broadcasts what it returns. -/
def answerMoves (r : Fin 10) (k : Nat) (t : UINT) : List (Move 3 (Fin 10)) :=
  [.pool (.notify k ⟨r, testerPacket t, .pushed⟩ none), .pool (.lock 1 ⟨k, r, testerPacket t⟩),
    .pool (.parse 1 ⟨k, r, testerPacket t⟩ (Room.reply t)), .pool (.fulfil 1 ⟨k, r, testerPacket t⟩ (Room.reply t)),
    .pool (.collect k ⟨r, testerPacket t, .waiting⟩ (Room.reply t))]

/-- Room 0 has two users. The first one's message is answered to both, a write ends, and
the second one's message has reached a worker. Room 1 has accepted a session meanwhile. -/
def answeredThenPopped : List (Move 3 (Fin 10)) :=
  acceptMoves 0 0 ++ acceptMoves 1 1 ++ acceptMoves 2 0 ++ testerMoves 0 0 0 42 ++ answerMoves 0 0 42 ++
    [.handler 0 (.write 1 0 false)] ++ testerMoves 0 1 1 7

theorem answeredThenPopped_valid :
    (serverProcessSystem 3 (Fin 10) .boost).Valid (start fun _ _ _ => 0) answeredThenPopped := by
  have reading {s : ServerProcess 3 (Fin 10)} {e : Room.Event} (idle : s.thread = .idle) (short : e.Short)
      (may : (s.rooms 0).enabled .boost e) : s.enabled .boost (.handler 0 e) := ⟨idle, short, may⟩
  have decoded : ∃ scratch, Room.reply 42 = (Server.parse .boost scratch (testerPacket 42).data).value :=
    ⟨cleared, Eq.symm (Server.parse_answered (by decide +kernel) (by decide +kernel))⟩
  have awake : ∀ w : Fin 3, ((serverProcessSystem 3 (Fin 10) .boost).run (start fun _ _ _ => 0)
      (answeredThenPopped.take 13)).pool.workers w ≠ .asleep := by
    intro w asleep
    match w with
    | 0 => cases asleep
    | 1 => cases asleep
    | 2 => cases asleep
  exact ⟨⟨rfl, rfl, rfl⟩, ⟨⟨0, rfl⟩, rfl, rfl⟩, ⟨⟨0, rfl⟩, rfl⟩,
    ⟨rfl, rfl, rfl⟩, ⟨⟨1, rfl⟩, rfl, rfl⟩, ⟨⟨1, rfl⟩, rfl⟩,
    ⟨rfl, rfl, rfl⟩, ⟨⟨0, rfl⟩, rfl, rfl⟩, ⟨⟨0, rfl⟩, rfl⟩,
    reading rfl trivial (Room.enabled_header ⟨rfl, by decide⟩), ⟨rfl, rfl, _, rfl, by decide⟩,
    ⟨⟨0, 0, _, rfl⟩, rfl, rfl, rfl⟩, ⟨trivial, rfl, rfl⟩,
    ⟨⟨0, 0, _, rfl⟩, rfl, rfl, awake⟩, ⟨trivial, rfl, rfl⟩, ⟨trivial, rfl, decoded⟩, ⟨trivial, rfl⟩,
    ⟨⟨0, 0, _, rfl⟩, rfl, rfl, rfl⟩,
    reading rfl trivial Nat.zero_lt_one,
    reading rfl trivial (Room.enabled_header ⟨rfl, by decide⟩), ⟨rfl, rfl, _, rfl, by decide⟩,
    ⟨⟨0, 1, _, rfl⟩, rfl, rfl, rfl⟩, ⟨trivial, rfl, rfl⟩, trivial⟩

theorem answeredThenPopped_sequential :
    ((serverProcessSystem 3 (Fin 10) .boost).run (start fun _ _ _ => 0) answeredThenPopped).Sequential :=
  run_sequential (by decide) _ _ answeredThenPopped_valid

end Single

end ServerProcess

end GameServer
