import GameServer.ServerProcessSafety

set_option autoImplicit false

/- A handler that waits comes to its end: some thread can go on until it does, and there is
only so much for them to do. -/
namespace GameServer.ServerProcess

open Base

variable {n : Nat} {R : Type} {ar : TextArchive} {s : ServerProcess n R}

/-- A step a thread takes by itself while a handler waits. -/
def Move.works : Move n R → Bool
  | .pool (.wake _) => false
  | .pool _ => true
  | _ => false

/-- A sleeping worker wakes although nobody notified it. -/
def Move.wakes : Move n R → Bool
  | .pool (.wake _) => true
  | _ => false

/-- A step that starts no handler. -/
def Move.Inside : Move n R → Prop
  | .pool _ => True
  | _ => False

section Enabled

/-- What a thread of the pool can do by itself is a move of the process. -/
theorem Good.runs_of_internal (good : s.Good ar) (step : ThreadPool.Step n R) (inside : step.Internal)
    (may : s.pool.enabled ar step) : s.thread.Runs step := by
  have calling {k : Nat} {c : ThreadPool.PassCall R} (here : s.pool.calls k = some c) (progress : c.phase.InProgress) :
      ∃ r u bytes, s.thread = .passing k r u bytes := by
    obtain ⟨u, bytes, thread⟩ := good.alone.calls k c.room c.packet ⟨c, here, progress, rfl, rfl⟩
    exact ⟨c.room, u, bytes, thread⟩
  cases step with
  | push k c => exact calling may.1 (by rw [may.2.1]; trivial)
  | notify k c woken => exact calling may.1 (by rw [may.2.1]; trivial)
  | collect k c result => exact calling may.1 (by rw [may.2.1]; trivial)
  | reject k c =>
      have stopped := may.2.2
      rw [good.running] at stopped
      cases stopped
  | exit w =>
      have stopped := may.2.2
      rw [good.running] at stopped
      cases stopped
  | lockAccept a r => exact ⟨r, good.alone.accepts a r ⟨_, may.1, rfl⟩⟩
  | leaveAccept a r => exact ⟨r, good.alone.accepts a r ⟨_, may, rfl⟩⟩
  | pass k r packet => exact inside.elim
  | wake w => exact inside.elim
  | accept a r => exact inside.elim
  | stop => exact inside.elim
  | notifyAll => exact inside.elim
  | _ => exact trivial

/-- While a handler waits, some thread can go on. -/
theorem Good.exists_work (good : s.Good ar) (busy : s.thread ≠ .idle) :
    ∃ move : Move n R, move.works = true ∧ s.enabled ar move := by
  have step (step : ThreadPool.Step n R) (inside : step.Internal) (may : s.pool.enabled ar step) :
      ∃ move : Move n R, move.works = true ∧ s.enabled ar move := by
    refine ⟨.pool step, ?_, good.runs_of_internal step inside may, may⟩
    cases step with
    | wake w => exact inside.elim
    | _ => rfl
  cases thread : s.thread with
  | idle => exact absurd thread busy
  | passing k r u bytes =>
      obtain ⟨c, here, progress, _⟩ := good.alone.passing k r u bytes thread
      have goes : ∃ step : ThreadPool.Step n R, step.Internal ∧ s.pool.enabled ar step :=
        ThreadPool.Pool.not_stuck good.pool.pending good.pool.roused good.pool.locked good.running here progress
      obtain ⟨internal, inside, may⟩ := goes
      exact step internal inside may
  | accepting a r =>
      obtain ⟨accept, here, inside⟩ := good.alone.accepting a r thread
      cases accept with
      | locking room =>
          cases inside
          exact step (.lockAccept a r) trivial ⟨here, (good.sequential.accept a r thread).2 here⟩
      | inside room =>
          cases inside
          exact step (.leaveAccept a r) trivial here
      | returned => exact inside.elim

end Enabled

section Left

/-- The steps the thread takes before its handler ends, and the work its task makes for
the workers. -/
def phaseLeft : ThreadPool.Phase → Nat
  | .entered => 8
  | .pushed => 3
  | .waiting => 1
  | .returned => 0
  | .rejected => 0

def acceptLeft : ThreadPool.Accept R → Nat
  | .locking _ => 2
  | .inside _ => 1
  | .returned => 0

def handlerLeft (pool : ThreadPool.Pool n R) : IoThread R → Nat
  | .idle => 0
  | .passing k _ _ _ => (pool.calls k).elim 0 fun c => phaseLeft c.phase
  | .accepting a _ => (pool.accepts a).elim 0 acceptLeft

def left (s : ServerProcess n R) : Nat := handlerLeft s.pool s.thread + s.pool.load

theorem left_eq_passing {k : Nat} {r : R} {u : Nat} {bytes : List UInt8} (thread : s.thread = .passing k r u bytes)
    {c : ThreadPool.PassCall R} (here : s.pool.calls k = some c) : s.left = phaseLeft c.phase + s.pool.load := by
  rw [left, thread, handlerLeft, here]
  rfl

theorem left_eq_accepting {a : Nat} {r : R} (thread : s.thread = .accepting a r) {accept : ThreadPool.Accept R}
    (here : s.pool.accepts a = some accept) : s.left = acceptLeft accept + s.pool.load := by
  rw [left, thread, handlerLeft, here]
  rfl

/-- What is left when a handler has just begun, or at any time behind that. -/
theorem Good.left_le (good : s.Good ar) : s.left ≤ n + 8 := by
  have load := s.pool.load_le
  have flight := good.inFlight_le
  cases thread : s.thread with
  | idle =>
      rw [left, thread, handlerLeft]
      omega
  | accepting a r =>
      obtain ⟨accept, here, _⟩ := good.alone.accepting a r thread
      rw [left_eq_accepting thread here]
      cases accept <;> simp only [acceptLeft] <;> omega
  | passing k r u bytes =>
      obtain ⟨c, here, _⟩ := good.alone.passing k r u bytes thread
      rw [left_eq_passing thread here]
      cases phase : c.phase with
      | entered =>
          -- nothing is in flight before the push
          have nothing : s.pool.inFlight = [] := by
            apply List.eq_nil_iff_forall_not_mem.mpr
            intro t member
            obtain ⟨u', bytes', same⟩ := good.call_of_inFlight member
            rw [thread, IoThread.passing.injEq] at same
            obtain ⟨c', there, _, queued⟩ := good.pool.ordered.queued t (good.pool.inFlight_unset member).1
            rw [← same.1, here, Option.some.injEq] at there
            rw [← there, phase] at queued
            exact queued
          rw [nothing] at load
          simp only [phaseLeft, List.length_nil] at *
          omega
      | _ =>
          simp only [phaseLeft]
          omega

variable [DecidableEq R]

theorem left_pool (step : ThreadPool.Step n R) (collect : ∀ k c result, step ≠ .collect k c result)
    (leave : ∀ a r, step ≠ .leaveAccept a r) :
    (s.next (.pool step)).left = handlerLeft (s.pool.next step) s.thread + (s.pool.next step).load := by
  rw [next, follow_of_ne _ _ _ collect leave]
  rfl

/-- A worker's step leaves the handler where it is. -/
theorem left_of_worker (step : ThreadPool.Step n R) (calls : (s.pool.next step).calls = s.pool.calls)
    (accepts : (s.pool.next step).accepts = s.pool.accepts) (collect : ∀ k c result, step ≠ .collect k c result)
    (leave : ∀ a r, step ≠ .leaveAccept a r) :
    (s.next (.pool step)).left + s.pool.load = s.left + (s.pool.next step).load := by
  have same : handlerLeft (s.pool.next step) s.thread = handlerLeft s.pool s.thread := by
    cases s.thread with
    | idle => rfl
    | passing k r u bytes => rw [handlerLeft, calls]; rfl
    | accepting a r => rw [handlerLeft, accepts]; rfl
  rw [left_pool step collect leave, same, left]
  omega

/-- The thread's own steps. -/
theorem left_of_call {k : Nat} {r : R} {u : Nat} {bytes : List UInt8} (thread : s.thread = .passing k r u bytes)
    {c : ThreadPool.PassCall R} (here : s.pool.calls k = some c) (step : ThreadPool.Step n R) (phase : ThreadPool.Phase)
    (calls : (s.pool.next step).calls = (s.pool.setCall k c phase).calls)
    (collect : ∀ k c result, step ≠ .collect k c result) (leave : ∀ a r, step ≠ .leaveAccept a r) :
    (s.next (.pool step)).left + phaseLeft c.phase + s.pool.load = s.left + phaseLeft phase +
      (s.pool.next step).load := by
  have moved : (s.pool.next step).calls k = some { c with phase } := by
    rw [calls, ThreadPool.Pool.setCall_eq, if_pos rfl]
  rw [left_pool step collect leave, left_eq_passing thread here, thread, handlerLeft, moved]
  change phaseLeft phase + _ + _ + _ = _
  omega

/-- Every step is paid from what is left, to which a wake-up adds one. -/
theorem left_next (move : Move n R) (inside : move.Inside) (may : s.enabled ar move) :
    (s.next move).left + move.works.toNat ≤ s.left + move.wakes.toNat := by
  cases move with
  | handler r e => exact inside.elim
  | receive k r u bytes => exact inside.elim
  | accept a r => exact inside.elim
  | pool step =>
      obtain ⟨runs, may⟩ := may
      have worker (works : step.works = true) (calls : (s.pool.next step).calls = s.pool.calls)
          (accepts : (s.pool.next step).accepts = s.pool.accepts) (collect : ∀ k c result, step ≠ .collect k c result)
          (leave : ∀ a r, step ≠ .leaveAccept a r) : (s.next (.pool step)).left + 1 = s.left := by
        have moved := left_of_worker step calls accepts collect leave
        have paid := ThreadPool.Pool.load_work step may works
        omega
      cases step with
      | push k c =>
          obtain ⟨r, u, bytes, thread⟩ := runs
          have moved := left_of_call thread may.1 (.push k c) .pushed rfl (by simp) (by simp)
          rw [may.2.1, ThreadPool.Pool.load_push, phaseLeft, phaseLeft] at moved
          simp only [Move.works, Move.wakes, Bool.toNat_true, Bool.toNat_false]
          omega
      | notify k c woken =>
          obtain ⟨r, u, bytes, thread⟩ := runs
          have calls : (s.pool.next (.notify k c woken)).calls = (s.pool.setCall k c .waiting).calls := by
            cases woken <;> rfl
          have moved := left_of_call thread may.1 (.notify k c woken) .waiting calls (by simp) (by simp)
          have woke := ThreadPool.Pool.load_notify k c woken may
          rw [may.2.1, phaseLeft, phaseLeft] at moved
          simp only [Move.works, Move.wakes, Bool.toNat_true, Bool.toNat_false]
          omega
      | collect k c result =>
          obtain ⟨r, u, bytes, thread⟩ := runs
          have ended : (s.next (.pool (.collect k c result))).left = 0 + s.pool.load := by
            rw [next, thread]
            rfl
          rw [ended, left_eq_passing thread may.1, may.2.1, phaseLeft]
          simp only [Move.works, Move.wakes, Bool.toNat_true, Bool.toNat_false]
          omega
      | lockAccept a room =>
          obtain ⟨r, thread⟩ := runs
          have moved : (s.next (.pool (.lockAccept a room))).left = 1 + s.pool.load := by
            rw [left_pool _ (by simp) (by simp), thread]
            change ((s.pool.setAccept a (.inside room)).accepts a).elim 0 acceptLeft + _ = _
            rw [ThreadPool.Pool.setAccept_eq, if_pos rfl]
            rfl
          rw [moved, left_eq_accepting thread may.1, acceptLeft]
          simp only [Move.works, Move.wakes, Bool.toNat_true, Bool.toNat_false]
          omega
      | leaveAccept a room =>
          obtain ⟨r, thread⟩ := runs
          have ended : (s.next (.pool (.leaveAccept a room))).left = 0 + s.pool.load := by
            rw [next, thread]
            rfl
          rw [ended, left_eq_accepting thread may, acceptLeft]
          simp only [Move.works, Move.wakes, Bool.toNat_true, Bool.toNat_false]
          omega
      | wake w =>
          have moved := left_of_worker (s := s) (.wake w) rfl rfl (by simp) (by simp)
          rw [ThreadPool.Pool.load_wake w may] at moved
          simp only [Move.works, Move.wakes, Bool.toNat_true, Bool.toNat_false]
          omega
      | pass k r packet => exact runs.elim
      | reject k c => exact runs.elim
      | exit w => exact runs.elim
      | accept a r => exact runs.elim
      | stop => exact runs.elim
      | notifyAll => exact runs.elim
      | _ =>
          have paid := worker rfl rfl rfl (by simp) (by simp)
          simp only [Move.works, Move.wakes, Bool.toNat_true, Bool.toNat_false]
          omega

end Left

section Runs

variable [DecidableEq R]

/-- With at least one worker, from any state a run has reached and under every schedule: the
threads take at most `n + 8` steps and one for each wake-up nobody asked for until the next
handler starts, and when none of them can go on, the thread is back in the io_service. -/
theorem handler_returns (positive : 0 < n) (memory : R → Nat → WArray) (moves more : List (Move n R))
    (valid : (serverProcessSystem n R ar).Valid (start memory) (moves ++ more)) (inside : ∀ move ∈ more, move.Inside) :
    more.countP Move.works ≤ n + 8 + more.countP Move.wakes ∧
      ((∀ move : Move n R, move.works = true →
          ¬ ((serverProcessSystem n R ar).run (start memory) (moves ++ more)).enabled ar move) →
        ((serverProcessSystem n R ar).run (start memory) (moves ++ more)).thread = .idle) := by
  have good := good_run positive memory (moves ++ more) valid
  obtain ⟨before, behind⟩ := (System.valid_append _ _ moves more).mp valid
  have begun := good_run positive memory moves before
  constructor
  · have spent := System.spent_le (serverProcessSystem n R ar)
      (fun s move (good : s.Good ar) may _ => good.next positive move may)
      (fun s move _ may (inside : move.Inside) => left_next move inside may) begun behind
      (System.always_of_forall _ inside)
    have left := begun.left_le
    omega
  · intro stuck
    by_contra busy
    obtain ⟨move, works, may⟩ := good.exists_work busy
    exact stuck move works may

/-- A worker has popped the second message's task and goes on with it. -/
theorem handler_returns_popped :
    [Move.pool (.lock 1 ⟨1, 0, testerPacket 7⟩)].countP (Move.works (n := 3) (R := Fin 10)) ≤
        3 + 8 + [Move.pool (.lock 1 ⟨1, 0, testerPacket 7⟩)].countP (Move.wakes (n := 3) (R := Fin 10)) ∧
      ((∀ move : Move 3 (Fin 10), move.works = true →
          ¬ ((serverProcessSystem 3 (Fin 10) .boost).run (start fun _ _ _ => 0)
            (answeredThenPopped ++ [.pool (.lock 1 ⟨1, 0, testerPacket 7⟩)])).enabled .boost move) →
        ((serverProcessSystem 3 (Fin 10) .boost).run (start fun _ _ _ => 0)
          (answeredThenPopped ++ [.pool (.lock 1 ⟨1, 0, testerPacket 7⟩)])).thread = .idle) := by
  apply handler_returns (by decide)
  · exact (System.valid_append _ _ _ _).mpr ⟨answeredThenPopped_valid, ⟨trivial, rfl, rfl⟩, trivial⟩
  · intro move member
    rw [List.mem_singleton.mp member]
    trivial

end Runs

end GameServer.ServerProcess
