import GameServer.ThreadPoolOrder

set_option autoImplicit false

/- No call waits for ever on a wait cycle or a lost wake-up: while the pool is not being
destroyed, some thread can go on as long as a call of PassTask has not returned. -/
namespace GameServer.ThreadPool

open Base

variable {n : Nat} {R : Type}

def Worker.Awake (worker : Worker R) : Prop := worker ≠ .asleep ∧ worker ≠ .exited

theorem Worker.awake_of_task {worker : Worker R} {task : Task R} (has : worker.task? = some task) :
    worker.Awake := by
  refine ⟨?_, ?_⟩ <;> rintro rfl <;> cases has

/-- The call has not returned and has not been rejected. -/
def Phase.InProgress : Phase → Prop
  | .entered => True
  | .pushed => True
  | .waiting => True
  | _ => False

/-- Steps a thread takes by itself. A new call, a wake-up that nobody asked for and the
destructor are not among them. -/
def Step.Internal : Step n R → Prop
  | .pass _ _ _ => False
  | .wake _ => False
  | .accept _ _ => False
  | .stop => False
  | .notifyAll => False
  | _ => True

namespace Pool

/-- A task that was pushed and is not finished is in the queue or with a worker. -/
def Pending (s : Pool n R) : Prop :=
  ∀ k c, s.calls k = some c → c.phase = .pushed ∨ c.phase = .waiting → s.futures k = none →
    (∃ t ∈ s.queue, t.call = k) ∨ ∃ w t, (s.workers w).task? = some t ∧ t.call = k

/-- No wake-up is lost: while tasks are queued, a worker is awake or will be notified. -/
structure Roused (s : Pool n R) : Prop where
  awake : s.stop = false → s.queue ≠ [] →
    (∃ w, (s.workers w).Awake) ∨ ∃ k c, s.calls k = some c ∧ c.phase = .pushed
  running : s.stop = false → ∀ w, s.workers w ≠ .exited

/-- Whoever has locked a room is at a place where it will release it. -/
structure Locked (s : Pool n R) : Prop where
  worker : ∀ room w, s.mutex room = some (.worker w) → ∃ t, s.workers w = .parsing t ∧ t.room = room
  accept : ∀ room a, s.mutex room = some (.accept a) → s.accepts a = some (.inside room)

variable {ar : TextArchive} {s : Pool n R}

section Pending

theorem Pending.of_le {s' : Pool n R} (pending : s.Pending)
    (calls : ∀ k c, s'.calls k = some c → c.phase = .pushed ∨ c.phase = .waiting →
      ∃ c', s.calls k = some c' ∧ (c'.phase = .pushed ∨ c'.phase = .waiting))
    (queue : ∀ t ∈ s.queue, t ∈ s'.queue) (futures : s'.futures = s.futures)
    (workers : ∀ w t, (s.workers w).task? = some t → (s'.workers w).task? = some t) : s'.Pending := by
  intro k c here phase unset
  rw [futures] at unset
  obtain ⟨c', before, phase'⟩ := calls k c here phase
  rcases pending k c' before phase' unset with ⟨t, member, same⟩ | ⟨w, t, has, same⟩
  · exact Or.inl ⟨t, queue t member, same⟩
  · exact Or.inr ⟨w, t, workers w t has, same⟩

/-- A call gets to another phase, not to one that is pending unless it was in one. -/
theorem pending_setCall (k : Nat) (c : PassCall R) (phase : Phase)
    (goes : phase = .pushed ∨ phase = .waiting → s.calls k = some c ∧ (c.phase = .pushed ∨ c.phase = .waiting))
    (k' : Nat) (c' : PassCall R) (here : (s.setCall k c phase).calls k' = some c')
    (pending : c'.phase = .pushed ∨ c'.phase = .waiting) :
    ∃ c'', s.calls k' = some c'' ∧ (c''.phase = .pushed ∨ c''.phase = .waiting) := by
  rw [setCall_eq] at here
  by_cases this : k' = k
  · rw [if_pos this] at here
    cases here
    rw [this]
    exact ⟨c, goes pending⟩
  · rw [if_neg this] at here
    exact ⟨c', here, pending⟩

theorem task_setWorker (w : Fin n) (worker : Worker R)
    (keeps : ∀ t, (s.workers w).task? = some t → worker.task? = some t) (w' : Fin n) (t : Task R)
    (has : (s.workers w').task? = some t) : ((s.setWorker w worker).workers w').task? = some t := by
  rw [setWorker_eq]
  by_cases this : w' = w
  · rw [if_pos this]
    rw [this] at has
    exact keeps t has
  · rw [if_neg this]
    exact has

theorem Pending.push (pending : s.Pending) (k : Nat) (c : PassCall R) :
    Pending { s.setCall k c .pushed with queue := s.queue ++ [c.task k], enqueued := s.enqueued ++ [c.task k] } := by
  intro k' c' here phase unset
  change (s.setCall k c .pushed).calls k' = some c' at here
  rw [setCall_eq] at here
  by_cases this : k' = k
  · exact Or.inl ⟨c.task k, List.mem_append_right _ (List.mem_singleton_self _), this.symm⟩
  · rw [if_neg this] at here
    rcases pending k' c' here phase unset with ⟨t, member, same⟩ | held
    · exact Or.inl ⟨t, List.mem_append_left _ member, same⟩
    · exact Or.inr held

theorem Pending.pop (pending : s.Pending) (w : Fin n) (task : Task R) (here : s.workers w = .testing)
    (head : s.queue.head? = some task) :
    Pending { s.setWorker w (.popped task) with queue := s.queue.tail, taken := s.taken ++ [task] } := by
  intro k c there phase unset
  rcases pending k c there phase unset with ⟨t, member, same⟩ | ⟨w', t, has, same⟩
  · rw [← List.cons_head?_tail head, List.mem_cons] at member
    rcases member with rfl | later
    · refine Or.inr ⟨w, t, ?_, same⟩
      change ((s.setWorker w (.popped t)).workers w).task? = some t
      rw [setWorker_eq, if_pos rfl]
      rfl
    · exact Or.inl ⟨t, later, same⟩
  · refine Or.inr ⟨w', t, task_setWorker w _ (fun t' impossible => ?_) w' t has, same⟩
    rw [here] at impossible
    cases impossible

theorem Pending.fulfil (pending : s.Pending) (w : Fin n) (task : Task R) (result : TaskResult)
    (here : s.workers w = .parsed task result) :
    Pending { s.setWorker w .testing with futures := Function.update s.futures task.call (some result) } := by
  intro k c there phase unset
  change Function.update s.futures task.call (some result) k = none at unset
  rw [Function.update_apply] at unset
  by_cases this : k = task.call
  · rw [if_pos this] at unset
    cases unset
  · rw [if_neg this] at unset
    rcases pending k c there phase unset with queued | ⟨w', t, has, same⟩
    · exact Or.inl queued
    · have other : w' ≠ w := by
        rintro rfl
        rw [here] at has
        cases has
        exact this same.symm
      refine Or.inr ⟨w', t, ?_, same⟩
      change ((s.setWorker w .testing).workers w').task? = some t
      rw [setWorker_eq, if_neg other]
      exact has

theorem Pending.next [DecidableEq R] (pending : s.Pending) (step : Step n R) (may : s.enabled ar step) :
    (s.next step).Pending := by
  have same (s' : Pool n R) (calls : s'.calls = s.calls) (queue : s'.queue = s.queue)
      (futures : s'.futures = s.futures)
      (workers : ∀ w t, (s.workers w).task? = some t → (s'.workers w).task? = some t) : s'.Pending :=
    pending.of_le (fun k c here phase => ⟨c, by rw [← calls]; exact here, phase⟩) (by rw [queue]; exact fun _ => id)
      futures workers
  have idle {w : Fin n} {worker : Worker R} (before : (s.workers w).task? = none) :
      ∀ t, (s.workers w).task? = some t → worker.task? = some t := by
    intro t impossible
    rw [before] at impossible
    cases impossible
  cases step with
  | pass k room packet =>
      exact pending.of_le (pending_setCall k _ .entered (by rintro (impossible | impossible) <;> cases impossible))
        (fun _ => id) rfl (fun _ _ => id)
  | push k c => exact pending.push k c
  | reject k c =>
      exact pending.of_le (pending_setCall k c .rejected (by rintro (impossible | impossible) <;> cases impossible))
        (fun _ => id) rfl (fun _ _ => id)
  | notify k c woken =>
      have calls := pending_setCall k c .waiting (fun _ => ⟨may.1, Or.inl may.2.1⟩)
      cases woken with
      | none => exact pending.of_le calls (fun _ => id) rfl (fun _ _ => id)
      | some w =>
          have asleep : s.workers w = .asleep := may.2.2
          exact pending.of_le calls (fun _ => id) rfl (task_setWorker w .testing (idle (by rw [asleep]; rfl)))
  | collect k c result =>
      exact pending.of_le (pending_setCall k c .returned (by rintro (impossible | impossible) <;> cases impossible))
        (fun _ => id) rfl (fun _ _ => id)
  | pop w task => exact pending.pop w task may.1 may.2
  | sleep w => exact same _ rfl rfl rfl (task_setWorker w .asleep (idle (by rw [may.1]; rfl)))
  | exit w => exact same _ rfl rfl rfl (task_setWorker w .exited (idle (by rw [may.1]; rfl)))
  | wake w =>
      exact same _ rfl rfl rfl (task_setWorker w .testing (idle (by rw [show s.workers w = .asleep from may]; rfl)))
  | lock w task =>
      exact same _ rfl rfl rfl (task_setWorker w (.parsing task) (by rw [may.1]; exact fun _ => id))
  | parse w task result =>
      exact same _ rfl rfl rfl (task_setWorker w (.parsed task result) (by rw [may.1]; exact fun _ => id))
  | fulfil w task result => exact pending.fulfil w task result may
  | notifyAll =>
      refine same _ rfl rfl rfl (fun w t has => ?_)
      change (rouse (s.workers w)).task? = some t
      cases here : s.workers w with
      | asleep =>
          rw [here] at has
          cases has
      | _ =>
          rw [here] at has
          exact has
  | _ => exact same _ rfl rfl rfl (fun _ _ => id)

end Pending

section Roused

theorem Roused.of_stopped (stopped : s.stop = true) : s.Roused := by
  refine ⟨?_, ?_⟩ <;> intro running <;> rw [stopped] at running <;> cases running

theorem Roused.of_worker {s' : Pool n R} (roused : s.Roused) (w : Fin n) (worker : Worker R)
    (workers : s'.workers = Function.update s.workers w worker) (stop : s'.stop = s.stop) (awake : worker.Awake) :
    s'.Roused := by
  constructor
  · intro _ _
    refine Or.inl ⟨w, ?_⟩
    rw [workers, Function.update_self]
    exact awake
  · intro running w'
    rw [workers, Function.update_apply]
    split
    · exact awake.2
    · exact roused.running (by rw [← stop]; exact running) w'

theorem Roused.of_call {s' : Pool n R} (roused : s.Roused) (workers : s'.workers = s.workers)
    (stop : s'.stop = s.stop) (queue : s'.queue = s.queue)
    (calls : ∀ k c, s.calls k = some c → c.phase = .pushed → ∃ k c, s'.calls k = some c ∧ c.phase = .pushed) :
    s'.Roused := by
  constructor
  · rw [workers, stop, queue]
    intro running some
    rcases roused.awake running some with awake | ⟨k, c, here, phase⟩
    · exact Or.inl awake
    · exact Or.inr (calls k c here phase)
  · rw [workers, stop]
    exact roused.running

/-- Other calls keep their phase. -/
theorem pushed_setCall (k : Nat) (c : PassCall R) (phase : Phase)
    (before : ∀ c', s.calls k = some c' → c'.phase ≠ .pushed) (k' : Nat) (c' : PassCall R)
    (here : s.calls k' = some c') (pushed : c'.phase = .pushed) :
    ∃ other c'', (s.setCall k c phase).calls other = some c'' ∧ c''.phase = .pushed := by
  refine ⟨k', c', ?_, pushed⟩
  rw [setCall_eq, if_neg, here]
  rintro rfl
  exact before c' here pushed

/-- notify_one finds every worker awake, or wakes one. -/
theorem Roused.notify (roused : s.Roused) (positive : 0 < n) (k : Nat) (c : PassCall R)
    (none : ∀ w, s.workers w ≠ .asleep) : (s.setCall k c .waiting).Roused := by
  refine ⟨?_, roused.running⟩
  intro running _
  exact Or.inl ⟨⟨0, positive⟩, none _, roused.running running _⟩

theorem Roused.next [DecidableEq R] (roused : s.Roused) (positive : 0 < n) (step : Step n R)
    (may : s.enabled ar step) : (s.next step).Roused := by
  have awake {worker : Worker R} (asleep : worker ≠ .asleep) (exited : worker ≠ .exited) : worker.Awake :=
    ⟨asleep, exited⟩
  have same (s' : Pool n R) (calls : s'.calls = s.calls) (workers : s'.workers = s.workers)
      (stop : s'.stop = s.stop) (queue : s'.queue = s.queue) : s'.Roused :=
    roused.of_call workers stop queue (fun k c here phase => ⟨k, c, by rw [calls]; exact here, phase⟩)
  cases step with
  | pass k room packet =>
      refine roused.of_call rfl rfl rfl (pushed_setCall k _ .entered (fun c here => ?_))
      rw [show s.calls k = none from may] at here
      cases here
  | push k c =>
      refine ⟨fun _ _ => Or.inr ⟨k, { c with phase := .pushed }, ?_, rfl⟩, roused.running⟩
      change (s.setCall k c .pushed).calls k = _
      rw [setCall_eq, if_pos rfl]
  | reject k c =>
      refine roused.of_call rfl rfl rfl (pushed_setCall k _ .rejected (fun c' here => ?_))
      rw [may.1] at here
      cases here
      rw [may.2.1]
      decide
  | notify k c woken =>
      cases woken with
      | none => exact roused.notify positive k c may.2.2
      | some w => exact roused.of_worker w .testing rfl rfl (awake (by simp) (by simp))
  | collect k c result =>
      refine roused.of_call rfl rfl rfl (pushed_setCall k _ .returned (fun c' here => ?_))
      rw [may.1] at here
      cases here
      rw [may.2.1]
      decide
  | pop w task => exact roused.of_worker w (.popped task) rfl rfl (awake (by simp) (by simp))
  | sleep w =>
      refine ⟨fun _ some => absurd may.2.1 some, fun running w' => ?_⟩
      change (s.setWorker w .asleep).workers w' ≠ _
      rw [setWorker_eq]
      split
      · simp
      · exact roused.running running w'
  | exit w => exact Roused.of_stopped may.2.2
  | wake w => exact roused.of_worker w .testing rfl rfl (awake (by simp) (by simp))
  | lock w task => exact roused.of_worker w (.parsing task) rfl rfl (awake (by simp) (by simp))
  | parse w task result => exact roused.of_worker w (.parsed task result) rfl rfl (awake (by simp) (by simp))
  | fulfil w task result => exact roused.of_worker w .testing rfl rfl (awake (by simp) (by simp))
  | stop => exact Roused.of_stopped rfl
  | notifyAll => exact Roused.of_stopped may
  | _ => exact same _ rfl rfl rfl rfl

end Roused

section Locked

/-- A thread moves that holds no mutex and takes none. -/
theorem Locked.of_free {s' : Pool n R} (locked : s.Locked) (mutex : s'.mutex = s.mutex)
    (workers : ∀ w t, s.workers w = .parsing t → s'.workers w = .parsing t)
    (accepts : ∀ a room, s.accepts a = some (.inside room) → s'.accepts a = some (.inside room)) : s'.Locked := by
  constructor
  · intro room w holds
    rw [mutex] at holds
    obtain ⟨t, parsing, same⟩ := locked.worker room w holds
    exact ⟨t, workers w t parsing, same⟩
  · intro room a holds
    rw [mutex] at holds
    exact accepts a room (locked.accept room a holds)

theorem parsing_setWorker (w : Fin n) (worker : Worker R) (free : ∀ t, s.workers w ≠ .parsing t) (w' : Fin n)
    (t : Task R) (parsing : s.workers w' = .parsing t) : (s.setWorker w worker).workers w' = .parsing t := by
  rw [setWorker_eq, if_neg]
  · exact parsing
  · rintro rfl
    exact free t parsing

theorem setMutex_eq [DecidableEq R] (room : R) (owner : Option (Owner n)) (room' : R) :
    (s.setMutex room owner).mutex room' = if room' = room then owner else s.mutex room' := by
  simp only [setMutex, Function.update_apply]

theorem setAccept_eq (a : Nat) (accept : Accept R) (a' : Nat) :
    (s.setAccept a accept).accepts a' = if a' = a then some accept else s.accepts a' := by
  simp only [setAccept, Function.update_apply]

theorem inside_setAccept (a : Nat) (accept : Accept R) (free : ∀ room, s.accepts a ≠ some (.inside room)) (a' : Nat)
    (room : R) (inside : s.accepts a' = some (.inside room)) :
    (s.setAccept a accept).accepts a' = some (.inside room) := by
  rw [setAccept_eq, if_neg]
  · exact inside
  · rintro rfl
    exact free room inside

/-- Who holds a mutex behind an update: its new owner, or the one from before. -/
theorem holds_setMutex [DecidableEq R] {room room' : R} {owner : Option (Owner n)} {holder : Owner n}
    (holds : (s.setMutex room owner).mutex room' = some holder) :
    room' = room ∧ owner = some holder ∨ room' ≠ room ∧ s.mutex room' = some holder := by
  rw [setMutex_eq] at holds
  by_cases this : room' = room
  · rw [if_pos this] at holds
    exact Or.inl ⟨this, holds⟩
  · rw [if_neg this] at holds
    exact Or.inr ⟨this, holds⟩

theorem holds_release [DecidableEq R] {room room' : R} {holder : Owner n}
    (holds : (s.setMutex room none).mutex room' = some holder) : room' ≠ room ∧ s.mutex room' = some holder := by
  rcases holds_setMutex holds with taken | before
  · cases taken.2
  · exact before

theorem Locked.lock [DecidableEq R] (locked : s.Locked) (w : Fin n) (task : Task R)
    (here : s.workers w = .popped task) :
    (s.next (.lock w task)).Locked := by
  have keeps := parsing_setWorker (s := s) w (.parsing task) (fun t => by rw [here]; simp)
  constructor
  · intro room w' holds
    rcases holds_setMutex (s := s.setWorker w (.parsing task)) holds with ⟨same, taken⟩ | ⟨_, before⟩
    · cases taken
      refine ⟨task, ?_, same.symm⟩
      change (s.setWorker w (.parsing task)).workers w = _
      rw [setWorker_eq, if_pos rfl]
    · obtain ⟨t, parsing, same⟩ := locked.worker room w' before
      exact ⟨t, keeps w' t parsing, same⟩
  · intro room a holds
    rcases holds_setMutex (s := s.setWorker w (.parsing task)) holds with ⟨_, taken⟩ | ⟨_, before⟩
    · cases taken
    · exact locked.accept room a before

theorem Locked.parse [DecidableEq R] (locked : s.Locked) (w : Fin n) (task : Task R) (result : TaskResult)
    (here : s.workers w = .parsing task) : (s.next (.parse w task result)).Locked := by
  constructor
  · intro room w' holds
    obtain ⟨other, before⟩ := holds_release (s := s.setWorker w (.parsed task result)) holds
    obtain ⟨t, parsing, same⟩ := locked.worker room w' before
    refine ⟨t, ?_, same⟩
    change (s.setWorker w (.parsed task result)).workers w' = _
    rw [setWorker_eq, if_neg]
    · exact parsing
    · rintro rfl
      rw [here] at parsing
      cases parsing
      exact other same.symm
  · intro room a holds
    exact locked.accept room a (holds_release (s := s.setWorker w (.parsed task result)) holds).2

theorem Locked.lockAccept [DecidableEq R] (locked : s.Locked) (a : Nat) (room : R)
    (here : s.accepts a = some (.locking room)) :
    (s.next (.lockAccept a room)).Locked := by
  have keeps := inside_setAccept (s := s) a (.inside room) (fun room' => by rw [here]; simp)
  constructor
  · intro room' w holds
    rcases holds_setMutex (s := s.setAccept a (.inside room)) holds with ⟨_, taken⟩ | ⟨_, before⟩
    · cases taken
    · exact locked.worker room' w before
  · intro room' a' holds
    rcases holds_setMutex (s := s.setAccept a (.inside room)) holds with ⟨same, taken⟩ | ⟨_, before⟩
    · cases taken
      change (s.setAccept a (.inside room)).accepts a = _
      rw [setAccept_eq, if_pos rfl, same]
    · exact keeps a' room' (locked.accept room' a' before)

theorem Locked.leaveAccept [DecidableEq R] (locked : s.Locked) (a : Nat) (room : R)
    (here : s.accepts a = some (.inside room)) :
    (s.next (.leaveAccept a room)).Locked := by
  constructor
  · intro room' w holds
    exact locked.worker room' w (holds_release (s := s.setAccept a .returned) holds).2
  · intro room' a' holds
    obtain ⟨other, before⟩ := holds_release (s := s.setAccept a .returned) holds
    have inside := locked.accept room' a' before
    change (s.setAccept a .returned).accepts a' = _
    rw [setAccept_eq, if_neg]
    · exact inside
    · rintro rfl
      rw [here] at inside
      cases inside
      exact other rfl

theorem Locked.next [DecidableEq R] (locked : s.Locked) (step : Step n R) (may : s.enabled ar step) :
    (s.next step).Locked := by
  have moves (w : Fin n) (worker : Worker R) (free : ∀ t, s.workers w ≠ .parsing t) (s' : Pool n R)
      (mutex : s'.mutex = s.mutex) (workers : s'.workers = (s.setWorker w worker).workers)
      (accepts : s'.accepts = s.accepts) : s'.Locked :=
    locked.of_free mutex (by rw [workers]; exact parsing_setWorker w worker free) (by rw [accepts]; exact fun _ _ => id)
  cases step with
  | notify k c woken =>
      cases woken with
      | none => exact locked.of_free rfl (fun _ _ => id) (fun _ _ => id)
      | some w =>
          exact moves w .testing (fun t => by rw [show s.workers w = .asleep from may.2.2]; simp) _ rfl rfl rfl
  | pop w task => exact moves w (.popped task) (fun t => by rw [may.1]; simp) _ rfl rfl rfl
  | sleep w => exact moves w .asleep (fun t => by rw [may.1]; simp) _ rfl rfl rfl
  | exit w => exact moves w .exited (fun t => by rw [may.1]; simp) _ rfl rfl rfl
  | wake w => exact moves w .testing (fun t => by rw [show s.workers w = .asleep from may]; simp) _ rfl rfl rfl
  | lock w task => exact locked.lock w task may.1
  | parse w task result => exact locked.parse w task result may.1
  | fulfil w task result =>
      exact moves w .testing (fun t => by rw [show s.workers w = .parsed task result from may]; simp) _ rfl rfl rfl
  | accept a room =>
      refine locked.of_free rfl (fun _ _ => id) (inside_setAccept a _ (fun room' => ?_))
      rw [show s.accepts a = none from may]
      simp
  | lockAccept a room => exact locked.lockAccept a room may.1
  | leaveAccept a room => exact locked.leaveAccept a room may
  | notifyAll =>
      refine locked.of_free rfl (fun w t parsing => ?_) (fun _ _ => id)
      change rouse (s.workers w) = _
      rw [parsing]
      rfl
  | _ => exact locked.of_free rfl (fun _ _ => id) (fun _ _ => id)

end Locked

section Progress

/-- An awake worker can take its next step, or waits for a room whose owner can. -/
theorem step_of_awake (locked : s.Locked) (running : s.stop = false) (w : Fin n) (awake : (s.workers w).Awake) :
    ∃ step : Step n R, step.Internal ∧ s.enabled ar step := by
  cases here : s.workers w with
  | testing =>
      cases queue : s.queue with
      | nil => exact ⟨.sleep w, trivial, here, queue, running⟩
      | cons t rest => exact ⟨.pop w t, trivial, here, by rw [queue]; rfl⟩
  | asleep => exact absurd here awake.1
  | exited => exact absurd here awake.2
  | parsing t => exact ⟨.parse w t _, trivial, here, ⟨fun _ => 0, fun _ => 0, fun _ => 0⟩, rfl⟩
  | parsed t result => exact ⟨.fulfil w t result, trivial, here⟩
  | popped t =>
      cases held : s.mutex t.room with
      | none => exact ⟨.lock w t, trivial, here, held⟩
      | some owner =>
          cases owner with
          | worker w' =>
              obtain ⟨t', parsing, _⟩ := locked.worker t.room w' held
              exact ⟨.parse w' t' _, trivial, parsing, ⟨fun _ => 0, fun _ => 0, fun _ => 0⟩, rfl⟩
          | accept a => exact ⟨.leaveAccept a t.room, trivial, locked.accept t.room a held⟩

theorem step_of_pushed {k : Nat} {c : PassCall R} (here : s.calls k = some c) (pushed : c.phase = .pushed) :
    ∃ step : Step n R, step.Internal ∧ s.enabled ar step := by
  by_cases sleeper : ∃ w, s.workers w = .asleep
  · obtain ⟨w, asleep⟩ := sleeper
    exact ⟨.notify k c (some w), trivial, here, pushed, asleep⟩
  · exact ⟨.notify k c none, trivial, here, pushed, fun w asleep => sleeper ⟨w, asleep⟩⟩

/-- Freedom from deadlock in one state. -/
theorem not_stuck (pending : s.Pending) (roused : s.Roused) (locked : s.Locked) (running : s.stop = false)
    {k : Nat} {c : PassCall R} (here : s.calls k = some c) (progress : c.phase.InProgress) :
    ∃ step : Step n R, step.Internal ∧ s.enabled ar step := by
  cases phase : c.phase with
  | entered => exact ⟨.push k c, trivial, here, phase, running⟩
  | pushed => exact step_of_pushed here phase
  | waiting =>
      cases unset : s.futures k with
      | some result => exact ⟨.collect k c result, trivial, here, phase, unset⟩
      | none =>
          rcases pending k c here (Or.inr phase) unset with ⟨t, member, _⟩ | ⟨w, t, has, _⟩
          · rcases roused.awake running (List.ne_nil_of_mem member) with ⟨w, awake⟩ | ⟨k', c', here', pushed⟩
            · exact step_of_awake locked running w awake
            · exact step_of_pushed here' pushed
          · exact step_of_awake locked running w (Worker.awake_of_task has)
  | returned =>
      rw [phase] at progress
      exact progress.elim
  | rejected =>
      rw [phase] at progress
      exact progress.elim

end Progress

section Runs

/-- Everything that holds in every state of a run. -/
structure Good (s : Pool n R) : Prop where
  ordered : s.Ordered
  worked : s.Worked
  delivered : s.Delivered
  pending : s.Pending
  roused : s.Roused
  locked : s.Locked

theorem good_start : (start : Pool n R).Good := by
  refine ⟨⟨rfl, List.nodup_nil, ?_⟩, ⟨?_, ?_, ?_, List.nodup_nil, ?_, ?_, ?_, fun _ _ _ => rfl⟩,
    ⟨?_, fun _ _ => rfl⟩, fun _ _ impossible => (by cases impossible), ⟨fun _ some => absurd rfl some, ?_⟩,
    ⟨?_, ?_⟩⟩ <;>
    simp [start, Worker.task?, Worker.unrun]

variable [DecidableEq R]

theorem Good.next (good : s.Good) (positive : 0 < n) (step : Step n R) (may : s.enabled ar step) : (s.next step).Good :=
  ⟨good.ordered.next step may, good.worked.next good.ordered step may, good.delivered.next good.worked step may,
    good.pending.next step may, good.roused.next positive step may, good.locked.next step may⟩

theorem good_run (positive : 0 < n) (steps : List (Step n R)) (valid : (poolSystem n R ar).Valid start steps) :
    ((poolSystem n R ar).run start steps).Good := by
  refine System.invariant _ (fun s step (good : s.Good) may => ?_) good_start valid
  exact ⟨good.ordered.next step may, good.worked.next good.ordered step may,
    good.delivered.next good.worked step may, good.pending.next step may,
    good.roused.next positive step may, good.locked.next step may⟩

omit [DecidableEq R] in
/-- The result a call finds is the one of its own task. -/
theorem Good.ran_of_future (good : s.Good) {k : Nat} {c : PassCall R} {r : TaskResult} (here : s.calls k = some c)
    (set : s.futures k = some r) : (c.task k, r) ∈ s.ran := by
  obtain ⟨t, mine, ran⟩ := good.worked.fulfilled k r set
  have enqueued : t ∈ s.enqueued := by
    rw [good.ordered.fifo]
    exact List.mem_append_left _ (good.worked.ran _ ran)
  obtain ⟨c', there, task, _⟩ := good.ordered.queued t enqueued
  rw [mine] at there task
  rw [here, Option.some.injEq] at there
  rw [there, task]
  exact ran

/-- A call that has returned stays so. -/
theorem returned_next (step : Step n R) (may : s.enabled ar step) {k : Nat} {c : PassCall R} (here : s.calls k = some c)
    (returned : c.phase = .returned) : (s.next step).calls k = some c := by
  have other {k' : Nat} {c' : PassCall R} (there : s.calls k' = some c') (phase : c'.phase ≠ .returned)
      (call : Option (PassCall R)) : Function.update s.calls k' call k = some c := by
    rw [Function.update_of_ne, here]
    rintro rfl
    rw [here, Option.some.injEq] at there
    rw [← there] at phase
    exact phase returned
  cases step with
  | pass k' room packet =>
      refine (Function.update_of_ne ?_ ..).trans here
      rintro rfl
      rw [show s.calls k = none from may] at here
      cases here
  | push k' c' => exact other may.1 (by rw [may.2.1]; decide) _
  | reject k' c' => exact other may.1 (by rw [may.2.1]; decide) _
  | notify k' c' woken =>
      cases woken with
      | none => exact other may.1 (by rw [may.2.1]; decide) _
      | some w => exact other may.1 (by rw [may.2.1]; decide) _
  | collect k' c' result => exact other may.1 (by rw [may.2.1]; decide) _
  | _ => exact here

theorem ran_next (step : Step n R) {m : Task R × TaskResult} (member : m ∈ s.ran) : m ∈ (s.next step).ran := by
  cases step with
  | parse w task result => exact List.mem_append_left _ member
  | notify k c woken => cases woken <;> exact member
  | _ => exact member

/-- A call that gets a result gets that of its own task, and has returned from then on. -/
theorem collected_run (positive : 0 < n) (steps : List (Step n R)) (valid : (poolSystem n R ar).Valid start steps)
    {k : Nat} {c : PassCall R} {r : TaskResult} (collects : Step.collect k c r ∈ steps) :
    (c.task k, r) ∈ ((poolSystem n R ar).run start steps).ran ∧
      ((poolSystem n R ar).run start steps).calls k = some { c with phase := .returned } := by
  obtain ⟨front, back, rfl⟩ := List.append_of_mem collects
  obtain ⟨before, may, after⟩ := (System.valid_append _ _ front _).mp valid
  have good : ((poolSystem n R ar).run start front).Good := good_run positive front before
  rw [System.run_append, System.run_cons]
  refine System.invariant (poolSystem n R ar)
    (fun s step (kept : (c.task k, r) ∈ s.ran ∧ s.calls k = some { c with phase := .returned }) may =>
      ⟨ran_next step kept.1, returned_next step may kept.2 rfl⟩) ⟨?_, ?_⟩ after
  · exact good.ran_of_future may.1 may.2.2
  · exact Function.update_self ..

/-- Tasks are taken in the order of their pushes and run at most once; a call that gets the
result of its task broadcasts to its room what its own task returned, no other call has
broadcast, and unless the pool is being destroyed a call in progress leaves some thread
a step. -/
structure Sound (ar : TextArchive) (steps : List (Step n R)) (s : Pool n R) : Prop where
  once : (s.ran.map fun m => m.1.call).Nodup
  order : s.taken <+: s.enqueued
  logs : s.enqueued = steps.filterMap Step.pushed ∧ s.taken = steps.filterMap Step.popped ∧
    s.ran = steps.filterMap Step.ran
  collected : ∀ k c r, Step.collect k c r ∈ steps → (c.task k, r) ∈ s.ran ∧
    s.broadcastsOf k = (passTask r).toList.map fun packet => ⟨c.room, k, packet⟩
  returned : ∀ k c, s.calls k = some c → c.phase = .returned → ∃ r, (c.task k, r) ∈ s.ran ∧
    s.broadcastsOf k = (passTask r).toList.map fun packet => ⟨c.room, k, packet⟩
  silent : ∀ k, (∀ c, s.calls k = some c → c.phase ≠ .returned) → s.broadcastsOf k = []
  progress : s.stop = false → ∀ k c, s.calls k = some c → c.phase.InProgress →
    ∃ step : Step n R, step.Internal ∧ s.enabled ar step

/-- For any number of rooms and calls, at least one worker, and every interleaving of their
steps. -/
theorem run_sound (positive : 0 < n) (steps : List (Step n R)) (valid : (poolSystem n R ar).Valid start steps) :
    Sound ar steps ((poolSystem n R ar).run start steps) := by
  have good : ((poolSystem n R ar).run start steps).Good := good_run positive steps valid
  have returned (k : Nat) (c : PassCall R) (here : ((poolSystem n R ar).run start steps).calls k = some c)
      (phase : c.phase = .returned) : ∃ r, (c.task k, r) ∈ ((poolSystem n R ar).run start steps).ran ∧
        ((poolSystem n R ar).run start steps).broadcastsOf k =
          (passTask r).toList.map fun packet => ⟨c.room, k, packet⟩ := by
    obtain ⟨r, set, broadcasts⟩ := good.delivered.returned k c here phase
    exact ⟨r, good.ran_of_future here set, broadcasts⟩
  refine ⟨good.worked.once, ?_, ?_, ?_, returned, good.delivered.silent, ?_⟩
  · rw [good.ordered.fifo]
    exact List.prefix_append _ _
  · have logs := run_logs ar start steps
    exact logs
  · intro k c r collects
    obtain ⟨ran, there⟩ := collected_run positive steps valid collects
    obtain ⟨r', ran', broadcasts⟩ := returned k _ there rfl
    have same : (c.task k, r) = (({ c with phase := .returned } : PassCall R).task k, r') :=
      List.inj_on_of_nodup_map good.worked.once ran ran' rfl
    rw [(Prod.mk.inj same).2]
    exact ⟨ran', broadcasts⟩
  · intro running k c here progress
    exact not_stuck good.pending good.roused good.locked running here progress

/-- A packet in which Parse finds the number 7, and one it makes nothing of. -/
def sevenPacket : Packet :=
  Packet.ofArray (Server.encode (fun _ => 0) PacketEvent.tester.code (cStr (TextArchive.boost.write 7) fun _ => 0)
    (UInt32.ofNat (TextArchive.boost.size 7))).value.data

def sevenResult : TaskResult := .ok (some (Server.doWork .boost cleared 7).value)

/-- Two workers and two rooms. A sleeping worker is notified of the first call's task and
answers it; the other one waits for the mutex of the second room, which is accepting. -/
def contendedRun : List (Step 2 Bool) :=
  [.sleep 0, .pass 0 false sevenPacket, .push 0 ⟨false, sevenPacket, .entered⟩,
    .pass 1 true (Packet.ofArray fun _ => 0), .push 1 ⟨true, Packet.ofArray fun _ => 0, .entered⟩,
    .notify 0 ⟨false, sevenPacket, .pushed⟩ (some 0), .pop 0 ⟨0, false, sevenPacket⟩,
    .accept 0 true, .lockAccept 0 true, .pop 1 ⟨1, true, Packet.ofArray fun _ => 0⟩,
    .notify 1 ⟨true, Packet.ofArray fun _ => 0, .pushed⟩ none, .lock 0 ⟨0, false, sevenPacket⟩,
    .parse 0 ⟨0, false, sevenPacket⟩ sevenResult, .leaveAccept 0 true, .lock 1 ⟨1, true, Packet.ofArray fun _ => 0⟩,
    .parse 1 ⟨1, true, Packet.ofArray fun _ => 0⟩ (.ok none), .fulfil 1 ⟨1, true, Packet.ofArray fun _ => 0⟩ (.ok none),
    .collect 1 ⟨true, Packet.ofArray fun _ => 0, .waiting⟩ (.ok none), .fulfil 0 ⟨0, false, sevenPacket⟩ sevenResult,
    .collect 0 ⟨false, sevenPacket, .waiting⟩ sevenResult]

theorem contendedRun_sound :
    Sound .boost contendedRun ((poolSystem 2 Bool .boost).run start contendedRun) ∧
      ((poolSystem 2 Bool .boost).run start contendedRun).broadcasts =
        [⟨false, 0, (Server.doWork .boost cleared 7).value⟩] := by
  refine ⟨run_sound (by decide) contendedRun ?_, rfl⟩
  have seven : ∃ scratch, sevenResult = (Server.parse .boost scratch sevenPacket.data).value :=
    ⟨cleared, Eq.symm (Server.parse_answered (by decide +kernel) (by decide +kernel))⟩
  have nothing : ∃ scratch, Except.ok none = (Server.parse .boost scratch (Packet.ofArray fun _ => 0).data).value :=
    ⟨cleared, rfl⟩
  have awake : ∀ w : Fin 2, ((poolSystem 2 Bool .boost).run start (contendedRun.take 10)).workers w ≠ .asleep := by
    intro w asleep
    match w with
    | 0 => cases asleep
    | 1 => cases asleep
  exact ⟨⟨rfl, rfl, rfl⟩, rfl, ⟨rfl, rfl, rfl⟩, rfl, ⟨rfl, rfl, rfl⟩, ⟨rfl, rfl, rfl⟩, ⟨rfl, rfl⟩, rfl, ⟨rfl, rfl⟩,
    ⟨rfl, rfl⟩, ⟨rfl, rfl, awake⟩, ⟨rfl, rfl⟩, ⟨rfl, seven⟩, rfl, ⟨rfl, rfl⟩, ⟨rfl, nothing⟩, rfl, ⟨rfl, rfl, rfl⟩, rfl,
    ⟨rfl, rfl, rfl⟩, trivial⟩

end Runs

end Pool

end GameServer.ThreadPool
