import GameServer.ThreadPoolLoad

set_option autoImplicit false

/- The destructor of the pool: it sets `stop`, wakes every worker and joins them. A worker
ends only when the queue is empty, so what was pushed before is still run. -/
namespace GameServer.ThreadPool.Pool

open Base

variable {n : Nat} {R : Type} {ar : TextArchive} {s : Pool n R}

/-- No task and no result is lost between the queue, the workers and the futures. -/
structure Kept (s : Pool n R) : Prop where
  run : ∀ t ∈ s.taken, (∃ r, (t, r) ∈ s.ran) ∨ ∃ w, (s.workers w).unrun = some t
  set : ∀ m ∈ s.ran, s.futures m.1.call = some m.2 ∨ ∃ w, s.workers w = .parsed m.1 m.2

section Kept

/-- A worker moves that has no task, or keeps the one it has. -/
theorem Kept.of_worker (kept : s.Kept) (s' : Pool n R) (w : Fin n) (worker : Worker R)
    (workers : s'.workers = Function.update s.workers w worker) (taken : s'.taken = s.taken) (ran : s'.ran = s.ran)
    (futures : s'.futures = s.futures) (unrun : ∀ t, (s.workers w).unrun = some t → worker.unrun = some t)
    (parsed : ∀ t r, s.workers w ≠ .parsed t r) : s'.Kept := by
  constructor
  · rw [taken, ran]
    intro t member
    rcases kept.run t member with done | ⟨w', has⟩
    · exact Or.inl done
    · refine Or.inr ⟨w', ?_⟩
      rw [workers, Function.update_apply]
      by_cases same : w' = w
      · rw [if_pos same]
        rw [same] at has
        exact unrun t has
      · rw [if_neg same]
        exact has
  · rw [ran, futures]
    intro m member
    rcases kept.set m member with set | ⟨w', has⟩
    · exact Or.inl set
    · refine Or.inr ⟨w', ?_⟩
      rw [workers, Function.update_of_ne]
      · exact has
      · rintro rfl
        exact parsed _ _ has

theorem Kept.pop [DecidableEq R] (kept : s.Kept) (w : Fin n) (task : Task R) (here : s.workers w = .testing) :
    (s.next (.pop w task)).Kept := by
  have moved : (s.setWorker w (.popped task)).Kept :=
    kept.of_worker _ w _ rfl rfl rfl rfl (fun t has => by rw [here] at has; cases has) (fun t r => by rw [here]; simp)
  refine ⟨fun t member => ?_, moved.set⟩
  rcases List.mem_append.mp member with before | now
  · exact moved.run t before
  · refine Or.inr ⟨w, ?_⟩
    change ((s.setWorker w (.popped task)).workers w).unrun = some t
    rw [setWorker_eq, if_pos rfl, List.mem_singleton.mp now]
    rfl

theorem Kept.parse [DecidableEq R] (kept : s.Kept) (w : Fin n) (task : Task R) (result : TaskResult)
    (here : s.workers w = .parsing task) : (s.next (.parse w task result)).Kept := by
  have others (w' : Fin n) (other : w' ≠ w) : (s.next (.parse w task result)).workers w' = s.workers w' := by
    change (s.setWorker w (.parsed task result)).workers w' = _
    rw [setWorker_eq, if_neg other]
  have self : (s.next (.parse w task result)).workers w = .parsed task result := by
    change (s.setWorker w (.parsed task result)).workers w = _
    rw [setWorker_eq, if_pos rfl]
  constructor
  · intro t member
    rcases kept.run t member with ⟨r, done⟩ | ⟨w', has⟩
    · exact Or.inl ⟨r, List.mem_append_left _ done⟩
    · by_cases same : w' = w
      · rw [same, here] at has
        cases has
        exact Or.inl ⟨result, List.mem_append_right _ (List.mem_singleton_self _)⟩
      · exact Or.inr ⟨w', by rw [others w' same]; exact has⟩
  · intro m member
    rcases List.mem_append.mp member with before | now
    · rcases kept.set m before with set | ⟨w', has⟩
      · exact Or.inl set
      · refine Or.inr ⟨w', ?_⟩
        rw [others]
        · exact has
        · rintro rfl
          rw [here] at has
          cases has
    · rw [List.mem_singleton.mp now]
      exact Or.inr ⟨w, self⟩

/-- The future that is set is the one of the worker's task. -/
theorem Kept.fulfil [DecidableEq R] (kept : s.Kept) (worked : s.Worked) (w : Fin n) (task : Task R)
    (result : TaskResult)
    (here : s.workers w = .parsed task result) : (s.next (.fulfil w task result)).Kept := by
  have others (w' : Fin n) (other : w' ≠ w) : (s.next (.fulfil w task result)).workers w' = s.workers w' := by
    change (s.setWorker w .testing).workers w' = _
    rw [setWorker_eq, if_neg other]
  constructor
  · intro t member
    rcases kept.run t member with done | ⟨w', has⟩
    · exact Or.inl done
    · refine Or.inr ⟨w', ?_⟩
      rw [others]
      · exact has
      · rintro rfl
        rw [here] at has
        cases has
  · intro m member
    change Function.update s.futures task.call (some result) m.1.call = some m.2 ∨ _
    by_cases mine : m.1.call = task.call
    · have same := List.inj_on_of_nodup_map worked.once member (worked.parsed w task result here) mine
      rw [same, Function.update_self]
      exact Or.inl rfl
    · rw [Function.update_of_ne mine]
      rcases kept.set m member with set | ⟨w', has⟩
      · exact Or.inl set
      · refine Or.inr ⟨w', ?_⟩
        rw [others]
        · exact has
        · rintro rfl
          rw [here] at has
          cases has
          exact mine rfl

theorem Kept.next [DecidableEq R] (kept : s.Kept) (worked : s.Worked) (step : Step n R) (may : s.enabled ar step) :
    (s.next step).Kept := by
  cases step with
  | notify k c woken =>
      cases woken with
      | none => exact ⟨kept.run, kept.set⟩
      | some w =>
          have asleep : s.workers w = .asleep := may.2.2
          exact kept.of_worker _ w .testing rfl rfl rfl rfl (fun t has => by rw [asleep] at has; cases has)
            (fun t r => by rw [asleep]; simp)
  | pop w task => exact kept.pop w task may.1
  | sleep w =>
      exact kept.of_worker _ w .asleep rfl rfl rfl rfl (fun t has => by rw [may.1] at has; cases has)
        (fun t r => by rw [may.1]; simp)
  | exit w =>
      exact kept.of_worker _ w .exited rfl rfl rfl rfl (fun t has => by rw [may.1] at has; cases has)
        (fun t r => by rw [may.1]; simp)
  | wake w =>
      have asleep : s.workers w = .asleep := may
      exact kept.of_worker _ w .testing rfl rfl rfl rfl (fun t has => by rw [asleep] at has; cases has)
        (fun t r => by rw [asleep]; simp)
  | lock w task =>
      exact kept.of_worker _ w (.parsing task) rfl rfl rfl rfl (fun t has => by rw [may.1] at has; exact has)
        (fun t r => by rw [may.1]; simp)
  | parse w task result => exact kept.parse w task result may.1
  | fulfil w task result => exact kept.fulfil worked w task result may
  | notifyAll =>
      constructor
      · intro t member
        rcases kept.run t member with done | ⟨w, has⟩
        · exact Or.inl done
        · refine Or.inr ⟨w, ?_⟩
          change (rouse (s.workers w)).unrun = some t
          cases here : s.workers w <;> rw [here] at has <;> exact has
      · intro m member
        rcases kept.set m member with set | ⟨w, has⟩
        · exact Or.inl set
        · refine Or.inr ⟨w, ?_⟩
          change rouse (s.workers w) = _
          rw [has]
          rfl
  | _ => exact ⟨kept.run, kept.set⟩

end Kept

section Ended

/-- Nobody can push any more when a worker has ended, and nothing is left to pop. -/
def Ended (s : Pool n R) : Prop := ∀ w, s.workers w = .exited → s.stop = true ∧ s.queue = []

theorem exited_setWorker (w : Fin n) (worker : Worker R) (alive : worker ≠ .exited) (w' : Fin n)
    (ended : (s.setWorker w worker).workers w' = .exited) : s.workers w' = .exited := by
  rw [setWorker_eq] at ended
  by_cases same : w' = w
  · rw [if_pos same] at ended
    exact absurd ended alive
  · rw [if_neg same] at ended
    exact ended

variable [DecidableEq R]

theorem stop_next (step : Step n R) (stopped : s.stop = true) : (s.next step).stop = true := by
  cases step with
  | notify k c woken => cases woken <;> exact stopped
  | stop => rfl
  | _ => exact stopped

theorem enqueued_next (step : Step n R) (may : s.enabled ar step) (stopped : s.stop = true) :
    (s.next step).enqueued = s.enqueued := by
  cases step with
  | push k c =>
      have running := may.2.2
      rw [stopped] at running
      cases running
  | notify k c woken => cases woken <;> rfl
  | _ => rfl

theorem queue_next (step : Step n R) (may : s.enabled ar step) (stopped : s.stop = true) (empty : s.queue = []) :
    (s.next step).queue = [] := by
  cases step with
  | push k c =>
      have running := may.2.2
      rw [stopped] at running
      cases running
  | pop w task =>
      change s.queue.tail = []
      rw [empty]
      rfl
  | notify k c woken => cases woken <;> exact empty
  | _ => exact empty

/-- A worker that has ended has just done so, or had before. -/
theorem exited_next (step : Step n R) (w : Fin n) (ended : (s.next step).workers w = .exited) :
    s.workers w = .exited ∨ step = .exit w := by
  cases step with
  | exit w' =>
      change (s.setWorker w' .exited).workers w = .exited at ended
      rw [setWorker_eq] at ended
      by_cases same : w = w'
      · rw [same]
        exact Or.inr rfl
      · rw [if_neg same] at ended
        exact Or.inl ended
  | notify k c woken =>
      cases woken with
      | none => exact Or.inl ended
      | some w' => exact Or.inl (exited_setWorker (s := s.setCall k c .waiting) w' .testing (by simp) w ended)
  | pop w' task => exact Or.inl (exited_setWorker w' (.popped task) (by simp) w ended)
  | sleep w' => exact Or.inl (exited_setWorker w' .asleep (by simp) w ended)
  | wake w' => exact Or.inl (exited_setWorker w' .testing (by simp) w ended)
  | lock w' task => exact Or.inl (exited_setWorker w' (.parsing task) (by simp) w ended)
  | parse w' task result => exact Or.inl (exited_setWorker w' (.parsed task result) (by simp) w ended)
  | fulfil w' task result => exact Or.inl (exited_setWorker w' .testing (by simp) w ended)
  | notifyAll =>
      change rouse (s.workers w) = .exited at ended
      cases here : s.workers w with
      | asleep =>
          rw [here] at ended
          cases ended
      | _ =>
          rw [here] at ended
          exact Or.inl ended
  | _ => exact Or.inl ended

theorem Ended.next (ended : s.Ended) (step : Step n R) (may : s.enabled ar step) : (s.next step).Ended := by
  intro w exited
  rcases exited_next step w exited with before | rfl
  · obtain ⟨stopped, empty⟩ := ended w before
    exact ⟨stop_next step stopped, queue_next step may stopped empty⟩
  · exact ⟨may.2.2, may.2.1⟩

end Ended

theorem closing_run [DecidableEq R] (positive : 0 < n) (steps : List (Step n R))
    (valid : (poolSystem n R ar).Valid start steps) :
    ((poolSystem n R ar).run start steps).Good ∧ ((poolSystem n R ar).run start steps).Kept ∧
      ((poolSystem n R ar).run start steps).Ended := by
  refine System.invariant _ (fun s step (closing : s.Good ∧ s.Kept ∧ s.Ended) may => ?_)
    ⟨good_start, ⟨?_, ?_⟩, ?_⟩ valid
  · obtain ⟨good, kept, ended⟩ := closing
    exact ⟨good.next positive step may, kept.next good.worked step may, ended.next step may⟩
  · intro t member
    cases member
  · intro m member
    cases member
  · intro w exited
    cases exited

/-- One worker sleeps when a call has pushed its task. -/
def pushRun (w : Fin 2) : List (Step 2 Bool) :=
  [.sleep w, .pass 0 false sevenPacket, .push 0 ⟨false, sevenPacket, .entered⟩]

/-- Behind the destructor's notify_all the other worker runs the task, the call broadcasts what
it returns, and both workers end. -/
def drainRun (w v : Fin 2) : List (Step 2 Bool) :=
  [.lock v ⟨0, false, sevenPacket⟩, .exit w, .notify 0 ⟨false, sevenPacket, .pushed⟩ none,
    .parse v ⟨0, false, sevenPacket⟩ sevenResult, .fulfil v ⟨0, false, sevenPacket⟩ sevenResult,
    .collect 0 ⟨false, sevenPacket, .waiting⟩ sevenResult, .exit v]

theorem drainRun_valid : (poolSystem 2 Bool .boost).Valid start
    (pushRun 0 ++ .stop :: ([.pop 1 ⟨0, false, sevenPacket⟩] ++ .notifyAll :: drainRun 0 1)) := by
  have seven : ∃ scratch, sevenResult = (Server.parse .boost scratch sevenPacket.data).value :=
    ⟨cleared, Eq.symm (Server.parse_answered (by decide +kernel) (by decide +kernel))⟩
  have awake : ∀ w : Fin 2, ((poolSystem 2 Bool .boost).run start (pushRun 0 ++ .stop ::
      ([.pop 1 ⟨0, false, sevenPacket⟩] ++ .notifyAll :: (drainRun 0 1).take 2))).workers w ≠ .asleep := by
    intro w asleep
    match w with
    | 0 => cases asleep
    | 1 => cases asleep
  exact ⟨⟨rfl, rfl, rfl⟩, rfl, ⟨rfl, rfl, rfl⟩, rfl, ⟨rfl, rfl⟩, rfl, ⟨rfl, rfl⟩, ⟨rfl, rfl, rfl⟩, ⟨rfl, rfl, awake⟩,
    ⟨rfl, seven⟩, rfl, ⟨rfl, rfl, rfl⟩, ⟨rfl, rfl, rfl⟩, trivial⟩

section Drained

/-- Every task that was pushed has been run once, and its call finds the result. -/
structure Drained (s : Pool n R) : Prop where
  stopped : s.stop = true
  empty : s.queue = []
  run : (s.ran.map Prod.fst).Perm s.enqueued
  ready : ∀ k c, s.calls k = some c → c.phase.Queued → ∃ r, s.futures k = some r ∧ (c.task k, r) ∈ s.ran

theorem drained_of_exited (positive : 0 < n) (good : s.Good) (kept : s.Kept) (ended : s.Ended)
    (all : ∀ w, s.workers w = .exited) : s.Drained := by
  obtain ⟨stopped, empty⟩ := ended ⟨0, positive⟩ (all _)
  have idle (w : Fin n) : (s.workers w).task? = none := by
    rw [all w]
    rfl
  have fifo := good.ordered.fifo
  rw [empty, List.append_nil] at fifo
  have set_of_pending (k : Nat) (c : PassCall R) (here : s.calls k = some c)
      (phase : c.phase = .pushed ∨ c.phase = .waiting) : ∃ r, s.futures k = some r := by
    cases unset : s.futures k with
    | some r => exact ⟨r, rfl⟩
    | none =>
        rcases good.pending k c here phase unset with ⟨t, member, _⟩ | ⟨w, t, has, _⟩
        · rw [empty] at member
          cases member
        · rw [idle w] at has
          cases has
  have ran (t : Task R) (member : t ∈ s.enqueued) : ∃ r, (t, r) ∈ s.ran := by
    rw [fifo] at member
    rcases kept.run t member with done | ⟨w, has⟩
    · exact done
    · have none := idle w
      rw [Worker.task_of_unrun has] at none
      cases none
  have once : s.enqueued.Nodup := List.Nodup.of_map _ good.ordered.once
  have each : (s.ran.map Prod.fst).Nodup := by
    apply List.Nodup.of_map Task.call
    rw [List.map_map]
    exact good.worked.once
  refine ⟨stopped, empty, (List.perm_ext_iff_of_nodup each once).mpr (fun t => ?_), fun k c here queued => ?_⟩
  · constructor
    · intro member
      obtain ⟨m, done, rfl⟩ := List.mem_map.mp member
      rw [fifo]
      exact good.worked.ran m done
    · intro member
      obtain ⟨r, done⟩ := ran t member
      exact List.mem_map.mpr ⟨_, done, rfl⟩
  · have ready : ∃ r, s.futures k = some r := by
      cases phase : c.phase with
      | entered =>
          rw [phase] at queued
          exact queued.elim
      | rejected =>
          rw [phase] at queued
          exact queued.elim
      | returned =>
          obtain ⟨r, set, _⟩ := good.delivered.returned k c here phase
          exact ⟨r, set⟩
      | pushed => exact set_of_pending k c here (Or.inl phase)
      | waiting => exact set_of_pending k c here (Or.inr phase)
    obtain ⟨r, set⟩ := ready
    exact ⟨r, set, good.ran_of_future here set⟩

/-- For at least one worker, any callers and every order of their steps: if all workers have
ended, no task was dropped and no caller is left waiting. -/
theorem exited_drained [DecidableEq R] (positive : 0 < n) (steps : List (Step n R))
    (valid : (poolSystem n R ar).Valid start steps)
    (all : ∀ w, ((poolSystem n R ar).run start steps).workers w = .exited) :
    ((poolSystem n R ar).run start steps).Drained := by
  obtain ⟨good, kept, ended⟩ := closing_run positive steps valid
  exact drained_of_exited positive good kept ended all

theorem exited_drained_two :
    ((poolSystem 2 Bool .boost).run start
      (pushRun 0 ++ .stop :: ([.pop 1 ⟨0, false, sevenPacket⟩] ++ .notifyAll :: drainRun 0 1))).Drained ∧
      ((poolSystem 2 Bool .boost).run start
        (pushRun 0 ++ .stop :: ([.pop 1 ⟨0, false, sevenPacket⟩] ++ .notifyAll :: drainRun 0 1))).broadcasts =
          [⟨false, 0, (Server.doWork .boost cleared 7).value⟩] := by
  refine ⟨exited_drained (by decide) _ drainRun_valid fun w => ?_, rfl⟩
  match w with
  | 0 => rfl
  | 1 => rfl

end Drained

section Joined

/-- The pool is stopped and notify_all has reached every sleeper: nobody sleeps again. -/
structure Wound (s : Pool n R) : Prop where
  stopped : s.stop = true
  awake : ∀ w, s.workers w ≠ .asleep

theorem awake_setWorker (w : Fin n) (worker : Worker R) (awake : worker ≠ .asleep) (others : ∀ w, s.workers w ≠ .asleep)
    (w' : Fin n) : (s.setWorker w worker).workers w' ≠ .asleep := by
  rw [setWorker_eq]
  by_cases same : w' = w
  · rw [if_pos same]
    exact awake
  · rw [if_neg same]
    exact others w'

/-- A worker that has not ended goes on, or waits for a thread that does: another worker
in Parse, or a handle_accept inside its section. -/
theorem Wound.step_of_alive (wound : s.Wound) (locked : s.Locked) (w : Fin n) (alive : s.workers w ≠ .exited) :
    ∃ step : Step n R, (step.works = true ∨ ∃ a room, step = .leaveAccept a room) ∧ s.enabled ar step := by
  have parse (w : Fin n) (t : Task R) (parsing : s.workers w = .parsing t) :
      ∃ step : Step n R, (step.works = true ∨ ∃ a room, step = .leaveAccept a room) ∧ s.enabled ar step :=
    ⟨.parse w t _, Or.inl rfl, parsing, ⟨fun _ => 0, fun _ => 0, fun _ => 0⟩, rfl⟩
  cases here : s.workers w with
  | testing =>
      cases queue : s.queue with
      | nil => exact ⟨.exit w, Or.inl rfl, here, queue, wound.stopped⟩
      | cons t rest => exact ⟨.pop w t, Or.inl rfl, here, by rw [queue]; rfl⟩
  | asleep => exact absurd here (wound.awake w)
  | exited => exact absurd here alive
  | parsing t => exact parse w t here
  | parsed t result => exact ⟨.fulfil w t result, Or.inl rfl, here⟩
  | popped t =>
      cases held : s.mutex t.room with
      | none => exact ⟨.lock w t, Or.inl rfl, here, held⟩
      | some owner =>
          cases owner with
          | worker w' =>
              obtain ⟨t', parsing, _⟩ := locked.worker t.room w' held
              exact parse w' t' parsing
          | accept a => exact ⟨.leaveAccept a t.room, Or.inr ⟨a, t.room, rfl⟩, locked.accept t.room a held⟩

variable [DecidableEq R]

theorem wound_notifyAll (may : s.enabled ar (.notifyAll : Step n R)) : (s.next .notifyAll).Wound := by
  refine ⟨may, fun w => ?_⟩
  change rouse (s.workers w) ≠ .asleep
  cases s.workers w <;> simp [rouse]

theorem Wound.next (wound : s.Wound) (step : Step n R) (may : s.enabled ar step) : (s.next step).Wound := by
  refine ⟨stop_next step wound.stopped, ?_⟩
  cases step with
  | sleep w =>
      have running := may.2.2
      rw [wound.stopped] at running
      cases running
  | notify k c woken =>
      cases woken with
      | none => exact wound.awake
      | some w => exact awake_setWorker (s := s.setCall k c .waiting) w .testing (by simp) wound.awake
  | pop w task => exact awake_setWorker w (.popped task) (by simp) wound.awake
  | exit w => exact awake_setWorker w .exited (by simp) wound.awake
  | wake w => exact absurd may (wound.awake w)
  | lock w task => exact awake_setWorker w (.parsing task) (by simp) wound.awake
  | parse w task result => exact awake_setWorker w (.parsed task result) (by simp) wound.awake
  | fulfil w task result => exact awake_setWorker w .testing (by simp) wound.awake
  | notifyAll =>
      intro w
      change rouse (s.workers w) ≠ .asleep
      cases s.workers w <;> simp [rouse]
  | _ => exact wound.awake

/-- From then on only the workers' own steps change what they have left to do. -/
theorem Wound.load_next (wound : s.Wound) (step : Step n R) (may : s.enabled ar step) :
    (s.next step).load + step.works.toNat ≤ s.load + Bool.toNat false := by
  cases works : step.works with
  | true => exact Nat.le_of_eq (load_work step may works)
  | false =>
      cases step with
      | push k c =>
          have running := may.2.2
          rw [wound.stopped] at running
          cases running
      | notify k c woken =>
          cases woken with
          | none => exact Nat.le_refl _
          | some w => exact absurd may.2.2 (wound.awake w)
      | wake w => exact absurd may (wound.awake w)
      | notifyAll =>
          have same : (s.next .notifyAll).workers = s.workers := by
            funext w
            change rouse (s.workers w) = s.workers w
            cases here : s.workers w with
            | asleep => exact absurd here (wound.awake w)
            | _ => rfl
          change 4 * s.queue.length + (s.next .notifyAll).carried + 0 ≤ s.load + 0
          rw [carried, same]
          exact Nat.le_refl _
      | pop w task => cases works
      | sleep w => cases works
      | exit w => cases works
      | lock w task => cases works
      | parse w task result => cases works
      | fulfil w task result => cases works
      | _ => exact Nat.le_refl _

/-- Behind notify_all: a bounded number of steps of the workers, none of which waits for
ever, and no task that was not pushed before `stop`. -/
structure Joins (ar : TextArchive) (stopped notified joined : Pool n R) (after : List (Step n R)) : Prop where
  closed : joined.enqueued = stopped.enqueued
  bounded : after.countP Step.works ≤ n + 4 * notified.inFlight.length
  alive : ∀ w, joined.workers w ≠ .exited →
    ∃ step : Step n R, (step.works = true ∨ ∃ a room, step = .leaveAccept a room) ∧ joined.enabled ar step

/-- The joins of the destructor return, under every schedule of at least one worker and any
callers. -/
theorem destructor_joins (positive : 0 < n) (before middle after : List (Step n R))
    (valid : (poolSystem n R ar).Valid start (before ++ .stop :: (middle ++ .notifyAll :: after))) :
    Joins ar ((poolSystem n R ar).run start (before ++ [.stop]))
      ((poolSystem n R ar).run start (before ++ .stop :: (middle ++ [.notifyAll])))
      ((poolSystem n R ar).run start (before ++ .stop :: (middle ++ .notifyAll :: after))) after := by
  have good : ((poolSystem n R ar).run start (before ++ .stop :: (middle ++ .notifyAll :: after))).Good :=
    good_run positive _ valid
  have first : before ++ .stop :: (middle ++ .notifyAll :: after) =
      (before ++ [.stop]) ++ (middle ++ .notifyAll :: after) := by
    rw [List.append_assoc, List.singleton_append]
  have second : before ++ .stop :: (middle ++ .notifyAll :: after) =
      (before ++ .stop :: (middle ++ [.notifyAll])) ++ after := by
    simp only [List.append_assoc, List.cons_append, List.nil_append]
  have third : before ++ .stop :: (middle ++ [.notifyAll]) = (before ++ .stop :: middle) ++ [.notifyAll] := by
    rw [List.append_assoc, List.cons_append]
  have stopped : ((poolSystem n R ar).run start (before ++ [.stop])).stop = true := by
    rw [System.run_append]
    rfl
  have notified : ((poolSystem n R ar).run start (before ++ .stop :: (middle ++ [.notifyAll]))).Wound := by
    have valid' := valid
    rw [second, System.valid_append, third, System.valid_append] at valid'
    have may : ((poolSystem n R ar).run start (before ++ .stop :: middle)).enabled ar .notifyAll := valid'.1.2.1
    rw [third, System.run_append]
    exact wound_notifyAll may
  refine ⟨?_, ?_, ?_⟩
  · rw [first, System.valid_append] at valid
    rw [first, System.run_append]
    have kept := System.invariant (poolSystem n R ar)
      (fun s step (inv : s.stop = true ∧ s.enqueued =
        ((poolSystem n R ar).run start (before ++ [.stop])).enqueued) may =>
        ⟨stop_next step inv.1, (enqueued_next step may inv.1).trans inv.2⟩) ⟨stopped, rfl⟩ valid.2
    exact kept.2
  · rw [second, System.valid_append] at valid
    have spent := System.spent_le (poolSystem n R ar)
      (fun s step (wound : s.Wound) may _ => wound.next step may)
      (fun s step (wound : s.Wound) may _ => wound.load_next step may) notified valid.2 (System.always_true _ _ _)
    have nothing : after.countP (fun _ => false) = 0 := List.countP_eq_zero.mpr (by simp)
    have load := ((poolSystem n R ar).run start (before ++ .stop :: (middle ++ [.notifyAll]))).load_le
    omega
  · rw [second, System.valid_append] at valid
    have wound : ((poolSystem n R ar).run ((poolSystem n R ar).run start
        (before ++ .stop :: (middle ++ [.notifyAll]))) after).Wound :=
      System.invariant (poolSystem n R ar) (fun s step (wound : s.Wound) may => wound.next step may) notified valid.2
    rw [← System.run_append, ← second] at wound
    exact fun w alive => wound.step_of_alive good.locked w alive

theorem destructor_joins_two :
    Joins .boost ((poolSystem 2 Bool .boost).run start (pushRun 0 ++ [.stop]))
      ((poolSystem 2 Bool .boost).run start (pushRun 0 ++ .stop :: ([.pop 1 ⟨0, false, sevenPacket⟩] ++ [.notifyAll])))
      ((poolSystem 2 Bool .boost).run start
        (pushRun 0 ++ .stop :: ([.pop 1 ⟨0, false, sevenPacket⟩] ++ .notifyAll :: drainRun 0 1))) (drainRun 0 1) :=
  destructor_joins (by decide) (pushRun 0) [.pop 1 ⟨0, false, sevenPacket⟩] (drainRun 0 1) drainRun_valid

end Joined

end GameServer.ThreadPool.Pool
