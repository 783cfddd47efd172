import GameServer.ThreadPool
import Mathlib.Data.List.Nodup

set_option autoImplicit false

/- What happens to the tasks of the pool: they are taken in the order of their pushes,
each is run once, and a call broadcasts what its own task returned. -/
namespace GameServer.ThreadPool

open Base

variable {n : Nat} {R : Type}

/-- The call has pushed its task. -/
def Phase.Queued : Phase → Prop
  | .entered => False
  | .rejected => False
  | _ => True

namespace Step

/-- The task a step puts into the queue. -/
def pushed : Step n R → Option (Task R)
  | .push k c => some (c.task k)
  | _ => none

/-- The task a step takes out of the queue. -/
def popped : Step n R → Option (Task R)
  | .pop _ task => some task
  | _ => none

/-- The task a step runs, and its result. -/
def ran : Step n R → Option (Task R × TaskResult)
  | .parse _ task result => some (task, result)
  | _ => none

end Step

namespace Worker

/-- The task a worker has popped and not finished. -/
def task? : Worker R → Option (Task R)
  | .popped task => some task
  | .parsing task => some task
  | .parsed task _ => some task
  | _ => none

/-- The task a worker has popped and not run. -/
def unrun : Worker R → Option (Task R)
  | .popped task => some task
  | .parsing task => some task
  | _ => none

theorem task_of_unrun {worker : Worker R} {task : Task R} (unrun : worker.unrun = some task) :
    worker.task? = some task := by
  cases worker <;> first | exact unrun | cases unrun

/-- `worker` has no task that `before` had not. -/
structure Below (worker before : Worker R) : Prop where
  task : ∀ t, worker.task? = some t → before.task? = some t
  unrun : ∀ t, worker.unrun = some t → before.unrun = some t
  parsed : ∀ t r, worker = .parsed t r → before = .parsed t r

theorem Below.refl (worker : Worker R) : worker.Below worker := ⟨fun _ => id, fun _ => id, fun _ _ => id⟩

theorem Below.of_idle {worker before : Worker R} (idle : worker.task? = none) : worker.Below before := by
  refine ⟨?_, ?_, ?_⟩
  · intro t has
    rw [idle] at has
    cases has
  · intro t has
    rw [task_of_unrun has] at idle
    cases idle
  · rintro t r rfl
    cases idle

theorem Below.parsing (task : Task R) : Below (.parsing task) (.popped task) := by
  refine ⟨fun _ => id, fun _ => id, ?_⟩
  intro t r impossible
  cases impossible

theorem Below.rouse (worker : Worker R) : Below (Pool.rouse worker) worker := by
  cases worker with
  | asleep => exact Below.of_idle rfl
  | _ => exact Below.refl _

end Worker

namespace Pool

/-- The queue between its two logs, and the calls the tasks in it belong to. -/
structure Ordered (s : Pool n R) : Prop where
  fifo : s.enqueued = s.taken ++ s.queue
  once : (s.enqueued.map Task.call).Nodup
  queued : ∀ t ∈ s.enqueued, ∃ c, s.calls t.call = some c ∧ c.task t.call = t ∧ c.phase.Queued

/-- Which worker has which task, and the results of the tasks that were run. -/
structure Worked (s : Pool n R) : Prop where
  taken : ∀ w t, (s.workers w).task? = some t → t ∈ s.taken
  apart : ∀ w w' t t', (s.workers w).task? = some t → (s.workers w').task? = some t' → t.call = t'.call → w = w'
  fresh : ∀ w t, (s.workers w).unrun = some t → t.call ∉ s.ran.map fun m => m.1.call
  once : (s.ran.map fun m => m.1.call).Nodup
  ran : ∀ m ∈ s.ran, m.1 ∈ s.taken
  parsed : ∀ w t r, s.workers w = .parsed t r → (t, r) ∈ s.ran
  fulfilled : ∀ k r, s.futures k = some r → ∃ t, t.call = k ∧ (t, r) ∈ s.ran
  unset : ∀ w t, (s.workers w).task? = some t → s.futures t.call = none

def broadcastsOf (s : Pool n R) (k : Nat) : List (Broadcast R) := s.broadcasts.filter fun b => b.call = k

/-- What the calls have broadcast. -/
structure Delivered (s : Pool n R) : Prop where
  returned : ∀ k c, s.calls k = some c → c.phase = .returned →
    ∃ r, s.futures k = some r ∧ s.broadcastsOf k = (passTask r).toList.map fun packet => ⟨c.room, k, packet⟩
  silent : ∀ k, (∀ c, s.calls k = some c → c.phase ≠ .returned) → s.broadcastsOf k = []

variable {ar : TextArchive} {s : Pool n R}

theorem setCall_eq (k : Nat) (c : PassCall R) (phase : Phase) (k' : Nat) :
    (s.setCall k c phase).calls k' = if k' = k then some { c with phase } else s.calls k' := by
  simp only [setCall, Function.update_apply]

theorem Ordered.unqueued (ordered : s.Ordered) {k : Nat} (out : ∀ c, s.calls k = some c → ¬ c.phase.Queued)
    {t : Task R} (member : t ∈ s.enqueued) : t.call ≠ k := by
  rintro rfl
  obtain ⟨c, here, _, queued⟩ := ordered.queued t member
  exact out c here queued

/-- A call that goes on keeps its task. -/
theorem Ordered.queued_setCall (ordered : s.Ordered) (k : Nat) (c : PassCall R) (phase : Phase)
    (goes : s.calls k = some c ∧ phase.Queued ∨ ∀ c', s.calls k = some c' → ¬ c'.phase.Queued)
    (t : Task R) (member : t ∈ s.enqueued) :
    ∃ c', (s.setCall k c phase).calls t.call = some c' ∧ c'.task t.call = t ∧ c'.phase.Queued := by
  obtain ⟨c', here, same, queued⟩ := ordered.queued t member
  rw [setCall_eq]
  by_cases this : t.call = k
  · rw [if_pos this]
    rcases goes with ⟨before, after⟩ | out
    · rw [this, before] at here
      cases here
      exact ⟨_, rfl, same, after⟩
    · exact absurd this (ordered.unqueued out member)
  · rw [if_neg this]
    exact ⟨c', here, same, queued⟩

theorem Ordered.setCall (ordered : s.Ordered) (k : Nat) (c : PassCall R) (phase : Phase)
    (goes : s.calls k = some c ∧ phase.Queued ∨ ∀ c', s.calls k = some c' → ¬ c'.phase.Queued) :
    (s.setCall k c phase).Ordered :=
  ⟨ordered.fifo, ordered.once, ordered.queued_setCall k c phase goes⟩

theorem not_queued {k : Nat} {c : PassCall R} (here : s.calls k = some c) (phase : c.phase = .entered) :
    ∀ c', s.calls k = some c' → ¬ c'.phase.Queued := by
  intro c' same
  rw [here, Option.some.injEq] at same
  rw [← same, phase]
  exact id

theorem Ordered.next [DecidableEq R] (ordered : s.Ordered) (step : Step n R) (may : s.enabled ar step) :
    (s.next step).Ordered := by
  cases step with
  | pass k room packet =>
      apply ordered.setCall
      apply Or.inr
      intro c here
      rw [show s.calls k = none from may] at here
      cases here
  | push k c =>
      obtain ⟨here, phase, _⟩ := may
      have out := not_queued here phase
      refine ⟨?_, ?_, ?_⟩
      · change s.enqueued ++ [c.task k] = s.taken ++ (s.queue ++ [c.task k])
        rw [ordered.fifo, List.append_assoc]
      · change ((s.enqueued ++ [c.task k]).map Task.call).Nodup
        rw [List.map_append, List.map_singleton, List.nodup_append]
        refine ⟨ordered.once, List.nodup_singleton _, fun k' before k'' new => ?_⟩
        obtain ⟨t, member, rfl⟩ := List.mem_map.mp before
        rw [List.mem_singleton.mp new]
        exact ordered.unqueued out member
      · intro t member
        rcases List.mem_append.mp member with before | new
        · exact ordered.queued_setCall k c .pushed (Or.inr out) t before
        · rw [List.mem_singleton.mp new]
          refine ⟨{ c with phase := .pushed }, ?_, rfl, trivial⟩
          change (s.setCall k c .pushed).calls k = _
          rw [setCall_eq, if_pos rfl]
  | reject k c => exact ordered.setCall k c .rejected (Or.inr (not_queued may.1 may.2.1))
  | notify k c woken =>
      have kept := ordered.setCall k c .waiting (Or.inl ⟨may.1, trivial⟩)
      cases woken <;> exact ⟨kept.fifo, kept.once, kept.queued⟩
  | collect k c result =>
      have kept := ordered.setCall k c .returned (Or.inl ⟨may.1, trivial⟩)
      exact ⟨kept.fifo, kept.once, kept.queued⟩
  | pop w task =>
      refine ⟨?_, ordered.once, ordered.queued⟩
      change s.enqueued = s.taken ++ [task] ++ s.queue.tail
      rw [ordered.fifo, List.append_assoc, List.singleton_append, List.cons_head?_tail may.2]
  | _ => exact ⟨ordered.fifo, ordered.once, ordered.queued⟩

theorem Worked.of_below {s' : Pool n R} (worked : s.Worked) (below : ∀ w, (s'.workers w).Below (s.workers w))
    (taken : s'.taken = s.taken) (ran : s'.ran = s.ran) (futures : s'.futures = s.futures) : s'.Worked := by
  refine ⟨?_, ?_, ?_, ?_, ?_, ?_, ?_, ?_⟩
  · intro w t has
    rw [taken]
    exact worked.taken w t ((below w).task t has)
  · intro w w' t t' has has' same
    exact worked.apart w w' t t' ((below w).task t has) ((below w').task t' has') same
  · intro w t has
    rw [ran]
    exact worked.fresh w t ((below w).unrun t has)
  · rw [ran]
    exact worked.once
  · rw [ran, taken]
    exact worked.ran
  · intro w t r has
    rw [ran]
    exact worked.parsed w t r ((below w).parsed t r has)
  · rw [futures, ran]
    exact worked.fulfilled
  · intro w t has
    rw [futures]
    exact worked.unset w t ((below w).task t has)

theorem setWorker_eq (w : Fin n) (worker : Worker R) (w' : Fin n) :
    (s.setWorker w worker).workers w' = if w' = w then worker else s.workers w' := by
  simp only [setWorker, Function.update_apply]

theorem setWorker_below (w : Fin n) (worker : Worker R) (below : worker.Below (s.workers w)) (w' : Fin n) :
    ((s.setWorker w worker).workers w').Below (s.workers w') := by
  rw [setWorker_eq]
  by_cases this : w' = w
  · rw [if_pos this, this]
    exact below
  · rw [if_neg this]
    exact Worker.Below.refl _

/-- The task at the head of the queue is new to the workers and to the results. -/
theorem Worked.pop (worked : s.Worked) (ordered : s.Ordered) (w : Fin n) (task : Task R)
    (head : s.queue.head? = some task) :
    Worked { s.setWorker w (.popped task) with queue := s.queue.tail, taken := s.taken ++ [task] } := by
  have once := ordered.once
  rw [ordered.fifo, ← List.cons_head?_tail head, List.map_append, List.nodup_append] at once
  have new : ∀ t ∈ s.taken, t.call ≠ task.call := by
    intro t member
    exact once.2.2 _ (List.mem_map_of_mem member) _ (by rw [List.map_cons]; exact List.mem_cons_self)
  have has (w' : Fin n) (t : Task R) (has : ((s.setWorker w (.popped task)).workers w').task? = some t) :
      w' = w ∧ t = task ∨ w' ≠ w ∧ (s.workers w').task? = some t := by
    rw [setWorker_eq] at has
    by_cases this : w' = w
    · rw [if_pos this] at has
      cases has
      exact Or.inl ⟨this, rfl⟩
    · rw [if_neg this] at has
      exact Or.inr ⟨this, has⟩
  refine ⟨?_, ?_, ?_, worked.once, ?_, ?_, worked.fulfilled, ?_⟩
  · intro w' t popped
    rcases has w' t popped with ⟨_, rfl⟩ | ⟨_, before⟩
    · exact List.mem_append_right _ (List.mem_singleton_self _)
    · exact List.mem_append_left _ (worked.taken w' t before)
  · intro w' w'' t t' popped popped' same
    rcases has w' t popped with ⟨rfl, rfl⟩ | ⟨_, before⟩
    · rcases has w'' t' popped' with ⟨rfl, _⟩ | ⟨_, before'⟩
      · rfl
      · exact absurd same.symm (new t' (worked.taken w'' t' before'))
    · rcases has w'' t' popped' with ⟨_, rfl⟩ | ⟨_, before'⟩
      · exact absurd same (new t (worked.taken w' t before))
      · exact worked.apart w' w'' t t' before before' same
  · intro w' t unrun ran
    rcases has w' t (Worker.task_of_unrun unrun) with ⟨_, rfl⟩ | ⟨other, _⟩
    · obtain ⟨m, member, same⟩ := List.mem_map.mp ran
      exact new m.1 (worked.ran m member) same
    · rw [setWorker_eq, if_neg other] at unrun
      exact worked.fresh w' t unrun ran
  · intro m member
    exact List.mem_append_left _ (worked.ran m member)
  · intro w' t r parsed
    rcases has w' t (by rw [parsed]; rfl) with ⟨rfl, _⟩ | ⟨other, _⟩
    · rw [setWorker_eq, if_pos rfl] at parsed
      cases parsed
    · rw [setWorker_eq, if_neg other] at parsed
      exact worked.parsed w' t r parsed
  · intro w' t popped
    rcases has w' t popped with ⟨_, rfl⟩ | ⟨_, before⟩
    · cases set : s.futures t.call with
      | none => exact set
      | some r =>
          obtain ⟨t', same, member⟩ := worked.fulfilled _ _ set
          exact absurd same (new t' (worked.ran _ member))
    · exact worked.unset w' t before

/-- Parse runs the task of a worker, which no one has run before. -/
theorem Worked.parse [DecidableEq R] (worked : s.Worked) (w : Fin n) (task : Task R) (result : TaskResult)
    (here : s.workers w = .parsing task) : (s.next (.parse w task result)).Worked := by
  have mine : (s.workers w).task? = some task := by rw [here]; rfl
  have has (w' : Fin n) : ((s.next (.parse w task result)).workers w').task? = (s.workers w').task? := by
    change ((s.setWorker w (.parsed task result)).workers w').task? = _
    rw [setWorker_eq]
    split
    · rename_i this
      rw [this, mine]
      rfl
    · rfl
  have others (w' : Fin n) (other : w' ≠ w) : (s.next (.parse w task result)).workers w' = s.workers w' := by
    change (s.setWorker w (.parsed task result)).workers w' = _
    rw [setWorker_eq, if_neg other]
  have self : (s.next (.parse w task result)).workers w = .parsed task result := by
    change (s.setWorker w (.parsed task result)).workers w = _
    rw [setWorker_eq, if_pos rfl]
  have new : task.call ∉ s.ran.map fun m => m.1.call := worked.fresh w task (by rw [here]; rfl)
  refine ⟨?_, ?_, ?_, ?_, ?_, ?_, ?_, ?_⟩
  · intro w' t popped
    rw [has] at popped
    exact worked.taken w' t popped
  · intro w' w'' t t' popped popped' same
    rw [has] at popped popped'
    exact worked.apart w' w'' t t' popped popped' same
  · intro w' t unrun ran
    by_cases this : w' = w
    · rw [this, self] at unrun
      cases unrun
    · rw [others w' this] at unrun
      change t.call ∈ (s.ran ++ [(task, result)]).map _ at ran
      rw [List.map_append, List.mem_append] at ran
      rcases ran with before | now
      · exact worked.fresh w' t unrun before
      · exact this (worked.apart w' w t task (Worker.task_of_unrun unrun) mine (List.mem_singleton.mp now))
  · change ((s.ran ++ [(task, result)]).map _).Nodup
    rw [List.map_append, List.nodup_append]
    refine ⟨worked.once, List.nodup_singleton _, fun k before k' now => ?_⟩
    rintro rfl
    rw [List.mem_singleton.mp now] at before
    exact new before
  · intro m member
    rcases List.mem_append.mp member with before | now
    · exact worked.ran m before
    · rw [List.mem_singleton.mp now]
      exact worked.taken w task mine
  · intro w' t r parsed
    by_cases this : w' = w
    · rw [this, self] at parsed
      cases parsed
      exact List.mem_append_right _ (List.mem_singleton_self _)
    · rw [others w' this] at parsed
      exact List.mem_append_left _ (worked.parsed w' t r parsed)
  · intro k r set
    obtain ⟨t, same, member⟩ := worked.fulfilled k r set
    exact ⟨t, same, List.mem_append_left _ member⟩
  · intro w' t popped
    rw [has] at popped
    exact worked.unset w' t popped

/-- The packaged_task of a worker sets its own future and no other. -/
theorem Worked.fulfil [DecidableEq R] (worked : s.Worked) (w : Fin n) (task : Task R) (result : TaskResult)
    (here : s.workers w = .parsed task result) : (s.next (.fulfil w task result)).Worked := by
  have mine : (s.workers w).task? = some task := by rw [here]; rfl
  have below := setWorker_below (s := s) w .testing (Worker.Below.of_idle rfl)
  have kept : (s.setWorker w .testing).Worked := worked.of_below below rfl rfl rfl
  refine ⟨kept.taken, kept.apart, kept.fresh, kept.once, kept.ran, kept.parsed, ?_, ?_⟩
  · intro k r set
    change Function.update s.futures task.call (some result) k = some r at set
    rw [Function.update_apply] at set
    by_cases this : k = task.call
    · rw [if_pos this] at set
      cases set
      exact ⟨task, this.symm, worked.parsed w task result here⟩
    · rw [if_neg this] at set
      exact worked.fulfilled k r set
  · intro w' t popped
    change Function.update s.futures task.call (some result) t.call = none
    change ((s.setWorker w .testing).workers w').task? = some t at popped
    have other : w' ≠ w := by
      rintro rfl
      rw [setWorker_eq, if_pos rfl] at popped
      cases popped
    rw [setWorker_eq, if_neg other] at popped
    have apart : t.call ≠ task.call := fun same => other (worked.apart w' w t task popped mine same)
    rw [Function.update_of_ne apart]
    exact worked.unset w' t popped

theorem Worked.next [DecidableEq R] (worked : s.Worked) (ordered : s.Ordered) (step : Step n R)
    (may : s.enabled ar step) : (s.next step).Worked := by
  have idle (w : Fin n) (worker : Worker R) (none : worker.task? = none) : (s.setWorker w worker).Worked :=
    worked.of_below (setWorker_below w worker (Worker.Below.of_idle none)) rfl rfl rfl
  have same (s' : Pool n R) (workers : s'.workers = s.workers) (taken : s'.taken = s.taken) (ran : s'.ran = s.ran)
      (futures : s'.futures = s.futures) : s'.Worked :=
    worked.of_below (fun w => by rw [workers]; exact Worker.Below.refl _) taken ran futures
  cases step with
  | notify k c woken =>
      cases woken with
      | none => exact same _ rfl rfl rfl rfl
      | some w =>
          exact worked.of_below (setWorker_below w .testing (Worker.Below.of_idle rfl)) rfl rfl rfl
  | pop w task => exact worked.pop ordered w task may.2
  | sleep w => exact idle w .asleep rfl
  | exit w => exact idle w .exited rfl
  | wake w => exact idle w .testing rfl
  | lock w task =>
      have below : Worker.Below (.parsing task) (s.workers w) := by
        rw [may.1]
        exact Worker.Below.parsing task
      exact worked.of_below (setWorker_below w _ below) rfl rfl rfl
  | parse w task result => exact worked.parse w task result may.1
  | fulfil w task result => exact worked.fulfil w task result may
  | notifyAll => exact worked.of_below (fun w => Worker.Below.rouse (s.workers w)) rfl rfl rfl
  | _ => exact same _ rfl rfl rfl rfl

/-- The logs of the pool are what the steps of the run have done. -/
theorem run_logs [DecidableEq R] (ar : TextArchive) (s : Pool n R) (steps : List (Step n R)) :
    ((poolSystem n R ar).run s steps).enqueued = s.enqueued ++ steps.filterMap Step.pushed ∧
      ((poolSystem n R ar).run s steps).taken = s.taken ++ steps.filterMap Step.popped ∧
      ((poolSystem n R ar).run s steps).ran = s.ran ++ steps.filterMap Step.ran := by
  induction steps generalizing s with
  | nil => exact ⟨(List.append_nil _).symm, (List.append_nil _).symm, (List.append_nil _).symm⟩
  | cons step steps ih =>
      obtain ⟨enqueued, taken, ran⟩ := ih (s.next step)
      have one : (s.next step).enqueued = s.enqueued ++ (Step.pushed step).toList ∧
          (s.next step).taken = s.taken ++ (Step.popped step).toList ∧
          (s.next step).ran = s.ran ++ (Step.ran step).toList := by
        cases step with
        | push k c => exact ⟨rfl, (List.append_nil _).symm, (List.append_nil _).symm⟩
        | pop w task => exact ⟨(List.append_nil _).symm, rfl, (List.append_nil _).symm⟩
        | parse w task result => exact ⟨(List.append_nil _).symm, (List.append_nil _).symm, rfl⟩
        | notify k c woken =>
            cases woken <;> exact ⟨(List.append_nil _).symm, (List.append_nil _).symm, (List.append_nil _).symm⟩
        | _ => exact ⟨(List.append_nil _).symm, (List.append_nil _).symm, (List.append_nil _).symm⟩
      have found {α : Type} (f : Step n R → Option α) :
          (step :: steps).filterMap f = (f step).toList ++ steps.filterMap f := by
        rw [List.filterMap_cons]
        cases f step <;> rfl
      rw [found, found, found, ← List.append_assoc, ← List.append_assoc, ← List.append_assoc, ← one.1, ← one.2.1,
        ← one.2.2]
      exact ⟨enqueued, taken, ran⟩

theorem Delivered.of_eq {s' : Pool n R} (delivered : s.Delivered) (calls : s'.calls = s.calls)
    (futures : s'.futures = s.futures) (broadcasts : s'.broadcasts = s.broadcasts) : s'.Delivered := by
  constructor
  · rw [calls, futures]
    unfold broadcastsOf
    rw [broadcasts]
    exact delivered.returned
  · rw [calls]
    unfold broadcastsOf
    rw [broadcasts]
    exact delivered.silent

/-- A call that has not returned moves on without returning. -/
theorem Delivered.setCall (delivered : s.Delivered) (k : Nat) (c : PassCall R) (phase : Phase)
    (before : ∀ c', s.calls k = some c' → c'.phase ≠ .returned) (after : phase ≠ .returned) :
    (s.setCall k c phase).Delivered := by
  constructor
  · intro k' c' here returned
    rw [setCall_eq] at here
    by_cases this : k' = k
    · rw [if_pos this] at here
      cases here
      exact absurd returned after
    · rw [if_neg this] at here
      exact delivered.returned k' c' here returned
  · intro k' none
    by_cases this : k' = k
    · subst this
      exact delivered.silent k' before
    · apply delivered.silent k'
      intro c' here
      apply none c'
      rw [setCall_eq, if_neg this]
      exact here

theorem Delivered.collect [DecidableEq R] (delivered : s.Delivered) (k : Nat) (c : PassCall R)
    (result : TaskResult) (here : s.calls k = some c) (phase : c.phase = .waiting)
    (ready : s.futures k = some result) : (s.next (.collect k c result)).Delivered := by
  have sent (k' : Nat) : (s.next (.collect k c result)).broadcastsOf k' = s.broadcastsOf k' ++
      if k' = k then (passTask result).toList.map fun packet => ⟨c.room, k, packet⟩ else [] := by
    change (s.broadcasts ++ _).filter _ = _
    rw [List.filter_append]
    congr 1
    by_cases this : k' = k
    · subst this
      simp
    · simp [this, Ne.symm this]
  constructor
  · intro k' c' there returned
    change (s.setCall k c .returned).calls k' = some c' at there
    rw [setCall_eq] at there
    by_cases this : k' = k
    · subst this
      rw [if_pos rfl] at there
      cases there
      have silent : s.broadcastsOf k' = [] := by
        apply delivered.silent
        intro c' same
        rw [here] at same
        cases same
        rw [phase]
        exact Phase.noConfusion
      exact ⟨result, ready, by rw [sent, if_pos rfl, silent, List.nil_append]⟩
    · rw [if_neg this] at there
      obtain ⟨r, set, broadcasts⟩ := delivered.returned k' c' there returned
      exact ⟨r, set, by rw [sent, if_neg this, List.append_nil, broadcasts]⟩
  · intro k' none
    have other : k' ≠ k := by
      rintro rfl
      refine none { c with phase := .returned } ?_ rfl
      change (s.setCall k' c .returned).calls k' = _
      rw [setCall_eq, if_pos rfl]
    rw [sent, if_neg other, List.append_nil]
    apply delivered.silent
    intro c' there
    apply none c'
    change (s.setCall k c .returned).calls k' = _
    rw [setCall_eq, if_neg other]
    exact there

theorem Delivered.next [DecidableEq R] (delivered : s.Delivered) (worked : s.Worked) (step : Step n R)
    (may : s.enabled ar step) : (s.next step).Delivered := by
  have unreturned {k : Nat} {c : PassCall R} (here : s.calls k = some c) (phase : c.phase ≠ .returned) :
      ∀ c', s.calls k = some c' → c'.phase ≠ .returned := by
    intro c' same
    rw [here] at same
    cases same
    exact phase
  cases step with
  | pass k room packet =>
      refine delivered.setCall k _ .entered (fun c here => ?_) (by decide)
      rw [show s.calls k = none from may] at here
      cases here
  | push k c =>
      have moved := delivered.setCall k c .pushed (unreturned may.1 (by rw [may.2.1]; decide)) (by decide)
      exact moved.of_eq rfl rfl rfl
  | reject k c => exact delivered.setCall k c .rejected (unreturned may.1 (by rw [may.2.1]; decide)) (by decide)
  | notify k c woken =>
      have moved := delivered.setCall k c .waiting (unreturned may.1 (by rw [may.2.1]; decide)) (by decide)
      cases woken <;> exact moved.of_eq rfl rfl rfl
  | collect k c result => exact delivered.collect k c result may.1 may.2.1 may.2.2
  | fulfil w task result =>
      refine ⟨?_, delivered.silent⟩
      intro k c here returned
      obtain ⟨r, set, broadcasts⟩ := delivered.returned k c here returned
      have unset := worked.unset w task (by rw [show s.workers w = .parsed task result from may]; rfl)
      have other : k ≠ task.call := by
        rintro rfl
        rw [unset] at set
        cases set
      refine ⟨r, ?_, broadcasts⟩
      change Function.update s.futures task.call (some result) k = some r
      rw [Function.update_of_ne other]
      exact set
  | _ => exact delivered.of_eq rfl rfl rfl

end Pool

end GameServer.ThreadPool
