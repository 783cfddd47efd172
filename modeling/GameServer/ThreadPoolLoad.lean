import GameServer.ThreadPoolProgress
import Mathlib.Algebra.BigOperators.Fin

set_option autoImplicit false

/- How much work the workers have left: the steps they take by themselves for the tasks
that are queued or popped, and to fall asleep or end behind them. -/
namespace GameServer.ThreadPool

open Base

variable {n : Nat} {R : Type}

def Worker.weight : Worker R → Nat
  | .testing => 1
  | .asleep => 0
  | .popped _ => 4
  | .parsing _ => 3
  | .parsed _ _ => 2
  | .exited => 0

theorem Worker.weight_le (worker : Worker R) : worker.weight ≤ 1 + 3 * worker.task?.toList.length := by
  cases worker <;> exact Nat.le_of_ble_eq_true rfl

/-- The steps of the workers alone, the waking ones left out. -/
def Step.works : Step n R → Bool
  | .pop _ _ => true
  | .sleep _ => true
  | .exit _ => true
  | .lock _ _ => true
  | .parse _ _ _ => true
  | .fulfil _ _ _ => true
  | _ => false

namespace Pool

/-- What the workers have in hand. -/
def carried (s : Pool n R) : Nat := ((List.finRange n).map fun w => (s.workers w).weight).sum

def load (s : Pool n R) : Nat := 4 * s.queue.length + s.carried

variable {ar : TextArchive} {s : Pool n R}

theorem carried_eq (s : Pool n R) : s.carried = ∑ w, (s.workers w).weight := by
  rw [carried, Fin.sum_univ_def]

/-- A worker gets to another place: its weight is exchanged. -/
theorem carried_update (s' : Pool n R) (w : Fin n) (worker : Worker R)
    (workers : s'.workers = Function.update s.workers w worker) :
    s'.carried + (s.workers w).weight = s.carried + worker.weight := by
  have weights : (fun w' => (s'.workers w').weight) =
      Function.update (fun w' => (s.workers w').weight) w worker.weight := by
    funext w'
    rw [workers, Function.update_apply, Function.update_apply]
    by_cases same : w' = w
    · rw [if_pos same, if_pos same]
    · rw [if_neg same, if_neg same]
  rw [carried_eq, carried_eq, weights, Finset.sum_update_of_mem (Finset.mem_univ w), Finset.sdiff_singleton_eq_erase,
    ← Finset.add_sum_erase _ _ (Finset.mem_univ w)]
  omega

theorem load_of_worker (s' : Pool n R) (w : Fin n) (worker : Worker R)
    (workers : s'.workers = Function.update s.workers w worker) (queue : s'.queue = s.queue) :
    s'.load + (s.workers w).weight = s.load + worker.weight := by
  have exchanged := carried_update s' w worker workers
  rw [load, load, queue]
  omega

section Next

variable [DecidableEq R]

/-- Every step of a worker is paid for. -/
theorem load_work (step : Step n R) (may : s.enabled ar step) (works : step.works = true) :
    (s.next step).load + 1 = s.load := by
  cases step with
  | pop w task =>
      have exchanged := carried_update (s.next (.pop w task)) w (.popped task) rfl
      have shorter : s.queue.length = (s.next (.pop w task)).queue.length + 1 := by
        rw [← List.cons_head?_tail may.2]
        rfl
      rw [may.1, Worker.weight, Worker.weight] at exchanged
      rw [load, load]
      omega
  | sleep w =>
      have exchanged := load_of_worker (s.next (.sleep w)) w .asleep rfl rfl
      rw [may.1, Worker.weight, Worker.weight] at exchanged
      omega
  | exit w =>
      have exchanged := load_of_worker (s.next (.exit w)) w .exited rfl rfl
      rw [may.1, Worker.weight, Worker.weight] at exchanged
      omega
  | lock w task =>
      have exchanged := load_of_worker (s.next (.lock w task)) w (.parsing task) rfl rfl
      rw [may.1, Worker.weight, Worker.weight] at exchanged
      omega
  | parse w task result =>
      have exchanged := load_of_worker (s.next (.parse w task result)) w (.parsed task result) rfl rfl
      rw [may.1, Worker.weight, Worker.weight] at exchanged
      omega
  | fulfil w task result =>
      have exchanged := load_of_worker (s.next (.fulfil w task result)) w .testing rfl rfl
      rw [show s.workers w = .parsed task result from may, Worker.weight, Worker.weight] at exchanged
      omega
  | _ => cases works

theorem load_push (k : Nat) (c : PassCall R) : (s.next (.push k c)).load = s.load + 4 := by
  have same : (s.next (.push k c)).carried = s.carried := rfl
  have longer : (s.next (.push k c)).queue.length = s.queue.length + 1 := List.length_append
  rw [load, load]
  omega

theorem load_wake (w : Fin n) (may : s.enabled ar (.wake w)) : (s.next (.wake w)).load = s.load + 1 := by
  have exchanged := load_of_worker (s.next (.wake w)) w .testing rfl rfl
  rw [show s.workers w = .asleep from may, Worker.weight, Worker.weight] at exchanged
  omega

/-- notify_one adds at most the step by which the woken worker falls asleep again. -/
theorem load_notify (k : Nat) (c : PassCall R) (woken : Option (Fin n)) (may : s.enabled ar (.notify k c woken)) :
    (s.next (.notify k c woken)).load ≤ s.load + 1 := by
  cases woken with
  | none => exact Nat.le_succ _
  | some w =>
      have exchanged := load_of_worker (s := s) (s.next (.notify k c (some w))) w .testing rfl rfl
      rw [show s.workers w = .asleep from may.2.2, Worker.weight, Worker.weight] at exchanged
      omega

end Next

/-- A worker without a task has at most one step left. -/
theorem carried_le (s : Pool n R) : s.carried ≤ n + 3 * ((List.finRange n).filterMap fun w => (s.workers w).task?).length := by
  have bound (ws : List (Fin n)) : (ws.map fun w => (s.workers w).weight).sum ≤
      ws.length + 3 * (ws.filterMap fun w => (s.workers w).task?).length := by
    induction ws with
    | nil => exact Nat.le_refl _
    | cons w ws ih =>
        have first := (s.workers w).weight_le
        have tasks : ((w :: ws).filterMap fun w => (s.workers w).task?).length =
            (s.workers w).task?.toList.length + (ws.filterMap fun w => (s.workers w).task?).length := by
          rw [List.filterMap_cons]
          cases (s.workers w).task? with
          | none => exact (Nat.zero_add _).symm
          | some t => exact Nat.add_comm _ 1
        rw [List.map_cons, List.sum_cons, List.length_cons, tasks]
        omega
  have whole := bound (List.finRange n)
  rw [List.length_finRange] at whole
  exact whole

section InFlight

/-- A task in the queue belongs to a call whose future is not set. -/
theorem Good.unset_of_queue (good : s.Good) {t : Task R} (member : t ∈ s.queue) : s.futures t.call = none := by
  cases set : s.futures t.call with
  | none => rfl
  | some r =>
      obtain ⟨t', same, ran⟩ := good.worked.fulfilled _ r set
      have once := good.ordered.once
      rw [good.ordered.fifo, List.map_append, List.nodup_append] at once
      exact absurd same (once.2.2 _ (List.mem_map_of_mem (good.worked.ran _ ran)) _ (List.mem_map_of_mem member))

/-- A task that is not finished belongs to a call in progress. -/
theorem Good.inProgress (good : s.Good) {t : Task R} (member : t ∈ s.enqueued) (unset : s.futures t.call = none) :
    ∃ c, s.calls t.call = some c ∧ c.task t.call = t ∧ c.phase.InProgress := by
  obtain ⟨c, here, task, queued⟩ := good.ordered.queued t member
  refine ⟨c, here, task, ?_⟩
  cases phase : c.phase with
  | returned =>
      obtain ⟨r, set, _⟩ := good.delivered.returned _ c here phase
      rw [unset] at set
      cases set
  | pushed => trivial
  | waiting => trivial
  | entered => trivial
  | rejected =>
      rw [phase] at queued
      exact queued.elim

/-- The queued tasks and those of the workers. -/
def inFlight (s : Pool n R) : List (Task R) := s.queue ++ (List.finRange n).filterMap fun w => (s.workers w).task?

theorem Good.inFlight_unset (good : s.Good) {t : Task R} (member : t ∈ s.inFlight) :
    t ∈ s.enqueued ∧ s.futures t.call = none := by
  rw [good.ordered.fifo]
  rcases List.mem_append.mp member with queued | held
  · exact ⟨List.mem_append_right _ queued, good.unset_of_queue queued⟩
  · obtain ⟨w, _, has⟩ := List.mem_filterMap.mp held
    exact ⟨List.mem_append_left _ (good.worked.taken w t has), good.worked.unset w t has⟩

/-- No call has two unfinished tasks. -/
theorem Good.inFlight_nodup (good : s.Good) : (s.inFlight.map Task.call).Nodup := by
  have once := good.ordered.once
  rw [good.ordered.fifo, List.map_append, List.nodup_append] at once
  rw [inFlight, List.map_append, List.nodup_append]
  refine ⟨once.2.1, ?_, ?_⟩
  · rw [List.map_filterMap]
    apply (List.nodup_finRange n).filterMap
    intro w w' k has has'
    obtain ⟨t, held, rfl⟩ := Option.map_eq_some_iff.mp (Option.mem_def.mp has)
    obtain ⟨t', held', same⟩ := Option.map_eq_some_iff.mp (Option.mem_def.mp has')
    exact good.worked.apart w w' t t' held held' same.symm
  · intro k queued k' held
    obtain ⟨t, member, rfl⟩ := List.mem_map.mp held
    obtain ⟨w, _, has⟩ := List.mem_filterMap.mp member
    exact (once.2.2 _ (List.mem_map_of_mem (good.worked.taken w t has)) _ queued).symm

theorem load_le (s : Pool n R) : s.load ≤ n + 4 * s.inFlight.length := by
  have carried := s.carried_le
  rw [load, inFlight, List.length_append]
  omega

end InFlight

end Pool

end GameServer.ThreadPool
