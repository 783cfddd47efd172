import GameServer.DeploymentDelivery

set_option autoImplicit false

/- Both directions together: what a client of a room parses are the replies to what all the
clients of the room have sent, in one order that keeps the order of each of them. -/
namespace GameServer

open Base

/-- The calls of PassTask of a room in a run of the room with its clients. -/
theorem World.merges_run {ar : TextArchive} (memory buffers : Nat → WArray) (moves : List World.Move)
    (valid : (worldSystem ar).Valid (World.start memory buffers) moves) :
    ∃ order, ((worldSystem ar).run (World.start memory buffers) moves).room.Merges ar order := by
  have step (w : World) (move : World.Move) (inv : w.room.Good ∧ ∃ order, w.room.Merges ar order)
      (may : w.enabled ar move) : (w.next move).room.Good ∧ ∃ order, (w.next move).room.Merges ar order := by
    obtain ⟨good, order, merges⟩ := inv
    rw [w.room_next]
    cases runs : move.event? with
    | none => exact ⟨good, order, merges⟩
    | some e => exact ⟨good.next e, merges.next good e (World.enabled_event runs may)⟩
  have start : (World.start memory buffers).room.Good ∧ ∃ order, (World.start memory buffers).room.Merges ar order :=
    ⟨Room.good_start memory, [], Room.merges_start memory⟩
  have kept := System.invariant (worldSystem ar)
    (fun w move (inv : w.room.Good ∧ ∃ order, w.room.Merges ar order) may => step w move inv may) start valid
  exact kept.2

namespace Deployment

variable {n : Nat} {R : Type} {ar : TextArchive} [DecidableEq R]

/-- The calls of PassTask for a room in a run, in one order: each result is what Parse makes of
the call's packet, what is not null has been broadcast, and each session's calls are in the
session's order. While the upward half of a connection holds, these are the messages its client
has sent; while the downward half of connection `u` holds, client `u` has parsed what was
broadcast since it was accepted. -/
def Answered (ar : TextArchive) (memory buffers : R → Nat → WArray) (moves : List (Move n R)) (r : R) (u : Nat) :
    Prop :=
  ∃ order : List (Nat × Packet × TaskResult),
    (∀ call ∈ order, ∃ scratch, call.2.2 = (Server.parse ar scratch call.2.1.data).value) ∧
    ((deploymentSystem n R ar).run (start memory buffers) moves).process.broadcastsTo r =
      (order.filterMap fun call => passTask call.2.2) ∧
    (∀ v, System.own v order =
      ((((deploymentSystem n R ar).run (start memory buffers) moves).process.rooms r).sessions v).calls) ∧
    (∀ v, (deploymentSystem n R ar).Always (SteadyUp r v) (start memory buffers) moves →
      ∃ handed rest,
        (((deploymentSystem n R ar).run (start memory buffers) moves).nets r).submitted v = handed ++ rest ∧
        List.Forall₂ (fun call p => Packet.StartsArray call.1.data p) (System.own v order) handed ∧
        (v ∈ (((deploymentSystem n R ar).run (start memory buffers) moves).process.rooms r).users →
          ((deploymentSystem n R ar).run (start memory buffers) moves).process.thread = .idle →
          ((((deploymentSystem n R ar).run (start memory buffers) moves).world r).upHalf v).Settled → rest = [])) ∧
    ((deploymentSystem n R ar).Always (SteadyDown r u) (start memory buffers) moves →
      Parsed ar memory buffers moves r u)

/-- In every run of the deployment with at least one worker. -/
theorem answered (positive : 0 < n) (memory buffers : R → Nat → WArray) (r : R) (u : Nat) (moves : List (Move n R))
    (valid : (deploymentSystem n R ar).Valid (start memory buffers) moves) : Answered ar memory buffers moves r u := by
  obtain ⟨reached, _, image⟩ := run_image positive memory buffers (p := fun _ _ => True)
    (q := fun _ _ => True) (fun _ _ _ _ _ _ _ _ _ => trivial) moves valid (System.always_true ..)
  have agrees := image.agrees r
  rw [System.run_family] at agrees
  obtain ⟨order, merges⟩ := World.merges_run (memory r) (buffers r) _ (System.valid_own _ reached r)
  have calls (v : Nat) : System.own v order =
      ((((deploymentSystem n R ar).run (start memory buffers) moves).process.rooms r).sessions v).calls := by
    rw [Session.calls, agrees.shows.actions]
    exact merges.own v
  refine ⟨order, merges.parsed, agrees.shows.log.trans merges.broadcasts, calls, fun v steady => ?_,
    parsed_run positive memory buffers r u moves valid⟩
  obtain ⟨handed, rest, submitted, tasks, settled⟩ := handed_run positive memory buffers r v moves valid steady
  rw [Session.tasks_eq, ← calls, List.forall₂_map_left_iff] at tasks
  exact ⟨handed, rest, submitted, tasks, settled⟩

/-- Both clients' connections hold. -/
theorem answered_two :
    Answered .boost (fun _ _ _ => 0) (fun _ _ _ => 0) (twoTasks 0) 0 1 ∧
      (deploymentSystem 3 (Fin 10) .boost).Always (SteadyUp 0 0) (start (fun _ _ _ => 0) fun _ _ _ => 0) (twoTasks 0) ∧
      (deploymentSystem 3 (Fin 10) .boost).Always (SteadyUp 0 1) (start (fun _ _ _ => 0) fun _ _ _ => 0) (twoTasks 0) ∧
      (deploymentSystem 3 (Fin 10) .boost).Always (SteadyDown 0 1) (start (fun _ _ _ => 0) fun _ _ _ => 0)
        (twoTasks 0) ∧
      ((deploymentSystem 3 (Fin 10) .boost).run (start (fun _ _ _ => 0) fun _ _ _ => 0)
        (twoTasks 0)).process.broadcastsTo 0 =
        [(Server.doWork .boost cleared 42).value, (Server.doWork .boost cleared 7).value] :=
  ⟨answered (by decide) (fun _ _ _ => 0) (fun _ _ _ => 0) 0 1 (twoTasks 0) twoTasks_valid, by decide +kernel,
    by decide +kernel, by decide +kernel, rfl⟩

end Deployment

end GameServer
