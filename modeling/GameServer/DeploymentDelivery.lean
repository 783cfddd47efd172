import GameServer.DeploymentRooms

set_option autoImplicit false

/- What comes through the whole deployment, between a client and the room it is connected to,
in both directions. -/
namespace GameServer

open Base

namespace Deployment

variable {n : Nat} {R : Type} {ar : TextArchive} [DecidableEq R]

section Steady

/-- The downward half of connection `u` of room `r` holds. -/
def SteadyDown (r : R) (u : Nat) (d : Deployment n R) : Move n R → Prop
  | .server _ => True
  | .outside r' move => r' = r → (d.world r).SteadyDown u move

/-- The upward half holds. -/
def SteadyUp (r : R) (u : Nat) (d : Deployment n R) : Move n R → Prop
  | .server (.handler r' (.read v c)) => r' = r → v = u → c.failed = false
  | .server _ => True
  | .outside r' move => r' = r → (d.world r).SteadyUp u move

instance (r : R) (u : Nat) (d : Deployment n R) : ∀ move, Decidable (d.SteadyDown r u move)
  | .server _ => isTrue trivial
  | .outside r' move => inferInstanceAs (Decidable (r' = r → (d.world r).SteadyDown u move))

instance (r : R) (u : Nat) (d : Deployment n R) : ∀ move, Decidable (d.SteadyUp r u move)
  | .server (.handler r' (.read v c)) => inferInstanceAs (Decidable (r' = r → v = u → c.failed = false))
  | .server (.handler _ (.accept _)) | .server (.handler _ (.write _ _ _)) | .server (.receive _ _ _ _)
  | .server (.accept _ _) | .server (.pool _) => isTrue trivial
  | .outside r' move => inferInstanceAs (Decidable (r' = r → (d.world r).SteadyUp u move))

variable {d : Deployment n R} {worlds : R → World}

theorem Image.steadyDown (image : d.Image worlds) (r : R) (u : Nat) (move : Move n R) (effect : R × World.Move)
    (may : d.enabled ar move) (steady : d.SteadyDown r u move) (found : d.effect move = some effect)
    (mine : effect.1 = r) : (worlds r).SteadyDown u effect.2 := by
  cases move with
  | outside r' move =>
      cases found
      have holds := steady mine
      rw [image.world] at holds
      exact ((may.1.independent ar (worlds r)).steadyDown _ _ u (image.behind.shows r).sent).mp holds
  | server move =>
      obtain ⟨⟨r', e⟩, _, same⟩ := Option.map_eq_some_iff.mp found
      rw [← same]
      cases e <;> trivial

theorem Image.steadyUp (image : d.Image worlds) (r : R) (u : Nat) (move : Move n R) (effect : R × World.Move)
    (may : d.enabled ar move) (steady : d.SteadyUp r u move) (found : d.effect move = some effect)
    (mine : effect.1 = r) : (worlds r).SteadyUp u effect.2 := by
  cases move with
  | outside r' move =>
      cases found
      have holds := steady mine
      rw [image.world] at holds
      exact ((may.1.independent ar (worlds r)).steadyUp _ _ u).mp holds
  | server move =>
      obtain ⟨⟨r', e⟩, ended, same⟩ := Option.map_eq_some_iff.mp found
      rw [← same] at mine ⊢
      change r' = r at mine
      subst mine
      cases e with
      | accept error => trivial
      | write v index error => trivial
      | read v c =>
          intro this
          subst this
          rcases d.process.ended_read move ended with rfl | ⟨bytes, result, rfl⟩
          · exact steady rfl rfl
          · rfl

end Steady

section Accept

/-- A user of a room has been accepted by a handler that ended in the run, and has been sent
what PassTask has broadcast to the room since. -/
theorem exists_accept (positive : 0 < n) (memory buffers : R → Nat → WArray) (moves : List (Move n R))
    (valid : (deploymentSystem n R ar).Valid (start memory buffers) moves) (r : R) (u : Nat)
    (user : u ∈ (((deploymentSystem n R ar).run (start memory buffers) moves).process.rooms r).users) :
    ∃ before move after, moves = before ++ .server move :: after ∧
      ((deploymentSystem n R ar).run (start memory buffers) before).process.ended move = some (r, .accept false) ∧
      (((deploymentSystem n R ar).run (start memory buffers) before).process.rooms r).accepting = some u ∧
      ((deploymentSystem n R ar).run (start memory buffers) moves).process.broadcastsTo r =
        ((deploymentSystem n R ar).run (start memory buffers) before).process.broadcastsTo r ++
          (((deploymentSystem n R ar).run (start memory buffers) moves).process.rooms r).sent u := by
  obtain ⟨reached, agrees⟩ := run_refines positive memory buffers moves valid
  have shows := (agrees r).shows
  rw [System.run_family] at shows
  rw [shows.users] at user
  obtain ⟨front, back, split, pending, since⟩ :=
    World.exists_accept (memory r) (buffers r) _ (System.valid_own _ reached r) user
  -- the accept of the room's world is the effect of a move of the deployment
  obtain ⟨earlier, later, split', part⟩ := System.exists_of_own_eq split
  obtain ⟨before, move, after, rfl, found, collected⟩ := System.exists_of_collect_eq _ split'
  obtain ⟨begun, may, _⟩ := (System.valid_append _ _ before (move :: after)).mp valid
  have shown := ((run_refines positive memory buffers before begun).2 r).shows
  rw [System.run_family, effects, collected, part] at shown
  cases move with
  | outside r' move =>
      cases found
      exact may.1.elim
  | server move =>
      obtain ⟨⟨r', e⟩, ended, same⟩ := Option.map_eq_some_iff.mp found
      cases e <;> cases same
      refine ⟨before, move, after, rfl, ended, ?_, ?_⟩
      · rw [shown.accepting]
        exact pending
      · rw [shows.log, shows.sent, shown.log]
        exact since

end Accept

section Delivery

/-- What client `u` of room `r` has parsed in a run: nothing before it is accepted; from then
on, in order and each once, the packets that PassTask has broadcast to the room since, except
for a last part that is on its way. -/
structure Parsed (ar : TextArchive) (memory buffers : R → Nat → WArray) (moves : List (Move n R)) (r : R) (u : Nat) :
    Prop where
  outside : u ∉ (((deploymentSystem n R ar).run (start memory buffers) moves).process.rooms r).users →
    ((((deploymentSystem n R ar).run (start memory buffers) moves).nets r).clients u).parsed = []
  inside : u ∈ (((deploymentSystem n R ar).run (start memory buffers) moves).process.rooms r).users →
    ∃ before move after handed rest, moves = before ++ .server move :: after ∧
      ((deploymentSystem n R ar).run (start memory buffers) before).process.ended move = some (r, .accept false) ∧
      (((deploymentSystem n R ar).run (start memory buffers) before).process.rooms r).accepting = some u ∧
      ((deploymentSystem n R ar).run (start memory buffers) moves).process.broadcastsTo r =
        ((deploymentSystem n R ar).run (start memory buffers) before).process.broadcastsTo r ++ (handed ++ rest) ∧
      List.Forall₂ Packet.StartsArray
        ((((deploymentSystem n R ar).run (start memory buffers) moves).nets r).clients u).parsed handed ∧
      (((((deploymentSystem n R ar).run (start memory buffers) moves).world r).downHalf u).Settled → rest = [])

/-- Session `u` has passed, in order and each once, the packets that client `u` has handed to
send, except for a last part that is on its way. -/
def Handed (d : Deployment n R) (r : R) (u : Nat) : Prop :=
  ∃ handed rest, (d.nets r).submitted u = handed ++ rest ∧
    List.Forall₂ (fun task p => Packet.StartsArray task.data p) ((d.process.rooms r).sessions u).tasks handed ∧
    (u ∈ (d.process.rooms r).users → d.process.thread = .idle → ((d.world r).upHalf u).Settled → rest = [])

variable {d : Deployment n R} {r : R} {u : Nat} {w : World}

/-- The downward half is the world's, whatever the thread is doing. -/
theorem Agrees.downHalf (agrees : d.Agrees r w) : (d.world r).downHalf u = w.downHalf u := by
  have net := agrees.net
  rw [World.downHalf, World.downHalf, ← agrees.shows.sent, world, net]
  rfl

theorem Agrees.delivers (agrees : d.Agrees r w) (downward : w.Downward u) :
    ((d.world r).downHalf u).Delivers ∧ (u ∉ (d.process.rooms r).users → (d.process.rooms r).sent u = []) := by
  rw [agrees.downHalf, agrees.shows.users, agrees.shows.sent]
  exact ⟨downward.delivers, downward.good.quiet u⟩

theorem Agrees.handed (agrees : d.Agrees r w) (upward : w.Upward u) : d.Handed r u := by
  obtain ⟨handed, rest, submitted, tasks, settled⟩ := upward.handed
  rw [Session.tasks, ← agrees.shows.actions] at tasks
  refine ⟨handed, rest, ?_, tasks, fun inside idle waits => settled ?_ ?_⟩
  · rw [agrees.net]
    exact submitted
  · rw [← agrees.shows.users]
    exact inside
  · rw [← agrees.idle idle]
    exact waits

theorem parsed_run (positive : 0 < n) (memory buffers : R → Nat → WArray) (r : R) (u : Nat) (moves : List (Move n R))
    (valid : (deploymentSystem n R ar).Valid (start memory buffers) moves)
    (steady : (deploymentSystem n R ar).Always (SteadyDown r u) (start memory buffers) moves) :
    Parsed ar memory buffers moves r u := by
  obtain ⟨reached, promised, image⟩ := run_image positive memory buffers
    (q := fun worlds m => m.1 = r → (worlds r).SteadyDown u m.2)
    (fun d worlds move effect good image may kept found => image.steadyDown r u move effect may kept found)
    moves valid steady
  have agrees := image.agrees r
  rw [System.run_family] at agrees
  obtain ⟨delivers, quiet⟩ := agrees.delivers
    (World.downward_run (memory r) (buffers r) u _ (System.valid_own _ reached r) (System.always_own _ r promised))
  constructor
  · exact fun out => delivers.parsed_nil (quiet out)
  · intro user
    obtain ⟨before, move, after, split, ended, pending, since⟩ :=
      exists_accept positive memory buffers moves valid r u user
    obtain ⟨handed, rest, sent, parsed, settled⟩ := delivers.parsed
    refine ⟨before, move, after, handed, rest, split, ended, pending, ?_, parsed, settled⟩
    rw [since, ← sent]
    rfl

theorem handed_run (positive : 0 < n) (memory buffers : R → Nat → WArray) (r : R) (u : Nat) (moves : List (Move n R))
    (valid : (deploymentSystem n R ar).Valid (start memory buffers) moves)
    (steady : (deploymentSystem n R ar).Always (SteadyUp r u) (start memory buffers) moves) :
    ((deploymentSystem n R ar).run (start memory buffers) moves).Handed r u := by
  obtain ⟨reached, promised, image⟩ := run_image positive memory buffers
    (q := fun worlds m => m.1 = r → (worlds r).SteadyUp u m.2)
    (fun d worlds move effect good image may kept found => image.steadyUp r u move effect may kept found)
    moves valid steady
  have agrees := image.agrees r
  rw [System.run_family] at agrees
  exact agrees.handed (World.upward_run (memory r) (buffers r) u _ (System.valid_own _ reached r)
    (System.always_own _ r promised))

end Delivery

/-- For any number of rooms and clients, at least one worker, and every interleaving of the
thread with the workers, the network and the clients. -/
theorem delivered (positive : 0 < n) (memory buffers : R → Nat → WArray) (r : R) (u : Nat) (moves : List (Move n R))
    (valid : (deploymentSystem n R ar).Valid (start memory buffers) moves) :
    ((deploymentSystem n R ar).Always (SteadyDown r u) (start memory buffers) moves →
      Parsed ar memory buffers moves r u) ∧
    ((deploymentSystem n R ar).Always (SteadyUp r u) (start memory buffers) moves →
      ((deploymentSystem n R ar).run (start memory buffers) moves).Handed r u) :=
  ⟨parsed_run positive memory buffers r u moves valid, handed_run positive memory buffers r u moves valid⟩

/-- Client 0 has parsed both answers and client 1 the second one; both have been heard. -/
theorem delivered_two :
    (Parsed .boost (fun _ _ _ => 0) (fun _ _ _ => 0) (twoTasks 0) 0 0 ∧
      Parsed .boost (fun _ _ _ => 0) (fun _ _ _ => 0) (twoTasks 0) 0 1 ∧
      ((deploymentSystem 3 (Fin 10) .boost).run (start (fun _ _ _ => 0) fun _ _ _ => 0) (twoTasks 0)).Handed 0 1) ∧
      ((((deploymentSystem 3 (Fin 10) .boost).run (start (fun _ _ _ => 0) fun _ _ _ => 0) (twoTasks 0)).nets 0).clients
        0).parsed.length = 2 ∧
      ((((deploymentSystem 3 (Fin 10) .boost).run (start (fun _ _ _ => 0) fun _ _ _ => 0) (twoTasks 0)).nets 0).clients
        1).parsed.length = 1 ∧
      ((((deploymentSystem 3 (Fin 10) .boost).run (start (fun _ _ _ => 0) fun _ _ _ => 0) (twoTasks 0)).process.rooms
        0).sessions 1).tasks.length = 1 := by
  have first := delivered (by decide) (fun _ _ _ => 0) (fun _ _ _ => 0) 0 0 (twoTasks 0) twoTasks_valid
  have second := delivered (by decide) (fun _ _ _ => 0) (fun _ _ _ => 0) 0 1 (twoTasks 0) twoTasks_valid
  exact ⟨⟨first.1 (by decide +kernel), second.1 (by decide +kernel), second.2 (by decide +kernel)⟩, rfl, rfl, rfl⟩

end Deployment

end GameServer
