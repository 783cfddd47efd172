import GameServer.Deployment
import GameServer.ServerProcessRooms
import GameServer.WorldUp

set_option autoImplicit false

/- The deployment seen from its rooms: whatever the thread, the workers, the network and the
clients do, every room with its clients goes through a run in which handlers end at once. -/
namespace GameServer

open Base

/-- The bytes the handler of a read has been called with. -/
def Room.Event.takes {R : Type} (r : R) : Room.Event → Option (R × Nat × List UInt8)
  | .read u c => some (r, u, c.result.bytes)
  | _ => none

namespace World

/-- The move in which a handler of the room runs. -/
def Move.ofEvent : Room.Event → Move
  | .accept error => .accept error
  | .read u c => .serve u c
  | .write u index error => .written u index error

section Handlers

variable (w : World) (e : Room.Event)

theorem room_ofEvent : (w.next (.ofEvent e)).room = w.room.next e := by cases e <;> rfl

theorem net_ofEvent : (w.next (.ofEvent e)).net = { w.net with read := (w.next (.ofEvent e)).read } := by
  cases e <;> rfl

theorem read_ofEvent {R : Type} [DecidableEq R] (r : R) (u : Nat) :
    (w.next (.ofEvent e)).read u = w.read u ++ Deployment.bytesOn (e.takes r) r u := by
  cases e with
  | accept error => exact (List.append_nil _).symm
  | write v index error => exact (List.append_nil _).symm
  | read v c =>
      change Function.update w.read v (w.read v ++ c.result.bytes) u = _ ++ if r = r ∧ v = u then c.result.bytes else []
      by_cases same : v = u
      · rw [same, Function.update_self, if_pos ⟨rfl, rfl⟩]
      · rw [Function.update_of_ne (Ne.symm same), if_neg (fun both => same both.2), List.append_nil]

end Handlers

/-- A move that depends neither on the rooms' sessions nor on what they have read, and
changes neither. -/
structure Move.Independent (ar : TextArchive) (w : World) (move : Move) : Prop where
  room : (w.next move).room = w.room
  read : (w.next move).read = w.read
  next : ∀ room read, World.next { w with room, read } move = { w.next move with room, read }
  enabled : ∀ room read, World.enabled ar { w with room, read } move ↔ w.enabled ar move
  steadyDown : ∀ room read u, room.sent = w.room.sent → (SteadyDown u { w with room, read } move ↔ w.SteadyDown u move)
  steadyUp : ∀ room read u, SteadyUp u { w with room, read } move ↔ w.SteadyUp u move

theorem Move.Outside.independent {move : Move} (outside : move.Outside) (ar : TextArchive) (w : World) :
    move.Independent ar w := by
  cases move with
  | accept error => exact outside.elim
  | serve u c => exact outside.elim
  | written u index error => exact outside.elim
  | carryDown v bytes =>
      refine ⟨rfl, rfl, fun _ _ => rfl, fun _ _ => Iff.rfl, fun room read u sent => ?_, fun _ _ _ => Iff.rfl⟩
      simp only [SteadyDown, sent]
  | _ => exact ⟨rfl, rfl, fun _ _ => rfl, fun _ _ => Iff.rfl, fun _ _ _ _ => Iff.rfl, fun _ _ _ => Iff.rfl⟩

theorem up_next (w : World) (move : Move) (u : Nat) : w.up u <+: (w.next move).up u := by
  cases move with
  | carryUp v bytes =>
      change _ <+: Function.update w.up v (w.up v ++ bytes) u
      by_cases same : u = v
      · rw [same, Function.update_self]
        exact List.prefix_append _ _
      · rw [Function.update_of_ne same]
  | _ => exact List.prefix_rfl

end World

namespace ServerProcess

variable {n : Nat} {R : Type}

/-- The bytes the thread has read for a handler that has not ended. -/
def inHand (s : ServerProcess n R) : Option (R × Nat × List UInt8) :=
  match s.thread with
  | .passing _ r u bytes => some (r, u, bytes)
  | _ => none

/-- The read whose handler ends with a move has just been handled, or did not fail. -/
theorem ended_read (s : ServerProcess n R) (move : Move n R) {r : R} {u : Nat} {c : Completion}
    (ended : s.ended move = some (r, .read u c)) :
    move = .handler r (.read u c) ∨ ∃ bytes result, c = .body (.ok bytes) result := by
  unfold ServerProcess.ended at ended
  split at ended
  · cases ended
    exact Or.inl rfl
  · split at ended
    · cases ended
      exact Or.inr ⟨_, _, rfl⟩
    · cases ended
  · split at ended
    · cases ended
    · cases ended
  · cases ended

theorem inHand_idle {s : ServerProcess n R} (idle : s.thread = .idle) : s.inHand = none := by
  rw [inHand, idle]

end ServerProcess

namespace Deployment

variable {n : Nat} {R : Type} {ar : TextArchive} [DecidableEq R]

theorem bytesOn_none (r : R) (u : Nat) : bytesOn none r u = [] := rfl

/-- What a move takes off the connections goes to the handler that ends with it, or is in
hand until that handler ends. -/
theorem bytesOn_next (s : ServerProcess n R) (move : ServerProcess.Move n R) (may : s.enabled ar move) (r : R)
    (u : Nat) :
    bytesOn ((s.ended move).bind fun h => h.2.takes h.1) r u ++ bytesOn (s.next move).inHand r u =
      bytesOn s.inHand r u ++ bytesOn move.takes r u := by
  cases move with
  | handler r' e =>
      have idle : (s.next (.handler r' e)).thread = .idle := may.1
      rw [ServerProcess.inHand_idle may.1, ServerProcess.inHand_idle idle, bytesOn_none, List.append_nil,
        List.nil_append]
      cases e <;> rfl
  | receive k r' u' bytes =>
      rw [ServerProcess.inHand_idle may.1]
      rfl
  | accept a r' =>
      rw [ServerProcess.inHand_idle may.1]
      rfl
  | pool step =>
      have still (collect : ∀ k c result, step ≠ .collect k c result) (leave : ∀ a r, step ≠ .leaveAccept a r) :
          (s.next (.pool step)).inHand = s.inHand := by
        rw [ServerProcess.next, ServerProcess.follow_of_ne _ _ _ collect leave]
        rfl
      have nothing : (ServerProcess.Move.pool step : ServerProcess.Move n R).takes = none := rfl
      cases step with
      | collect k c result =>
          obtain ⟨⟨r', u', bytes, thread⟩, _⟩ := may
          have ended : s.ended (.pool (.collect k c result)) = some (r', .read u' (.body (.ok bytes) result)) := by
            simp only [ServerProcess.ended, thread]
          have idle : (s.next (.pool (.collect k c result))).thread = .idle := by
            rw [ServerProcess.next, thread]
            rfl
          rw [ended, ServerProcess.inHand_idle idle, nothing, ServerProcess.inHand, thread]
          rfl
      | leaveAccept a r' =>
          obtain ⟨⟨r'', thread⟩, _⟩ := may
          have ended : s.ended (.pool (.leaveAccept a r')) = some (r'', .accept false) := by
            simp only [ServerProcess.ended, thread]
          have idle : (s.next (.pool (.leaveAccept a r'))).thread = .idle := by
            rw [ServerProcess.next, thread]
            rfl
          rw [ended, ServerProcess.inHand_idle idle, nothing, ServerProcess.inHand, thread]
          rfl
      | _ =>
          rw [still (by simp) (by simp), nothing, bytesOn_none, List.append_nil]
          rfl

/-- What the worlds of the rooms do in a move. -/
def effect (d : Deployment n R) : Move n R → Option (R × World.Move)
  | .server move => (d.process.ended move).map fun h => (h.1, World.Move.ofEvent h.2)
  | .outside r move => some (r, move)

/-- The connections are a world's, except for what the thread has in hand. -/
structure Connected (net : Net) (w : World) (hand : Nat → List UInt8) : Prop where
  same : net = { w.net with read := net.read }
  read : ∀ u, net.read u = w.read u ++ hand u
  there : ∀ u, net.read u <+: net.up u

/-- `worlds` are the rooms with their clients, as the handlers that have ended left them. -/
structure Image (d : Deployment n R) (worlds : R → World) : Prop where
  behind : d.process.Behind fun r => (worlds r).room
  nets : ∀ r, Connected (d.nets r) (worlds r) (bytesOn d.process.inHand r)

section Step

variable {d : Deployment n R} {worlds : R → World}

theorem Image.world (image : d.Image worlds) (r : R) :
    d.world r = { worlds r with room := d.process.rooms r, read := (d.nets r).read } := by
  have same := (image.nets r).same
  rw [Deployment.world, same]
  rfl

/-- The family of the worlds goes where the family of their rooms goes. -/
theorem room_next (worlds : R → World) (r : R) (e : Room.Event) :
    (fun r' => ((worldSystem ar).family.next worlds (r, .ofEvent e) r').room) =
      (roomSystem ar).family.next (fun r' => (worlds r').room) (r, e) := by
  funext r'
  change (Function.update worlds r ((worlds r).next (.ofEvent e)) r').room =
    Function.update (fun r' => (worlds r').room) r ((worlds r).room.next e) r'
  by_cases same : r' = r
  · rw [same, Function.update_self, Function.update_self, World.room_ofEvent]
  · rw [Function.update_of_ne same, Function.update_of_ne same]

/-- What becomes of the connections when a handler ends, or none. -/
structure Served (worlds worlds' : R → World) (ended : Option (R × Room.Event)) : Prop where
  same : ∀ r, (worlds' r).net = { (worlds r).net with read := (worlds' r).read }
  read : ∀ r u, (worlds' r).read u = (worlds r).read u ++ bytesOn (ended.bind fun h => h.2.takes h.1) r u

theorem served_none (worlds : R → World) : Served worlds worlds none :=
  ⟨fun _ => rfl, fun _ _ => (List.append_nil _).symm⟩

theorem served_some (worlds : R → World) (r : R) (e : Room.Event) :
    Served worlds ((worldSystem ar).family.next worlds (r, .ofEvent e)) (some (r, e)) := by
  have own : (worldSystem ar).family.next worlds (r, .ofEvent e) r = (worlds r).next (.ofEvent e) :=
    System.next_family_self ..
  have other {r' : R} (different : r' ≠ r) : (worldSystem ar).family.next worlds (r, .ofEvent e) r' = worlds r' :=
    System.next_family_other _ worlds _ different
  refine ⟨fun r' => ?_, fun r' u => ?_⟩ <;> by_cases same : r' = r
  · rw [same, own, World.net_ofEvent]
  · rw [other same]
    rfl
  · rw [same, own]
    exact World.read_ofEvent (worlds r) e r u
  · have nothing : bytesOn (e.takes r) r' u = [] := by
      cases e with
      | read v c => exact if_neg fun both => same both.1.symm
      | _ => rfl
    rw [other same]
    change _ = _ ++ bytesOn (e.takes r) r' u
    rw [nothing, List.append_nil]

theorem Image.server (image : d.Image worlds) (good : d.process.Good ar) (move : ServerProcess.Move n R)
    (may : d.enabled ar (.server move)) :
    (worldSystem ar).family.Valid worlds (d.effect (.server move)).toList ∧
      (d.next (.server move)).Image ((worldSystem ar).family.run worlds (d.effect (.server move)).toList) := by
  obtain ⟨valid, behind⟩ := image.behind.next good move may.1
  have bytes := bytesOn_next d.process move may.1
  have fits (r : R) (u : Nat) : (d.nets r).read u ++ bytesOn move.takes r u <+: (d.nets r).up u := by
    cases taken : move.takes with
    | none =>
        rw [bytesOn_none, List.append_nil]
        exact (image.nets r).there u
    | some t =>
        obtain ⟨r', u', found⟩ := t
        by_cases same : r' = r ∧ u' = u
        · rw [bytesOn, if_pos same]
          exact may.2 r u found (by rw [taken, same.1, same.2])
        · rw [bytesOn, if_neg same, List.append_nil]
          exact (image.nets r).there u
  have reached {worlds' : R → World} (served : Served worlds worlds' (d.process.ended move))
      (behind : (d.process.next move).Behind fun r => (worlds' r).room) : (d.next (.server move)).Image worlds' := by
    refine ⟨behind, fun r => ⟨?_, fun u => ?_, fits r⟩⟩
    · have before := (image.nets r).same
      rw [served.same]
      change ({ d.nets r with read := _ } : Net) = _
      rw [before]
      rfl
    · change (d.nets r).read u ++ bytesOn move.takes r u = _ ++ bytesOn (d.process.next move).inHand r u
      rw [served.read, (image.nets r).read, List.append_assoc, List.append_assoc, bytes]
  cases ended : d.process.ended move with
  | none =>
      rw [ended] at behind
      rw [effect, ended]
      refine ⟨trivial, reached ?_ behind⟩
      rw [ended]
      exact served_none worlds
  | some h =>
      obtain ⟨r, e⟩ := h
      rw [ended] at behind valid
      rw [effect, ended]
      refine ⟨⟨?_, trivial⟩, reached ?_ ?_⟩
      · have room := valid.1
        cases e with
        | accept error => exact room
        | write v index error => exact room
        | read v c =>
            refine ⟨room, ?_⟩
            have found := fits r v
            have mine : bytesOn (some (r, v, c.result.bytes)) r v = c.result.bytes := if_pos ⟨rfl, rfl⟩
            have split := bytes r v
            have up : (d.nets r).up = (worlds r).up := by rw [(image.nets r).same]; rfl
            rw [ended] at split
            change bytesOn (some (r, v, c.result.bytes)) r v ++ _ = _ at split
            rw [(image.nets r).read, List.append_assoc, ← split, mine, ← List.append_assoc, up] at found
            exact (List.prefix_append _ _).trans found
      · rw [ended]
        exact served_some worlds r e
      · change (d.process.next move).Behind fun r' => ((worldSystem ar).family.next worlds (r, .ofEvent e) r').room
        rw [room_next]
        exact behind

/-- What happens outside of the handlers happens in the room's world. -/
theorem Connected.outside {net : Net} {w : World} {hand : Nat → List UInt8} (connected : Connected net w hand)
    {move : World.Move} (free : move.Independent ar w) (room : Room) :
    Connected (World.net { w.next move with room := room, read := net.read }) (w.next move) hand := by
  refine ⟨rfl, fun u => ?_, fun u => ?_⟩
  · rw [free.read]
    exact connected.read u
  · have there := connected.there u
    rw [connected.same] at there
    exact there.trans (w.up_next move u)

theorem Image.outside (image : d.Image worlds) (r : R) (move : World.Move) (may : d.enabled ar (.outside r move)) :
    (worldSystem ar).family.Valid worlds (d.effect (.outside r move)).toList ∧
      (d.next (.outside r move)).Image ((worldSystem ar).family.run worlds (d.effect (.outside r move)).toList) := by
  obtain ⟨outside, enabled⟩ := may
  have free := outside.independent ar (worlds r)
  have own : (worldSystem ar).family.next worlds (r, move) r = (worlds r).next move := System.next_family_self ..
  have other {r' : R} (different : r' ≠ r) : (worldSystem ar).family.next worlds (r, move) r' = worlds r' :=
    System.next_family_other _ worlds _ different
  have net : (d.next (.outside r move)).nets r =
      World.net { (worlds r).next move with room := d.process.rooms r, read := (d.nets r).read } := by
    rw [← free.next, ← image.world]
    exact Function.update_self ..
  have others {r' : R} (different : r' ≠ r) : (d.next (.outside r move)).nets r' = d.nets r' :=
    Function.update_of_ne different ..
  have rooms : (fun r' => ((worldSystem ar).family.next worlds (r, move) r').room) = fun r' => (worlds r').room := by
    funext r'
    by_cases same : r' = r
    · rw [same, own, free.room]
    · rw [other same]
  have behind : d.process.Behind fun r' => ((worldSystem ar).family.next worlds (r, move) r').room := by
    rw [rooms]
    exact image.behind
  rw [image.world] at enabled
  refine ⟨⟨(free.enabled _ _).mp enabled, trivial⟩, behind, fun r' => ?_⟩
  change Connected ((d.next (.outside r move)).nets r') ((worldSystem ar).family.next worlds (r, move) r') _
  by_cases same : r' = r
  · rw [same, net, own]
    exact (image.nets r).outside free _
  · rw [others same, other same]
    exact image.nets r'

theorem Image.next (image : d.Image worlds) (good : d.process.Good ar) (move : Move n R) (may : d.enabled ar move) :
    (worldSystem ar).family.Valid worlds (d.effect move).toList ∧
      (d.next move).Image ((worldSystem ar).family.run worlds (d.effect move).toList) := by
  cases move with
  | server move => exact image.server good move may
  | outside r move => exact image.outside r move may

end Step

section Runs

variable {d : Deployment n R}

theorem good_next (good : d.process.Good ar) (positive : 0 < n) (move : Move n R) (may : d.enabled ar move) :
    (d.next move).process.Good ar := by
  cases move with
  | server move => exact good.next positive move may.1
  | outside r move => exact good

/-- All rooms with their clients, about to start. -/
def worldStart (memory buffers : R → Nat → WArray) (r : R) : World := World.start (memory r) (buffers r)

/-- What the rooms with their clients do in a run: the handlers as they end, and what the
clients and the network do. -/
def effects (ar : TextArchive) (memory buffers : R → Nat → WArray) (moves : List (Move n R)) : List (R × World.Move) :=
  (deploymentSystem n R ar).collect effect (start memory buffers) moves

theorem image_start (memory buffers : R → Nat → WArray) :
    (start memory buffers : Deployment n R).Image (worldStart memory buffers) :=
  ⟨ServerProcess.behind_start memory, fun _ => ⟨rfl, fun _ => rfl, fun _ => List.nil_prefix⟩⟩

/-- What the moves of a run promise, the moves of the worlds do. -/
theorem run_image (positive : 0 < n) (memory buffers : R → Nat → WArray) {p : Deployment n R → Move n R → Prop}
    {q : (R → World) → R × World.Move → Prop}
    (kept : ∀ d worlds move effect, d.process.Good ar → d.Image worlds → d.enabled ar move → p d move →
      d.effect move = some effect → q worlds effect)
    (moves : List (Move n R)) (valid : (deploymentSystem n R ar).Valid (start memory buffers) moves)
    (always : (deploymentSystem n R ar).Always p (start memory buffers) moves) :
    (worldSystem ar).family.Valid (worldStart memory buffers) (effects ar memory buffers moves) ∧
      (worldSystem ar).family.Always q (worldStart memory buffers) (effects ar memory buffers moves) ∧
      ((deploymentSystem n R ar).run (start memory buffers) moves).Image
        ((worldSystem ar).family.run (worldStart memory buffers) (effects ar memory buffers moves)) := by
  obtain ⟨reached, image⟩ := System.simulate_collect ((deploymentSystem n R ar).restrict p)
    ((worldSystem ar).family.restrict q) effect
    (fun d move (good : d.process.Good ar) may => good_next good positive move may.1)
    (fun d worlds move good (image : d.Image worlds) may => by
      obtain ⟨valid, next⟩ := image.next good move may.1
      rw [System.valid_restrict, System.run_restrict]
      refine ⟨⟨valid, ?_⟩, next⟩
      cases found : d.effect move with
      | none => trivial
      | some effect => exact ⟨kept d worlds move effect good image may.1 may.2 found, trivial⟩)
    (ServerProcess.good_start memory) (image_start memory buffers) ((System.valid_restrict ..).mpr ⟨valid, always⟩)
  rw [System.run_restrict, System.run_restrict, System.collect_restrict] at image
  rw [System.valid_restrict, System.collect_restrict] at reached
  exact ⟨reached.1, reached.2, image⟩

end Runs

/-- The deployment shows of a room, its connections and its clients what a world does, except
for the body in hand, and is that world when the thread is in no handler. -/
structure Agrees (d : Deployment n R) (r : R) (w : World) : Prop where
  shows : d.process.Shows r w.room
  net : d.nets r = { w.net with read := (d.nets r).read }
  read : ∀ u, (d.nets r).read u = w.read u ++ bytesOn d.process.inHand r u
  idle : d.process.thread = .idle → d.world r = w

theorem Image.agrees {d : Deployment n R} {worlds : R → World} (image : d.Image worlds) (r : R) :
    d.Agrees r (worlds r) := by
  have net := image.nets r
  refine ⟨image.behind.shows r, net.same, net.read, fun idle => ?_⟩
  have read : (d.nets r).read = (worlds r).read := by
    funext u
    rw [net.read, ServerProcess.inHand_idle idle, bytesOn_none, List.append_nil]
  rw [image.world, (image.behind.shows r).idle idle, read]

/-- With at least one worker, and whatever the thread, the workers, the network and the
clients do: every room with its clients shows what it does when its handlers end at once, in
the order in which they really end. -/
theorem run_refines (positive : 0 < n) (memory buffers : R → Nat → WArray) (moves : List (Move n R))
    (valid : (deploymentSystem n R ar).Valid (start memory buffers) moves) :
    (worldSystem ar).family.Valid (worldStart memory buffers) (effects ar memory buffers moves) ∧
      ∀ r, ((deploymentSystem n R ar).run (start memory buffers) moves).Agrees r
        ((worldSystem ar).family.run (worldStart memory buffers) (effects ar memory buffers moves) r) := by
  obtain ⟨reached, _, image⟩ := run_image positive memory buffers (p := fun _ _ => True)
    (q := fun _ _ => True) (fun _ _ _ _ _ _ _ _ _ => trivial) moves valid (System.always_true ..)
  exact ⟨reached, image.agrees⟩

section TwoTasks

open ServerProcess (acceptMoves testerMoves answerMoves)

/-- Client `u` sends the number `t`, which a worker parses and PassTask answers. -/
def asks (r : Fin 10) (k u : Nat) (t : UINT) : List (Move 3 (Fin 10)) :=
  [.outside r (.submit u (World.question t)), .outside r (.carryUp u (World.question t).wire)] ++
    (testerMoves r k u t ++ answerMoves r k t).map Move.server

/-- Client 0 is accepted and answered, then client 1, whose number is answered to both. -/
def twoTasks (r : Fin 10) : List (Move 3 (Fin 10)) :=
  (acceptMoves 0 r).map Move.server ++ asks r 0 0 42 ++ (acceptMoves 1 r).map Move.server ++ asks r 1 1 7 ++
    (World.hears 1 7 ++ World.hears 0 42 ++ World.hears 0 7).map (Move.outside r) ++
      [.server (.handler r (.write 0 0 false))]

theorem twoTasks_valid : (deploymentSystem 3 (Fin 10) .boost).Valid (start (fun _ _ _ => 0) fun _ _ _ => 0)
    (twoTasks 0) := by
  have busy {d : Deployment 3 (Fin 10)} {move : ServerProcess.Move 3 (Fin 10)} (may : d.process.enabled .boost move)
      (nothing : move.takes = none) : d.enabled .boost (.server move) :=
    ⟨may, fun r u bytes taken => by rw [nothing] at taken; cases taken⟩
  have takes {d : Deployment 3 (Fin 10)} {move : ServerProcess.Move 3 (Fin 10)} {r : Fin 10} {u : Nat}
    {bytes : List UInt8}
      (may : d.process.enabled .boost move) (taken : move.takes = some (r, u, bytes))
      (there : (d.nets r).read u ++ bytes <+: (d.nets r).up u) : d.enabled .boost (.server move) :=
    ⟨may, fun r' u' bytes' found => by rw [taken] at found; cases found; exact there⟩
  have decoded : ∃ scratch, Room.reply 42 = (Server.parse .boost scratch (ServerProcess.testerPacket 42).data).value :=
    ⟨cleared, Eq.symm (Server.parse_answered (by decide +kernel) (by decide +kernel))⟩
  have decoded' : ∃ scratch, Room.reply 7 = (Server.parse .boost scratch (ServerProcess.testerPacket 7).data).value :=
    ⟨cleared, Eq.symm (Server.parse_answered (by decide +kernel) (by decide +kernel))⟩
  have awake (front : Nat) (may : front = 9 ∨ front = 23) : ∀ w : Fin 3,
      ((deploymentSystem 3 (Fin 10) .boost).run (start (fun _ _ _ => 0) fun _ _ _ => 0)
        ((twoTasks 0).take front)).process.pool.workers w ≠ .asleep := by
    intro w asleep
    rcases may with rfl | rfl
    · match w with
      | 0 => cases asleep
      | 1 => cases asleep
      | 2 => cases asleep
    · match w with
      | 0 => cases asleep
      | 1 => cases asleep
      | 2 => cases asleep
  exact ⟨busy ⟨rfl, rfl, rfl⟩ rfl, busy ⟨⟨0, rfl⟩, rfl, rfl⟩ rfl, busy ⟨⟨0, rfl⟩, rfl⟩ rfl,
    ⟨trivial, _, rfl⟩, ⟨trivial, trivial⟩,
    takes ⟨rfl, trivial, Room.enabled_header ⟨rfl, by decide⟩⟩ rfl (by decide +kernel),
    takes ⟨rfl, rfl, _, rfl, by decide⟩ rfl (by decide +kernel),
    busy ⟨⟨0, 0, _, rfl⟩, rfl, rfl, rfl⟩ rfl, busy ⟨trivial, rfl, rfl⟩ rfl,
    busy ⟨⟨0, 0, _, rfl⟩, rfl, rfl, awake 9 (Or.inl rfl)⟩ rfl, busy ⟨trivial, rfl, rfl⟩ rfl,
    busy ⟨trivial, rfl, decoded⟩ rfl, busy ⟨trivial, rfl⟩ rfl, busy ⟨⟨0, 0, _, rfl⟩, rfl, rfl, rfl⟩ rfl,
    busy ⟨rfl, rfl, rfl⟩ rfl, busy ⟨⟨0, rfl⟩, rfl, rfl⟩ rfl, busy ⟨⟨0, rfl⟩, rfl⟩ rfl,
    ⟨trivial, _, rfl⟩, ⟨trivial, trivial⟩,
    takes ⟨rfl, trivial, Room.enabled_header ⟨rfl, by decide⟩⟩ rfl (by decide +kernel),
    takes ⟨rfl, rfl, _, rfl, by decide⟩ rfl (by decide +kernel),
    busy ⟨⟨0, 1, _, rfl⟩, rfl, rfl, rfl⟩ rfl, busy ⟨trivial, rfl, rfl⟩ rfl,
    busy ⟨⟨0, 1, _, rfl⟩, rfl, rfl, awake 23 (Or.inr rfl)⟩ rfl, busy ⟨trivial, rfl, rfl⟩ rfl,
    busy ⟨trivial, rfl, decoded'⟩ rfl, busy ⟨trivial, rfl⟩ rfl, busy ⟨⟨0, 1, _, rfl⟩, rfl, rfl, rfl⟩ rfl,
    ⟨trivial, trivial⟩, ⟨trivial, ⟨_, rfl, by decide⟩, by decide +kernel⟩, ⟨trivial, ⟨_, rfl, by decide⟩, by decide +kernel⟩,
    ⟨trivial, trivial⟩, ⟨trivial, ⟨_, rfl, by decide⟩, by decide +kernel⟩, ⟨trivial, ⟨_, rfl, by decide⟩, by decide +kernel⟩,
    ⟨trivial, trivial⟩, ⟨trivial, ⟨_, rfl, by decide⟩, by decide +kernel⟩, ⟨trivial, ⟨_, rfl, by decide⟩, by decide +kernel⟩,
    busy ⟨rfl, trivial, Nat.zero_lt_succ _⟩ rfl, trivial⟩

theorem run_refines_two :
    ((worldSystem .boost).family.Valid (worldStart (fun _ _ _ => 0) fun _ _ _ => 0)
        (effects .boost (fun _ _ _ => 0) (fun _ _ _ => 0) (twoTasks 0)) ∧
      ∀ r, ((deploymentSystem 3 (Fin 10) .boost).run (start (fun _ _ _ => 0) fun _ _ _ => 0) (twoTasks 0)).Agrees r
        ((worldSystem .boost).family.run (worldStart (fun _ _ _ => 0) fun _ _ _ => 0)
          (effects .boost (fun _ _ _ => 0) (fun _ _ _ => 0) (twoTasks 0)) r)) ∧
      (effects .boost (fun _ _ _ => 0) (fun _ _ _ => 0) (twoTasks 0)).length = 20 :=
  ⟨run_refines (by decide) (fun _ _ _ => 0) (fun _ _ _ => 0) (twoTasks 0) twoTasks_valid, rfl⟩

end TwoTasks

end Deployment

end GameServer
