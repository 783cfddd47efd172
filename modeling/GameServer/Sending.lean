import GameServer.Base.ComposedWrite
import GameServer.PacketStructure

set_option autoImplicit false

/- The way of a packet to the peers. On the server a PassTask call broadcasts the packet
its task returned to the users, on the client an iteration of main's loop sends the
packet it made; both leave while the writes they started may still be outstanding. -/
namespace GameServer

open Base Base.ComposedWrite

/-- A call of asio::async_write: the packet to whose array it has a pointer, by the number
of the call that made it, and the number of bytes. `bound` are the packet_ptrs among the
arguments bound to the handler. -/
structure AsyncWrite where
  packet : Nat
  length : Nat
  bound : List Nat
  deriving DecidableEq

/-- What lies in the buffer of a write, where `memory` are the arrays of the packets. -/
def AsyncWrite.buffer (memory : Nat → WArray) (w : AsyncWrite) : List UInt8 := (memory w.packet).slice 0 w.length

namespace Server

/-- game_session::send. handle_write is bound to `this` and the error. -/
def send (packet : Nat) (p : Packet) : AsyncWrite := ⟨packet, p.length, []⟩

end Server

namespace Client

/-- client::send. handle_send is bound to `this` and the error. -/
def send (packet : Nat) (p : Packet) : AsyncWrite := ⟨packet, p.length, []⟩

end Client

def Side.send : Side → Nat → Packet → AsyncWrite
  | .server => Server.send
  | .client => Client.send

theorem Side.send_eq (side : Side) (packet : Nat) (p : Packet) : side.send packet p = ⟨packet, p.length, []⟩ := by
  cases side <;> rfl

variable {U : Type} [DecidableEq U]

/-- A call that holds its packet in a local packet_ptr, and the users it has not sent it
to yet. -/
structure Call (U : Type) where
  packet : Packet
  todo : List U

/-- The calls in progress, by number, and the socket to each user. The client's only
user is the server. `packets` are the arrays as the calls have made them, `memory` is what
lies there now. -/
structure Sender (U : Type) where
  users : List U
  calls : Nat → Option (Call U)
  made : Nat
  packets : Nat → WArray
  memory : Nat → WArray
  sockets : U → Socket AsyncWrite UInt8

inductive Step (U : Type) where
  /-- handle_accept adds a user. -/
  | accept (u : U)
  /-- PassTask has got a packet and enters broadcast; an iteration has made its packet. -/
  | enter (p : Packet)
  | send (call : Nat)
  /-- PassTask returns; the iteration ends. -/
  | leave (call : Nat)
  | transfer (u : U) (count : Nat)
  | resume (u : U) (index : Nat)
  /-- The memory of a packet that nobody holds is used for something else. -/
  | reuse (packet : Nat) (data : WArray)

/-- What may keep a packet alive: the local of a call in progress, or an argument bound
to the handler of an outstanding write. -/
inductive Holder (U : Type) where
  | call (n : Nat)
  | handler (u : U) (write : AsyncWrite)

namespace Sender

def start (users : List U) : Sender U :=
  ⟨users, fun _ => none, 0, fun _ _ => 0, fun _ _ => 0, fun _ => Socket.idle⟩

def Holds (s : Sender U) : Holder U → Nat → Prop
  | .call n, packet => n = packet ∧ (s.calls n).isSome
  | .handler u write, packet => (∃ op ∈ (s.sockets u).outstanding, op.item = write) ∧ packet ∈ write.bound

def onSocket (s : Sender U) (u : U) (event : Event AsyncWrite) : Sender U :=
  { s with sockets := Function.update s.sockets u ((s.sockets u).next (AsyncWrite.buffer s.memory) event) }

def setCall (s : Sender U) (n : Nat) (call : Option (Call U)) : Sender U :=
  { s with calls := Function.update s.calls n call }

/-- The call with number `made` makes its packet. -/
def make (s : Sender U) (p : Packet) : Sender U :=
  { s.setCall s.made (some ⟨p, s.users⟩) with
    made := s.made + 1
    packets := Function.update s.packets s.made p.data
    memory := Function.update s.memory s.made p.data }

def enabled (s : Sender U) : Step U → Prop
  | .accept u => u ∉ s.users
  | .enter _ => True
  | .send n => ∃ call ∈ s.calls n, call.todo ≠ []
  | .leave n => ∃ call ∈ s.calls n, call.todo = []
  | .transfer u count => (s.sockets u).enabled (AsyncWrite.buffer s.memory) (.transfer count)
  | .resume u index => (s.sockets u).enabled (AsyncWrite.buffer s.memory) (.resume index)
  | .reuse n _ => ∀ holder, ¬ s.Holds holder n

def next (side : Side) (s : Sender U) : Step U → Sender U
  | .accept u => { s with users := s.users ++ [u] }
  | .enter p => s.make p
  | .send n =>
      match s.calls n with
      | some ⟨p, u :: todo⟩ => (s.setCall n (some ⟨p, todo⟩)).onSocket u (.start (side.send n p))
      | _ => s
  | .leave n => s.setCall n none
  | .transfer u count => s.onSocket u (.transfer count)
  | .resume u index => s.onSocket u (.resume index)
  | .reuse n data => { s with memory := Function.update s.memory n data }

end Sender

def senderSystem (U : Type) [DecidableEq U] (side : Side) : System (Sender U) (Step U) :=
  ⟨Sender.enabled, Sender.next side⟩

namespace Sender

variable (side : Side) (s : Sender U)

/-- Whenever a part of a packet is written to a socket, somebody holds the packet. -/
def HeldAt (u : U) : Event AsyncWrite → Prop
  | .transfer _ => ∀ op ∈ (s.sockets u).issued.head?, ∃ holder, s.Holds holder op.item.packet
  | _ => True

/-- On each socket no other write comes between two parts of one, and what is written is
held. -/
def Steady : Step U → Prop
  | .send n => ∀ call ∈ s.calls n, ∀ u ∈ call.todo.head?, (s.sockets u).resuming = []
  | .transfer u count =>
      (s.sockets u).Unsplit (AsyncWrite.buffer s.memory) (.transfer count) ∧ s.HeldAt u (.transfer count)
  | _ => True

/-- What a step does to one socket: nothing, or one step of the socket's own; a write is
started only by a call in progress. -/
theorem sockets_next (step : Step U) (may : s.enabled step) (u : U) :
    (s.next side step).sockets u = s.sockets u ∨
      ∃ event, (s.next side step).sockets u = (s.sockets u).next (AsyncWrite.buffer s.memory) event ∧
        (s.sockets u).enabled (AsyncWrite.buffer s.memory) event ∧
        (s.Steady step → (s.sockets u).Unsplit (AsyncWrite.buffer s.memory) event ∧ s.HeldAt u event) ∧
        ∀ item, event = .start item → ∃ n p, step = .send n ∧ item = side.send n p := by
  have on (t : Sender U) (v : U) (event : Event AsyncWrite) :
      (t.onSocket v event).sockets u =
        if u = v then (t.sockets u).next (AsyncWrite.buffer t.memory) event else t.sockets u := by
    simp only [onSocket, Function.update_apply]
    split
    · rename_i same
      rw [same]
    · rfl
  cases step with
  | accept v => exact Or.inl rfl
  | enter p => exact Or.inl rfl
  | leave n => exact Or.inl rfl
  | reuse n data => exact Or.inl rfl
  | send n =>
      obtain ⟨⟨p, todo⟩, here, some⟩ := may
      obtain ⟨v, todo, rfl⟩ := List.exists_cons_of_ne_nil some
      rw [Option.mem_def] at here
      simp only [next, here, on]
      by_cases same : u = v
      · subst same
        refine Or.inr ⟨.start (side.send n p), if_pos rfl, trivial, ?_, ?_⟩
        · intro steady
          exact ⟨steady _ here u rfl, trivial⟩
        · intro item started
          cases started
          exact ⟨n, p, rfl, rfl⟩
      · exact Or.inl (if_neg same)
  | transfer v count =>
      simp only [next, on]
      by_cases same : u = v
      · subst same
        exact Or.inr ⟨.transfer count, if_pos rfl, may, id, fun _ started => by cases started⟩
      · exact Or.inl (if_neg same)
  | resume v index =>
      simp only [next, on]
      by_cases same : u = v
      · subst same
        exact Or.inr ⟨.resume index, if_pos rfl, may, fun _ => ⟨trivial, trivial⟩, fun _ started => by cases started⟩
      · exact Or.inl (if_neg same)

/-- A call ends only when it leaves. -/
theorem calls_next (step : Step U) (may : s.enabled step) (n : Nat) (here : (s.calls n).isSome)
    (stays : step ≠ .leave n) : ((s.next side step).calls n).isSome := by
  have set (m : Nat) (call : Call U) : ((Function.update s.calls m (some call)) n).isSome := by
    rw [Function.update_apply]
    split
    · rfl
    · exact here
  cases step with
  | accept v => exact here
  | enter p => exact set s.made _
  | transfer v count => exact here
  | resume v index => exact here
  | reuse m data => exact here
  | send m =>
      obtain ⟨⟨p, todo⟩, found, some⟩ := may
      obtain ⟨v, todo, rfl⟩ := List.exists_cons_of_ne_nil some
      rw [Option.mem_def] at found
      simp only [next, found]
      exact set m _
  | leave m =>
      have other : n ≠ m := fun same => stays (by rw [same])
      simp only [next, setCall, Function.update_of_ne other]
      exact here

/-- What test::Make_packet makes of `t`. -/
def numberPacket (t : UINT) : Packet := (Client.makePacket .boost (fun _ => 0) (fun _ => 0) t).value

theorem wire_numberPacket (t : UINT) :
    (numberPacket t).wire = 3 :: 0 :: ([0, 0] ++ bytes32 (UInt32.ofNat (2 * TextArchive.boost.size t)) ++
      wideBytes (TextArchive.boost.write t)) := by
  have bounds := (TextArchive.boost.size_bounds t).2
  unfold TextArchive.size at bounds
  have encoded := Server.encode_wire (fun _ => 0) PacketEvent.tester.code (TextArchive.boost.write t)
    (fun _ => 0) (by omega)
  rw [← Client.encode_value _ _ _ _ (by omega)] at encoded
  exact encoded

theorem length_numberPacket (t : UINT) : 2 < (numberPacket t).length := by
  have whole := congrArg List.length (wire_numberPacket t)
  rw [Packet.wire, Block.slice_length] at whole
  simp only [List.length_cons, List.length_append] at whole
  omega

section Owners

/-- Every packet an outstanding write reads from is held. -/
def Owned : Prop := ∀ u, ∀ op ∈ (s.sockets u).outstanding, ∃ holder, s.Holds holder op.item.packet

/-- A call leaves only after the writes of its packet. -/
def OutlivesWrites : Step U → Prop
  | .leave n => ∀ u, ∀ op ∈ (s.sockets u).outstanding, op.item.packet ≠ n
  | _ => True

/-- No handler has a packet bound to it. -/
def Unbound : Prop := ∀ u, ∀ op ∈ (s.sockets u).outstanding, op.item.bound = []

/-- The call that made the packet of an outstanding write is still in progress. -/
def InCall : Prop := ∀ u, ∀ op ∈ (s.sockets u).outstanding, (s.calls op.item.packet).isSome

omit [DecidableEq U] in
theorem Unbound.call_of_holds {s : Sender U} (unbound : s.Unbound) {holder : Holder U} {n : Nat}
    (held : s.Holds holder n) : (s.calls n).isSome := by
  cases holder with
  | call m =>
      obtain ⟨rfl, inProgress⟩ := held
      exact inProgress
  | handler u write =>
      obtain ⟨⟨op, outstanding, rfl⟩, bound⟩ := held
      rw [unbound u op outstanding] at bound
      cases bound

omit [DecidableEq U] in
theorem InCall.owned {s : Sender U} (inCall : s.InCall) : s.Owned := by
  intro u op outstanding
  exact ⟨.call op.item.packet, rfl, inCall u op outstanding⟩

theorem Unbound.next {s : Sender U} (unbound : s.Unbound) (step : Step U) (may : s.enabled step) :
    (s.next side step).Unbound := by
  intro u op outstanding
  rcases s.sockets_next side step may u with same | ⟨event, moved, _, _, started⟩
  · rw [same] at outstanding
    exact unbound u op outstanding
  · rw [moved] at outstanding
    rcases Socket.item_of_mem_next _ outstanding with new | ⟨before, old, item⟩
    · obtain ⟨n, p, _, item⟩ := started _ new
      rw [item, side.send_eq]
    · rw [← item]
      exact unbound u before old

theorem InCall.next {s : Sender U} (inCall : s.InCall) (step : Step U) (may : s.enabled step)
    (outlives : s.OutlivesWrites step) : (s.next side step).InCall := by
  intro u op outstanding
  have stays (before : Op AsyncWrite) (old : before ∈ (s.sockets u).outstanding) :
      ((s.next side step).calls before.item.packet).isSome := by
    apply s.calls_next side step may _ (inCall u before old)
    rintro rfl
    exact outlives u before old rfl
  rcases s.sockets_next side step may u with same | ⟨event, moved, _, _, started⟩
  · rw [same] at outstanding
    exact stays op outstanding
  · rw [moved] at outstanding
    rcases Socket.item_of_mem_next _ outstanding with new | ⟨before, old, item⟩
    · obtain ⟨n, p, rfl, item⟩ := started _ new
      rw [item, side.send_eq]
      apply s.calls_next side (.send n) may n _ (fun same => by cases same)
      obtain ⟨call, here, _⟩ := may
      rw [Option.mem_def] at here
      rw [here]
      rfl
    · rw [← item]
      exact stays before old

theorem unbound_run (users : List U) (steps : List (Step U))
    (valid : (senderSystem U side).Valid (start users) steps) :
    ((senderSystem U side).run (start users) steps).Unbound := by
  refine System.invariant _ (fun s step (unbound : s.Unbound) may => unbound.next side step may) ?_ valid
  intro u op outstanding
  cases outstanding

/-- A packet whose call has left is held by no one. -/
theorem Unbound.not_owned_of_leave {s : Sender U} (unbound : s.Unbound) {n : Nat} {u : U}
    {op : Op AsyncWrite} (outstanding : op ∈ (s.sockets u).outstanding) (packet : op.item.packet = n) :
    ¬ (s.next side (.leave n)).Owned := by
  intro owned
  obtain ⟨holder, held⟩ := owned u op outstanding
  rw [packet] at held
  have left : (s.next side (.leave n)).Unbound := unbound
  have inProgress := left.call_of_holds held
  change (Function.update s.calls n none n).isSome at inProgress
  rw [Function.update_self] at inProgress
  cases inProgress

/-- Over every run, in any order of the steps: the packet of every outstanding write is
held in every state if and only if every call leaves after the writes of its packet. -/
theorem owned_iff (users : List U) (steps : List (Step U))
    (valid : (senderSystem U side).Valid (start users) steps) :
    (senderSystem U side).Throughout Owned (start users) steps ↔
      (senderSystem U side).Always OutlivesWrites (start users) steps := by
  constructor
  · intro owned
    by_contra broken
    obtain ⟨front, step, back, rfl, fails⟩ := (senderSystem U side).exists_step_of_not_always broken
    cases step with
    | leave n =>
        unfold OutlivesWrites at fails
        push Not at fails
        obtain ⟨u, op, outstanding, packet⟩ := fails
        apply (unbound_run side users front ((System.valid_append _ _ _ _).mp valid).1).not_owned_of_leave side
          outstanding packet
        have after := owned (front ++ [.leave n]) ⟨back, by simp⟩
        rw [System.run_append] at after
        exact after
    | _ => exact fails trivial
  · intro outlives
    refine System.throughout_of_invariant _
      (fun s step (inCall : s.InCall) may kept => inCall.next side step may kept)
      (fun s inCall => inCall.owned) ?_ valid outlives
    intro u op outstanding
    cases outstanding

/-- A call that leaves right after its send. -/
def earlyLeave : List (Step Unit) := [.enter (numberPacket 0), .send 0, .leave 0]

theorem earlyLeave_not_owned :
    (senderSystem Unit side).Valid (start [()]) earlyLeave ∧
      ¬ ((senderSystem Unit side).run (start [()]) earlyLeave).Owned := by
  have valid : (senderSystem Unit side).Valid (start [()]) ([.enter (numberPacket 0), .send 0] ++ [.leave 0]) := by
    simp [senderSystem, System.Valid, System.Always, start, enabled, next, make, setCall, onSocket]
  have unbound := unbound_run side [()] _ ((System.valid_append _ _ _ _).mp valid).1
  have outstanding : (⟨side.send 0 (numberPacket 0), 0⟩ : Op AsyncWrite) ∈
      (((senderSystem Unit side).run (start [()]) [.enter (numberPacket 0), .send 0]).sockets ()).outstanding := by
    simp [senderSystem, start, next, make, setCall, onSocket, Socket.next, Socket.idle, Socket.outstanding,
      Side.send_eq]
  have packet : (side.send 0 (numberPacket 0)).packet = 0 := by
    rw [side.send_eq]
  exact ⟨valid, unbound.not_owned_of_leave side outstanding packet⟩

/-- On either side nobody holds its packet while the write is outstanding. -/
theorem leave_not_owned :
    ((senderSystem Unit .server).Valid (start [()]) earlyLeave ∧
      ¬ ((senderSystem Unit .server).run (start [()]) earlyLeave).Owned) ∧
      (senderSystem Unit .client).Valid (start [()]) earlyLeave ∧
        ¬ ((senderSystem Unit .client).run (start [()]) earlyLeave).Owned :=
  ⟨earlyLeave_not_owned .server, earlyLeave_not_owned .client⟩

theorem owned_iff_leave_last :
    (senderSystem Unit .server).Throughout Owned (start [()])
        [.enter (numberPacket 0), .send 0, .transfer () (numberPacket 0).wire.length, .leave 0] ↔
      (senderSystem Unit .server).Always OutlivesWrites (start [()])
        [.enter (numberPacket 0), .send 0, .transfer () (numberPacket 0).wire.length, .leave 0] := by
  have some := length_numberPacket 0
  apply owned_iff
  simp [senderSystem, System.Valid, System.Always, start, enabled, next, make, setCall, onSocket, Socket.enabled,
    Socket.next, Socket.idle, Side.send_eq, Op.rest, AsyncWrite.buffer, Packet.wire]
  omega

end Owners

section Streams

/-- What a step leaves of the packets. -/
theorem packets_next (step : Step U) {n : Nat} (made : n < s.made) :
    (s.next side step).packets n = s.packets n ∧ n < (s.next side step).made := by
  cases step with
  | enter p =>
      refine ⟨Function.update_of_ne (Nat.ne_of_lt made) .., ?_⟩
      exact Nat.lt_succ_of_lt made
  | send m =>
      simp only [next]
      split
      · exact ⟨rfl, made⟩
      · exact ⟨rfl, made⟩
  | _ => exact ⟨rfl, made⟩

/-- A call in progress was in progress before, or makes its packet now. -/
theorem calls_of_next (step : Step U) (may : s.enabled step) {n : Nat} (here : ((s.next side step).calls n).isSome) :
    (s.calls n).isSome ∨ n = s.made ∧ ∃ p, step = .enter p := by
  have other {m : Nat} {call : Option (Call U)} (apart : n ≠ m)
      (set : (Function.update s.calls m call n).isSome) : (s.calls n).isSome := by
    rwa [Function.update_of_ne apart] at set
  cases step with
  | accept v => exact Or.inl here
  | transfer v count => exact Or.inl here
  | resume v index => exact Or.inl here
  | reuse m data => exact Or.inl here
  | enter p =>
      by_cases same : n = s.made
      · exact Or.inr ⟨same, p, rfl⟩
      · exact Or.inl (other same here)
  | leave m =>
      by_cases same : n = m
      · obtain ⟨call, found, _⟩ := may
        rw [same, show s.calls m = some call from found]
        exact Or.inl rfl
      · exact Or.inl (other same here)
  | send m =>
      obtain ⟨⟨p, todo⟩, found, some⟩ := may
      obtain ⟨v, todo, rfl⟩ := List.exists_cons_of_ne_nil some
      rw [Option.mem_def] at found
      by_cases same : n = m
      · rw [same, found]
        exact Or.inl rfl
      · simp only [next, found] at here
        exact Or.inl (other same here)

/-- The packets that are written have been made, and a packet that is held is as its call
has made it. -/
structure Tracked : Prop where
  unbound : s.Unbound
  calls : ∀ n, (s.calls n).isSome → n < s.made
  started : ∀ u, ∀ w ∈ (s.sockets u).started, w.packet < s.made
  outstanding : ∀ u, ∀ op ∈ (s.sockets u).outstanding, op.item.packet < s.made
  memory : ∀ n, (s.calls n).isSome → s.memory n = s.packets n

variable {s}

omit [DecidableEq U] in
theorem Tracked.kept (tracked : s.Tracked) {u : U} {event : Event AsyncWrite} (held : s.HeldAt u event) :
    (s.sockets u).Kept (AsyncWrite.buffer s.packets) (AsyncWrite.buffer s.memory) event := by
  cases event with
  | start item => trivial
  | resume index => trivial
  | transfer count =>
      intro op first
      obtain ⟨holder, holds⟩ := held op first
      rw [AsyncWrite.buffer, AsyncWrite.buffer, tracked.memory _ (tracked.unbound.call_of_holds holds)]

/-- What is written to a socket behind a step had been made before it. -/
theorem Tracked.sockets_next (tracked : s.Tracked) (step : Step U) (may : s.enabled step) (u : U) :
    (∀ w ∈ ((s.next side step).sockets u).started, w.packet < s.made) ∧
      ∀ op ∈ ((s.next side step).sockets u).outstanding, op.item.packet < s.made := by
  rcases s.sockets_next side step may u with same | ⟨event, moved, _, _, starts⟩
  · rw [same]
    exact ⟨tracked.started u, tracked.outstanding u⟩
  · have fresh {item : AsyncWrite} (new : event = .start item) : item.packet < s.made := by
      obtain ⟨n, p, rfl, rfl⟩ := starts item new
      obtain ⟨call, here, _⟩ := may
      rw [side.send_eq]
      exact tracked.calls n (by rw [show s.calls n = some call from here]; rfl)
    rw [moved]
    constructor
    · intro w member
      rcases Socket.mem_started_next _ member with new | old
      · exact fresh new
      · exact tracked.started u w old
    · intro op member
      rcases Socket.item_of_mem_next _ member with new | ⟨before, old, item⟩
      · exact fresh new
      · rw [← item]
        exact tracked.outstanding u before old

theorem Tracked.next (tracked : s.Tracked) (step : Step U) (may : s.enabled step) : (s.next side step).Tracked := by
  have later {n : Nat} (made : n < s.made) : n < (s.next side step).made := (s.packets_next side step made).2
  refine ⟨tracked.unbound.next side step may, ?_, ?_, ?_, ?_⟩
  · intro n here
    rcases s.calls_of_next side step may here with before | ⟨rfl, p, rfl⟩
    · exact later (tracked.calls n before)
    · exact Nat.lt_succ_self s.made
  · intro u w member
    exact later ((tracked.sockets_next side step may u).1 w member)
  · intro u op member
    exact later ((tracked.sockets_next side step may u).2 op member)
  · intro n here
    rcases s.calls_of_next side step may here with before | ⟨rfl, p, rfl⟩
    · have made := tracked.calls n before
      have kept := tracked.memory n before
      rw [(s.packets_next side step made).1, ← kept]
      cases step with
      | enter p => exact Function.update_of_ne (Nat.ne_of_lt made) ..
      | reuse m data =>
          refine Function.update_of_ne ?_ ..
          rintro rfl
          exact may (.call n) ⟨rfl, before⟩
      | send m =>
          simp only [Sender.next]
          split <;> rfl
      | _ => rfl
    · change Function.update s.memory s.made p.data s.made = Function.update s.packets s.made p.data s.made
      rw [Function.update_self, Function.update_self]

/-- Each socket writes its packets in the order they were sent. -/
def InOrder (s : Sender U) : Prop := ∀ u, Socket.InOrder (AsyncWrite.buffer s.packets) (s.sockets u)

theorem InOrder.next (order : s.InOrder) (tracked : s.Tracked) (step : Step U) (may : s.enabled step)
    (steady : s.Steady step) : (s.next side step).InOrder := by
  intro u
  have made := tracked.sockets_next side step may u
  have same {w : AsyncWrite} (before : w.packet < s.made) :
      AsyncWrite.buffer (s.next side step).packets w = AsyncWrite.buffer s.packets w := by
    rw [AsyncWrite.buffer, AsyncWrite.buffer, (s.packets_next side step before).1]
  have moved : Socket.InOrder (AsyncWrite.buffer s.packets) ((s.next side step).sockets u) := by
    rcases s.sockets_next side step may u with still | ⟨event, moved, mayEvent, whole, _⟩
    · rw [still]
      exact order u
    · obtain ⟨unsplit, held⟩ := whole steady
      rw [moved]
      exact (order u).next _ event mayEvent unsplit (tracked.kept held)
  exact moved.congr (fun w member => same (made.1 w member)) (fun op member => same (made.2 op member))

omit [DecidableEq U] in
/-- Whatever is on a socket is a front of the packets that were handed to send for it. -/
theorem InOrder.stream_front (order : s.InOrder) (u : U) :
    (s.sockets u).stream <+: (s.sockets u).started.flatMap (AsyncWrite.buffer s.packets) :=
  Socket.InOrder.stream_front (order u)

/-- In every run in which no write comes between two parts of another one and in which a
packet is held whenever a part of it is written, each peer receives, at any time, whole
packets: those handed to send for it, each once. -/
theorem streams_whole (users : List U) (steps : List (Step U))
    (valid : (senderSystem U side).Valid (start users) steps)
    (steady : (senderSystem U side).Always Steady (start users) steps) :
    (senderSystem U side).Throughout (fun s => ∀ u, (s.sockets u).Whole (AsyncWrite.buffer s.packets))
      (start users) steps := by
  refine System.throughout_of_invariant _
    (fun s step (inv : s.Tracked ∧ s.InOrder) may kept =>
      ⟨inv.1.next side step may, inv.2.next side inv.1 step may kept⟩)
    (fun s inv u => (inv.2 u).whole) ⟨⟨?_, ?_, ?_, ?_, ?_⟩, fun u => Socket.InOrder.idle _⟩ valid steady
  · intro u op outstanding
    cases outstanding
  · intro n here
    cases here
  · intro u w member
    cases member
  · intro u op outstanding
    cases outstanding
  · intro n here
    cases here

/-- Two calls, each with a packet for the one user; of the first packet one byte is written
before the second one is. -/
def splitRun (p q : Packet) : List (Step Unit) :=
  [.enter p, .send 0, .transfer () 1, .leave 0, .enter q, .send 1, .transfer () q.length]

omit [DecidableEq U] in
theorem splitRun_valid (p q : Packet) (long : 1 < p.length) (some : 0 < q.length) :
    (senderSystem Unit side).Valid (start [()]) (splitRun p q) := by
  simp [splitRun, senderSystem, System.Valid, System.Always, start, enabled, next, make, setCall, onSocket,
    Socket.enabled, Socket.next, Socket.idle, Side.send_eq, Op.rest, AsyncWrite.buffer, long, some]
  omega

omit [DecidableEq U] in
theorem splitRun_socket (p q : Packet) (long : 1 < p.length) :
    ((senderSystem Unit side).run (start [()]) (splitRun p q)).sockets () =
      ⟨[], [⟨side.send 0 p, 1⟩], p.wire.take 1 ++ q.wire, [side.send 0 p, side.send 1 q]⟩ := by
  simp [splitRun, senderSystem, start, next, make, setCall, onSocket, Socket.next, Socket.idle, Side.send_eq, Op.rest,
    AsyncWrite.buffer, Packet.wire, long]

omit [DecidableEq U] in
theorem splitRun_packets (p q : Packet) :
    ((senderSystem Unit side).run (start [()]) (splitRun p q)).packets 0 = p.data ∧
      ((senderSystem Unit side).run (start [()]) (splitRun p q)).packets 1 = q.data := by
  simp [splitRun, senderSystem, start, next, make, setCall, onSocket]

/-- A call leaves before its packet is written, and the memory is cleared. -/
def clearedRun (p : Packet) : List (Step Unit) :=
  [.enter p, .send 0, .leave 0, .reuse 0 fun _ => 0, .transfer () p.length]

omit [DecidableEq U] in
theorem clearedRun_valid (p : Packet) (some : 0 < p.length) :
    (senderSystem Unit side).Valid (start [()]) (clearedRun p) := by
  simp [clearedRun, senderSystem, System.Valid, System.Always, start, enabled, next, make, setCall, onSocket,
    Socket.enabled, Socket.next, Socket.idle, Side.send_eq, Op.rest, AsyncWrite.buffer, some]
  intro holder
  cases holder with
  | call n => simp [Holds]
  | handler u write =>
      rintro ⟨⟨op, outstanding, rfl⟩, bound⟩
      simp [Socket.outstanding] at outstanding
      simp [outstanding] at bound

omit [DecidableEq U] in
theorem clearedRun_socket (p : Packet) :
    ((senderSystem Unit side).run (start [()]) (clearedRun p)).sockets () =
      ⟨[], [], Block.slice (fun _ => 0 : WArray) 0 p.length, [side.send 0 p]⟩ := by
  simp [clearedRun, senderSystem, start, next, make, setCall, onSocket, Socket.next, Socket.idle, Side.send_eq, Op.rest,
    AsyncWrite.buffer]

omit [DecidableEq U] in
theorem clearedRun_packets (p : Packet) :
    ((senderSystem Unit side).run (start [()]) (clearedRun p)).packets 0 = p.data := by
  simp [clearedRun, senderSystem, start, next, make, setCall, onSocket]

/-- The client's first two packets, torn: the second one follows the first byte of the first
one. And a reply of which only zeros are left when it is written. -/
theorem splitRun_not_whole :
    ((senderSystem Unit .client).Valid (start [()]) (splitRun (numberPacket 0) (numberPacket 1)) ∧
      ¬ (((senderSystem Unit .client).run (start [()]) (splitRun (numberPacket 0) (numberPacket 1))).sockets ()).Whole
        (AsyncWrite.buffer
          ((senderSystem Unit .client).run (start [()]) (splitRun (numberPacket 0) (numberPacket 1))).packets)) ∧
    (senderSystem Unit .server).Valid (start [()]) (clearedRun (numberPacket 0)) ∧
      ¬ (((senderSystem Unit .server).run (start [()]) (clearedRun (numberPacket 0))).sockets ()).Whole
        (AsyncWrite.buffer ((senderSystem Unit .server).run (start [()]) (clearedRun (numberPacket 0))).packets) := by
  have long := length_numberPacket 0
  have some := length_numberPacket 1
  refine ⟨⟨splitRun_valid .client _ _ (by omega) (by omega), ?_⟩, clearedRun_valid .server _ (by omega), ?_⟩
  · obtain ⟨first, second⟩ := splitRun_packets .client (numberPacket 0) (numberPacket 1)
    rw [splitRun_socket .client _ _ (by omega)]
    rintro ⟨order, permuted, written, _⟩
    cases order with
    | nil => cases permuted.length_eq
    | cons w order =>
        have starts : ∃ rest, w.buffer ((senderSystem Unit .client).run (start [()])
            (splitRun (numberPacket 0) (numberPacket 1))).packets = 3 :: 0 :: rest := by
          rcases List.mem_pair.mp (permuted.subset List.mem_cons_self) with rfl | rfl
          · exact ⟨_, by rw [Side.send_eq, AsyncWrite.buffer, first]; exact wire_numberPacket 0⟩
          · exact ⟨_, by rw [Side.send_eq, AsyncWrite.buffer, second]; exact wire_numberPacket 1⟩
        obtain ⟨rest, buffer⟩ := starts
        rw [wire_numberPacket, wire_numberPacket, List.flatMap_cons, buffer] at written
        simp at written
  · obtain ⟨last, length⟩ : ∃ last, (numberPacket 0).length = 1 + last := ⟨(numberPacket 0).length - 1, by omega⟩
    rw [clearedRun_socket]
    rintro ⟨order, permuted, written, _⟩
    rw [List.perm_singleton.mp permuted, List.flatMap_singleton, Side.send_eq, AsyncWrite.buffer,
      clearedRun_packets] at written
    change _ <+: (numberPacket 0).wire at written
    rw [wire_numberPacket, length, Block.slice_add, show Block.slice (fun _ => 0 : WArray) 0 1 = [0] from rfl] at written
    simp at written

/-- Two packets, the first one in two parts, each written before its call leaves. -/
def partsRun (p q : Packet) : List (Step Unit) :=
  [.enter p, .send 0, .transfer () 1, .resume () 0, .transfer () (p.length - 1), .leave 0,
    .enter q, .send 1, .transfer () q.length, .leave 1]

theorem streams_whole_parts :
    (senderSystem Unit .client).Throughout (fun s => ∀ u, (s.sockets u).Whole (AsyncWrite.buffer s.packets))
      (start [()]) (partsRun (numberPacket 0) (numberPacket 1)) := by
  have long : 1 < (numberPacket 0).length := Nat.lt_of_succ_lt (length_numberPacket 0)
  have some : 0 < (numberPacket 1).length := Nat.zero_lt_of_lt (length_numberPacket 1)
  apply streams_whole
  · simp [partsRun, senderSystem, System.Valid, System.Always, start, enabled, next, make, setCall, onSocket,
      Socket.enabled, Socket.next, Socket.idle, Side.send_eq, Op.rest, AsyncWrite.buffer, long, some]
    omega
  · simp [partsRun, senderSystem, System.Always, start, Steady, HeldAt, next, make, setCall, onSocket, Socket.Unsplit,
      Socket.outstanding, Socket.next, Socket.idle, Side.send_eq, Op.rest, AsyncWrite.buffer, long]
    exact ⟨⟨.call 0, rfl, rfl⟩, ⟨.call 0, rfl, rfl⟩, ⟨.call 1, rfl, rfl⟩⟩

end Streams

end Sender

end GameServer
