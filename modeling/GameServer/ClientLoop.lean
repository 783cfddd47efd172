import GameServer.ReceiveBounds
import GameServer.Base.Framing

set_option autoImplicit false

/- client of client.cpp: the chain connect, read_header, handle_read_body. It parses its
receive buffer where the server's session passes a copy of `data_` to the room; apart from
that the two loops are one program. -/
namespace GameServer

open Base

/-- `recv_buf`, the read that is outstanding into it, and the arrays Parse was called on. -/
structure Receiver where
  data : WArray
  outstanding : Option Read
  parsed : List WArray

namespace Client

/-- The handler of connect's async_connect; on an error the program exits. -/
def handleConnect (error : Bool) : Option (List Action) := if error then none else some [.asyncRead .header]

/-- client::handle_read_body: what it parses and the read it starts. -/
def handleReadBody (p : WArray) (error : Bool) : Option WArray × List Action :=
  if error then (none, []) else (some p, [.asyncRead .header])

end Client

def Completion.result : Completion → ReadResult
  | .header result => result
  | .body result _ => result

namespace Receiver

def readOf (actions : List Action) : Option Read := (actions.filterMap Action.read?).getLast?

/-- A client whose connection has been made. -/
def start (data : WArray) : Receiver := ⟨data, (Client.handleConnect false).elim none readOf, []⟩

def enabled (r : Receiver) (result : ReadResult) : Prop := ∃ read ∈ r.outstanding, result.Fits read.count

/-- The outstanding read completes and the handler bound to it runs. -/
def next (r : Receiver) (result : ReadResult) : Receiver :=
  match r.outstanding with
  | none => r
  | some .header =>
      let data := r.data.store 0 result.bytes
      ⟨data, readOf (Client.readHeader data result.failed).value, r.parsed⟩
  | some (.body _) =>
      let data := r.data.store (2 * Client.headerIdx) result.bytes
      let handled := Client.handleReadBody data result.failed
      ⟨data, readOf handled.2, r.parsed ++ handled.1.toList⟩

theorem next_header (r : Receiver) (waiting : r.outstanding = some .header) (result : ReadResult) :
    r.next result = ⟨r.data.store 0 result.bytes, some (.body ((r.data.store 0 result.bytes).word 4)), r.parsed⟩ := by
  simp only [next, waiting]
  rfl

theorem next_body (r : Receiver) {len : UINT} (waiting : r.outstanding = some (.body len)) (result : ReadResult) :
    r.next result = ⟨r.data.store headerLen result.bytes, if result.failed then none else some .header,
      r.parsed ++ if result.failed then [] else [r.data.store headerLen result.bytes]⟩ := by
  simp only [next, waiting]
  cases result <;> rfl

end Receiver

def receiverSystem : System Receiver ReadResult := ⟨Receiver.enabled, Receiver.next⟩

namespace Session

/-- What a session shares with the client's loop. -/
def asReceiver (s : Session) : Receiver := ⟨s.data, s.outstanding, s.tasks.map Packet.data⟩

theorem enabled_asReceiver {s : Session} {c : Completion} (may : s.enabled c) : s.asReceiver.enabled c.result := by
  cases c with
  | header result => exact ⟨.header, may.1, may.2⟩
  | body result returned =>
      obtain ⟨len, waiting, fits⟩ := may
      exact ⟨.body len, waiting, fits⟩

/-- One completed read does the same to both. -/
theorem asReceiver_next {s : Session} {c : Completion} (may : s.enabled c) :
    (s.next c).asReceiver = s.asReceiver.next c.result := by
  cases c with
  | header result =>
      rw [Receiver.next_header s.asReceiver may.1, next_header]
      simp only [asReceiver, tasks, List.filterMap_append, List.map_append]
      exact congrArg (Receiver.mk _ _) (List.append_nil _)
  | body result returned =>
      obtain ⟨len, waiting, _⟩ := may
      have body : s.asReceiver.outstanding = some (.body len) := waiting
      rw [Receiver.next_body s.asReceiver body]
      cases result with
      | ok bytes =>
          rw [next_body_ok]
          simp only [asReceiver, tasks, List.filterMap_append, List.map_append]
          rfl
      | error bytes =>
          rw [next_body_error]
          simp only [asReceiver]
          exact congrArg (Receiver.mk _ _) (List.append_nil _).symm

theorem asReceiver_run_of (s : Session) (cs : List Completion) (valid : sessionSystem.Valid s cs) :
    receiverSystem.Valid s.asReceiver (cs.map Completion.result) ∧
      (sessionSystem.run s cs).asReceiver = receiverSystem.run s.asReceiver (cs.map Completion.result) := by
  induction cs generalizing s with
  | nil => exact ⟨trivial, rfl⟩
  | cons c cs ih =>
      have step : (sessionSystem.next s c).asReceiver = receiverSystem.next s.asReceiver c.result :=
        asReceiver_next valid.1
      obtain ⟨rest, same⟩ := ih (sessionSystem.next s c) valid.2
      rw [step] at rest same
      exact ⟨⟨enabled_asReceiver valid.1, rest⟩, same⟩

/-- Whatever the reads of a session bring, failures included: the client's loop on the same
reads holds the same array and waits for the same read, and it has parsed, in order, the
arrays of the packets that the session has passed as tasks. -/
theorem receiver_mirrors_session (data : WArray) (cs : List Completion) (valid : sessionSystem.Valid (start data) cs) :
    receiverSystem.Valid (Receiver.start data) (cs.map Completion.result) ∧
      (receiverSystem.run (Receiver.start data) (cs.map Completion.result)).data =
        (sessionSystem.run (start data) cs).data ∧
      (receiverSystem.run (Receiver.start data) (cs.map Completion.result)).outstanding =
        (sessionSystem.run (start data) cs).outstanding ∧
      (receiverSystem.run (Receiver.start data) (cs.map Completion.result)).parsed =
        (sessionSystem.run (start data) cs).tasks.map Packet.data := by
  obtain ⟨reads, same⟩ := asReceiver_run_of (start data) cs valid
  have begun : (start data).asReceiver = Receiver.start data := rfl
  rw [begun] at reads same
  rw [← same]
  exact ⟨reads, rfl, rfl, rfl⟩

/-- A message without a body, and a header read that fails. -/
def brokenRun : List Completion :=
  [.header (.ok (bytes32 PacketEvent.tester.code ++ bytes32 0)), .body (.ok []) (.ok none), .header (.error [])]

theorem receiver_mirrors_broken :
    receiverSystem.Valid (Receiver.start fun _ => 0) (brokenRun.map Completion.result) ∧
      (receiverSystem.run (Receiver.start fun _ => 0) (brokenRun.map Completion.result)).data =
        (sessionSystem.run (start fun _ => 0) brokenRun).data ∧
      (receiverSystem.run (Receiver.start fun _ => 0) (brokenRun.map Completion.result)).outstanding =
        (sessionSystem.run (start fun _ => 0) brokenRun).outstanding ∧
      (receiverSystem.run (Receiver.start fun _ => 0) (brokenRun.map Completion.result)).parsed =
        (sessionSystem.run (start fun _ => 0) brokenRun).tasks.map Packet.data := by
  apply receiver_mirrors_session
  exact ⟨⟨rfl, by decide⟩, ⟨_, rfl, by decide⟩, ⟨rfl, by decide⟩, trivial⟩

end Session

end GameServer
