import GameServer.PacketParser
import GameServer.Base.Transition
import Mathlib.Data.List.Forall2

set_option autoImplicit false

/- game_session of game_room.cpp: the chain start, read_header, handle_read_body. A
handler is a function of the receive array to the calls it makes; the completion of a
read stores its bytes and runs the handler bound to it. -/
namespace GameServer

open Base

/-- The asynchronous read a session has outstanding. -/
inductive Read where
  | header
  | body (len : UINT)
  deriving DecidableEq, Repr

/-- The first byte of `data_` the read fills. -/
def Read.start : Read → Nat
  | .header => 0
  | .body _ => headerLen

def Read.count : Read → Nat
  | .header => headerLen
  | .body len => len.toNat

/-- What a session does besides touching `data_`. -/
inductive Action where
  | asyncRead (read : Read)
  | passTask (task : Packet) (result : TaskResult)

def Action.read? : Action → Option Read
  | .asyncRead read => some read
  | .passTask _ _ => none

def Action.task? : Action → Option Packet
  | .asyncRead _ => none
  | .passTask task _ => some task

namespace Server

/-- game_session::start -/
def start : List Action := [.asyncRead .header]

/-- game_session::read_header. The error code is bound but never looked at. -/
def readHeader (data : WArray) (_error : Bool) : Traced Place (List Action) := do
  let header ← GameServer.parseHeader .received data
  Traced.touch .received headerLen header.packetLen.toNat
  pure [.asyncRead (.body header.packetLen)]

/-- game_session::handle_read_body -/
def handleReadBody (data : WArray) (error : Bool) (result : TaskResult) : List Action :=
  if error then []
  else [.passTask (Packet.ofArray data) result, .asyncRead .header]

end Server

/-- How an async_read ends: with all its bytes, or with an error after some of them. A
read of no bytes cannot fail, on a closed connection either. -/
inductive ReadResult where
  | ok (bytes : List UInt8)
  | error (bytes : List UInt8)
  deriving DecidableEq, Repr

namespace ReadResult

def bytes : ReadResult → List UInt8
  | .ok bytes => bytes
  | .error bytes => bytes

def failed : ReadResult → Bool
  | .ok _ => false
  | .error _ => true

def Fits : ReadResult → Nat → Prop
  | .ok bytes, count => bytes.length = count
  | .error bytes, count => bytes.length < count

instance : ∀ (result : ReadResult) (count : Nat), Decidable (result.Fits count)
  | .ok _, _ => inferInstanceAs (Decidable (_ = _))
  | .error _, _ => inferInstanceAs (Decidable (_ < _))

end ReadResult

/-- A completed read; with a complete body comes what the task made of it returned. -/
inductive Completion where
  | header (result : ReadResult)
  | body (result : ReadResult) (returned : TaskResult)

def Completion.failed : Completion → Bool
  | .header result => result.failed
  | .body result _ => result.failed

/-- Bytes that would land behind the 2048 of `data_` are not stored here; whether a
peer can send them is settled with the array bounds. -/
structure Session where
  data : WArray
  outstanding : Option Read
  log : List Action

namespace Session

/-- Handlers start at most one read; it replaces the one that completed. -/
def perform (s : Session) (data : WArray) (actions : List Action) : Session :=
  ⟨data, (actions.filterMap Action.read?).getLast?, s.log ++ actions⟩

/-- A session right after game_session::start. -/
def start (data : WArray) : Session := perform ⟨data, none, []⟩ data Server.start

/-- The packets handed to PassTask so far, in order. -/
def tasks (s : Session) : List Packet := s.log.filterMap Action.task?

def enabled (s : Session) : Completion → Prop
  | .header result => s.outstanding = some .header ∧ result.Fits headerLen
  | .body result _ => ∃ len, s.outstanding = some (.body len) ∧ result.Fits len.toNat

/-- `data_` with the bytes of a completed read. -/
def arrived (s : Session) : Completion → WArray
  | .header result => s.data.store 0 result.bytes
  | .body result _ => s.data.store headerLen result.bytes

/-- The handler bound to the read. -/
def actions (s : Session) : Completion → List Action
  | .header result => (Server.readHeader (s.arrived (.header result)) result.failed).value
  | .body result returned => Server.handleReadBody (s.arrived (.body result returned)) result.failed returned

def next (s : Session) (c : Completion) : Session := s.perform (s.arrived c) (s.actions c)

end Session

def sessionSystem : System Session Completion := ⟨Session.enabled, Session.next⟩

namespace Session

theorem enabled_header {s : Session} {c : Completion} (waiting : s.outstanding = some .header)
    (may : s.enabled c) : ∃ result, c = .header result ∧ result.Fits headerLen := by
  cases c with
  | header result => exact ⟨result, rfl, may.2⟩
  | body result returned =>
      obtain ⟨len, body, _⟩ := may
      rw [waiting] at body
      cases body

theorem enabled_body {s : Session} {c : Completion} {len : UINT}
    (waiting : s.outstanding = some (.body len)) (may : s.enabled c) :
    ∃ result returned, c = .body result returned ∧ result.Fits len.toNat := by
  cases c with
  | header result =>
      have header := may.1
      rw [waiting] at header
      cases header
  | body result returned =>
      obtain ⟨len', body, fits⟩ := may
      rw [waiting] at body
      cases body
      exact ⟨result, returned, rfl, fits⟩

theorem not_enabled_of_ended {s : Session} {c : Completion} (ended : s.outstanding = none) :
    ¬ s.enabled c := by
  intro may
  cases c with
  | header result =>
      have header := may.1
      rw [ended] at header
      cases header
  | body result returned =>
      obtain ⟨len, body, _⟩ := may
      rw [ended] at body
      cases body

/-- A header completion always starts the body read the array now announces. -/
theorem next_header (s : Session) (result : ReadResult) :
    s.next (.header result) =
      ⟨s.data.store 0 result.bytes, some (.body ((s.data.store 0 result.bytes).word 4)),
        s.log ++ [.asyncRead (.body ((s.data.store 0 result.bytes).word 4))]⟩ := rfl

theorem next_body_ok (s : Session) (bytes : List UInt8) (returned : TaskResult) :
    s.next (.body (.ok bytes) returned) =
      ⟨s.data.store headerLen bytes, some .header,
        s.log ++ [.passTask (Packet.ofArray (s.data.store headerLen bytes)) returned,
          .asyncRead .header]⟩ := rfl

/-- A failed body read ends the chain. -/
theorem next_body_error (s : Session) (bytes : List UInt8) (returned : TaskResult) :
    s.next (.body (.error bytes) returned) = ⟨s.data.store headerLen bytes, none, s.log⟩ := by
  simp only [next, arrived, actions, perform, Server.handleReadBody, ReadResult.failed, ReadResult.bytes,
    ↓reduceIte, List.filterMap_nil, List.getLast?_nil, List.append_nil]

/-- Handlers only add to the log. -/
theorem log_grows (s : Session) (cs : List Completion) : s.log <+: (sessionSystem.run s cs).log := by
  induction cs generalizing s with
  | nil => exact List.prefix_rfl
  | cons c cs ih =>
      have step : s.log <+: (s.next c).log := by
        cases c <;> exact List.prefix_append _ _
      exact step.trans (ih (s.next c))

end Session

/-- The messages of a run whose header and body were both received completely. -/
def messages : List Completion → List (List UInt8 × List UInt8)
  | .header (.ok header) :: .body (.ok body) _ :: rest => (header, body) :: messages rest
  | _ :: rest => messages rest
  | [] => []

/-- The packet holds the message's header and as much of its body as the array takes. -/
def Carries (task : Packet) (message : List UInt8 × List UInt8) : Prop :=
  task.data.slice 0 headerLen = message.1 ∧
    ∀ (offset : Nat) (inside : offset < message.2.length), headerLen + offset < 2048 →
      task.data.load (headerLen + offset) = message.2[offset]

namespace Session

/-- From the first failed read on, the session neither passes a task nor starts a read. -/
def StopsAtFailure (s : Session) (cs : List Completion) : Prop :=
  ∀ front c back, cs = front ++ c :: back → c.failed = true → (∀ d ∈ front, d.failed = false) →
    (sessionSystem.run s cs).log = (sessionSystem.run s front).log

/-- One task per complete message, in order, and nothing after the first failure. -/
def Orderly (s : Session) (cs : List Completion) : Prop :=
  List.Forall₂ Carries (sessionSystem.run s cs).tasks (messages cs) ∧ s.StopsAtFailure cs

/-- No header read of the run fails. -/
def HeadersArrive (cs : List Completion) : Prop := ∀ result, .header result ∈ cs → result.failed = false

theorem carries_of_store (s : Session) (header body : List UInt8) (length : header.length = headerLen) :
    Carries (Packet.ofArray ((s.data.store 0 header).store headerLen body)) (header, body) := by
  constructor
  · change Block.slice ((s.data.store 0 header).store headerLen body) 0 headerLen = header
    rw [Block.slice_store_frame _ headerLen body 0 headerLen (Or.inl (by decide)), ← length]
    exact Block.slice_store s.data 0 header (by rw [length]; decide)
  · intro offset inside fits
    exact Block.load_store_inside _ _ body offset inside fits

/-- Between two messages: the tasks of the rest of the run are its complete messages. -/
theorem tasks_of_headersArrive (s : Session) (cs : List Completion)
    (waiting : s.outstanding = some .header) (valid : sessionSystem.Valid s cs)
    (arrive : HeadersArrive cs) :
    ∃ more, (sessionSystem.run s cs).tasks = s.tasks ++ more ∧ List.Forall₂ Carries more (messages cs) := by
  induction remaining : cs.length using Nat.strongRecOn generalizing s cs with
  | ind count ih =>
    match cs, valid, arrive with
    | [], _, _ => exact ⟨[], (List.append_nil _).symm, .nil⟩
    | c :: rest, valid, arrive =>
      obtain ⟨may, valid⟩ := valid
      obtain ⟨result, rfl, fits⟩ := enabled_header waiting may
      have whole := arrive result List.mem_cons_self
      cases result with
      | error bytes => cases whole
      | ok header =>
        match rest, valid, arrive with
        | [], _, _ => exact ⟨[], by simp [sessionSystem, next_header, tasks, Action.task?], .nil⟩
        | d :: rest, valid, arrive =>
          obtain ⟨mayBody, valid⟩ := valid
          obtain ⟨result, returned, rfl, _⟩ := enabled_body rfl mayBody
          cases result with
          | error bytes =>
            match rest, valid with
            | [], _ =>
              refine ⟨[], ?_, .nil⟩
              change (Session.next _ (.body (.error bytes) returned)).tasks = _
              rw [next_body_error]
              simp [sessionSystem, next_header, tasks, Action.task?]
            | e :: rest, valid =>
              refine absurd valid.1 (not_enabled_of_ended ?_)
              change (Session.next _ (.body (.error bytes) returned)).outstanding = none
              rw [next_body_error]
          | ok body =>
            obtain ⟨more, extends_, carried⟩ := ih rest.length
              (by rw [← remaining]; simp only [List.length_cons]; omega)
              ((s.next (.header (.ok header))).next (.body (.ok body) returned)) rest rfl valid
              (fun result member => arrive result (by simp [member])) rfl
            refine ⟨_ :: more, extends_.trans ?_, .cons (carries_of_store s header body fits) carried⟩
            simp only [next_header, next_body_ok, tasks, List.filterMap_append, List.append_assoc]
            rfl

/-- A body failure is the last completion of a run. -/
theorem nothing_after_body_failure {s : Session} {front back : List Completion} {result : ReadResult}
    {returned : TaskResult} (failed : result.failed = true)
    (valid : sessionSystem.Valid s (front ++ .body result returned :: back)) :
    back = [] ∧ (sessionSystem.run s (front ++ .body result returned :: back)).log =
      (sessionSystem.run s front).log := by
  cases result with
  | ok bytes => cases failed
  | error bytes =>
    have last := ((sessionSystem.valid_append s front _).mp valid).2
    have ended : ((sessionSystem.run s front).next (.body (.error bytes) returned)).outstanding = none := by
      rw [next_body_error]
    cases back with
    | cons c back => exact absurd last.2.1 (not_enabled_of_ended ended)
    | nil =>
      refine ⟨rfl, ?_⟩
      rw [sessionSystem.run_append]
      change ((sessionSystem.run s front).next (.body (.error bytes) returned)).log = _
      rw [next_body_error]

theorem first_failure {cs : List Completion} {c : Completion} (member : c ∈ cs) (failed : c.failed = true) :
    ∃ front d back, cs = front ++ d :: back ∧ d.failed = true ∧ ∀ e ∈ front, e.failed = false := by
  induction cs with
  | nil => cases member
  | cons d cs ih =>
      by_cases here : d.failed = true
      · exact ⟨[], d, cs, rfl, here, by simp⟩
      · have rest : c ∈ cs := by
          rcases List.mem_cons.mp member with rfl | rest
          · exact absurd failed here
          · exact rest
        obtain ⟨front, e, back, rfl, bad, good⟩ := ih rest
        refine ⟨d :: front, e, back, rfl, bad, ?_⟩
        intro f inside
        rcases List.mem_cons.mp inside with rfl | inside
        · simpa using here
        · exact good f inside

/-- A header failure is never the end: read_header starts the body read all the same. -/
theorem not_stops_of_header_failure {s : Session} {front back : List Completion} {result : ReadResult}
    (failed : result.failed = true) (before : ∀ d ∈ front, d.failed = false) :
    ¬ s.StopsAtFailure (front ++ .header result :: back) := by
  intro stops
  have same := stops front (.header result) back rfl failed before
  rw [sessionSystem.run_append] at same
  have grown := log_grows ((sessionSystem.run s front).next (.header result)) back
  change _ <+: (sessionSystem.run (sessionSystem.run s front) (.header result :: back)).log at grown
  rw [same, next_header] at grown
  have length := grown.length_le
  simp only [List.length_append, List.length_singleton] at length
  omega

/-- Over every run of a session: it passes exactly one task per complete message and
stops at the first failed read, if and only if no header read fails. -/
theorem orderly_iff (data : WArray) (cs : List Completion) (valid : sessionSystem.Valid (start data) cs) :
    (start data).Orderly cs ↔ HeadersArrive cs := by
  constructor
  · rintro ⟨_, stops⟩ result member
    by_contra bad
    have failed : (Completion.header result).failed = true := Bool.eq_true_of_not_eq_false bad
    obtain ⟨front, d, back, rfl, first, before⟩ := first_failure member failed
    cases d with
    | header result' => exact not_stops_of_header_failure first before stops
    | body result' returned =>
      have nothing := (nothing_after_body_failure first valid).1
      subst nothing
      simp only [List.mem_append, List.mem_singleton, reduceCtorEq, or_false] at member
      have good := before _ member
      rw [failed] at good
      cases good
  · intro arrive
    constructor
    · obtain ⟨more, extends_, carried⟩ := tasks_of_headersArrive (start data) cs rfl valid arrive
      rw [extends_]
      exact carried
    · rintro front c back rfl failed before
      cases c with
      | header result =>
        have good := arrive result (by simp)
        change result.failed = true at failed
        rw [good] at failed
        cases failed
      | body result returned => exact (nothing_after_body_failure failed valid).2

/-- One whole message without a body, then a header read that fails. -/
def staleRun : List Completion :=
  [.header (.ok (bytes32 PacketEvent.tester.code ++ bytes32 0)), .body (.ok []) (.ok none),
    .header (.error []), .body (.ok []) (.ok none)]

theorem staleRun_valid : sessionSystem.Valid (start fun _ => 0) staleRun :=
  ⟨⟨rfl, by decide⟩, ⟨_, rfl, by decide⟩, ⟨rfl, by decide⟩, ⟨_, rfl, by decide⟩, trivial⟩

/-- The header of the last message is still in `data_`, so the failed read is followed
by another read and by a second task for the one message there was. -/
theorem staleRun_not_orderly :
    sessionSystem.Valid (start fun _ => 0) staleRun ∧ (messages staleRun).length = 1 ∧
      (sessionSystem.run (start fun _ => 0) staleRun).tasks.length = 2 ∧
      ¬ (start fun _ => 0).Orderly staleRun := by
  refine ⟨staleRun_valid, rfl, rfl, ?_⟩
  rintro ⟨carried, _⟩
  have lengths : 2 = 1 := carried.length_eq
  cases lengths

theorem staleRun_front_orderly : (start fun _ => 0).Orderly (staleRun.take 2) ↔ HeadersArrive (staleRun.take 2) :=
  orderly_iff _ _ (System.Always.of_prefix staleRun_valid (List.take_prefix 2 staleRun))

end Session

end GameServer
