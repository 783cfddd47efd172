import GameServer.IoService
import Mathlib.Data.List.Nodup
import Mathlib.Data.List.Perm.Basic

set_option autoImplicit false

/- Every handler runs on a session somebody owns, and a session reads into `data_` once
at a time: the accept and the reads of a session are one chain, each link of which is
started by the handler of the one before. -/
namespace GameServer.IoService

open Base

/-- What each completion makes its handler call. -/
inductive Handled : Operation → Outcome → List Call → Prop where
  | refused (u : Nat) : Handled (.accept u) (.accept true) []
  | accepted (u : Nat) :
      Handled (.accept u) (.accept false) [.pushBack u, .asyncRead u .header, .startAccept]
  | header (u : Nat) (result : ReadResult) (len : UINT) :
      Handled (.read u .header) (.read (.header result)) [.asyncRead u (.body len)]
  | body (u : Nat) (len : UINT) (bytes : List UInt8) (returned : TaskResult) :
      Handled (.read u (.body len)) (.read (.body (.ok bytes) returned))
        (passTask u returned ++ [.asyncRead u .header])
  | ended (u : Nat) (len : UINT) (bytes : List UInt8) (returned : TaskResult) :
      Handled (.read u (.body len)) (.read (.body (.error bytes) returned)) []
  | written (u : Nat) (p : Packet) (error : Bool) : Handled (.write u p) (.write error) []

theorem handled {ar : TextArchive} {s : IoService} {e : Event} (may : enabled ar s e) :
    ∃ op, s.operations[e.index]? = some op ∧ Handled op e.outcome (s.handler e) := by
  obtain ⟨op, found, fits⟩ := may
  rw [Option.mem_def] at found
  refine ⟨op, found, ?_⟩
  unfold handler
  rw [found]
  cases op with
  | accept u =>
      cases outcome : e.outcome with
      | accept error =>
          cases error with
          | false => exact .accepted u
          | true => exact .refused u
      | read c => rw [outcome] at fits; cases fits
      | write error => rw [outcome] at fits; cases fits
  | write u p =>
      cases outcome : e.outcome with
      | write error => exact .written u p error
      | accept error => rw [outcome] at fits; cases fits
      | read c => rw [outcome] at fits; cases fits
  | read u read =>
      cases outcome : e.outcome with
      | accept error => rw [outcome] at fits; cases read <;> cases fits
      | write error => rw [outcome] at fits; cases read <;> cases fits
      | read c =>
          rw [outcome] at fits
          cases c with
          | header result =>
              cases read with
              | header => exact .header u result _
              | body len => cases fits
          | body result returned =>
              cases read with
              | header => cases fits
              | body len =>
                  cases result with
                  | ok bytes =>
                      have same := Handled.body u len bytes returned
                      simpa only [Server.handleReadBody, ReadResult.failed, Bool.false_eq_true, if_false,
                        List.flatMap_cons, List.flatMap_nil, List.append_nil, perform] using same
                  | error bytes => exact .ended u len bytes returned

@[simp] theorem taken_users (s : IoService) (e : Event) : (s.taken e).users = s.users := by
  unfold taken
  split <;> rfl

@[simp] theorem taken_created (s : IoService) (e : Event) : (s.taken e).created = s.created := by
  unfold taken
  split <;> rfl

@[simp] theorem taken_task (s : IoService) (e : Event) : (s.taken e).task = s.task := by
  unfold taken
  split <;> rfl

@[simp] theorem taken_operations (s : IoService) (e : Event) :
    (s.taken e).operations = s.operations.eraseIdx e.index := by
  unfold taken
  split <;> rfl

/-- The session whose chain of accept and reads an operation belongs to. -/
def Operation.chain : Operation → Option Nat
  | .accept u => some u
  | .read u _ => some u
  | .write _ _ => none

/-- The session whose chain a call goes on with. -/
def Call.chain : Call → Option Nat
  | .asyncRead u _ => some u
  | _ => none

/-- The chains that are alive: an operation is outstanding, or a call will start one. -/
def links (s : IoService) (calls : List Call) : List Nat :=
  s.operations.filterMap Operation.chain ++ calls.filterMap Call.chain

/-- A session is a user before it reads, and it reads neither while its task is being
run nor leaves the task running. -/
def Admits (users : List Nat) (task : Option Nat) : List Call → Prop
  | [] => task = none
  | .pushBack u :: calls => Admits (users ++ [u]) task calls
  | .asyncRead u _ :: calls => u ∈ users ∧ task = none ∧ Admits users task calls
  | .startAccept :: calls => Admits users task calls
  | .enqueue u :: calls => u ∈ calls.filterMap Call.chain ∧ Admits users (some u) calls
  | .wait :: calls => Admits users none calls
  | .broadcast _ :: calls => Admits users task calls

/-- In front of the calls a handler still has to make. -/
structure Tended (s : IoService) (calls : List Call) : Prop where
  once : (s.links calls).Nodup
  known : ∀ u ∈ s.links calls, u < s.created
  admits : Admits s.users s.task calls
  resumes : ∀ u ∈ s.task, u ∈ calls.filterMap Call.chain
  users : ∀ op ∈ s.operations, ∀ u ∈ op.this, u ∈ s.users

theorem Tended.users_append {s : IoService} {calls : List Call} (tended : s.Tended calls) {posted : List Operation}
    (new : ∀ op ∈ posted, ∀ u ∈ op.this, u ∈ s.users) :
    ∀ op ∈ s.operations ++ posted, ∀ u ∈ op.this, u ∈ s.users :=
  List.forall_mem_append.mpr ⟨tended.users, new⟩

/-- The completed operation is the only one that leaves the list. -/
theorem filterMap_eraseIdx (f : Operation → Option Nat) {operations : List Operation} {index : Nat} {op : Operation}
    (found : operations[index]? = some op) :
    ((operations.eraseIdx index).filterMap f ++ (f op).toList).Perm (operations.filterMap f) := by
  obtain ⟨inside, same⟩ := List.getElem?_eq_some_iff.mp found
  have split := (List.getElem_cons_eraseIdx_perm inside).filterMap f
  have front : (operations[index] :: operations.eraseIdx index).filterMap f =
      (f op).toList ++ (operations.eraseIdx index).filterMap f := by
    rw [same]
    cases first : f op <;> simp [first]
  rw [front] at split
  exact List.perm_append_comm.trans split

theorem filterMap_writes {α : Type} (f : Operation → Option α) (users : List Nat) (p : Packet)
    (other : ∀ u, f (.write u p) = none) : (users.map fun u => Operation.write u p).filterMap f = [] := by
  rw [List.filterMap_map]
  exact List.filterMap_eq_nil_iff.mpr fun u _ => other u

/-- Each chain goes through the handler of its completed operation, or ends there. -/
theorem links_taken {s : IoService} (tended : s.Tended []) {index : Nat} {op : Operation}
    (found : s.operations[index]? = some op) {chain : List Nat} (goes_on : chain.Sublist op.chain.toList) :
    ((s.operations.eraseIdx index).filterMap Operation.chain ++ chain).Nodup ∧
      ∀ u ∈ (s.operations.eraseIdx index).filterMap Operation.chain ++ chain, u < s.created := by
  have part : ((s.operations.eraseIdx index).filterMap Operation.chain ++ chain).Sublist
      ((s.operations.eraseIdx index).filterMap Operation.chain ++ op.chain.toList) := goes_on.append_left _
  have whole := filterMap_eraseIdx Operation.chain found
  have once := tended.once
  have known := tended.known
  rw [links, List.filterMap_nil, List.append_nil] at once known
  refine ⟨part.nodup (whole.nodup_iff.mpr once), fun u member => ?_⟩
  exact known u (whole.mem_iff.mp (part.subset member))

/-- PassTask waits before the session reads again. -/
theorem admits_passTask {users : List Nat} {u : Nat} (known : u ∈ users) (result : TaskResult) :
    Admits users none (passTask u result ++ [.asyncRead u .header]) := by
  unfold passTask
  cases GameServer.passTask result with
  | none => exact ⟨List.mem_cons_self, known, rfl, rfl⟩
  | some p => exact ⟨List.mem_cons_self, known, rfl, rfl⟩

theorem chain_passTask (u : Nat) (result : TaskResult) :
    (passTask u result ++ [Call.asyncRead u .header]).filterMap Call.chain = [u] := by
  unfold passTask
  cases GameServer.passTask result <;> rfl

/-- What a handler has to call is in order, and it goes on with its own chain only. -/
theorem Handled.calls {op : Operation} {outcome : Outcome} {calls : List Call} (handled : Handled op outcome calls)
    {users : List Nat} (known : ∀ u ∈ op.this, u ∈ users) :
    (calls.filterMap Call.chain).Sublist op.chain.toList ∧ Admits users none calls := by
  cases handled with
  | refused u => exact ⟨List.nil_sublist _, rfl⟩
  | accepted u => exact ⟨List.Sublist.refl _, List.mem_append_right _ List.mem_cons_self, rfl, rfl⟩
  | header u result len => exact ⟨List.Sublist.refl _, known u rfl, rfl, rfl⟩
  | body u len bytes returned =>
      rw [chain_passTask]
      exact ⟨List.Sublist.refl _, admits_passTask (known u rfl) returned⟩
  | ended u len bytes returned => exact ⟨List.nil_sublist _, rfl⟩
  | written u p error => exact ⟨List.Sublist.refl _, rfl⟩

theorem Tended.enter {ar : TextArchive} {s : IoService} {e : Event} (tended : s.Tended [])
    (may : enabled ar s e) : (s.taken e).Tended (s.handler e) := by
  obtain ⟨op, found, handled⟩ := handled may
  have idle : s.task = none := tended.admits
  have calls := handled.calls (tended.users op (List.mem_of_getElem? found))
  have chains := links_taken tended found calls.1
  refine ⟨?_, ?_, ?_, ?_, ?_⟩
  · rw [links, taken_operations]
    exact chains.1
  · rw [links, taken_operations, taken_created]
    exact chains.2
  · rw [taken_users, taken_task, idle]
    exact calls.2
  · rw [taken_task, idle]
    intro u impossible
    cases impossible
  · rw [taken_operations, taken_users]
    intro other member
    exact tended.users other (List.eraseIdx_subset member)

theorem Tended.call {s : IoService} {call : Call} {calls : List Call} (tended : s.Tended (call :: calls)) :
    (s.exec call).Tended calls := by
  have admits := tended.admits
  have once := tended.once
  have known := tended.known
  have resumes := tended.resumes
  cases call with
  | pushBack u =>
      refine ⟨once, known, admits, resumes, fun op member v this => ?_⟩
      exact List.mem_append_left _ (tended.users op member v this)
  | enqueue u =>
      refine ⟨once, known, admits.2, fun v same => ?_, tended.users⟩
      cases same
      exact admits.1
  | wait =>
      refine ⟨once, known, admits, fun v impossible => ?_, tended.users⟩
      cases impossible
  | asyncRead u read =>
      have moved : (s.exec (.asyncRead u read)).links calls = s.links (.asyncRead u read :: calls) := by
        simp [links, exec, Operation.chain, Call.chain]
      refine ⟨?_, ?_, admits.2.2, ?_, ?_⟩
      · rw [moved]
        exact once
      · rw [moved]
        exact known
      · intro v running
        change v ∈ s.task at running
        rw [admits.2.1] at running
        cases running
      · apply tended.users_append
        intro op new v this
        rw [List.mem_singleton.mp new] at this
        cases this
        exact admits.1
  | startAccept =>
      have moved : ((s.exec .startAccept).links calls).Perm (s.created :: s.links (.startAccept :: calls)) := by
        simp only [links, exec, List.filterMap_append, List.filterMap_cons, List.filterMap_nil, Operation.chain,
          Call.chain, List.append_assoc, List.singleton_append]
        exact List.perm_middle
      refine ⟨?_, ?_, admits, resumes, ?_⟩
      · rw [moved.nodup_iff, List.nodup_cons]
        exact ⟨fun member => Nat.lt_irrefl _ (known _ member), once⟩
      · intro v member
        change v < s.created + 1
        rcases List.mem_cons.mp (moved.mem_iff.mp member) with new | old
        · omega
        · have below := known v old
          omega
      · apply tended.users_append
        intro op new v this
        rw [List.mem_singleton.mp new] at this
        cases this
  | broadcast p =>
      have moved : (s.exec (.broadcast p)).links calls = s.links (.broadcast p :: calls) := by
        have none := filterMap_writes Operation.chain s.users p fun _ => rfl
        simp only [links, exec, List.filterMap_append, none, List.append_nil, List.filterMap_cons, Call.chain]
      refine ⟨?_, ?_, admits, resumes, ?_⟩
      · rw [moved]
        exact once
      · rw [moved]
        exact known
      · apply tended.users_append
        intro op new v this
        obtain ⟨u, user, rfl⟩ := List.mem_map.mp new
        cases this
        exact user

theorem keeps_tended (ar : TextArchive) : (ioLoop ar).Keeps Tended :=
  ⟨fun _ _ tended may => tended.enter may, fun _ _ _ tended => tended.call⟩

theorem tended_start (memory : Nat → WArray) : (start memory).Tended [] := by
  refine ⟨List.nodup_singleton 0, ?_, rfl, ?_, ?_⟩
  · intro u member
    rw [List.mem_singleton.mp member]
    exact Nat.zero_lt_one
  · intro u impossible
    cases impossible
  · intro op member u this
    rw [List.mem_singleton.mp member] at this
    cases this

/-- A session has one read into its `data_` at most, and none while a task made from
`data_` is being run; whoever is the raw `this` of a handler is owned by a session_ptr,
among the users or bound to the pending accept. -/
structure Safe (s : IoService) : Prop where
  oneRead : ∀ u, (s.operations.filterMap Operation.filled).count u ≤ 1
  apart : ∀ u ∈ s.task, u ∉ s.operations.filterMap Operation.filled
  owned : ∀ op ∈ s.operations, ∀ u ∈ op.this, u ∈ s.users ∨ u ∈ s.operations.filterMap Operation.bound

theorem filled_sublist (operations : List Operation) :
    (operations.filterMap Operation.filled).Sublist (operations.filterMap Operation.chain) := by
  induction operations with
  | nil => exact List.Sublist.refl _
  | cons op operations ih =>
      cases op with
      | accept u => exact ih.cons u
      | read u read => exact ih.cons_cons u
      | write u p => exact ih

theorem Tended.safe {s : IoService} {calls : List Call} (tended : s.Tended calls) : s.Safe := by
  have reads := filled_sublist s.operations
  have once := List.nodup_append.mp tended.once
  refine ⟨?_, ?_, ?_⟩
  · intro u
    exact List.nodup_iff_count_le_one.mp (reads.nodup once.1) u
  · intro u running reading
    exact once.2.2 u (reads.subset reading) u (tended.resumes u running) rfl
  · intro op member u this
    exact Or.inl (tended.users op member u this)

/-- In every state of every run, also between the calls of a handler. -/
theorem visited_safe (ar : TextArchive) (memory : Nat → WArray) (events : List Event)
    (valid : (ioLoop ar).system.Valid (start memory) events) :
    ∀ s ∈ (ioLoop ar).visited (start memory) events, s.Safe := by
  intro s member
  obtain ⟨calls, tended⟩ := (keeps_tended ar).visited (tended_start memory) valid member
  exact tended.safe

/-- A session is accepted and receives a message that is answered; the next accept fails, and
the write of the answer ends. -/
def answeredRun : List Event :=
  [⟨0, .accept false⟩,
    ⟨0, .read (.header (.ok
      (bytes32 PacketEvent.tester.code ++ bytes32 (UInt32.ofNat (2 * TextArchive.boost.size 42)))))⟩,
    ⟨1, .read (.body (.ok (wideBytes (TextArchive.boost.write 42)))
      (.ok (some (Server.doWork .boost cleared 42).value)))⟩,
    ⟨0, .accept true⟩, ⟨0, .write false⟩]

theorem answeredRun_valid : (ioLoop .boost).system.Valid (start fun _ _ => 0) answeredRun := by
  have header : (ReadResult.ok (bytes32 PacketEvent.tester.code ++
      bytes32 (UInt32.ofNat (2 * TextArchive.boost.size 42)))).Fits headerLen := by decide
  have body : (ReadResult.ok (wideBytes (TextArchive.boost.write 42))).Fits
      (UInt32.ofNat (2 * TextArchive.boost.size 42)).toNat := by decide
  refine ⟨⟨.accept 0, rfl, trivial⟩, ⟨.read 0 .header, rfl, header⟩,
    ⟨.read 0 (.body (UInt32.ofNat (2 * TextArchive.boost.size 42))), rfl, body, cleared, ?_⟩,
    ⟨.accept 1, rfl, trivial⟩, ⟨.write 0 (Server.doWork .boost cleared 42).value, rfl, trivial⟩, trivial⟩
  exact Eq.symm (Server.parse_answered (by decide +kernel) (by decide +kernel))

theorem answeredRun_safe : answeredRun.length = 5 ∧
    ∀ s ∈ (ioLoop .boost).visited (start fun _ _ => 0) answeredRun, s.Safe :=
  ⟨rfl, visited_safe .boost _ answeredRun answeredRun_valid⟩

end GameServer.IoService
