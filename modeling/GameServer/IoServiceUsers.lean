import GameServer.IoServiceRoom

set_option autoImplicit false

/- The users of a room and its pending accept. handle_accept starts the next accept only
when there was no error, and nothing ever takes a session out of the users. -/
namespace GameServer.IoService

open Base

def Outcome.failed : Outcome → Bool
  | .accept error => error
  | .read c => c.failed
  | .write _ => false

/-- The session a completion lets in. -/
def accepting : Operation → Outcome → Option Nat
  | .accept u, .accept false => some u
  | _, _ => none

/-- The session whose connection a completion finds broken. -/
def failing : Operation → Outcome → Option Nat
  | .read u _, .read c => if c.failed then some u else none
  | _, _ => none

def acceptedBy (s : IoService) (e : Event) : Option Nat :=
  s.operations[e.index]?.bind fun op => accepting op e.outcome

def failedBy (s : IoService) (e : Event) : Option Nat :=
  s.operations[e.index]?.bind fun op => failing op e.outcome

/-- One accept is pending, and the users are the accepted sessions that have not failed
a read, each once and in the order they were accepted. -/
structure Tidy (s : IoService) (accepted failed : List Nat) : Prop where
  oneAccept : (s.operations.filterMap Operation.bound).length = 1
  once : s.users.Nodup
  users : s.users = accepted.filter fun u => u ∉ failed

/-- Tidy in the state a run has led to. -/
def TidyAfter (ar : TextArchive) (s : IoService) (events : List Event) : Prop :=
  ((ioLoop ar).system.run s events).Tidy ((ioLoop ar).system.collect acceptedBy s events)
    ((ioLoop ar).system.collect failedBy s events)

def Call.pushed : Call → Option Nat
  | .pushBack u => some u
  | _ => none

def Call.accepts : Call → Bool
  | .startAccept => true
  | _ => false

theorem foldl_exec_users (s : IoService) (calls : List Call) :
    (calls.foldl exec s).users = s.users ++ calls.filterMap Call.pushed := by
  induction calls generalizing s with
  | nil => exact (List.append_nil _).symm
  | cons call calls ih =>
      rw [List.foldl_cons, ih]
      cases call with
      | pushBack u => exact List.append_assoc _ _ _
      | _ => rfl

theorem foldl_exec_bound (s : IoService) (calls : List Call) :
    ((calls.foldl exec s).operations.filterMap Operation.bound).length =
      (s.operations.filterMap Operation.bound).length + calls.countP Call.accepts := by
  induction calls generalizing s with
  | nil => rfl
  | cons call calls ih =>
      rw [List.foldl_cons, ih, List.countP_cons]
      cases call with
      | startAccept =>
          simp only [exec, List.filterMap_append, List.filterMap_cons, List.filterMap_nil, Operation.bound,
            List.length_append, List.length_cons, List.length_nil, Call.accepts, if_true]
          omega
      | asyncRead u read => simp [exec, Operation.bound, Call.accepts]
      | broadcast p =>
          have none := filterMap_writes Operation.bound s.users p fun _ => rfl
          simp [exec, none, Call.accepts]
      | _ => simp [exec, Call.accepts]

theorem Handled.pushed {op : Operation} {outcome : Outcome} {calls : List Call} (handled : Handled op outcome calls) :
    calls.filterMap Call.pushed = (accepting op outcome).toList := by
  cases handled with
  | body u len bytes returned =>
      unfold passTask
      cases GameServer.passTask returned <;> rfl
  | _ => rfl

/-- Without an error the handler of an accept starts the next accept. -/
theorem Handled.accepts {op : Operation} {outcome : Outcome} {calls : List Call} (handled : Handled op outcome calls)
    (good : outcome.failed = false) : calls.countP Call.accepts = op.bound.toList.length := by
  cases handled with
  | refused u => cases good
  | body u len bytes returned =>
      unfold passTask
      cases GameServer.passTask returned <;> rfl
  | _ => rfl

section Step

variable {ar : TextArchive} {s : IoService} {e : Event}

/-- The users grow by the session that is accepted and never shrink. -/
theorem next_users (may : enabled ar s e) : ((ioLoop ar).next s e).users = s.users ++ (s.acceptedBy e).toList := by
  obtain ⟨op, found, handled⟩ := handled may
  change ((s.handler e).foldl exec (s.taken e)).users = _
  rw [foldl_exec_users, taken_users, acceptedBy, found, Option.bind_some, handled.pushed]

/-- The accepts pending: the completed one goes, those the handler starts come. -/
theorem next_bound (ar : TextArchive) {op : Operation} (found : s.operations[e.index]? = some op) :
    (((ioLoop ar).next s e).operations.filterMap Operation.bound).length + op.bound.toList.length =
      (s.operations.filterMap Operation.bound).length + (s.handler e).countP Call.accepts := by
  have split := (filterMap_eraseIdx Operation.bound found).length_eq
  rw [List.length_append] at split
  change (((s.handler e).foldl exec (s.taken e)).operations.filterMap Operation.bound).length + _ = _
  rw [foldl_exec_bound, taken_operations]
  omega

theorem next_bound_of_good (may : enabled ar s e) (good : e.outcome.failed = false) :
    (((ioLoop ar).next s e).operations.filterMap Operation.bound).length =
      (s.operations.filterMap Operation.bound).length := by
  obtain ⟨op, found, handled⟩ := handled may
  have moved := next_bound ar found
  rw [handled.accepts good] at moved
  omega

theorem failedBy_of_good (good : e.outcome.failed = false) : s.failedBy e = none := by
  unfold failedBy failing
  cases s.operations[e.index]? with
  | none => rfl
  | some op =>
      cases outcome : e.outcome with
      | accept error => cases op <;> rfl
      | write error => cases op <;> rfl
      | read c =>
          rw [outcome] at good
          change c.failed = false at good
          cases op <;> simp [good]

/-- A completion that fails leaves the room untidy: no accept is pending any more, or
the session stays among the users. -/
theorem not_tidy_next (may : enabled ar s e) (failed : e.outcome.failed = true) {before after broken : List Nat}
    (oneAccept : (s.operations.filterMap Operation.bound).length = 1)
    (users : ∀ op ∈ s.operations, ∀ u ∈ op.this, u ∈ s.users) :
    ¬ ((ioLoop ar).next s e).Tidy after (before ++ (s.failedBy e).toList ++ broken) := by
  intro tidy
  obtain ⟨op, found, handled⟩ := handled may
  have moved := next_bound ar found
  have stays := next_users may
  have members := tidy.users
  have one := tidy.oneAccept
  rw [stays] at members
  have dead (u : Nat) (this : op.this = some u) (fails : s.failedBy e = some u) : False := by
    have user : u ∈ s.users ++ (s.acceptedBy e).toList :=
      List.mem_append_left _ (users op (List.mem_of_getElem? found) u this)
    rw [members, List.mem_filter, fails] at user
    simp at user
  have failing_eq : s.failedBy e = failing op e.outcome := by
    rw [failedBy, found, Option.bind_some]
  generalize s.handler e = calls at handled moved
  generalize e.outcome = outcome at handled failed failing_eq
  cases handled with
  | refused u =>
      simp only [Operation.bound, Option.toList_some, List.length_singleton, List.countP_nil] at moved
      omega
  | accepted u => cases failed
  | header u result len =>
      apply dead u rfl
      rw [failing_eq]
      exact if_pos failed
  | body u len bytes returned => cases failed
  | ended u len bytes returned =>
      apply dead u rfl
      rw [failing_eq]
      rfl
  | written u p error => cases failed

end Step

/-- The users are the accepted sessions, in the order they were accepted. -/
theorem run_users (ar : TextArchive) (s : IoService) (events : List Event)
    (valid : (ioLoop ar).system.Valid s events) :
    ((ioLoop ar).system.run s events).users = s.users ++ (ioLoop ar).system.collect acceptedBy s events := by
  have step (t : IoService) (e : Event) (accepted : List Nat) (users : t.users = s.users ++ accepted)
      (may : enabled ar t e) : ((ioLoop ar).next t e).users = s.users ++ (accepted ++ (t.acceptedBy e).toList) := by
    rw [next_users may, users, List.append_assoc]
  have begins : s.users = s.users ++ [] := (List.append_nil _).symm
  exact (ioLoop ar).system.invariant_collect step begins valid

/-- The users are told apart in the room's model. -/
theorem run_users_nodup (ar : TextArchive) (memory : Nat → WArray) (events : List Event)
    (valid : (ioLoop ar).system.Valid (start memory) events) :
    ((ioLoop ar).system.run (start memory) events).users.Nodup := by
  obtain ⟨moves, _, rep⟩ := run_represented ar memory events valid
  rw [← rep.users]
  exact (Room.good_run ar memory moves).nodup

/-- Over every run of a room: it is tidy between all its handlers if and only if no
accept and no read has failed. -/
theorem tidy_iff (ar : TextArchive) (memory : Nat → WArray) (events : List Event)
    (valid : (ioLoop ar).system.Valid (start memory) events) :
    (∀ front, front <+: events → TidyAfter ar (start memory) front) ↔ ∀ e ∈ events, e.outcome.failed = false := by
  constructor
  · intro tidy e member
    by_contra bad
    have failed : e.outcome.failed = true := Bool.eq_true_of_not_eq_false bad
    obtain ⟨front, back, rfl⟩ := List.append_of_mem member
    have parts := ((ioLoop ar).system.valid_append _ front _).mp valid
    have before := tidy front (List.prefix_append _ _)
    have after := tidy (front ++ [e]) ⟨back, by rw [List.append_assoc, List.singleton_append]⟩
    have tended := (keeps_tended ar).run (tended_start memory) parts.1
    unfold TidyAfter at after
    rw [System.run_append, System.collect_append _ failedBy] at after
    apply not_tidy_next parts.2.1 failed before.oneAccept tended.users
    rw [List.append_assoc]
    exact after
  · intro good front part
    have validFront := System.Always.of_prefix valid part
    have goodFront : ∀ e ∈ front, e.outcome.failed = false := fun e member => good e (part.subset member)
    have steps : (ioLoop ar).system.Always (fun _ e => e.outcome.failed = false) (start memory) front :=
      System.always_of_forall _ goodFront
    have noFailure : (ioLoop ar).system.collect failedBy (start memory) front = [] :=
      System.collect_eq_nil _ (steps.imp fun _ _ good => failedBy_of_good good)
    have step (s : IoService) (e : Event) (one : (s.operations.filterMap Operation.bound).length = 1)
        (may : enabled ar s e) (good : e.outcome.failed = false) :
        (((ioLoop ar).next s e).operations.filterMap Operation.bound).length = 1 :=
      (next_bound_of_good may good).trans one
    refine ⟨(ioLoop ar).system.invariant_run step rfl validFront steps, run_users_nodup ar memory front validFront, ?_⟩
    rw [noFailure, run_users ar _ front validFront]
    simp [start, exec]

theorem answeredRun_front_tidy :
    (∀ front, front <+: answeredRun.take 3 → TidyAfter .boost (start fun _ _ => 0) front) ↔
      ∀ e ∈ answeredRun.take 3, e.outcome.failed = false :=
  tidy_iff .boost _ _ (System.Always.of_prefix answeredRun_valid (List.take_prefix 3 answeredRun))

/-- The first accept fails. -/
def refusedRun : List Event := [⟨0, .accept true⟩]

/-- A session is accepted and its peer closes the connection. -/
def closedRun : List Event := [⟨0, .accept false⟩, ⟨0, .read (.header (.error []))⟩]

/-- Behind a failed accept no accept is pending; a closed session stays a user. -/
theorem failures_not_tidy :
    ((ioLoop .boost).system.Valid (start fun _ _ => 0) refusedRun ∧ ¬ TidyAfter .boost (start fun _ _ => 0) refusedRun) ∧
      (ioLoop .boost).system.Valid (start fun _ _ => 0) closedRun ∧
        ¬ TidyAfter .boost (start fun _ _ => 0) closedRun := by
  have short : (ReadResult.error []).Fits headerLen := by decide
  refine ⟨⟨⟨⟨.accept 0, rfl, trivial⟩, trivial⟩, fun tidy => ?_⟩,
    ⟨⟨.accept 0, rfl, trivial⟩, ⟨.read 0 .header, rfl, short⟩, trivial⟩, fun tidy => ?_⟩
  · have one := tidy.oneAccept
    cases one
  · have users := tidy.users
    revert users
    decide

end GameServer.IoService
