import GameServer.Base.Transition

set_option autoImplicit false

/- CppSingleton<T>: two static members, and asserts in the constructor that are to
keep every T the one that `Instance` hands out. -/
namespace GameServer.Singleton

open Base

/-- The static members, with the objects made so far that are not deleted. Objects are
numbered as they are made. -/
structure State where
  pInstance : Option Nat
  bInitialized : Bool
  alive : List Nat
  made : Nat
  deriving DecidableEq, Repr

def start : State := ⟨none, false, [], 0⟩

/-- `new T`, with the asserts of the constructor; no result where one of them fails. -/
def newT (s : State) : Option (Nat × State) :=
  if s.pInstance = none ∧ s.bInitialized = true then
    some (s.made, { s with alive := s.made :: s.alive, made := s.made + 1 })
  else none

/-- `if (!m_pInstance) { .. }` of `Instance` -/
def makeInstance (s : State) : Option State :=
  match s.pInstance with
  | none => (newT { s with bInitialized := true }).map fun (object, s) => { s with pInstance := some object }
  | some _ => some s

/-- `Instance`; a pointer still null fails its assert. -/
def Instance (s : State) : Option (Nat × State) :=
  (makeInstance s).bind fun s => s.pInstance.map fun object => (object, s)

def destroyInstance (s : State) : State :=
  match s.pInstance with
  | none => s
  | some object => { s with alive := s.alive.erase object, pInstance := none }

inductive Call where
  | getInstance
  | destroyInstance
  | new
  deriving DecidableEq, Repr

def step (s : State) : Call → Option State
  | .getInstance => (Instance s).map Prod.snd
  | .destroyInstance => some (destroyInstance s)
  | .new => (newT s).map Prod.snd

/-- A failed assert ends the run. -/
def system : System State Call where
  enabled s call := (step s call).isSome = true
  next s call := (step s call).getD s

instance (s : State) (call : Call) : Decidable (system.enabled s call) :=
  inferInstanceAs (Decidable ((step s call).isSome = true))

/-- Not more than one object is alive, and it is the one `Instance` returns. -/
structure Sole (s : State) : Prop where
  one : s.alive.length ≤ 1
  registered : ∀ object ∈ s.alive, (Instance s).map Prod.fst = some object

/-- An instance has been made, and destroyed since. -/
def Reopened (calls : List Call) : Prop :=
  ∃ before after, calls = before ++ .destroyInstance :: after ∧ .getInstance ∈ before ∧ .getInstance ∉ after

/-- Where a direct `new T` passes both asserts. -/
def Open (s : State) : Prop := s.pInstance = none ∧ s.bInitialized = true

/-- The alive objects are those the static pointer knows. -/
structure Inv (s : State) : Prop where
  alive : s.alive = s.pInstance.toList
  initialized : s.pInstance ≠ none → s.bInitialized = true

theorem start_inv : Inv start := ⟨rfl, fun made => absurd rfl made⟩

theorem newT_of_open {s : State} (opened : Open s) :
    newT s = some (s.made, { s with alive := s.made :: s.alive, made := s.made + 1 }) := by
  rw [newT]
  exact if_pos opened

theorem newT_isSome_iff (s : State) : (newT s).isSome = true ↔ Open s := by
  by_cases opened : Open s
  · simp [newT_of_open opened, opened]
  · have fails : newT s = none := if_neg opened
    simp [fails, opened]

theorem Instance_of_some {s : State} {object : Nat} (known : s.pInstance = some object) :
    Instance s = some (object, s) := by
  simp only [Instance, makeInstance, known, Option.bind_some, Option.map_some]

/-- A null pointer makes `Instance` construct, and the asserts of the constructor hold. -/
theorem Instance_of_none {s : State} (unset : s.pInstance = none) :
    Instance s = some (s.made, ⟨some s.made, true, s.made :: s.alive, s.made + 1⟩) := by
  have made := newT_of_open (s := { s with bInitialized := true }) ⟨unset, rfl⟩
  simp only [Instance, makeInstance, unset] at made ⊢
  rw [made]
  rfl

theorem Inv.sole {s : State} (inv : Inv s) : Sole s := by
  constructor
  · rw [inv.alive]
    exact Option.length_toList_le
  · intro object member
    rw [inv.alive, Option.mem_toList] at member
    rw [Instance_of_some member]
    rfl

theorem enabled_new_iff (s : State) : system.enabled s .new ↔ Open s := by
  change ((newT s).map Prod.snd).isSome = true ↔ _
  rw [Option.isSome_map, newT_isSome_iff]

theorem next_getInstance_of_some {s : State} {object : Nat} (known : s.pInstance = some object) :
    system.next s .getInstance = s := by
  change ((Instance s).map Prod.snd).getD s = s
  rw [Instance_of_some known]
  rfl

theorem next_getInstance_of_none {s : State} (unset : s.pInstance = none) :
    system.next s .getInstance = ⟨some s.made, true, s.made :: s.alive, s.made + 1⟩ := by
  change ((Instance s).map Prod.snd).getD s = _
  rw [Instance_of_none unset]
  rfl

theorem next_destroyInstance (s : State) : system.next s .destroyInstance = destroyInstance s := rfl

@[simp] theorem destroyInstance_pInstance (s : State) : (destroyInstance s).pInstance = none := by
  unfold destroyInstance
  split
  · assumption
  · rfl

@[simp] theorem destroyInstance_bInitialized (s : State) :
    (destroyInstance s).bInitialized = s.bInitialized := by
  unfold destroyInstance
  split <;> rfl

theorem next_getInstance_known (s : State) : (system.next s .getInstance).pInstance ≠ none := by
  cases known : s.pInstance with
  | none =>
      rw [next_getInstance_of_none known]
      exact Option.some_ne_none s.made
  | some object =>
      rw [next_getInstance_of_some known, known]
      exact Option.some_ne_none object

theorem getInstance_inv {s : State} (inv : Inv s) : Inv (system.next s .getInstance) := by
  cases known : s.pInstance with
  | none =>
      have alive := inv.alive
      rw [known] at alive
      rw [next_getInstance_of_none known, alive]
      exact ⟨rfl, fun _ => rfl⟩
  | some object =>
      rw [next_getInstance_of_some known]
      exact inv

theorem destroyInstance_inv {s : State} (inv : Inv s) : Inv (destroyInstance s) := by
  have alive := inv.alive
  cases known : s.pInstance with
  | none =>
      simp only [destroyInstance, known]
      exact inv
  | some object =>
      rw [known] at alive
      simp only [destroyInstance, known, alive, Option.toList_some, List.erase_cons_head]
      exact ⟨rfl, fun made => absurd rfl made⟩

/-- Only a direct `new T` can fail an assert or leave an object without the pointer. -/
theorem step_inv (s : State) (call : Call) (inv : Inv s) (_ : system.enabled s call) (other : call ≠ .new) :
    Inv (system.next s call) := by
  cases call with
  | getInstance => exact getInstance_inv inv
  | destroyInstance => exact destroyInstance_inv inv
  | new => exact absurd rfl other

theorem enabled_of_ne_new (s : State) (call : Call) (other : call ≠ .new) : system.enabled s call := by
  cases call with
  | getInstance =>
      change ((Instance s).map Prod.snd).isSome = true
      cases known : s.pInstance with
      | none => rw [Instance_of_none known]; rfl
      | some object => rw [Instance_of_some known]; rfl
  | destroyInstance => rfl
  | new => exact absurd rfl other

section Runs

variable {calls : List Call}

theorem indirect_always (s : State) (indirect : .new ∉ calls) :
    system.Always (fun _ call => call ≠ .new) s calls :=
  system.always_of_forall fun _ member same => indirect (same ▸ member)

theorem indirect_valid (s : State) (indirect : .new ∉ calls) : system.Valid s calls :=
  System.Always.imp enabled_of_ne_new (indirect_always s indirect)

theorem indirect_inv (indirect : .new ∉ calls) : Inv (system.run start calls) :=
  system.invariant_run step_inv start_inv (indirect_valid start indirect) (indirect_always start indirect)

theorem run_concat (call : Call) :
    system.run start (calls ++ [call]) = system.next (system.run start calls) call := by
  rw [system.run_append]
  rfl

theorem reopened_getInstance : ¬ Reopened (calls ++ [.getInstance]) := by
  intro ⟨before, after, same, _, later⟩
  rcases List.eq_nil_or_concat after with rfl | ⟨front, last, rfl⟩
  · cases List.append_inj_right' same rfl
  · have ends : calls ++ [.getInstance] = (before ++ .destroyInstance :: front) ++ [last] := by
      rw [same, List.append_assoc, List.cons_append, List.concat_eq_append]
    cases List.append_inj_right' ends rfl
    exact later (by simp)

theorem reopened_destroyInstance : Reopened (calls ++ [.destroyInstance]) ↔ .getInstance ∈ calls := by
  constructor
  · intro ⟨before, after, same, made, _⟩
    have member : .getInstance ∈ calls ++ [.destroyInstance] := by
      rw [same]
      exact List.mem_append_left _ made
    simpa using member
  · intro made
    exact ⟨calls, [], rfl, made, List.not_mem_nil⟩

/-- The flag remembers every `Instance`. -/
theorem initialized_iff (indirect : .new ∉ calls) :
    (system.run start calls).bInitialized = true ↔ .getInstance ∈ calls := by
  induction calls using List.reverseRecOn with
  | nil => decide
  | append_singleton front call ih =>
      rw [List.mem_append, not_or] at indirect
      have before := ih indirect.1
      rw [run_concat, List.mem_append]
      cases call with
      | getInstance =>
          have made := (getInstance_inv (indirect_inv indirect.1)).initialized (next_getInstance_known _)
          simp [made]
      | destroyInstance =>
          rw [next_destroyInstance, destroyInstance_bInitialized, before]
          simp
      | new => exact absurd (List.mem_singleton_self Call.new) indirect.2

/-- Without direct constructions, the constructor is open to one exactly in this case. -/
theorem open_iff (indirect : .new ∉ calls) : Open (system.run start calls) ↔ Reopened calls := by
  rcases List.eq_nil_or_concat calls with rfl | ⟨front, call, rfl⟩
  · apply iff_of_false
    · exact fun opened => absurd opened.2 Bool.false_ne_true
    · intro ⟨before, after, same, _⟩
      exact List.append_ne_nil_of_right_ne_nil before (List.cons_ne_nil _ after) same.symm
  · rw [List.concat_eq_append, List.mem_append, not_or] at indirect
    rw [List.concat_eq_append, run_concat]
    cases call with
    | getInstance =>
        exact iff_of_false (fun opened => next_getInstance_known _ opened.1) reopened_getInstance
    | destroyInstance =>
        rw [next_destroyInstance, reopened_destroyInstance, Open, destroyInstance_pInstance,
          destroyInstance_bInitialized, initialized_iff indirect.1]
        simp
    | new => exact absurd (List.mem_singleton_self Call.new) indirect.2

end Runs

/-- A direct `new T` that passes its asserts makes an object that `Instance` does not know. -/
theorem not_sole_of_open {s : State} (opened : Open s) : ¬ Sole (system.next s .new) := by
  intro sole
  have made : system.next s .new = { s with alive := s.made :: s.alive, made := s.made + 1 } := by
    change ((newT s).map Prod.snd).getD s = _
    rw [newT_of_open opened]
    rfl
  rw [made] at sole
  have returned := sole.registered s.made List.mem_cons_self
  have fresh := Instance_of_none (s := { s with alive := s.made :: s.alive, made := s.made + 1 }) opened.1
  rw [fresh] at returned
  have numbers : s.made + 1 = s.made := Option.some.inj returned
  omega

/-- Every object stays the only one exactly where the first direct `new T` of the run,
if it has one, does not come behind a destroyed instance. -/
theorem sole_iff (calls : List Call) :
    (∀ front, front <+: calls → system.Valid start front → Sole (system.run start front)) ↔
      ¬ ∃ front back, calls = front ++ .new :: back ∧ .new ∉ front ∧ Reopened front := by
  constructor
  · intro sole ⟨front, back, split, indirect, reopened⟩
    have opened := (open_iff indirect).mpr reopened
    have part : front ++ [.new] <+: calls := ⟨back, by rw [split, List.append_assoc, List.singleton_append]⟩
    have valid : system.Valid start (front ++ [.new]) := by
      rw [system.valid_append]
      exact ⟨indirect_valid start indirect, (enabled_new_iff _).mpr opened, trivial⟩
    have broken := sole _ part valid
    rw [run_concat] at broken
    exact not_sole_of_open opened broken
  · intro closed front part valid
    by_cases direct : .new ∈ front
    · obtain ⟨before, after, rfl, indirect⟩ := List.eq_append_cons_of_mem direct
      obtain ⟨back, rfl⟩ := part
      rw [system.valid_append] at valid
      have reopened := (open_iff indirect).mp ((enabled_new_iff _).mp valid.2.1)
      refine absurd ⟨before, after ++ back, ?_, indirect, reopened⟩ closed
      rw [List.append_assoc, List.cons_append]
    · exact (indirect_inv direct).sole

/-- A direct construction behind a destroyed instance, and the next instance beside it. -/
theorem sole_fails : ¬ ∀ front, front <+: [.getInstance, .destroyInstance, .new, .getInstance] →
    system.Valid start front → Sole (system.run start front) := by
  intro sole
  have two := (sole _ List.prefix_rfl (by decide)).one
  revert two
  decide

end GameServer.Singleton
