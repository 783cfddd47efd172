import Mathlib.Data.List.Infix

set_option autoImplicit false

/- Labelled transition systems and what a step lemma says about whole runs. -/
namespace Base

/-- When a step may be taken, and where it leads. -/
structure System (σ ℓ : Type) where
  enabled : σ → ℓ → Prop
  next : σ → ℓ → σ

namespace System

variable {σ ℓ : Type} (sys : System σ ℓ)

def run : σ → List ℓ → σ
  | state, [] => state
  | state, label :: labels => run (sys.next state label) labels

/-- `p` holds of every step of a run, in the state the step is taken from. -/
def Always (p : σ → ℓ → Prop) : σ → List ℓ → Prop
  | _, [] => True
  | state, label :: labels => p state label ∧ Always p (sys.next state label) labels

/-- Every step of the run may be taken. -/
def Valid (state : σ) (labels : List ℓ) : Prop := sys.Always sys.enabled state labels

/-- `p` holds in every state a run goes through, the first and the last included. -/
def Throughout (p : σ → Prop) (state : σ) (labels : List ℓ) : Prop :=
  ∀ front, front <+: labels → p (sys.run state front)

/-- What `f` finds in the steps of a run, each in the state the step is taken from. -/
def collect {α : Type} (f : σ → ℓ → Option α) : σ → List ℓ → List α
  | _, [] => []
  | state, label :: labels => (f state label).toList ++ collect f (sys.next state label) labels

instance decidableAlways (p : σ → ℓ → Prop) [∀ state label, Decidable (p state label)] :
    ∀ state labels, Decidable (sys.Always p state labels)
  | _, [] => isTrue trivial
  | state, label :: labels =>
      have := decidableAlways p (sys.next state label) labels
      inferInstanceAs (Decidable (p state label ∧ sys.Always p (sys.next state label) labels))

instance [∀ state label, Decidable (sys.enabled state label)] (state : σ) (labels : List ℓ) :
    Decidable (sys.Valid state labels) :=
  inferInstanceAs (Decidable (sys.Always sys.enabled state labels))

@[simp] theorem run_nil (state : σ) : sys.run state [] = state := rfl

@[simp] theorem run_cons (state : σ) (label : ℓ) (labels : List ℓ) :
    sys.run state (label :: labels) = sys.run (sys.next state label) labels := rfl

theorem run_append (state : σ) (front back : List ℓ) :
    sys.run state (front ++ back) = sys.run (sys.run state front) back := by
  induction front generalizing state with
  | nil => rfl
  | cons label front ih => exact ih (sys.next state label)

theorem always_append (p : σ → ℓ → Prop) (state : σ) (front back : List ℓ) :
    sys.Always p state (front ++ back) ↔
      sys.Always p state front ∧ sys.Always p (sys.run state front) back := by
  induction front generalizing state with
  | nil => simp [Always]
  | cons label front ih => simp only [List.cons_append, Always, run_cons, ih, and_assoc]

theorem valid_append (state : σ) (front back : List ℓ) :
    sys.Valid state (front ++ back) ↔ sys.Valid state front ∧ sys.Valid (sys.run state front) back :=
  sys.always_append sys.enabled state front back

theorem collect_append {α : Type} (f : σ → ℓ → Option α) (state : σ) (front back : List ℓ) :
    sys.collect f state (front ++ back) = sys.collect f state front ++ sys.collect f (sys.run state front) back := by
  induction front generalizing state with
  | nil => rfl
  | cons label front ih => rw [List.cons_append, collect, collect, ih, List.append_assoc, run_cons]

theorem collect_eq_nil {α : Type} {f : σ → ℓ → Option α} {state : σ} {labels : List ℓ}
    (nothing : sys.Always (fun s label => f s label = none) state labels) : sys.collect f state labels = [] := by
  induction labels generalizing state with
  | nil => rfl
  | cons label labels ih =>
      rw [collect, nothing.1, ih nothing.2]
      rfl

/-- What is found at a place was found by a step of the run. -/
theorem exists_of_collect_eq {α : Type} {f : σ → ℓ → Option α} {state : σ} {labels : List ℓ} {front back : List α}
    {x : α}
    (found : sys.collect f state labels = front ++ x :: back) :
    ∃ before label after, labels = before ++ label :: after ∧ f (sys.run state before) label = some x ∧
      sys.collect f state before = front := by
  induction labels generalizing state front with
  | nil => simp [collect] at found
  | cons label labels ih =>
      have later {front : List α} (found : sys.collect f (sys.next state label) labels = front ++ x :: back) :
          ∃ before entry after, label :: labels = before ++ entry :: after ∧ f (sys.run state before) entry = some x ∧
            sys.collect f state before = (f state label).toList ++ front := by
        obtain ⟨before, entry, after, split, finds, part⟩ := ih found
        refine ⟨label :: before, entry, after, ?_, finds, ?_⟩
        · rw [split, List.cons_append]
        · rw [collect, part]
      rw [collect] at found
      cases first : f state label with
      | none =>
          rw [first] at found later
          exact later found
      | some y =>
          rw [first] at found later
          cases front with
          | nil =>
              rw [Option.toList_some, List.singleton_append, List.nil_append, List.cons.injEq] at found
              exact ⟨[], label, labels, rfl, found.1 ▸ first, rfl⟩
          | cons z front =>
              rw [Option.toList_some, List.singleton_append, List.cons_append, List.cons.injEq] at found
              rw [← found.1]
              exact later found.2

theorem always_of_forall {p : ℓ → Prop} {state : σ} {labels : List ℓ} (all : ∀ label ∈ labels, p label) :
    sys.Always (fun _ label => p label) state labels := by
  induction labels generalizing state with
  | nil => trivial
  | cons label labels ih =>
      rw [List.forall_mem_cons] at all
      exact ⟨all.1, ih all.2⟩

theorem Always.imp {sys : System σ ℓ} {p q : σ → ℓ → Prop} (weaker : ∀ state label, p state label → q state label)
    {state : σ} {labels : List ℓ} (always : sys.Always p state labels) : sys.Always q state labels := by
  induction labels generalizing state with
  | nil => trivial
  | cons label labels ih => exact ⟨weaker state label always.1, ih always.2⟩

theorem always_and (p q : σ → ℓ → Prop) (state : σ) (labels : List ℓ) :
    sys.Always (fun s l => p s l ∧ q s l) state labels ↔ sys.Always p state labels ∧ sys.Always q state labels := by
  induction labels generalizing state with
  | nil => exact ⟨fun _ => ⟨trivial, trivial⟩, fun _ => trivial⟩
  | cons label labels ih =>
      simp only [Always, ih]
      exact and_and_and_comm

theorem Always.of_prefix {sys : System σ ℓ} {p : σ → ℓ → Prop} {state : σ} {front labels : List ℓ}
    (always : sys.Always p state labels) (part : front <+: labels) : sys.Always p state front := by
  obtain ⟨back, rfl⟩ := part
  exact ((sys.always_append p state front back).mp always).1

/-- A step lemma is enough for a run: `cond` is what the run promises of its steps. -/
theorem invariant_run {inv : σ → Prop} {cond : σ → ℓ → Prop}
    (step : ∀ state label, inv state → sys.enabled state label → cond state label →
      inv (sys.next state label))
    {state : σ} {labels : List ℓ} (start : inv state) (valid : sys.Valid state labels)
    (kept : sys.Always cond state labels) : inv (sys.run state labels) := by
  induction labels generalizing state with
  | nil => exact start
  | cons label labels ih => exact ih (step state label start valid.1 kept.1) valid.2 kept.2

theorem always_true (state : σ) (labels : List ℓ) : sys.Always (fun _ _ => True) state labels := by
  induction labels generalizing state with
  | nil => trivial
  | cons label labels ih => exact ⟨trivial, ih _⟩

theorem invariant {inv : σ → Prop}
    (step : ∀ state label, inv state → sys.enabled state label → inv (sys.next state label))
    {state : σ} {labels : List ℓ} (start : inv state) (valid : sys.Valid state labels) :
    inv (sys.run state labels) :=
  sys.invariant_run (fun s l holds may _ => step s l holds may) start valid
    (sys.always_true state labels)

/-- An invariant may also speak of what `f` has found so far. -/
theorem invariant_collect {α : Type} {f : σ → ℓ → Option α} {inv : σ → List α → Prop}
    (step : ∀ state label found, inv state found → sys.enabled state label →
      inv (sys.next state label) (found ++ (f state label).toList))
    {state : σ} {labels : List ℓ} {found : List α} (start : inv state found) (valid : sys.Valid state labels) :
    inv (sys.run state labels) (found ++ sys.collect f state labels) := by
  induction labels generalizing state found with
  | nil =>
      rw [collect, List.append_nil]
      exact start
  | cons label labels ih =>
      rw [collect, ← List.append_assoc]
      exact ih (step state label found start valid.1) valid.2

theorem throughout_of_invariant {inv p : σ → Prop} {cond : σ → ℓ → Prop}
    (step : ∀ state label, inv state → sys.enabled state label → cond state label →
      inv (sys.next state label))
    (holds : ∀ state, inv state → p state)
    {state : σ} {labels : List ℓ} (start : inv state) (valid : sys.Valid state labels)
    (kept : sys.Always cond state labels) : sys.Throughout p state labels := by
  intro front part
  exact holds _ (sys.invariant_run step start (Always.of_prefix valid part) (Always.of_prefix kept part))

/-- A simulation of steps, under an invariant, is one of runs. -/
theorem exists_simulating_run {τ κ : Type} (other : System τ κ) {inv : σ → Prop} {rel : σ → τ → Prop}
    (keeps : ∀ state label, inv state → sys.enabled state label → inv (sys.next state label))
    (step : ∀ state image label, inv state → rel state image → sys.enabled state label →
      ∃ move, other.enabled image move ∧ rel (sys.next state label) (other.next image move))
    {state : σ} {image : τ} {labels : List ℓ} (start : inv state) (related : rel state image)
    (valid : sys.Valid state labels) :
    ∃ moves, other.Valid image moves ∧ rel (sys.run state labels) (other.run image moves) := by
  induction labels generalizing state image with
  | nil => exact ⟨[], trivial, related⟩
  | cons label labels ih =>
      obtain ⟨move, may, next⟩ := step state image label start related valid.1
      obtain ⟨moves, rest, reached⟩ := ih (keeps state label start valid.1) next valid.2
      exact ⟨move :: moves, ⟨may, rest⟩, reached⟩

/-- The other system answers each step with what `f` finds in it, or not at all. -/
theorem simulate_collect {τ κ : Type} (other : System τ κ) (f : σ → ℓ → Option κ) {inv : σ → Prop} {rel : σ → τ → Prop}
    (keeps : ∀ state label, inv state → sys.enabled state label → inv (sys.next state label))
    (step : ∀ state image label, inv state → rel state image → sys.enabled state label →
      other.Valid image (f state label).toList ∧ rel (sys.next state label) (other.run image (f state label).toList))
    {state : σ} {image : τ} {labels : List ℓ} (start : inv state) (related : rel state image)
    (valid : sys.Valid state labels) :
    other.Valid image (sys.collect f state labels) ∧
      rel (sys.run state labels) (other.run image (sys.collect f state labels)) := by
  induction labels generalizing state image with
  | nil => exact ⟨trivial, related⟩
  | cons label labels ih =>
      obtain ⟨may, next⟩ := step state image label start related valid.1
      obtain ⟨rest, reached⟩ := ih (keeps state label start valid.1) next valid.2
      rw [collect, other.valid_append, other.run_append]
      exact ⟨⟨may, rest⟩, reached⟩

/-- The system that takes only steps for which `p` holds. -/
def restrict (p : σ → ℓ → Prop) : System σ ℓ := ⟨fun state label => sys.enabled state label ∧ p state label, sys.next⟩

theorem run_restrict (p : σ → ℓ → Prop) (state : σ) (labels : List ℓ) :
    (sys.restrict p).run state labels = sys.run state labels := by
  induction labels generalizing state with
  | nil => rfl
  | cons label labels ih => exact ih (sys.next state label)

theorem collect_restrict {α : Type} (p : σ → ℓ → Prop) (f : σ → ℓ → Option α) (state : σ) (labels : List ℓ) :
    (sys.restrict p).collect f state labels = sys.collect f state labels := by
  induction labels generalizing state with
  | nil => rfl
  | cons label labels ih => exact congrArg ((f state label).toList ++ ·) (ih (sys.next state label))

theorem valid_restrict (p : σ → ℓ → Prop) (state : σ) (labels : List ℓ) :
    (sys.restrict p).Valid state labels ↔ sys.Valid state labels ∧ sys.Always p state labels := by
  rw [Valid, Valid, ← always_and]
  induction labels generalizing state with
  | nil => exact Iff.rfl
  | cons label labels ih => exact and_congr_right fun _ => ih (sys.next state label)

/-- A potential that every step pays from bounds how many steps of a kind a run can take. -/
theorem spent_le {inv : σ → Prop} {cond : σ → ℓ → Prop} {potential : σ → Nat} {spends earns : ℓ → Bool}
    (keeps : ∀ state label, inv state → sys.enabled state label → cond state label → inv (sys.next state label))
    (pays : ∀ state label, inv state → sys.enabled state label → cond state label →
      potential (sys.next state label) + (spends label).toNat ≤ potential state + (earns label).toNat)
    {state : σ} {labels : List ℓ} (start : inv state) (valid : sys.Valid state labels)
    (kept : sys.Always cond state labels) :
    potential (sys.run state labels) + labels.countP spends ≤ potential state + labels.countP earns := by
  have counted (p : ℓ → Bool) (label : ℓ) (labels : List ℓ) :
      (label :: labels).countP p = labels.countP p + (p label).toNat := by
    rw [List.countP_cons]
    cases p label <;> rfl
  induction labels generalizing state with
  | nil => exact Nat.le_refl _
  | cons label labels ih =>
      have first := pays state label start valid.1 kept.1
      have rest := ih (keeps state label start valid.1 kept.1) valid.2 kept.2
      rw [run_cons, counted, counted]
      omega

/-- A run that breaks `p` somewhere has a first part, a step that breaks it, and a rest. -/
theorem exists_step_of_not_always {p : σ → ℓ → Prop} {state : σ} {labels : List ℓ}
    (broken : ¬ sys.Always p state labels) :
    ∃ front label back, labels = front ++ label :: back ∧ ¬ p (sys.run state front) label := by
  induction labels generalizing state with
  | nil => exact absurd trivial broken
  | cons label labels ih =>
      by_cases here : p state label
      · obtain ⟨front, found, back, rfl, fails⟩ := ih (fun rest => broken ⟨here, rest⟩)
        exact ⟨label :: front, found, back, rfl, fails⟩
      · exact ⟨[], label, labels, rfl, here⟩

/-- A run that gets inside has a part that ends outside, the step that enters, and a rest. -/
theorem exists_entry (inside : σ → Prop) {state : σ} {labels : List ℓ} (out : ¬ inside state)
    (reached : inside (sys.run state labels)) :
    ∃ front label back, labels = front ++ label :: back ∧ ¬ inside (sys.run state front) ∧
      inside (sys.next (sys.run state front) label) := by
  induction labels generalizing state with
  | nil => exact absurd reached out
  | cons label labels ih =>
      by_cases here : inside (sys.next state label)
      · exact ⟨[], label, labels, rfl, out, here⟩
      · obtain ⟨front, entry, back, rfl, before, after⟩ := ih here reached
        exact ⟨label :: front, entry, back, rfl, before, after⟩

end System

end Base
