import GameServer.Base.Transition
import Mathlib.Logic.Function.Basic

set_option autoImplicit false

/- Several copies of one system, of which one takes a step at a time. -/
namespace Base.System

variable {ι σ ℓ : Type} [DecidableEq ι] (sys : System σ ℓ)

def family : System (ι → σ) (ι × ℓ) :=
  ⟨fun states move => sys.enabled (states move.1) move.2,
    fun states move => Function.update states move.1 (sys.next (states move.1) move.2)⟩

/-- The steps of one member. -/
def own (i : ι) (moves : List (ι × ℓ)) : List ℓ := moves.filterMap fun move => if move.1 = i then some move.2 else none

theorem own_cons_self (i : ι) (label : ℓ) (moves : List (ι × ℓ)) : own i ((i, label) :: moves) = label :: own i moves := by
  rw [own, List.filterMap_cons, if_pos rfl]
  rfl

theorem own_cons_other {i j : ι} (other : j ≠ i) (label : ℓ) (moves : List (ι × ℓ)) :
    own i ((j, label) :: moves) = own i moves := by
  rw [own, List.filterMap_cons, if_neg other]
  rfl

theorem own_append (i : ι) (front back : List (ι × ℓ)) : own i (front ++ back) = own i front ++ own i back :=
  List.filterMap_append

theorem exists_of_own_eq {i : ι} {moves : List (ι × ℓ)} {front back : List ℓ} {label : ℓ}
    (found : own i moves = front ++ label :: back) :
    ∃ before after, moves = before ++ (i, label) :: after ∧ own i before = front := by
  obtain ⟨before, rest, rfl, part, behind⟩ := List.filterMap_eq_append_iff.mp found
  obtain ⟨skipped, ⟨j, entry⟩, after, rfl, others, mine, _⟩ := List.filterMap_eq_cons_iff.mp behind
  split at mine
  · rename_i same
    cases mine
    change j = i at same
    subst same
    refine ⟨before ++ skipped, after, by rw [List.append_assoc], ?_⟩
    have nothing : own j skipped = [] := List.filterMap_eq_nil_iff.mpr others
    rw [own_append, nothing, List.append_nil]
    exact part
  · cases mine

theorem run_family (states : ι → σ) (moves : List (ι × ℓ)) (i : ι) :
    sys.family.run states moves i = sys.run (states i) (own i moves) := by
  induction moves generalizing states with
  | nil => rfl
  | cons move moves ih =>
      obtain ⟨j, label⟩ := move
      rw [run_cons, ih]
      by_cases same : j = i
      · rw [same, own_cons_self, run_cons]
        exact congrArg (fun state => sys.run state (own i moves)) (Function.update_self ..)
      · rw [own_cons_other same]
        exact congrArg (fun state => sys.run state (own i moves)) (Function.update_of_ne (Ne.symm same) ..)

theorem next_family_self (states : ι → σ) (i : ι) (label : ℓ) :
    sys.family.next states (i, label) i = sys.next (states i) label := Function.update_self ..

theorem next_family_other (states : ι → σ) (move : ι × ℓ) {i : ι} (other : i ≠ move.1) :
    sys.family.next states move i = states i := Function.update_of_ne other ..

/-- What the steps of one member promise in a run of the family, they promise in its own. -/
theorem always_own {p : σ → ℓ → Prop} {states : ι → σ} {moves : List (ι × ℓ)} (i : ι)
    (always : sys.family.Always (fun states move => move.1 = i → p (states i) move.2) states moves) :
    sys.Always p (states i) (own i moves) := by
  induction moves generalizing states with
  | nil => trivial
  | cons move moves ih =>
      obtain ⟨j, label⟩ := move
      have rest := ih always.2
      by_cases same : j = i
      · subst same
        rw [own_cons_self]
        refine ⟨always.1 rfl, ?_⟩
        rwa [sys.next_family_self] at rest
      · rw [own_cons_other same]
        rwa [sys.next_family_other states (j, label) (Ne.symm same)] at rest

/-- A run of the family is a run of every member. -/
theorem valid_own {states : ι → σ} {moves : List (ι × ℓ)} (valid : sys.family.Valid states moves) (i : ι) :
    sys.Valid (states i) (own i moves) := by
  apply sys.always_own i
  refine Always.imp (fun states move may mine => ?_) valid
  rw [← mine]
  exact may

end Base.System
