import Mathlib.Data.List.Infix

set_option autoImplicit false

/- Messages on a stream, each a head of one length and a body behind it, and a reader that
takes a head and then a body, over and over. -/
namespace Base

structure Framing (μ α : Type) where
  head : μ → List α
  body : μ → List α
  size : Nat
  head_length : ∀ m, (head m).length = size

namespace Framing

variable {μ α : Type} (f : Framing μ α)

def wire (m : μ) : List α := f.head m ++ f.body m

/-- The reader is about to take a head, or the body of a message whose head it has taken. -/
inductive Place (μ : Type) where
  | head
  | body (m : μ)

namespace Place

/-- The message that is taken in part. -/
def pending : Place μ → List μ
  | .head => []
  | .body m => [m]

end Place

/-- How much the reader takes next. -/
def count : Place μ → Nat
  | .head => f.size
  | .body m => (f.body m).length

/-- What it has taken by then. -/
def consumed (handed : List μ) : Place μ → List α
  | .head => handed.flatMap f.wire
  | .body m => handed.flatMap f.wire ++ f.head m

/-- The reader has handed over the first messages of a stream, and taken no more than the
head of the next one. -/
structure At (sent handed : List μ) (place : Place μ) (taken : List α) : Prop where
  part : handed ++ place.pending <+: sent
  taken_eq : taken = f.consumed handed place

variable {f} {sent handed : List μ} {place : Place μ} {taken : List α}

theorem At.start (sent : List μ) : f.At sent [] .head [] := ⟨List.nil_prefix, rfl⟩

/-- Messages that are sent later do not matter to the reader. -/
theorem At.append (here : f.At sent handed place taken) (later : List μ) : f.At (sent ++ later) handed place taken :=
  ⟨here.part.trans (List.prefix_append _ _), here.taken_eq⟩

theorem At.handed_front (here : f.At sent handed place taken) : handed <+: sent :=
  (List.prefix_append _ _).trans here.part

/-- The next bytes of a stream of whole messages are the head of the next message. -/
theorem At.next_head (here : f.At sent handed .head taken) {bytes : List α} (length : bytes.length = f.size)
    (positive : 0 < f.size) (stream : taken ++ bytes <+: sent.flatMap f.wire) :
    ∃ m, bytes = f.head m ∧ f.At sent handed (.body m) (taken ++ bytes) := by
  obtain ⟨rest, whole⟩ := here.handed_front
  rw [← whole, List.flatMap_append, here.taken_eq, consumed, List.prefix_append_right_inj] at stream
  cases rest with
  | nil =>
      rw [List.flatMap_nil, List.prefix_nil] at stream
      rw [stream, List.length_nil] at length
      omega
  | cons m rest =>
      rw [List.flatMap_cons, wire, List.append_assoc] at stream
      have head := f.head_length m
      have same : bytes = f.head m :=
        (List.prefix_of_prefix_length_le stream (List.prefix_append _ _) (by omega)).eq_of_length (by omega)
      refine ⟨m, same, ⟨?_, ?_⟩⟩
      · rw [← whole]
        exact ⟨rest, by simp [Place.pending]⟩
      · rw [here.taken_eq, same]
        rfl

/-- Behind a head comes the body that belongs to it. -/
theorem At.next_body {m : μ} (here : f.At sent handed (.body m) taken) {bytes : List α}
    (length : bytes.length = (f.body m).length) (stream : taken ++ bytes <+: sent.flatMap f.wire) :
    bytes = f.body m ∧ f.At sent (handed ++ [m]) .head (taken ++ bytes) := by
  obtain ⟨rest, whole⟩ := here.part
  change handed ++ [m] ++ rest = sent at whole
  rw [← whole, List.flatMap_append, List.flatMap_append, List.flatMap_singleton, here.taken_eq, consumed, wire,
    ← List.append_assoc, List.append_assoc _ (f.body m), List.prefix_append_right_inj] at stream
  have same : bytes = f.body m :=
    (List.prefix_of_prefix_length_le stream (List.prefix_append _ _) (Nat.le_of_eq length)).eq_of_length length
  refine ⟨same, ⟨?_, ?_⟩⟩
  · rw [← whole]
    exact ⟨rest, by simp [Place.pending]⟩
  · rw [here.taken_eq, same, consumed, consumed, List.flatMap_append, List.flatMap_singleton, wire, List.append_assoc]

/-- While a message is missing, the stream holds what the reader takes next. -/
theorem At.available (here : f.At sent handed place taken) (missing : handed ≠ sent) :
    ∃ bytes, bytes.length = f.count place ∧ taken ++ bytes <+: sent.flatMap f.wire := by
  obtain ⟨rest, whole⟩ := here.part
  cases place with
  | body m =>
      refine ⟨f.body m, rfl, ?_⟩
      change handed ++ [m] ++ rest = sent at whole
      rw [← whole, here.taken_eq, consumed, List.flatMap_append, List.flatMap_append, List.flatMap_singleton, wire,
        List.append_assoc (handed.flatMap f.wire)]
      exact List.prefix_append _ _
  | head =>
      cases rest with
      | nil =>
          rw [Place.pending, List.append_nil, List.append_nil] at whole
          exact absurd whole missing
      | cons m rest =>
          refine ⟨f.head m, f.head_length m, ?_⟩
          change handed ++ [] ++ m :: rest = sent at whole
          rw [← whole, here.taken_eq, consumed, List.append_nil, List.flatMap_append, List.flatMap_cons, wire,
            List.append_assoc]
          exact (List.prefix_append_right_inj _).mpr (List.prefix_append _ _)

end Framing

end Base
