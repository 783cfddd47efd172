import Mathlib.Data.List.Basic

set_option autoImplicit false

/- A byte stream as a transport delivers it: cut into segments at any place, empty
segments included. -/
namespace Base.ByteStream

variable {α : Type}

/-- Collect exactly `count` bytes across segment boundaries, or fail. -/
def readExact : Nat → List (List α) → Option (List α × List (List α))
  | count, [] => if count = 0 then some ([], []) else none
  | count, segment :: segments =>
      if count ≤ segment.length then some (segment.take count, segment.drop count :: segments)
      else (readExact (count - segment.length) segments).map fun read => (segment ++ read.1, read.2)

/-- Where the cuts are does not matter: the bytes are the next ones of the stream. -/
theorem readExact_of_le (count : Nat) (segments : List (List α))
    (enough : count ≤ segments.flatten.length) :
    ∃ rest, readExact count segments = some (segments.flatten.take count, rest) ∧
      rest.flatten = segments.flatten.drop count := by
  induction segments generalizing count with
  | nil =>
      have zero : count = 0 := by simpa using enough
      subst count
      exact ⟨[], rfl, rfl⟩
  | cons segment segments ih =>
      rw [List.flatten_cons, List.length_append] at enough
      by_cases inside : count ≤ segment.length
      · refine ⟨segment.drop count :: segments, ?_, ?_⟩
        · rw [readExact, if_pos inside, List.flatten_cons, List.take_append_of_le_length inside]
        · rw [List.flatten_cons, List.flatten_cons, List.drop_append_of_le_length inside]
      · obtain ⟨rest, read, left⟩ := ih (count - segment.length) (by omega)
        refine ⟨rest, ?_, ?_⟩
        · rw [readExact, if_neg inside, read, List.flatten_cons, List.take_append,
            List.take_of_length_le (l := segment) (by omega)]
          rfl
        · rw [left, List.flatten_cons, List.drop_append,
            List.drop_eq_nil_of_le (show segment.length ≤ count by omega), List.nil_append]

theorem readExact_front (segments : List (List α)) (front more : List α) (stream : segments.flatten = front ++ more) :
    ∃ rest, readExact front.length segments = some (front, rest) ∧ rest.flatten = more := by
  obtain ⟨rest, read, left⟩ := readExact_of_le front.length segments
    (by rw [stream, List.length_append]; omega)
  rw [stream, List.take_left] at read
  rw [stream, List.drop_left] at left
  exact ⟨rest, read, left⟩

theorem readExact_of_lt (count : Nat) (segments : List (List α))
    (short : segments.flatten.length < count) : readExact count segments = none := by
  induction segments generalizing count with
  | nil =>
      have positive : count ≠ 0 := by
        rw [List.flatten_nil, List.length_nil] at short
        omega
      rw [readExact, if_neg positive]
  | cons segment segments ih =>
      rw [List.flatten_cons, List.length_append] at short
      rw [readExact, if_neg (by omega), ih _ (by omega)]
      rfl

end Base.ByteStream
