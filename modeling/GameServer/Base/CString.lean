import Mathlib.Data.List.TakeWhile

set_option autoImplicit false

/- Byte strings read by functions that stop at a zero byte, and texts split at a
separator. -/
namespace Base

/-- What a string looks like through `c_str()`. -/
def cString (s : List UInt8) : List UInt8 := s.takeWhile (· != 0)

/-- The `n` bytes that `strncpy(_, s, n)` writes. -/
def strncpy (s : List UInt8) (n : Nat) : List UInt8 :=
  (cString s).take n ++ List.replicate (n - (cString s).length) 0

@[simp] theorem strncpy_length (s : List UInt8) (n : Nat) : (strncpy s n).length = n := by
  simp only [strncpy, List.length_append, List.length_take, List.length_replicate]
  omega

theorem cString_length_le (s : List UInt8) : (cString s).length ≤ s.length :=
  (List.takeWhile_prefix _).length_le

theorem cString_eq_self (s : List UInt8) (nonzero : 0 ∉ s) : cString s = s := by
  rw [cString, List.takeWhile_eq_self_iff]
  intro c member
  have other : c ≠ 0 := fun zero => nonzero (zero ▸ member)
  simpa using other

theorem nonzero_of_cString (s : List UInt8) (whole : cString s = s) : 0 ∉ s := by
  intro member
  have kept := List.takeWhile_eq_self_iff.mp whole 0 member
  simp at kept

/-- A string without a zero byte is copied as it is. -/
theorem strncpy_whole (s : List UInt8) (nonzero : 0 ∉ s) : strncpy s s.length = s := by
  rw [strncpy, cString_eq_self s nonzero, List.take_length, Nat.sub_self, List.replicate_zero,
    List.append_nil]

/-- Any other string is filled up with zero bytes. -/
theorem strncpy_cut (s : List UInt8) (zero : 0 ∈ s) : ∃ front, strncpy s s.length = front ++ [0] := by
  have short : (cString s).length < s.length := by
    apply Nat.lt_of_le_of_ne (cString_length_le s)
    intro same
    exact nonzero_of_cString s ((List.takeWhile_prefix _).eq_of_length same) zero
  obtain ⟨fill, count⟩ := Nat.exists_eq_add_of_lt short
  exists (cString s).take s.length ++ List.replicate fill 0
  rw [strncpy, show s.length - (cString s).length = fill + 1 by omega, List.replicate_succ',
    List.append_assoc]

section Splitting

variable {α : Type} [BEq α] (separator : α)

theorem splitOn_length_pos (text : List α) : 0 < (text.splitOn separator).length :=
  List.length_pos_iff.mpr (List.splitOn_ne_nil separator text)

variable [LawfulBEq α]

theorem splitOn_single_iff (text piece : List α) :
    text.splitOn separator = [piece] ↔ piece = text ∧ separator ∉ text := by
  constructor
  · intro one
    have joined : [separator].intercalate (text.splitOn separator) = text := List.intercalate_splitOn separator
    rw [one, List.intercalate_singleton] at joined
    apply And.intro joined
    intro member
    obtain ⟨front, back, rfl⟩ := List.append_of_mem member
    have pieces := congrArg List.length one
    have first := splitOn_length_pos separator front
    have second := splitOn_length_pos separator back
    rw [List.splitOn_append_cons_self, List.length_append, List.length_singleton] at pieces
    omega
  · intro both
    rw [both.1]
    exact List.splitOn_eq_singleton both.2

/-- Two pieces are read back exactly where the separator between them is the only one. -/
theorem splitOn_pair_iff (front back first second : List α) :
    (front ++ separator :: back).splitOn separator = [first, second] ↔
      (first = front ∧ separator ∉ front) ∧ (second = back ∧ separator ∉ back) := by
  rw [List.splitOn_append_cons_self, ← splitOn_single_iff, ← splitOn_single_iff]
  constructor
  · intro pair
    have pieces := congrArg List.length pair
    have before := splitOn_length_pos separator front
    have behind := splitOn_length_pos separator back
    rw [List.length_append] at pieces
    change _ = 2 at pieces
    have one : (front.splitOn separator).length = [first].length := by
      rw [List.length_singleton]
      omega
    exact List.append_inj pair one
  · intro both
    rw [both.1, both.2]
    rfl

end Splitting

end Base
