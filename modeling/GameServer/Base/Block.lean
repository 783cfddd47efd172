import Mathlib.Data.List.Basic

set_option autoImplicit false

/- Blocks of bytes with a fixed size. A store past the end of a block is dropped
and a load past it reads zero; neither is an access a program may make, and the
access log of `GameServer.Base.Access` is what tells the two apart. -/
namespace Base

/-- The bytes of one object of `size` bytes. -/
abbrev Block (size : Nat) := Fin size → UInt8

namespace Block

variable {size : Nat}

def load (block : Block size) (index : Nat) : UInt8 :=
  if inside : index < size then block ⟨index, inside⟩ else 0

/-- Overwrite the bytes from `start` on. -/
def store (block : Block size) (start : Nat) (bytes : List UInt8) : Block size :=
  fun index => if start ≤ index.val then (bytes[index.val - start]?).getD (block index) else block index

/-- The bytes from `start` on, as a list. -/
def slice (block : Block size) (start count : Nat) : List UInt8 :=
  (List.range count).map fun offset => block.load (start + offset)

theorem load_store_inside (block : Block size) (start : Nat) (bytes : List UInt8) (offset : Nat)
    (inside : offset < bytes.length) (fits : start + offset < size) :
    (block.store start bytes).load (start + offset) = bytes[offset] := by
  simp only [load, store, fits, ↓reduceDIte, Nat.le_add_right, ↓reduceIte, Nat.add_sub_cancel_left,
    List.getElem?_eq_getElem inside, Option.getD_some]

theorem load_store_outside (block : Block size) (start : Nat) (bytes : List UInt8) (index : Nat)
    (outside : index < start ∨ start + bytes.length ≤ index) :
    (block.store start bytes).load index = block.load index := by
  unfold load store
  split
  · rcases outside with below | above
    · simp only [Nat.not_le.mpr below, ↓reduceIte]
    · rw [List.getElem?_eq_none (show bytes.length ≤ index - start by omega)]
      simp only [Option.getD_none, ite_self]
  · rfl

@[simp] theorem slice_length (block : Block size) (start count : Nat) :
    (block.slice start count).length = count := by
  simp only [slice, List.length_map, List.length_range]

@[simp] theorem slice_getElem (block : Block size) (start count offset : Nat)
    (inside : offset < (block.slice start count).length) :
    (block.slice start count)[offset] = block.load (start + offset) := by
  simp only [slice, List.getElem_map, List.getElem_range]

theorem slice_add (block : Block size) (start first second : Nat) :
    block.slice start (first + second) = block.slice start first ++ block.slice (start + first) second := by
  simp only [slice, List.range_add, List.map_append, List.map_map, Function.comp_def, Nat.add_assoc]

/-- A store that fits is read back whole. -/
theorem slice_store (block : Block size) (start : Nat) (bytes : List UInt8)
    (fits : start + bytes.length ≤ size) : (block.store start bytes).slice start bytes.length = bytes := by
  apply List.ext_getElem
  · exact slice_length _ _ _
  · intro offset _ inside
    rw [slice_getElem]
    exact load_store_inside block start bytes offset inside (by omega)

/-- A store leaves every slice it does not touch alone. -/
theorem slice_store_frame (block : Block size) (start : Nat) (bytes : List UInt8) (other count : Nat)
    (apart : other + count ≤ start ∨ start + bytes.length ≤ other) :
    (block.store start bytes).slice other count = block.slice other count := by
  apply List.ext_getElem
  · rw [slice_length, slice_length]
  · intro offset inside _
    rw [slice_length] at inside
    rw [slice_getElem, slice_getElem]
    exact load_store_outside block start bytes _ (by omega)

end Block

end Base
