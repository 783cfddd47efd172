import Mathlib.Data.List.TakeWhile
import GameServer.Base.Words

set_option autoImplicit false

/- Computations on arrays that log every range of bytes they touch. The value is
computed whether or not an access leaves its array; `InBounds` is the check an
indexed array would make. -/
namespace Base

structure Access (Place : Type) where
  place : Place
  start : Nat
  count : Nat
  deriving DecidableEq, Repr

/-- The access stays inside an object of the given size. -/
def Access.Within {Place : Type} (size : Place → Nat) (access : Access Place) : Prop :=
  access.start + access.count ≤ size access.place

instance {Place : Type} (size : Place → Nat) (access : Access Place) :
    Decidable (access.Within size) :=
  inferInstanceAs (Decidable (_ ≤ _))

structure Traced (Place α : Type) where
  value : α
  accesses : List (Access Place)

namespace Traced

variable {Place α β : Type}

instance : Monad (Traced Place) where
  pure value := ⟨value, []⟩
  bind first next := ⟨(next first.value).value, first.accesses ++ (next first.value).accesses⟩

@[simp] theorem value_pure (value : α) : (pure value : Traced Place α).value = value := rfl

@[simp] theorem accesses_pure (value : α) : (pure value : Traced Place α).accesses = [] := rfl

@[simp] theorem value_bind (first : Traced Place α) (next : α → Traced Place β) :
    (first >>= next).value = (next first.value).value := rfl

@[simp] theorem accesses_bind (first : Traced Place α) (next : α → Traced Place β) :
    (first >>= next).accesses = first.accesses ++ (next first.value).accesses := rfl

def touch (place : Place) (start count : Nat) : Traced Place Unit := ⟨(), [⟨place, start, count⟩]⟩

def write {size : Nat} (place : Place) (block : Block size) (start : Nat) (bytes : List UInt8) :
    Traced Place (Block size) := do
  touch place start bytes.length
  pure (block.store start bytes)

def readBytes {size : Nat} (place : Place) (block : Block size) (start count : Nat) :
    Traced Place (List UInt8) := do
  touch place start count
  pure (block.slice start count)

/-- A four-byte `memcpy` out of an array. -/
def readWord {size : Nat} (place : Place) (block : Block size) (start : Nat) : Traced Place UInt32 := do
  touch place start 4
  pure (block.word start)

/-- A `wmemcpy` out of an array; `start` and `count` are in wide characters. -/
def readWides {size : Nat} (place : Place) (block : Block size) (start count : Nat) :
    Traced Place (List UInt16) := do
  touch place (2 * start) (2 * count)
  pure (block.wides start count)

/-- The wide characters in front of the first zero one. -/
def cstring {size : Nat} (block : Block size) : List UInt16 :=
  (block.wides 0 (size / 2)).takeWhile (· != 0)

/-- Reading a zero-terminated text also reads its terminator. -/
def readText {size : Nat} (place : Place) (block : Block size) : Traced Place (List UInt16) := do
  touch place 0 (2 * ((cstring block).length + 1))
  pure (cstring block)

def InBounds (size : Place → Nat) (traced : Traced Place α) : Prop :=
  ∀ access ∈ traced.accesses, access.Within size

instance (size : Place → Nat) (traced : Traced Place α) : Decidable (traced.InBounds size) :=
  inferInstanceAs (Decidable (∀ access ∈ traced.accesses, access.Within size))

@[simp] theorem inBounds_pure (size : Place → Nat) (value : α) :
    (pure value : Traced Place α).InBounds size := by
  intro access member
  cases member

@[simp] theorem inBounds_bind (size : Place → Nat) (first : Traced Place α)
    (next : α → Traced Place β) :
    (first >>= next).InBounds size ↔ first.InBounds size ∧ (next first.value).InBounds size := by
  simp only [InBounds, accesses_bind, List.mem_append, or_imp, forall_and]

theorem inBounds_bind_of_forall (size : Place → Nat) (first : Traced Place α) (next : α → Traced Place β)
    (rest : ∀ value, (next value).InBounds size) :
    (first >>= next).InBounds size ↔ first.InBounds size := by
  rw [inBounds_bind]
  exact and_iff_left (rest _)

@[simp] theorem inBounds_touch (size : Place → Nat) (place : Place) (start count : Nat) :
    (touch place start count).InBounds size ↔ start + count ≤ size place := by
  simp only [InBounds, touch, List.mem_singleton, forall_eq, Access.Within]

section Operations

variable {width : Nat} (size : Place → Nat) (place : Place) (block : Block width) (start count : Nat)

@[simp] theorem inBounds_write (bytes : List UInt8) :
    (write place block start bytes).InBounds size ↔ start + bytes.length ≤ size place := by
  simp only [write, inBounds_bind, inBounds_touch, inBounds_pure, and_true]

@[simp] theorem inBounds_readBytes :
    (readBytes place block start count).InBounds size ↔ start + count ≤ size place := by
  simp only [readBytes, inBounds_bind, inBounds_touch, inBounds_pure, and_true]

@[simp] theorem inBounds_readWord :
    (readWord place block start).InBounds size ↔ start + 4 ≤ size place := by
  simp only [readWord, inBounds_bind, inBounds_touch, inBounds_pure, and_true]

@[simp] theorem inBounds_readWides :
    (readWides place block start count).InBounds size ↔ 2 * start + 2 * count ≤ size place := by
  simp only [readWides, inBounds_bind, inBounds_touch, inBounds_pure, and_true]

@[simp] theorem inBounds_readText :
    (readText place block).InBounds size ↔ 2 * ((cstring block).length + 1) ≤ size place := by
  simp only [readText, inBounds_bind, inBounds_touch, inBounds_pure, and_true, Nat.zero_add]

@[simp] theorem value_touch : (touch place start count).value = () := rfl

@[simp] theorem value_write (bytes : List UInt8) :
    (write place block start bytes).value = block.store start bytes := rfl

@[simp] theorem value_readBytes :
    (readBytes place block start count).value = block.slice start count := rfl

@[simp] theorem value_readWord : (readWord place block start).value = block.word start := rfl

@[simp] theorem value_readWides :
    (readWides place block start count).value = block.wides start count := rfl

@[simp] theorem value_readText : (readText place block).value = cstring block := rfl

end Operations

/-- All accesses are in bounds, and the value is as told. -/
def Ensures (size : Place → Nat) (traced : Traced Place α) (post : α → Prop) : Prop :=
  traced.InBounds size ∧ post traced.value

section Ensures

variable {size : Place → Nat}

theorem ensures_pure {value : α} {post : α → Prop} (holds : post value) :
    Ensures size (pure value) post := ⟨inBounds_pure size value, holds⟩

theorem Ensures.bind {first : Traced Place α} {next : α → Traced Place β} {middle : α → Prop} {post : β → Prop}
    (before : first.Ensures size middle) (after : ∀ value, middle value → (next value).Ensures size post) :
    (first >>= next).Ensures size post := by
  have rest := after first.value before.2
  exact ⟨(inBounds_bind size first next).mpr ⟨before.1, rest.1⟩, rest.2⟩

theorem Ensures.imp {traced : Traced Place α} {post weaker : α → Prop} (ensures : traced.Ensures size post)
    (implies : ∀ value, post value → weaker value) : traced.Ensures size weaker :=
  ⟨ensures.1, implies _ ensures.2⟩

theorem ensures_touch {place : Place} {start count : Nat} (inside : start + count ≤ size place) :
    (touch place start count).Ensures size fun _ => True :=
  ⟨(inBounds_touch size place start count).mpr inside, trivial⟩

theorem ensures_write {width : Nat} {place : Place} (block : Block width) {start : Nat} {bytes : List UInt8}
    (inside : start + bytes.length ≤ size place) :
    (write place block start bytes).Ensures size (· = block.store start bytes) :=
  ⟨(inBounds_write size place block start bytes).mpr inside, rfl⟩

end Ensures

/-- A text ends inside its array exactly when the array has a zero character. -/
theorem cstring_terminated {size : Nat} (block : Block size) :
    (cstring block).length < size / 2 ↔ ∃ index < size / 2, block.wide index = 0 := by
  have total := Block.wides_length block 0 (size / 2)
  have before := List.takeWhile_prefix (l := block.wides 0 (size / 2)) (· != 0)
  have whole : ¬ (cstring block).length < size / 2 ↔ cstring block = block.wides 0 (size / 2) := by
    constructor
    · intro long
      exact before.eq_of_length_le (by rw [total]; exact Nat.not_lt.mp long)
    · intro same
      rw [same, total]
      exact Nat.lt_irrefl _
  rw [← not_iff_not, whole, cstring, List.takeWhile_eq_self_iff]
  simp only [Block.wides, List.mem_map, List.mem_range, forall_exists_index, and_imp,
    forall_apply_eq_imp_iff₂, bne_iff_ne, Nat.zero_add, not_exists, not_and]

/-- A zero character ends a text. -/
theorem takeWhile_zero (front back : List UInt16) :
    (front ++ 0 :: back).takeWhile (· != 0) = front.takeWhile (· != 0) := by
  induction front with
  | nil => rfl
  | cons c front ih => simp only [List.cons_append, List.takeWhile_cons, ih]

theorem takeWhile_append_of_zero {front : List UInt16} (back : List UInt16) (zero : 0 ∈ front) :
    (front ++ back).takeWhile (· != 0) = front.takeWhile (· != 0) := by
  obtain ⟨first, rest, rfl⟩ := List.append_of_mem zero
  rw [List.append_assoc, List.cons_append, takeWhile_zero, takeWhile_zero]

/-- A text read where the first characters of the array are known. -/
theorem cstring_front {size : Nat} (block : Block size) (front : List UInt16) (limit : Nat)
    (inside : limit ≤ size / 2) (same : block.wides 0 limit = front) :
    cstring block = (front ++ block.wides limit (size / 2 - limit)).takeWhile (· != 0) := by
  have split := Block.wides_add block 0 limit (size / 2 - limit)
  rw [same, Nat.zero_add, Nat.add_sub_cancel' inside] at split
  rw [cstring, split]

/-- Behind `text`, what an array shows up to a zero character at `limit`. -/
theorem cstring_cut {size : Nat} (block : Block size) (text : List UInt16) (limit : Nat)
    (inside : limit < size / 2) (short : text.length ≤ limit)
    (same : block.wides 0 text.length = text) (nonzero : ∀ c ∈ text, c ≠ 0)
    (terminated : block.wide limit = 0) :
    cstring block = text ++ (block.wides text.length (limit - text.length)).takeWhile (· != 0) := by
  have last : block.wides limit 1 = [0] := by
    simp only [Block.wides, List.range_one, List.map_cons, List.map_nil, Nat.add_zero, terminated]
  obtain ⟨rest, split⟩ : ∃ rest, size / 2 = text.length + ((limit - text.length) + (1 + rest)) :=
    ⟨size / 2 - limit - 1, by omega⟩
  have whole : block.wides 0 (size / 2) =
      text ++ (block.wides text.length (limit - text.length) ++ 0 :: block.wides (limit + 1) rest) := by
    rw [split, Block.wides_add, Block.wides_add, Block.wides_add, same, Nat.zero_add,
      show text.length + (limit - text.length) = limit by omega, last, List.singleton_append]
  rw [cstring, whole, List.takeWhile_append_of_pos (fun c member => by simpa using nonzero c member),
    takeWhile_zero]

end Traced

end Base
