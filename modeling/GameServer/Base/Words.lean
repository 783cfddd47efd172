import GameServer.Base.Block

set_option autoImplicit false

/- Little-endian words of two and four bytes inside a block. -/
namespace Base

def bytes16 (word : UInt16) : List UInt8 :=
  [UInt8.ofNat word.toNat, UInt8.ofNat (word.toNat / 256)]

def word16 (low high : UInt8) : UInt16 := UInt16.ofNat (low.toNat + 256 * high.toNat)

def bytes32 (word : UInt32) : List UInt8 :=
  [UInt8.ofNat word.toNat, UInt8.ofNat (word.toNat / 256), UInt8.ofNat (word.toNat / 65536),
    UInt8.ofNat (word.toNat / 16777216)]

def word32 (b0 b1 b2 b3 : UInt8) : UInt32 :=
  UInt32.ofNat (b0.toNat + 256 * b1.toNat + 65536 * b2.toNat + 16777216 * b3.toNat)

theorem word16_bytes16 (word : UInt16) :
    word16 (UInt8.ofNat word.toNat) (UInt8.ofNat (word.toNat / 256)) = word := by
  have bound := word.toNat_lt
  apply UInt16.toNat.inj
  simp only [word16, UInt8.toNat_ofNat', UInt16.toNat_ofNat']
  omega

theorem word32_bytes32 (word : UInt32) :
    word32 (UInt8.ofNat word.toNat) (UInt8.ofNat (word.toNat / 256))
      (UInt8.ofNat (word.toNat / 65536)) (UInt8.ofNat (word.toNat / 16777216)) = word := by
  have bound := word.toNat_lt
  apply UInt32.toNat.inj
  simp only [word32, UInt8.toNat_ofNat', UInt32.toNat_ofNat']
  omega

@[simp] theorem bytes16_length (word : UInt16) : (bytes16 word).length = 2 := rfl

@[simp] theorem bytes32_length (word : UInt32) : (bytes32 word).length = 4 := rfl

/-- The bytes behind a run of two-byte words. -/
def wideBytes : List UInt16 → List UInt8
  | [] => []
  | word :: words => UInt8.ofNat word.toNat :: UInt8.ofNat (word.toNat / 256) :: wideBytes words

@[simp] theorem wideBytes_length (words : List UInt16) : (wideBytes words).length = 2 * words.length := by
  induction words with
  | nil => rfl
  | cons word words ih =>
      simp only [wideBytes, List.length_cons, ih]
      omega

theorem wideBytes_drop (words : List UInt16) (count : Nat) :
    (wideBytes words).drop (2 * count) = wideBytes (words.drop count) := by
  induction words generalizing count with
  | nil => rw [List.drop_nil, wideBytes, List.drop_nil]
  | cons word words ih =>
      cases count with
      | zero => rfl
      | succ count => exact ih count

theorem wideBytes_low (words : List UInt16) (index : Nat) (inside : index < words.length) :
    (wideBytes words)[2 * index]? = some (UInt8.ofNat words[index].toNat) := by
  induction words generalizing index with
  | nil => cases inside
  | cons word words ih =>
      cases index with
      | zero => rfl
      | succ index =>
          simp only [wideBytes, Nat.mul_succ, List.getElem?_cons_succ, List.getElem_cons_succ]
          exact ih index (by simpa using inside)

theorem wideBytes_high (words : List UInt16) (index : Nat) (inside : index < words.length) :
    (wideBytes words)[2 * index + 1]? = some (UInt8.ofNat (words[index].toNat / 256)) := by
  induction words generalizing index with
  | nil => cases inside
  | cons word words ih =>
      cases index with
      | zero => rfl
      | succ index =>
          simp only [wideBytes, Nat.mul_succ, Nat.add_right_comm _ 2 1, List.getElem?_cons_succ,
            List.getElem_cons_succ]
          exact ih index (by simpa using inside)

namespace Block

variable {size : Nat}

/-- The two-byte word with number `index`. -/
def wide (block : Block size) (index : Nat) : UInt16 :=
  word16 (block.load (2 * index)) (block.load (2 * index + 1))

def wides (block : Block size) (start count : Nat) : List UInt16 :=
  (List.range count).map fun offset => block.wide (start + offset)

/-- The four-byte word at byte `start`. -/
def word (block : Block size) (start : Nat) : UInt32 :=
  word32 (block.load start) (block.load (start + 1)) (block.load (start + 2)) (block.load (start + 3))

@[simp] theorem wides_length (block : Block size) (start count : Nat) :
    (block.wides start count).length = count := by
  simp only [wides, List.length_map, List.length_range]

@[simp] theorem wides_getElem (block : Block size) (start count offset : Nat)
    (inside : offset < (block.wides start count).length) :
    (block.wides start count)[offset] = block.wide (start + offset) := by
  simp only [wides, List.getElem_map, List.getElem_range]

theorem wides_add (block : Block size) (start first second : Nat) :
    block.wides start (first + second) = block.wides start first ++ block.wides (start + first) second := by
  simp only [wides, List.range_add, List.map_append, List.map_map, Function.comp_def, Nat.add_assoc]

theorem wide_store_inside (block : Block size) (start : Nat) (words : List UInt16) (offset : Nat)
    (inside : offset < words.length) (fits : 2 * (start + offset) + 2 ≤ size) :
    (block.store (2 * start) (wideBytes words)).wide (start + offset) = words[offset] := by
  have low := wideBytes_low words offset inside
  have high := wideBytes_high words offset inside
  obtain ⟨lowInside, lowByte⟩ := List.getElem?_eq_some_iff.mp low
  obtain ⟨highInside, highByte⟩ := List.getElem?_eq_some_iff.mp high
  rw [← word16_bytes16 words[offset], ← lowByte, ← highByte,
    ← load_store_inside block (2 * start) (wideBytes words) (2 * offset) lowInside (by omega),
    ← load_store_inside block (2 * start) (wideBytes words) (2 * offset + 1) highInside (by omega)]
  simp only [wide, Nat.mul_add, Nat.add_assoc]

theorem wide_store_outside (block : Block size) (start : Nat) (bytes : List UInt8) (index : Nat)
    (outside : 2 * index + 2 ≤ start ∨ start + bytes.length ≤ 2 * index) :
    (block.store start bytes).wide index = block.wide index := by
  simp only [wide]
  rw [load_store_outside _ _ _ _ (by omega), load_store_outside _ _ _ _ (by omega)]

/-- Words are read off the bytes of the slice they lie in. -/
theorem word_of_slice (block : Block size) (start : Nat) (value : UInt32)
    (same : block.slice start 4 = bytes32 value) : block.word start = value := by
  have loads : [block.load start, block.load (start + 1), block.load (start + 2),
      block.load (start + 3)] = bytes32 value := same
  simp only [bytes32, List.cons.injEq, and_true] at loads
  rw [word, loads.1, loads.2.1, loads.2.2.1, loads.2.2.2]
  exact word32_bytes32 value

theorem word_store_frame (block : Block size) (start : Nat) (bytes : List UInt8) (other : Nat)
    (apart : other + 4 ≤ start ∨ start + bytes.length ≤ other) :
    (block.store start bytes).word other = block.word other := by
  simp only [word]
  rw [load_store_outside _ _ _ _ (by omega), load_store_outside _ _ _ _ (by omega),
    load_store_outside _ _ _ _ (by omega), load_store_outside _ _ _ _ (by omega)]

theorem slice_wides (block : Block size) (start count : Nat) (words : List UInt16)
    (length : words.length = count) (same : block.wides start count = words) :
    block.slice (2 * start) (2 * count) = wideBytes words := by
  subst same
  apply List.ext_getElem
  · rw [slice_length, wideBytes_length, wides_length]
  · intro index inside _
    rw [slice_length] at inside
    have whole : index / 2 < (block.wides start count).length := by rw [wides_length]; omega
    rw [slice_getElem]
    rcases Nat.mod_two_eq_zero_or_one index with even | odd
    · have low := wideBytes_low (block.wides start count) (index / 2) whole
      rw [show 2 * (index / 2) = index by omega] at low
      obtain ⟨_, lowByte⟩ := List.getElem?_eq_some_iff.mp low
      have bound := (block.load (2 * start + index)).toNat_lt
      rw [lowByte, wides_getElem, wide, show 2 * (start + index / 2) = 2 * start + index by omega]
      apply UInt8.toNat.inj
      simp only [word16, UInt8.toNat_ofNat', UInt16.toNat_ofNat']
      omega
    · have high := wideBytes_high (block.wides start count) (index / 2) whole
      rw [show 2 * (index / 2) + 1 = index by omega] at high
      obtain ⟨_, highByte⟩ := List.getElem?_eq_some_iff.mp high
      have lowBound := (block.load (2 * (start + index / 2))).toNat_lt
      have bound := (block.load (2 * start + index)).toNat_lt
      rw [highByte, wides_getElem, wide,
        show 2 * (start + index / 2) + 1 = 2 * start + index by omega]
      apply UInt8.toNat.inj
      simp only [word16, UInt8.toNat_ofNat', UInt16.toNat_ofNat']
      omega

end Block

end Base
