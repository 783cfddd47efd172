import Mathlib.Algebra.Group.Nat.Defs
import Mathlib.Data.List.Infix

set_option autoImplicit false

/- Bit strings with the highest bit first: the bits of numbers and of bytes. -/
namespace Base

/-- The lowest `width` bits of a number. -/
def bigEndianBits : (width n : Nat) → List Bool
  | 0, _ => []
  | width + 1, n => bigEndianBits width (n / 2) ++ [n % 2 == 1]

/-- The number a bit string stands for. -/
def bitsValue (bits : List Bool) : Nat := bits.foldl (fun n bit => 2 * n + bit.toNat) 0

@[simp] theorem bigEndianBits_length (width n : Nat) : (bigEndianBits width n).length = width := by
  induction width generalizing n with
  | zero => rfl
  | succ width ih => rw [bigEndianBits, List.length_append, ih, List.length_singleton]

theorem bitsValue_concat (bits : List Bool) (bit : Bool) :
    bitsValue (bits ++ [bit]) = 2 * bitsValue bits + bit.toNat := by
  rw [bitsValue, List.foldl_append]
  rfl

theorem bitsValue_append (high low : List Bool) :
    bitsValue (high ++ low) = 2 ^ low.length * bitsValue high + bitsValue low := by
  induction low using List.reverseRecOn with
  | nil => rw [List.append_nil, List.length_nil, Nat.pow_zero, Nat.one_mul]; rfl
  | append_singleton low bit ih =>
      rw [← List.append_assoc, bitsValue_concat, bitsValue_concat, ih, List.length_append, List.length_singleton,
        Nat.pow_succ', Nat.mul_add, Nat.mul_assoc, Nat.add_assoc]

theorem toNat_odd (n : Nat) : (n % 2 == 1).toNat = n % 2 := by
  rcases Nat.mod_two_eq_zero_or_one n with even | odd
  · rw [even]
    rfl
  · rw [odd]
    rfl

theorem bitsValue_bigEndianBits (width n : Nat) : bitsValue (bigEndianBits width n) = n % 2 ^ width := by
  induction width generalizing n with
  | zero => rw [Nat.pow_zero, Nat.mod_one]; rfl
  | succ width ih =>
      rw [bigEndianBits, bitsValue_concat, ih, toNat_odd, Nat.pow_succ', Nat.mod_mul]
      omega

theorem bigEndianBits_bitsValue (bits : List Bool) : bigEndianBits bits.length (bitsValue bits) = bits := by
  induction bits using List.reverseRecOn with
  | nil => rfl
  | append_singleton bits bit ih =>
      have bound := bit.toNat_lt
      have upper : (2 * bitsValue bits + bit.toNat) / 2 = bitsValue bits := by omega
      have lowest : ((2 * bitsValue bits + bit.toNat) % 2 == 1) = bit := by
        rw [Nat.mul_add_mod]
        cases bit <;> decide
      rw [bitsValue_concat, List.length_append, List.length_singleton, bigEndianBits, upper, lowest, ih]

theorem bigEndianBits_add (high low n : Nat) :
    bigEndianBits (high + low) n = bigEndianBits high (n / 2 ^ low) ++ bigEndianBits low n := by
  induction low generalizing n with
  | zero => rw [Nat.pow_zero, Nat.div_one]; exact (List.append_nil _).symm
  | succ low ih =>
      rw [← Nat.add_assoc, bigEndianBits, bigEndianBits, ih, Nat.div_div_eq_div_mul, ← Nat.pow_succ',
        List.append_assoc]

theorem bigEndianBits_mod (width n : Nat) : bigEndianBits width (n % 2 ^ width) = bigEndianBits width n := by
  have again := bigEndianBits_bitsValue (bigEndianBits width n)
  rwa [bigEndianBits_length, bitsValue_bigEndianBits] at again

/-- Two fields of a number, one above the other. -/
theorem bigEndianBits_fields (high low upper lower : Nat) (small : lower < 2 ^ low) :
    bigEndianBits (high + low) (2 ^ low * upper + lower) = bigEndianBits high upper ++ bigEndianBits low lower := by
  have above : (2 ^ low * upper + lower) / 2 ^ low = upper := by
    rw [Nat.mul_add_div (Nat.two_pow_pos low), Nat.div_eq_of_lt small, Nat.add_zero]
  rw [bigEndianBits_add, above, ← bigEndianBits_mod low, Nat.mul_add_mod, Nat.mod_eq_of_lt small]

theorem bigEndianBits_two_pow (low : Nat) : bigEndianBits (low + 1) (2 ^ low) = [true] ++ List.replicate low false := by
  induction low with
  | zero => rfl
  | succ low ih =>
      have half : 2 ^ (low + 1) / 2 = 2 ^ low := by rw [Nat.pow_succ, Nat.mul_div_cancel _ (by decide)]
      have even : (2 ^ (low + 1) % 2 == 1) = false := by rw [Nat.pow_succ, Nat.mul_mod_left]; rfl
      rw [bigEndianBits, half, even, ih, List.append_assoc, ← List.replicate_succ']

def byteBits (byte : UInt8) : List Bool := bigEndianBits 8 byte.toNat

def bytesBits (bytes : List UInt8) : List Bool := bytes.flatMap byteBits

/-- The first `count` bytes of a bit string. -/
def packBits : (count : Nat) → List Bool → List UInt8
  | 0, _ => []
  | count + 1, bits => UInt8.ofNat (bitsValue (bits.take 8)) :: packBits count (bits.drop 8)

@[simp] theorem byteBits_length (byte : UInt8) : (byteBits byte).length = 8 := bigEndianBits_length 8 _

theorem ofNat_byteBits (byte : UInt8) : UInt8.ofNat (bitsValue (byteBits byte)) = byte := by
  have bound := byte.toNat_lt
  rw [byteBits, bitsValue_bigEndianBits, Nat.mod_eq_of_lt bound, UInt8.ofNat_toNat]

theorem byteBits_ofNat (n : Nat) : byteBits (UInt8.ofNat n) = bigEndianBits 8 n := by
  rw [byteBits, UInt8.toNat_ofNat']
  exact bigEndianBits_mod 8 n

theorem bytesBits_append (first second : List UInt8) : bytesBits (first ++ second) = bytesBits first ++ bytesBits second :=
  List.flatMap_append

@[simp] theorem bytesBits_length (bytes : List UInt8) : (bytesBits bytes).length = 8 * bytes.length := by
  induction bytes with
  | nil => rfl
  | cons byte bytes ih =>
      rw [bytesBits, List.flatMap_cons, List.length_append, ← bytesBits, ih, byteBits_length, List.length_cons]
      omega

theorem packBits_bytesBits (bytes : List UInt8) : packBits bytes.length (bytesBits bytes) = bytes := by
  induction bytes with
  | nil => rfl
  | cons byte bytes ih =>
      rw [bytesBits, List.flatMap_cons, ← bytesBits, List.length_cons, packBits,
        List.take_left' (byteBits_length byte), List.drop_left' (byteBits_length byte), ih, ofNat_byteBits]

theorem bytesBits_packBits (count : Nat) (bits : List Bool) (length : bits.length = 8 * count) :
    bytesBits (packBits count bits) = bits := by
  induction count generalizing bits with
  | zero =>
      rw [Nat.mul_zero, List.length_eq_zero_iff] at length
      rw [length]
      rfl
  | succ count ih =>
      have first : (bits.take 8).length = 8 := by rw [List.length_take]; omega
      have whole := bigEndianBits_bitsValue (bits.take 8)
      rw [first] at whole
      rw [packBits, bytesBits, List.flatMap_cons, ← bytesBits, ih _ (by rw [List.length_drop]; omega), byteBits_ofNat,
        whole, List.take_append_drop]

theorem bitsValue_bytesBits_concat (bytes : List UInt8) (byte : UInt8) :
    bitsValue (bytesBits (bytes ++ [byte])) = 256 * bitsValue (bytesBits bytes) + byte.toNat := by
  have last : bytesBits [byte] = byteBits byte := List.append_nil _
  rw [bytesBits_append, bitsValue_append, last, byteBits_length, byteBits, bitsValue_bigEndianBits,
    Nat.mod_eq_of_lt byte.toNat_lt]
  rfl

theorem bytesBits_suffix {front back : List UInt8} (part : front <:+ back) : bytesBits front <:+ bytesBits back := by
  obtain ⟨before, rfl⟩ := part
  rw [bytesBits_append]
  exact List.suffix_append _ _

/-- Pieces of one length can be told apart in what they are joined to. -/
theorem flatMap_inj {α β : Type} {f : α → List β} {size : Nat} (length : ∀ x, (f x).length = size)
    (injective : Function.Injective f) {first second : List α} (count : first.length = second.length)
    (same : first.flatMap f = second.flatMap f) : first = second := by
  induction first generalizing second with
  | nil => exact (List.length_eq_zero_iff.mp count.symm).symm
  | cons x first ih =>
      cases second with
      | nil => cases count
      | cons y second =>
          rw [List.flatMap_cons, List.flatMap_cons] at same
          have pieces := List.append_inj same ((length x).trans (length y).symm)
          rw [injective pieces.1, ih (Nat.succ.inj count) pieces.2]

theorem bytesBits_replicate_zero (count : Nat) :
    bytesBits (List.replicate count 0) = List.replicate (8 * count) false := by
  induction count with
  | zero => rfl
  | succ count ih =>
      have zero : byteBits 0 = List.replicate 8 false := rfl
      rw [List.replicate_succ, bytesBits, List.flatMap_cons, ← bytesBits, ih, zero, List.replicate_append_replicate]
      congr 1
      omega

end Base
