import Mathlib.Algebra.Group.Nat.Defs
import Mathlib.Data.List.Basic

set_option autoImplicit false

/- Byte strings cut into groups of six bits, four groups to three bytes, and put
together again; the masks and shifts that do it, as arithmetic. -/
namespace Base

/-- The field of `width` bits from bit `low` on, moved down. -/
theorem toNat_field_down (c mask shift : UInt8) (low width : Nat) (by_low : shift.toNat % 8 = low)
    (field : mask.toNat >>> low = 2 ^ width - 1) :
    ((c &&& mask) >>> shift).toNat = c.toNat / 2 ^ low % 2 ^ width := by
  rw [UInt8.toNat_shiftRight, UInt8.toNat_and, by_low, Nat.shiftRight_and_distrib, field,
    Nat.and_two_pow_sub_one_eq_mod, Nat.shiftRight_eq_div_pow]

/-- The lowest `width` bits, moved up. -/
theorem toNat_field_up (c mask shift : UInt8) (high width : Nat) (by_high : shift.toNat % 8 = high)
    (field : mask.toNat = 2 ^ width - 1) (fits : width + high ≤ 8) :
    ((c &&& mask) <<< shift).toNat = 2 ^ high * (c.toNat % 2 ^ width) := by
  have small : c.toNat % 2 ^ width < 2 ^ width := Nat.mod_lt _ (Nat.two_pow_pos width)
  rw [UInt8.toNat_shiftLeft, UInt8.toNat_and, by_high, field, Nat.and_two_pow_sub_one_eq_mod,
    Nat.shiftLeft_eq, Nat.mul_comm]
  apply Nat.mod_eq_of_lt
  calc 2 ^ high * (c.toNat % 2 ^ width)
      < 2 ^ high * 2 ^ width := Nat.mul_lt_mul_of_pos_left small (Nat.two_pow_pos high)
    _ = 2 ^ (width + high) := by rw [← Nat.pow_add, Nat.add_comm]
    _ ≤ 2 ^ 8 := Nat.pow_le_pow_right (by decide) fits

/-- Two fields next to each other. -/
theorem toNat_fields (a b : UInt8) (split high low : Nat) (upper : a.toNat = 2 ^ split * high)
    (lower : b.toNat = low) (small : low < 2 ^ split) : (a ||| b).toNat = 2 ^ split * high + low := by
  rw [UInt8.toNat_or, upper, lower, Nat.two_pow_add_eq_or_of_lt small]

/-- The six-bit groups of a byte string, the last one filled up with zero bits. -/
def sextets : List UInt8 → List (Fin 64)
  | [] => []
  | [a] => [Fin.ofNat 64 (a.toNat / 4), Fin.ofNat 64 (a.toNat * 16)]
  | [a, b] =>
      [Fin.ofNat 64 (a.toNat / 4), Fin.ofNat 64 (a.toNat * 16 + b.toNat / 16),
        Fin.ofNat 64 (b.toNat * 4)]
  | a :: b :: c :: rest =>
      Fin.ofNat 64 (a.toNat / 4) :: Fin.ofNat 64 (a.toNat * 16 + b.toNat / 16) ::
        Fin.ofNat 64 (b.toNat * 4 + c.toNat / 64) :: Fin.ofNat 64 c.toNat :: sextets rest

def firstByte (u v : Fin 64) : UInt8 := UInt8.ofNat (u.val * 4 + v.val / 16)

def secondByte (v w : Fin 64) : UInt8 := UInt8.ofNat (v.val * 16 + w.val / 4)

def thirdByte (w x : Fin 64) : UInt8 := UInt8.ofNat (w.val * 64 + x.val)

/-- The bytes that groups of six bits fill; the bits left over at the end are dropped. -/
def assemble : List (Fin 64) → List UInt8
  | [] => []
  | [_] => []
  | [u, v] => [firstByte u v]
  | [u, v, w] => [firstByte u v, secondByte v w]
  | u :: v :: w :: x :: rest => firstByte u v :: secondByte v w :: thirdByte w x :: assemble rest

theorem firstByte_sextets (a : UInt8) (low : Nat) (small : low < 16) :
    firstByte (Fin.ofNat 64 (a.toNat / 4)) (Fin.ofNat 64 (a.toNat * 16 + low)) = a := by
  have bound := a.toNat_lt
  apply UInt8.toNat.inj
  simp only [firstByte, UInt8.toNat_ofNat', Fin.val_ofNat]
  omega

theorem secondByte_sextets (a b : UInt8) (low : Nat) (small : low < 4) :
    secondByte (Fin.ofNat 64 (a.toNat * 16 + b.toNat / 16)) (Fin.ofNat 64 (b.toNat * 4 + low)) = b := by
  have bound := b.toNat_lt
  apply UInt8.toNat.inj
  simp only [secondByte, UInt8.toNat_ofNat', Fin.val_ofNat]
  omega

theorem thirdByte_sextets (b c : UInt8) :
    thirdByte (Fin.ofNat 64 (b.toNat * 4 + c.toNat / 64)) (Fin.ofNat 64 c.toNat) = c := by
  have bound := c.toNat_lt
  apply UInt8.toNat.inj
  simp only [thirdByte, UInt8.toNat_ofNat', Fin.val_ofNat]
  omega

/-- Nothing is lost by cutting. -/
theorem assemble_sextets (bytes : List UInt8) : assemble (sextets bytes) = bytes := by
  induction bytes using sextets.induct with
  | case1 => rfl
  | case2 a =>
      have first := firstByte_sextets a 0 (by omega)
      rw [Nat.add_zero] at first
      rw [sextets, assemble, first]
  | case3 a b =>
      have bound := b.toNat_lt
      have second := secondByte_sextets a b 0 (by omega)
      rw [Nat.add_zero] at second
      rw [sextets, assemble, firstByte_sextets a _ (by omega), second]
  | case4 a b c rest ih =>
      have boundB := b.toNat_lt
      have boundC := c.toNat_lt
      rw [sextets, assemble, firstByte_sextets a _ (by omega), secondByte_sextets a b _ (by omega),
        thirdByte_sextets, ih]

theorem sextets_injective : Function.Injective sextets :=
  Function.LeftInverse.injective assemble_sextets

theorem sextets_length (bytes : List UInt8) : (sextets bytes).length = (8 * bytes.length + 5) / 6 := by
  induction bytes using sextets.induct with
  | case1 => simp only [sextets, List.length_nil]
  | case2 a => simp only [sextets, List.length_cons, List.length_nil]
  | case3 a b => simp only [sextets, List.length_cons, List.length_nil]
  | case4 a b c rest ih =>
      simp only [sextets, List.length_cons, ih]
      omega

theorem assemble_length (groups : List (Fin 64)) : (assemble groups).length = 3 * groups.length / 4 := by
  induction groups using assemble.induct with
  | case1 => simp only [assemble, List.length_nil]
  | case2 u => simp only [assemble, List.length_cons, List.length_nil]
  | case3 u v => simp only [assemble, List.length_cons, List.length_nil]
  | case4 u v w => simp only [assemble, List.length_cons, List.length_nil]
  | case5 u v w x rest ih =>
      simp only [assemble, List.length_cons, ih]
      omega

/-- Every group is needed: bytes come back only from all of their groups. -/
theorem assemble_sublist_iff (bytes : List UInt8) (groups : List (Fin 64))
    (part : groups.Sublist (sextets bytes)) : assemble groups = bytes ↔ groups = sextets bytes := by
  constructor
  · intro same
    have filled := assemble_length groups
    have cut := sextets_length bytes
    have fewer := part.length_le
    rw [same] at filled
    apply part.eq_of_length
    omega
  · intro all
    rw [all, assemble_sextets]

end Base
