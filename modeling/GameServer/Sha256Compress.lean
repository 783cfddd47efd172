import Mathlib.Data.List.GetD
import GameServer.Sha256

set_option autoImplicit false

/- What `process_message_block` computes is the compression function of the standard: its
unrolled rounds, its tables and the forms it has of the bitwise functions. -/
namespace GameServer.Sha256

open Base
open Base.Sha2 (Words)

theorem rotr_eq (bits word : UInt32) (positive : 0 < bits.toNat) (below : bits.toNat < 32) :
    rotr bits word = Sha2.rotr bits.toNat word := by
  apply UInt32.toBitVec_inj.mp
  have left : (32 - bits).toNat = 32 - bits.toNat := by
    rw [UInt32.toNat_sub_of_le _ _ (UInt32.le_iff_toNat_le.mpr (Nat.le_of_lt below))]
    rfl
  rw [rotr, Sha2.rotr, UInt32.toBitVec_or, UInt32.toBitVec_shiftRight, UInt32.toBitVec_shiftLeft,
    BitVec.rotateRight_def,
    Nat.mod_eq_of_lt below]
  have down : (bits.toBitVec % 32).toNat = bits.toNat := Nat.mod_eq_of_lt below
  have up : ((32 - bits).toBitVec % 32).toNat = 32 - bits.toNat := by
    change (32 - bits).toNat % 32 = _
    rw [left]
    exact Nat.mod_eq_of_lt (by omega)
  rw [BitVec.ushiftRight_eq', BitVec.shiftLeft_eq', down, up]

theorem sigma_eq (word : UInt32) :
    upperSigma0 word = Sha2.upperSigma0 word ∧ upperSigma1 word = Sha2.upperSigma1 word ∧
      lowerSigma0 word = Sha2.lowerSigma0 word ∧ lowerSigma1 word = Sha2.lowerSigma1 word := by
  simp only [upperSigma0, upperSigma1, lowerSigma0, lowerSigma1, Sha2.upperSigma0, Sha2.upperSigma1, Sha2.lowerSigma0,
    Sha2.lowerSigma1, shr]
  refine ⟨?_, ?_, ?_, ?_⟩
  · rw [rotr_eq 2 word (by decide) (by decide), rotr_eq 13 word (by decide) (by decide),
      rotr_eq 22 word (by decide) (by decide)]
    rfl
  · rw [rotr_eq 6 word (by decide) (by decide), rotr_eq 11 word (by decide) (by decide),
      rotr_eq 25 word (by decide) (by decide)]
    rfl
  · rw [rotr_eq 7 word (by decide) (by decide), rotr_eq 18 word (by decide) (by decide)]
    rfl
  · rw [rotr_eq 17 word (by decide) (by decide), rotr_eq 19 word (by decide) (by decide)]
    rfl

/-- Bit by bit, the shorter forms choose and vote like the ones of the standard. -/
theorem ch_eq (x y z : UInt32) : ch x y z = Sha2.ch x y z := by
  apply UInt32.toBitVec_inj.mp
  apply BitVec.eq_of_getLsbD_eq
  intro i inside
  simp only [ch, Sha2.ch, UInt32.toBitVec_xor, UInt32.toBitVec_and, UInt32.toBitVec_not, BitVec.getLsbD_xor,
    BitVec.getLsbD_and, BitVec.getLsbD_not, inside, decide_true, Bool.true_and]
  cases x.toBitVec.getLsbD i <;> cases y.toBitVec.getLsbD i <;> cases z.toBitVec.getLsbD i <;> rfl

theorem maj_eq (x y z : UInt32) : maj x y z = Sha2.maj x y z := by
  apply UInt32.toBitVec_inj.mp
  apply BitVec.eq_of_getLsbD_eq
  intro i inside
  simp only [maj, Sha2.maj, UInt32.toBitVec_xor, UInt32.toBitVec_and, UInt32.toBitVec_or, BitVec.getLsbD_xor,
    BitVec.getLsbD_and, BitVec.getLsbD_or]
  cases x.toBitVec.getLsbD i <;> cases y.toBitVec.getLsbD i <;> cases z.toBitVec.getLsbD i <;> rfl

theorem round_eq (k w : UInt32) (r : Words) : round k w r = Sha2.step k w r := by
  simp only [round, Sha2.step, (sigma_eq _).1, (sigma_eq _).2.1, ch_eq, maj_eq]

/-- The tables of the source hold the fractions of the roots. -/
theorem k_eq : k = Sha2.constants := by decide +kernel

theorem initialHash_eq : initialHash = Sha2.initial := by decide +kernel

theorem toNat_shift (byte : UInt8) (shift : UInt32) (below : shift.toNat ≤ 24) :
    (byte.toUInt32 <<< shift).toNat = 2 ^ shift.toNat * byte.toNat := by
  rw [UInt32.toNat_shiftLeft, Nat.mod_eq_of_lt (show shift.toNat < 32 by omega), UInt8.toNat_toUInt32, Nat.shiftLeft_eq,
    Nat.mul_comm]
  apply Nat.mod_eq_of_lt
  calc 2 ^ shift.toNat * byte.toNat
      < 2 ^ shift.toNat * 2 ^ 8 := Nat.mul_lt_mul_of_pos_left byte.toNat_lt (Nat.two_pow_pos _)
    _ = 2 ^ (shift.toNat + 8) := (Nat.pow_add 2 _ 8).symm
    _ ≤ 2 ^ 32 := Nat.pow_le_pow_right (by decide) (by omega)

/-- Shifted bytes next to each other do not overlap. -/
theorem toNat_or_shift (high : UInt32) (byte : UInt8) (shift : UInt32) (upper : Nat) (below : shift.toNat ≤ 24)
    (value : high.toNat = 2 ^ (shift.toNat + 8) * upper) :
    (high ||| (byte.toUInt32 <<< shift)).toNat = 2 ^ shift.toNat * (256 * upper + byte.toNat) := by
  have small : 2 ^ shift.toNat * byte.toNat < 2 ^ (shift.toNat + 8) := by
    rw [Nat.pow_add]
    exact Nat.mul_lt_mul_of_pos_left byte.toNat_lt (Nat.two_pow_pos _)
  rw [UInt32.toNat_or, toNat_shift byte shift below, value, ← Nat.two_pow_add_eq_or_of_lt small, Nat.pow_add,
    Nat.mul_add,
    Nat.mul_assoc]

theorem slice_slice (block : Block blockSize) (start count : Nat) (inside : start + count ≤ blockSize) :
    ((block.slice 0 blockSize).drop start).take count = block.slice start count := by
  apply List.ext_getElem
  · rw [List.length_take, List.length_drop, Block.slice_length, Block.slice_length]
    omega
  · intro i _ _
    simp only [List.getElem_take, List.getElem_drop, Block.slice_getElem, Nat.zero_add]

theorem blockWord_eq (block : Block blockSize) (t : Nat) (inside : t < 16) :
    blockWord block t = Sha2.word (block.slice 0 blockSize) t := by
  have bytes := slice_slice block (4 * t) 4 (by unfold blockSize; omega)
  have four : block.slice (4 * t) 4 =
      ([] ++ [block.load (4 * t)] ++ [block.load (4 * t + 1)] ++ [block.load (4 * t + 2)]) ++
        [block.load (4 * t + 3)] := rfl
  have first := toNat_shift (block.load (4 * t)) 24 (by decide)
  have second := toNat_or_shift _ (block.load (4 * t + 1)) 16 _ (by decide) first
  have third := toNat_or_shift _ (block.load (4 * t + 2)) 8 _ (by decide) second
  have fourth := toNat_or_shift _ (block.load (4 * t + 3)) 0 _ (by decide) third
  have unshifted : (block.load (4 * t + 3)).toUInt32 <<< (0 : UInt32) = (block.load (4 * t + 3)).toUInt32 :=
    UInt32.shiftLeft_zero
  rw [unshifted] at fourth
  have value : bitsValue (bytesBits (block.slice (4 * t) 4)) = (blockWord block t).toNat := by
    rw [four, bitsValue_bytesBits_concat, bitsValue_bytesBits_concat, bitsValue_bytesBits_concat,
      bitsValue_bytesBits_concat, blockWord, fourth]
    have none : bitsValue (bytesBits []) = 0 := rfl
    have unit : 2 ^ UInt32.toNat 0 = 1 := rfl
    rw [none, unit, Nat.mul_zero, Nat.zero_add, Nat.one_mul]
  rw [Sha2.word, bytes, value, UInt32.ofNat_toNat]

section Schedule

variable (block : Block blockSize)

theorem extend_map (count : Nat) (enough : 16 ≤ count) :
    extend ((List.range count).map (Sha2.schedule (block.slice 0 blockSize))) =
      (List.range (count + 1)).map (Sha2.schedule (block.slice 0 blockSize)) := by
  have earlier (t : Nat) (before : t < count) :
      ((List.range count).map (Sha2.schedule (block.slice 0 blockSize))).getD t 0 =
        Sha2.schedule (block.slice 0 blockSize) t := by
    rw [List.getD_eq_getElem _ _ (by rw [List.length_map, List.length_range]; exact before), List.getElem_map,
      List.getElem_range]
  have next : Sha2.schedule (block.slice 0 blockSize) count =
      lowerSigma1 (Sha2.schedule (block.slice 0 blockSize) (count - 2)) +
        Sha2.schedule (block.slice 0 blockSize) (count - 7) +
        lowerSigma0 (Sha2.schedule (block.slice 0 blockSize) (count - 15)) +
        Sha2.schedule (block.slice 0 blockSize) (count - 16) := by
    rw [Sha2.schedule, if_neg (by omega), (sigma_eq _).2.2.1, (sigma_eq _).2.2.2]
  simp only [extend, List.length_map, List.length_range]
  rw [earlier _ (by omega), earlier _ (by omega), earlier _ (by omega), earlier _ (by omega), ← next, List.range_succ,
    List.map_append, List.map_singleton]

/-- The array `W` holds the message schedule. -/
theorem w_eq : w block = (List.range 64).map (Sha2.schedule (block.slice 0 blockSize)) := by
  have first : (List.range 16).map (blockWord block) = (List.range 16).map (Sha2.schedule (block.slice 0 blockSize)) := by
    apply List.map_congr_left
    intro t member
    have inside := List.mem_range.mp member
    rw [blockWord_eq block t inside, Sha2.schedule, if_pos inside]
  have extended (count : Nat) : Nat.repeat extend count ((List.range 16).map (Sha2.schedule (block.slice 0 blockSize))) =
      (List.range (16 + count)).map (Sha2.schedule (block.slice 0 blockSize)) := by
    induction count with
    | zero => rfl
    | succ count ih => rw [Nat.repeat, ih, extend_map block _ (by omega), Nat.add_assoc]
  rw [w, first, extended]

end Schedule

theorem rounds_eq (bytes : List UInt8) (x : Words) (count : Nat) :
    (List.range count).foldl (fun r t => Sha2.step (Sha2.constants.getD t 0) (Sha2.schedule bytes t) r) x =
      Sha2.rounds bytes x count := by
  induction count with
  | zero => rfl
  | succ count ih => rw [List.range_succ, List.foldl_append, ih, Sha2.rounds, List.foldl_cons, List.foldl_nil]

theorem compress_eq (hash : Words) (block : Block blockSize) :
    compress hash block = Sha2.compress hash (block.slice 0 blockSize) := by
  have zipped : List.zip k (w block) =
      (List.range 64).map fun t => (Sha2.constants.getD t 0, Sha2.schedule (block.slice 0 blockSize) t) := by
    have length : Sha2.constants.length = 64 := by rw [← k_eq]; rfl
    rw [w_eq, k_eq]
    apply List.ext_getElem
    · simp only [List.length_zip, List.length_map, List.length_range, length, Nat.min_self]
    · intro t inside _
      rw [List.length_zip, length] at inside
      rw [List.getElem_zip, List.getElem_map, List.getElem_map, List.getElem_range,
        List.getD_eq_getElem _ _ (by omega)]
  rw [compress, Sha2.compress, zipped, List.foldl_map, ← rounds_eq]
  simp only [round_eq]

end GameServer.Sha256
