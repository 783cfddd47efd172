import Mathlib.Data.Nat.NthRoot.Defs
import Mathlib.Data.Nat.Prime.Basic
import GameServer.Base.BitString
import GameServer.Base.IteratedHash

set_option autoImplicit false

/- SHA-256 of a bit string as the standard defines it: constants from the roots of primes,
sums of rotations, the message schedule as a recurrence, and padding by the length. -/
namespace Base.Sha2

/-- The primes below 312. -/
def primes : List Nat :=
  (List.range 312).filter fun p => 2 ≤ p && (List.range 18).all fun d => d < 2 || p ≤ d || p % d != 0

/-- The first 32 bits of the fraction of a root of `p`. -/
def rootFraction (degree p : Nat) : UInt32 := UInt32.ofNat (Nat.nthRoot degree (p * 2 ^ (32 * degree)))

def constants : List UInt32 := primes.map (rootFraction 3)

structure Words where
  a : UInt32
  b : UInt32
  c : UInt32
  d : UInt32
  e : UInt32
  f : UInt32
  g : UInt32
  h : UInt32
  deriving DecidableEq

namespace Words

def add (x y : Words) : Words :=
  ⟨x.a + y.a, x.b + y.b, x.c + y.c, x.d + y.d, x.e + y.e, x.f + y.f, x.g + y.g, x.h + y.h⟩

def toList (x : Words) : List UInt32 := [x.a, x.b, x.c, x.d, x.e, x.f, x.g, x.h]

def ofList (words : List UInt32) : Words :=
  ⟨words.getD 0 0, words.getD 1 0, words.getD 2 0, words.getD 3 0, words.getD 4 0, words.getD 5 0,
    words.getD 6 0, words.getD 7 0⟩

end Words

def initial : Words := .ofList (primes.map (rootFraction 2))

def rotr (count : Nat) (x : UInt32) : UInt32 := ⟨x.toBitVec.rotateRight count⟩

def ch (x y z : UInt32) : UInt32 := (x &&& y) ^^^ (~~~x &&& z)

def maj (x y z : UInt32) : UInt32 := (x &&& y) ^^^ (x &&& z) ^^^ (y &&& z)

def upperSigma0 (x : UInt32) : UInt32 := rotr 2 x ^^^ rotr 13 x ^^^ rotr 22 x

def upperSigma1 (x : UInt32) : UInt32 := rotr 6 x ^^^ rotr 11 x ^^^ rotr 25 x

def lowerSigma0 (x : UInt32) : UInt32 := rotr 7 x ^^^ rotr 18 x ^^^ (x >>> 3)

def lowerSigma1 (x : UInt32) : UInt32 := rotr 17 x ^^^ rotr 19 x ^^^ (x >>> 10)

/-- Word `t` of a block of bytes. -/
def word (block : List UInt8) (t : Nat) : UInt32 :=
  UInt32.ofNat (bitsValue (bytesBits ((block.drop (4 * t)).take 4)))

def schedule (block : List UInt8) (t : Nat) : UInt32 :=
  if t < 16 then word block t
  else lowerSigma1 (schedule block (t - 2)) + schedule block (t - 7) + lowerSigma0 (schedule block (t - 15)) +
    schedule block (t - 16)

def step (k w : UInt32) (x : Words) : Words :=
  let first := x.h + upperSigma1 x.e + ch x.e x.f x.g + k + w
  let second := upperSigma0 x.a + maj x.a x.b x.c
  ⟨first + second, x.a, x.b, x.c, x.d + first, x.e, x.f, x.g⟩

def rounds (block : List UInt8) (x : Words) : (count : Nat) → Words
  | 0 => x
  | count + 1 => step (constants.getD count 0) (schedule block count) (rounds block x count)

def compress (chain : Words) (block : List UInt8) : Words := chain.add (rounds block chain 64)

/-- A one behind the message, zeros, and the length in 64 bits, to a multiple of 512 bits. -/
def padded (message : List Bool) : List Bool :=
  message ++ [true] ++ List.replicate ((959 - message.length % 512) % 512) false ++ bigEndianBits 64 message.length

def paddedBytes (message : List Bool) : List UInt8 := packBits ((padded message).length / 8) (padded message)

/-- The four bytes of a word. -/
def wordBytes (word : UInt32) : List UInt8 := packBits 4 (bigEndianBits 32 word.toNat)

def digest (message : List Bool) : List UInt8 :=
  (Absorbed.absorb compress 64 ⟨initial, []⟩ (paddedBytes message)).chain.toList.flatMap wordBytes

theorem mem_primes (p : Nat) : p ∈ primes ↔ p < 312 ∧ p.Prime := by
  simp only [primes, List.mem_filter, List.mem_range, Bool.and_eq_true, decide_eq_true_eq, List.all_eq_true,
    Bool.or_eq_true, bne_iff_ne, and_congr_right_iff]
  intro below
  rw [Nat.prime_def_le_sqrt]
  apply and_congr_right
  intro large
  constructor
  · intro none d two small divides
    have square := Nat.le_sqrt.mp small
    have bound : d < 18 := by
      by_contra big
      have := Nat.mul_le_mul (Nat.not_lt.mp big) (Nat.not_lt.mp big)
      omega
    have less : d < p := by
      have := Nat.mul_le_mul_right d two
      omega
    have zero := Nat.mod_eq_zero_of_dvd divides
    have cases := none d bound
    omega
  · intro none d _
    by_cases zero : p % d = 0
    · have prime : p.Prime := Nat.prime_def_le_sqrt.mpr ⟨large, none⟩
      rcases (Nat.dvd_prime prime).mp (Nat.dvd_of_mod_eq_zero zero) with one | same
      · omega
      · omega
    · exact Or.inr zero

theorem padded_length (message : List Bool) : (padded message).length % 512 = 0 := by
  simp only [padded, List.length_append, List.length_singleton, List.length_replicate, bigEndianBits_length]
  omega

/-- Padded messages differ at their ends: the length tells what to take off. -/
theorem padded_suffix {message other : List Bool} (short : message.length < 2 ^ 64) (short' : other.length < 2 ^ 64)
    (part : padded message <:+ padded other) : message = other := by
  have lengths : bigEndianBits 64 message.length = bigEndianBits 64 other.length := by
    have last : bigEndianBits 64 message.length <:+ padded other := (List.suffix_append _ _).trans part
    have last' : bigEndianBits 64 other.length <:+ padded other := List.suffix_append _ _
    rcases List.suffix_or_suffix_of_suffix last last' with inside | inside
    · exact inside.eq_of_length (by rw [bigEndianBits_length, bigEndianBits_length])
    · exact (inside.eq_of_length (by rw [bigEndianBits_length, bigEndianBits_length])).symm
  have equal : message.length = other.length := by
    have values := congrArg bitsValue lengths
    rwa [bitsValue_bigEndianBits, bitsValue_bigEndianBits, Nat.mod_eq_of_lt short, Nat.mod_eq_of_lt short'] at values
  have whole : padded message = padded other := by
    apply part.eq_of_length
    simp only [padded, List.length_append, List.length_singleton, List.length_replicate, bigEndianBits_length, equal]
  simp only [padded, List.append_assoc] at whole
  exact List.append_inj_left whole equal

theorem bytesBits_paddedBytes (message : List Bool) : bytesBits (paddedBytes message) = padded message := by
  have aligned := padded_length message
  exact bytesBits_packBits _ _ (by omega)

/-- The bytes of a padded message are known by their bits. -/
theorem paddedBytes_eq (message : List Bool) (bytes : List UInt8) (same : bytesBits bytes = padded message) :
    paddedBytes message = bytes := by
  have length := congrArg List.length same
  rw [bytesBits_length] at length
  rw [paddedBytes, ← length, ← same, Nat.mul_div_cancel_left _ (by decide)]
  exact packBits_bytesBits bytes

theorem bytesBits_wordBytes (word : UInt32) : bytesBits (wordBytes word) = bigEndianBits 32 word.toNat :=
  bytesBits_packBits 4 _ (bigEndianBits_length 32 _)

theorem wordBytes_length (word : UInt32) : (wordBytes word).length = 4 := rfl

theorem wordBytes_injective : Function.Injective wordBytes := by
  intro word other same
  have bits := congrArg (fun bytes => bitsValue (bytesBits bytes)) same
  simp only [bytesBits_wordBytes, bitsValue_bigEndianBits, Nat.mod_eq_of_lt word.toNat_lt,
    Nat.mod_eq_of_lt other.toNat_lt] at bits
  exact UInt32.toNat.inj bits

theorem toList_injective : Function.Injective Words.toList := by
  intro x y same
  cases x
  cases y
  simpa only [Words.toList, List.cons.injEq, and_true, Words.mk.injEq] using same

theorem digest_length (message : List Bool) : (digest message).length = 32 := rfl

/-- Two messages that the length field can tell have one digest only through a collision of
the compression function, met while both are hashed. -/
theorem collide_of_digest {message other : List Bool} (short : message.length < 2 ^ 64) (short' : other.length < 2 ^ 64)
    (different : message ≠ other) (same : digest message = digest other) :
    Absorbed.Collide compress 64 initial (paddedBytes message) (paddedBytes other) := by
  have aligned (m : List Bool) : 64 ∣ (paddedBytes m).length := by
    have bits := congrArg List.length (bytesBits_paddedBytes m)
    have whole := padded_length m
    rw [bytesBits_length] at bits
    omega
  have notEnd {m n : List Bool} (lengthM : m.length < 2 ^ 64) (lengthN : n.length < 2 ^ 64) (apart : m ≠ n) :
      ¬ paddedBytes m <:+ paddedBytes n := by
    intro part
    have bits := bytesBits_suffix part
    rw [bytesBits_paddedBytes, bytesBits_paddedBytes] at bits
    exact apart (padded_suffix lengthM lengthN bits)
  apply Absorbed.collide_of_absorb initial _ _ (by decide) (aligned message) (aligned other)
  · exact toList_injective (flatMap_inj wordBytes_length wordBytes_injective rfl same)
  · exact notEnd short short' different
  · exact notEnd short' short different.symm

end Base.Sha2
