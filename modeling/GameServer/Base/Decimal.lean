import Mathlib.Data.List.TakeWhile
import Mathlib.Tactic.Ring

set_option autoImplicit false

/- Decimal numbers in two-byte characters: printing, and reading the longest run
of digits at the head of a text. -/
namespace Base.Decimal

def wchar (c : Char) : UInt16 := UInt16.ofNat c.toNat

def digits (n : Nat) : List UInt16 := (Nat.toDigits 10 n).map wchar

def isDigit (c : UInt16) : Bool := 48 ≤ c.toNat && c.toNat ≤ 57

def value (text : List UInt16) : Nat :=
  text.foldl (fun sofar c => 10 * sofar + (c.toNat - 48)) 0

/-- The digits a number at the head of `text` is made of. -/
def run (text : List UInt16) : List UInt16 := text.takeWhile isDigit

theorem wchar_toNat {c : Char} (digit : c.isDigit = true) : (wchar c).toNat = c.toNat := by
  have upper : c.toNat ≤ 57 := by
    simp only [Char.isDigit, Bool.and_eq_true, decide_eq_true_eq] at digit
    exact digit.2
  simp only [wchar, UInt16.toNat_ofNat']
  omega

theorem isDigit_wchar {c : Char} (digit : c.isDigit = true) : isDigit (wchar c) = true := by
  have bounds : 48 ≤ c.toNat ∧ c.toNat ≤ 57 := by
    simp only [Char.isDigit, Bool.and_eq_true, decide_eq_true_eq] at digit
    exact digit
  simp only [isDigit, wchar_toNat digit, Bool.and_eq_true, decide_eq_true_eq]
  exact bounds

theorem isDigit_of_mem_digits {n : Nat} {c : UInt16} (member : c ∈ digits n) : isDigit c = true := by
  obtain ⟨char, inside, rfl⟩ := List.mem_map.mp member
  exact isDigit_wchar (Nat.isDigit_of_mem_toDigits (by decide) (by decide) inside)

theorem digits_ne_nil (n : Nat) : digits n ≠ [] := by
  simp only [digits, ne_eq, List.map_eq_nil_iff]
  exact Nat.toDigits_ne_nil

theorem digits_length_pos (n : Nat) : 0 < (digits n).length :=
  List.length_pos_iff.mpr (digits_ne_nil n)

theorem digits_length_le (n : UInt32) : (digits n.toNat).length ≤ 10 := by
  rw [digits, List.length_map, Nat.length_toDigits_le_iff (by decide) (by decide)]
  exact Nat.lt_trans n.toNat_lt (by decide)

theorem foldl_value (start : Nat) (text : List UInt16) :
    text.foldl (fun sofar c => 10 * sofar + (c.toNat - 48)) start = start * 10 ^ text.length + value text := by
  induction text generalizing start with
  | nil => simp [value]
  | cons c text ih =>
      simp only [value, List.foldl_cons, List.length_cons]
      rw [ih, ih (10 * 0 + (c.toNat - 48))]
      ring

theorem value_append (front back : List UInt16) :
    value (front ++ back) = value front * 10 ^ back.length + value back := by
  rw [value, List.foldl_append, foldl_value]
  rfl

theorem value_digits (n : Nat) : value (digits n) = n := by
  have folds (chars : List Char) (digit : ∀ c ∈ chars, c.isDigit = true) (start : Nat) :
      (chars.map wchar).foldl (fun sofar c => 10 * sofar + (c.toNat - 48)) start =
        Nat.ofDigitChars 10 chars start := by
    induction chars generalizing start with
    | nil => rfl
    | cons c chars ih =>
        rw [List.map_cons, List.foldl_cons, wchar_toNat (digit c List.mem_cons_self),
          ih (fun d member => digit d (List.mem_cons_of_mem _ member)), Nat.ofDigitChars_cons]
        rfl
  rw [value, digits, folds _ (fun c inside => Nat.isDigit_of_mem_toDigits (by decide) (by decide) inside)]
  exact Nat.ofDigitChars_ten_toDigits

theorem value_eq_zero {text : List UInt16} (all : ∀ c ∈ text, isDigit c = true) :
    value text = 0 ↔ ∀ c ∈ text, c = 48 := by
  induction text with
  | nil => simp [value]
  | cons c text ih =>
      have split : value (c :: text) = (c.toNat - 48) * 10 ^ text.length + value text := by
        rw [← List.singleton_append, value_append]
        simp [value]
      have digit := all c List.mem_cons_self
      simp only [isDigit, Bool.and_eq_true, decide_eq_true_eq] at digit
      have zero : c.toNat - 48 = 0 ↔ c = 48 := by
        rw [← UInt16.toNat_inj]
        change _ ↔ c.toNat = 48
        omega
      rw [split, Nat.add_eq_zero_iff, Nat.mul_eq_zero, List.forall_mem_cons,
        ih (fun d member => all d (List.mem_cons_of_mem _ member)), zero]
      simp

/-- Digits in front of a text are all part of the number read there. -/
theorem run_digits_append (n : Nat) (rest : List UInt16) :
    run (digits n ++ rest) = digits n ++ run rest :=
  List.takeWhile_append_of_pos fun _ member => isDigit_of_mem_digits member

/-- A number keeps its value in front of more digits only when there are none, or when
everything is zero. -/
theorem value_append_eq_iff (front : List UInt16) {more : List UInt16} (all : ∀ c ∈ more, isDigit c = true) :
    value (front ++ more) = value front ↔ more = [] ∨ (value front = 0 ∧ ∀ c ∈ more, c = 48) := by
  rw [value_append]
  constructor
  · intro same
    by_cases none : more = []
    · exact Or.inl none
    · have long : 1 ≤ more.length := List.length_pos_iff.mpr none
      have grows : 10 ^ 1 ≤ 10 ^ more.length := Nat.pow_le_pow_right (by decide) long
      have scaled : value front * 10 ≤ value front * 10 ^ more.length := Nat.mul_le_mul_left _ grows
      have zero : value front = 0 := by omega
      refine Or.inr ⟨zero, (value_eq_zero all).mp ?_⟩
      simpa only [zero, Nat.zero_mul, Nat.zero_add] using same
  · intro kept
    rcases kept with none | ⟨zero, zeros⟩
    · rw [none]
      exact (Nat.add_zero _).trans (Nat.mul_one _)
    · rw [(value_eq_zero all).mpr zeros, zero, Nat.zero_mul]

theorem value_le_append (front more : List UInt16) : value front ≤ value (front ++ more) := by
  rw [value_append]
  have scaled : value front * 1 ≤ value front * 10 ^ more.length := Nat.mul_le_mul_left _ (Nat.pow_pos (by decide))
  omega

/-- The number some digits stand for, if it has 32 bits. -/
def numeral (text : List UInt16) : Option UInt32 :=
  if text ≠ [] ∧ value text < 2 ^ 32 then some (UInt32.ofNat (value text)) else none

theorem numeral_of_large {text : List UInt16} (large : 2 ^ 32 ≤ value text) : numeral text = none :=
  if_neg fun small => absurd small.2 (Nat.not_lt.mpr large)

theorem numeral_of_small {text : List UInt16} (some_digit : text ≠ []) (small : value text < 2 ^ 32) :
    numeral text = some (UInt32.ofNat (value text)) :=
  if_pos ⟨some_digit, small⟩

/-- More digits change what is read unless the number is too large already. -/
theorem numeral_append_iff {front more : List UInt16} (some_digit : front ≠ [])
    (all : ∀ c ∈ more, isDigit c = true) :
    numeral (front ++ more) = numeral front ↔
      2 ^ 32 ≤ value front ∨ more = [] ∨ (value front = 0 ∧ ∀ c ∈ more, c = 48) := by
  have grows := value_le_append front more
  by_cases large : 2 ^ 32 ≤ value front
  · rw [numeral_of_large large, numeral_of_large (Nat.le_trans large grows)]
    exact iff_of_true rfl (Or.inl large)
  · have small : value front < 2 ^ 32 := Nat.not_le.mp large
    rw [numeral_of_small some_digit small, ← value_append_eq_iff front all, or_iff_right large]
    by_cases fits : value (front ++ more) < 2 ^ 32
    · rw [numeral_of_small (List.append_ne_nil_of_left_ne_nil some_digit _) fits, Option.some.injEq,
        ← UInt32.toNat_inj, UInt32.toNat_ofNat', UInt32.toNat_ofNat', Nat.mod_eq_of_lt fits, Nat.mod_eq_of_lt small]
    · rw [numeral_of_large (Nat.not_lt.mp fits)]
      apply iff_of_false
      · intro impossible
        cases impossible
      · omega

theorem head_digits_append (n : Nat) (rest : List UInt16) :
    (digits n ++ rest).head?.any isDigit = true := by
  obtain ⟨c, more, split⟩ := List.exists_cons_of_ne_nil (digits_ne_nil n)
  have first := isDigit_of_mem_digits (n := n) (c := c) (by rw [split]; exact List.mem_cons_self)
  rw [split]
  exact first

theorem isDigit_of_mem_run {text : List UInt16} {c : UInt16} (member : c ∈ run text) :
    isDigit c = true :=
  List.mem_takeWhile_imp (p := isDigit) member

end Base.Decimal
