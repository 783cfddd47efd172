import GameServer.Base.Decimal

set_option autoImplicit false

/- Objects read as a sequence of decimal numbers from a stream of two-byte characters, and
when characters appended to the stream change what is read. -/
namespace Base

open Decimal

namespace NumberStream

/-- std::isspace in the "C" locale. -/
def isSpace (c : UInt16) : Bool := (9 ≤ c && c ≤ 13) || c == 32

def unspaced (text : List UInt16) : List UInt16 := text.dropWhile isSpace

/-- `>>` for an unsigned number, which skips blanks and takes the longest run of digits;
the number comes with the characters left in the stream. -/
def readNumber (text : List UInt16) : Option (UInt32 × List UInt16) :=
  (numeral (run (unspaced text))).map fun n => (n, (unspaced text).dropWhile isDigit)

/-- The stream goes on behind the digits it starts with. -/
def Closed (text : List UInt16) : Prop := (unspaced text).dropWhile isDigit ≠ []

instance (text : List UInt16) : Decidable (Closed text) := inferInstanceAs (Decidable (_ ≠ _))

/-- What remains to be read of an object: nothing, as it has been refused, the number it
is all about, or a number that decides how to go on. -/
inductive Reader where
  | fail
  | last
  | more (next : UInt32 → Reader)

namespace Reader

/-- The object's number, or none where the stream fails or the object is refused. -/
def read : Reader → List UInt16 → Option UInt32
  | .fail, _ => none
  | .last, text => (readNumber text).map Prod.fst
  | .more next, text =>
      match readNumber text with
      | none => none
      | some (n, rest) => (next n).read rest

/-- What remains behind the given numbers. -/
def after : Reader → List UInt32 → Reader
  | r, [] => r
  | .more next, n :: numbers => (next n).after numbers
  | _, _ :: _ => .fail

end Reader

/-- The last number of an object ends inside `text`, or is not begun there nor in `tail`,
or `tail` has no digit that changes it. -/
def Untouched (text tail : List UInt16) : Prop :=
  Closed text ∨
    if unspaced text = [] then readNumber tail = none
    else 2 ^ 32 ≤ value (unspaced text) ∨ run tail = [] ∨ (value (unspaced text) = 0 ∧ ∀ c ∈ run tail, c = 48)

section Numbers

variable {text tail : List UInt16}

theorem unspaced_append (visible : unspaced text ≠ []) : unspaced (text ++ tail) = unspaced text ++ tail := by
  rw [unspaced, List.dropWhile_append, if_neg]
  · rfl
  · rw [List.isEmpty_iff]
    exact visible

theorem unspaced_append_blank (blank : unspaced text = []) : unspaced (text ++ tail) = unspaced tail := by
  rw [unspaced, List.dropWhile_append, if_pos]
  · rfl
  · rw [List.isEmpty_iff]
    exact blank

/-- Digits up to the end of the stream. -/
theorem run_of_not_closed (unfinished : ¬ Closed text) : run (unspaced text) = unspaced text := by
  have whole := List.takeWhile_append_dropWhile (p := isDigit) (l := unspaced text)
  rw [Decidable.not_not.mp unfinished, List.append_nil] at whole
  exact whole

theorem isDigit_of_not_closed (unfinished : ¬ Closed text) : ∀ c ∈ unspaced text, isDigit c = true := by
  intro c member
  rw [← run_of_not_closed unfinished] at member
  exact isDigit_of_mem_run member

/-- What stands behind a finished number does not matter to it. -/
theorem readNumber_append (closed : Closed text) :
    readNumber (text ++ tail) = (readNumber text).map fun found => (found.1, found.2 ++ tail) := by
  have visible : unspaced text ≠ [] := by
    intro blank
    rw [Closed, blank] at closed
    exact closed rfl
  have behind : (unspaced text ++ tail).dropWhile isDigit = (unspaced text).dropWhile isDigit ++ tail := by
    rw [List.dropWhile_append, if_neg]
    rw [List.isEmpty_iff]
    exact closed
  have digits : run (unspaced text ++ tail) = run (unspaced text) := by
    have split := List.takeWhile_append_dropWhile (p := isDigit) (l := unspaced text)
    have shorter := congrArg List.length split
    have rest := List.length_pos_iff.mpr closed
    rw [List.length_append] at shorter
    rw [run, List.takeWhile_append, if_neg]
    · rfl
    · omega
  rw [readNumber, unspaced_append visible, digits, behind, readNumber, Option.map_map]
  rfl

/-- A number at the end of the stream leaves nothing behind. -/
theorem rest_of_not_closed (unfinished : ¬ Closed text) {n : UInt32} {rest : List UInt16}
    (found : readNumber text = some (n, rest)) : rest = [] := by
  rw [readNumber, Option.map_eq_some_iff] at found
  obtain ⟨_, _, same⟩ := found
  rw [Decidable.not_not.mp unfinished] at same
  exact (Prod.mk.inj same).2.symm

theorem readNumber_space : readNumber (32 :: text) = readNumber text := by
  have skipped : unspaced (32 :: text) = unspaced text := rfl
  rw [readNumber, readNumber, skipped]

theorem not_isSpace_of_isDigit {c : UInt16} (digit : isDigit c = true) : isSpace c = false := by
  simp only [isDigit, Bool.and_eq_true, decide_eq_true_eq] at digit
  simp only [isSpace, Bool.or_eq_false_iff, Bool.and_eq_false_iff, decide_eq_false_iff_not, beq_eq_false_iff_ne,
    UInt16.le_iff_toNat_le, ne_eq, ← UInt16.toNat_inj]
  change (¬ 9 ≤ c.toNat ∨ ¬ c.toNat ≤ 13) ∧ ¬ c.toNat = 32
  omega

/-- There is nothing to skip in front of a digit. -/
theorem unspaced_of_digit (digit : text.head?.any isDigit = true) : unspaced text = text := by
  cases text with
  | nil => rfl
  | cons c rest =>
      have visible := not_isSpace_of_isDigit (c := c) digit
      rw [unspaced, List.dropWhile_cons_of_neg (by rw [visible]; exact Bool.false_ne_true)]

theorem read_last_of_digit (digit : text.head?.any isDigit = true) : Reader.last.read text = numeral (run text) := by
  rw [Reader.read, readNumber, unspaced_of_digit digit, Option.map_map]
  exact congrFun Option.map_id _

/-- A printed number with a blank behind it. -/
theorem readNumber_digits (n : UInt32) : readNumber (Decimal.digits n.toNat ++ 32 :: text) = some (n, 32 :: text) := by
  have visible := unspaced_of_digit (head_digits_append n.toNat (32 :: text))
  have digits : run (Decimal.digits n.toNat ++ 32 :: text) = Decimal.digits n.toNat := by
    rw [run_digits_append]
    exact List.append_nil _
  have behind : (Decimal.digits n.toNat ++ 32 :: text).dropWhile isDigit = 32 :: text :=
    List.dropWhile_append_of_pos fun _ member => isDigit_of_mem_digits member
  have value := value_digits n.toNat
  rw [readNumber, visible, digits, behind, numeral_of_small (digits_ne_nil _) (by rw [value]; exact n.toNat_lt), value,
    UInt32.ofNat_toNat]
  rfl

theorem readNumber_append_blank (blank : unspaced text = []) : readNumber (text ++ tail) = readNumber tail := by
  rw [readNumber, unspaced_append_blank blank, readNumber]

/-- A number at the end of `text` takes the digits of `tail` in. -/
theorem readNumber_append_open (unfinished : ¬ Closed text) (begun : unspaced text ≠ []) :
    readNumber (text ++ tail) =
      (numeral (unspaced text ++ run tail)).map fun n => (n, tail.dropWhile isDigit) := by
  have digits := isDigit_of_not_closed unfinished
  have front : run (unspaced text ++ tail) = unspaced text ++ run tail := List.takeWhile_append_of_pos digits
  have behind : (unspaced text ++ tail).dropWhile isDigit = tail.dropWhile isDigit :=
    List.dropWhile_append_of_pos digits
  rw [readNumber, unspaced_append begun, front, behind]

theorem read_last_iff : Reader.last.read (text ++ tail) = Reader.last.read text ↔ Untouched text tail := by
  unfold Untouched
  by_cases closed : Closed text
  · apply iff_of_true _ (Or.inl closed)
    rw [Reader.read, readNumber_append closed, Reader.read, Option.map_map]
    rfl
  · rw [or_iff_right closed, Reader.read, Reader.read]
    by_cases blank : unspaced text = []
    · have nothing : readNumber text = none := by
        rw [readNumber, blank]
        rfl
      rw [if_pos blank, nothing, readNumber_append_blank blank, Option.map_none, Option.map_eq_none_iff]
    · have all : ∀ c ∈ run tail, isDigit c = true := fun _ => isDigit_of_mem_run
      have alone : (readNumber text).map Prod.fst = numeral (unspaced text) := by
        rw [readNumber, run_of_not_closed closed, Option.map_map]
        exact congrFun Option.map_id _
      have longer : (readNumber (text ++ tail)).map Prod.fst = numeral (unspaced text ++ run tail) := by
        rw [readNumber_append_open closed blank, Option.map_map]
        exact congrFun Option.map_id _
      rw [if_neg blank, alone, longer, numeral_append_iff blank all]

end Numbers

namespace Reader

@[simp] theorem read_nil (r : Reader) : r.read [] = none := by
  cases r <;> rfl

theorem read_more {next : UInt32 → Reader} {text rest : List UInt16} {n : UInt32}
    (found : readNumber text = some (n, rest)) : (Reader.more next).read text = (next n).read rest := by
  rw [read, found]

theorem read_space (r : Reader) (text : List UInt16) : r.read (32 :: text) = r.read text := by
  cases r with
  | fail => rfl
  | last => rw [read, readNumber_space, read]
  | more next => rw [read, readNumber_space, read]

/-- Where `text` breaks off before the object's number, `tail` does not supply the rest:
neither all of it, nor what comes behind the number whose digits go on in `tail`. -/
def Cut (next : UInt32 → Reader) (text tail : List UInt16) : Prop :=
  if unspaced text = [] then (Reader.more next).read tail = none
  else ∀ n ∈ numeral (unspaced text ++ run tail), (next n).read (tail.dropWhile isDigit) = none

/-- What is read from `text` stays the same with `tail` behind it: number by number as
long as they end inside `text`. -/
def Settled : Reader → List UInt16 → List UInt16 → Prop
  | .fail, _, _ => True
  | .last, text, tail => Untouched text tail
  | .more next, text, tail =>
      if Closed text then ∀ found ∈ readNumber text, (next found.1).Settled found.2 tail else Cut next text tail

/-- An object that breaks off is not read. -/
theorem read_more_of_not_closed (next : UInt32 → Reader) {text : List UInt16} (unfinished : ¬ Closed text) :
    (Reader.more next).read text = none := by
  cases found : readNumber text with
  | none => rw [read, found]
  | some result =>
      rw [read_more found, rest_of_not_closed unfinished found, read_nil]

theorem read_more_eq_none_iff (next : UInt32 → Reader) (text : List UInt16) :
    (Reader.more next).read text = none ↔ ∀ found ∈ readNumber text, (next found.1).read found.2 = none := by
  cases found : readNumber text with
  | none => simp [read, found]
  | some result =>
      rw [read_more found]
      simp

theorem cut_iff (next : UInt32 → Reader) {text tail : List UInt16} (unfinished : ¬ Closed text) :
    (Reader.more next).read (text ++ tail) = none ↔ Cut next text tail := by
  unfold Cut
  by_cases blank : unspaced text = []
  · rw [if_pos blank, read_more_eq_none_iff, readNumber_append_blank blank, ← read_more_eq_none_iff]
  · rw [if_neg blank, read_more_eq_none_iff, readNumber_append_open unfinished blank]
    simp

theorem read_append_iff (r : Reader) (text tail : List UInt16) :
    r.read (text ++ tail) = r.read text ↔ r.Settled text tail := by
  induction r generalizing text with
  | fail => exact iff_of_true rfl trivial
  | last => exact read_last_iff
  | more next ih =>
      rw [Settled]
      by_cases closed : Closed text
      · rw [if_pos closed, read, read, readNumber_append closed]
        cases found : readNumber text with
        | none => simp
        | some result =>
            have behind := ih result.1 result.2
            simp only [Option.map_some, Option.mem_def, Option.some.injEq, forall_eq']
            exact behind
      · rw [if_neg closed, read_more_of_not_closed next closed, cut_iff next closed]

end Reader

end NumberStream

end Base
