import GameServer.Base.SqlText
import Mathlib.Data.List.Forall2
import Mathlib.Logic.Function.Basic

set_option autoImplicit false

/- The part of SQL that an UPDATE of literals and a SELECT of columns need, both with
one comparison in their where clause. Only the first statement of a text is compiled.
Texts with anything more in them (comments, other operators, a NUL) are not this part.
Columns keep values as they are given: a text in a text column, a number in a number
column. -/
namespace Base.Sql

inductive Value where
  | null
  | int (n : Int)
  | text (value : Text)
  | real (bits : UInt64)
  | blob (bytes : List UInt8)
  deriving DecidableEq, Repr

inductive Token where
  | word (w : Text)
  | number (n : Int)
  | text (value : Text)
  | symbol (c : Char)
  | broken
  deriving DecidableEq, Repr

section Lexer

structure Lexer where
  tokens : List Token
  word : Text
  deriving DecidableEq

def isWord (c : Char) : Bool := c.isAlphanum || c = '_'

def wordToken (w : Text) : Token :=
  if w.all Char.isDigit then .number (Nat.ofDigitChars 10 w 0) else .word w

/-- The tokens with the word that has been read, if there is one. -/
def Lexer.flush (l : Lexer) : List Token :=
  if l.word = [] then l.tokens else l.tokens ++ [wordToken l.word]

def Lexer.next (l : Lexer) : Item → Lexer
  | .char c =>
      if isWord c then ⟨l.tokens, l.word ++ [c]⟩
      else if c.isWhitespace then ⟨l.flush, []⟩
      else ⟨l.flush ++ [.symbol c], []⟩
  | .literal value => ⟨l.flush ++ [.text value], []⟩
  | .unterminated _ => ⟨l.flush ++ [.broken], []⟩

/-- A minus sign in front of a number. -/
def signs : List Token → List Token
  | .symbol '-' :: .number n :: rest => .number (-n) :: signs rest
  | token :: rest => token :: signs rest
  | [] => []

def tokens (items : List Item) : List Token := signs (items.foldl Lexer.next ⟨[], []⟩).flush

end Lexer

section Parser

/-- Keywords and names do not depend on the case they are written in. -/
def lower (w : Text) : Text := w.map Char.toLower

inductive Statement where
  | update (table : Text) (set : List (Text × Value)) (key : Text × Value)
  | select (columns : List Text) (table : Text) (key : Text × Value)
  deriving DecidableEq, Repr

def Token.value? : Token → Option Value
  | .text value => some (.text value)
  | .number n => some (.int n)
  | _ => none

def ended : List Token → Bool
  | [] => true
  | .symbol ';' :: _ => true
  | _ => false

/-- `where column = value` at the end of a statement. -/
def condition : List Token → Option (Text × Value)
  | .word w :: .word column :: .symbol '=' :: token :: rest =>
      if lower w = "where".toList && ended rest then token.value?.map fun value => (lower column, value) else none
  | _ => none

def assignments : List Token → Option (List (Text × Value) × List Token)
  | .word column :: .symbol '=' :: token :: rest =>
      match token.value?, rest with
      | none, _ => none
      | some value, .symbol ',' :: rest =>
          (assignments rest).map fun more => ((lower column, value) :: more.1, more.2)
      | some value, rest => some ([(lower column, value)], rest)
  | _ => none

def columns : List Token → Option (List Text × List Token)
  | .word column :: .symbol ',' :: rest => (columns rest).map fun more => (lower column :: more.1, more.2)
  | .word column :: rest => some ([lower column], rest)
  | _ => none

def updateClauses : List Token → Option Statement
  | .word table :: .word s :: rest =>
      if lower s = "set".toList then
        (assignments rest).bind fun set => (condition set.2).map fun key => .update (lower table) set.1 key
      else none
  | _ => none

def fromClause (names : List Text) : List Token → Option Statement
  | .word f :: .word table :: rest =>
      if lower f = "from".toList then (condition rest).map fun key => .select names (lower table) key else none
  | _ => none

def parse : List Token → Option Statement
  | .word w :: rest =>
      if lower w = "update".toList then updateClauses rest
      else if lower w = "select".toList then (columns rest).bind fun names => fromClause names.1 names.2
      else none
  | _ => none

def prepare (sql : Text) : Option Statement := parse (tokens (scan .code sql))

end Parser

section Execution

/-- A row gives the value of each column of its table. -/
abbrev Row := Text → Value

abbrev Database := Text → Option (List Row)

/-- The order in which a SELECT visits the rows it has found. -/
structure RowOrder where
  visit : List Row → List Row
  perm : ∀ rows, (visit rows).Perm rows

/-- Of several assignments to one column the last one counts. -/
def assigned (set : List (Text × Value)) (column : Text) : Option Value :=
  (set.reverse.find? fun a => a.1 = column).map Prod.snd

def Row.assign (row : Row) (set : List (Text × Value)) : Row :=
  fun column => (assigned set column).getD (row column)

def Row.meets (row : Row) (key : Text × Value) : Bool := row key.1 = key.2

def Row.update (row : Row) (set : List (Text × Value)) (key : Text × Value) : Row :=
  if row.meets key then row.assign set else row

/-- The new state of the database and the rows of the result. -/
def execute (order : RowOrder) (db : Database) : Statement → Option (Database × List (List Value))
  | .update table set key =>
      (db table).map fun rows => (Function.update db table (some (rows.map fun row => row.update set key)), [])
  | .select names table key =>
      (db table).map fun rows => (db, (order.visit (rows.filter fun row => row.meets key)).map fun row => names.map row)

end Execution

section LexerLemmas

/-- From between two words to between two words, the characters make these tokens. -/
def Lexes (items : List Item) (tokens : List Token) : Prop :=
  ∀ out, items.foldl Lexer.next ⟨out, []⟩ = ⟨out ++ tokens, []⟩

theorem flush_eq (out : List Token) (word : Text) :
    Lexer.flush ⟨out, word⟩ = out ++ Lexer.flush ⟨[], word⟩ := by
  unfold Lexer.flush
  by_cases empty : word = []
  · rw [if_pos empty, if_pos empty, List.append_nil]
  · rw [if_neg empty, if_neg empty, List.nil_append]

theorem next_eq (out : List Token) (word : Text) (item : Item) :
    Lexer.next ⟨out, word⟩ item =
      ⟨out ++ (Lexer.next ⟨[], word⟩ item).tokens, (Lexer.next ⟨[], word⟩ item).word⟩ := by
  cases item with
  | literal value =>
      simp only [Lexer.next]
      rw [flush_eq, List.append_assoc]
  | unterminated value =>
      simp only [Lexer.next]
      rw [flush_eq, List.append_assoc]
  | char c =>
      simp only [Lexer.next]
      split
      · rw [List.append_nil]
      · rw [flush_eq]
        split
        · rfl
        · rw [List.append_assoc]

theorem foldl_next (items : List Item) (out : List Token) (word : Text) :
    items.foldl Lexer.next ⟨out, word⟩ =
      ⟨out ++ (items.foldl Lexer.next ⟨[], word⟩).tokens, (items.foldl Lexer.next ⟨[], word⟩).word⟩ := by
  induction items generalizing out word with
  | nil =>
      rw [List.foldl_nil, List.foldl_nil, List.append_nil]
  | cons item items ih =>
      rw [List.foldl_cons, List.foldl_cons, next_eq, ih]
      have split := ih (Lexer.next ⟨[], word⟩ item).tokens (Lexer.next ⟨[], word⟩ item).word
      rw [split, List.append_assoc]

/-- Enough for characters that are all known. -/
theorem Lexes.of_eq {items : List Item} {tokens : List Token}
    (same : items.foldl Lexer.next ⟨[], []⟩ = ⟨tokens, []⟩) : Lexes items tokens := by
  intro out
  rw [foldl_next, same]

theorem Lexes.append {front back : List Item} {tokens more : List Token} (first : Lexes front tokens)
    (second : Lexes back more) : Lexes (front ++ back) (tokens ++ more) := by
  intro out
  rw [List.foldl_append, first, second, List.append_assoc]

theorem Lexes.literal {items : List Item} {tokens : List Token} (value : Text) (rest : Lexes items tokens) :
    Lexes (.literal value :: items) (.text value :: tokens) := by
  intro out
  rw [List.foldl_cons]
  change items.foldl Lexer.next ⟨out ++ [.text value], []⟩ = _
  rw [rest, List.append_assoc, List.singleton_append]

theorem Lexes.tokens {items : List Item} {made : List Token} (lexes : Lexes items made) :
    Sql.tokens items = signs made := by
  rw [Sql.tokens, lexes, List.nil_append]
  rfl

theorem foldl_word (w : Text) (word : ∀ c ∈ w, isWord c = true) (out : List Token) (sofar : Text) :
    (w.map Item.char).foldl Lexer.next ⟨out, sofar⟩ = ⟨out, sofar ++ w⟩ := by
  induction w generalizing sofar with
  | nil => rw [List.append_nil]; rfl
  | cons c w ih =>
      rw [List.forall_mem_cons] at word
      rw [List.map_cons, List.foldl_cons]
      simp only [Lexer.next, word.1, if_true]
      rw [ih word.2, List.append_assoc, List.singleton_append]

theorem isWord_of_isDigit {c : Char} (digit : c.isDigit = true) : isWord c = true := by
  simp [isWord, Char.isAlphanum, digit]

/-- The digits of a number in front of a symbol. -/
theorem Lexes.number {items : List Item} {tokens : List Token} (n : Nat) (c : Char) (symbol : isWord c = false)
    (visible : c.isWhitespace = false) (rest : Lexes items tokens) :
    Lexes ((Nat.toDigits 10 n).map Item.char ++ .char c :: items) (.number n :: .symbol c :: tokens) := by
  have digits : ∀ d ∈ Nat.toDigits 10 n, d.isDigit = true :=
    fun d member => Nat.isDigit_of_mem_toDigits (by decide) (by decide) member
  have token : wordToken (Nat.toDigits 10 n) = .number n := by
    rw [wordToken, if_pos (List.all_eq_true.mpr digits), Nat.ofDigitChars_toDigits (by decide) (by decide)]
  intro out
  rw [List.foldl_append, foldl_word _ (fun d member => isWord_of_isDigit (digits d member)), List.nil_append,
    List.foldl_cons]
  simp only [Lexer.next, symbol, visible, Bool.false_eq_true, if_false]
  rw [rest, Lexer.flush, if_neg Nat.toDigits_ne_nil, token, List.append_assoc, List.append_assoc]
  rfl

end LexerLemmas

section ExecutionLemmas

variable (row : Row) (set : List (Text × Value)) (key : Text × Value)

theorem assigned_mem {set : List (Text × Value)} {column : Text} {value : Value}
    (found : assigned set column = some value) : (column, value) ∈ set := by
  rw [assigned, Option.map_eq_some_iff] at found
  obtain ⟨assignment, found, rfl⟩ := found
  have name := List.find?_some found
  rw [decide_eq_true_eq] at name
  rw [← name]
  exact List.mem_reverse.mp (List.mem_of_find?_eq_some found)

theorem Row.assign_cases (column : Text) :
    row.assign set column = row column ∨ (column, row.assign set column) ∈ set := by
  unfold Row.assign
  cases found : assigned set column with
  | none => exact Or.inl rfl
  | some value => exact Or.inr (assigned_mem found)

theorem Row.assign_assigned {column : Text} {value : Value} (found : assigned set column = some value) :
    row.assign set column = value := by
  rw [Row.assign, found, Option.getD_some]

theorem Row.meets_iff : row.meets key = true ↔ row key.1 = key.2 := decide_eq_true_iff

theorem Row.update_of_meets (meets : row.meets key = true) : row.update set key = row.assign set :=
  if_pos meets

theorem Row.update_other (other : row key.1 ≠ key.2) : row.update set key = row :=
  if_neg (fun meets => other ((row.meets_iff key).mp meets))

/-- An UPDATE changes the rows that meet its key, to values that it names. -/
theorem Row.update_cases (column : Text) :
    row.update set key column = row column ∨
      row key.1 = key.2 ∧ (column, row.update set key column) ∈ set := by
  by_cases meets : row key.1 = key.2
  · rw [row.update_of_meets set key ((row.meets_iff key).mpr meets)]
    exact (row.assign_cases set column).imp_right (fun named => ⟨meets, named⟩)
  · rw [row.update_other set key meets]
    exact Or.inl rfl

/-- When an UPDATE leaves the key's column as it is, the same rows meet the key behind it. -/
theorem filter_update (rows : List Row) (keeps : assigned set key.1 = some key.2) :
    (rows.map fun row => row.update set key).filter (fun row => row.meets key) =
      (rows.filter fun row => row.meets key).map fun row => row.assign set := by
  induction rows with
  | nil => rfl
  | cons row rows ih =>
      rw [List.map_cons, List.filter_cons, List.filter_cons, ih]
      by_cases meets : row.meets key = true
      · have still : (row.assign set).meets key = true := by
          rw [Row.meets_iff, row.assign_assigned set keeps]
        rw [row.update_of_meets set key meets, if_pos still, if_pos meets, List.map_cons]
      · have other : row key.1 ≠ key.2 := fun same => meets ((row.meets_iff key).mpr same)
        rw [row.update_other set key other, if_neg meets, if_neg meets]

/-- What holds of each row and its update holds row by row of the table. -/
theorem forall₂_update (rows : List Row) (Changed : Row → Row → Prop)
    (each : ∀ row : Row, Changed row (row.update set key)) :
    List.Forall₂ Changed rows (rows.map fun row => row.update set key) := by
  rw [List.forall₂_map_right_iff, List.forall₂_same]
  exact fun row _ => each row

open Classical in
/-- Some order visits a given row last. -/
theorem RowOrder.exists_last (rows : List Row) (row : Row) (member : row ∈ rows) :
    ∃ (order : RowOrder) (front : List Row), order.visit rows = front ++ [row] := by
  obtain ⟨front, back, rfl⟩ := List.append_of_mem member
  let visit (given : List Row) : List Row :=
    if given = front ++ row :: back then front ++ back ++ [row] else given
  have perm (given : List Row) : (visit given).Perm given := by
    by_cases same : given = front ++ row :: back
    · rw [show visit given = front ++ back ++ [row] from if_pos same, same, List.append_assoc]
      exact (List.perm_append_singleton row back).append_left front
    · rw [show visit given = given from if_neg same]
  exact ⟨⟨visit, perm⟩, front ++ back, if_pos rfl⟩

end ExecutionLemmas

end Base.Sql
