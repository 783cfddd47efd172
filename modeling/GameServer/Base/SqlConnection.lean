import GameServer.Base.Sql

set_option autoImplicit false

/- A connection to a database, with the statements that are prepared on it. A statement is
run step by step, and stays with the connection until it is finalized. What it does when it
is run is left open. -/
namespace Base.Sql

def Statement.table : Statement → Text
  | .update table _ _ => table
  | .select _ table _ => table

/-- A compiled statement: what it makes of a database and the rows it gives, unless it fails. -/
abbrev Program := RowOrder → Database → Option (Database × List (List Value))

def Statement.program (statement : Statement) : Program := fun order db => execute order db statement

inductive Cursor where
  | ready (program : Program)
  /-- Some rows are still to come. -/
  | reading (rows : List (List Value))
  | halted

inductive StepResult where
  | row (values : List Value)
  | done
  | error

/-- The statements are kept in the order they were prepared in; a finalized one is gone. -/
structure Connection where
  db : Database
  cursors : List (Option Cursor)

namespace Connection

def cursor (c : Connection) (id : Nat) : Option Cursor := (c.cursors[id]?).join

def set (c : Connection) (id : Nat) (cursor : Option Cursor) : Connection :=
  { c with cursors := c.cursors.set id cursor }

/-- What is compiled from a text is kept; none: there was an error in the text. -/
def prepare (c : Connection) (compiled : Option Program) : Option (Nat × Connection) :=
  compiled.map fun program => (c.cursors.length, { c with cursors := c.cursors ++ [some (.ready program)] })

/-- The next of the rows that are left. -/
def fetch (c : Connection) (id : Nat) : List (List Value) → StepResult × Connection
  | [] => (.done, c.set id (some .halted))
  | row :: rows => (.row row, c.set id (some (.reading rows)))

/-- One step of a statement; `fault` tells that SQLite meets an error in it, which undoes
what the statement has done. -/
def step (order : RowOrder) (fault : Bool) (c : Connection) (id : Nat) : StepResult × Connection :=
  match c.cursor id with
  | some (.ready program) =>
      match fault, program order c.db with
      | false, some (db, rows) => fetch { c with db } id rows
      | _, _ => (.error, c.set id (some .halted))
  | some (.reading rows) => if fault then (.error, c.set id (some .halted)) else c.fetch id rows
  | _ => (.error, c)

def finalize (c : Connection) (id : Nat) : Connection := c.set id none

/-- How many rows a statement can still give. -/
def remaining (order : RowOrder) (c : Connection) (id : Nat) : Nat :=
  match c.cursor id with
  | some (.ready program) => ((program order c.db).map fun result => result.2.length).getD 0
  | some (.reading rows) => rows.length
  | _ => 0

section Cursors

variable (c : Connection) (id : Nat)

@[simp] theorem set_db (cursor : Option Cursor) : (c.set id cursor).db = c.db := rfl

@[simp] theorem set_length (cursor : Option Cursor) : (c.set id cursor).cursors.length = c.cursors.length :=
  List.length_set

theorem cursor_set (cursor : Option Cursor) (inside : id < c.cursors.length) : (c.set id cursor).cursor id = cursor := by
  rw [Connection.cursor, set, List.getElem?_set_self inside]
  rfl

theorem set_set (first second : Option Cursor) : (c.set id first).set id second = c.set id second := by
  rw [set, set, set, List.set_set]

theorem inside_of_cursor {cursor : Cursor} (there : c.cursor id = some cursor) : id < c.cursors.length := by
  by_contra outside
  rw [Connection.cursor, List.getElem?_eq_none (Nat.not_lt.mp outside)] at there
  cases there

/-- What a step can do: nothing, fail, or give the next of the rows that are left or have
just been found. -/
theorem step_cases (order : RowOrder) (fault : Bool) :
    ((c.cursor id = none ∨ c.cursor id = some .halted) ∧ c.step order fault id = (.error, c)) ∨
    ((∃ cursor, c.cursor id = some cursor ∧ cursor ≠ .halted) ∧
      c.step order fault id = (.error, c.set id (some .halted))) ∨
    (∃ rows, c.cursor id = some (.reading rows) ∧ c.step order fault id = c.fetch id rows) ∨
    ∃ program result, c.cursor id = some (.ready program) ∧ program order c.db = some result ∧
      c.step order fault id = fetch { c with db := result.1 } id result.2 := by
  cases there : c.cursor id with
  | none => exact Or.inl ⟨Or.inl rfl, by rw [step, there]⟩
  | some state =>
      cases state with
      | halted => exact Or.inl ⟨Or.inr rfl, by rw [step, there]⟩
      | reading rows =>
          cases fault with
          | true => exact Or.inr (Or.inl ⟨⟨_, rfl, nofun⟩, by rw [step, there]; rfl⟩)
          | false => exact Or.inr (Or.inr (Or.inl ⟨rows, rfl, by rw [step, there]; rfl⟩))
      | ready program =>
          cases fault with
          | true => exact Or.inr (Or.inl ⟨⟨_, rfl, nofun⟩, by rw [step, there]⟩)
          | false =>
              cases ran : program order c.db with
              | none => exact Or.inr (Or.inl ⟨⟨_, rfl, nofun⟩, by rw [step, there]; simp only [ran]⟩)
              | some result =>
                  refine Or.inr (Or.inr (Or.inr ⟨program, result, rfl, ran, ?_⟩))
                  rw [step, there]
                  simp only [ran]

@[simp] theorem fetch_db (rows : List (List Value)) : (c.fetch id rows).2.db = c.db := by
  cases rows <;> rfl

/-- Behind a row some of the rows are still to come. -/
theorem fetch_row {rows : List (List Value)} {row : List Value} {after : Connection} (inside : id < c.cursors.length)
    (gives : c.fetch id rows = (.row row, after)) :
    ∃ left, rows = row :: left ∧ after.cursor id = some (.reading left) := by
  cases rows with
  | nil => cases gives
  | cons first left =>
      cases gives
      exact ⟨left, rfl, c.cursor_set id _ inside⟩

/-- A statement gives one row less after each row. -/
theorem remaining_step {order : RowOrder} {fault : Bool} {row : List Value} {after : Connection}
    (stepped : c.step order fault id = (.row row, after)) : after.remaining order id < c.remaining order id := by
  rcases c.step_cases id order fault with ⟨_, same⟩ | ⟨_, same⟩ | ⟨rows, there, same⟩ |
    ⟨program, result, there, ran, same⟩
  · rw [same] at stepped
    cases stepped
  · rw [same] at stepped
    cases stepped
  · rw [same] at stepped
    obtain ⟨left, rfl, next⟩ := c.fetch_row id (c.inside_of_cursor id there) stepped
    rw [remaining, remaining, next, there]
    exact Nat.lt_succ_self _
  · rw [same] at stepped
    obtain ⟨left, rows, next⟩ := fetch_row { c with db := result.1 } id (c.inside_of_cursor id there) stepped
    rw [remaining, remaining, next, there]
    simp only [ran, rows, Option.map_some, Option.getD_some]
    exact Nat.lt_succ_self _

theorem step_row {order : RowOrder} {fault : Bool} {row : List Value} {after : Connection}
    (stepped : c.step order fault id = (.row row, after)) : ∃ left, after.cursor id = some (.reading left) := by
  rcases c.step_cases id order fault with ⟨_, same⟩ | ⟨_, same⟩ | ⟨rows, there, same⟩ | ⟨_, result, there, _, same⟩
  · rw [same] at stepped
    cases stepped
  · rw [same] at stepped
    cases stepped
  · rw [same] at stepped
    obtain ⟨left, _, next⟩ := c.fetch_row id (c.inside_of_cursor id there) stepped
    exact ⟨left, next⟩
  · rw [same] at stepped
    obtain ⟨left, _, next⟩ := fetch_row { c with db := result.1 } id (c.inside_of_cursor id there) stepped
    exact ⟨left, next⟩

/-- A step of a statement that only reads. -/
theorem step_db {order : RowOrder} (fault : Bool)
    (reads : ∀ program result, c.cursor id = some (.ready program) → program order c.db = some result → result.1 = c.db) :
    (c.step order fault id).2.db = c.db := by
  rcases c.step_cases id order fault with ⟨_, same⟩ | ⟨_, same⟩ | ⟨rows, _, same⟩ | ⟨program, result, there, ran, same⟩
  · rw [same]
  · rw [same, set_db]
  · rw [same, fetch_db]
  · rw [same, fetch_db, reads program result there ran]

end Cursors

end Connection

end Base.Sql
