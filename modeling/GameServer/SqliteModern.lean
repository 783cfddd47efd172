import GameServer.Base.SqlConnection
import GameServer.Db

set_option autoImplicit false

/- sqlite_modern_cpp: a statement is prepared when it is given to the database, and run by
what reads its rows, or else by the destructor of its binder. DbManager on top of it. -/
namespace GameServer.DB

open Base.Sql

/-- What a call meets: the order SQLite visits rows in, the steps SQLite fails in, and
whether the thread is in a handler of an exception. -/
structure Surroundings where
  order : RowOrder
  fault : Nat → Bool
  handling : Bool

/-- `while ((hresult = sqlite3_step(_stmt)) == SQLITE_ROW) call_back();` with what it ends
with: `true` for SQLITE_DONE. -/
def rowLoop {σ : Type} (s : Surroundings) (callback : σ → List Value → σ) (id : Nat) (c : Connection) (count : Nat)
    (acc : σ) : Bool × σ × Connection :=
  match stepped : c.step s.order (s.fault count) id with
  | (.row row, after) => rowLoop s callback id after (count + 1) (callback acc row)
  | (.done, after) => (true, acc, after)
  | (.error, after) => (false, acc, after)
termination_by c.remaining s.order id
decreasing_by exact c.remaining_step id stepped

/-- database_binder; `stmt` is its pointer to the statement. -/
structure Binder where
  stmt : Option Nat
  executionStarted : Bool

/-- A character of `std::u16string(sql.begin(), sql.end())`: a byte from 128 on is a negative
char. -/
def widen (c : Char) : UInt16 := UInt16.ofNat (if c.toNat < 128 then c.toNat else 0xff00 + c.toNat)

/-- sqlite3_prepare16_v2: what it makes of a text, or an error. -/
abbrev Compiler := Database → List UInt16 → Option Program

namespace Binder

/-- `_prepare` -/
def prepare (compile : Compiler) (c : Connection) (sql : Text) : Option (Nat × Connection) :=
  c.prepare (compile c.db (sql.map widen))

/-- `_extract`; behind the last row the pointer to the statement is set to null. -/
def extract {σ : Type} (s : Surroundings) (callback : σ → List Value → σ) (b : Binder) (c : Connection) (acc : σ) :
    Except DbException Unit × σ × Connection × Binder :=
  match b.stmt with
  | none => (.error .sqlite, acc, c, { b with executionStarted := true })
  | some id =>
      match rowLoop s callback id c 0 acc with
      | (true, acc, c) => (.ok (), acc, c, ⟨none, true⟩)
      | (false, acc, c) => (.error .sqlite, acc, c, ⟨some id, true⟩)

/-- sqlite3_statment's destructor -/
def finalize (b : Binder) (c : Connection) : Connection :=
  match b.stmt with
  | none => c
  | some id => c.finalize id

/-- The destructor: what nobody has read is run now, but not while an exception is handled.
The statement is finalized behind it. -/
def destroy (s : Surroundings) (b : Binder) (c : Connection) : Except DbException Unit × Connection :=
  if !b.executionStarted && !s.handling then
    match b.stmt with
    | none => (.error .sqlite, c)
    | some id =>
        match rowLoop s (fun _ _ => ()) id c 0 () with
        | (true, _, c) => (.ok (), b.finalize c)
        | (false, _, c) => (.error .sqlite, b.finalize c)
  else (.ok (), b.finalize c)

end Binder

namespace DbManager

variable (compile : Compiler) (sqlite : Sqlite)

/-- GetUser on a connection. -/
def getUser (s : Surroundings) (c : Connection) (fresh : UserDBStruct) (session : Text) :
    Except DbException UserDBStruct × Connection :=
  match Binder.prepare compile c (getUserSql session) with
  | none => (.error .sqlite, c)
  | some (id, c) =>
      let (ended, user, c, b) :=
        Binder.extract s sqlite.callback ⟨some id, false⟩ c { fresh with nickname := [], skill := [], session := [] }
      let (_, c) := b.destroy s c
      match ended with
      | .error thrown => (.error thrown, c)
      | .ok () => if session ≠ user.session then (.error .noUser, c) else (.ok user, c)

/-- Update on a connection; nothing reads the statement, so the destructor runs it. -/
def update (s : Surroundings) (c : Connection) (user : UserDBStruct) : Except DbException Unit × Connection :=
  match Binder.prepare compile c user.updateSql with
  | none => (.error .sqlite, c)
  | some (id, c) => Binder.destroy s ⟨some id, false⟩ c

inductive Call where
  | getUser (s : Surroundings) (fresh : UserDBStruct) (session : Text)
  | update (s : Surroundings) (user : UserDBStruct)

/-- A call, with the record it returns. -/
def call (c : Connection) : Call → Except DbException (Option UserDBStruct) × Connection
  | .getUser s fresh session =>
      ((getUser compile sqlite s c fresh session).1.map some, (getUser compile sqlite s c fresh session).2)
  | .update s user => ((update compile s c user).1.map fun _ => none, (update compile s c user).2)

def calls (c : Connection) : List Call → List (Except DbException (Option UserDBStruct)) × Connection
  | [] => ([], c)
  | first :: rest =>
      let (result, c) := call compile sqlite c first
      let (results, c) := calls c rest
      (result :: results, c)

end DbManager

section Loop

variable {σ : Type} {s : Surroundings} {callback : σ → List Value → σ} {id : Nat}

theorem rowLoop_row (c after : Connection) (count : Nat) (acc : σ) (row : List Value)
    (stepped : c.step s.order (s.fault count) id = (.row row, after)) :
    rowLoop s callback id c count acc = rowLoop s callback id after (count + 1) (callback acc row) := by
  rw [rowLoop]
  split
  all_goals
    rename_i same
    rw [stepped] at same
    cases same
  rfl

theorem rowLoop_done (c after : Connection) (count : Nat) (acc : σ)
    (stepped : c.step s.order (s.fault count) id = (.done, after)) :
    rowLoop s callback id c count acc = (true, acc, after) := by
  rw [rowLoop]
  split
  all_goals
    rename_i same
    rw [stepped] at same
    cases same
  rfl

theorem rowLoop_error (c after : Connection) (count : Nat) (acc : σ)
    (stepped : c.step s.order (s.fault count) id = (.error, after)) :
    rowLoop s callback id c count acc = (false, acc, after) := by
  rw [rowLoop]
  split
  all_goals
    rename_i same
    rw [stepped] at same
    cases same
  rfl

/-- A step leaves every other statement alone, and the one that ends it halted. -/
theorem step_cursors (order : RowOrder) (fault : Bool) (c : Connection) (cursor : Cursor)
    (there : c.cursor id = some cursor) (active : cursor ≠ .halted) :
    ∃ state, (c.step order fault id).2.cursors = c.cursors.set id (some state) ∧
      ((∃ row, (c.step order fault id).1 = .row row) ∧ state ≠ .halted ∨
        (∀ row, (c.step order fault id).1 ≠ .row row) ∧ state = .halted) := by
  have fetched (base : Connection) (same : base.cursors = c.cursors) (rows : List (List Value)) :
      ∃ state, (base.fetch id rows).2.cursors = c.cursors.set id (some state) ∧
        ((∃ row, (base.fetch id rows).1 = .row row) ∧ state ≠ .halted ∨
          (∀ row, (base.fetch id rows).1 ≠ .row row) ∧ state = .halted) := by
    cases rows with
    | nil => exact ⟨.halted, by rw [← same]; rfl, Or.inr ⟨fun _ => nofun, rfl⟩⟩
    | cons row rows => exact ⟨.reading rows, by rw [← same]; rfl, Or.inl ⟨⟨row, rfl⟩, nofun⟩⟩
  rcases c.step_cases id order fault with ⟨none | halted, _⟩ | ⟨_, same⟩ | ⟨rows, _, same⟩ | ⟨_, result, _, _, same⟩
  · rw [there] at none
    cases none
  · rw [there] at halted
    exact absurd (Option.some.inj halted) active
  · rw [same]
    exact ⟨.halted, rfl, Or.inr ⟨fun _ => nofun, rfl⟩⟩
  · rw [same]
    exact fetched c rfl rows
  · rw [same]
    exact fetched { c with db := result.1 } rfl result.2

theorem rowLoop_cursors (c : Connection) (count : Nat) (acc : σ) (cursor : Cursor) (there : c.cursor id = some cursor)
    (active : cursor ≠ .halted) :
    (rowLoop s callback id c count acc).2.2.cursors = c.cursors.set id (some .halted) := by
  fun_induction rowLoop s callback id c count acc generalizing cursor with
  | case1 c count acc row after stepped ih =>
      obtain ⟨state, cursors, given⟩ := step_cursors s.order (s.fault count) c cursor there active
      rw [stepped] at cursors given
      rcases given with ⟨_, more⟩ | ⟨none, _⟩
      · have next : after.cursor id = some state := by
          rw [Connection.cursor, cursors, List.getElem?_set_self (c.inside_of_cursor id there)]
          rfl
        rw [ih state next more, cursors, List.set_set]
      · exact absurd rfl (none row)
  | case2 c count acc after stepped =>
      obtain ⟨state, cursors, given⟩ := step_cursors s.order (s.fault count) c cursor there active
      rw [stepped] at cursors given
      rcases given with ⟨⟨row, impossible⟩, _⟩ | ⟨_, halted⟩
      · cases impossible
      · rw [cursors, halted]
  | case3 c count acc after stepped =>
      obtain ⟨state, cursors, given⟩ := step_cursors s.order (s.fault count) c cursor there active
      rw [stepped] at cursors given
      rcases given with ⟨⟨row, impossible⟩, _⟩ | ⟨_, halted⟩
      · cases impossible
      · rw [cursors, halted]

/-- A statement that changes nothing where it is run changes nothing, whatever fails. -/
theorem rowLoop_db (c : Connection) (count : Nat) (acc : σ)
    (reads : ∀ program result, c.cursor id = some (.ready program) → program s.order c.db = some result →
      result.1 = c.db) :
    (rowLoop s callback id c count acc).2.2.db = c.db := by
  fun_induction rowLoop s callback id c count acc with
  | case1 c count acc row after stepped ih =>
      obtain ⟨left, next⟩ := c.step_row id stepped
      have kept := c.step_db id (s.fault count) reads
      rw [stepped] at kept
      have rest := ih fun program result there _ => by
        rw [next] at there
        cases there
      rw [rest, ← kept]
  | case2 c count acc after stepped =>
      have kept := c.step_db id (s.fault count) reads
      rw [stepped] at kept
      exact kept
  | case3 c count acc after stepped =>
      have kept := c.step_db id (s.fault count) reads
      rw [stepped] at kept
      exact kept

section Faultless

variable (faultless : ∀ count, s.fault count = false)
include faultless

theorem rowLoop_fetch (rows : List (List Value)) (base c : Connection) (count : Nat) (acc : σ)
    (inside : id < base.cursors.length) (stepped : c.step s.order (s.fault count) id = base.fetch id rows) :
    rowLoop s callback id c count acc = (true, rows.foldl callback acc, base.set id (some .halted)) := by
  induction rows generalizing base c count acc with
  | nil => exact rowLoop_done c _ count acc stepped
  | cons row rows ih =>
      have there : (base.set id (some (.reading rows))).cursor id = some (.reading rows) := base.cursor_set id _ inside
      have next : (base.set id (some (.reading rows))).step s.order (s.fault (count + 1)) id =
          (base.set id (some (.reading rows))).fetch id rows := by
        rw [Connection.step, there, faultless]
        rfl
      rw [rowLoop_row c _ count acc row stepped,
        ih _ _ (count + 1) (callback acc row) (by rw [Connection.set_length]; exact inside) next, Connection.set_set]
      rfl

/-- Without faults a statement is run to its end, and all of its rows are read. -/
theorem rowLoop_ready (c : Connection) (acc : σ) (program : Program) (result : Database × List (List Value))
    (there : c.cursor id = some (.ready program)) (ran : program s.order c.db = some result) :
    rowLoop s callback id c 0 acc =
      (true, result.2.foldl callback acc, { c.set id (some .halted) with db := result.1 }) := by
  have stepped : c.step s.order (s.fault 0) id = Connection.fetch { c with db := result.1 } id result.2 := by
    rw [Connection.step, there, faultless]
    simp only [ran]
  rw [rowLoop_fetch faultless result.2 { c with db := result.1 } c 0 acc (c.inside_of_cursor id there) stepped]
  rfl

end Faultless

end Loop

end GameServer.DB
