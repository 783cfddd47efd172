import GameServer.DbStatements

set_option autoImplicit false

/- How far the statements reach into the database. Nothing escapes the strings they
are built from, so a string with a quote in it changes the statement. -/
namespace GameServer.DB

open Base.Sql

/-- Both texts are scanned as they are meant: the fixed statement, and for each string
one literal with that string as its value. -/
def Intended (session : Text) (u : UserDBStruct) : Prop :=
  scan .code (getUserSql session) = (getTemplate session).items ∧
    scan .code u.updateSql = (updateTemplate u).items

/-- Update changes nothing but rows with the record's session, and these only to the
values it was given. -/
def UpdateConfined (u : UserDBStruct) : Prop :=
  ∀ (sqlite : Sqlite) (db after : Database), update sqlite db u = .ok after →
    (∀ table, table ≠ userdb → after table = db table) ∧
      ∃ rows rows', db userdb = some rows ∧ after userdb = some rows' ∧
        List.Forall₂ (fun row row' => ∀ column, row' column = row column ∨
          row "loginsession".toList = .text u.session ∧ (column, row' column) ∈ given u) rows rows'

/-- GetUser's statement changes nothing, and selects only rows with the session. -/
def GetConfined (session : Text) : Prop :=
  ∀ (sqlite : Sqlite) (db after : Database) (result : List (List Value)),
    sqlite.run db (getUserSql session) = .ok (after, result) →
      after = db ∧ ∃ rows, db userdb = some rows ∧
        ∀ line ∈ result, ∃ row ∈ rows, row "loginsession".toList = .text session ∧ line = selected.map row

structure Confined (session : Text) (u : UserDBStruct) : Prop where
  intended : Intended session u
  update : UpdateConfined u
  get : GetConfined session

theorem updateTemplate_plain (u : UserDBStruct) :
    (∀ value ∈ (updateTemplate u).values, quote ∉ value.1) ↔
      quote ∉ u.nickname ∧ quote ∉ u.skill ∧ quote ∉ u.session := by
  simp only [updateTemplate, List.forall_mem_cons, List.not_mem_nil, false_imp_iff, implies_true, and_true, and_self]

theorem getTemplate_plain (session : Text) :
    (∀ value ∈ (getTemplate session).values, quote ∉ value.1) ↔ quote ∉ session :=
  List.forall_mem_singleton

theorem intended_iff (session : Text) (u : UserDBStruct) :
    Intended session u ↔ quote ∉ session ∧ quote ∉ u.nickname ∧ quote ∉ u.skill ∧ quote ∉ u.session := by
  rw [Intended, getUserSql_eq, updateSql_eq, Template.scan_render_iff _ (getTemplate_fixed session),
    Template.scan_render_iff _ (updateTemplate_fixed u), getTemplate_plain, updateTemplate_plain]

/-- The table behind Update. -/
def updated (u : UserDBStruct) (rows : List Row) : List Row :=
  rows.map fun row => row.update (given u) (loginSession u.session)

section Plain

variable (sqlite : Sqlite) (db : Database)

theorem update_eq (u : UserDBStruct)
    (plain : quote ∉ u.nickname ∧ quote ∉ u.skill ∧ quote ∉ u.session) (rows : List Row)
    (table : db userdb = some rows) :
    update sqlite db u = .ok (Function.update db userdb (some (updated u rows))) := by
  have prepared := prepare_updateSql u ((updateTemplate_plain u).mpr plain)
  rw [update, Sqlite.run, prepared, Option.bind_some, execute, table]
  rfl

theorem run_getUserSql (session : Text) (plain : quote ∉ session) (rows : List Row)
    (table : db userdb = some rows) :
    sqlite.run db (getUserSql session) =
      .ok (db, (sqlite.order.visit (rows.filter fun row => row.meets (loginSession session))).map
        fun row => selected.map row) := by
  rw [Sqlite.run, prepare_getUserSql session plain, Option.bind_some, execute, table]
  rfl

/-- Without the table both statements are errors. -/
theorem update_error (u : UserDBStruct)
    (plain : quote ∉ u.nickname ∧ quote ∉ u.skill ∧ quote ∉ u.session) (table : db userdb = none) :
    update sqlite db u = .error .sqlite := by
  have prepared := prepare_updateSql u ((updateTemplate_plain u).mpr plain)
  rw [update, Sqlite.run, prepared, Option.bind_some, execute, table]
  rfl

theorem run_getUserSql_error (session : Text) (plain : quote ∉ session) (table : db userdb = none) :
    sqlite.run db (getUserSql session) = .error .sqlite := by
  rw [Sqlite.run, prepare_getUserSql session plain, Option.bind_some, execute, table]
  rfl

end Plain

theorem updateConfined_of_plain (u : UserDBStruct)
    (plain : quote ∉ u.nickname ∧ quote ∉ u.skill ∧ quote ∉ u.session) : UpdateConfined u := by
  intro sqlite db after done
  cases table : db userdb with
  | none =>
      rw [update_error sqlite db u plain table] at done
      cases done
  | some rows =>
      rw [update_eq sqlite db u plain rows table] at done
      cases done
      constructor
      · intro other different
        exact Function.update_of_ne different _ _
      · refine ⟨rows, _, rfl, Function.update_self _ _ _, ?_⟩
        apply forall₂_update
        intro row column
        exact row.update_cases (given u) (loginSession u.session) column

theorem getConfined_of_plain (session : Text) (plain : quote ∉ session) : GetConfined session := by
  intro sqlite db after result done
  cases table : db userdb with
  | none =>
      rw [run_getUserSql_error sqlite db session plain table] at done
      cases done
  | some rows =>
      rw [run_getUserSql sqlite db session plain rows table] at done
      cases done
      refine ⟨rfl, rows, rfl, fun line member => ?_⟩
      obtain ⟨row, visited, same⟩ := List.mem_map.mp member
      have found := (sqlite.order.perm _).mem_iff.mp visited
      rw [List.mem_filter, Row.meets_iff] at found
      exact ⟨row, found.1, found.2, same.symm⟩

/-- The statements do what they are meant to do exactly for strings without a quote. -/
theorem confined_iff (session : Text) (u : UserDBStruct) :
    Confined session u ↔ quote ∉ session ∧ quote ∉ u.nickname ∧ quote ∉ u.skill ∧ quote ∉ u.session := by
  constructor
  · intro confined
    exact (intended_iff session u).mp confined.intended
  · intro plain
    exact ⟨(intended_iff session u).mpr plain, updateConfined_of_plain u plain.2, getConfined_of_plain session plain.1⟩

/-- A nickname that ends its literal and the statement behind it. -/
def robber : UserDBStruct :=
  ⟨"a' where LoginSession = '2';".toList, [], 0, 0, 0, 0, 0, 0, "1".toList⟩

def thief : Text := "2';".toList

def victim : Row := fun column => if column = "loginsession".toList then .text "2".toList else .null

def victims : Database := fun table => if table = userdb then some [victim] else none

/-- The robber's update sets the victim's nickname, and the thief's query finds the victim. -/
theorem robber_not_confined :
    ¬ Intended thief robber ∧ ¬ UpdateConfined robber ∧ ¬ GetConfined thief := by
  have plain : ¬ quote ∉ thief := by decide
  have updates : prepare robber.updateSql =
      some (.update userdb [("nickname".toList, .text "a".toList)] (loginSession "2".toList)) := by
    decide +kernel
  have selects : prepare (getUserSql thief) = some (.select selected userdb (loginSession "2".toList)) := by
    decide +kernel
  refine ⟨fun intended => plain ((intended_iff _ _).mp intended).1, fun confined => ?_, fun confined => ?_⟩
  · obtain ⟨_, rows, rows', before, after, changed⟩ := confined .exact victims _ (by
      rw [update, Sqlite.run, updates]
      rfl)
    cases before
    cases after
    have nickname := (List.forall₂_cons.mp changed).1 "nickname".toList
    revert nickname
    decide
  · obtain ⟨_, rows, before, found⟩ := confined .exact victims _ _ (by
      rw [Sqlite.run, selects]
      rfl)
    cases before
    obtain ⟨row, member, session, _⟩ := found _ List.mem_cons_self
    rw [List.mem_singleton.mp member] at session
    revert session
    decide

end GameServer.DB
