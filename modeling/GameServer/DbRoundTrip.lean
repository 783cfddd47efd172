import GameServer.DbConfined

set_option autoImplicit false

/- Update and then GetUser: the record that comes back. UpdateSql writes PDefence to the
column PAttack and never sets the column PDefence, GetUser reads both. -/
namespace GameServer.DB

open Base.Sql

/-- The record GetUser's callback makes of a row. -/
def Sqlite.record (sqlite : Sqlite) (row : Row) : UserDBStruct where
  nickname := sqlite.getText (row "nickname".toList)
  skill := sqlite.getText (row "skill".toList)
  exp := sqlite.getInt (row "exp".toList)
  pHp := sqlite.getInt (row "php".toList)
  pAttack := sqlite.getInt (row "pattack".toList)
  pDefence := sqlite.getInt (row "pdefence".toList)
  level := sqlite.getInt (row "level".toList)
  quest := sqlite.getInt (row "quest".toList)
  session := sqlite.getText (row "loginsession".toList)

/-- After Update, GetUser gives the record back, in whatever order it gets its rows and
whatever its new record holds; other rows and other columns are as before. -/
structure RoundTrips (sqlite : Sqlite) (db : Database) (u : UserDBStruct) (after : Database) : Prop where
  updated : update sqlite db u = .ok after
  read : ∀ order fresh, getUser { sqlite with order } after fresh u.session = .ok u
  tables : ∀ table, table ≠ userdb → after table = db table
  rows : ∃ rows rows', db userdb = some rows ∧ after userdb = some rows' ∧
    List.Forall₂ (fun row row' =>
      (row "loginsession".toList ≠ .text u.session → row' = row) ∧
        ∀ column, column ∉ selected → row' column = row column) rows rows'

section Record

variable (sqlite : Sqlite) (row : Row)

theorem getInt_int (n : Int32) : sqlite.getInt (.int n.toInt) = n := sqlite.columnInt_int n

theorem getText_text (value : Text) : sqlite.getText (.text value) = value := sqlite.columnText_text value

theorem callback_selected (user : UserDBStruct) : sqlite.callback user (selected.map row) = sqlite.record row := rfl

theorem foldl_callback (front : List Row) (user : UserDBStruct) :
    ((front ++ [row]).map fun row => selected.map row).foldl sqlite.callback user = sqlite.record row := by
  rw [List.map_append, List.foldl_append, List.map_singleton, List.foldl_cons, callback_selected, List.foldl_nil]

theorem getUser_eq (db : Database) (session : Text) (plain : quote ∉ session) (rows : List Row)
    (table : db userdb = some rows) (fresh : UserDBStruct) :
    getUser sqlite db fresh session =
      (let user := ((sqlite.order.visit (rows.filter fun row => row.meets (loginSession session))).map
          fun row => selected.map row).foldl sqlite.callback { fresh with nickname := [], skill := [], session := [] }
        if session ≠ user.session then .error .noUser else .ok user) := by
  rw [getUser, run_getUserSql sqlite db session plain rows table]
  rfl

/-- GetUser returns what its callback makes of the last row, since that row has the
session it looked for. -/
theorem getUser_of_last (db : Database) (session : Text) (plain : quote ∉ session) (rows : List Row)
    (table : db userdb = some rows) (front : List Row)
    (last : sqlite.order.visit (rows.filter fun row => row.meets (loginSession session)) = front ++ [row])
    (fresh : UserDBStruct) : getUser sqlite db fresh session = .ok (sqlite.record row) := by
  have member : row ∈ rows.filter fun row => row.meets (loginSession session) := by
    rw [← (sqlite.order.perm _).mem_iff, last]
    exact List.mem_append_right _ List.mem_cons_self
  have own : row "loginsession".toList = .text session := (row.meets_iff _).mp (List.mem_filter.mp member).2
  have same : (sqlite.record row).session = session := by
    rw [Sqlite.record, own]
    exact getText_text sqlite session
  rw [getUser_eq sqlite db session plain rows table, last, foldl_callback]
  exact if_neg (fun different => different same.symm)

/-- What GetUser reads in a row behind Update. -/
theorem record_assign (u : UserDBStruct) :
    sqlite.record (row.assign (given u)) =
      { u with pAttack := u.pDefence, pDefence := sqlite.getInt (row "pdefence".toList) } := by
  have nickname : row.assign (given u) "nickname".toList = .text u.nickname := rfl
  have skill : row.assign (given u) "skill".toList = .text u.skill := rfl
  have exp : row.assign (given u) "exp".toList = .int u.exp.toInt := rfl
  have pHp : row.assign (given u) "php".toList = .int u.pHp.toInt := rfl
  have pAttack : row.assign (given u) "pattack".toList = .int u.pDefence.toInt := rfl
  have pDefence : row.assign (given u) "pdefence".toList = row "pdefence".toList := rfl
  have level : row.assign (given u) "level".toList = .int u.level.toInt := rfl
  have quest : row.assign (given u) "quest".toList = .int u.quest.toInt := rfl
  have session : row.assign (given u) "loginsession".toList = .text u.session := rfl
  simp only [Sqlite.record, nickname, skill, exp, pHp, pAttack, pDefence, level, quest, session, getInt_int,
    getText_text]

theorem record_assign_iff (u : UserDBStruct) :
    sqlite.record (row.assign (given u)) = u ↔
      u.pAttack = u.pDefence ∧ sqlite.getInt (row "pdefence".toList) = u.pDefence := by
  rw [record_assign, UserDBStruct.mk.injEq]
  simp only [true_and, and_true]
  exact and_congr_left' eq_comm

end Record

/-- UpdateSql sets every column that GetUser reads but one. -/
theorem given_names (u : UserDBStruct) : (given u).map Prod.fst = selected.erase "pdefence".toList := rfl

theorem given_columns (u : UserDBStruct) {column : Text} {value : Value} (named : (column, value) ∈ given u) :
    column ∈ selected := by
  have name : column ∈ (given u).map Prod.fst := List.mem_map.mpr ⟨_, named, rfl⟩
  rw [given_names] at name
  exact List.mem_of_mem_erase name

section Read

variable (sqlite : Sqlite) (db : Database) (u : UserDBStruct) (rows : List Row)

/-- The rows with the record's session. -/
def own : List Row := rows.filter fun row => row.meets (loginSession u.session)

theorem mem_own (row : Row) : row ∈ own u rows ↔ row ∈ rows ∧ row "loginsession".toList = .text u.session := by
  rw [own, List.mem_filter, Row.meets_iff]
  exact Iff.rfl

/-- GetUser finds the rows that Update has written. -/
theorem own_updated : own u (updated u rows) = (own u rows).map fun row => row.assign (given u) :=
  filter_update (given u) (loginSession u.session) rows rfl

/-- GetUser behind Update reads the row that comes last. -/
theorem getUser_last (plain : quote ∉ u.session) (front : List Row) (row : Row)
    (last : sqlite.order.visit (own u (updated u rows)) = front ++ [row.assign (given u)]) (fresh : UserDBStruct) :
    getUser sqlite (Function.update db userdb (some (updated u rows))) fresh u.session =
      .ok (sqlite.record (row.assign (given u))) :=
  getUser_of_last sqlite _ _ u.session plain _ (Function.update_self _ _ _) front last fresh

/-- Whatever row comes last, it is one that Update has written. -/
theorem exists_last (order : RowOrder) (some_row : own u rows ≠ []) :
    ∃ front row, row ∈ own u rows ∧ order.visit (own u (updated u rows)) = front ++ [row.assign (given u)] := by
  have visited := order.perm (own u (updated u rows))
  rcases List.eq_nil_or_concat (order.visit (own u (updated u rows))) with empty | ⟨front, last, split⟩
  · rw [empty, List.nil_perm, own_updated, List.map_eq_nil_iff] at visited
    exact absurd visited some_row
  · rw [List.concat_eq_append] at split
    have member : last ∈ own u (updated u rows) := by
      rw [← visited.mem_iff, split]
      exact List.mem_append_right _ List.mem_cons_self
    rw [own_updated, List.mem_map] at member
    obtain ⟨row, member, rfl⟩ := member
    exact ⟨front, row, member, split⟩

/-- A round trip reads the record in each row with its session, as any of them can come last. -/
theorem record_of_roundTrips (after : Database) (table : db userdb = some rows)
    (plain : quote ∉ u.nickname ∧ quote ∉ u.skill ∧ quote ∉ u.session) (trip : RoundTrips sqlite db u after)
    (row : Row) (member : row ∈ own u rows) : sqlite.record (row.assign (given u)) = u := by
  have written : row.assign (given u) ∈ own u (updated u rows) := by
    rw [own_updated]
    exact List.mem_map_of_mem member
  obtain ⟨order, front, last⟩ := RowOrder.exists_last _ _ written
  have same := (update_eq sqlite db u plain rows table).symm.trans trip.updated
  cases same
  have read := getUser_last { sqlite with order } db u rows plain.2.2 front row last u
  rw [trip.read order u] at read
  exact (Except.ok.inj read).symm

end Read

/-- Update and GetUser agree on a record exactly when its attack is its defence and the
table already has that defence. -/
theorem roundTrips_iff (sqlite : Sqlite) (db : Database) (u : UserDBStruct) (rows : List Row)
    (table : db userdb = some rows) (present : ∃ row ∈ rows, row "loginsession".toList = .text u.session)
    (plain : quote ∉ u.nickname ∧ quote ∉ u.skill ∧ quote ∉ u.session) :
    (∃ after, RoundTrips sqlite db u after) ↔
      u.pAttack = u.pDefence ∧ ∀ row ∈ rows, row "loginsession".toList = .text u.session →
        sqlite.getInt (row "pdefence".toList) = u.pDefence := by
  constructor
  · rintro ⟨after, trip⟩
    have each : ∀ row ∈ rows, row "loginsession".toList = .text u.session →
        u.pAttack = u.pDefence ∧ sqlite.getInt (row "pdefence".toList) = u.pDefence := by
      intro row member session
      apply (record_assign_iff sqlite row u).mp
      exact record_of_roundTrips sqlite db u rows after table plain trip row
        ((mem_own u rows row).mpr ⟨member, session⟩)
    obtain ⟨row, member, session⟩ := present
    exact ⟨(each row member session).1, fun row member session => (each row member session).2⟩
  · rintro ⟨attack, defence⟩
    refine ⟨_, update_eq sqlite db u plain rows table, ?_, ?_, rows, _, table, Function.update_self _ _ _, ?_⟩
    · intro order fresh
      obtain ⟨row, member, session⟩ := present
      have some_row : own u rows ≠ [] := List.ne_nil_of_mem ((mem_own u rows row).mpr ⟨member, session⟩)
      obtain ⟨front, row, member, last⟩ := exists_last u rows order some_row
      obtain ⟨member, session⟩ := (mem_own u rows row).mp member
      rw [getUser_last { sqlite with order } db u rows plain.2.2 front row last fresh]
      exact congrArg _ ((record_assign_iff sqlite row u).mpr ⟨attack, defence row member session⟩)
    · intro other different
      exact Function.update_of_ne different _ _
    · apply forall₂_update
      intro row
      constructor
      · intro other
        exact row.update_other _ _ other
      · intro column absent
        have same := row.update_cases (given u) (loginSession u.session) column
        exact same.resolve_right (fun named => absent (given_columns u named.2))

section Heroes

/-- A row of the table with a session and a defence. -/
def heroRow (pDefence : Int32) : Row := fun column =>
  if column = "loginsession".toList then .text "1".toList
  else if column = "pdefence".toList then .int pDefence.toInt
  else .null

def heroTable (pDefence : Int32) : Database := fun table =>
  if table = userdb then some [heroRow pDefence] else none

def hero (pAttack pDefence : Int32) : UserDBStruct :=
  ⟨"hero".toList, "fire".toList, 10, 100, pAttack, pDefence, 3, 1, "1".toList⟩

theorem roundTrips_iff_even : ∃ after, RoundTrips .exact (heroTable 2) (hero 2 2) after :=
  (roundTrips_iff .exact (heroTable 2) (hero 2 2) [heroRow 2] rfl ⟨heroRow 2, List.mem_cons_self, rfl⟩
    (by decide)).mpr ⟨rfl, fun row member _ => by rw [List.mem_singleton.mp member]; rfl⟩

/-- Attack 1 and defence 2 come back as attack 2 and defence 0. -/
theorem hero_not_roundTrips : ¬ ∃ after, RoundTrips .exact (heroTable 0) (hero 1 2) after := by
  rintro ⟨after, trip⟩
  have plain : quote ∉ (hero 1 2).nickname ∧ quote ∉ (hero 1 2).skill ∧ quote ∉ (hero 1 2).session := by decide
  have own : heroRow 0 ∈ own (hero 1 2) [heroRow 0] := (mem_own _ _ _).mpr ⟨List.mem_cons_self, rfl⟩
  have same := record_of_roundTrips .exact _ _ _ after rfl plain trip (heroRow 0) own
  have attack := ((record_assign_iff .exact (heroRow 0) (hero 1 2)).mp same).1
  revert attack
  decide

end Heroes

end GameServer.DB
