import GameServer.DbGetUser
import GameServer.SqliteModernLive
import Mathlib.Data.List.TakeWhile

set_option autoImplicit false

/- What runs of DbManager's calls make of the table: for each session the last update that
was carried out counts, except that a defence is never written. -/
namespace GameServer.DB

open Base.Sql

section Columns

theorem assigned_eq_none_iff (set : List (Text × Value)) (column : Text) :
    assigned set column = none ↔ column ∉ set.map Prod.fst := by
  rw [assigned, Option.map_eq_none_iff, List.find?_eq_none]
  simp only [List.mem_reverse, decide_eq_true_eq, List.mem_map, not_exists, not_and]

/-- Of two updates the second one counts: both set the same columns. -/
theorem assign_assign (row : Row) (u v : UserDBStruct) :
    (row.assign (given u)).assign (given v) = row.assign (given v) := by
  funext column
  unfold Row.assign
  cases found : assigned (given v) column with
  | some value => rfl
  | none =>
      have absent : assigned (given u) column = none := by
        rw [assigned_eq_none_iff, given_names] at found ⊢
        exact found
      rw [absent]
      rfl

/-- No update moves a row to another session. -/
theorem update_session (row : Row) (u : UserDBStruct) :
    row.update (given u) (loginSession u.session) "loginsession".toList = row "loginsession".toList := by
  by_cases own : row "loginsession".toList = .text u.session
  · rw [row.update_of_meets _ _ ((row.meets_iff _).mpr own), own]
    rfl
  · rw [row.update_other _ _ own]

end Columns

/-- The text up to its first NUL. -/
def readUnits (units : List UInt16) : Text := (units.takeWhile (· != 0)).map fun unit => Char.ofNat unit.toNat

/-- The compiler as far as the statements of GetUser and Update need it; a statement on a table
that is not there is not compiled. -/
def compileSql : Compiler := fun db units =>
  (Base.Sql.prepare (readUnits units)).bind fun statement =>
    if (db statement.table).isSome then some statement.program else none

section Ascii

/-- Characters from 1 to 127. -/
def Ascii (value : Text) : Prop := ∀ c ∈ value, c.toNat ≠ 0 ∧ c.toNat < 128

instance (value : Text) : Decidable (Ascii value) := List.decidableBAll (fun c : Char => c.toNat ≠ 0 ∧ c.toNat < 128) value

theorem ascii_append (front back : Text) : Ascii (front ++ back) ↔ Ascii front ∧ Ascii back := List.forall_mem_append

theorem widen_toNat {c : Char} (small : c.toNat < 128) : (widen c).toNat = c.toNat := by
  rw [widen, if_pos small, UInt16.toNat_ofNat']
  omega

/-- Of such a text all of it is read, as it is. -/
theorem read_widen (sql : Text) (ascii : Ascii sql) : readUnits (sql.map widen) = sql := by
  have whole : (sql.map widen).takeWhile (fun unit => unit != 0) = sql.map widen := by
    apply List.takeWhile_eq_self_iff.mpr
    intro unit member
    obtain ⟨c, here, rfl⟩ := List.mem_map.mp member
    have small := ascii c here
    rw [bne_iff_ne]
    intro zero
    have value := widen_toNat small.2
    rw [zero] at value
    exact small.1 value.symm
  rw [readUnits, whole, List.map_map]
  have same : sql.map ((fun unit : UInt16 => Char.ofNat unit.toNat) ∘ widen) = sql.map id := by
    apply List.map_congr_left
    intro c here
    rw [Function.comp_apply, widen_toNat (ascii c here).2, Char.ofNat_toNat]
    rfl
  rw [same, List.map_id]

theorem ascii_lexicalCast (n : Int32) : Ascii (lexicalCast n) := by
  have digits (k : Nat) : Ascii (Nat.toDigits 10 k) := by
    intro c member
    have digit := Nat.isDigit_of_mem_toDigits (by decide) (by decide) member
    have range := Char.isDigit_iff_toNat.mp digit
    change 48 ≤ c.toNat ∧ c.toNat ≤ 57 at range
    omega
  unfold lexicalCast
  split
  · exact List.forall_mem_cons.mpr ⟨by decide, digits _⟩
  · exact digits _

theorem ascii_getUserSql (session : Text) (ascii : Ascii session) : Ascii (getUserSql session) := by
  have select : Ascii getuserSql := by decide +kernel
  have opening : Ascii "'".toList := by decide
  have closing : Ascii "';".toList := by decide
  simp only [getUserSql, ascii_append, select, opening, closing, ascii, and_self]

theorem ascii_updateSql (u : UserDBStruct) (nickname : Ascii u.nickname) (skill : Ascii u.skill)
    (session : Ascii u.session) : Ascii u.updateSql := by
  simp only [UserDBStruct.updateSql, ascii_append, ascii_lexicalCast, nickname, skill, session, and_true]
  decide

end Ascii

namespace DbManager

/-- The update of a call that is carried out. -/
def Call.written : Call → Option UserDBStruct
  | .getUser .. => none
  | .update s user => if s.handling || s.fault 0 then none else some user

/-- A string of ASCII characters without a quote or a NUL. -/
def Plain (value : Text) : Prop := quote ∉ value ∧ Ascii value

instance (value : Text) : Decidable (Plain value) := inferInstanceAs (Decidable (_ ∧ _))

/-- The strings of the call are plain. -/
def Call.Plain : Call → Prop
  | .getUser _ _ session => DbManager.Plain session
  | .update _ user => DbManager.Plain user.nickname ∧ DbManager.Plain user.skill ∧ DbManager.Plain user.session

/-- The last update of a row's session. -/
def lastWritten (requests : List Call) (row : Row) : Option UserDBStruct :=
  (requests.filterMap Call.written).reverse.find? fun u => row.meets (loginSession u.session)

/-- A row behind a call. -/
def Call.write (request : Call) (row : Row) : Row :=
  match request.written with
  | none => row
  | some u => row.update (given u) (loginSession u.session)

/-- A row behind the calls. -/
def after (requests : List Call) (row : Row) : Row :=
  match lastWritten requests row with
  | none => row
  | some u => row.assign (given u)

theorem meets_loginSession (row : Row) (session : Text) :
    row.meets (loginSession session) = decide (row "loginsession".toList = .text session) := rfl

theorem lastWritten_congr (requests : List Call) {row other : Row}
    (same : row "loginsession".toList = other "loginsession".toList) :
    lastWritten requests row = lastWritten requests other := by
  have meets (u : UserDBStruct) : row.meets (loginSession u.session) = other.meets (loginSession u.session) := by
    rw [meets_loginSession, meets_loginSession, same]
  simp only [lastWritten, meets]

theorem lastWritten_cons (request : Call) (rest : List Call) (row : Row) :
    lastWritten (request :: rest) row =
      (lastWritten rest row).or
        (request.written.bind fun u => if row.meets (loginSession u.session) then some u else none) := by
  unfold lastWritten
  cases written : request.written with
  | none => rw [List.filterMap_cons_none written, Option.bind_none, Option.or_none]
  | some u =>
      rw [List.filterMap_cons_some written, List.reverse_cons, List.find?_append, List.find?_singleton,
        Option.bind_some]

/-- A call that comes first is overwritten by the later ones. -/
theorem after_cons (request : Call) (rest : List Call) (row : Row) :
    after (request :: rest) row = after rest (request.write row) := by
  have cons := lastWritten_cons request rest row
  cases written : request.written with
  | none =>
      rw [written, Option.bind_none, Option.or_none] at cons
      simp only [after, cons, Call.write, written]
  | some u =>
      rw [written, Option.bind_some] at cons
      have session := lastWritten_congr rest (update_session row u)
      simp only [after, cons, Call.write, written, session]
      cases later : lastWritten rest row with
      | none =>
          rw [Option.none_or]
          by_cases meets : row.meets (loginSession u.session) = true
          · rw [if_pos meets, row.update_of_meets _ _ meets]
          · rw [if_neg meets, Row.update, if_neg meets]
      | some v =>
          rw [Option.some_or]
          by_cases meets : row.meets (loginSession u.session) = true
          · rw [row.update_of_meets _ _ meets]
            exact (assign_assign row u v).symm
          · rw [Row.update, if_neg meets]

/-- The calls leave a row with its session. -/
theorem after_session (requests : List Call) (row : Row) :
    after requests row "loginsession".toList = row "loginsession".toList := by
  cases found : lastWritten requests row with
  | none => rw [after, found]
  | some u =>
      have meets := List.find?_some (p := fun v : UserDBStruct => row.meets (loginSession v.session)) found
      have own : row "loginsession".toList = .text u.session := (row.meets_iff _).mp meets
      rw [after, found, own]
      rfl

/-- The record in a row behind the calls: the last that was written, except for a defence
that has always been there. -/
def recordAfter (sqlite : Sqlite) (requests : List Call) (row : Row) : UserDBStruct :=
  match lastWritten requests row with
  | none => sqlite.record row
  | some u => { u with pAttack := u.pDefence, pDefence := sqlite.getInt (row "pdefence".toList) }

theorem record_after (sqlite : Sqlite) (requests : List Call) (row : Row) :
    sqlite.record (after requests row) = recordAfter sqlite requests row := by
  rw [after, recordAfter]
  cases lastWritten requests row with
  | none => rfl
  | some u => exact record_assign sqlite row u

section Calls

variable (sqlite : Sqlite) (s : Surroundings) (c : Connection)

/-- A statement of ASCII characters on the table is prepared as it is. -/
theorem binder_prepare (sql : Text) (ascii : Ascii sql) (statement : Statement)
    (parsed : Base.Sql.prepare sql = some statement) (named : statement.table = userdb) (rows : List Row)
    (table : c.db userdb = some rows) :
    Binder.prepare compileSql c sql = some (c.cursors.length, prepared c statement.program) := by
  have there : (c.db statement.table).isSome = true := by rw [named, table, Option.isSome_some]
  rw [Binder.prepare, compileSql, read_widen sql ascii, parsed, Option.bind_some, if_pos there]
  rfl

variable (rows : List Row) (table : c.db userdb = some rows)
include table

theorem update_compiled (user : UserDBStruct) (nickname : Plain user.nickname) (skill : Plain user.skill)
    (session : Plain user.session) :
    Binder.prepare compileSql c user.updateSql =
      some (c.cursors.length, prepared c
        (Statement.update userdb (given user) (loginSession user.session)).program) := by
  have parsed := prepare_updateSql user ((updateTemplate_plain user).mpr ⟨nickname.1, skill.1, session.1⟩)
  exact binder_prepare c _ (ascii_updateSql user nickname.2 skill.2 session.2) _ parsed rfl rows table

theorem update_db (user : UserDBStruct) (nickname : Plain user.nickname) (skill : Plain user.skill)
    (session : Plain user.session) :
    (update compileSql s c user).2.db =
      if s.handling || s.fault 0 then c.db else Function.update c.db userdb (some (updated user rows)) := by
  have compiled := update_compiled c rows table user nickname skill session
  have ran : (Statement.update userdb (given user) (loginSession user.session)).program s.order c.db =
      some (Function.update c.db userdb (some (updated user rows)), []) := by
    rw [Statement.program, execute, table, Option.map_some, updated]
  revert compiled ran
  generalize (Statement.update userdb (given user) (loginSession user.session)).program = program
  intro compiled ran
  cases handling : s.handling with
  | true =>
      rw [update_handling handling compiled, Bool.true_or, if_pos rfl]
      rfl
  | false =>
      rw [update_run handling compiled, Bool.false_or]
      cases failed : s.fault 0 with
      | true =>
          have stepped := prepared_step_error c program s.order
          rw [← failed] at stepped
          rw [rowLoop_error _ _ 0 () stepped, if_pos rfl]
          rfl
      | false =>
          have stepped := prepared_step c program s.order _ ran
          rw [← failed] at stepped
          rw [rowLoop_done _ _ 0 () stepped, if_neg Bool.false_ne_true]
          rfl

variable (fresh : UserDBStruct) (session : Text)

theorem getUser_found (order : RowOrder) :
    (Statement.select selected userdb (loginSession session)).program order c.db =
      some (c.db, (order.visit (rows.filter fun row => row.meets (loginSession session))).map
        fun row => selected.map row) := by
  rw [Statement.program, execute, table, Option.map_some]

variable (plain : Plain session)
include plain

theorem getUser_compiled :
    Binder.prepare compileSql c (getUserSql session) =
      some (c.cursors.length, prepared c (Statement.select selected userdb (loginSession session)).program) :=
  binder_prepare c _ (ascii_getUserSql session plain.2) _ (prepare_getUserSql session plain.1) rfl rows table

/-- GetUser changes nothing, whatever fails. -/
theorem getUser_db : (getUser compileSql sqlite s c fresh session).2.db = c.db := by
  have compiled := getUser_compiled c rows table session plain
  have found := getUser_found c rows table session s.order
  revert compiled found
  generalize (Statement.select selected userdb (loginSession session)).program = program
  intro compiled found
  have kept : (rowLoop s sqlite.callback c.cursors.length (prepared c program) 0
      { fresh with nickname := [], skill := [], session := [] }).2.2.db = c.db := by
    apply rowLoop_db
    intro other result there ran
    rw [prepared_cursor, Option.some.injEq, Cursor.ready.injEq] at there
    rw [← there] at ran
    exact congrArg Prod.fst (Option.some.inj (ran.symm.trans found))
  cases looped : rowLoop s sqlite.callback c.cursors.length (prepared c program) 0
      { fresh with nickname := [], skill := [], session := [] } with
  | mk ended rest =>
      rw [looped] at kept
      cases ended with
      | true =>
          rw [getUser_read compiled looped]
          exact kept
      | false =>
          rw [getUser_broken compiled looped]
          exact kept

/-- Where nothing fails GetUser on a connection is GetUser on its database. -/
theorem getUser_value (faultless : ∀ count, s.fault count = false) :
    (getUser compileSql sqlite s c fresh session).1 = DB.getUser
      { sqlite with order := s.order } c.db fresh session := by
  have compiled := getUser_compiled c rows table session plain
  have found := getUser_found c rows table session s.order
  revert compiled found
  generalize (Statement.select selected userdb (loginSession session)).program = program
  intro compiled found
  have looped : rowLoop s sqlite.callback _ (prepared c program) 0 _ = _ :=
    rowLoop_ready faultless (prepared c program) { fresh with nickname := [], skill := [], session := [] } program _
      (prepared_cursor c program) found
  rw [getUser_read compiled looped, getUser_eq _ _ session plain.1 rows table fresh]
  rfl

end Calls

section Runs

variable (sqlite : Sqlite)

theorem call_db (c : Connection) (rows : List Row) (table : c.db userdb = some rows) (request : Call)
    (plain : request.Plain) :
    (call compileSql sqlite c request).2.db = Function.update c.db userdb (some (rows.map request.write)) := by
  have unchanged (nothing : request.written = none) :
      Function.update c.db userdb (some (rows.map request.write)) = c.db := by
    have same : request.write = id := by
      funext row
      rw [Call.write, nothing, id]
    rw [same, List.map_id, ← table, Function.update_eq_self]
  cases request with
  | getUser s fresh session =>
      rw [unchanged rfl, call_getUser]
      simp only
      exact getUser_db sqlite s c rows table fresh session plain
  | update s user =>
      rw [call_update, update_db s c rows table user plain.1 plain.2.1 plain.2.2]
      cases dropped : s.handling || s.fault 0 with
      | true =>
          have nothing : (Call.update s user).written = none := by rw [Call.written, dropped, if_pos rfl]
          rw [if_pos rfl, unchanged nothing]
      | false =>
          have carried : (Call.update s user).written = some user := by
            rw [Call.written, dropped, if_neg Bool.false_ne_true]
          have write : (Call.update s user).write = fun row => row.update (given user) (loginSession user.session) := by
            funext row
            rw [Call.write, carried]
          rw [if_neg Bool.false_ne_true, write, updated]

/-- Behind a run each row holds what was written last for its session. -/
theorem calls_db (c : Connection) (rows : List Row) (table : c.db userdb = some rows) (requests : List Call)
    (plain : ∀ request ∈ requests, request.Plain) :
    (calls compileSql sqlite c requests).2.db = Function.update c.db userdb (some (rows.map (after requests))) := by
  induction requests generalizing c rows with
  | nil =>
      have same : after [] = id := rfl
      rw [same, List.map_id, ← table, Function.update_eq_self]
      rfl
  | cons request rest ih =>
      rw [List.forall_mem_cons] at plain
      have first := call_db sqlite c rows table request plain.1
      have there : (call compileSql sqlite c request).2.db userdb = some (rows.map request.write) := by
        rw [first, Function.update_self]
      have same : after (request :: rest) = after rest ∘ request.write := funext (after_cons request rest)
      rw [calls, ih _ _ there plain.2, first, Function.update_idem, List.map_map, same]

end Runs

/-- In every run of calls with plain strings, whatever fails in it, the table ends up with
what was written last for each session, and a GetUser in which nothing fails reads it. -/
theorem calls_last_written (sqlite : Sqlite) (c : Connection) (rows : List Row) (table : c.db userdb = some rows)
    (requests : List Call) (plain : ∀ request ∈ requests, request.Plain) :
    (calls compileSql sqlite c requests).2.db = Function.update c.db userdb (some (rows.map (after requests))) ∧
      ∀ s fresh session, (∀ count, s.fault count = false) → Plain session →
        (∃ row ∈ rows, row "loginsession".toList = .text session ∧
          (getUser compileSql sqlite s (calls compileSql sqlite c requests).2 fresh session).1 = .ok
            (recordAfter sqlite requests row)) ∨
        (∀ row ∈ rows, row "loginsession".toList ≠ .text session) ∧
          (getUser compileSql sqlite s (calls compileSql sqlite c requests).2 fresh session).1 =
            if session = [] then .ok { fresh with nickname := [], skill := [], session := [] } else .error .noUser := by
  have written := calls_db sqlite c rows table requests plain
  refine ⟨written, fun s fresh session faultless asked => ?_⟩
  have there : (calls compileSql sqlite c requests).2.db userdb = some (rows.map (after requests)) := by
    rw [written, Function.update_self]
  have value := getUser_value sqlite s (calls compileSql sqlite c requests).2 _ there fresh session asked faultless
  by_cases present : ∃ row, Matches (calls compileSql sqlite c requests).2.db session row
  · apply Or.inl
    obtain ⟨_, ⟨rows', same, member, own⟩, found⟩ :=
      getUser_of_matches { sqlite with order := s.order } _ fresh session asked.1 present
    rw [there, Option.some.injEq] at same
    rw [← same, List.mem_map] at member
    obtain ⟨row, member, rfl⟩ := member
    rw [after_session] at own
    refine ⟨row, member, own, ?_⟩
    rw [value, found, ← record_after]
    rfl
  · apply Or.inr
    constructor
    · intro row member own
      exact present ⟨after requests row, _, there, List.mem_map_of_mem member, by rw [after_session, own]⟩
    · rw [value]
      exact getUser_no_row { sqlite with order := s.order } _ fresh session asked.1 _ there present

section Heroes

def calm : Surroundings := ⟨Sqlite.exact.order, fun _ => false, false⟩

/-- An update, one that SQLite fails in and one inside a handler. -/
def heroCalls : List Call :=
  [.update calm (hero 1 7), .update { calm with fault := fun _ => true } (hero 1 9),
    .update { calm with handling := true } (hero 1 8)]

theorem calls_last_written_hero :
    (getUser compileSql .exact calm (calls compileSql .exact ⟨heroTable 2, []⟩ heroCalls).2 (hero 0 0) "1".toList).1 =
      .ok (hero 7 2) := by
  have plain : ∀ request ∈ heroCalls, request.Plain := by
    have strings (pAttack pDefence : Int32) : Plain (hero pAttack pDefence).nickname ∧
        Plain (hero pAttack pDefence).skill ∧ Plain (hero pAttack pDefence).session := by
      show Plain "hero".toList ∧ Plain "fire".toList ∧ Plain "1".toList
      decide
    simp only [heroCalls, List.forall_mem_cons]
    exact ⟨strings _ _, strings _ _, strings _ _, fun _ member => (List.not_mem_nil member).elim⟩
  have read := (calls_last_written .exact ⟨heroTable 2, []⟩ [heroRow 2] rfl heroCalls plain).2 calm (hero 0 0)
    "1".toList (fun _ => rfl) (by decide)
  rcases read with ⟨row, member, _, value⟩ | ⟨absent, _⟩
  · rw [List.mem_singleton.mp member] at value
    rw [value]
    rfl
  · exact absurd rfl (absent (heroRow 2) (List.mem_singleton_self _))

end Heroes

end DbManager

end GameServer.DB
