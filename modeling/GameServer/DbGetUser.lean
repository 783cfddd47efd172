import GameServer.DbRoundTrip

set_option autoImplicit false

/- What GetUser says of a session: an exception, or the record of a row. It tells that it
has found a row only by the session in the record. -/
namespace GameServer.DB

open Base.Sql

/-- A row of UserDb with the session. -/
def Matches (db : Database) (session : Text) (row : Row) : Prop :=
  ∃ rows, db userdb = some rows ∧ row ∈ rows ∧ row "loginsession".toList = .text session

/-- GetUser throws when nobody has the session, and otherwise gives all of somebody's
record. -/
structure Answers (sqlite : Sqlite) (db : Database) (fresh : UserDBStruct) (session : Text) : Prop where
  throws : (∃ thrown, getUser sqlite db fresh session = .error thrown) ↔ ¬ ∃ row, Matches db session row
  returns : ∀ u, getUser sqlite db fresh session = .ok u → ∃ row, Matches db session row ∧ u = sqlite.record row

section Cases

variable (sqlite : Sqlite) (db : Database) (fresh : UserDBStruct) (session : Text)

theorem answers_of_ok (row : Row) (own : Matches db session row)
    (found : getUser sqlite db fresh session = .ok (sqlite.record row)) : Answers sqlite db fresh session := by
  constructor
  · apply iff_of_false
    · intro ⟨thrown, failed⟩
      rw [found] at failed
      cases failed
    · exact fun absent => absent ⟨row, own⟩
  · intro u same
    rw [found] at same
    cases same
    exact ⟨row, own, rfl⟩

theorem answers_of_error (absent : ¬ ∃ row, Matches db session row) (thrown : DbException)
    (failed : getUser sqlite db fresh session = .error thrown) : Answers sqlite db fresh session := by
  constructor
  · exact iff_of_true ⟨thrown, failed⟩ absent
  · intro u same
    rw [failed] at same
    cases same

variable (plain : quote ∉ session)
include plain

/-- Without the table SQLite throws. -/
theorem getUser_no_table (table : db userdb = none) : getUser sqlite db fresh session = .error .sqlite := by
  rw [getUser, run_getUserSql_error sqlite db session plain table]
  rfl

/-- Of several rows the one that SQLite visits last is returned. -/
theorem getUser_of_matches (some_row : ∃ row, Matches db session row) :
    ∃ row, Matches db session row ∧ getUser sqlite db fresh session = .ok (sqlite.record row) := by
  obtain ⟨row, rows, table, member, own⟩ := some_row
  have visited := sqlite.order.perm (rows.filter fun row => row.meets (loginSession session))
  have found : row ∈ rows.filter fun row => row.meets (loginSession session) :=
    List.mem_filter.mpr ⟨member, (row.meets_iff _).mpr own⟩
  rcases List.eq_nil_or_concat (sqlite.order.visit (rows.filter fun row => row.meets (loginSession session)))
    with empty | ⟨front, last, split⟩
  · rw [← visited.mem_iff, empty] at found
    cases found
  · rw [List.concat_eq_append] at split
    have inside : last ∈ rows.filter fun row => row.meets (loginSession session) := by
      rw [← visited.mem_iff, split]
      exact List.mem_append_right _ List.mem_cons_self
    obtain ⟨of_table, meets⟩ := List.mem_filter.mp inside
    exact ⟨last, ⟨rows, table, of_table, (last.meets_iff _).mp meets⟩,
      getUser_of_last sqlite last db session plain rows table front split fresh⟩

/-- Without a row the session is compared with the empty string of the new record. -/
theorem getUser_no_row (rows : List Row) (table : db userdb = some rows) (absent : ¬ ∃ row, Matches db session row) :
    getUser sqlite db fresh session =
      if session = [] then .ok { fresh with nickname := [], skill := [], session := [] } else .error .noUser := by
  have nothing : rows.filter (fun row => row.meets (loginSession session)) = [] := by
    rw [List.filter_eq_nil_iff]
    intro row member meets
    exact absent ⟨row, rows, table, member, (row.meets_iff _).mp meets⟩
  have visited := sqlite.order.perm []
  rw [List.perm_nil] at visited
  rw [getUser_eq sqlite db session plain rows table, nothing, visited]
  exact ite_not _ _ _

end Cases

/-- GetUser tells absent sessions from present ones except that it does not miss a row
for the empty session. -/
theorem answers_iff (sqlite : Sqlite) (db : Database) (fresh : UserDBStruct) (session : Text)
    (plain : quote ∉ session) :
    Answers sqlite db fresh session ↔ session ≠ [] ∨ db userdb = none ∨ ∃ row, Matches db session row := by
  constructor
  · intro answers
    by_contra none
    push Not at none
    obtain ⟨empty, table, absent⟩ := none
    obtain ⟨rows, table⟩ := Option.ne_none_iff_exists'.mp table
    have no_row : ¬ ∃ row, Matches db session row := not_exists.mpr absent
    have returned := getUser_no_row sqlite db fresh session plain rows table no_row
    rw [if_pos empty] at returned
    obtain ⟨row, own, _⟩ := answers.returns _ returned
    exact absent row own
  · intro told
    by_cases present : ∃ row, Matches db session row
    · obtain ⟨row, own, found⟩ := getUser_of_matches sqlite db fresh session plain present
      exact answers_of_ok sqlite db fresh session row own found
    · cases table : db userdb with
      | none =>
          exact answers_of_error sqlite db fresh session present _
            (getUser_no_table sqlite db fresh session plain table)
      | some rows =>
          have missed := getUser_no_row sqlite db fresh session plain rows table present
          have named : session ≠ [] := by
            rcases told with named | no_table | row
            · exact named
            · rw [table] at no_table
              cases no_table
            · exact absurd row present
          rw [if_neg named] at missed
          exact answers_of_error sqlite db fresh session present _ missed

theorem answers_iff_hero : Answers .exact (heroTable 2) (hero 7 7) "1".toList :=
  (answers_iff .exact (heroTable 2) (hero 7 7) "1".toList (by decide)).mpr (Or.inl (by decide))

theorem heroTable_absent : ¬ ∃ row, Matches (heroTable 2) [] row := by
  intro ⟨row, rows, table, member, own⟩
  cases table
  rw [List.mem_singleton.mp member] at own
  revert own
  decide

/-- Nobody has the empty session, and GetUser returns what the new record happened to
hold. -/
theorem empty_session_returned :
    getUser .exact (heroTable 2) (hero 7 7) [] = .ok { hero 7 7 with nickname := [], skill := [], session := [] } ∧
    ¬ Answers .exact (heroTable 2) (hero 7 7) [] := by
  have returned : getUser .exact (heroTable 2) (hero 7 7) [] =
      .ok { hero 7 7 with nickname := [], skill := [], session := [] } :=
    getUser_no_row .exact (heroTable 2) (hero 7 7) [] (by decide) [heroRow 2] rfl heroTable_absent
  refine ⟨returned, fun answers => ?_⟩
  obtain ⟨row, own, _⟩ := answers.returns _ returned
  exact heroTable_absent ⟨row, own⟩

end GameServer.DB
