import GameServer.SqliteModern

set_option autoImplicit false

/- Which statements are never finalized: `_extract` sets the pointer of its binder to null
behind the last row, and the binder then has nothing to finalize. -/
namespace GameServer.DB

open Base.Sql

/-- What `prepare` leaves where it succeeds. -/
theorem prepare_some {compile : Compiler} {c after : Connection} {sql : Text} {id : Nat}
    (prepared : Binder.prepare compile c sql = some (id, after)) :
    ∃ program, id = c.cursors.length ∧ after = { c with cursors := c.cursors ++ [some (.ready program)] } := by
  rw [Binder.prepare, Connection.prepare, Option.map_eq_some_iff] at prepared
  obtain ⟨program, _, same⟩ := prepared
  cases same
  exact ⟨program, rfl, rfl⟩

section Prepared

variable (c : Connection) (program : Program)

/-- The connection with one more statement, which has not been run yet. -/
def prepared : Connection := { c with cursors := c.cursors ++ [some (.ready program)] }

theorem prepared_cursor : (prepared c program).cursor c.cursors.length = some (.ready program) := by
  rw [prepared, Connection.cursor, List.getElem?_concat_length]
  rfl

theorem prepared_halted (more : Option Cursor) :
    (prepared c program).cursors.set c.cursors.length more = c.cursors ++ [more] := by
  rw [prepared, List.set_append_right _ _ (Nat.le_refl _), Nat.sub_self]
  rfl

theorem prepared_step_error (order : RowOrder) :
    (prepared c program).step order true c.cursors.length =
      (.error, (prepared c program).set c.cursors.length (some .halted)) := by
  rw [Connection.step, prepared_cursor]

theorem prepared_step (order : RowOrder) (result : Database × List (List Value))
    (ran : program order c.db = some result) :
    (prepared c program).step order false c.cursors.length =
      Connection.fetch { prepared c program with db := result.1 } c.cursors.length result.2 := by
  have same : program order (prepared c program).db = some result := ran
  rw [Connection.step, prepared_cursor]
  simp only [same]

variable {σ : Type} (s : Surroundings) (callback : σ → List Value → σ) (acc : σ)

theorem rowLoop_prepared (count : Nat) :
    (rowLoop s callback c.cursors.length (prepared c program) count acc).2.2.cursors = c.cursors ++ [some .halted] := by
  rw [rowLoop_cursors _ count acc _ (prepared_cursor c program) nofun, prepared_halted]

end Prepared

namespace DbManager

variable (compile : Compiler) (sqlite : Sqlite) (s : Surroundings) (c : Connection)

section Calls

variable {compile sqlite s c} {fresh user : UserDBStruct} {session : Text} {id : Nat} {ready after : Connection}

theorem getUser_read (compiled : Binder.prepare compile c (getUserSql session) = some (id, ready))
    (read : rowLoop s sqlite.callback id ready 0 { fresh with nickname := [], skill := [], session := [] } =
      (true, user, after)) :
    getUser compile sqlite s c fresh session = (if session ≠ user.session then .error .noUser else .ok user, after) := by
  unfold getUser
  simp only [compiled, Binder.extract, read, Binder.destroy, Binder.finalize, Bool.not_true, Bool.false_and,
    Bool.false_eq_true, ↓reduceIte]
  by_cases same : session = user.session
  · rw [if_neg (not_not.mpr same), if_neg (not_not.mpr same)]
  · rw [if_pos same, if_pos same]

theorem getUser_broken (compiled : Binder.prepare compile c (getUserSql session) = some (id, ready))
    (broken : rowLoop s sqlite.callback id ready 0 { fresh with nickname := [], skill := [], session := [] } =
      (false, user, after)) :
    getUser compile sqlite s c fresh session = (.error .sqlite, after.finalize id) := by
  unfold getUser
  simp only [compiled, Binder.extract, broken, Binder.destroy, Binder.finalize, Bool.not_true, Bool.false_and,
    Bool.false_eq_true, ↓reduceIte]

theorem getUser_uncompiled (nothing : Binder.prepare compile c (getUserSql session) = none) :
    getUser compile sqlite s c fresh session = (.error .sqlite, c) := by
  unfold getUser
  rw [nothing]

theorem update_uncompiled (nothing : Binder.prepare compile c user.updateSql = none) :
    update compile s c user = (.error .sqlite, c) := by
  rw [update, nothing]

/-- An update inside a handler is prepared and dropped. -/
theorem update_handling (handling : s.handling = true)
    (compiled : Binder.prepare compile c user.updateSql = some (id, ready)) :
    update compile s c user = (.ok (), ready.finalize id) := by
  simp only [update, compiled, Binder.destroy, Binder.finalize, handling, Bool.not_true, Bool.and_false,
    Bool.false_eq_true, ↓reduceIte]

theorem update_run (handling : s.handling = false)
    (compiled : Binder.prepare compile c user.updateSql = some (id, ready)) :
    update compile s c user =
      (if (rowLoop s (fun _ _ => ()) id ready 0 ()).1 then .ok () else .error .sqlite,
        (rowLoop s (fun _ _ => ()) id ready 0 ()).2.2.finalize id) := by
  simp only [update, compiled, Binder.destroy, Binder.finalize, handling, Bool.not_false, Bool.and_true, ↓reduceIte]
  rcases rowLoop s (fun _ _ => ()) id ready 0 () with ⟨ended, _, after⟩
  cases ended <;> rfl

end Calls

/-- A statement stays behind exactly when all of its rows have been read. -/
theorem getUser_cursors (fresh : UserDBStruct) (session : Text) :
    (getUser compile sqlite s c fresh session).1 = .error .sqlite ∧
        ((getUser compile sqlite s c fresh session).2.cursors = c.cursors ∨
          (getUser compile sqlite s c fresh session).2.cursors = c.cursors ++ [none]) ∨
      (getUser compile sqlite s c fresh session).1 ≠ .error .sqlite ∧
        (getUser compile sqlite s c fresh session).2.cursors = c.cursors ++ [some .halted] := by
  cases compiled : Binder.prepare compile c (getUserSql session) with
  | none =>
      rw [getUser_uncompiled compiled]
      exact Or.inl ⟨rfl, Or.inl rfl⟩
  | some opened =>
      obtain ⟨id, ready⟩ := opened
      obtain ⟨program, rfl, rfl⟩ := prepare_some compiled
      have cursors := rowLoop_prepared c program s sqlite.callback
        { fresh with nickname := [], skill := [], session := [] } 0
      rw [prepared] at cursors
      cases looped : rowLoop s sqlite.callback c.cursors.length
          { c with cursors := c.cursors ++ [some (.ready program)] } 0
          { fresh with nickname := [], skill := [], session := [] } with
      | mk ended rest =>
          obtain ⟨user, after⟩ := rest
          rw [looped] at cursors
          cases ended with
          | true =>
              rw [getUser_read compiled looped]
              apply Or.inr
              constructor
              · split <;> exact nofun
              · exact cursors
          | false =>
              rw [getUser_broken compiled looped]
              apply Or.inl
              constructor
              · rfl
              · apply Or.inr
                have dropped : after.cursors.set c.cursors.length none = c.cursors ++ [none] := by
                  rw [cursors, List.set_append_right _ _ (Nat.le_refl _), Nat.sub_self]
                  rfl
                exact dropped

theorem update_cursors (user : UserDBStruct) :
    (update compile s c user).2.cursors = c.cursors ∨ (update compile s c user).2.cursors = c.cursors ++ [none] := by
  cases compiled : Binder.prepare compile c user.updateSql with
  | none =>
      rw [update_uncompiled compiled]
      exact Or.inl rfl
  | some opened =>
      obtain ⟨id, ready⟩ := opened
      obtain ⟨program, rfl, rfl⟩ := prepare_some compiled
      apply Or.inr
      cases handling : s.handling with
      | true =>
          rw [update_handling handling compiled]
          exact prepared_halted c program none
      | false =>
          have cursors := rowLoop_prepared c program s (fun (_ : Unit) _ => ()) () 0
          rw [update_run handling compiled]
          have dropped : (c.cursors ++ [some Cursor.halted]).set c.cursors.length none = c.cursors ++ [none] := by
            rw [List.set_append_right _ _ (Nat.le_refl _), Nat.sub_self]
            rfl
          rw [← dropped, ← cursors]
          rfl

/-- Whether a call leaves its statement behind. -/
def leaves : Call → Except DbException (Option UserDBStruct) → Bool
  | .getUser .., .error .sqlite => false
  | .getUser .., _ => true
  | .update .., _ => false

theorem call_getUser (fresh : UserDBStruct) (session : Text) :
    call compile sqlite c (.getUser s fresh session) =
      ((getUser compile sqlite s c fresh session).1.map some, (getUser compile sqlite s c fresh session).2) := rfl

theorem call_update (user : UserDBStruct) :
    call compile sqlite c (.update s user) =
      ((update compile s c user).1.map fun _ => none, (update compile s c user).2) := rfl

theorem call_cursors (request : Call) :
    ∃ more, (call compile sqlite c request).2.cursors = c.cursors ++ more ∧
      (∀ cursor ∈ more, cursor = none ∨ cursor = some .halted) ∧
      more.countP Option.isSome = if leaves request (call compile sqlite c request).1 then 1 else 0 := by
  cases request with
  | update s user =>
      rw [call_update]
      have cases := update_cursors compile s c user
      revert cases
      generalize update compile s c user = result
      rintro (same | dropped)
      · exact ⟨[], by rw [List.append_nil]; exact same, fun _ member => (List.not_mem_nil member).elim, rfl⟩
      · exact ⟨[none], dropped, fun _ member => Or.inl (List.mem_singleton.mp member), rfl⟩
  | getUser s fresh session =>
      rw [call_getUser]
      have cases := getUser_cursors compile sqlite s c fresh session
      revert cases
      generalize getUser compile sqlite s c fresh session = result
      rintro (⟨failed, same | dropped⟩ | ⟨read, left⟩)
      · rw [failed]
        exact ⟨[], by rw [List.append_nil]; exact same, fun _ member => (List.not_mem_nil member).elim, rfl⟩
      · rw [failed]
        exact ⟨[none], dropped, fun _ member => Or.inl (List.mem_singleton.mp member), rfl⟩
      · refine ⟨[some .halted], left, fun _ member => Or.inr (List.mem_singleton.mp member), ?_⟩
        obtain ⟨result, after⟩ := result
        cases result with
        | ok user => rfl
        | error thrown =>
            cases thrown with
            | sqlite => exact absurd rfl read
            | noUser => rfl

/-- In every run of calls, with whatever strings and errors and whatever SQLite makes of the
texts: each GetUser that has read its
rows leaves one statement that is never finalized, no other call leaves one, and those that
are left have been run to their end. -/
theorem calls_leave (requests : List Call) :
    ∃ more, (calls compile sqlite c requests).2.cursors = c.cursors ++ more ∧
      (∀ cursor ∈ more, cursor = none ∨ cursor = some .halted) ∧
      more.countP Option.isSome = (requests.zip (calls compile sqlite c requests).1).countP fun p => leaves p.1 p.2 := by
  induction requests generalizing c with
  | nil => exact ⟨[], (List.append_nil _).symm, fun _ member => (List.not_mem_nil member).elim, rfl⟩
  | cons request rest ih =>
      obtain ⟨first, cursors, halted, count⟩ := call_cursors compile sqlite c request
      obtain ⟨later, cursors', halted', count'⟩ := ih (call compile sqlite c request).2
      use first ++ later
      refine ⟨?_, fun cursor member => ?_, ?_⟩
      · rw [calls, cursors', cursors, List.append_assoc]
      · rcases List.mem_append.mp member with here | there
        · exact halted cursor here
        · exact halted' cursor there
      · rw [List.countP_append, count, count', calls, List.zip_cons_cons, List.countP_cons, Nat.add_comm]

end DbManager

end GameServer.DB
