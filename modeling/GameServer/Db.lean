import GameServer.Base.Sql

set_option autoImplicit false

/- DbSet.h and dbmanage.cpp: the statements the server builds for a user's record, and
what they do to the database. A text has no NUL, since the statements are passed on as
C strings. -/
namespace GameServer.DB

open Base.Sql

/-- GETUSER_SQL -/
def getuserSql : Text :=
  "select Nickname, Skill, Exp, PHp, PAttack, PDefence, Level, Quest, LoginSession from UserDb where LoginSession = ".toList

/-- UPDATE_SQL -/
def updateSql : Text := "update UserDb set ".toList

/-- TABLENAME -/
def tablename : Text := "".toList

structure UserDBStruct where
  nickname : Text
  skill : Text
  exp : Int32
  pHp : Int32
  pAttack : Int32
  pDefence : Int32
  level : Int32
  quest : Int32
  session : Text
  deriving DecidableEq

/-- boost::lexical_cast<std::string>(int) -/
def lexicalCast (n : Int32) : Text :=
  if n.toInt < 0 then '-' :: Nat.toDigits 10 n.toInt.natAbs else Nat.toDigits 10 n.toInt.natAbs

def UserDBStruct.updateSql (u : UserDBStruct) : Text :=
  let ret := DB.updateSql
  let ret := ret ++ (tablename ++ "Nickname".toList ++ " = '".toList ++ u.nickname ++ "', ".toList)
  let ret := ret ++ (tablename ++ "Skill".toList ++ " = '".toList ++ u.skill ++ "', ".toList)
  let ret := ret ++ (tablename ++ "Exp".toList ++ " = ".toList ++ lexicalCast u.exp ++ ", ".toList)
  let ret := ret ++ (tablename ++ "PHp".toList ++ " = ".toList ++ lexicalCast u.pHp ++ ", ".toList)
  let ret := ret ++ (tablename ++ "PAttack".toList ++ " = ".toList ++ lexicalCast u.pDefence ++ ", ".toList)
  let ret := ret ++ (tablename ++ "Level".toList ++ " = ".toList ++ lexicalCast u.level ++ ", ".toList)
  let ret := ret ++ (tablename ++ "Quest".toList ++ " = ".toList ++ lexicalCast u.quest ++ ", ".toList)
  let ret := ret ++ (tablename ++ "LoginSession".toList ++ " = '".toList ++ u.session ++ "' ".toList)
  ret ++ ("where LoginSession = '".toList ++ u.session ++ "' ;".toList)

/-- The text GetUser builds. -/
def getUserSql (session : Text) : Text := getuserSql ++ "'".toList ++ session ++ "';".toList

/-- sqlite3_column_int and sqlite3_column_text where a column holds what they ask for;
what they make of other values is left open, as is the order of a SELECT's rows. -/
structure Sqlite where
  columnInt : Value → Int32
  columnText : Value → Text
  order : RowOrder
  columnInt_int : ∀ n : Int32, columnInt (.int n.toInt) = n
  columnText_text : ∀ value, columnText (.text value) = value

/-- A column gives 0 or an empty text for what it is not asked for. -/
def Sqlite.exact : Sqlite where
  columnInt
    | .int n => Int32.ofInt n
    | _ => 0
  columnText
    | .text value => value
    | _ => []
  order := ⟨id, fun _ => .rfl⟩
  columnInt_int n := Int32.ofInt_toInt n
  columnText_text _ := rfl

/-- What a call of DbManager throws: an error of SQLite, or GetUser's own exception. -/
inductive DbException where
  | sqlite
  | noUser
  deriving DecidableEq, Repr

namespace Sqlite

variable (sqlite : Sqlite)

/-- get_col_from_db for int -/
def getInt : Value → Int32
  | .null => 0
  | value => sqlite.columnInt value

/-- get_col_from_db for std::string -/
def getText : Value → Text
  | .null => []
  | value => sqlite.columnText value

/-- `db << sql`, and the rows `>>` gets from it. -/
def run (db : Database) (sql : Text) : Except DbException (Database × List (List Value)) :=
  (((prepare sql).bind (execute sqlite.order db)).map .ok).getD (.error .sqlite)

/-- The row callback of GetUser; a row of another width does not get to it. -/
def callback (user : UserDBStruct) : List Value → UserDBStruct
  | [nickname, skill, exp, pHp, pAttack, pDefence, level, quest, session] =>
      { nickname := sqlite.getText nickname
        skill := sqlite.getText skill
        exp := sqlite.getInt exp
        pHp := sqlite.getInt pHp
        pAttack := sqlite.getInt pAttack
        pDefence := sqlite.getInt pDefence
        level := sqlite.getInt level
        quest := sqlite.getInt quest
        session := sqlite.getText session }
  | _ => user

end Sqlite

/-- DbManager::GetUser. `fresh` is the new record: its strings are empty, its numbers
are whatever the memory held. -/
def getUser (sqlite : Sqlite) (db : Database) (fresh : UserDBStruct) (session : Text) :
    Except DbException UserDBStruct := do
  let (_, rows) ← sqlite.run db (getUserSql session)
  let user := rows.foldl sqlite.callback { fresh with nickname := [], skill := [], session := [] }
  if session ≠ user.session then throw .noUser else pure user

/-- DbManager::Update -/
def update (sqlite : Sqlite) (db : Database) (user : UserDBStruct) : Except DbException Database := do
  let (db, _) ← sqlite.run db user.updateSql
  pure db

end GameServer.DB
