import GameServer.Db

set_option autoImplicit false

/- What SQLite makes of the statements: their scan, their tokens and the commands they
are compiled to, when no value has a quote in it. -/
namespace GameServer.DB

open Base.Sql

/-- GETUSER_SQL with the session behind it. -/
def getTemplate (session : Text) : Template := ⟨getuserSql, [(session, ";".toList)]⟩

/-- `column = value, ` for a number, up to the next column's name. -/
def numberClause (column : Text) (n : Int32) : Text := column ++ " = ".toList ++ lexicalCast n ++ ", ".toList

def updateTemplate (u : UserDBStruct) : Template :=
  ⟨DB.updateSql ++ "Nickname".toList ++ " = ".toList,
    [(u.nickname, ", ".toList ++ "Skill".toList ++ " = ".toList),
      (u.skill, ", ".toList ++ numberClause "Exp".toList u.exp ++ numberClause "PHp".toList u.pHp ++
        numberClause "PAttack".toList u.pDefence ++ numberClause "Level".toList u.level ++
        numberClause "Quest".toList u.quest ++ "LoginSession".toList ++ " = ".toList),
      (u.session, " ".toList ++ "where LoginSession = ".toList),
      (u.session, " ;".toList)]⟩

theorem getUserSql_eq (session : Text) : getUserSql session = (getTemplate session).render := by
  have opening : "'".toList = [quote] := rfl
  have closing : "';".toList = quote :: ";".toList := rfl
  simp only [getUserSql, getTemplate, Template.render, opening, closing, List.flatMap_cons, List.flatMap_nil,
    List.append_nil, List.append_assoc, List.cons_append, List.nil_append]

theorem updateSql_eq (u : UserDBStruct) : u.updateSql = (updateTemplate u).render := by
  have opening : " = '".toList = " = ".toList ++ [quote] := rfl
  have closing : "', ".toList = quote :: ", ".toList := rfl
  have last : "' ".toList = quote :: " ".toList := rfl
  have whereOpening : "where LoginSession = '".toList = "where LoginSession = ".toList ++ [quote] := rfl
  have ending : "' ;".toList = quote :: " ;".toList := rfl
  have table : tablename = [] := rfl
  simp only [UserDBStruct.updateSql, updateTemplate, numberClause, Template.render, opening, closing, last,
    whereOpening, ending, table, List.flatMap_cons, List.flatMap_nil, List.append_nil, List.append_assoc,
    List.cons_append, List.nil_append]

theorem quote_notMem_lexicalCast (n : Int32) : quote ∉ lexicalCast n := by
  have digits (k : Nat) : quote ∉ Nat.toDigits 10 k := by
    intro member
    have digit := Nat.isDigit_of_mem_toDigits (by decide) (by decide) member
    revert digit
    decide
  unfold lexicalCast
  split
  · rw [List.mem_cons, not_or]
    exact ⟨by decide, digits _⟩
  · exact digits _

theorem quote_notMem_numberClause (column : Text) (n : Int32) (plain : quote ∉ column) :
    quote ∉ numberClause column n := by
  have cast := quote_notMem_lexicalCast n
  simp only [numberClause, List.mem_append, not_or]
  exact ⟨⟨⟨plain, by decide⟩, cast⟩, by decide⟩

theorem getTemplate_fixed (session : Text) : (getTemplate session).Fixed := by
  have first : quote ∉ getuserSql := by decide +kernel
  have last : quote ∉ ";".toList ∧ ";".toList ≠ [] := by decide
  refine ⟨first, fun value member => ?_⟩
  rw [List.mem_singleton.mp member]
  exact last

theorem updateTemplate_fixed (u : UserDBStruct) : (updateTemplate u).Fixed := by
  have first : quote ∉ DB.updateSql ++ "Nickname".toList ++ " = ".toList := by decide
  refine ⟨first, ?_⟩
  have numbers (column : Text) (n : Int32) (plain : quote ∉ column) := quote_notMem_numberClause column n plain
  simp only [updateTemplate, List.forall_mem_cons, List.mem_append, not_or]
  refine ⟨⟨by decide, by decide⟩, ⟨?_, by simp⟩, ⟨by decide, by decide⟩, ⟨by decide, by decide⟩,
    fun _ member => by cases member⟩
  refine ⟨⟨⟨⟨⟨⟨⟨by decide, ?_⟩, ?_⟩, ?_⟩, ?_⟩, ?_⟩, by decide⟩, by decide⟩ <;> exact numbers _ _ (by decide)

/-- The tokens of a printed number. -/
def numberTokens (n : Int32) : List Token :=
  if n.toInt < 0 then [.symbol '-', .number n.toInt.natAbs] else [.number n.toInt.natAbs]

theorem signs_numberTokens (n : Int32) (rest : List Token) :
    signs (numberTokens n ++ rest) = .number n.toInt :: signs rest := by
  unfold numberTokens
  split
  · rename_i negative
    have same : -(n.toInt.natAbs : Int) = n.toInt := by omega
    simp only [List.cons_append, List.nil_append, signs, same]
  · rename_i positive
    have same : (n.toInt.natAbs : Int) = n.toInt := by omega
    simp only [List.cons_append, List.nil_append, signs, same]

theorem lexes_number (n : Int32) :
    Lexes ((lexicalCast n ++ ", ".toList).map .char) (numberTokens n ++ [.symbol ',']) := by
  have space : Lexes [.char ' '] [] := Lexes.of_eq rfl
  have minus : Lexes [.char '-'] [.symbol '-'] := Lexes.of_eq rfl
  have digits := Lexes.number n.toInt.natAbs ',' rfl rfl space
  have separator : ", ".toList.map Item.char = [.char ',', .char ' '] := rfl
  unfold lexicalCast numberTokens
  rw [List.map_append, separator]
  split
  · exact minus.append digits
  · exact digits

def clauseTokens (column : Text) (n : Int32) : List Token :=
  .word column :: .symbol '=' :: (numberTokens n ++ [.symbol ','])

/-- A column's name and ` = `, read with the number and the comma behind it. -/
theorem lexes_numberClause (column : Text) (n : Int32)
    (name : Lexes ((column ++ " = ".toList).map .char) [.word column, .symbol '=']) :
    Lexes ((numberClause column n).map .char) (clauseTokens column n) := by
  rw [numberClause, List.append_assoc, List.map_append]
  exact name.append (lexes_number n)

/-- What UpdateSql assigns, column by column. -/
def given (u : UserDBStruct) : List (Text × Value) :=
  [("nickname".toList, .text u.nickname), ("skill".toList, .text u.skill), ("exp".toList, .int u.exp.toInt),
    ("php".toList, .int u.pHp.toInt), ("pattack".toList, .int u.pDefence.toInt),
    ("level".toList, .int u.level.toInt), ("quest".toList, .int u.quest.toInt),
    ("loginsession".toList, .text u.session)]

def loginSession (session : Text) : Text × Value := ("loginsession".toList, .text session)

def userdb : Text := "userdb".toList

/-- The columns GetUser reads, in the order of its callback's parameters. -/
def selected : List Text :=
  ["nickname".toList, "skill".toList, "exp".toList, "php".toList, "pattack".toList, "pdefence".toList,
    "level".toList, "quest".toList, "loginsession".toList]

def updateTokens (u : UserDBStruct) : List Token := List.flatten
  [[.word "update".toList, .word "UserDb".toList, .word "set".toList, .word "Nickname".toList, .symbol '=',
      .text u.nickname, .symbol ',', .word "Skill".toList, .symbol '=', .text u.skill, .symbol ','],
    clauseTokens "Exp".toList u.exp, clauseTokens "PHp".toList u.pHp, clauseTokens "PAttack".toList u.pDefence,
    clauseTokens "Level".toList u.level, clauseTokens "Quest".toList u.quest,
    [.word "LoginSession".toList, .symbol '=', .text u.session, .word "where".toList, .word "LoginSession".toList,
      .symbol '=', .text u.session, .symbol ';']]

theorem lexes_updateTemplate (u : UserDBStruct) : Lexes (updateTemplate u).items (updateTokens u) := by
  have first : Lexes ((DB.updateSql ++ "Nickname".toList ++ " = ".toList).map .char)
      [.word "update".toList, .word "UserDb".toList, .word "set".toList, .word "Nickname".toList, .symbol '='] :=
    Lexes.of_eq rfl
  have skill : Lexes ((", ".toList ++ "Skill".toList ++ " = ".toList).map .char)
      [.symbol ',', .word "Skill".toList, .symbol '='] := Lexes.of_eq rfl
  have comma : Lexes (", ".toList.map .char) [.symbol ','] := Lexes.of_eq rfl
  have exp := lexes_numberClause "Exp".toList u.exp (Lexes.of_eq rfl)
  have pHp := lexes_numberClause "PHp".toList u.pHp (Lexes.of_eq rfl)
  have pAttack := lexes_numberClause "PAttack".toList u.pDefence (Lexes.of_eq rfl)
  have level := lexes_numberClause "Level".toList u.level (Lexes.of_eq rfl)
  have quest := lexes_numberClause "Quest".toList u.quest (Lexes.of_eq rfl)
  have login : Lexes (("LoginSession".toList ++ " = ".toList).map .char)
      [.word "LoginSession".toList, .symbol '='] := Lexes.of_eq rfl
  have key : Lexes ((" ".toList ++ "where LoginSession = ".toList).map .char)
      [.word "where".toList, .word "LoginSession".toList, .symbol '='] := Lexes.of_eq rfl
  have ending : Lexes (" ;".toList.map .char) [.symbol ';'] := Lexes.of_eq rfl
  have numbers := (((((comma.append exp).append pHp).append pAttack).append level).append quest).append login
  have whole := first.append ((skill.append
    ((numbers.append ((key.append (ending.literal u.session)).literal u.session)).literal u.skill)).literal u.nickname)
  simpa only [updateTemplate, Template.items, updateTokens, List.flatMap_cons, List.flatMap_nil, List.map_append,
    List.append_assoc, List.cons_append, List.nil_append, List.append_nil, List.flatten_cons, List.flatten_nil]
    using whole

theorem parse_updateTokens (u : UserDBStruct) :
    parse (signs (updateTokens u)) = some (.update userdb (given u) (loginSession u.session)) := by
  have signed : signs (updateTokens u) =
      [.word "update".toList, .word "UserDb".toList, .word "set".toList, .word "Nickname".toList, .symbol '=',
        .text u.nickname, .symbol ',', .word "Skill".toList, .symbol '=', .text u.skill, .symbol ',',
        .word "Exp".toList, .symbol '=', .number u.exp.toInt, .symbol ',',
        .word "PHp".toList, .symbol '=', .number u.pHp.toInt, .symbol ',',
        .word "PAttack".toList, .symbol '=', .number u.pDefence.toInt, .symbol ',',
        .word "Level".toList, .symbol '=', .number u.level.toInt, .symbol ',',
        .word "Quest".toList, .symbol '=', .number u.quest.toInt, .symbol ',',
        .word "LoginSession".toList, .symbol '=', .text u.session,
        .word "where".toList, .word "LoginSession".toList, .symbol '=', .text u.session, .symbol ';'] := by
    simp [updateTokens, clauseTokens, signs, signs_numberTokens]
  rw [signed]
  rfl

theorem prepare_updateSql (u : UserDBStruct) (plain : ∀ value ∈ (updateTemplate u).values, quote ∉ value.1) :
    prepare u.updateSql = some (.update userdb (given u) (loginSession u.session)) := by
  have scanned := (Template.scan_render_iff _ (updateTemplate_fixed u)).mpr plain
  rw [prepare, updateSql_eq, scanned, (lexes_updateTemplate u).tokens, parse_updateTokens]

def getuserTokens : List Token :=
  [.word "select".toList, .word "Nickname".toList, .symbol ',', .word "Skill".toList, .symbol ',',
    .word "Exp".toList, .symbol ',', .word "PHp".toList, .symbol ',', .word "PAttack".toList, .symbol ',',
    .word "PDefence".toList, .symbol ',', .word "Level".toList, .symbol ',', .word "Quest".toList, .symbol ',',
    .word "LoginSession".toList, .word "from".toList, .word "UserDb".toList, .word "where".toList,
    .word "LoginSession".toList, .symbol '=']

def getTokens (session : Text) : List Token := getuserTokens ++ [.text session, .symbol ';']

theorem lexes_getTemplate (session : Text) : Lexes (getTemplate session).items (getTokens session) := by
  have front : Lexes (getuserSql.map .char) getuserTokens := Lexes.of_eq (by decide +kernel)
  have ending : Lexes (";".toList.map .char) [.symbol ';'] := Lexes.of_eq rfl
  have whole := front.append (ending.literal session)
  simpa only [getTemplate, getTokens, Template.items, List.flatMap_cons, List.flatMap_nil, List.append_nil] using whole

theorem prepare_getUserSql (session : Text) (plain : quote ∉ session) :
    prepare (getUserSql session) = some (.select selected userdb (loginSession session)) := by
  have scanned := (Template.scan_render_iff _ (getTemplate_fixed session)).mpr
    (fun value member => by rw [List.mem_singleton.mp member]; exact plain)
  have signed : signs (getTokens session) = getTokens session := rfl
  rw [prepare, getUserSql_eq, scanned, (lexes_getTemplate session).tokens, signed]
  rfl

end GameServer.DB
