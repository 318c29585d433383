import Rmdb.Analyze.Clause
import Rmdb.Lib.Triple
import Rmdb.Parser.Lex

/-!
# The parser

The grammar of `yacc.y`, read from left to right with one token of lookahead. `yylex` is called
when a token is needed: the parser stops at the `;` of a statement, or at the first token that
cannot follow, and does not read on. A list in the grammar is left-recursive; here it is a loop,
whose rounds each take a token (`sepBy_rounds`).
-/

namespace Rmdb.Parser

open Lib
open Catalog (Field TypeSyntax)
open Analyze (BinaryExpr SvRhs SvValue)

/-! ### The syntax tree -/

/-- `AggFuncType`. -/
inductive AggFuncType where
  /-- `AGG_COUNT`. -/
  | count
  /-- `AGG_MAX`. -/
  | max
  /-- `AGG_MIN`. -/
  | min
  /-- `AGG_SUM`. -/
  | sum
deriving DecidableEq

/-- A column of a `SELECT`. -/
inductive SelectCol where
  /-- `Col`. -/
  | col (c : TabCol)
  /-- `AggFunc`; `COUNT(*)` has no column. -/
  | aggFunc (funcType : AggFuncType) (col : Option TabCol) (aliasName : String) (isStar : Bool)
deriving DecidableEq

/-- `OrderByDir`. -/
inductive OrderByDir where
  /-- `OrderBy_DEFAULT`. -/
  | default
  /-- `OrderBy_ASC`. -/
  | asc
  /-- `OrderBy_DESC`. -/
  | desc
deriving DecidableEq

/-- `OrderByItem`. -/
structure OrderByItem where
  /-- `cols`. -/
  cols : TabCol
  /-- `orderby_dir`. -/
  orderbyDir : OrderByDir
deriving DecidableEq

/-- `SetClause`. -/
structure SetClause where
  /-- `col_name`. -/
  colName : String
  /-- `val`. -/
  val : SvValue

/-- `TreeNode`: a statement. -/
inductive TreeNode where
  /-- `Help`. -/
  | help
  /-- `ShowTables`. -/
  | showTables
  /-- `ShowIndex`. -/
  | showIndex (tabName : String)
  /-- `TxnBegin`. -/
  | txnBegin
  /-- `TxnCommit`. -/
  | txnCommit
  /-- `TxnAbort`. -/
  | txnAbort
  /-- `TxnRollback`. -/
  | txnRollback
  /-- `CreateTable`. -/
  | createTable (tabName : String) (fields : List Field)
  /-- `DropTable`. -/
  | dropTable (tabName : String)
  /-- `DescTable`. -/
  | descTable (tabName : String)
  /-- `CreateIndex`. -/
  | createIndex (tabName : String) (colNames : List String)
  /-- `DropIndex`. -/
  | dropIndex (tabName : String) (colNames : List String)
  /-- `InsertStmt`. -/
  | insertStmt (tabName : String) (vals : List SvValue)
  /-- `DeleteStmt`. -/
  | deleteStmt (tabName : String) (conds : List BinaryExpr)
  /-- `UpdateStmt`. -/
  | updateStmt (tabName : String) (setClauses : List SetClause) (conds : List BinaryExpr)
  /-- `SelectStmt`; the limit is narrowed to `int`, and `-1` stands for none. -/
  | selectStmt (cols : List SelectCol) (tabs : List String) (conds : List BinaryExpr) (order : Option (List OrderByItem))
      (limit : Int32)

/-! ### Reading tokens -/

/-- Where the parser is. -/
structure Input where
  /-- The globals of the scanner. -/
  scanner : Scanner
  /-- What is left of the text. -/
  text : Bytes
  /-- `yychar`, if it has been read. -/
  yychar : Option Token
  /-- The tokens that have been read, the last first, each with the start condition after it. -/
  read : List (Token × StartCondition)

/-- A parser; it throws at a syntax error. -/
abbrev Parse := EStateM Unit Input

section Grammar

variable (atof : Bytes → ℕ)

/-- The next token, which is read if it has not been. -/
def peek : Parse Token := fun s =>
  match s.yychar with
  | some t => .ok t s
  | none =>
    let (t, scanner, text) := yylex atof s.scanner 0 s.text
    .ok t ⟨scanner, text, some t, (t, scanner.start) :: s.read⟩

/-- The token is taken. -/
def shift : Parse Unit := modify fun s => { s with yychar := none }

/-- A token of a kind that has to follow, with its value. -/
def take {α : Type} (f : Token → Option α) : Parse α := do
  let t ← peek atof
  match f t with
  | some a => do
    shift
    pure a
  | none => throw ()

/-- The alternative that begins with the next token, or else the last one, which begins in another way. -/
def choose {α : Type} (alternatives : List (Token × Parse α)) (other : Parse α) : Parse α := do
  let t ← peek atof
  match alternatives.find? (·.1 = t) with
  | some alternative => do
    shift
    alternative.2
  | none => other

/-- A list with separators, read in at most that many rounds. -/
def sepBy {α : Type} (elem : Parse α) (isSep : Token → Bool) : ℕ → Parse (List α)
  | 0 => throw ()
  | rounds + 1 => do
    let a ← elem
    let t ← peek atof
    if isSep t then do
      shift
      let as ← sepBy elem isSep rounds
      pure (a :: as)
    else pure [a]

/-- What is left to read, in bytes; a token that has been read, but not taken, counts for one. -/
def Input.size (s : Input) : ℕ := s.text.length + if s.yychar = none ∨ s.yychar = some .T_EOF then 0 else 1

/-- A list. There are no more rounds than bytes. -/
def listOf {α : Type} (elem : Parse α) (isSep : Token → Bool) : Parse (List α) := do
  let s ← get
  sepBy atof elem isSep (s.size + 1)

/-! ### The grammar -/

/-- A token without a value. -/
def expect (t : Token) : Parse Unit := take atof fun t' => if t' = t then some () else none

/-- `IDENTIFIER`. -/
def identifier : Parse String := take atof fun
  | .IDENTIFIER name => some name
  | _ => none

/-- `VALUE_INT`. -/
def valueInt : Parse Int64 := take atof fun
  | .VALUE_INT n => some n
  | _ => none

/-- `tbName`. -/
def tbName : Parse String := identifier atof

/-- `colName`. -/
def colName : Parse String := identifier atof

/-- The separator of most lists. -/
def isComma (t : Token) : Bool := t = .op ','

/-- `type`. -/
def typeSyntax : Parse TypeSyntax := choose atof
  [(.INT, do
      let s ← get
      pure (if s.scanner.lastType = .bigint then .bigint else .int)),
   (.CHAR, do
      expect atof (.op '(')
      let len ← valueInt atof
      expect atof (.op ')')
      pure (.char len)),
   (.FLOAT, do
      let s ← get
      pure (if s.scanner.lastType = .datetime then .datetime else .float))]
  (throw ())

/-- `field`. -/
def field : Parse Field := do
  let name ← colName atof
  let type ← typeSyntax atof
  pure ⟨name, type⟩

/-- `value`. -/
def value : Parse SvValue := take atof fun
  | .VALUE_INT n => some (.intLit n.toInt)
  | .VALUE_FLOAT bits => some (.floatLit bits)
  | .VALUE_STRING s => some (.stringLit s)
  | _ => none

/-- `col`. -/
def col : Parse TabCol := do
  let name ← identifier atof
  choose atof
    [(.op '.', do
        let colName ← colName atof
        pure ⟨name, colName⟩)]
    (pure ⟨"", name⟩)

/-- `op`. -/
def compOp : Parse CompOp := take atof fun
  | .op '=' => some .eq
  | .op '<' => some .lt
  | .op '>' => some .gt
  | .NEQ => some .ne
  | .LEQ => some .le
  | .GEQ => some .ge
  | _ => none

/-- Can a `col` begin with the token? -/
def isIdentifier : Token → Bool
  | .IDENTIFIER _ => true
  | _ => false

/-- `expr`. -/
def expr : Parse SvRhs := do
  let t ← peek atof
  if isIdentifier t then do
    let c ← col atof
    pure (.col c)
  else do
    let v ← value atof
    pure (.val v)

/-- `condition`. -/
def condition : Parse BinaryExpr := do
  let lhs ← col atof
  let op ← compOp atof
  let rhs ← expr atof
  pure ⟨lhs, op, rhs⟩

/-- `optWhereClause`, with `whereClause`. -/
def optWhereClause : Parse (List BinaryExpr) := choose atof
  [(.WHERE, listOf atof (condition atof) (· = .AND))]
  (pure [])

/-- `setClause`. -/
def setClause : Parse SetClause := do
  let name ← colName atof
  expect atof (.op '=')
  let val ← value atof
  pure ⟨name, val⟩

/-- An aggregate, after its opening bracket and what is inside. -/
def closeAgg (funcType : AggFuncType) (c : Option TabCol) : Parse (List SelectCol) := do
  expect atof (.op ')')
  expect atof .AS
  let name ← colName atof
  pure [.aggFunc funcType c name c.isNone]

/-- `MAX`, `MIN` or `SUM`, after the keyword. -/
def aggFunc (funcType : AggFuncType) : Parse (List SelectCol) := do
  expect atof (.op '(')
  let c ← col atof
  closeAgg atof funcType (some c)

/-- `COUNT`, after the keyword: of the rows, with or without the star, or of a column. -/
def countFunc : Parse (List SelectCol) := do
  expect atof (.op '(')
  choose atof
    [(.op '*', closeAgg atof .count none),
     (.op ')', do
        expect atof .AS
        let name ← colName atof
        pure [.aggFunc .count none name true])]
    (do
      let c ← col atof
      closeAgg atof .count (some c))

/-- `selector`, with `colList`. -/
def selector : Parse (List SelectCol) := choose atof
  [(.op '*', pure []), (.COUNT, countFunc atof), (.MAX, aggFunc atof .max), (.MIN, aggFunc atof .min),
   (.SUM, aggFunc atof .sum)]
  (do
    let cols ← listOf atof (col atof) isComma
    pure (cols.map .col))

/-- `opt_asc_desc`. -/
def optAscDesc : Parse OrderByDir := choose atof [(.ASC, pure .asc), (.DESC, pure .desc)] (pure .default)

/-- `order_item`. -/
def orderItem : Parse OrderByItem := do
  let c ← col atof
  let dir ← optAscDesc atof
  pure ⟨c, dir⟩

/-- `opt_order_clause`, with `order_clause`. -/
def optOrderClause : Parse (Option (List OrderByItem)) := choose atof
  [(.ORDER, do
      expect atof .BY
      let items ← listOf atof (orderItem atof) isComma
      pure (some items))]
  (pure none)

/-- `opt_limit_clause`, narrowed to `int`. -/
def optLimitClause : Parse Int32 := choose atof
  [(.LIMIT, do
      let n ← valueInt atof
      pure n.toInt32)]
  (pure (-1))

/-- `tbName '(' colNameList ')'`. -/
def indexCols (tree : String → List String → TreeNode) : Parse TreeNode := do
  let tab ← tbName atof
  expect atof (.op '(')
  let cols ← listOf atof (colName atof) isComma
  expect atof (.op ')')
  pure (tree tab cols)

/-- `tbName` at the end of a statement. -/
def lastTbName (tree : String → TreeNode) : Parse TreeNode := do
  let tab ← tbName atof
  pure (tree tab)

/-- `dbStmt`, after `SHOW`. -/
def showStmt : Parse TreeNode := choose atof
  [(.TABLES, pure .showTables),
   (.INDEX, do
      expect atof .FROM
      lastTbName atof .showIndex)]
  (throw ())

/-- `ddl`, after `CREATE`. -/
def createStmt : Parse TreeNode := choose atof
  [(.TABLE, do
      let tab ← tbName atof
      expect atof (.op '(')
      let fields ← listOf atof (field atof) isComma
      expect atof (.op ')')
      pure (.createTable tab fields)),
   (.INDEX, indexCols atof .createIndex)]
  (throw ())

/-- `ddl`, after `DROP`. -/
def dropStmt : Parse TreeNode := choose atof
  [(.TABLE, lastTbName atof .dropTable), (.INDEX, indexCols atof .dropIndex)]
  (throw ())

/-- `dml`, after `INSERT`. -/
def insertStmt : Parse TreeNode := do
  expect atof .INTO
  let tab ← tbName atof
  expect atof .VALUES
  expect atof (.op '(')
  let vals ← listOf atof (value atof) isComma
  expect atof (.op ')')
  pure (.insertStmt tab vals)

/-- `dml`, after `DELETE`. -/
def deleteStmt : Parse TreeNode := do
  expect atof .FROM
  let tab ← tbName atof
  let conds ← optWhereClause atof
  pure (.deleteStmt tab conds)

/-- `dml`, after `UPDATE`. -/
def updateStmt : Parse TreeNode := do
  let tab ← tbName atof
  expect atof .SET
  let setClauses ← listOf atof (setClause atof) isComma
  let conds ← optWhereClause atof
  pure (.updateStmt tab setClauses conds)

/-- `dml`, after `SELECT`. -/
def selectStmt : Parse TreeNode := do
  let cols ← selector atof
  expect atof .FROM
  let tabs ← listOf atof (tbName atof) fun t => t = .op ',' || t = .JOIN
  let conds ← optWhereClause atof
  let order ← optOrderClause atof
  let limit ← optLimitClause atof
  pure (.selectStmt cols tabs conds order limit)

/-- `stmt`. -/
def stmt : Parse TreeNode := choose atof
  [(.TXN_BEGIN, pure .txnBegin), (.TXN_COMMIT, pure .txnCommit), (.TXN_ABORT, pure .txnAbort),
   (.TXN_ROLLBACK, pure .txnRollback), (.SHOW, showStmt atof), (.CREATE, createStmt atof), (.DROP, dropStmt atof),
   (.DESC, lastTbName atof .descTable), (.INSERT, insertStmt atof), (.DELETE, deleteStmt atof),
   (.UPDATE, updateStmt atof), (.SELECT, selectStmt atof)]
  (throw ())

/-- `start`; `EXIT` and the end of the text give no tree. -/
def start : Parse (Option TreeNode) := choose atof
  [(.HELP, pure (some .help)), (.EXIT, pure none), (.T_EOF, pure none)]
  (do
    let tree ← stmt atof
    expect atof (.op ';')
    pure (some tree))

/-- `yyparse`. -/
def yyparse (scanner : Scanner) (text : Bytes) : EStateM.Result Unit Input (Option TreeNode) :=
  start atof ⟨scanner, text, none, []⟩

end Grammar

/-! ### The parser moves token by token -/

section Steps

variable {atof : Bytes → ℕ} {α β : Type} {s s' : Input} {t : Token}

/-- A token is read, or taken. -/
inductive Step (atof : Bytes → ℕ) : Input → Input → Prop where
  /-- `yylex` is called. -/
  | read {s : Input} : s.yychar = none → Step atof s
      ⟨(yylex atof s.scanner 0 s.text).2.1, (yylex atof s.scanner 0 s.text).2.2, some (yylex atof s.scanner 0 s.text).1,
        ((yylex atof s.scanner 0 s.text).1, (yylex atof s.scanner 0 s.text).2.1.start) :: s.read⟩
  /-- The token is taken. -/
  | shift {s : Input} : Step atof s { s with yychar := none }

variable (atof) in
/-- The next token has been read, or is read now. -/
theorem peek_eq (s : Input) : (∃ t, s.yychar = some t ∧ peek atof s = .ok t s) ∨
    ∃ s', Step atof s s' ∧ s'.yychar = some (yylex atof s.scanner 0 s.text).1 ∧
      peek atof s = .ok (yylex atof s.scanner 0 s.text).1 s' := by
  rcases hchar : s.yychar with _ | t
  · refine .inr ⟨_, .read hchar, rfl, ?_⟩
    simp only [peek, hchar]
  · refine .inl ⟨t, rfl, ?_⟩
    simp only [peek, hchar]

theorem along_peek : Along (Step atof) (peek atof) := by
  intro s
  rcases peek_eq atof s with ⟨t, -, h⟩ | ⟨s', hstep, -, h⟩
  · rw [h]
    exact .refl
  · rw [h]
    exact .single hstep

theorem along_shift : Along (Step atof) shift := fun _ => .single .shift

theorem along_take (f : Token → Option α) : Along (Step atof) (take atof f) := by
  refine along_peek.bind ?_
  intro t
  split
  · exact along_shift.bind fun _ => .pure _
  · exact .throw _

theorem along_choose {alternatives : List (Token × Parse α)} {other : Parse α}
    (h : ∀ alternative ∈ alternatives, Along (Step atof) alternative.2) (hother : Along (Step atof) other) :
    Along (Step atof) (choose atof alternatives other) := by
  refine along_peek.bind ?_
  intro t
  split
  next alternative hfind => exact along_shift.bind fun _ => h alternative (List.mem_of_find?_eq_some hfind)
  next => exact hother

theorem along_sepBy {elem : Parse α} (h : Along (Step atof) elem) (isSep : Token → Bool) :
    ∀ rounds, Along (Step atof) (sepBy atof elem isSep rounds)
  | 0 => .throw _
  | rounds + 1 => by
    refine h.bind fun a => along_peek.bind ?_
    intro t
    split
    · exact along_shift.bind fun _ => (along_sepBy h isSep rounds).bind fun _ => .pure _
    · exact .pure _

theorem along_listOf {elem : Parse α} (h : Along (Step atof) elem) (isSep : Token → Bool) :
    Along (Step atof) (listOf atof elem isSep) := .get_bind fun _ => along_sepBy h isSep _

theorem along_expect (t : Token) : Along (Step atof) (expect atof t) := along_take _

theorem along_identifier : Along (Step atof) (identifier atof) := along_take _

theorem along_valueInt : Along (Step atof) (valueInt atof) := along_take _

theorem along_value : Along (Step atof) (value atof) := along_take _

theorem along_typeSyntax : Along (Step atof) (typeSyntax atof) := by
  refine along_choose ?_ (.throw _)
  simp only [List.forall_mem_cons]
  exact ⟨.get_bind fun _ => .pure _, (along_expect _).bind fun _ => along_valueInt.bind fun _ => (along_expect _).bind fun _ =>
    .pure _, .get_bind fun _ => .pure _, List.forall_mem_nil _⟩

theorem along_field : Along (Step atof) (field atof) := along_identifier.bind fun _ => along_typeSyntax.bind fun _ => .pure _

/-- A column, after the first name. -/
theorem along_dot (name : String) : Along (Step atof) (choose atof
    [(.op '.', do
        let colName ← colName atof
        pure ⟨name, colName⟩)]
    (pure (⟨"", name⟩ : TabCol))) := by
  refine along_choose ?_ (.pure _)
  simp only [List.forall_mem_cons]
  exact ⟨along_identifier.bind fun _ => .pure _, List.forall_mem_nil _⟩

theorem along_col : Along (Step atof) (col atof) := along_identifier.bind along_dot

theorem along_expr : Along (Step atof) (expr atof) := by
  refine along_peek.bind ?_
  intro t
  split
  · exact along_col.bind fun _ => .pure _
  · exact along_value.bind fun _ => .pure _

theorem along_condition : Along (Step atof) (condition atof) :=
  along_col.bind fun _ => (along_take _).bind fun _ => along_expr.bind fun _ => .pure _

theorem along_optWhereClause : Along (Step atof) (optWhereClause atof) := by
  refine along_choose ?_ (.pure _)
  simp only [List.forall_mem_cons]
  exact ⟨along_listOf along_condition _, List.forall_mem_nil _⟩

theorem along_setClause : Along (Step atof) (setClause atof) :=
  along_identifier.bind fun _ => (along_expect _).bind fun _ => along_value.bind fun _ => .pure _

theorem along_closeAgg (funcType : AggFuncType) (c : Option TabCol) : Along (Step atof) (closeAgg atof funcType c) :=
  (along_expect _).bind fun _ => (along_expect _).bind fun _ => along_identifier.bind fun _ => .pure _

theorem along_aggFunc (funcType : AggFuncType) : Along (Step atof) (aggFunc atof funcType) :=
  (along_expect _).bind fun _ => along_col.bind fun _ => along_closeAgg _ _

theorem along_countFunc : Along (Step atof) (countFunc atof) := by
  refine (along_expect _).bind fun _ => along_choose ?_ (along_col.bind fun _ => along_closeAgg _ _)
  simp only [List.forall_mem_cons]
  exact ⟨along_closeAgg _ _, (along_expect _).bind fun _ => along_identifier.bind fun _ => .pure _, List.forall_mem_nil _⟩

theorem along_selector : Along (Step atof) (selector atof) := by
  refine along_choose ?_ ((along_listOf along_col _).bind fun _ => .pure _)
  simp only [List.forall_mem_cons]
  exact ⟨.pure _, along_countFunc, along_aggFunc _, along_aggFunc _, along_aggFunc _, List.forall_mem_nil _⟩

theorem along_optAscDesc : Along (Step atof) (optAscDesc atof) := by
  refine along_choose ?_ (.pure _)
  simp only [List.forall_mem_cons]
  exact ⟨.pure _, .pure _, List.forall_mem_nil _⟩

theorem along_orderItem : Along (Step atof) (orderItem atof) := along_col.bind fun _ => along_optAscDesc.bind fun _ => .pure _

theorem along_optOrderClause : Along (Step atof) (optOrderClause atof) := by
  refine along_choose ?_ (.pure _)
  simp only [List.forall_mem_cons]
  exact ⟨(along_expect _).bind fun _ => (along_listOf along_orderItem _).bind fun _ => .pure _, List.forall_mem_nil _⟩

theorem along_optLimitClause : Along (Step atof) (optLimitClause atof) := by
  refine along_choose ?_ (.pure _)
  simp only [List.forall_mem_cons]
  exact ⟨along_valueInt.bind fun _ => .pure _, List.forall_mem_nil _⟩

theorem along_lastTbName (tree : String → TreeNode) : Along (Step atof) (lastTbName atof tree) :=
  along_identifier.bind fun _ => .pure _

/-- A list in brackets after the name of a table. -/
theorem along_bracketed {elem : Parse α} (h : Along (Step atof) elem) {f : String → List α → Parse TreeNode}
    (hf : ∀ tab as, Along (Step atof) (f tab as)) : Along (Step atof) (do
      let tab ← tbName atof
      expect atof (.op '(')
      let as ← listOf atof elem isComma
      expect atof (.op ')')
      f tab as) :=
  along_identifier.bind fun _ => (along_expect _).bind fun _ => (along_listOf h _).bind fun _ => (along_expect _).bind fun _ =>
    hf _ _

theorem along_indexCols (tree : String → List String → TreeNode) : Along (Step atof) (indexCols atof tree) :=
  along_bracketed along_identifier fun _ _ => .pure _

theorem along_showStmt : Along (Step atof) (showStmt atof) := by
  refine along_choose ?_ (.throw _)
  simp only [List.forall_mem_cons]
  exact ⟨.pure _, (along_expect _).bind fun _ => along_lastTbName _, List.forall_mem_nil _⟩

theorem along_createStmt : Along (Step atof) (createStmt atof) := by
  refine along_choose ?_ (.throw _)
  simp only [List.forall_mem_cons]
  exact ⟨along_bracketed along_field fun _ _ => .pure _, along_indexCols _, List.forall_mem_nil _⟩

theorem along_dropStmt : Along (Step atof) (dropStmt atof) := by
  refine along_choose ?_ (.throw _)
  simp only [List.forall_mem_cons]
  exact ⟨along_lastTbName _, along_indexCols _, List.forall_mem_nil _⟩

theorem along_insertStmt : Along (Step atof) (insertStmt atof) :=
  (along_expect _).bind fun _ => along_identifier.bind fun _ => (along_expect _).bind fun _ => (along_expect _).bind fun _ =>
    (along_listOf along_value _).bind fun _ => (along_expect _).bind fun _ => .pure _

theorem along_deleteStmt : Along (Step atof) (deleteStmt atof) :=
  (along_expect _).bind fun _ => along_identifier.bind fun _ => along_optWhereClause.bind fun _ => .pure _

theorem along_updateStmt : Along (Step atof) (updateStmt atof) :=
  along_identifier.bind fun _ => (along_expect _).bind fun _ => (along_listOf along_setClause _).bind fun _ =>
    along_optWhereClause.bind fun _ => .pure _

theorem along_selectStmt : Along (Step atof) (selectStmt atof) :=
  along_selector.bind fun _ => (along_expect _).bind fun _ => (along_listOf along_identifier _).bind fun _ =>
    along_optWhereClause.bind fun _ => along_optOrderClause.bind fun _ => along_optLimitClause.bind fun _ => .pure _

theorem along_stmt : Along (Step atof) (stmt atof) := by
  refine along_choose ?_ (.throw _)
  simp only [List.forall_mem_cons]
  exact ⟨.pure _, .pure _, .pure _, .pure _, along_showStmt, along_createStmt, along_dropStmt, along_lastTbName _,
    along_insertStmt, along_deleteStmt, along_updateStmt, along_selectStmt, List.forall_mem_nil _⟩

/-- **The parser** moves token by token. -/
theorem along_start : Along (Step atof) (start atof) := by
  refine along_choose ?_ (along_stmt.bind fun _ => (along_expect _).bind fun _ => .pure _)
  simp only [List.forall_mem_cons]
  exact ⟨.pure _, .pure _, .pure _, List.forall_mem_nil _⟩

/-! ### The loops -/

theorem Input.size_of_taken (h : s.yychar = none) : s.size = s.text.length := by rw [size, if_pos (.inl h), Nat.add_zero]

theorem Input.size_of_eof (h : s.yychar = some .T_EOF) : s.size = s.text.length := by
  rw [size, if_pos (.inr h), Nat.add_zero]

theorem Input.size_of_token (h : s.yychar = some t) (ht : t ≠ .T_EOF) : s.size = s.text.length + 1 := by
  rw [size, if_neg]
  rintro (hnone | heof)
  · rw [h] at hnone
    cases hnone
  · exact ht (Option.some.inj (h.symm.trans heof))

/-- A step leaves no more to read. -/
theorem Step.size (h : Step atof s s') : s'.size ≤ s.size := by
  cases h with
  | read hchar =>
    rw [Input.size_of_taken hchar]
    by_cases heof : (yylex atof s.scanner 0 s.text).1 = .T_EOF
    · rw [Input.size_of_eof (congrArg some heof), yylex_eof heof]
      exact Nat.zero_le _
    · rw [Input.size_of_token rfl heof]
      exact length_yylex heof
  | shift =>
    rw [Input.size_of_taken rfl, Input.size]
    exact Nat.le_add_right _ _

theorem Along.size {x : Parse α} (hx : Along (Step atof) x) {a : α} (h : x s = .ok a s') : s'.size ≤ s.size := by
  have hends := hx.holds (P := (·.size ≤ s.size)) (fun _ _ hstep hle => hstep.size.trans hle) (le_refl s.size)
  rwa [h] at hends

/-- A parser that takes something, if it does not throw. -/
def Takes (x : Parse α) : Prop := ∀ s a s', x s = .ok a s' → s'.size < s.size

/-- A token is there after `peek`. -/
theorem peek_yychar (h : peek atof s = .ok t s') : s'.yychar = some t := by
  rcases peek_eq atof s with ⟨t', hchar, hpeek⟩ | ⟨s₁, -, hchar, hpeek⟩ <;> rw [h] at hpeek <;> cases hpeek <;> exact hchar

/-- A token that is not the end is taken. -/
theorem size_shift (ht : t ≠ .T_EOF) (hpeek : peek atof s = .ok t s') : { s' with yychar := none }.size < s.size := by
  have hle := Along.size along_peek hpeek
  rw [Input.size_of_token (peek_yychar hpeek) ht] at hle
  exact Nat.lt_of_succ_le hle

theorem takes_take {f : Token → Option α} (heof : f .T_EOF = none) : Takes (take atof f) := by
  intro s a s' h
  obtain ⟨t, s₁, hpeek, h⟩ := of_bind_ok h
  rcases hf : f t with _ | b
  · rw [hf] at h
    cases h
  · rw [hf] at h
    cases h
    refine size_shift ?_ hpeek
    rintro rfl
    rw [heof] at hf
    cases hf

theorem Takes.bind {x : Parse α} {f : α → Parse β} (hx : Takes x) (hf : ∀ a, Along (Step atof) (f a)) : Takes (x >>= f) := by
  intro s b s' h
  obtain ⟨a, s₁, ha, hb⟩ := of_bind_ok h
  exact (Along.size (hf a) hb).trans_lt (hx s a s₁ ha)

/-- **A list** has no more elements than there are rounds: with one more round the same is read. -/
theorem sepBy_rounds {elem : Parse α} (htakes : Takes elem) (isSep : Token → Bool) :
    ∀ {rounds : ℕ} {s : Input}, s.size < rounds → sepBy atof elem isSep (rounds + 1) s = sepBy atof elem isSep rounds s
  | rounds + 1, s, hlt => by
    rw [sepBy, sepBy.eq_2 atof elem isSep rounds]
    rcases helem : elem s with ⟨a, s₁⟩ | ⟨e, s₁⟩
    · obtain ⟨t, s₂, hpeek⟩ : ∃ t s₂, peek atof s₁ = .ok t s₂ := by
        rcases peek_eq atof s₁ with ⟨t, -, h⟩ | ⟨s₂, -, -, h⟩
        · exact ⟨t, s₁, h⟩
        · exact ⟨_, s₂, h⟩
      rw [bind_of_ok helem, bind_of_ok helem, bind_of_ok hpeek, bind_of_ok hpeek]
      split
      · have hshift : shift s₂ = .ok () { s₂ with yychar := none } := rfl
        have hsize : { s₂ with yychar := none }.size < s.size :=
          ((@Step.shift atof s₂).size.trans (Along.size along_peek hpeek)).trans_lt (htakes s a s₁ helem)
        have ih := sepBy_rounds htakes isSep (hsize.trans_le (Nat.le_of_lt_succ hlt))
        rw [bind_of_ok hshift, bind_of_ok hshift]
        exact bind_of_eq ih
      · rfl
    · rw [bind_of_error helem, bind_of_error helem]

/-- A list ends by itself, not for want of rounds. -/
theorem listOf_eq {elem : Parse α} (htakes : Takes elem) (isSep : Token → Bool) (s : Input) (more : ℕ) :
    sepBy atof elem isSep (s.size + 1 + more) s = listOf atof elem isSep s := by
  induction more with
  | zero => rfl
  | succ more ih =>
    rw [← ih]
    exact sepBy_rounds htakes isSep (Nat.lt_of_lt_of_le (Nat.lt_succ_self s.size) (Nat.le_add_right _ more))

/-- What the lists of the grammar are made of takes something. -/
theorem takes_elements : Takes (field atof) ∧ Takes (colName atof) ∧ Takes (value atof) ∧ Takes (condition atof) ∧
    Takes (setClause atof) ∧ Takes (col atof) ∧ Takes (tbName atof) ∧ Takes (orderItem atof) := by
  have hname : Takes (identifier atof) := takes_take rfl
  have hcol : Takes (col atof) := hname.bind along_dot
  refine ⟨?_, hname, takes_take rfl, ?_, ?_, hcol, hname, ?_⟩
  · exact hname.bind fun _ => along_typeSyntax.bind fun _ => .pure _
  · exact hcol.bind fun _ => (along_take _).bind fun _ => along_expr.bind fun _ => .pure _
  · exact hname.bind fun _ => (along_expect _).bind fun _ => along_value.bind fun _ => .pure _
  · exact hcol.bind fun _ => along_optAscDesc.bind fun _ => .pure _

end Steps

end Rmdb.Parser
