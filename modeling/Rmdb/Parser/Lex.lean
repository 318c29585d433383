import Rmdb.Common.Defs
import Rmdb.Lib.Pattern
import Rmdb.System.Schema

/-!
# The scanner

The rules of `lex.l`: a pattern and an action each. At every place of the text the scanner takes
the rule that matches most, the first of them if there are several, among the rules of its
start condition; `STATE_COMMENT` is exclusive. The scanner's globals are the start condition,
`scanner_int_out_of_range` and `scanner_last_type`. Locations, which only go to `std::cerr`, are
left out.

A text is a list of bytes. `atof`, a function of the C library, is a parameter: a float is a
bit pattern here.
-/

namespace Rmdb.Parser

open Lib
open Pattern (opt plus munch IsFirstLongest)

/-- The tokens, under the names that `yacc.y` gives them. -/
inductive Token where
  | SHOW | TABLES | CREATE | TABLE | DROP | DESC | INSERT | INTO | VALUES | DELETE | FROM | ASC | ORDER | BY | LIMIT | AS
  | WHERE | UPDATE | SET | SELECT | INT | CHAR | FLOAT | INDEX | AND | JOIN | EXIT | HELP
  | TXN_BEGIN | TXN_COMMIT | TXN_ABORT | TXN_ROLLBACK | COUNT | MAX | MIN | SUM | LEQ | NEQ | GEQ | T_EOF
  /-- `IDENTIFIER`. -/
  | IDENTIFIER (svStr : String)
  /-- `VALUE_STRING`. -/
  | VALUE_STRING (svStr : Bytes)
  /-- `VALUE_INT`. -/
  | VALUE_INT (svInt : Int64)
  /-- `VALUE_FLOAT`. -/
  | VALUE_FLOAT (svFloat : ℕ)
  /-- A token of one character. -/
  | op (c : Char)
deriving DecidableEq

/-- The start conditions. -/
inductive StartCondition where
  /-- `INITIAL`. -/
  | initial
  /-- `STATE_COMMENT`. -/
  | comment
deriving DecidableEq

/-- The globals of the scanner. -/
structure Scanner where
  /-- The start condition. -/
  start : StartCondition
  /-- `scanner_int_out_of_range`. -/
  intOutOfRange : Bool
  /-- `scanner_last_type`. -/
  lastType : SvType
deriving DecidableEq

/-- What a rule does with the text it has matched. -/
inductive Action where
  /-- Nothing. -/
  | ignore
  /-- `BEGIN`. -/
  | begin (start : StartCondition)
  /-- A token without a value. -/
  | token (t : Token)
  /-- `yytext[0]`. -/
  | singleOp
  /-- The name of a type, which sets `scanner_last_type`. -/
  | type (type : SvType) (t : Token)
  /-- An identifier. -/
  | identifier
  /-- An integer. -/
  | valueInt
  /-- A float. -/
  | valueFloat
  /-- A string. -/
  | valueString
deriving DecidableEq

/-! ### Patterns -/

/-- A byte as a character. -/
def letter (b : UInt8) : Char := Char.ofNat b.toNat

/-- A text as a string. -/
def string (text : Bytes) : String := String.ofList (text.map letter)

/-- A string as a text. -/
def bytes (s : String) : Bytes := s.toList.map fun c => UInt8.ofNat c.toNat

/-- A class of characters. -/
def cls (p : Char → Bool) : Pattern UInt8 := .one fun b => p (letter b)

/-- A character. -/
def chr (c : Char) : Pattern UInt8 := cls (· = c)

/-- A literal; the scanner is caseless. -/
def lit (s : String) : Pattern UInt8 := s.toList.foldr (fun c p => .seq (cls fun d => d.toLower = c.toLower) p) .empty

/-- `alpha`. -/
def alpha : Pattern UInt8 := cls Char.isAlpha

/-- `digit`. -/
def digit : Pattern UInt8 := cls Char.isDigit

/-- `white_space`. -/
def whiteSpace : Pattern UInt8 := plus (cls fun c => c = ' ' || c = '\t')

/-- `new_line`. -/
def newLine : Pattern UInt8 := .alt (chr '\r') (.alt (chr '\n') (.seq (chr '\r') (chr '\n')))

/-- `sign`. -/
def sign : Pattern UInt8 := .alt (chr '+') (chr '-')

/-- `identifier`. -/
def identifierPattern : Pattern UInt8 := .seq alpha (.star (.alt (chr '_') (.alt alpha digit)))

/-- `value_int`. -/
def valueIntPattern : Pattern UInt8 := .seq (opt sign) (plus digit)

/-- `value_float`. -/
def valueFloatPattern : Pattern UInt8 := .seq (opt sign) (.seq (plus digit) (.seq (chr '.') (opt (plus digit))))

/-- `value_string`. -/
def valueStringPattern : Pattern UInt8 := .seq (chr '\'') (.seq (.star (cls (· ≠ '\''))) (chr '\''))

/-- `single_op`. -/
def singleOp : Pattern UInt8 := cls fun c => c ∈ [';', '(', ')', ',', '*', '=', '>', '<', '.']

/-- `.`: any character but the new line. -/
def dot : Pattern UInt8 := cls (· ≠ '\n')

/-! ### Rules -/

/-- The keywords. -/
def keywords : List (String × Action) :=
  [("SHOW", .token .SHOW), ("BEGIN", .token .TXN_BEGIN), ("COMMIT", .token .TXN_COMMIT), ("ABORT", .token .TXN_ABORT),
   ("ROLLBACK", .token .TXN_ROLLBACK), ("TABLES", .token .TABLES), ("CREATE", .token .CREATE), ("TABLE", .token .TABLE),
   ("DROP", .token .DROP), ("DESC", .token .DESC), ("INSERT", .token .INSERT), ("INTO", .token .INTO),
   ("VALUES", .token .VALUES), ("DELETE", .token .DELETE), ("FROM", .token .FROM), ("WHERE", .token .WHERE),
   ("UPDATE", .token .UPDATE), ("SET", .token .SET), ("SELECT", .token .SELECT), ("INT", .type .int .INT),
   ("BIGINT", .type .bigint .INT), ("CHAR", .type .string .CHAR), ("FLOAT", .type .float .FLOAT),
   ("DATETIME", .type .datetime .FLOAT), ("INDEX", .token .INDEX), ("AND", .token .AND), ("JOIN", .token .JOIN),
   ("EXIT", .token .EXIT), ("HELP", .token .HELP), ("ORDER", .token .ORDER), ("BY", .token .BY), ("ASC", .token .ASC),
   ("LIMIT", .token .LIMIT), ("AS", .token .AS), ("COUNT", .token .COUNT), ("MAX", .token .MAX), ("MIN", .token .MIN),
   ("SUM", .token .SUM)]

/-- The rules without a start condition. -/
def initialRules : List (Pattern UInt8 × Action) :=
  [(lit "/*", .begin .comment), (.seq (lit "--") (.star dot), .ignore), (whiteSpace, .ignore), (newLine, .ignore)] ++
  keywords.map (fun keyword => (lit keyword.1, keyword.2)) ++
  [(lit ">=", .token .GEQ), (lit "<=", .token .LEQ), (lit "<>", .token .NEQ), (singleOp, .singleOp),
   (identifierPattern, .identifier), (valueIntPattern, .valueInt), (valueFloatPattern, .valueFloat),
   (valueStringPattern, .valueString), (dot, .ignore)]

/-- The rules of `STATE_COMMENT`. -/
def commentRules : List (Pattern UInt8 × Action) :=
  [(lit "*/", .begin .initial), (cls (· ≠ '*'), .ignore), (chr '*', .ignore)]

/-- The rules of a start condition. -/
def rules : StartCondition → List (Pattern UInt8 × Action)
  | .initial => initialRules
  | .comment => commentRules

/-! ### Scanning -/

/-- The digits of a number. -/
def digits (text : Bytes) : ℕ := (text.filter fun b => (letter b).isDigit).foldl (fun n b => 10 * n + (b.toNat - '0'.toNat)) 0

/-- The number that a text stands for. -/
def number (text : Bytes) : ℤ := if text.head?.map letter = some '-' then -(digits text : ℤ) else digits text

/-- `strtoll`, which stops at the ends of its range, and whether it has set `ERANGE`. -/
def strtoll (text : Bytes) : Int64 × Bool :=
  if number text < Int64.minValue.toInt then (Int64.minValue, true)
  else if Int64.maxValue.toInt < number text then (Int64.maxValue, true)
  else (Int64.ofInt (number text), false)

section Scan

variable (atof : Bytes → ℕ)

/-- An action: the token it returns, if any, and the globals after it. -/
def Action.run (text : Bytes) (sc : Scanner) : Action → Option Token × Scanner
  | .ignore => (none, sc)
  | .begin start => (none, { sc with start := start })
  | .token t => (some t, sc)
  | .singleOp => (some (.op (letter (text.headD 0))), sc)
  | .type svType t => (some t, { sc with lastType := svType })
  | .identifier => (some (.IDENTIFIER (string text)), sc)
  | .valueInt =>
    let (parsed, erange) := strtoll text
    (some (.VALUE_INT parsed), if erange then { sc with intOutOfRange := true } else sc)
  | .valueFloat => (some (.VALUE_FLOAT (atof text)), sc)
  | .valueString => (some (.VALUE_STRING ((text.drop 1).take (text.length - 2))), sc)

/-- `yylex`: the next token, the globals and the rest of the text; `skip` bytes are left of the text that has been matched
last. A character that no rule matches is echoed. The rule for the end of the text is for every start condition. -/
def yylex (sc : Scanner) : ℕ → Bytes → Token × Scanner × Bytes
  | _, [] => (.T_EOF, sc, [])
  | skip + 1, _ :: text => yylex sc skip text
  | 0, c :: text =>
    match munch (rules sc.start) c text with
    | none => yylex sc 0 text
    | some (action, n) =>
      match action.run atof (c :: text.take n) sc with
      | (some t, sc') => (t, sc', text.drop n)
      | (none, sc') => yylex sc' n text

/-! ### What the scanner does -/

variable {atof} {sc sc' : Scanner} {c : UInt8} {text : Bytes} {action : Action} {t : Token} {n : ℕ}

/-- An action that returns a token leaves the start condition alone. -/
theorem Action.run_start (h : action.run atof text sc = (some t, sc')) : sc'.start = sc.start := by
  cases action with
  | ignore => cases h
  | begin => cases h
  | token | singleOp | type | identifier | valueFloat | valueString =>
    cases h
    rfl
  | valueInt =>
    simp only [run] at h
    split at h <;> cases h <;> rfl

/-- The token that is written in an action. -/
def Action.written : Action → Option Token
  | .token t => some t
  | .type _ t => some t
  | _ => none

variable (atof) in
/-- An action returns the end of the text only if it is written there. -/
theorem Action.run_ne_eof (text : Bytes) (sc : Scanner) (h : action.written ≠ some .T_EOF) :
    (action.run atof text sc).1 ≠ some .T_EOF := by
  cases action with
  | ignore | begin => exact nofun
  | token | type => exact h
  | singleOp | identifier | valueInt | valueFloat | valueString => exact nofun

theorem matches_one {p : UInt8 → Bool} (h : p c = true) : Pattern.Matches (.one p) ((c :: text).take (0 + 1)) := .one h

/-- Every character has a rule. -/
theorem exists_rule (start : StartCondition) (c : UInt8) (text : Bytes) :
    ∃ rule ∈ rules start, Pattern.Matches rule.1 ((c :: text).take (0 + 1)) := by
  cases start with
  | initial =>
    by_cases hline : letter c = '\n'
    · refine ⟨(newLine, .ignore), List.mem_append_left _ (List.mem_append_left _ (by simp)), ?_⟩
      exact .altRight (.altLeft (matches_one (decide_eq_true hline)))
    · refine ⟨(dot, .ignore), List.mem_append_right _ (by simp), ?_⟩
      exact matches_one (decide_eq_true hline)
  | comment =>
    by_cases hstar : letter c = '*'
    · exact ⟨(chr '*', .ignore), by simp [rules, commentRules], matches_one (decide_eq_true hstar)⟩
    · exact ⟨(cls (· ≠ '*'), .ignore), by simp [rules, commentRules], matches_one (decide_eq_true hstar)⟩

variable (atof) in
/-- **A step of the scanner**: of the rules that match most, the first; its token, or the next step. -/
theorem yylex_cons (sc : Scanner) (c : UInt8) (text : Bytes) : ∃ action n, IsFirstLongest (rules sc.start) c text action n ∧
    (∀ t sc', action.run atof (c :: text.take n) sc = (some t, sc') → yylex atof sc 0 (c :: text) = (t, sc', text.drop n)) ∧
    ∀ sc', action.run atof (c :: text.take n) sc = (none, sc') → yylex atof sc 0 (c :: text) = yylex atof sc' n text := by
  obtain ⟨rule, hrule, hmatch⟩ := exists_rule sc.start c text
  obtain ⟨action, n, hmunch, -⟩ := Pattern.le_munch hrule (Nat.zero_le _) hmatch
  refine ⟨action, n, Pattern.munch_first hmunch, fun t sc' hrun => ?_, fun sc' hrun => ?_⟩ <;>
    simp only [yylex, hmunch, hrun]

variable (atof) in
/-- The rules of a comment return no token. -/
theorem run_comment (text : Bytes) (sc : Scanner) (h : action ∈ (rules .comment).map (·.2)) :
    (action.run atof text sc).1 = none := by
  have hcases : action = .begin .initial ∨ action = .ignore := by simpa [rules, commentRules] using h
  rcases hcases with rfl | rfl <;> rfl

theorem rules_ne_eof (start : StartCondition) (h : action ∈ (rules start).map (·.2)) : action.written ≠ some .T_EOF := by
  have hall : ((rules start).map (·.2)).all (·.written ≠ some .T_EOF) = true := by cases start <;> rfl
  exact of_decide_eq_true (List.all_eq_true.mp hall action h)

/-- In a comment the scanner returns only when the text has ended. -/
theorem yylex_comment : ∀ {text : Bytes} {sc : Scanner} {skip : ℕ}, (yylex atof sc skip text).2.1.start = .comment →
    (yylex atof sc skip text).1 = .T_EOF
  | [], _, _, _ => rfl
  | _ :: text, sc, skip + 1, h => @yylex_comment text sc skip h
  | c :: text, sc, 0, h => by
    obtain ⟨action, n, hfirst, htoken, hnext⟩ := yylex_cons atof sc c text
    rcases hrun : action.run atof (c :: text.take n) sc with ⟨_ | t, sc'⟩
    · rw [hnext sc' hrun] at h ⊢
      exact yylex_comment h
    · rw [htoken t sc' hrun] at h
      have hstart : sc.start = .comment := (Action.run_start hrun).symm.trans h
      have hnone := run_comment atof (c :: text.take n) sc (hstart ▸ hfirst.mem)
      rw [hrun] at hnone
      cases hnone

/-- The end of the text is returned when nothing is left of it. -/
theorem yylex_eof : ∀ {text : Bytes} {sc : Scanner} {skip : ℕ}, (yylex atof sc skip text).1 = .T_EOF →
    (yylex atof sc skip text).2.2 = []
  | [], _, _, _ => rfl
  | _ :: text, sc, skip + 1, h => @yylex_eof text sc skip h
  | c :: text, sc, 0, h => by
    obtain ⟨action, n, hfirst, htoken, hnext⟩ := yylex_cons atof sc c text
    rcases hrun : action.run atof (c :: text.take n) sc with ⟨_ | t, sc'⟩
    · rw [hnext sc' hrun] at h ⊢
      exact yylex_eof h
    · rw [htoken t sc' hrun] at h
      have hne := Action.run_ne_eof atof (c :: text.take n) sc (rules_ne_eof sc.start hfirst.mem)
      rw [hrun] at hne
      exact absurd (congrArg some h) hne

/-- A token takes something of the text. -/
theorem length_yylex : ∀ {text : Bytes} {sc : Scanner} {skip : ℕ}, (yylex atof sc skip text).1 ≠ .T_EOF →
    (yylex atof sc skip text).2.2.length < text.length
  | [], _, _, h => absurd rfl h
  | _ :: text, sc, skip + 1, h => Nat.lt_succ_of_lt (@length_yylex text sc skip h)
  | c :: text, sc, 0, h => by
    obtain ⟨action, n, -, htoken, hnext⟩ := yylex_cons atof sc c text
    rcases hrun : action.run atof (c :: text.take n) sc with ⟨_ | t, sc'⟩
    · rw [hnext sc' hrun] at h ⊢
      exact Nat.lt_succ_of_lt (length_yylex h)
    · rw [htoken t sc' hrun, List.length_drop, List.length_cons]
      omega

end Scan

end Rmdb.Parser
