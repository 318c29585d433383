import Rmdb.Parser.Yacc
import Mathlib.Data.List.Induction

/-!
# Requests

What `client_handler` does with a request before it analyzes it. The scanner and its globals are
shared by all clients, one request at a time; before each `scanner_int_out_of_range` and
`scanner_last_type` are set back and `yy_scan_string` replaces the text. The start condition is
not set back, and the rule for the end of the text does not leave `STATE_COMMENT`: a request that
ends inside a comment leaves the next one inside it (`requests_independent_iff`).
-/

namespace Rmdb.Parser

open Lib

/-- How scanning and parsing a request ends. -/
structure Outcome where
  /-- The tokens that the parser has been given, the last first. -/
  tokens : List Token
  /-- The tree, which may be none, or a parse error. -/
  parse : Option (Option TreeNode)
  /-- `scanner_int_out_of_range`. -/
  intOutOfRange : Bool

/-- The scanner as the server starts. -/
def Scanner.fresh : Scanner := ⟨.initial, false, .int⟩

/-- A request as a string: it ends at its first zero byte. -/
def cString (request : Bytes) : Bytes := request.takeWhile (· ≠ 0)

/-- The requests that `client_handler` answers itself: it compares them with `strcmp`. -/
def isCommand (request : Bytes) : Bool :=
  cString request = bytes "exit" || cString request = bytes "safe_exit" || cString request = bytes "crash"

section Requests

variable (atof : Bytes → ℕ)

/-- The call of `yyparse` for a request. -/
def parseRequest (sc : Scanner) (request : Bytes) : EStateM.Result Unit Input (Option TreeNode) :=
  yyparse atof { sc with intOutOfRange := false, lastType := .int } (cString request)

/-- Where the parser has stopped. -/
def stopped : EStateM.Result Unit Input (Option TreeNode) → Input
  | .ok _ s => s
  | .error _ s => s

/-- What the parser has found. -/
def found : EStateM.Result Unit Input (Option TreeNode) → Option (Option TreeNode)
  | .ok tree _ => some tree
  | .error _ _ => none

/-- The outcome of a request. -/
def outcome (sc : Scanner) (request : Bytes) : Option Outcome :=
  if isCommand request then none
  else
    let out := parseRequest atof sc request
    some ⟨(stopped out).read.map (·.1), found out, (stopped out).scanner.intOutOfRange⟩

/-- The globals of the scanner after a request. -/
def handleRequest (sc : Scanner) (request : Bytes) : Scanner :=
  if isCommand request then sc else (stopped (parseRequest atof sc request)).scanner

/-- The globals of the scanner after a sequence of requests, of whatever clients. -/
def serve (history : List Bytes) : Scanner := history.foldl (handleRequest atof) .fresh

/-- The end of the request is found inside a comment, when the request is the first: the rule for the end of the text is
applied in `STATE_COMMENT`. -/
def EndsInComment (request : Bytes) : Prop :=
  isCommand request = false ∧ (.T_EOF, .comment) ∈ (stopped (parseRequest atof .fresh request)).read

variable {sc sc' : Scanner} {s s' : Input} {request : Bytes}

/-! ### One request -/

/-- The scanner is in a comment exactly if the end of the text has been found there. -/
structure Tracked (s : Input) : Prop where
  comment : s.scanner.start = .comment → (.T_EOF, .comment) ∈ s.read
  eof : (.T_EOF, .comment) ∈ s.read → s.scanner.start = .comment ∧ s.text = []

variable {atof} in
theorem Tracked.step (hstep : Step atof s s') (h : Tracked s) : Tracked s' := by
  cases hstep with
  | read =>
    constructor
    · intro hstart
      have heof := yylex_comment hstart
      exact List.mem_cons.mpr (.inl (Prod.ext heof.symm hstart.symm))
    · intro hmem
      rcases List.mem_cons.mp hmem with heq | hmem
      · obtain ⟨heof, hstart⟩ := Prod.mk.inj heq
        exact ⟨hstart.symm, yylex_eof heof.symm⟩
      · -- the text has ended before
        obtain ⟨hstart, htext⟩ := h.eof hmem
        rw [htext]
        exact ⟨hstart, rfl⟩
  | shift => exact ⟨h.comment, h.eof⟩

theorem tracked_stopped (hinitial : sc.start = .initial) (text : Bytes) : Tracked (stopped (yyparse atof sc text)) := by
  have hbegin : Tracked ⟨sc, text, none, []⟩ :=
    ⟨fun h => absurd (hinitial.symm.trans h) (by decide), fun h => absurd h List.not_mem_nil⟩
  have hstep : ∀ s s', Step atof s s' → Tracked s → Tracked s' := fun _ _ => Tracked.step
  have h := along_start.holds hstep hbegin
  unfold yyparse
  rcases hout : start atof ⟨sc, text, none, []⟩ with ⟨tree, s⟩ | ⟨e, s⟩ <;> rw [hout] at h <;> exact h

/-- Of the globals only the start condition is seen by a request. -/
theorem parseRequest_congr (h : sc.start = sc'.start) (request : Bytes) :
    parseRequest atof sc request = parseRequest atof sc' request := by
  unfold parseRequest
  rw [h]

/-- **After a request** the scanner is in a comment exactly if the request has ended inside one. -/
theorem start_handleRequest (hinitial : sc.start = .initial) : (handleRequest atof sc request).start = .comment ↔
    EndsInComment atof request := by
  have hfresh : sc.start = Scanner.fresh.start := hinitial
  rw [handleRequest, EndsInComment, parseRequest_congr atof hfresh]
  split
  next hcommand =>
    refine iff_of_false (fun h => absurd (hinitial.symm.trans h) (by decide)) ?_
    intro h
    rw [hcommand] at h
    cases h.1
  next hcommand =>
    have hbegin : { Scanner.fresh with intOutOfRange := false, lastType := .int }.start = .initial := rfl
    have htracked := tracked_stopped atof hbegin (cString request)
    exact ⟨fun h => ⟨Bool.eq_false_of_not_eq_true hcommand, htracked.comment h⟩, fun h => (htracked.eof h.2).1⟩

/-- The outcome depends on the start condition only. -/
theorem outcome_congr (h : sc.start = sc'.start) (request : Bytes) : outcome atof sc request = outcome atof sc' request := by
  rw [outcome, outcome, parseRequest_congr atof h]

/-- In a comment `help` is not found. -/
theorem outcome_help_ne (h : sc.start = .comment) : outcome atof sc (bytes "help") ≠ outcome atof .fresh (bytes "help") := by
  have hcomment : sc.start = (⟨.comment, false, .int⟩ : Scanner).start := h
  rw [outcome_congr atof hcomment]
  intro heq
  have hparse := congrArg (Option.map Outcome.parse) heq
  have hleft : (outcome atof ⟨.comment, false, .int⟩ (bytes "help")).map Outcome.parse = some (some none) := rfl
  have hright : (outcome atof .fresh (bytes "help")).map Outcome.parse = some (some (some .help)) := rfl
  rw [hleft, hright] at hparse
  cases hparse

/-! ### Many requests -/

theorem serve_append (history : List Bytes) (request : Bytes) :
    serve atof (history ++ [request]) = handleRequest atof (serve atof history) request := List.foldl_concat ..

theorem serve_initial {history : List Bytes} (h : ∀ request ∈ history, ¬ EndsInComment atof request) :
    (serve atof history).start = .initial := by
  induction history using List.reverseRecOn with
  | nil => rfl
  | append_singleton history request ih =>
    have hinitial := ih fun r hr => h r (List.mem_append_left _ hr)
    have hnot := h request (List.mem_append_right _ List.mem_cons_self)
    rw [serve_append]
    rcases hcase : (handleRequest atof (serve atof history) request).start with _ | _
    · rfl
    · exact absurd ((start_handleRequest atof hinitial).mp hcase) hnot

/-- **Requests are independent** of the requests before them, in every state that a history goes through, exactly if no
request of the history ends inside a comment. -/
theorem requests_independent_iff (history : List Bytes) :
    (∀ before, before <+: history → ∀ request, outcome atof (serve atof before) request = outcome atof .fresh request) ↔
      ∀ request ∈ history, ¬ EndsInComment atof request := by
  constructor
  · intro h request hmem
    have hinitial : ∀ before, before <+: history → (serve atof before).start = .initial := fun before hbefore => by
      rcases hcase : (serve atof before).start with _ | _
      · rfl
      · exact absurd (h before hbefore _) (outcome_help_ne atof hcase)
    obtain ⟨before, after, rfl⟩ := List.append_of_mem hmem
    have hends := @start_handleRequest atof _ request (hinitial before (List.prefix_append _ _))
    rw [← hends, ← serve_append, hinitial (before ++ [request]) ⟨after, by simp⟩]
    exact StartCondition.noConfusion
  · intro h before hbefore request
    exact outcome_congr atof (serve_initial atof fun r hr => h r (hbefore.subset hr)) request

/-- After a request that opens a comment, `help` gets no answer. -/
theorem requests_not_independent :
    outcome (fun _ => 0) (serve (fun _ => 0) [bytes "/*"]) (bytes "help") ≠ outcome (fun _ => 0) .fresh (bytes "help") :=
  outcome_help_ne _ rfl

end Requests

end Rmdb.Parser
