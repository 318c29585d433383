import Mathlib.Data.List.TakeWhile
import Rmdb.Parser.Request

/-!
# The literals of an INSERT

The scanner makes integers of 64 bits, and texts of what is left of the request, which ends
at its first zero byte. `Gives` is a rule for what a parser returns from a clean state, in
which no zero byte is left; it follows the grammar as `Along` does. So the literals of an
`INSERT` are 64-bit integers and texts without a zero byte (`parseRequest_literals`).
-/

namespace Rmdb.Parser

open Lib
open Analyze (SvValue)

/-- A literal as the scanner makes it. -/
def LiteralOk : SvValue → Prop
  | .intLit v => -2 ^ 63 ≤ v ∧ v < 2 ^ 63
  | .floatLit _ => True
  | .stringLit s => 0 ∉ s

/-- A text in a token has no zero byte. -/
def TokenOk : Token → Prop
  | .VALUE_STRING s => 0 ∉ s
  | _ => True

/-- A token with a text. -/
def isText : Token → Bool
  | .VALUE_STRING _ => true
  | _ => false

/-- No zero byte is left, and none is in the token that has been read. -/
structure Clean (s : Input) : Prop where
  text : 0 ∉ s.text
  token : ∀ t, s.yychar = some t → TokenOk t

/-- The literals of an `INSERT` are as they should be. -/
def TreeOk : TreeNode → Prop
  | .insertStmt _ vals => ∀ val ∈ vals, LiteralOk val
  | _ => True

section Gives

variable {atof : Bytes → ℕ} {α β : Type} {R : α → Prop} {R' : β → Prop}

/-! ### The scanner -/

theorem Action.run_tokenOk {action : Action} {text : Bytes} {sc sc' : Scanner} {t : Token} (h : 0 ∉ text)
    (hrun : action.run atof text sc = (some t, sc')) (hwritten : ∀ t, action.written = some t → TokenOk t) : TokenOk t := by
  cases action with
  | ignore | begin => cases hrun
  | token | type =>
    cases hrun
    exact hwritten _ rfl
  | singleOp | identifier | valueFloat =>
    cases hrun
    trivial
  | valueInt =>
    simp only [run] at hrun
    split at hrun <;> cases hrun <;> trivial
  | valueString =>
    cases hrun
    exact fun hmem => h (List.mem_of_mem_drop (List.mem_of_mem_take hmem))

/-- No text is written in a rule. -/
theorem rules_tokenOk (start : StartCondition) {action : Action} (h : action ∈ (rules start).map (·.2)) :
    ∀ t, action.written = some t → TokenOk t := by
  have hall : ((rules start).map (·.2)).all (fun action => !action.written.any isText) = true := by
    cases start <;> rfl
  intro t ht
  have haction := List.all_eq_true.mp hall action h
  rw [ht] at haction
  cases t with
  | VALUE_STRING s => cases haction
  | _ => trivial

/-- **What the scanner returns**, and what it leaves, comes of the text. -/
theorem yylex_clean : ∀ {text : Bytes} {sc : Scanner} {skip : ℕ}, 0 ∉ text →
    0 ∉ (yylex atof sc skip text).2.2 ∧ TokenOk (yylex atof sc skip text).1
  | [], _, _, h => ⟨h, trivial⟩
  | _ :: _, sc, skip + 1, h => @yylex_clean _ sc skip fun hmem => h (List.mem_cons_of_mem _ hmem)
  | c :: text, sc, 0, h => by
    obtain ⟨action, n, hfirst, htoken, hnext⟩ := yylex_cons atof sc c text
    have hrest : 0 ∉ text := fun hmem => h (List.mem_cons_of_mem _ hmem)
    have hmatch : 0 ∉ c :: text.take n := fun hmem => h (by
      rcases List.mem_cons.mp hmem with heq | hmem
      · exact heq ▸ List.mem_cons_self
      · exact List.mem_cons_of_mem _ (List.mem_of_mem_take hmem))
    rcases hrun : action.run atof (c :: text.take n) sc with ⟨_ | t, sc'⟩
    · rw [hnext sc' hrun]
      exact yylex_clean hrest
    · rw [htoken t sc' hrun]
      exact ⟨fun hmem => hrest (List.mem_of_mem_drop hmem), Action.run_tokenOk hmatch hrun (rules_tokenOk _ hfirst.mem)⟩

theorem Clean.step {s s' : Input} (hstep : Step atof s s') (h : Clean s) : Clean s' := by
  cases hstep with
  | read =>
    obtain ⟨htext, htoken⟩ := @yylex_clean atof s.text s.scanner 0 h.text
    refine ⟨htext, ?_⟩
    intro t ht
    obtain rfl := Option.some.inj ht
    exact htoken
  | shift => exact ⟨h.text, fun t ht => by cases ht⟩

/-! ### The parser -/

/-- From a clean state the parser returns something with the property, in a clean state. -/
def Gives (x : Parse α) (R : α → Prop) : Prop := Triple Clean x (fun a s => R a ∧ Clean s) fun _ _ => True

theorem Gives.pure {a : α} (h : R a) : Gives (pure a) R := Triple.pure fun _ hs => ⟨h, hs⟩

theorem Gives.throw : Gives (throw () : Parse α) R := Triple.throw fun _ _ => trivial

theorem Gives.bind {x : Parse α} {f : α → Parse β} (hx : Gives x R) (hf : ∀ a, R a → Gives (f a) R') : Gives (x >>= f) R' :=
  Triple.bind hx fun a s hs => hf a hs.1 s hs.2

theorem Gives.of_along {x : Parse α} (h : Along (Step atof) x) : Gives x fun _ => True := by
  intro s hs
  have hend := h.holds (fun _ _ hstep hs => Clean.step hstep hs) hs
  rcases hout : x s with ⟨a, s'⟩ | ⟨e, s'⟩
  · rw [hout] at hend
    exact ⟨trivial, hend⟩
  · trivial

/-- Something is read that does not matter. -/
theorem Gives.after {x : Parse α} {f : α → Parse β} (h : Along (Step atof) x) (hf : ∀ a, Gives (f a) R') :
    Gives (x >>= f) R' := (Gives.of_along h).bind fun a _ => hf a

/-- The next token is as it should be. -/
theorem gives_peek : Gives (peek atof) TokenOk := by
  intro s hs
  rcases peek_eq atof s with ⟨t, hchar, h⟩ | ⟨s', hstep, hchar, h⟩
  · rw [h]
    exact ⟨hs.token t hchar, hs⟩
  · rw [h]
    have hs' := Clean.step hstep hs
    exact ⟨hs'.token _ hchar, hs'⟩

theorem gives_take {f : Token → Option α} (h : ∀ t a, TokenOk t → f t = some a → R a) : Gives (take atof f) R := by
  refine gives_peek.bind ?_
  intro t ht
  split
  next a ha => exact Gives.after (along_shift : Along (Step atof) _) fun _ => .pure (h t a ht ha)
  next => exact .throw

theorem gives_choose {alternatives : List (Token × Parse α)} {other : Parse α}
    (h : ∀ alternative ∈ alternatives, Gives alternative.2 R) (hother : Gives other R) :
    Gives (choose atof alternatives other) R := by
  refine Gives.after along_peek ?_
  intro t
  split
  next alternative hfind =>
    exact Gives.after (along_shift : Along (Step atof) _) fun _ => h alternative (List.mem_of_find?_eq_some hfind)
  next => exact hother

theorem gives_sepBy {elem : Parse α} (h : Gives elem R) (isSep : Token → Bool) :
    ∀ rounds, Gives (sepBy atof elem isSep rounds) fun as => ∀ a ∈ as, R a
  | 0 => .throw
  | rounds + 1 => by
    refine h.bind fun a ha => Gives.after along_peek ?_
    intro t
    split
    · refine Gives.after (along_shift : Along (Step atof) _) fun _ => (gives_sepBy h isSep rounds).bind fun as has => .pure ?_
      exact List.forall_mem_cons.mpr ⟨ha, has⟩
    · exact .pure (List.forall_mem_singleton.mpr ha)

theorem gives_listOf {elem : Parse α} (h : Gives elem R) (isSep : Token → Bool) :
    Gives (listOf atof elem isSep) fun as => ∀ a ∈ as, R a :=
  Triple.get_bind fun s hs s' hs' => by
    obtain rfl : s' = s := hs'
    exact gives_sepBy h isSep _ s' hs

/-! ### The grammar -/

theorem gives_value : Gives (value atof) LiteralOk := by
  refine gives_take ?_
  intro t a ht h
  cases t with
  | VALUE_INT n =>
    cases h
    exact ⟨n.le_toInt, n.toInt_lt⟩
  | VALUE_FLOAT bits =>
    cases h
    trivial
  | VALUE_STRING s =>
    cases h
    exact ht
  | _ => cases h

theorem gives_insertStmt : Gives (insertStmt atof) TreeOk :=
  .after (along_expect _) fun _ => .after along_identifier fun _ => .after (along_expect _) fun _ =>
    .after (along_expect _) fun _ => (gives_listOf gives_value _).bind fun _ hvals => .after (along_expect _) fun _ => .pure hvals

theorem gives_lastTbName {tree : String → TreeNode} (h : ∀ tab, TreeOk (tree tab)) : Gives (lastTbName atof tree) TreeOk :=
  .after along_identifier fun _ => .pure (h _)

theorem gives_indexCols {tree : String → List String → TreeNode} (h : ∀ tab cols, TreeOk (tree tab cols)) :
    Gives (indexCols atof tree) TreeOk :=
  .after along_identifier fun _ => .after (along_expect _) fun _ => .after (along_listOf along_identifier _) fun _ =>
    .after (along_expect _) fun _ => .pure (h _ _)

theorem gives_showStmt : Gives (showStmt atof) TreeOk := by
  refine gives_choose ?_ .throw
  simp only [List.forall_mem_cons]
  exact ⟨.pure trivial, .after (along_expect _) fun _ => gives_lastTbName fun _ => trivial, List.forall_mem_nil _⟩

theorem gives_createStmt : Gives (createStmt atof) TreeOk := by
  refine gives_choose ?_ .throw
  simp only [List.forall_mem_cons]
  exact ⟨.after along_identifier fun _ => .after (along_expect _) fun _ => .after (along_listOf along_field _) fun _ =>
    .after (along_expect _) fun _ => .pure trivial, gives_indexCols fun _ _ => trivial, List.forall_mem_nil _⟩

theorem gives_dropStmt : Gives (dropStmt atof) TreeOk := by
  refine gives_choose ?_ .throw
  simp only [List.forall_mem_cons]
  exact ⟨gives_lastTbName fun _ => trivial, gives_indexCols fun _ _ => trivial, List.forall_mem_nil _⟩

theorem gives_deleteStmt : Gives (deleteStmt atof) TreeOk :=
  .after (along_expect _) fun _ => .after along_identifier fun _ => .after along_optWhereClause fun _ => .pure trivial

theorem gives_updateStmt : Gives (updateStmt atof) TreeOk :=
  .after along_identifier fun _ => .after (along_expect _) fun _ => .after (along_listOf along_setClause _) fun _ =>
    .after along_optWhereClause fun _ => .pure trivial

theorem gives_selectStmt : Gives (selectStmt atof) TreeOk :=
  .after along_selector fun _ => .after (along_expect _) fun _ => .after (along_listOf along_identifier _) fun _ =>
    .after along_optWhereClause fun _ => .after along_optOrderClause fun _ => .after along_optLimitClause fun _ => .pure trivial

theorem gives_stmt : Gives (stmt atof) TreeOk := by
  refine gives_choose ?_ .throw
  simp only [List.forall_mem_cons]
  exact ⟨.pure trivial, .pure trivial, .pure trivial, .pure trivial, gives_showStmt, gives_createStmt, gives_dropStmt,
    gives_lastTbName fun _ => trivial, gives_insertStmt, gives_deleteStmt, gives_updateStmt, gives_selectStmt,
    List.forall_mem_nil _⟩

theorem gives_start : Gives (start atof) fun tree => ∀ t ∈ tree, TreeOk t := by
  have hnone : ∀ t ∈ (none : Option TreeNode), TreeOk t := fun t ht => by cases ht
  refine gives_choose ?_ (gives_stmt.bind fun tree htree => .after (along_expect _) fun _ => .pure ?_)
  · simp only [List.forall_mem_cons]
    refine ⟨.pure ?_, .pure hnone, .pure hnone, List.forall_mem_nil _⟩
    intro t ht
    obtain rfl := Option.some.inj ht
    trivial
  · intro t ht
    obtain rfl := Option.some.inj ht
    exact htree

end Gives

/-- **The literals of an `INSERT`**, whatever the request. -/
theorem parseRequest_literals (atof : Bytes → ℕ) (sc : Scanner) (request : Bytes) {tabName : String} {vals : List SvValue}
    (h : found (parseRequest atof sc request) = some (some (.insertStmt tabName vals))) : ∀ val ∈ vals, LiteralOk val := by
  have htext : 0 ∉ request.takeWhile (· ≠ 0) := fun hmem => by
    simpa using List.mem_takeWhile_imp hmem
  have hclean : Clean ⟨{ sc with intOutOfRange := false, lastType := .int }, request.takeWhile (· ≠ 0), none, []⟩ :=
    ⟨htext, fun t ht => by cases ht⟩
  have hgives := @gives_start atof _ hclean
  change EndsIn _ _ (parseRequest atof sc request) at hgives
  rcases hout : parseRequest atof sc request with ⟨tree, s⟩ | ⟨e, s⟩
  · rw [hout] at h hgives
    obtain rfl := Option.some.inj h
    exact hgives.1 _ rfl
  · rw [hout] at h
    cases h

end Rmdb.Parser
