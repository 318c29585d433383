import Rmdb.Execution.Abstract
import Rmdb.Lib.Restart
import Mathlib.Data.List.ProdSigma
import Mathlib.Data.Multiset.Bind

/-!
# The nested loop join

`NestedLoopJoinExecutor` reads the rows of its left child in blocks. For every block it runs
through its right child, and for every row of the right child through the block. It stops wherever
the two rows satisfy the conditions, in the middle of its loops, and goes on from there in the next
`nextTuple`.

What it has still to return from where it stands is a list (`Pending`): the rest of the block with
the row of the right child, the block with the other rows of the right child, and the blocks that
have not been read yet. `advance` takes that list apart, so that a join of two children that
enumerate their rows enumerates the rows of the join, again and again (`enumerates_join`).
-/

namespace Rmdb.Execution

open Lib

/-- An executor: `beginTuple`, `nextTuple`, `is_end`, and `Next`, which may return a null pointer. -/
abbrev Executor (S : Type) := Restart S RMDBError (Option Bytes)

/-- The executor enumerates the rows, from whatever state. -/
def Executor.Enumerates {S : Type} (x : Executor S) (I : S → Prop) (rows : List Bytes) : Prop :=
  Restart.Enumerates x I (rows.map some)

/-! ### The conditions -/

/-- The name is that of the column. -/
def isTarget (target : TabCol) (col : ColMeta) : Bool := col.tabName = target.tabName ∧ col.name = target.colName

/-- `get_value_meta`, first on the left and then on the right, and the bytes from there on. -/
def joinOperand (leftCols rightCols : List ColMeta) (leftRec rightRec : Bytes) (target : TabCol) :
    Except RMDBError (ColMeta × Bytes) :=
  match leftCols.find? (isTarget target) with
  | some col => .ok (col, leftRec.drop col.offset)
  | none =>
    match rightCols.find? (isTarget target) with
    | some col => .ok (col, rightRec.drop col.offset)
    | none => .error (.columnNotFound (target.tabName ++ "." ++ target.colName))

/-- `eval_join_cond`. -/
def evalJoinCond (leftCols rightCols : List ColMeta) (leftRec rightRec : Bytes) (cond : Condition) : Except RMDBError Bool := do
  let (lhsMeta, lhs) ← joinOperand leftCols rightCols leftRec rightRec cond.lhsCol
  let (rhs, rhsType) ←
    if cond.isRhsVal then
      match cond.rhsVal.raw with
      | some raw => .ok (raw, cond.rhsVal.type)
      | none => .error .assertion
    else do
      let (rhsMeta, rhs) ← joinOperand leftCols rightCols leftRec rightRec cond.rhsCol
      .ok (rhs, rhsMeta.type)
  if lhsMeta.type ≠ rhsType then .error (.incompatibleType lhsMeta.type rhsType)
  else .ok (compare lhs rhs lhsMeta.type lhsMeta.len cond.op)

/-- `eval_join_conds`. -/
def evalJoinConds (leftCols rightCols : List ColMeta) (leftRec rightRec : Bytes) : List Condition → Except RMDBError Bool
  | [] => .ok true
  | cond :: conds => do
    if ← evalJoinCond leftCols rightCols leftRec rightRec cond then evalJoinConds leftCols rightCols leftRec rightRec conds
    else .ok false

/-! ### The executor -/

/-- `kJoinBufferBytes`. -/
def kJoinBufferBytes : ℕ := 8 * 1024 * 1024

/-- What the constructor sets. -/
structure JoinParams where
  /-- `left_->cols()`. -/
  leftCols : List ColMeta
  /-- `right_->cols()`. -/
  rightCols : List ColMeta
  /-- `left_->tupleLen()`. -/
  leftLen : ℕ
  /-- `right_->tupleLen()`. -/
  rightLen : ℕ
  /-- `fed_conds_`. -/
  fedConds : List Condition
  /-- `left_block_capacity_`. -/
  leftBlockCapacity : ℕ

/-- `left_block_capacity_` as the constructor computes it. -/
def blockCapacity (leftLen : ℕ) : ℕ := max 1 (kJoinBufferBytes / max 1 leftLen)

/-- The state of a join, with the states of its children. -/
structure JoinState (S T : Type) where
  /-- `left_`. -/
  left : S
  /-- `right_`. -/
  right : T
  /-- `isend`. -/
  isend : Bool
  /-- `left_block_`. -/
  leftBlock : List Bytes
  /-- `left_block_idx_`. -/
  leftBlockIdx : ℕ
  /-- `right_tuple_`. -/
  rightTuple : Option Bytes
  /-- `current_tuple_`. -/
  currentTuple : Option Bytes

section Model

variable {S T : Type} (p : JoinParams) (left : Executor S) (right : Executor T) (rounds : ℕ)

/-- `join_tuple`. -/
def joinTuple (leftRec rightRec : Bytes) : Bytes := leftRec.take p.leftLen ++ rightRec.take p.rightLen

/-- The loop of `refill_left_block`, with the room that is left in the block. -/
def fillBlock : ℕ → ℕ → List Bytes → S → Except RMDBError (List Bytes × S)
  | 0, _, block, s => .ok (block, s)
  | room + 1, bytes, block, s =>
    if left.isEnd s then .ok (block, s)
    else do
      match ← left.read s with
      | none => .ok (block, s)
      | some rec =>
        let s ← left.next s
        if kJoinBufferBytes ≤ bytes + rec.length then .ok (block ++ [rec], s)
        else fillBlock room (bytes + rec.length) (block ++ [rec]) s

/-- `refill_left_block`. -/
def refillLeftBlock (s : JoinState S T) : Except RMDBError (JoinState S T × Bool) := do
  let (block, l) ← fillBlock left p.leftBlockCapacity 0 [] s.left
  .ok ({ s with left := l, leftBlock := block, leftBlockIdx := 0 }, !block.isEmpty)

/-- `begin_right_scan`. -/
def beginRightScan (s : JoinState S T) : Except RMDBError (JoinState S T) := do
  let r ← right.start s.right
  .ok { s with right := r, rightTuple := none }

/-- The loop over `left_block_idx_`, from an index on: the first row that satisfies the conditions, and the index behind it. -/
def matchLeft (rightRec : Bytes) : ℕ → List Bytes → Except RMDBError (Option (Bytes × ℕ))
  | _, [] => .ok none
  | idx, leftRec :: block => do
    if ← evalJoinConds p.leftCols p.rightCols leftRec rightRec p.fedConds then .ok (some (leftRec, idx + 1))
    else matchLeft rightRec (idx + 1) block

/-- `right_tuple_` after `if (right_tuple_ == nullptr) right_tuple_ = right_->Next()`. -/
def rightTupleOf (s : JoinState S T) : Except RMDBError (Option Bytes) :=
  match s.rightTuple with
  | some rec => .ok (some rec)
  | none => right.read s.right

/-- The loop over the right child: has it been left at a match? -/
def scanRight : ℕ → JoinState S T → Except RMDBError (JoinState S T × Bool)
  | 0, _ => .error .assertion
  | bound + 1, s =>
    if right.isEnd s.right then .ok (s, false)
    else do
      let rightTuple ← rightTupleOf right s
      match rightTuple with
      | none => .error .assertion
      | some rightRec =>
        match ← matchLeft p rightRec s.leftBlockIdx (s.leftBlock.drop s.leftBlockIdx) with
        | some (leftRec, idx) =>
          .ok ({ s with rightTuple := rightTuple, currentTuple := some (joinTuple p leftRec rightRec),
                        leftBlockIdx := idx, isend := false }, true)
        | none =>
          let r ← right.next s.right
          scanRight bound { s with leftBlockIdx := 0, right := r, rightTuple := none }

/-- The outer loop of `advance`. -/
def advanceLoop : ℕ → JoinState S T → Except RMDBError (JoinState S T)
  | 0, _ => .error .assertion
  | bound + 1, s =>
    if s.leftBlock.isEmpty then .ok { s with isend := true }
    else do
      let (s, found) ← scanRight p right rounds s
      if found then .ok s
      else
        let (s, more) ← refillLeftBlock p left s
        if more then
          let s ← beginRightScan right s
          if right.isEnd s.right then .ok { s with isend := true } else advanceLoop bound s
        else .ok { s with isend := true }

/-- `advance`. -/
def advance (s : JoinState S T) : Except RMDBError (JoinState S T) :=
  advanceLoop p left right rounds rounds { s with currentTuple := none }

/-- `beginTuple`. -/
def joinBegin (s : JoinState S T) : Except RMDBError (JoinState S T) := do
  let l ← left.start s.left
  let (s, more) ← refillLeftBlock p left { s with left := l, isend := false, rightTuple := none }
  if more then
    let s ← beginRightScan right s
    if right.isEnd s.right then .ok { s with isend := true } else advance p left right rounds s
  else .ok { s with isend := true }

/-- `NestedLoopJoinExecutor`. -/
def nestedLoopJoin : Executor (JoinState S T) where
  isEnd s := s.isend
  read s := .ok s.currentTuple
  next s := if s.isend then .ok s else advance p left right rounds s
  start s := joinBegin p left right rounds s

end Model

/-! ### The rows of a join -/

section Rows

variable (p : JoinParams) (holds : Bytes → Bytes → Bool)

/-- The rows of a block that go with a row of the right child, joined with it. -/
def rowMatches (block : List Bytes) (rightRec : Bytes) : List Bytes :=
  (block.filter (holds · rightRec)).map (joinTuple p · rightRec)

/-- The rows of a block joined with rows of the right child. -/
def blockRows (block rs : List Bytes) : List Bytes := rs.flatMap (rowMatches p holds block)

/-- The next block of the rows of the left child, and the rows behind it. -/
def takeBlock : ℕ → ℕ → List Bytes → List Bytes × List Bytes
  | 0, _, rows => ([], rows)
  | _ + 1, _, [] => ([], [])
  | room + 1, bytes, rec :: rows =>
    if kJoinBufferBytes ≤ bytes + rec.length then ([rec], rows)
    else (rec :: (takeBlock room (bytes + rec.length) rows).1, (takeBlock room (bytes + rec.length) rows).2)

/-- The rows of the left child in blocks, joined with the rows `R` of the right child. -/
inductive JoinRows (R : List Bytes) : List Bytes → List Bytes → Prop where
  /-- No block. -/
  | nil : JoinRows R [] []
  /-- The next block and those behind it. -/
  | cons {rows out : List Bytes} : rows ≠ [] → JoinRows R (takeBlock p.leftBlockCapacity 0 rows).2 out →
      JoinRows R rows (blockRows p holds (takeBlock p.leftBlockCapacity 0 rows).1 R ++ out)

variable {p holds}

theorem takeBlock_append : ∀ (room bytes : ℕ) (rows : List Bytes),
    (takeBlock room bytes rows).1 ++ (takeBlock room bytes rows).2 = rows
  | 0, _, _ => rfl
  | _ + 1, _, [] => rfl
  | room + 1, bytes, rec :: rows => by
    rw [takeBlock]
    split
    · rfl
    · exact congrArg (rec :: ·) (takeBlock_append room _ rows)

theorem takeBlock_ne_nil {room : ℕ} (bytes : ℕ) {rows : List Bytes} (hroom : 0 < room) (hrows : rows ≠ []) :
    (takeBlock room bytes rows).1 ≠ [] := by
  obtain ⟨room, rfl⟩ := Nat.exists_eq_succ_of_ne_zero hroom.ne'
  obtain ⟨rec, rows, rfl⟩ := List.exists_cons_of_ne_nil hrows
  rw [takeBlock]
  split
  · exact List.cons_ne_nil _ _
  · exact List.cons_ne_nil _ _

/-- A block has at least one row, so there are blocks until there are no rows. -/
theorem exists_joinRows (hcap : 0 < p.leftBlockCapacity) (R : List Bytes) :
    ∀ (n : ℕ) (rows : List Bytes), rows.length ≤ n → ∃ out, JoinRows p holds R rows out
  | _, [], _ => ⟨[], .nil⟩
  | n + 1, rec :: rows, hn => by
    have happend := congrArg List.length (takeBlock_append p.leftBlockCapacity 0 (rec :: rows))
    have hblock := List.length_pos_iff.mpr (takeBlock_ne_nil 0 hcap (List.cons_ne_nil rec rows))
    rw [List.length_append] at happend
    obtain ⟨out, hout⟩ := exists_joinRows hcap R n (takeBlock p.leftBlockCapacity 0 (rec :: rows)).2 (by omega)
    exact ⟨_, .cons (List.cons_ne_nil _ _) hout⟩

theorem JoinRows.of_nil {rows out : List Bytes} (h : JoinRows p holds [] rows out) : out = [] := by
  induction h with
  | nil => rfl
  | cons _ _ ih => exact ih

/-- The rows of the cross product that satisfy the conditions, joined. -/
def productRows (p : JoinParams) (holds : Bytes → Bytes → Bool) (rows R : Multiset Bytes) : Multiset Bytes :=
  ((rows ×ˢ R).filter fun x => holds x.1 x.2).map fun x => joinTuple p x.1 x.2

theorem coe_rowMatches (block : List Bytes) (r : Bytes) :
    (rowMatches p holds block r : Multiset Bytes) =
      (((block : Multiset Bytes).map (·, r)).filter fun x => holds x.1 x.2).map fun x => joinTuple p x.1 x.2 := by
  rw [Multiset.filter_map, Multiset.map_map, Multiset.filter_coe, Multiset.map_coe]
  simp only [Function.comp_def, Bool.decide_eq_true]
  rfl

theorem coe_blockRows (block R : List Bytes) :
    (blockRows p holds block R : Multiset Bytes) = productRows p holds block R := by
  induction R with
  | nil => rw [productRows, Multiset.coe_nil, Multiset.product_zero]; rfl
  | cons r R ih =>
    rw [productRows, ← Multiset.cons_coe, Multiset.product_cons, Multiset.filter_add, Multiset.map_add, ← coe_rowMatches,
      ← productRows, ← ih]
    exact (Multiset.coe_add _ _).symm

/-- **The rows of a join**, whatever the blocks, are those of the cross product that satisfy the conditions. -/
theorem JoinRows.coe_eq {R rows out : List Bytes} (h : JoinRows p holds R rows out) :
    (out : Multiset Bytes) = productRows p holds rows R := by
  induction h with
  | nil => rw [productRows, Multiset.coe_nil, Multiset.zero_product]; rfl
  | @cons rows out _ _ ih =>
    rw [← Multiset.coe_add, ih, coe_blockRows]
    conv_rhs => rw [← takeBlock_append p.leftBlockCapacity 0 rows, ← Multiset.coe_add]
    rw [productRows, productRows, productRows, Multiset.add_product, Multiset.filter_add, Multiset.map_add]

end Rows

/-! ### What a join has still to return -/

section Run

variable {S T : Type} {p : JoinParams} {left : Executor S} {right : Executor T} {IL : S → Prop} {IR : T → Prop}
  {L R : List Bytes} {holds : Bytes → Bytes → Bool} {rounds : ℕ}

/-- The rows that a block has still to return, from an index on and with the rows of the right child from a row on. -/
def blockRest (p : JoinParams) (holds : Bytes → Bytes → Bool) (block : List Bytes) (idx : ℕ) : List Bytes → List Bytes
  | [] => []
  | r :: rs => rowMatches p holds (block.drop idx) r ++ blockRows p holds block rs

theorem blockRest_zero (block rs : List Bytes) : blockRest p holds block 0 rs = blockRows p holds block rs := by
  cases rs <;> rfl

/-- The right child is at the rows `rs`, the first of which has been read or not. -/
structure AtRight (right : Executor T) (IR : T → Prop) (R : List Bytes) (s : JoinState S T) (rs : List Bytes) : Prop where
  inv : IR s.right
  yields : right.Yields s.right (rs.map some)
  tuple : s.rightTuple = none ∨ ∃ r rs', rs = r :: rs' ∧ s.rightTuple = some r
  subset : rs ⊆ R
  length : rs.length ≤ R.length

/-- The rows `rows` of the left child have not been read. -/
structure AtLeft (left : Executor S) (IL : S → Prop) (L : List Bytes) (s : S) (rows : List Bytes) : Prop where
  inv : IL s
  yields : left.Yields s (rows.map some)
  subset : rows ⊆ L
  length : rows.length ≤ L.length

/-- **What a join has still to return** from where it stands: the rest of the block, and the blocks behind it. -/
structure Pending (p : JoinParams) (left : Executor S) (right : Executor T) (IL : S → Prop) (IR : T → Prop) (L R : List Bytes)
    (holds : Bytes → Bytes → Bool) (s : JoinState S T) (rows rs out : List Bytes) : Prop where
  left : AtLeft left IL L s.left rows
  right : AtRight right IR R s rs
  block : s.leftBlock ≠ [] ∧ s.leftBlock ⊆ L
  rest : JoinRows p holds R rows out

/-- A block is read. -/
theorem fillBlock_eq (hl : left.Enumerates IL L) : ∀ (room bytes : ℕ) (block rows : List Bytes) (s : S),
    AtLeft left IL L s rows → ∃ s', fillBlock left room bytes block s = .ok (block ++ (takeBlock room bytes rows).1, s') ∧
      AtLeft left IL L s' (takeBlock room bytes rows).2
  | 0, _, block, rows, s, h => ⟨s, by rw [fillBlock, takeBlock, List.append_nil], h⟩
  | room + 1, bytes, block, [], s, h =>
    ⟨s, by rw [fillBlock, if_pos (Cursor.yields_nil.mp h.yields), takeBlock, List.append_nil], h⟩
  | room + 1, bytes, block, rec :: rows, s, h => by
    obtain ⟨hgo, hread, s₁, hnext, hyields⟩ := Cursor.yields_cons.mp h.yields
    have h₁ : AtLeft left IL L s₁ rows :=
      ⟨hl.next s s₁ h.inv hgo hnext, hyields, fun x hx => h.subset (List.mem_cons_of_mem _ hx), Nat.le_of_succ_le h.length⟩
    rw [fillBlock, hgo, if_neg Bool.false_ne_true, hread]
    simp only [bind, Except.bind, hnext, takeBlock]
    by_cases hfull : kJoinBufferBytes ≤ bytes + rec.length
    · rw [if_pos hfull, if_pos hfull]
      exact ⟨s₁, rfl, h₁⟩
    · rw [if_neg hfull, if_neg hfull]
      obtain ⟨s', hfill, h'⟩ := fillBlock_eq hl room (bytes + rec.length) (block ++ [rec]) rows s₁ h₁
      exact ⟨s', by rw [hfill, List.append_assoc]; rfl, h'⟩

/-- The block is searched for the next row that goes with a row of the right child. -/
theorem matchLeft_eq {r : Bytes} : ∀ {block : List Bytes} (idx : ℕ),
    (∀ l ∈ block, evalJoinConds p.leftCols p.rightCols l r p.fedConds = .ok (holds l r)) →
    (matchLeft p r idx block = .ok none ∧ rowMatches p holds block r = []) ∨
    ∃ l k, matchLeft p r idx block = .ok (some (l, idx + k)) ∧
      rowMatches p holds block r = joinTuple p l r :: rowMatches p holds (block.drop k) r
  | [], idx, _ => .inl ⟨rfl, rfl⟩
  | l :: block, idx, hconds => by
    have hl := hconds l List.mem_cons_self
    rw [matchLeft, hl]
    simp only [bind, Except.bind, rowMatches, List.filter_cons]
    by_cases hholds : holds l r = true
    · rw [if_pos hholds, if_pos hholds]
      exact .inr ⟨l, 1, rfl, rfl⟩
    · rw [if_neg hholds, if_neg hholds]
      rcases matchLeft_eq (idx + 1) fun l hl => hconds l (List.mem_cons_of_mem _ hl) with
        ⟨hnone, hrows⟩ | ⟨l', k, hsome, hrows⟩
      · exact .inl ⟨hnone, hrows⟩
      · refine .inr ⟨l', k + 1, ?_, hrows⟩
        rw [hsome, Nat.add_assoc, Nat.add_comm 1 k]

/-- What holds of the children of a join. -/
structure JoinChildren (p : JoinParams) (left : Executor S) (right : Executor T) (IL : S → Prop) (IR : T → Prop)
    (L R : List Bytes) (holds : Bytes → Bytes → Bool) : Prop where
  left : left.Enumerates IL L
  right : right.Enumerates IR R
  conds : ∀ l ∈ L, ∀ r ∈ R, evalJoinConds p.leftCols p.rightCols l r p.fedConds = .ok (holds l r)
  capacity : 0 < p.leftBlockCapacity

/-- **The loop over the right child** stops at the next row, or runs to the end if the block has no more rows. -/
theorem scanRight_eq (h : JoinChildren p left right IL IR L R holds) : ∀ {bound : ℕ} {s : JoinState S T} {rs : List Bytes},
    AtRight right IR R s rs → s.leftBlock ⊆ L → rs.length < bound →
    (blockRest p holds s.leftBlock s.leftBlockIdx rs = [] ∧
      ∃ s', scanRight p right bound s = .ok (s', false) ∧ s'.left = s.left ∧ IR s'.right) ∨
    ∃ o os s' rs', blockRest p holds s.leftBlock s.leftBlockIdx rs = o :: os ∧ scanRight p right bound s = .ok (s', true) ∧
      s'.left = s.left ∧ s'.leftBlock = s.leftBlock ∧ s'.isend = false ∧ s'.currentTuple = some o ∧
      AtRight right IR R s' rs' ∧ blockRest p holds s'.leftBlock s'.leftBlockIdx rs' = os
  | 0, _, _, _, _, hbound => absurd hbound (Nat.not_lt_zero _)
  | bound + 1, s, [], hat, _, _ => by
    refine .inl ⟨rfl, s, ?_, rfl, hat.inv⟩
    rw [scanRight, if_pos (Cursor.yields_nil.mp hat.yields)]
  | bound + 1, s, r :: rs, hat, hblock, hbound => by
    obtain ⟨hgo, hread, t, hnext, hyields⟩ := Cursor.yields_cons.mp hat.yields
    have hr : r ∈ R := hat.subset List.mem_cons_self
    have htuple : rightTupleOf right s = .ok (some r) := by
      rw [rightTupleOf]
      rcases hat.tuple with hnone | ⟨r', rs', heq, hsome⟩
      · rw [hnone]
        exact hread
      · rw [hsome, (List.cons.inj heq).1]
    have hconds : ∀ l ∈ s.leftBlock.drop s.leftBlockIdx,
        evalJoinConds p.leftCols p.rightCols l r p.fedConds = .ok (holds l r) :=
      fun l hl => h.conds l (hblock (List.mem_of_mem_drop hl)) r hr
    rw [scanRight, hgo, if_neg Bool.false_ne_true, htuple]
    simp only [bind, Except.bind, blockRest]
    rcases matchLeft_eq s.leftBlockIdx hconds with ⟨hnone, hrows⟩ | ⟨l, k, hsome, hrows⟩
    · simp only [hnone, hrows, hnext, List.nil_append]
      have hat' : AtRight right IR R { s with leftBlockIdx := 0, right := t, rightTuple := none } rs :=
        ⟨h.right.next _ _ hat.inv hgo hnext, hyields, .inl rfl, fun x hx => hat.subset (List.mem_cons_of_mem _ hx),
          Nat.le_of_succ_le hat.length⟩
      rw [← blockRest_zero]
      exact scanRight_eq h hat' hblock (Nat.lt_of_succ_lt_succ hbound)
    · simp only [hsome, hrows, List.cons_append]
      refine .inr ⟨_, _, _, r :: rs, rfl, rfl, rfl, rfl, rfl, rfl, ?_, ?_⟩
      · exact ⟨hat.inv, hat.yields, .inr ⟨r, rs, rfl, rfl⟩, hat.subset, hat.length⟩
      · simp only [List.drop_drop]

/-- **The next block** is read and the right child started again: there are no more rows, or they are those of the block and
those behind it. -/
theorem nextBlock_eq (h : JoinChildren p left right IL IR L R holds) {s : JoinState S T} {rows out : List Bytes}
    (hat : AtLeft left IL L s.left rows) (hright : IR s.right) (hout : JoinRows p holds R rows out) :
    (∃ s₁, refillLeftBlock p left s = .ok (s₁, false) ∧ out = [] ∧ IL s₁.left ∧ IR s₁.right) ∨
    ∃ s₁ s₂, refillLeftBlock p left s = .ok (s₁, true) ∧ beginRightScan right s₁ = .ok s₂ ∧
      (right.isEnd s₂.right = true ∧ out = [] ∧ IL s₂.left ∧ IR s₂.right ∨
      right.isEnd s₂.right = false ∧ ∃ rows' out', rows'.length < rows.length ∧
        Pending p left right IL IR L R holds s₂ rows' R out' ∧
        out = blockRest p holds s₂.leftBlock s₂.leftBlockIdx R ++ out') := by
  obtain ⟨l, hfill, hat'⟩ := fillBlock_eq h.left p.leftBlockCapacity 0 [] rows s.left hat
  simp only [refillLeftBlock, hfill, bind, Except.bind, List.nil_append]
  cases hout with
  | nil =>
    have hnil : (takeBlock p.leftBlockCapacity 0 []).1 = [] := by cases p.leftBlockCapacity <;> rfl
    rw [hnil]
    exact .inl ⟨_, rfl, rfl, hat'.inv, hright⟩
  | @cons _ out hrows hrest =>
    have hne := takeBlock_ne_nil 0 h.capacity hrows
    have happend := takeBlock_append p.leftBlockCapacity 0 rows
    have hempty : (takeBlock p.leftBlockCapacity 0 rows).1.isEmpty = false := List.isEmpty_eq_false_iff.mpr hne
    obtain ⟨t, hstart, ht, hyields⟩ := h.right.start s.right hright
    rw [hempty]
    refine .inr ⟨_, ⟨l, t, s.isend, (takeBlock p.leftBlockCapacity 0 rows).1, 0, none, s.currentTuple⟩, rfl, ?_, ?_⟩
    · simp only [beginRightScan, hstart, bind, Except.bind]
    · have hend := hyields.isEnd
      rw [List.isEmpty_map] at hend
      by_cases hR : R = []
      · subst hR
        exact .inl ⟨hend, hrest.of_nil, hat'.inv, ht⟩
      · have hlen : (takeBlock p.leftBlockCapacity 0 rows).2.length < rows.length := by
          have hlength := congrArg List.length happend
          have hpos := List.length_pos_iff.mpr hne
          rw [List.length_append] at hlength
          omega
        have hsub : (takeBlock p.leftBlockCapacity 0 rows).1 ⊆ L := fun x hx =>
          hat.subset (happend ▸ List.mem_append_left _ hx)
        refine .inr ⟨hend.trans (List.isEmpty_eq_false_iff.mpr hR), _, out, hlen, ?_, by rw [blockRest_zero]⟩
        exact ⟨hat', ⟨ht, hyields, .inl rfl, List.Subset.refl R, le_refl _⟩, ⟨hne, hsub⟩, hrest⟩

/-- What `advance` leaves behind: the next row and what is to be returned after it, or the end. -/
def Advanced (p : JoinParams) (left : Executor S) (right : Executor T) (IL : S → Prop) (IR : T → Prop) (L R : List Bytes)
    (holds : Bytes → Bytes → Bool) (s : JoinState S T) : List Bytes → Prop
  | [] => s.isend = true ∧ IL s.left ∧ IR s.right
  | o :: os => s.isend = false ∧ s.currentTuple = some o ∧
    ∃ rows rs out, Pending p left right IL IR L R holds s rows rs out ∧
      os = blockRest p holds s.leftBlock s.leftBlockIdx rs ++ out

/-- **`advance`** takes the rows that are still to be returned apart. -/
theorem advanceLoop_eq (h : JoinChildren p left right IL IR L R holds) (hrounds : R.length < rounds) :
    ∀ {bound : ℕ} {s : JoinState S T} {rows rs out : List Bytes}, Pending p left right IL IR L R holds s rows rs out →
    rows.length < bound → ∃ s', advanceLoop p left right rounds bound s = .ok s' ∧
      Advanced p left right IL IR L R holds s' (blockRest p holds s.leftBlock s.leftBlockIdx rs ++ out)
  | 0, _, _, _, _, _, hbound => absurd hbound (Nat.not_lt_zero _)
  | bound + 1, s, rows, rs, out, hp, hbound => by
    have hblock : s.leftBlock.isEmpty = false := List.isEmpty_eq_false_iff.mpr hp.block.1
    rw [advanceLoop, hblock, if_neg Bool.false_ne_true]
    rcases scanRight_eq h hp.right hp.block.2 (Nat.lt_of_le_of_lt hp.right.length hrounds) with
      ⟨hrest, s₁, hscan, hleft, hright⟩ | ⟨o, os, s₁, rs', hrest, hscan, hleft, hblock', hisend, hcur, hat, hos⟩
    · rw [hrest, List.nil_append]
      simp only [hscan, bind, Except.bind, Bool.false_eq_true, if_false]
      rcases nextBlock_eq h (s := s₁) (hleft ▸ hp.left) hright hp.rest with ⟨s₂, hrefill, rfl, hl, hr⟩ |
        ⟨s₂, s₃, hrefill, hbegin, ⟨hend, rfl, hl, hr⟩ | ⟨hend, rows', out', hlen, hp', rfl⟩⟩
      · simp only [hrefill, Bool.false_eq_true, if_false]
        exact ⟨_, rfl, rfl, hl, hr⟩
      · simp only [hrefill, hbegin, hend, if_true]
        exact ⟨_, rfl, rfl, hl, hr⟩
      · simp only [hrefill, hbegin, hend, if_true, Bool.false_eq_true, if_false]
        exact advanceLoop_eq h hrounds hp' (Nat.lt_of_lt_of_le hlen (Nat.le_of_lt_succ hbound))
    · rw [hrest, List.cons_append]
      simp only [hscan, bind, Except.bind, if_true]
      refine ⟨s₁, rfl, hisend, hcur, rows, rs', out, ⟨hleft ▸ hp.left, hat, hblock' ▸ hp.block, hp.rest⟩, ?_⟩
      rw [hos]

/-- The states of a join: at the end, before the first block, or with rows that are still to be returned. -/
def JoinOk (p : JoinParams) (left : Executor S) (right : Executor T) (IL : S → Prop) (IR : T → Prop) (L R : List Bytes)
    (holds : Bytes → Bytes → Bool) (s : JoinState S T) : Prop :=
  IL s.left ∧ IR s.right ∧ (s.isend = true ∨ s.leftBlock = [] ∨ ∃ rows rs out, Pending p left right IL IR L R holds s rows rs out)

theorem Advanced.ok {s : JoinState S T} : ∀ {out : List Bytes}, Advanced p left right IL IR L R holds s out →
    JoinOk p left right IL IR L R holds s
  | [], ⟨hend, hl, hr⟩ => ⟨hl, hr, .inl hend⟩
  | _ :: _, ⟨_, _, rows, rs, out, hp, _⟩ => ⟨hp.left.inv, hp.right.inv, .inr (.inr ⟨rows, rs, out, hp⟩)⟩

/-- `nextTuple` from a state that is not at the end. -/
theorem advance_eq (h : JoinChildren p left right IL IR L R holds) (hL : L.length < rounds) (hR : R.length < rounds)
    {s : JoinState S T} {rows rs out : List Bytes} (hp : Pending p left right IL IR L R holds s rows rs out) :
    ∃ s', advance p left right rounds s = .ok s' ∧
      Advanced p left right IL IR L R holds s' (blockRest p holds s.leftBlock s.leftBlockIdx rs ++ out) := by
  have hp' : Pending p left right IL IR L R holds { s with currentTuple := none } rows rs out :=
    ⟨hp.left, ⟨hp.right.inv, hp.right.yields, hp.right.tuple, hp.right.subset, hp.right.length⟩, hp.block, hp.rest⟩
  exact advanceLoop_eq h hR hp' (Nat.lt_of_le_of_lt hp.left.length hL)

/-- **`beginTuple`** leaves all rows of the join to be returned. -/
theorem joinBegin_eq (h : JoinChildren p left right IL IR L R holds) (hL : L.length < rounds) (hR : R.length < rounds)
    {out : List Bytes} (hout : JoinRows p holds R L out) {s : JoinState S T} (hl : IL s.left) (hr : IR s.right) :
    ∃ s', joinBegin p left right rounds s = .ok s' ∧ Advanced p left right IL IR L R holds s' out := by
  obtain ⟨l, hstart, hl', hyields⟩ := h.left.start s.left hl
  have hat : AtLeft left IL L l L := ⟨hl', hyields, List.Subset.refl L, le_refl _⟩
  simp only [joinBegin, hstart, bind, Except.bind]
  rcases nextBlock_eq h (s := ⟨l, s.right, false, s.leftBlock, s.leftBlockIdx, none, s.currentTuple⟩) hat hr hout with
    ⟨s₂, hrefill, rfl, hl, hr⟩ | ⟨s₂, s₃, hrefill, hbegin, ⟨hend, rfl, hl, hr⟩ | ⟨hend, rows', out', -, hp, rfl⟩⟩
  · simp only [hrefill, Bool.false_eq_true, if_false]
    exact ⟨_, rfl, rfl, hl, hr⟩
  · simp only [hrefill, hbegin, hend, if_true]
    exact ⟨_, rfl, rfl, hl, hr⟩
  · simp only [hrefill, hbegin, hend, if_true, Bool.false_eq_true, if_false]
    exact advance_eq h hL hR hp

/-- What `advance` leaves behind is enumerated. -/
theorem Advanced.yields (h : JoinChildren p left right IL IR L R holds) (hL : L.length < rounds) (hR : R.length < rounds)
    {s : JoinState S T} {out : List Bytes} (hs : Advanced p left right IL IR L R holds s out) :
    (nestedLoopJoin p left right rounds).Yields s (out.map some) := by
  refine Cursor.Yields.of_sim (P := fun s rows => ∃ out, rows = out.map some ∧ Advanced p left right IL IR L R holds s out)
    ?_ ?_ ⟨out, rfl, hs⟩
  · rintro s ⟨out, hout, hadv⟩
    rw [List.map_eq_nil_iff.mp hout.symm] at hadv
    exact hadv.1
  · rintro s r rows ⟨out, hout, hadv⟩
    obtain ⟨o, os, rfl, rfl, rfl⟩ := List.map_eq_cons_iff.mp hout.symm
    obtain ⟨hgo, hcur, rows, rs, rest, hp, rfl⟩ := hadv
    obtain ⟨s', hadvance, hadv'⟩ := advance_eq h hL hR hp
    refine ⟨hgo, congrArg Except.ok hcur, s', ?_, _, rfl, hadv'⟩
    exact (if_neg (by rw [hgo]; exact Bool.false_ne_true)).trans hadvance

/-- **A join enumerates its rows**, from every state it gets into. -/
theorem enumerates_join (h : JoinChildren p left right IL IR L R holds) (hL : L.length < rounds) (hR : R.length < rounds)
    {out : List Bytes} (hout : JoinRows p holds R L out) :
    (nestedLoopJoin p left right rounds).Enumerates (JoinOk p left right IL IR L R holds) out where
  start s hs := by
    obtain ⟨s', hbegin, hadv⟩ := joinBegin_eq h hL hR hout hs.1 hs.2.1
    exact ⟨s', hbegin, hadv.ok, hadv.yields h hL hR⟩
  next s s' hs hgo hnext := by
    have hnot : ¬ s.isend = true := fun hend => by cases hend.symm.trans hgo
    have hadvance : advance p left right rounds s = .ok s' := (if_neg hnot).symm.trans hnext
    rcases hs.2.2 with hend | hnil | ⟨rows, rs, rest, hp⟩
    · exact absurd hend hnot
    · obtain ⟨rounds, rfl⟩ := Nat.exists_eq_succ_of_ne_zero (Nat.ne_of_gt (Nat.zero_lt_of_lt hL))
      rw [advance, advanceLoop, hnil, List.isEmpty_nil, if_pos rfl] at hadvance
      cases hadvance
      exact ⟨hs.1, hs.2.1, .inl rfl⟩
    · obtain ⟨s'', hadvance', hadv⟩ := advance_eq h hL hR hp
      cases hadvance.symm.trans hadvance'
      exact hadv.ok

/-- The state that the constructor sets. -/
def joinInit (l : S) (r : T) : JoinState S T := ⟨l, r, false, [], 0, none, none⟩

/-- **The nested loop join is right**: over children that enumerate `L` and `R` it returns the rows `l ++ r` that satisfy the
conditions, as often as there are such pairs, in a finite number of rounds and again from every state it gets into. -/
theorem nestedLoopJoin_correct (h : JoinChildren p left right IL IR L R holds) (hleft : ∀ l ∈ L, l.length = p.leftLen)
    (hright : ∀ r ∈ R, r.length = p.rightLen) :
    ∃ rows : List Bytes,
      (rows : Multiset Bytes) =
        (((L : Multiset Bytes) ×ˢ (R : Multiset Bytes)).filter fun x => holds x.1 x.2).map (fun x => x.1 ++ x.2) ∧
      ∃ N, ∀ rounds ≥ N, ∃ I : JoinState S T → Prop, (∀ l r, IL l → IR r → I (joinInit l r)) ∧
        (nestedLoopJoin p left right rounds).Enumerates I rows ∧
        ∀ s, I s → (nestedLoopJoin p left right rounds).all .assertion rounds s = .ok (rows.map some) := by
  obtain ⟨out, hout⟩ : ∃ out, JoinRows p holds R L out := exists_joinRows h.capacity R L.length L (le_refl _)
  refine ⟨out, ?_, L.length + R.length + out.length + 1, fun rounds hrounds =>
    ⟨JoinOk p left right IL IR L R holds, fun l r hl hr => ⟨hl, hr, .inr (.inl rfl)⟩, ?_, fun s hs => ?_⟩⟩
  · rw [hout.coe_eq, productRows]
    refine Multiset.map_congr rfl ?_
    intro x hx
    obtain ⟨hl, hr⟩ := Multiset.mem_product.mp (Multiset.mem_of_mem_filter hx)
    rw [joinTuple, ← hleft x.1 hl, ← hright x.2 hr, List.take_length, List.take_length]
  · exact enumerates_join h (by omega) (by omega) hout
  · have henum : (nestedLoopJoin p left right rounds).Enumerates _ out := enumerates_join h (by omega) (by omega) hout
    exact henum.all_eq hs (by rw [List.length_map]; omega)

end Run

/-- Two tables with a column of one byte each, joined on it. -/
theorem nestedLoopJoin_correct_equal :
    let p : JoinParams := ⟨[⟨"l", "a", .string, 1, 0⟩], [⟨"r", "b", .string, 1, 0⟩], 1, 1,
      [⟨⟨"l", "a"⟩, .eq, false, ⟨"r", "b"⟩, ⟨.int 0, none⟩⟩], 1⟩
    let rowsOf (rows : List Bytes) : Executor ℕ := Restart.ofList RMDBError (rows.map some) none
    ∃ rows : List Bytes, (rows : Multiset Bytes) = {[2, 2], [2, 2]} ∧ ∃ N, ∀ rounds ≥ N,
      (nestedLoopJoin p (rowsOf [[1], [2]]) (rowsOf [[2], [2]]) rounds).all .assertion rounds (joinInit 0 0) =
        .ok (rows.map some) := by
  intro p rowsOf
  have hconds : ∀ l ∈ [[1], [2]], ∀ r ∈ [[2], [2]], evalJoinConds p.leftCols p.rightCols l r p.fedConds = .ok (l == r) := by
    simp only [List.forall_mem_cons, List.not_mem_nil, false_implies, implies_true, and_true]
    exact ⟨⟨rfl, rfl⟩, rfl, rfl⟩
  obtain ⟨rows, hrows, N, hN⟩ := nestedLoopJoin_correct (p := p)
    ⟨Restart.enumerates_ofList _ _, Restart.enumerates_ofList _ _, hconds, Nat.one_pos⟩ (by decide) (by decide)
  refine ⟨rows, hrows.trans (by decide), N, ?_⟩
  intro rounds hrounds
  obtain ⟨I, hinit, -, hall⟩ := hN rounds hrounds
  exact hall _ (hinit 0 0 trivial trivial)

end Rmdb.Execution
