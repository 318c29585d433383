import Rmdb.Optimizer.Plan
import Mathlib.Data.List.Perm.Basic
import Mathlib.Data.List.Nodup

/-!
# Where conditions end up

The tables enter the tree of `make_one_rel` from the right to the left, in the order in which the
conditions that compare columns of two tables mention them (`enter`). Of the two tables of a
condition the one that stands left in the tree is the one on the left of the condition, as it is
attached: a condition is turned around if its right-hand table has come in after its left-hand one
(`orient`). `pushConds_spec` says this for a condition that goes down the tree, and `Joining.Inv`
carries it through the loop.

The conditions that stay in a table's scan are those that `pop_conds` has taken out for it. For the
first table these include every comparison of two columns of one table, whichever table it is
(`makeScans_spec`).
-/

namespace Rmdb.Optimizer

/-! ### The parts of a plan -/

namespace Plan

/-- The scans of a plan, from left to right. -/
def scans : Plan → List Plan
  | scan tag tabName conds cols => [scan tag tabName conds cols]
  | join left right _ => left.scans ++ right.scans

/-- The tables of a plan, from left to right. -/
def tables (plan : Plan) : List String := plan.scans.map (·.tabName)

/-- `conds_` of the topmost node. -/
def ownConds : Plan → List Condition
  | scan _ _ conds _ => conds
  | join _ _ conds => conds

/-- The conditions of the joins. -/
def joinConds : Plan → List Condition
  | scan .. => []
  | join left right conds => left.joinConds ++ right.joinConds ++ conds

/-- All conditions of a plan. -/
def conds (plan : Plan) : List Condition := plan.scans.flatMap ownConds ++ plan.joinConds

/-- Every condition of a join has its left-hand table on the left and its right-hand one on the right. -/
def JoinsOk : Plan → Prop
  | scan .. => True
  | join left right conds => left.JoinsOk ∧ right.JoinsOk ∧
      ∀ c ∈ conds, c.isRhsVal = false ∧ c.lhsCol.tabName ∈ left.tables ∧ c.rhsCol.tabName ∈ right.tables

/-- A scan. -/
def IsScan (plan : Plan) : Prop := ∃ tag cols, plan = scan tag plan.tabName plan.ownConds cols

theorem IsScan.parts {plan : Plan} (h : plan.IsScan) :
    plan.scans = [plan] ∧ plan.tables = [plan.tabName] ∧ plan.joinConds = [] ∧ plan.JoinsOk := by
  obtain ⟨tag, cols, h⟩ := h
  rw [h]
  exact ⟨rfl, rfl, rfl, trivial⟩

@[simp] theorem tables_scan (tag : ScanTag) (t : String) (conds : List Condition) (cols : List String) :
    (scan tag t conds cols).tables = [t] := rfl

@[simp] theorem tables_join (left right : Plan) (conds : List Condition) :
    (join left right conds).tables = left.tables ++ right.tables := List.map_append

end Plan

/-! ### The order of the tables -/

/-- The tables of the tree, from left to right, after a condition that compares columns of two tables. -/
def enter (order : List String) (cond : Condition) : List String :=
  if cond.lhsCol.tabName ∈ order then
    if cond.rhsCol.tabName ∈ order then order else cond.rhsCol.tabName :: order
  else if cond.rhsCol.tabName ∈ order then cond.lhsCol.tabName :: order
  else cond.lhsCol.tabName :: cond.rhsCol.tabName :: order

/-- The condition with the table that comes first on the left. -/
def orient (order : List String) (cond : Condition) : Condition :=
  if order.idxOf cond.lhsCol.tabName ≤ order.idxOf cond.rhsCol.tabName then cond else cond.swapped

section Order

variable {order A B : List String} {cond : Condition}

theorem orient_append_left (hl : cond.lhsCol.tabName ∈ A) (hr : cond.rhsCol.tabName ∈ A) :
    orient (A ++ B) cond = orient A cond := by
  rw [orient, orient, List.idxOf_append_of_mem hl, List.idxOf_append_of_mem hr]

theorem orient_append_right (hl : cond.lhsCol.tabName ∉ A) (hr : cond.rhsCol.tabName ∉ A) :
    orient (A ++ B) cond = orient B cond := by
  rw [orient, orient, List.idxOf_append_of_notMem hl, List.idxOf_append_of_notMem hr]
  simp only [Nat.add_le_add_iff_left]

theorem orient_append_straight (hl : cond.lhsCol.tabName ∈ A) (hr : cond.rhsCol.tabName ∉ A) :
    orient (A ++ B) cond = cond := by
  have hlt := List.idxOf_lt_length_of_mem hl
  rw [orient, List.idxOf_append_of_mem hl, List.idxOf_append_of_notMem hr, if_pos (by omega)]

theorem orient_append_swapped (hl : cond.lhsCol.tabName ∉ A) (hr : cond.rhsCol.tabName ∈ A) :
    orient (A ++ B) cond = cond.swapped := by
  have hlt := List.idxOf_lt_length_of_mem hr
  rw [orient, List.idxOf_append_of_mem hr, List.idxOf_append_of_notMem hl, if_neg (by omega)]

theorem mem_enter_lhs : cond.lhsCol.tabName ∈ enter order cond := by
  rw [enter]
  split_ifs <;> simp [*]

theorem mem_enter_rhs : cond.rhsCol.tabName ∈ enter order cond := by
  rw [enter]
  split_ifs <;> simp [*]

/-- What has entered stays where it is, and new tables come to the left of it. -/
theorem exists_enter (order : List String) (cond : Condition) : ∃ before, enter order cond = before ++ order ∧
    ∀ t ∈ before, t ∉ order ∧ (t = cond.lhsCol.tabName ∨ t = cond.rhsCol.tabName) := by
  rw [enter]
  split_ifs with hl hr hr
  · exact ⟨[], rfl, by simp⟩
  · exact ⟨[cond.rhsCol.tabName], rfl, by simp [hr]⟩
  · exact ⟨[cond.lhsCol.tabName], rfl, by simp [hl]⟩
  · exact ⟨[cond.lhsCol.tabName, cond.rhsCol.tabName], rfl, by simp [hl, hr]⟩

theorem nodup_enter (hnd : order.Nodup) (hne : cond.lhsCol.tabName ≠ cond.rhsCol.tabName) : (enter order cond).Nodup := by
  rw [enter]
  split_ifs with hl hr hr
  · exact hnd
  · exact List.nodup_cons.mpr ⟨hr, hnd⟩
  · exact List.nodup_cons.mpr ⟨hl, hnd⟩
  · exact List.nodup_cons.mpr ⟨by simp [hl, hne], List.nodup_cons.mpr ⟨hr, hnd⟩⟩

/-- The side on which a table stands is settled once it is in the tree. -/
theorem orient_enter {c : Condition} (hl : c.lhsCol.tabName ∈ order) (hr : c.rhsCol.tabName ∈ order) :
    orient (enter order cond) c = orient order c := by
  obtain ⟨before, heq, hbefore⟩ := exists_enter order cond
  rw [heq, orient_append_right (fun h => (hbefore _ h).1 hl) fun h => (hbefore _ h).1 hr]

end Order

/-! ### A condition goes down the tree -/

/-- What `push_conds` does: it attaches the condition if both tables are there, and says which one is there otherwise. -/
theorem pushConds_spec {cond : Condition} (hval : cond.isRhsVal = false) (hne : cond.lhsCol.tabName ≠ cond.rhsCol.tabName) :
    ∀ {plan : Plan}, plan.tables.Nodup → plan.JoinsOk →
      if cond.lhsCol.tabName ∈ plan.tables ∧ cond.rhsCol.tabName ∈ plan.tables then
        (pushConds cond plan).1 = 3 ∧ (pushConds cond plan).2.scans = plan.scans ∧ (pushConds cond plan).2.JoinsOk ∧
          (pushConds cond plan).2.joinConds.Perm (orient plan.tables cond :: plan.joinConds)
      else pushConds cond plan =
        (if cond.lhsCol.tabName ∈ plan.tables then 1 else if cond.rhsCol.tabName ∈ plan.tables then 2 else 0, plan) := by
  intro plan hnd hok
  induction plan with
  | scan tag t conds cols =>
    rw [if_neg fun h => hne ((List.mem_singleton.mp h.1).trans (List.mem_singleton.mp h.2).symm)]
    simp only [pushConds, Plan.tables_scan, List.mem_singleton, eq_comm]
  | join left right conds ihl ihr =>
    rw [Plan.tables_join] at hnd ⊢
    obtain ⟨hndl, hndr, hdis⟩ := List.nodup_append'.mp hnd
    have ihl := ihl hndl hok.1
    have ihr := ihr hndr hok.2.1
    by_cases hl : cond.lhsCol.tabName ∈ left.tables ∧ cond.rhsCol.tabName ∈ left.tables
    · rw [if_pos hl] at ihl
      obtain ⟨hcode, hscans, hjoins, hperm⟩ := ihl
      have htables : (pushConds cond left).2.tables = left.tables := congrArg (List.map Plan.tabName) hscans
      rw [if_pos ⟨List.mem_append_left _ hl.1, List.mem_append_left _ hl.2⟩, pushConds, if_pos hcode,
        orient_append_left hl.1 hl.2]
      refine ⟨rfl, congrArg (· ++ right.scans) hscans, ⟨hjoins, hok.2.1, ?_⟩, ?_⟩
      · intro c hc
        rw [htables]
        exact hok.2.2 c hc
      · exact (hperm.append_right _).append_right _
    · rw [if_neg hl] at ihl
      by_cases hr : cond.lhsCol.tabName ∈ right.tables ∧ cond.rhsCol.tabName ∈ right.tables
      · rw [if_pos hr] at ihr
        obtain ⟨hcode, hscans, hjoins, hperm⟩ := ihr
        have htables : (pushConds cond right).2.tables = right.tables := congrArg (List.map Plan.tabName) hscans
        have hnl : cond.lhsCol.tabName ∉ left.tables := fun h => hdis h hr.1
        have hnr : cond.rhsCol.tabName ∉ left.tables := fun h => hdis h hr.2
        rw [if_pos ⟨List.mem_append_right _ hr.1, List.mem_append_right _ hr.2⟩, pushConds, ihl, if_neg hnl, if_neg hnr,
          orient_append_right hnl hnr]
        simp only [if_neg (show ¬ (0 : ℕ) = 3 by decide), if_pos hcode]
        refine ⟨trivial, congrArg (left.scans ++ ·) hscans, ⟨hok.1, hjoins, ?_⟩, ?_⟩
        · intro c hc
          rw [htables]
          exact hok.2.2 c hc
        · refine ((hperm.append_left _).trans List.perm_middle).append_right _
      · rw [if_neg hr] at ihr
        rw [pushConds, ihl, ihr]
        -- which of the two tables is on which side
        by_cases hll : cond.lhsCol.tabName ∈ left.tables
        · have hrl : cond.rhsCol.tabName ∉ left.tables := fun h => hl ⟨hll, h⟩
          have hlr : cond.lhsCol.tabName ∉ right.tables := fun h => hdis hll h
          by_cases hrr : cond.rhsCol.tabName ∈ right.tables
          · simp only [if_neg hlr, List.mem_append, hll, hrr, true_or, or_true, and_self, if_true,
              orient_append_straight hll hrl]
            exact ⟨rfl, rfl, ⟨hok.1, hok.2.1, List.forall_mem_append.mpr ⟨hok.2.2, by simp [hval, hll, hrr]⟩⟩,
              (List.perm_append_singleton _ _).append_left _ |>.trans List.perm_middle⟩
          · simp [hll, hlr, hrl, hrr]
        · by_cases hlr : cond.lhsCol.tabName ∈ right.tables
          · have hrr : cond.rhsCol.tabName ∉ right.tables := fun h => hr ⟨hlr, h⟩
            by_cases hrl : cond.rhsCol.tabName ∈ left.tables
            · simp only [if_neg hll, List.mem_append, hlr, hrl, true_or, or_true, and_self, if_true,
                orient_append_swapped hll hrl]
              exact ⟨rfl, rfl, ⟨hok.1, hok.2.1, List.forall_mem_append.mpr
                ⟨hok.2.2, by simpa [Condition.swapped, hval] using ⟨hrl, hlr⟩⟩⟩,
                (List.perm_append_singleton _ _).append_left _ |>.trans List.perm_middle⟩
            · simp [hll, hlr, hrl, hrr]
          · by_cases hrl : cond.rhsCol.tabName ∈ left.tables
            · have hrr : cond.rhsCol.tabName ∉ right.tables := fun h => hdis hrl h
              simp [hll, hlr, hrl, hrr]
            · by_cases hrr : cond.rhsCol.tabName ∈ right.tables
              · simp [hll, hlr, hrl, hrr]
              · simp [hll, hlr, hrl, hrr]

/-! ### The scans -/

/-- Do both sides of the condition have one table? -/
def sameTable (cond : Condition) : Bool := cond.lhsCol.tabName = cond.rhsCol.tabName

/-- Does the condition compare columns of two tables? -/
def crossTable (cond : Condition) : Bool := !cond.isRhsVal && !sameTable cond

/-- The tables that a condition names are among these; a value has none. -/
structure Named (tables : List String) (cond : Condition) : Prop where
  left : cond.lhsCol.tabName ∈ tables
  val : cond.isRhsVal = true → cond.rhsCol.tabName = ""
  col : cond.isRhsVal = false → cond.rhsCol.tabName ∈ tables

theorem popsCond_of_sameTable (tabName : String) {cond : Condition} (h : sameTable cond = true) :
    popsCond tabName cond = true := by
  rw [popsCond, Bool.or_eq_true]
  exact Or.inr h

theorem popsCond_of_not_sameTable {tabName : String} {cond : Condition} (h : sameTable cond = false) :
    popsCond tabName cond = (tabName = cond.lhsCol.tabName && cond.isRhsVal) := by
  rw [sameTable] at h
  rw [popsCond, h, Bool.or_false]

section Scans

variable {db : DbMeta}

/-- **The scans**: their conditions are those that `pop_conds` has taken out, all comparisons of columns of one table among
them go to the first scan, and what remains has been taken out for no table. -/
theorem makeScans_spec : ∀ {tables : List String} (conds : List Condition), (∀ t ∈ tables, ∃ tab, db.tabs t = some tab) →
    ∃ scans, makeScans db tables conds = .ok (scans, conds.filter fun c => tables.all fun t => !popsCond t c) ∧
      scans.map (·.tabName) = tables ∧ (∀ s ∈ scans, s.IsScan) ∧
      (scans.flatMap Plan.ownConds ++ conds.filter fun c => tables.all fun t => !popsCond t c).Perm conds ∧
      (∀ s ∈ scans, ∀ c ∈ s.ownConds, c ∈ conds ∧ popsCond s.tabName c) ∧
      (∀ s ∈ scans.head?, s.ownConds = conds.filter (popsCond s.tabName)) ∧
      ∀ s ∈ scans.tail, ∀ c ∈ s.ownConds, sameTable c = false
  | [], conds, _ => ⟨[], by simp [makeScans], rfl, by simp, by simp, by simp, by simp, by simp⟩
  | t :: ts, conds, hdb => by
    obtain ⟨tab, htab⟩ := hdb t List.mem_cons_self
    obtain ⟨scans, hscans, htables, hshape, hperm, hown, -, -⟩ :=
      makeScans_spec (conds.filter fun c => !popsCond t c) fun t' ht' => hdb t' (List.mem_cons_of_mem _ ht')
    have hrest : (conds.filter fun c => !popsCond t c).filter (fun c => ts.all fun t' => !popsCond t' c) =
        conds.filter fun c => (t :: ts).all fun t' => !popsCond t' c := by
      rw [List.filter_filter]
      refine List.filter_congr ?_
      intro c _
      rw [List.all_cons, Bool.and_comm]
    rw [hrest] at hscans hperm
    -- the scan of the table, with or without an index
    obtain ⟨s, hs, hmake⟩ : ∃ s, (∃ tag cols, s = Plan.scan tag t (conds.filter (popsCond t)) cols) ∧
        makeScans db (t :: ts) conds = .ok (s :: scans, conds.filter fun c => (t :: ts).all fun t' => !popsCond t' c) := by
      simp only [makeScans, popConds, DbMeta.getTable, htab, hscans, bind, Except.bind]
      exact ⟨_, by split <;> exact ⟨_, _, rfl⟩, rfl⟩
    obtain ⟨tag, cols, rfl⟩ := hs
    refine ⟨_, hmake, congrArg (t :: ·) htables, ?_, ?_, ?_, ?_, ?_⟩
    · exact List.forall_mem_cons.mpr ⟨⟨tag, cols, rfl⟩, hshape⟩
    · rw [List.flatMap_cons, List.append_assoc]
      exact (hperm.append_left _).trans (List.filter_append_perm _ _)
    · refine List.forall_mem_cons.mpr ⟨fun c hc => List.mem_filter.mp hc, ?_⟩
      intro s hs c hc
      exact ⟨List.mem_of_mem_filter (hown s hs c hc).1, (hown s hs c hc).2⟩
    · rintro s hs
      obtain rfl := Option.some.inj hs
      rfl
    · intro s hs c hc
      have hpops := (List.mem_filter.mp (hown s hs c hc).1).2
      cases hsame : sameTable c with
      | false => rfl
      | true => simp [popsCond_of_sameTable t hsame] at hpops

/-- The conditions that remain are those on two tables. -/
theorem filter_popsCond {tables : List String} (hne : tables ≠ []) {conds : List Condition} (h : ∀ c ∈ conds, Named tables c) :
    (conds.filter fun c => tables.all fun t => !popsCond t c) = conds.filter crossTable := by
  refine List.filter_congr ?_
  intro c hc
  rw [crossTable, Bool.eq_iff_iff]
  cases hsame : sameTable c with
  | true =>
    obtain ⟨t, ts, rfl⟩ := List.exists_cons_of_ne_nil hne
    simp [popsCond_of_sameTable t hsame]
  | false =>
    simp only [popsCond_of_not_sameTable hsame, List.all_eq_true, Bool.not_false, Bool.and_true]
    cases hval : c.isRhsVal with
    | true => simpa using (h c hc).left
    | false => simp

end Scans

/-! ### The loop -/

/-- Which scans are in a tree of these tables. -/
def marks (scans : List Plan) (order : List String) : List Bool := scans.map fun s => decide (s.tabName ∈ order)

section Loop

variable {scans : List Plan} {order : List String}

/-- `pop_scan` finds the scan of a table and marks it. -/
theorem popScan_spec (order : List String) (hnd : (scans.map (·.tabName)).Nodup) {t : String}
    (ht : t ∈ scans.map (·.tabName)) (joinedTables : List String) : ∃ s ∈ scans, s.tabName = t ∧
      popScan scans t (marks scans order) joinedTables = (some s, marks scans (t :: order), joinedTables ++ [t]) := by
  obtain ⟨s, hs, rfl⟩ := List.mem_map.mp ht
  have hfound : (scans.findIdx? fun s' => decide (s'.tabName = s.tabName)).isSome := by
    rw [List.findIdx?_isSome]
    exact List.any_eq_true.mpr ⟨s, hs, decide_eq_true rfl⟩
  obtain ⟨i, hi⟩ := Option.isSome_iff_exists.mp hfound
  obtain ⟨hlt, hname, -⟩ := List.findIdx?_eq_some_iff_getElem.mp hi
  have hname := of_decide_eq_true hname
  refine ⟨scans[i], List.getElem_mem hlt, hname, ?_⟩
  simp only [popScan, hi, List.getElem?_eq_getElem hlt]
  congr 2
  refine List.ext_getElem (by simp [marks]) ?_
  intro j hj _
  have hj' : j < scans.length := by simpa [marks] using hj
  simp only [marks, List.getElem_set, List.getElem_map, List.mem_cons]
  split_ifs with hij
  · subst hij
    simp [hname]
  · have hneq : scans[j].tabName ≠ s.tabName := by
      rw [← hname]
      intro heq
      have hsame := List.inj_on_of_nodup_map hnd (List.getElem_mem hj') (List.getElem_mem hlt) heq
      exact hij ((List.Nodup.getElem_inj_iff (List.Nodup.of_map _ hnd)).mp hsame).symm
    simp [hneq]

/-- **The tree that the loop builds**, after some conditions: its tables have entered with these conditions, and every one
of them is attached once, to a join, with the table that came in later on the left. -/
structure Joining.Inv (scans : List Plan) (order : List String) (done : List Condition) (st : Joining) : Prop where
  nodup : order.Nodup
  entered : ∀ c ∈ done, c.lhsCol.tabName ∈ order ∧ c.rhsCol.tabName ∈ order
  scantbl : st.scantbl = marks scans order
  joinedTables : ∀ t, t ≠ "" → (t ∈ st.joinedTables ↔ t ∈ order)
  tables : st.plan.tables = order
  scans : ∀ s ∈ st.plan.scans, s ∈ scans
  joins : st.plan.JoinsOk
  conds : st.plan.joinConds.Perm (done.map (orient order))

/-- The loop has seen one condition more. -/
theorem Joining.Inv.extend {done : List Condition} {st st' : Joining} {cond : Condition} (h : st.Inv scans order done)
    (hne : cond.lhsCol.tabName ≠ cond.rhsCol.tabName) (hscantbl : st'.scantbl = marks scans (enter order cond))
    (hjoined : ∀ t, t ≠ "" → (t ∈ st'.joinedTables ↔ t ∈ enter order cond)) (htables : st'.plan.tables = enter order cond)
    (hscans : ∀ s ∈ st'.plan.scans, s ∈ scans) (hjoins : st'.plan.JoinsOk)
    (hconds : st'.plan.joinConds.Perm (orient (enter order cond) cond :: st.plan.joinConds)) :
    st'.Inv scans (enter order cond) (done ++ [cond]) := by
  obtain ⟨before, heq, -⟩ := exists_enter order cond
  refine ⟨nodup_enter h.nodup hne, ?_, hscantbl, hjoined, htables, hscans, hjoins, ?_⟩
  · intro c hc
    rcases List.mem_append.mp hc with hc | hc
    · obtain ⟨hl, hr⟩ := h.entered c hc
      rw [heq]
      exact ⟨List.mem_append_right _ hl, List.mem_append_right _ hr⟩
    · obtain rfl := List.mem_singleton.mp hc
      exact ⟨mem_enter_lhs, mem_enter_rhs⟩
  · have hkeep : done.map (orient (enter order cond)) = done.map (orient order) :=
      List.map_congr_left fun c hc => orient_enter (h.entered c hc).1 (h.entered c hc).2
    rw [List.map_append, hkeep]
    exact hconds.trans ((h.conds.cons _).trans (List.perm_append_singleton _ _).symm)

variable {tables : List String} {cond : Condition}

theorem marks_congr {order' : List String} (h : ∀ t, t ∈ order ↔ t ∈ order') : marks scans order = marks scans order' := by
  simp only [marks, h]

/-- The first condition: its two tables are joined. -/
theorem firstJoin_spec (hnd : (scans.map (·.tabName)).Nodup) (hshape : ∀ s ∈ scans, s.IsScan)
    (hnamed : Named (scans.map (·.tabName)) cond) (hcross : crossTable cond = true) :
    ∃ st, firstJoin scans cond = .ok st ∧ st.Inv scans (enter [] cond) [cond] := by
  obtain ⟨hval, hsame⟩ : cond.isRhsVal = false ∧ sameTable cond = false := by simpa [crossTable] using hcross
  have hne : cond.lhsCol.tabName ≠ cond.rhsCol.tabName := of_decide_eq_false hsame
  have hmarks : List.replicate scans.length false = marks scans [] := by
    simp [marks, List.map_const']
  obtain ⟨l, hl, hlname, hpopl⟩ := popScan_spec [] hnd hnamed.left (List.replicate scans.length "")
  obtain ⟨r, hr, hrname, hpopr⟩ := popScan_spec [cond.lhsCol.tabName] hnd (hnamed.col hval)
    (List.replicate scans.length "" ++ [cond.lhsCol.tabName])
  obtain ⟨hlscans, hltables, hlconds, hlok⟩ := (hshape l hl).parts
  obtain ⟨hrscans, hrtables, hrconds, hrok⟩ := (hshape r hr).parts
  have henter : enter [] cond = [cond.lhsCol.tabName, cond.rhsCol.tabName] := by simp [enter]
  have horient : orient (enter [] cond) cond = cond := by
    rw [henter]
    exact orient_append_straight (A := [cond.lhsCol.tabName]) (List.mem_singleton_self _) (by simpa using hne.symm)
  rw [hlname] at hltables
  rw [hrname] at hrtables
  refine ⟨⟨marks scans [cond.rhsCol.tabName, cond.lhsCol.tabName],
    List.replicate scans.length "" ++ [cond.lhsCol.tabName] ++ [cond.rhsCol.tabName], .join l r [cond]⟩, ?_, ?_⟩
  · simp only [firstJoin, hmarks, hpopl, hpopr]
  · refine ⟨nodup_enter List.nodup_nil hne, ?_, marks_congr ?_, ?_, ?_, ?_, ?_, ?_⟩
    · exact List.forall_mem_singleton.mpr ⟨mem_enter_lhs, mem_enter_rhs⟩
    · intro t
      simp [henter, or_comm]
    · intro t ht
      simp [henter, ht]
    · rw [Plan.tables_join, hltables, hrtables, henter]
      rfl
    · simp [Plan.scans, hlscans, hrscans, hl, hr]
    · refine ⟨hlok, hrok, List.forall_mem_singleton.mpr ⟨hval, ?_, ?_⟩⟩
      · rw [hltables]
        exact List.mem_singleton_self _
      · rw [hrtables]
        exact List.mem_singleton_self _
    · simp [Plan.joinConds, hlconds, hrconds, horient]

/-- **One more condition**, whichever of its tables are in the tree. -/
theorem joinNext_spec {done : List Condition} {st : Joining} (h : st.Inv scans order done)
    (hnd : (scans.map (·.tabName)).Nodup) (hnil : "" ∉ scans.map (·.tabName)) (hshape : ∀ s ∈ scans, s.IsScan)
    (hnamed : Named (scans.map (·.tabName)) cond) (hcross : crossTable cond = true) :
    ∃ st', joinNext scans st cond = .ok st' ∧ st'.Inv scans (enter order cond) (done ++ [cond]) := by
  obtain ⟨hval, hsame⟩ : cond.isRhsVal = false ∧ sameTable cond = false := by simpa [crossTable] using hcross
  have hne : cond.lhsCol.tabName ≠ cond.rhsCol.tabName := of_decide_eq_false hsame
  have hl := h.joinedTables cond.lhsCol.tabName fun h' => hnil (h' ▸ hnamed.left)
  have hr := h.joinedTables cond.rhsCol.tabName fun h' => hnil (h' ▸ hnamed.col hval)
  by_cases hlmem : cond.lhsCol.tabName ∈ order
  · by_cases hrmem : cond.rhsCol.tabName ∈ order
    · -- both are there: the condition goes down the tree
      have hpush := pushConds_spec hval hne (h.tables ▸ h.nodup) h.joins
      rw [h.tables, if_pos ⟨hlmem, hrmem⟩] at hpush
      obtain ⟨-, hscans, hjoins, hperm⟩ := hpush
      have henter : enter order cond = order := by rw [enter, if_pos hlmem, if_pos hrmem]
      refine ⟨⟨st.scantbl, st.joinedTables, (pushConds cond st.plan).2⟩, ?_, h.extend hne ?_ ?_ ?_ ?_ hjoins ?_⟩
      · simp only [joinNext, if_pos (hl.mpr hlmem), if_pos (hr.mpr hrmem)]
      · rw [henter, h.scantbl]
      · rw [henter]
        exact h.joinedTables
      · rw [henter, ← h.tables, Plan.tables, hscans, Plan.tables]
      · rw [hscans]
        exact h.scans
      · rwa [henter]
    · -- the right-hand table comes in, and the condition is turned around
      obtain ⟨s, hs, hname, hpop⟩ := popScan_spec order hnd (hnamed.col hval) st.joinedTables
      obtain ⟨hsscans, hstables, hsconds, hsok⟩ := (hshape s hs).parts
      rw [hname] at hstables
      have henter : enter order cond = cond.rhsCol.tabName :: order := by rw [enter, if_pos hlmem, if_neg hrmem]
      have horient : orient (enter order cond) cond = cond.swapped := by
        rw [henter]
        exact orient_append_swapped (A := [cond.rhsCol.tabName]) (by simpa using hne) (List.mem_singleton_self _)
      refine ⟨⟨marks scans (cond.rhsCol.tabName :: order), st.joinedTables ++ [cond.rhsCol.tabName],
        .join s st.plan [cond.swapped]⟩, ?_, h.extend hne ?_ ?_ ?_ ?_ ⟨hsok, h.joins, ?_⟩ ?_⟩
      · simp only [joinNext, if_pos (hl.mpr hlmem), if_neg (mt hr.mp hrmem), h.scantbl, hpop]
      · rw [henter]
      · intro t ht
        simp [henter, h.joinedTables t ht, or_comm]
      · rw [Plan.tables_join, hstables, h.tables, henter]
        rfl
      · simpa [Plan.scans, hsscans, hs] using h.scans
      · rw [hstables, h.tables]
        exact List.forall_mem_singleton.mpr ⟨hval, List.mem_singleton_self _, hlmem⟩
      · rw [horient, Plan.joinConds, hsconds]
        exact List.perm_append_singleton _ _
  · obtain ⟨s, hs, hname, hpop⟩ := popScan_spec order hnd hnamed.left st.joinedTables
    obtain ⟨hsscans, hstables, hsconds, hsok⟩ := (hshape s hs).parts
    rw [hname] at hstables
    by_cases hrmem : cond.rhsCol.tabName ∈ order
    · -- the left-hand table comes in
      have henter : enter order cond = cond.lhsCol.tabName :: order := by rw [enter, if_neg hlmem, if_pos hrmem]
      have horient : orient (enter order cond) cond = cond := by
        rw [henter]
        exact orient_append_straight (A := [cond.lhsCol.tabName]) (List.mem_singleton_self _) (by simpa using hne.symm)
      have hrjoined : cond.rhsCol.tabName ∈ st.joinedTables ++ [cond.lhsCol.tabName] :=
        List.mem_append_left _ (hr.mpr hrmem)
      refine ⟨⟨marks scans (cond.lhsCol.tabName :: order), st.joinedTables ++ [cond.lhsCol.tabName],
        .join s st.plan [cond]⟩, ?_, h.extend hne ?_ ?_ ?_ ?_ ⟨hsok, h.joins, ?_⟩ ?_⟩
      · simp only [joinNext, if_neg (mt hl.mp hlmem), h.scantbl, hpop, if_pos hrjoined]
      · rw [henter]
      · intro t ht
        simp [henter, h.joinedTables t ht, or_comm]
      · rw [Plan.tables_join, hstables, h.tables, henter]
        rfl
      · simpa [Plan.scans, hsscans, hs] using h.scans
      · rw [hstables, h.tables]
        exact List.forall_mem_singleton.mpr ⟨hval, List.mem_singleton_self _, hrmem⟩
      · rw [horient, Plan.joinConds, hsconds]
        exact List.perm_append_singleton _ _
    · -- both come in, joined with each other first
      obtain ⟨s', hs', hname', hpop'⟩ := popScan_spec (cond.lhsCol.tabName :: order) hnd (hnamed.col hval)
        (st.joinedTables ++ [cond.lhsCol.tabName])
      obtain ⟨hsscans', hstables', hsconds', hsok'⟩ := (hshape s' hs').parts
      rw [hname'] at hstables'
      have henter : enter order cond = cond.lhsCol.tabName :: cond.rhsCol.tabName :: order := by
        rw [enter, if_neg hlmem, if_neg hrmem]
      have horient : orient (enter order cond) cond = cond := by
        rw [henter]
        exact orient_append_straight (A := [cond.lhsCol.tabName]) (List.mem_singleton_self _) (by simpa using hne.symm)
      have hrjoined : cond.rhsCol.tabName ∉ st.joinedTables ++ [cond.lhsCol.tabName] := by
        simp [mt hr.mp hrmem, hne.symm]
      refine ⟨⟨marks scans (cond.rhsCol.tabName :: cond.lhsCol.tabName :: order),
        st.joinedTables ++ [cond.lhsCol.tabName] ++ [cond.rhsCol.tabName], .join (.join s s' [cond]) st.plan []⟩, ?_,
        h.extend hne ?_ ?_ ?_ ?_ ⟨⟨hsok, hsok', ?_⟩, h.joins, by simp⟩ ?_⟩
      · simp only [joinNext, if_neg (mt hl.mp hlmem), h.scantbl, hpop, if_neg hrjoined, hpop']
      · rw [henter]
        exact marks_congr fun t => by simp [or_left_comm]
      · intro t ht
        simp [henter, h.joinedTables t ht, or_comm, or_assoc]
      · rw [Plan.tables_join, Plan.tables_join, hstables, hstables', h.tables, henter]
        rfl
      · simpa [Plan.scans, hsscans, hsscans', hs, hs'] using h.scans
      · rw [hstables, hstables']
        exact List.forall_mem_singleton.mpr ⟨hval, List.mem_singleton_self _, List.mem_singleton_self _⟩
      · simp [horient, Plan.joinConds, hsconds, hsconds']

/-- The loop over the conditions. -/
theorem foldlM_joinNext (hnd : (scans.map (·.tabName)).Nodup) (hnil : "" ∉ scans.map (·.tabName))
    (hshape : ∀ s ∈ scans, s.IsScan) : ∀ {conds done : List Condition} {order : List String} {st : Joining},
    st.Inv scans order done → (∀ c ∈ conds, Named (scans.map (·.tabName)) c ∧ crossTable c = true) →
    ∃ st', conds.foldlM (joinNext scans) st = .ok st' ∧ st'.Inv scans (conds.foldl enter order) (done ++ conds)
  | [], done, _, st, h, _ => ⟨st, rfl, by rwa [List.append_nil]⟩
  | c :: conds, done, order, st, h, hconds => by
    obtain ⟨hnamed, hcross⟩ := hconds c List.mem_cons_self
    obtain ⟨st', hnext, h'⟩ := joinNext_spec h hnd hnil hshape hnamed hcross
    obtain ⟨st'', hrest, h''⟩ := foldlM_joinNext hnd hnil hshape h' fun c hc => hconds c (List.mem_cons_of_mem _ hc)
    refine ⟨st'', ?_, ?_⟩
    · rw [List.foldlM_cons, hnext]
      exact hrest
    · rwa [List.append_cons, List.foldl_cons]

end Loop

/-! ### The tables that are left -/

/-- The last loop joins the scans that are not marked, without conditions. -/
theorem joinRest_spec (mark : Plan → Bool) : ∀ {scans : List Plan} (plan : Plan), (∀ s ∈ scans, s.IsScan) → plan.JoinsOk →
    (joinRest scans (scans.map mark) plan).scans = (scans.filter fun s => !mark s).reverse ++ plan.scans ∧
      (joinRest scans (scans.map mark) plan).joinConds = plan.joinConds ∧ (joinRest scans (scans.map mark) plan).JoinsOk
  | [], _, _, hok => ⟨rfl, rfl, hok⟩
  | s :: scans, plan, hshape, hok => by
    have hshape' : ∀ s' ∈ scans, s'.IsScan := fun s' hs' => hshape s' (List.mem_cons_of_mem _ hs')
    cases hm : mark s with
    | true =>
      have hstep : joinRest (s :: scans) ((s :: scans).map mark) plan = joinRest scans (scans.map mark) plan := by
        simp [joinRest, hm]
      rw [hstep, List.filter_cons, if_neg (by simp [hm])]
      exact joinRest_spec mark plan hshape' hok
    | false =>
      have hstep : joinRest (s :: scans) ((s :: scans).map mark) plan =
          joinRest scans (scans.map mark) (.join s plan []) := by
        simp [joinRest, hm]
      obtain ⟨hsscans, -, hsconds, hsok⟩ := (hshape s List.mem_cons_self).parts
      obtain ⟨hscans, hconds, hjoins⟩ := joinRest_spec mark (.join s plan []) hshape' ⟨hsok, hok, by simp⟩
      rw [hstep, List.filter_cons, if_pos (by simp [hm])]
      refine ⟨?_, ?_, hjoins⟩
      · rw [hscans, Plan.scans, hsscans]
        simp
      · rw [hconds, Plan.joinConds, hsconds]
        simp

/-- Scans of a tree, without repetition, are the marked ones. -/
theorem scans_perm_filter {scans : List Plan} {plan : Plan} (hnd : (scans.map (·.tabName)).Nodup)
    (hplan : plan.tables.Nodup) (hsub : ∀ s ∈ plan.scans, s ∈ scans) :
    plan.scans.Perm (scans.filter fun s => decide (s.tabName ∈ plan.tables)) := by
  refine (List.perm_ext_iff_of_nodup (List.Nodup.of_map _ hplan) ((List.Nodup.of_map _ hnd).filter _)).mpr ?_
  intro s
  rw [List.mem_filter, decide_eq_true_eq]
  constructor
  · intro hs
    exact ⟨hsub s hs, List.mem_map_of_mem hs⟩
  · rintro ⟨hs, htab⟩
    obtain ⟨s', hs', heq⟩ := List.mem_map.mp htab
    rwa [← List.inj_on_of_nodup_map hnd (hsub s' hs') hs heq]

/-! ### The tree -/

/-- The tables that conditions on two tables bring in, from left to right. -/
def joinOrder (conds : List Condition) : List String := (conds.filter crossTable).foldl enter []

/-- **What `make_one_rel` makes** of tables and conditions. -/
structure OneRel (tables : List String) (conds : List Condition) (plan : Plan) : Prop where
  perm : plan.tables.Perm tables
  isScan : ∀ s ∈ plan.scans, s.IsScan
  own : ∀ s ∈ plan.scans, ∀ c ∈ s.ownConds, c ∈ conds ∧ popsCond s.tabName c
  first : ∀ s ∈ plan.scans, tables.head? = some s.tabName → s.ownConds = conds.filter (popsCond s.tabName)
  others : ∀ s ∈ plan.scans, tables.head? ≠ some s.tabName → ∀ c ∈ s.ownConds, sameTable c = false
  joins : plan.JoinsOk
  conds : plan.conds.Perm (conds.map (orient (joinOrder conds)))

section Tree

variable {db : DbMeta} {tables : List String} {conds : List Condition}

theorem mem_foldl_enter {t : String} : ∀ {conds : List Condition} {order : List String}, t ∈ conds.foldl enter order →
    t ∈ order ∨ ∃ c ∈ conds, t = c.lhsCol.tabName ∨ t = c.rhsCol.tabName
  | [], _, h => Or.inl h
  | c :: conds, order, h => by
    rw [List.foldl_cons] at h
    rcases mem_foldl_enter h with h | ⟨c', hc', ht⟩
    · obtain ⟨before, heq, hbefore⟩ := exists_enter order c
      rw [heq] at h
      rcases List.mem_append.mp h with h | h
      · exact Or.inr ⟨c, List.mem_cons_self, (hbefore t h).2⟩
      · exact Or.inl h
    · exact Or.inr ⟨c', List.mem_cons_of_mem _ hc', ht⟩

theorem joinOrder_subset (hnamed : ∀ c ∈ conds, Named tables c) {t : String} (ht : t ∈ joinOrder conds) : t ∈ tables := by
  rcases mem_foldl_enter ht with h | ⟨c, hc, h⟩
  · simp at h
  · obtain ⟨hmem, hcross⟩ := List.mem_filter.mp hc
    obtain ⟨hval, -⟩ : c.isRhsVal = false ∧ sameTable c = false := by simpa [crossTable] using hcross
    rcases h with rfl | rfl
    · exact (hnamed c hmem).left
    · exact (hnamed c hmem).col hval

/-- A condition that `pop_conds` takes out is not turned around. -/
theorem orient_of_not_crossTable (hnil : "" ∉ tables) (hnamed : ∀ c ∈ conds, Named tables c) {c : Condition} (hc : c ∈ conds)
    (hcross : crossTable c = false) : orient (joinOrder conds) c = c := by
  rw [orient, if_pos]
  cases hval : c.isRhsVal with
  | true =>
    have hrhs : c.rhsCol.tabName ∉ joinOrder conds := by
      rw [(hnamed c hc).val hval]
      exact fun h => hnil (joinOrder_subset hnamed h)
    rw [List.idxOf_eq_length_iff.mpr hrhs]
    exact List.idxOf_le_length
  | false =>
    have hsame : sameTable c = true := by simpa [crossTable, hval] using hcross
    rw [of_decide_eq_true hsame]

/-- The scans are joined: all of them, with the conditions on two tables. -/
theorem joinScans_spec {scans : List Plan} {cross : List Condition} (hmake : makeScans db tables conds = .ok (scans, cross))
    (hne : scans ≠ []) (hnd : (scans.map (·.tabName)).Nodup) (hnil : "" ∉ scans.map (·.tabName))
    (hshape : ∀ s ∈ scans, s.IsScan) (hcross : ∀ c ∈ cross, Named (scans.map (·.tabName)) c ∧ crossTable c = true) :
    ∃ plan, makeOneRel db tables conds = .ok plan ∧ plan.scans.Perm scans ∧ plan.JoinsOk ∧
      plan.joinConds.Perm (cross.map (orient (cross.foldl enter []))) := by
  have hrest : ∀ {order : List String} {plan : Plan}, plan.tables = order → order.Nodup → (∀ s ∈ plan.scans, s ∈ scans) →
      plan.JoinsOk → (joinRest scans (marks scans order) plan).scans.Perm scans ∧
        (joinRest scans (marks scans order) plan).JoinsOk ∧
        (joinRest scans (marks scans order) plan).joinConds = plan.joinConds := by
    rintro _ plan rfl horder hsub hjoins
    obtain ⟨hscans, hconds, hjoins⟩ := joinRest_spec (fun s => decide (s.tabName ∈ plan.tables)) plan hshape hjoins
    refine ⟨?_, hjoins, hconds⟩
    rw [marks, hscans]
    refine ((List.reverse_perm _).append (scans_perm_filter hnd horder hsub)).trans ?_
    exact List.perm_append_comm.trans (List.filter_append_perm _ _)
  obtain ⟨s, scans, rfl⟩ := List.exists_cons_of_ne_nil hne
  obtain ⟨hsscans, hstables, hsconds, hsok⟩ := (hshape s List.mem_cons_self).parts
  simp only [makeOneRel, hmake, bind, Except.bind]
  rcases scans with _ | ⟨s', scans⟩
  · -- one table: there is no condition on two
    obtain rfl : cross = [] := List.eq_nil_iff_forall_not_mem.mpr fun c hc => by
      obtain ⟨hnamed, hc⟩ := hcross c hc
      obtain ⟨hval, hsame⟩ : c.isRhsVal = false ∧ sameTable c = false := by simpa [crossTable] using hc
      have hl := hnamed.left
      have hr := hnamed.col hval
      simp only [List.map_cons, List.map_nil, List.mem_singleton] at hl hr
      exact of_decide_eq_false hsame (hl.trans hr.symm)
    exact ⟨s, rfl, by rw [hsscans], hsok, by rw [hsconds]; exact List.Perm.refl _⟩
  · rcases cross with _ | ⟨c, cross⟩
    · have hmarks : true :: List.replicate (s' :: scans).length false = marks (s :: s' :: scans) [s.tabName] := by
        have hnot := (List.nodup_cons.mp hnd).1
        rw [marks, List.map_cons, ← List.map_const']
        refine congrArg₂ List.cons (by simp) (List.map_congr_left ?_)
        intro s'' hs''
        have hname : s''.tabName ≠ s.tabName := fun h => hnot (List.mem_map.mpr ⟨s'', hs'', h⟩)
        simp [hname]
      obtain ⟨hscans, hjoins, hconds⟩ := hrest hstables (List.nodup_singleton _)
        (by simp [hsscans]) hsok
      refine ⟨_, rfl, ?_, ?_, ?_⟩
      · rwa [hmarks]
      · rwa [hmarks]
      · rw [hmarks, hconds, hsconds]
        exact List.Perm.refl _
    · obtain ⟨hnamed, hc⟩ := hcross c List.mem_cons_self
      obtain ⟨st, hfirst, hst⟩ := firstJoin_spec hnd hshape hnamed hc
      obtain ⟨st', hloop, hst'⟩ := foldlM_joinNext hnd hnil hshape hst fun c hc => hcross c (List.mem_cons_of_mem _ hc)
      obtain ⟨hscans, hjoins, hconds⟩ := hrest hst'.tables hst'.nodup hst'.scans hst'.joins
      simp only [hfirst, hloop]
      refine ⟨_, rfl, ?_, ?_, ?_⟩
      · rwa [hst'.scantbl]
      · rwa [hst'.scantbl]
      · rw [hst'.scantbl, hconds]
        exact hst'.conds

/-- **`make_one_rel`** on tables that are there and conditions that name them. -/
theorem makeOneRel_spec (hdb : ∀ t ∈ tables, ∃ tab, db.tabs t = some tab) (hne : tables ≠ []) (hnd : tables.Nodup)
    (hnil : "" ∉ tables) (hnamed : ∀ c ∈ conds, Named tables c) :
    ∃ plan, makeOneRel db tables conds = .ok plan ∧ OneRel tables conds plan := by
  obtain ⟨scans, hmake, htables, hshape, hperm, hown, hfirst, hothers⟩ := makeScans_spec conds hdb
  rw [filter_popsCond hne hnamed] at hmake hperm
  subst htables
  have hscansne : scans ≠ [] := fun h => hne (by rw [h]; rfl)
  obtain ⟨plan, hplan, hscans, hjoins, hconds⟩ := joinScans_spec hmake hscansne hnd hnil hshape fun c hc =>
    ⟨hnamed c (List.mem_of_mem_filter hc), (List.mem_filter.mp hc).2⟩
  obtain ⟨s₀, scans, rfl⟩ := List.exists_cons_of_ne_nil hscansne
  have hmem : ∀ {s}, s ∈ plan.scans → s ∈ s₀ :: scans := fun hs => hscans.subset hs
  refine ⟨plan, hplan, hscans.map _, fun s hs => hshape s (hmem hs), fun s hs => hown s (hmem hs), ?_, ?_, hjoins, ?_⟩
  · intro s hs hhead
    obtain rfl := List.inj_on_of_nodup_map hnd List.mem_cons_self (hmem hs) (Option.some.inj hhead)
    exact hfirst _ rfl
  · intro s hs hhead
    refine hothers s ((List.mem_cons.mp (hmem hs)).resolve_left ?_)
    rintro rfl
    exact hhead rfl
  · have hstay : ((s₀ :: scans).flatMap Plan.ownConds).map (orient (joinOrder conds)) =
        (s₀ :: scans).flatMap Plan.ownConds := by
      refine (List.map_congr_left ?_).trans (List.map_id _)
      intro c hc
      obtain ⟨s, hs, hc⟩ := List.mem_flatMap.mp hc
      obtain ⟨hc, hpops⟩ := hown s hs c hc
      refine orient_of_not_crossTable hnil hnamed hc ?_
      simp only [popsCond, crossTable, sameTable] at hpops ⊢
      cases hval : c.isRhsVal <;> simp_all
    calc plan.conds
      List.Perm _ ((s₀ :: scans).flatMap Plan.ownConds ++ (conds.filter crossTable).map (orient (joinOrder conds))) :=
        (hscans.flatMap_right _).append hconds
      List.Perm _ (((s₀ :: scans).flatMap Plan.ownConds ++ conds.filter crossTable).map (orient (joinOrder conds))) := by
        rw [List.map_append, hstay]
      List.Perm _ (conds.map (orient (joinOrder conds))) := hperm.map _

end Tree

end Rmdb.Optimizer
