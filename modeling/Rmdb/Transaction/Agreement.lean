import Rmdb.Execution.Atomic
import Rmdb.Execution.CreateIndex
import Rmdb.Transaction.Rollback

/-!
# Indexes over the life of a table

A table through any sequence of statements that succeed or fail, `CREATE INDEX`, commits and
rollbacks. Its indexes agree with it all the time but for two gaps. An `INSERT` that an index
rejects leaves its entries in the indexes before that one. And a rollback goes back to
records of before an index was made; two of these may have one key, and `insert_entry` drops
the second without a word. `run_agrees`: where neither happens, every index has exactly the
entries of the records, after every step.
-/

namespace Rmdb.Transaction

open Lib Record Index Execution Execution.Table
open Function (update)

/-! ### Going back -/

/-- What the rollback of a write does to the records. -/
def undoMap : WriteRecord → (Rid → Option Bytes) → Rid → Option Bytes
  | .insert _ rid, R => update R rid none
  | .delete _ rid record, R => update R rid (some record)
  | .update _ rid oldRecord, R => update R rid (some oldRecord)

/-- The rollback of a write finds what it needs. -/
def CanUndo (per : ℕ) (w : WriteRecord) (R : Rid → Option Bytes) : Prop :=
  match w with
  | .insert _ rid => (R rid).isSome
  | .delete _ rid _ => R rid = none ∧ RmFileHandle.RidOk per rid
  | .update _ rid _ => (R rid).isSome

/-- So does every round of the rollback of some writes, latest first. -/
def CanRollBack (per : ℕ) : List WriteRecord → (Rid → Option Bytes) → Prop
  | [], _ => True
  | w :: ws, R => CanUndo per w R ∧ CanRollBack per ws (undoMap w R)

/-- The records that a rollback goes back through, latest write first. -/
def pasts : List WriteRecord → (Rid → Option Bytes) → List (Rid → Option Bytes)
  | [], _ => []
  | w :: ws, R => undoMap w R :: pasts ws (undoMap w R)

/-- What a round of the rollback leaves. -/
structure Undone (w : WriteRecord) (t t' : Table) : Prop where
  ok : t'.Ok
  tab : t'.tab = t.tab
  per : t'.fh.numRecordsPerPage = t.fh.numRecordsPerPage
  records : t'.fh.records = undoMap w t.fh.records
  agrees : t.Agrees → (∀ index ∈ t.tab.indexes, KeysDiffer index (undoMap w t.fh.records)) → t'.Agrees

/-- A record that is put back has its key for itself, if no two records then have one key. -/
theorem free_of_keysDiffer {index : IndexMeta} {R : Rid → Option Bytes} {m : List ℤ → Option Rid} {rid : Rid} {rec : Bytes}
    (h : AgreesOn index R m) (hkeys : KeysDiffer index (update R rid (some rec))) :
    ∀ r, m (index.key rec) = some r → r = rid := by
  intro r hr
  by_contra hne
  obtain ⟨rec', hrec', hkey⟩ := (h _ _).mp hr
  exact hne (hkeys ((Function.update_of_ne hne ..).trans hrec') (Function.update_self ..) hkey)

/-- **A round of the rollback** succeeds. -/
theorem undo_spec {t : Table} {w : WriteRecord} (h : t.Ok) (hw : CanUndo t.fh.numRecordsPerPage w t.fh.records) :
    ∃ t', undo w t = (t', none) ∧ Undone w t t' := by
  cases w with
  | insert tab rid =>
    obtain ⟨rec, hrec⟩ := Option.isSome_iff_exists.mp hw
    obtain ⟨t', hrun, hbec⟩ := removeRow_spec h hrec
    refine ⟨t', by simp only [undo, RmFileHandle.getRecord_eq hrec, hrun], hbec.ok, hbec.tab, hbec.per, hbec.records, ?_⟩
    exact fun ha _ => hbec.agrees fun index hi => (ha index hi).delete hrec
  | delete tab rid record =>
    obtain ⟨hnone, hrid⟩ := hw
    obtain ⟨t', hrun, hbec⟩ := restoreRow_spec h record hrid hnone
    refine ⟨t', hrun, hbec.ok, hbec.tab, hbec.per, hbec.records, fun ha hkeys => hbec.agrees ?_⟩
    intro index hi
    refine (ha index hi).insert hnone ?_
    rw [Option.eq_none_iff_forall_ne_some]
    intro r hr
    obtain rfl := free_of_keysDiffer (ha index hi) (hkeys index hi) r hr
    obtain ⟨rec', hrec', -⟩ := (ha index hi _ _).mp hr
    rw [hnone] at hrec'
    cases hrec'
  | update tab rid oldRecord =>
    obtain ⟨current, hcurrent⟩ := Option.isSome_iff_exists.mp hw
    obtain ⟨t', hrun, hbec⟩ := replaceRow_spec h hcurrent current oldRecord
    refine ⟨t', by simp only [undo, RmFileHandle.getRecord_eq hcurrent, hrun], hbec.ok, hbec.tab, hbec.per, hbec.records, ?_⟩
    exact fun ha hkeys => hbec.agrees fun index hi =>
      (ha index hi).move_own hcurrent (free_of_keysDiffer (ha index hi) (hkeys index hi))

/-- **The rollback** succeeds. -/
theorem rollBack_spec : ∀ {ws : List WriteRecord} {t : Table}, t.Ok →
    CanRollBack t.fh.numRecordsPerPage ws t.fh.records →
    ∃ t', forEach undo ws t = (t', none) ∧ t'.Ok ∧ t'.tab = t.tab ∧
      (t.Agrees → (∀ index ∈ t.tab.indexes, ∀ P ∈ pasts ws t.fh.records, KeysDiffer index P) → t'.Agrees) := by
  intro ws
  induction ws with
  | nil => exact fun h _ => ⟨_, rfl, h, rfl, fun ha _ => ha⟩
  | cons w ws ih =>
    intro t h ⟨hw, hws⟩
    obtain ⟨t₁, hrun₁, h₁⟩ := undo_spec h hw
    rw [← h₁.records, ← h₁.per] at hws
    obtain ⟨t', hrun, hok, htab, hagrees⟩ := ih h₁.ok hws
    refine ⟨t', (forEach_cons_ok hrun₁).trans hrun, hok, htab.trans h₁.tab, ?_⟩
    intro ha hkeys
    refine hagrees (h₁.agrees ha fun index hi => hkeys index hi _ List.mem_cons_self) ?_
    intro index hi P hP
    rw [h₁.tab] at hi
    rw [h₁.records] at hP
    exact hkeys index hi P (List.mem_cons_of_mem _ hP)

/-! ### Going on -/

/-- The rollback of some writes, latest first, takes the records `R` to `R₀`. -/
def GoesBack (per : ℕ) : List WriteRecord → (Rid → Option Bytes) → (Rid → Option Bytes) → Prop
  | [], R, R₀ => R = R₀
  | w :: ws, R, R₀ => CanUndo per w R ∧ GoesBack per ws (undoMap w R) R₀

section Back

variable {per : ℕ} {ws ws' : List WriteRecord} {R R₁ R₀ : Rid → Option Bytes}

theorem GoesBack.append (h : GoesBack per ws R R₁) (h' : GoesBack per ws' R₁ R₀) : GoesBack per (ws ++ ws') R R₀ := by
  induction ws generalizing R with
  | nil => exact (show R = R₁ from h) ▸ h'
  | cons w ws ih => exact ⟨h.1, ih h.2⟩

theorem GoesBack.canRollBack (h : GoesBack per ws R R₁) (h' : CanRollBack per ws' R₁) : CanRollBack per (ws ++ ws') R := by
  induction ws generalizing R with
  | nil => exact (show R = R₁ from h) ▸ h'
  | cons w ws ih => exact ⟨h.1, ih h.2⟩

theorem GoesBack.pasts_append (h : GoesBack per ws R R₁) : pasts (ws ++ ws') R = pasts ws R ++ pasts ws' R₁ := by
  induction ws generalizing R with
  | nil => exact (show R = R₁ from h) ▸ rfl
  | cons w ws ih => rw [List.cons_append, pasts, pasts, List.cons_append, ih h.2]

end Back

/-- A statement, or a part of it, has gone on from `s` to `s'`: its writes can be rolled back. If `A` holds, indexes that
agreed with the table still do, and have agreed with it all the time. -/
structure Advance (A : Prop) (s s' : Session) : Prop where
  ok : s'.table.Ok
  tab : s'.table.tab = s.table.tab
  per : s'.table.fh.numRecordsPerPage = s.table.fh.numRecordsPerPage
  writes : ∃ ws, s'.writes = s.writes ++ ws ∧ (∀ w ∈ ws, w.tabName = s.table.tab.name) ∧
    GoesBack s.table.fh.numRecordsPerPage ws.reverse s'.table.fh.records s.table.fh.records ∧
    (A → s.table.Agrees → s'.table.Agrees ∧
      ∀ index ∈ s.table.tab.indexes, ∀ P ∈ pasts ws.reverse s'.table.fh.records, KeysDiffer index P)

section Advances

variable {A : Prop} {s s₁ s' : Session}

theorem Advance.refl (h : s.table.Ok) : Advance A s s :=
  ⟨h, rfl, rfl, [], (List.append_nil _).symm, nofun, rfl, fun _ ha => ⟨ha, fun _ _ _ hP => nomatch hP⟩⟩

theorem Advance.trans (h : Advance A s s₁) (h' : Advance A s₁ s') : Advance A s s' := by
  obtain ⟨ws, hw, hname, hback, hagrees⟩ := h.writes
  obtain ⟨ws', hw', hname', hback', hagrees'⟩ := h'.writes
  rw [h.per] at hback'
  refine ⟨h'.ok, h'.tab.trans h.tab, h'.per.trans h.per, ws ++ ws', ?_, ?_, ?_, ?_⟩
  · rw [hw', hw, List.append_assoc]
  · intro w hmem
    rcases List.mem_append.mp hmem with hmem | hmem
    · exact hname w hmem
    · rw [hname' w hmem, h.tab]
  · rw [List.reverse_append]
    exact hback'.append hback
  · intro hA ha
    obtain ⟨ha₁, hkeys⟩ := hagrees hA ha
    obtain ⟨ha', hkeys'⟩ := hagrees' hA ha₁
    refine ⟨ha', ?_⟩
    intro index hi P hP
    rw [List.reverse_append, hback'.pasts_append] at hP
    rcases List.mem_append.mp hP with hP | hP
    · exact hkeys' index (h.tab ▸ hi) P hP
    · exact hkeys index hi P hP

/-- One write, after which the indexes agree if they did before. -/
theorem Advance.write {w : WriteRecord} (hok : s'.table.Ok) (htab : s'.table.tab = s.table.tab)
    (hper : s'.table.fh.numRecordsPerPage = s.table.fh.numRecordsPerPage) (hw : s'.writes = s.writes ++ [w])
    (hname : w.tabName = s.table.tab.name) (hcan : CanUndo s.table.fh.numRecordsPerPage w s'.table.fh.records)
    (hundo : undoMap w s'.table.fh.records = s.table.fh.records) (hagrees : s.table.Agrees → s'.table.Agrees) :
    Advance A s s' := by
  refine ⟨hok, htab, hper, [w], hw, ?_, ⟨hcan, hundo⟩, fun _ ha => ⟨hagrees ha, ?_⟩⟩
  · intro v hv
    rw [List.mem_singleton.mp hv, hname]
  · intro index hi P hP
    obtain rfl : P = undoMap w s'.table.fh.records := by simpa [pasts] using hP
    rw [hundo]
    exact (ha index hi).keysDiffer

variable (h : s.table.Ok)
include h

/-- **A row that is inserted.** -/
theorem insert_advance {values : List Value} (hrun : s.insert values = (s', none)) : Advance A s s' := by
  obtain ⟨rec, rid, -, -, hw, hnone, -, hnew, hbec⟩ := Session.insert_cases h hrun
  refine .write hbec.ok hbec.tab hbec.per hw rfl ?_ ?_ fun ha => hbec.agrees ?_
  · rw [hbec.records]
    simp only [CanUndo, Function.update_self, Option.isSome_some]
  · rw [hbec.records, undoMap, Function.update_idem, ← hnone, Function.update_eq_self]
  · intro index hi
    exact (ha index hi).insert hnone (hnew index hi)

/-- **A row that is updated.** -/
theorem updateRow_advance {setClauses : List SetClause} {rid : Rid} : Advance A s (s.updateRow setClauses rid).1 := by
  rcases hrun : s.updateRow setClauses rid with ⟨s', _ | e⟩
  · obtain ⟨old, new, hold, -, hw, hno, hbec⟩ := Session.updateRow_cases h hrun
    refine .write hbec.ok hbec.tab hbec.per hw rfl ?_ ?_ fun ha => hbec.agrees ?_
    · rw [hbec.records]
      simp only [CanUndo, Function.update_self, Option.isSome_some]
    · rw [hbec.records, undoMap, Function.update_idem, ← hold, Function.update_eq_self]
    · intro index hi
      refine (ha index hi).move hold ?_
      intro hne
      by_contra hkey
      exact hno index hi ⟨hne, hkey⟩
  · obtain rfl := (updateRow_error h hrun).1
    exact .refl h

/-- **A row that is deleted.** -/
theorem deleteRow_advance {rid : Rid} : Advance A s (s.deleteRow rid).1 := by
  rcases hrun : s.deleteRow rid with ⟨s', _ | e⟩
  · obtain ⟨rec, hrec, hw, hbec⟩ := Session.deleteRow_cases h hrun
    refine .write hbec.ok hbec.tab hbec.per hw rfl ?_ ?_ fun ha => hbec.agrees fun index hi => (ha index hi).delete hrec
    · rw [hbec.records]
      exact ⟨Function.update_self .., (RmFileHandle.inFile_of_records hrec).ridOk⟩
    · rw [hbec.records, undoMap, Function.update_idem, ← hrec, Function.update_eq_self]
  · obtain rfl := (deleteRow_error h hrun).1
    exact .refl h

/-- An `INSERT` that the first index does not reject is rejected by no other. -/
def Clean (t : Table) : Stmt → Prop
  | .insert values => ∀ rec, makeRecord t.tab values = .ok rec → ∀ index rest, t.tab.indexes = index :: rest →
    t.entry index (index.key rec) = none → ∀ i ∈ rest, t.entry i (i.key rec) = none
  | _ => True

/-- **A row that is not inserted** leaves the records alone, and the indexes too if the first one has rejected it. -/
theorem insert_rejected {values : List Value} {e : RMDBError} (hrun : s.insert values = (s', some e)) :
    Advance (Clean s.table (.insert values)) s s' := by
  rw [Session.insert] at hrun
  split at hrun
  · obtain ⟨rfl, -⟩ := Prod.mk.inj hrun
    exact .refl h
  · rename_i rec hrec
    split at hrun
    · obtain ⟨rfl, -⟩ := Prod.mk.inj hrun
      exact .refl h
    · rename_i f' rid hins
      obtain ⟨hnone, -, hfile⟩ := RmFileHandle.insertRecord_cases h.pages h.first hins
      have hok : ({ s.table with fh := f' } : Table).IndexesOk := h.indexes
      have hstored : f'.records rid = some rec := by rw [hfile.records, Function.update_self]
      obtain ⟨f₂, hdel, hfile₂⟩ := RmFileHandle.deleteRecord_spec hfile.pages hstored
      rcases first_with_key { s.table with fh := f' } rec s.table.tab.indexes with hall | ⟨A, index, B, hsplit, hA, hold⟩
      · obtain ⟨t', hloop, -⟩ := insertEntries_spec hok rid (fun _ hi => hi) h.nodup hall
        rw [hloop] at hrun
        cases hrun
      · have hsub : ∀ i ∈ A ++ index :: B, i ∈ s.table.tab.indexes := by rw [← hsplit]; exact fun _ hi => hi
        obtain ⟨t₁, hrew, hloop⟩ := insertEntries_rejected hok hsub (by rw [← hsplit]; exact h.nodup) hA hold hdel
        rw [hsplit, hloop] at hrun
        obtain ⟨rfl, -⟩ := Prod.mk.inj hrun
        have hrecords : f₂.records = s.table.fh.records := by
          rw [hfile₂.records, hfile.records, Function.update_idem, ← hnone, Function.update_eq_self]
        have htab : t₁.tab = s.table.tab := hrew.tab
        refine ⟨⟨hfile₂.pages, h.first.trans (hfile.grows.trans hfile₂.grows), hrew.ok, ?_⟩, htab, hfile₂.per.trans hfile.per, [],
          (List.append_nil _).symm, nofun, hrecords, fun hclean ha => ⟨?_, fun _ _ _ hP => nomatch hP⟩⟩
        · rw [htab]
          exact h.nodup
        · intro i hi
          -- no index before the one that has rejected the row: nothing has been inserted
          obtain rfl : A = [] := by
            cases A with
            | nil => rfl
            | cons a A => exact absurd (hclean rec hrec a (A ++ index :: B) hsplit (hA a List.mem_cons_self) index (by simp)) hold
          have hentry : t₁.entry i = s.table.entry i := (hrew.entry i).trans (if_neg List.not_mem_nil)
          rw [show Table.entry { t₁ with fh := f₂ } i = t₁.entry i from rfl, hentry, hrecords]
          exact ha i (htab ▸ hi)

/-- **A statement**, whether it succeeds or fails. -/
theorem exec_advance (stmt : Stmt) : Advance (Clean s.table stmt) s (stmt.exec s).1 := by
  cases stmt with
  | insert values =>
    rcases hrun : s.insert values with ⟨s', _ | e⟩
    · exact (congrArg Prod.fst hrun).symm ▸ insert_advance h hrun
    · exact (congrArg Prod.fst hrun).symm ▸ insert_rejected h hrun
  | update setClauses rids =>
    exact forEach_keeps (P := Advance True s) (fun rid _ u hu => hu.trans (updateRow_advance hu.ok)) (.refl h)
  | delete rids =>
    exact forEach_keeps (P := Advance True s) (fun rid _ u hu => hu.trans (deleteRow_advance hu.ok)) (.refl h)

end Advances

/-! ### The life of a table -/

/-- A table with the transaction that writes it. -/
structure TableState where
  /-- The table and the write set. -/
  session : Session
  /-- The indexes that the table had when the write set was empty last. No step depends on them. -/
  base : List IndexMeta

/-- What happens to a table. -/
inductive TableEvent where
  /-- A statement, of the transaction that holds the table's lock. -/
  | stmt (stmt : Stmt)
  /-- `create_index`, of any session. -/
  | createIndex (opening : Opening) (colNames : List String)
  /-- `commit`: the write set is cleared. -/
  | commit
  /-- `abort`. -/
  | abort

namespace TableState

/-- A table that no transaction has written. -/
def start (t : Table) : TableState := ⟨⟨t, []⟩, t.tab.indexes⟩

/-- The indexes that are there when nothing has been written. -/
def settle (s : TableState) : TableState :=
  if s.session.writes = [] then { s with base := s.session.table.tab.indexes } else s

/-- A step. -/
def step (s : TableState) : TableEvent → TableState
  | .stmt stmt => settle { s with session := (stmt.exec s.session).1 }
  | .createIndex opening colNames => settle { s with session.table := (s.session.table.createIndex opening colNames).1 }
  | .commit => settle { s with session.writes := [] }
  | .abort => settle { s with session := ⟨(forEach undo s.session.writes.reverse s.session.table).1, []⟩ }

/-- A sequence of steps. -/
def run (s : TableState) (events : List TableEvent) : TableState := events.foldl step s

/-- No gap: an `INSERT` is `Clean`, and a rollback goes back through records that have different keys in the indexes that
have been made meanwhile. -/
def Meets (s : TableState) : TableEvent → Prop
  | .stmt stmt => Clean s.session.table stmt
  | .abort => ∀ index ∈ s.session.table.tab.indexes, index ∉ s.base →
    ∀ P ∈ pasts s.session.writes.reverse s.session.table.fh.records, KeysDiffer index P
  | _ => True

/-- No step of a sequence has a gap. -/
def MeetsAll : TableState → List TableEvent → Prop
  | _, [] => True
  | s, e :: events => s.Meets e ∧ MeetsAll (s.step e) events

/-- The table is in order, its indexes agree with it, and what has been written can be rolled back; the indexes that were
there before have different keys all the way back. -/
structure Inv (s : TableState) : Prop where
  ok : s.session.table.Ok
  agrees : s.session.table.Agrees
  back : CanRollBack s.session.table.fh.numRecordsPerPage s.session.writes.reverse s.session.table.fh.records
  base : ∀ index ∈ s.base, index ∈ s.session.table.tab.indexes ∧
    ∀ P ∈ pasts s.session.writes.reverse s.session.table.fh.records, KeysDiffer index P

theorem Inv.settle {s : TableState} (h : s.Inv) : s.settle.Inv := by
  rw [TableState.settle]
  split_ifs with hw
  · refine ⟨h.ok, h.agrees, h.back, fun index hi => ⟨hi, ?_⟩⟩
    intro P hP
    simp only [hw] at hP
    cases hP
  · exact h

theorem inv_start {t : Table} (h : t.Ok) (ha : t.Agrees) : (start t).Inv :=
  ⟨h, ha, trivial, fun _ hi => ⟨hi, fun _ hP => nomatch hP⟩⟩

/-- **A step** without a gap keeps the indexes in agreement. -/
theorem Inv.step {s : TableState} (h : s.Inv) {e : TableEvent} (hmeets : s.Meets e) : (s.step e).Inv := by
  cases e with
  | stmt stmt =>
    refine Inv.settle ?_
    have hadv := exec_advance h.ok stmt
    obtain ⟨ws, hw, -, hback, hagrees⟩ := hadv.writes
    obtain ⟨ha, hkeys⟩ := hagrees hmeets h.agrees
    have hrev : (stmt.exec s.session).1.writes.reverse = ws.reverse ++ s.session.writes.reverse := by
      rw [hw, List.reverse_append]
    refine ⟨hadv.ok, ha, ?_, fun index hi => ⟨?_, ?_⟩⟩
    · simp only [hrev, hadv.per]
      exact hback.canRollBack h.back
    · simp only [hadv.tab]
      exact (h.base index hi).1
    · intro P hP
      simp only [hrev, hback.pasts_append] at hP
      rcases List.mem_append.mp hP with hP | hP
      · exact hkeys index (h.base index hi).1 P hP
      · exact (h.base index hi).2 P hP
  | createIndex opening colNames =>
    refine Inv.settle ?_
    rcases hrun : s.session.table.createIndex opening colNames with ⟨t', e⟩
    obtain ⟨hok, ha⟩ := createIndex_agrees h.ok h.agrees hrun
    rcases createIndex_spec h.ok hrun with rfl | ⟨index, ih, -, rfl, -⟩
    · exact h
    · exact ⟨hok, ha, h.back, fun i hi => ⟨List.mem_append_left _ (h.base i hi).1, (h.base i hi).2⟩⟩
  | commit => exact Inv.settle ⟨h.ok, h.agrees, trivial, fun i hi => ⟨(h.base i hi).1, fun _ hP => nomatch hP⟩⟩
  | abort =>
    refine Inv.settle ?_
    obtain ⟨t', hrun, hok, htab, hagrees⟩ := rollBack_spec h.ok h.back
    have ha : t'.Agrees := hagrees h.agrees fun index hi P hP => by
      by_cases hbase : index ∈ s.base
      · exact (h.base index hbase).2 P hP
      · exact hmeets index hi hbase P hP
    simp only [hrun]
    exact ⟨hok, ha, trivial, fun i hi => ⟨htab.symm ▸ (h.base i hi).1, fun _ hP => nomatch hP⟩⟩

theorem inv_run {events : List TableEvent} : ∀ {s : TableState}, s.Inv → s.MeetsAll events → (s.run events).Inv := by
  induction events with
  | nil => exact fun h _ => h
  | cons e events ih => exact fun h ⟨hmeets, hrest⟩ => ih (h.step hmeets) hrest

/-- **The indexes agree** with the table after every step of every sequence without a gap. -/
theorem run_agrees {t : Table} (h : t.Ok) (ha : t.Agrees) {events : List TableEvent} (hmeets : (start t).MeetsAll events) :
    ((start t).run events).session.table.Agrees :=
  (inv_run (inv_start h ha) hmeets).agrees

/-- The table `k (a INT, b INT)` with an index on each of them, just created. -/
def tableTwo : Table :=
  Table.create ⟨"k", [colK, ⟨"k", "b", .int, 4, 4⟩], [⟨"k", [colK]⟩, ⟨"k", [⟨"k", "b", .int, 4, 4⟩]⟩]⟩
    ⟨1, 501, RM_NO_PAGE, fun _ => ⟨0, 0, []⟩⟩ 338

theorem tableTwo_spec : tableTwo.Ok ∧ tableTwo.Agrees :=
  Table.create_spec (by decide) (show (1 : ℤ) ≤ 8 by decide) (by decide) rfl (by decide)

/-- A row is inserted, and the transaction is rolled back. -/
theorem run_agrees_abort :
    ((start tableTwo).run [.stmt (.insert [valueK 1, valueK 1]), .abort]).session.table.Agrees := by
  refine run_agrees tableTwo_spec.1 tableTwo_spec.2 ⟨?_, fun index hi hbase => absurd hi hbase, trivial⟩
  rintro rec - index rest - - i -
  rfl

/-- The second row is rejected by the second index. Its entry in the first one stays, under a rid that has no record. -/
theorem run_agrees_fails : ¬ ∀ t : Table, t.Ok → t.Agrees → ∀ events, ((start t).run events).session.table.Agrees := by
  intro hall
  have hagrees := hall tableTwo tableTwo_spec.1 tableTwo_spec.2
    [.stmt (.insert [valueK 1, valueK 1]), .stmt (.insert [valueK 2, valueK 1])] ⟨"k", [colK]⟩ List.mem_cons_self
  obtain ⟨rec, hrec, -⟩ := (hagrees [2] ⟨1, 1⟩).mp (by decide +kernel)
  have hnone : ((start tableTwo).run [.stmt (.insert [valueK 1, valueK 1]),
      .stmt (.insert [valueK 2, valueK 1])]).session.table.fh.records ⟨1, 1⟩ = none := by decide +kernel
  rw [hnone] at hrec
  cases hrec

end TableState

end Rmdb.Transaction
