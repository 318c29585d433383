import Rmdb.Execution.Agree
import Rmdb.Index.Header
import Rmdb.Record.Scan

/-!
# Making and dropping an index

`SmManager::create_index` scans the table and inserts the key of every record into the new
index, unless the index has the key already: then it throws, and the index is removed. So an
index that has been made agrees with its table (`createIndex_spec`). `SmManager::drop_index`
forgets an index.

Whether the index file can be created and opened is an argument.
-/

namespace Rmdb.Execution

open Lib Record Index
open Function (update)

/-! ### Some of the records -/

/-- The records at some rids. -/
def recordsAt (f : RmFileHandle) (L : List Rid) : Rid → Option Bytes := fun r => if r ∈ L then f.records r else none

theorem recordsAt_nil (f : RmFileHandle) : recordsAt f [] = fun _ => none := funext fun _ => if_neg List.not_mem_nil

theorem recordsAt_concat {f : RmFileHandle} {L : List Rid} {r : Rid} {rec : Bytes} (hrec : f.records r = some rec) :
    recordsAt f (L ++ [r]) = update (recordsAt f L) r (some rec) := by
  funext r'
  rw [Function.update_apply]
  by_cases heq : r' = r
  · simp only [recordsAt, heq, List.mem_append, List.mem_singleton, or_true, if_true, hrec]
  · simp only [recordsAt, heq, List.mem_append, List.mem_singleton, or_false, if_false]

theorem recordsAt_rids (f : RmFileHandle) : recordsAt f f.rids = f.records := by
  funext r
  by_cases hmem : r ∈ f.rids
  · exact if_pos hmem
  · have hnone := Option.not_isSome_iff_eq_none.mp (mt RmFileHandle.mem_rids.mpr hmem)
    exact (if_neg hmem).trans hnone.symm

theorem agreesOn_nil (index : IndexMeta) : AgreesOn index (fun _ => none) fun _ => none :=
  fun _ _ => iff_of_false nofun fun ⟨_, hrec, _⟩ => nomatch hrec

/-- No two records have one key. -/
def KeysDiffer (index : IndexMeta) (R : Rid → Option Bytes) : Prop :=
  ∀ {rid rid' rec rec'}, R rid = some rec → R rid' = some rec' → index.key rec = index.key rec' → rid = rid'

theorem AgreesOn.keysDiffer {index : IndexMeta} {R : Rid → Option Bytes} {m : List ℤ → Option Rid}
    (h : AgreesOn index R m) : KeysDiffer index R := by
  intro rid rid' rec rec' hrec hrec' hkey
  have hentry := h.entry hrec
  rw [hkey, h.entry hrec'] at hentry
  exact (Option.some.inj hentry).symm

/-! ### `create_index` -/

/-- The loop over the records, with as many rounds left. -/
def loadIndex (f : RmFileHandle) (index : IndexMeta) :
    ℕ → Rid → IxIndexHandle (List ℤ) → Except RMDBError (IxIndexHandle (List ℤ))
  | 0, _, _ => .error .assertion
  | rounds + 1, rid, ih =>
    if f.scanIsEnd rid then .ok ih
    else
      match f.getRecord rid with
      | .error e => .error (.record e)
      | .ok rec =>
        match ih.getValue (index.key rec) with
        | none => .error .assertion
        | some (some _) => .error (.indexExists index.tabName index.colNames)
        | some none =>
          match ih.insertEntry (index.key rec) rid with
          | none => .error .assertion
          | some (ih, _) =>
            match f.scanNext rid with
            | .error e => .error (.record e)
            | .ok rid => loadIndex f index rounds rid ih

/-- The handle of the new index, with the keys of all records. -/
def buildIndex (f : RmFileHandle) (index : IndexMeta) : Except RMDBError (IxIndexHandle (List ℤ)) :=
  match f.scanBegin with
  | .error e => .error (.record e)
  | .ok rid =>
    loadIndex f index (f.numPages.toNat * f.numRecordsPerPage + 1) rid (.createIndex (btreeOrderOf (colTotLen index.shape)))

/-- How `IxManager::create_index` and `open_index` end: they throw, or there is an empty index, whose key is not too
long. -/
structure Opening where
  /-- What is thrown, if something is. -/
  thrown : IndexMeta → Option RMDBError
  /-- A key that is too long is refused. -/
  refused : ∀ index, thrown index = none → colTotLen index.shape ≤ IX_MAX_COL_LEN

/-- A table with one more index. -/
def Table.addIndex (t : Table) (index : IndexMeta) (ih : IxIndexHandle (List ℤ)) : Table :=
  ⟨{ t.tab with indexes := t.tab.indexes ++ [index] }, t.fh, update t.ihs index ih⟩

/-- `SmManager::create_index`. -/
def Table.createIndex (opening : Opening) (colNames : List String) (t : Table) : Table × Option RMDBError :=
  if t.tab.isIndex colNames then (t, some (.indexExists t.tab.name colNames))
  else
    match colNames.mapM t.tab.getCol with
    | .error e => (t, some e)
    | .ok cols =>
      let index : IndexMeta := ⟨t.tab.name, cols⟩
      match opening.thrown index with
      | some e => (t, some e)
      | none =>
        match buildIndex t.fh index with
        | .error e => (t, some e)
        | .ok ih => (t.addIndex index ih, none)

section Load

variable {f : RmFileHandle} {index : IndexMeta}

/-- The loop has inserted the keys of the records that it has visited; no key was there before. -/
theorem loadIndex_ok {rid rid' : Rid} {L : List Rid} (hv : f.rmScan.Visits rid L rid') (hend : f.rmScan.isEnd rid' = true) :
    ∀ {rounds : ℕ} {ih ih' : IxIndexHandle (List ℤ)} {done : List Rid} {lv : List (Leaf (List ℤ))}
      {lvls : List (List (Inner (List ℤ)))}, ih.Inv lv lvls → AgreesOn index (recordsAt f done) (lookupKey (contents lv)) →
      (done ++ L).Nodup → loadIndex f index rounds rid ih = .ok ih' →
      ∃ lv' lvls', ih'.Inv lv' lvls' ∧ AgreesOn index (recordsAt f (done ++ L)) (lookupKey (contents lv')) := by
  induction hv with
  | nil rid =>
    rintro (_ | rounds) ih ih' done lv lvls hinv hagree - hload
    · cases hload
    · have hend' : f.scanIsEnd rid = true := hend
      rw [loadIndex, if_pos hend'] at hload
      cases hload
      exact ⟨lv, lvls, hinv, by rwa [List.append_nil]⟩
  | @cons rid next rid' r L hgo hread hnext _ hrest =>
    rintro (_ | rounds) ih ih' done lv lvls hinv hagree hnodup hload
    · cases hload
    · obtain rfl : rid = r := Except.ok.inj hread
      have hgo' : f.scanIsEnd rid = false := hgo
      have hnext' : f.scanNext rid = .ok next := hnext
      simp only [loadIndex, hgo', Bool.false_eq_true, if_false, hnext'] at hload
      split at hload
      · cases hload
      · rename_i rec hget
        have hrec := RmFileHandle.records_of_getRecord hget
        rw [hinv.getValue_eq] at hload
        split at hload
        · cases hload
        · cases hload
        · rename_i hfree
          obtain ⟨ih₁, lv₁, lvls₁, hrun, hinv₁, hmap⟩ := apply_inv hinv (.insert (index.key rec) rid)
          obtain ⟨⟨ih₂, leaf⟩, hins, rfl⟩ := Option.map_eq_some_iff.mp hrun
          simp only [hins] at hload
          have hnot : rid ∉ done := fun hmem => by
            obtain ⟨-, -, hdisjoint⟩ := List.nodup_append.mp hnodup
            exact hdisjoint rid hmem rid List.mem_cons_self rfl
          have hagree₁ : AgreesOn index (recordsAt f (done ++ [rid])) (lookupKey (contents lv₁)) := by
            rw [recordsAt_concat hrec, hmap]
            exact hagree.insert (if_neg hnot) (Option.some.inj hfree)
          obtain ⟨lv', lvls', hinv', hagree'⟩ := hrest hend hinv₁ hagree₁ (by simpa using hnodup) hload
          exact ⟨lv', lvls', hinv', by simpa using hagree'⟩

/-- **An index that has been built** has the records of the table. -/
theorem buildIndex_ok {ih : IxIndexHandle (List ℤ)} (htot : colTotLen index.shape ≤ IX_MAX_COL_LEN)
    (hbuild : buildIndex f index = .ok ih) :
    ∃ lv lvls, ih.Inv lv lvls ∧ AgreesOn index f.records (lookupKey (contents lv)) := by
  obtain ⟨rid, rid', hbegin, hvisits, hend⟩ := f.scan_visits
  rw [buildIndex, hbegin] at hbuild
  have hinv := IxIndexHandle.createIndex_inv (btreeOrderOf_fits htot).1 (default : List ℤ)
  have hempty : AgreesOn index (recordsAt f []) (lookupKey (contents [⟨default, IX_INIT_ROOT_PAGE, []⟩])) := by
    rw [recordsAt_nil]
    exact agreesOn_nil index
  obtain ⟨lv, lvls, hinv', hagree⟩ := loadIndex_ok hvisits hend hinv hempty f.nodup_rids hbuild
  rw [List.nil_append, recordsAt_rids] at hagree
  exact ⟨lv, lvls, hinv', hagree⟩

end Load

theorem getCols_names {tab : TabMeta} : ∀ {colNames : List String} {cols : List ColMeta},
    colNames.mapM tab.getCol = .ok cols → cols.map (·.name) = colNames := by
  intro colNames
  induction colNames with
  | nil =>
    intro cols h
    cases h
    rfl
  | cons name colNames ih =>
    intro cols h
    rw [List.mapM_cons] at h
    rcases hcol : tab.getCol name with e | col
    · rw [hcol] at h
      cases h
    · rcases hrest : colNames.mapM tab.getCol with e | rest
      · rw [hcol, hrest] at h
        cases h
      · rw [hcol, hrest] at h
        cases h
        rw [List.map_cons, ih hrest]
        rw [TabMeta.getCol] at hcol
        rcases hfind : tab.cols.find? fun c => decide (c.name = name) with _ | c
        · rw [hfind] at hcol
          cases hcol
        · rw [hfind] at hcol
          obtain rfl := Except.ok.inj hcol
          have hname := List.find?_some hfind
          rw [of_decide_eq_true hname]

theorem Table.ihs_addIndex (t : Table) (index : IndexMeta) (ih : IxIndexHandle (List ℤ)) :
    (t.addIndex index ih).ihs index = ih := Function.update_self ..

theorem Table.ihs_addIndex_of_ne (t : Table) {index i : IndexMeta} (ih : IxIndexHandle (List ℤ)) (hne : i ≠ index) :
    (t.addIndex index ih).ihs i = t.ihs i := Function.update_of_ne hne ..

theorem Table.addIndex_ok {t : Table} {index : IndexMeta} {ih : IxIndexHandle (List ℤ)} {lv : List (Leaf (List ℤ))}
    {lvls : List (List (Inner (List ℤ)))} (h : t.Ok) (hnot : index ∉ t.tab.indexes) (hinv : ih.Inv lv lvls) :
    (t.addIndex index ih).Ok where
  pages := h.pages
  first := h.first
  indexes i hi := by
    rcases List.mem_append.mp hi with hi | hi
    · have hne : i ≠ index := fun heq => hnot (heq ▸ hi)
      rw [ihs_addIndex_of_ne t ih hne]
      exact h.indexes i hi
    · rw [List.mem_singleton.mp hi, ihs_addIndex]
      exact ⟨lv, lvls, hinv⟩
  nodup := List.nodup_append.mpr ⟨h.nodup, List.nodup_singleton _, fun a ha b hb heq => by
    rw [heq, List.mem_singleton.mp hb] at ha
    exact hnot ha⟩

/-- **`create_index`** leaves the table as it was, or adds an index that agrees with it. -/
theorem Table.createIndex_spec {t t' : Table} {opening : Opening} {e : Option RMDBError} {colNames : List String} (h : t.Ok)
    (hrun : t.createIndex opening colNames = (t', e)) : t' = t ∨ ∃ index ih, index ∉ t.tab.indexes ∧
      t' = t.addIndex index ih ∧ t'.Ok ∧ AgreesOn index t.fh.records (t'.entry index) := by
  unfold createIndex at hrun
  split_ifs at hrun with hexists
  · exact Or.inl (Prod.mk.inj hrun).1.symm
  · split at hrun
    · exact Or.inl (Prod.mk.inj hrun).1.symm
    · rename_i cols hcols
      simp only at hrun
      set index : IndexMeta := ⟨t.tab.name, cols⟩ with hindex
      split at hrun
      · exact Or.inl (Prod.mk.inj hrun).1.symm
      · rename_i hthrown
        split at hrun
        · exact Or.inl (Prod.mk.inj hrun).1.symm
        · rename_i ih hbuild
          obtain ⟨lv, lvls, hinv, hagree⟩ := buildIndex_ok (opening.refused index hthrown) hbuild
          have hnot : index ∉ t.tab.indexes := fun hmem => hexists (List.any_eq_true.mpr ⟨index, hmem, by
            simpa [IndexMeta.colNames, hindex] using getCols_names hcols⟩)
          obtain ⟨rfl, -⟩ := Prod.mk.inj hrun
          refine Or.inr ⟨index, ih, hnot, rfl, addIndex_ok h hnot hinv, ?_⟩
          have hinv' : ((t.addIndex index ih).ihs index).Inv lv lvls := by rwa [ihs_addIndex]
          rw [entry_eq hinv']
          exact hagree

/-- **An index that has been made** agrees with the table, and so do the others. -/
theorem Table.createIndex_agrees {t t' : Table} {opening : Opening} {e : Option RMDBError} {colNames : List String}
    (h : t.Ok) (ha : t.Agrees) (hrun : t.createIndex opening colNames = (t', e)) : t'.Ok ∧ t'.Agrees := by
  rcases createIndex_spec h hrun with rfl | ⟨index, ih, hnot, rfl, hok, hagree⟩
  · exact ⟨h, ha⟩
  · refine ⟨hok, ?_⟩
    intro i hi
    rcases List.mem_append.mp hi with hi | hi
    · have hne : i ≠ index := fun heq => hnot (heq ▸ hi)
      intro key
      simp only [entry]
      rw [ihs_addIndex_of_ne t ih hne]
      exact ha i hi key
    · obtain rfl := List.mem_singleton.mp hi
      exact hagree

/-! ### `drop_index` -/

/-- `SmManager::drop_index`. -/
def Table.dropIndex (colNames : List String) (t : Table) : Table × Option RMDBError :=
  match t.tab.getIndexMeta colNames with
  | .error e => (t, some e)
  | .ok _ => ({ t with tab.indexes := t.tab.indexes.eraseP fun index => index.colNames = colNames }, none)

/-- **`drop_index`** leaves the records and the other indexes alone. -/
theorem Table.dropIndex_spec {t : Table} (h : t.Ok) (colNames : List String) :
    (t.dropIndex colNames).1.Ok ∧ (t.dropIndex colNames).1.tab.name = t.tab.name ∧
      (t.dropIndex colNames).1.fh = t.fh := by
  rw [dropIndex]
  split
  · exact ⟨h, rfl, rfl⟩
  · exact ⟨⟨h.pages, h.first, fun index hi => h.indexes index (List.mem_of_mem_eraseP hi), h.nodup.sublist List.eraseP_sublist⟩,
      rfl, rfl⟩

end Rmdb.Execution
