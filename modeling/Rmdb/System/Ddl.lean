import Rmdb.System.Flags
import Rmdb.System.Granted

/-!
# `CREATE TABLE` and `CREATE INDEX`

What `create_table` leaves in the catalog when it has been accepted: only the last value of
the running sum of the lengths is checked, so a column can have no byte, and a name can be
given twice (`createTable_schema_iff`).

What `create_index` leaves behind when it throws. All that is checked before the file is created leaves
nothing, and what is thrown while the index is loaded is cleaned up; but the length of the
key is checked between the two, after the file has been created and opened
(`createIndex_unchanged_iff`).
-/

namespace Rmdb.Fs

open Lib Storage
open Catalog (SchemaOk placeCols Field)
open Function (update)
open Relation (ReflTransGen)

/-! ### `CREATE TABLE` -/

theorem of_call_ok {α : Type} {x : FileM α} {a : α} {s s' : Sm} (h : call x s = .ok a s') :
    ∃ f, x s.files = .ok a f ∧ s' = { s with files := f } := by
  unfold call at h
  rcases hx : x s.files with ⟨b, f⟩ | ⟨e, f⟩
  · rw [hx] at h
    cases h
    exact ⟨f, rfl, rfl⟩
  · rw [hx] at h
    cases h

theorem RmManager.createFile_ok {os : Os} {filename : String} {recordSize : Int32} {f f' : Files}
    (h : createFile os filename recordSize f = .ok () f') : 1 ≤ recordSize.toInt ∧ recordSize.toInt ≤ 512 := by
  unfold createFile at h
  split at h
  · cases h
  next hsize =>
    rw [Record.RM_MAX_RECORD_SIZE] at hsize
    omega

/-- **When `create_table` is accepted**, the schema that is stored is well formed exactly when the names of the columns
are distinct, every length is declared as 1 or more, and the declared lengths add up to at most 512. -/
theorem createTable_schema_iff {osCreate osOpen : Os} {tabName : String} {fields : List Field} {s s' : Sm}
    (h : createTable osCreate osOpen tabName (fields.map Field.colDef) s = .ok () s') :
    ∃ cols recordSize, placeCols tabName 0 (fields.map Field.colDef) = (cols, recordSize) ∧
      s'.db.tabs.find tabName = some ⟨tabName, cols, []⟩ ∧
      (SchemaOk fields cols recordSize ↔
        (fields.map (·.colName)).Nodup ∧ (∀ f ∈ fields, 1 ≤ f.type.declaredLen) ∧
          (fields.map (·.type.declaredLen)).sum ≤ 512) := by
  unfold createTable at h
  split at h
  · cases h
  · obtain ⟨_, s₁, hcreate, h⟩ := of_bind_ok h
    obtain ⟨_, s₂, htable, h⟩ := of_bind_ok h
    obtain ⟨fd, s₃, hopen, hlast⟩ := of_bind_ok h
    obtain ⟨f₁, hfile, rfl⟩ := of_call_ok hcreate
    obtain ⟨f₂, -, rfl⟩ := of_call_ok hopen
    cases htable
    cases hlast
    exact ⟨_, _, rfl, OrderedMap.find_assign _ _ _, Catalog.schemaOk_iff (RmManager.createFile_ok hfile).2⟩

/-- `CREATE TABLE t (a CHAR(3), b INT)`. -/
def plainFields : List Field := [⟨"a", .char 3⟩, ⟨"b", .int⟩]

theorem ok_endState {σ ε : Type} {out : EStateM.Result ε σ Unit} (h : returned out = true) : out = .ok () (endState out) := by
  cases out with
  | ok => rfl
  | error => cases h

theorem createTable_schema_iff_plain : ∃ s', createTable (.plain (some (3, 0)) []) (.plain (some (3, 20)) []) "t"
    (plainFields.map Field.colDef) emptySm = .ok () s' ∧ ∃ cols recordSize,
      placeCols "t" 0 (plainFields.map Field.colDef) = (cols, recordSize) ∧ s'.db.tabs.find "t" = some ⟨"t", cols, []⟩ ∧
      (SchemaOk plainFields cols recordSize ↔ (plainFields.map (·.colName)).Nodup ∧
        (∀ f ∈ plainFields, 1 ≤ f.type.declaredLen) ∧ (plainFields.map (·.type.declaredLen)).sum ≤ 512) :=
  ⟨_, ok_endState rfl, createTable_schema_iff (ok_endState rfl)⟩

/-- `CREATE TABLE t (a CHAR(0), b INT)`. -/
def emptyField : List Field := [⟨"a", .char 0⟩, ⟨"b", .int⟩]

/-- The statement is accepted, and the column `a` has no byte. -/
theorem createTable_empty_column : ∃ s', createTable (.plain (some (3, 0)) []) (.plain (some (3, 20)) []) "t"
    (emptyField.map Field.colDef) emptySm = .ok () s' ∧ ∃ cols recordSize,
      placeCols "t" 0 (emptyField.map Field.colDef) = (cols, recordSize) ∧ s'.db.tabs.find "t" = some ⟨"t", cols, []⟩ ∧
      ¬ SchemaOk emptyField cols recordSize := by
  refine ⟨_, ok_endState rfl, _, _, rfl, by decide +kernel, ?_⟩
  intro h
  exact absurd (h.len _ List.mem_cons_self) (by decide)

/-! ### `CREATE INDEX` -/

section CreateIndex

variable {α : Type} {s s' : Sm}

theorem call_of_ok {x : FileM α} {a : α} {f : Files} (h : x s.files = .ok a f) : call x s = .ok a { s with files := f } := by
  unfold call
  rw [h]

theorem call_of_error {x : FileM α} {e : DbError} {f : Files} (h : x s.files = .error e f) :
    call x s = .error e { s with files := f } := by
  unfold call
  rw [h]

/-- Only handles have been used. -/
structure After (s s' : Sm) : Prop where
  db : s'.db = s.db
  fhs : s'.fhs = s.fhs
  ihs : s'.ihs = s.ihs
  uses : ReflTransGen Use s.files s'.files

theorem after_call (s₀ : Sm) {x : FileM α} (hx : ThroughHandles x) :
    Triple (After s₀) (call x) (fun _ => After s₀) fun e s => e = .died ∨ After s₀ s := by
  intro s hs
  have hx := hx s.files
  unfold call
  rcases hout : x s.files with ⟨a, f⟩ | ⟨e, f⟩
  · rw [hout] at hx
    exact ⟨hs.db, hs.fhs, hs.ihs, hs.uses.trans hx⟩
  · rw [hout] at hx
    rcases hx with hx | hx
    · exact .inl hx
    · exact .inr ⟨hs.db, hs.fhs, hs.ihs, hs.uses.trans hx⟩

theorem after_ofExcept (s₀ : Sm) (x : Except DbError α) :
    Triple (After s₀) (ofExcept x) (fun _ => After s₀) fun e s => e = .died ∨ After s₀ s := by
  cases x with
  | ok a => exact .pure fun _ h => h
  | error e => exact .throw fun _ h => .inr h

/-- **The load** of an index uses handles only, however it ends. -/
theorem after_load (s₀ : Sm) {acc : Access} (hacc : acc.Ok) (tabName : String) (colNames : List String)
    (cols : List Catalog.ColMeta) (tableFd fd : ℤ) : ∀ rids,
    Triple (After s₀) (load acc tabName colNames cols tableFd fd rids) (fun _ => After s₀) fun e s => e = .died ∨ After s₀ s
  | [] => .pure fun _ h => h
  | rid :: rids => by
    refine (after_call s₀ (hacc.getRecord tableFd rid)).bind fun record => (after_ofExcept s₀ _).bind fun key =>
      (after_call s₀ (hacc.getValue fd key)).bind fun found => ?_
    split
    · exact .throw fun _ h => .inr h
    · exact (after_call s₀ (hacc.insertEntry fd key rid)).bind fun _ => (after_call s₀ (hacc.next tableFd)).bind fun _ =>
        after_load s₀ hacc tabName colNames cols tableFd fd rids

/-- The catalog, the open index handles, the files and the open files are as before. -/
structure Unchanged (s s' : Sm) : Prop where
  db : s'.db = s.db
  ihs : s'.ihs = s.ihs
  dir : s'.files.dir = s.files.dir
  path2fd : s'.files.path2fd = s.files.path2fd
  fd2path : s'.files.fd2path = s.files.fd2path

/-- The checks before the file is created pass, there is no such file, and the key is too long. -/
def KeyTooLong (s : Sm) (tabName : String) (colNames : List String) : Prop :=
  ∃ tab cols, s.db.tabs.find tabName = some tab ∧ tab.indexes.any (hasCols colNames) = false ∧
    getCols tab colNames = .ok cols ∧ s.files.dir (IxManager.getIndexName tabName (cols.map (·.name))) = none ∧
    512 < (IxManager.colTotLen cols).toInt

theorem keyTooLong_iff {tabName : String} {colNames : List String} {tab : Catalog.TabMeta} {cols : List Catalog.ColMeta}
    (htab : s.db.tabs.find tabName = some tab) (hidx : tab.indexes.any (hasCols colNames) = false)
    (hcols : getCols tab colNames = .ok cols) : KeyTooLong s tabName colNames ↔
      s.files.dir (IxManager.getIndexName tabName (cols.map (·.name))) = none ∧ 512 < (IxManager.colTotLen cols).toInt := by
  constructor
  · rintro ⟨tab', cols', htab', -, hcols', hdir, hlong⟩
    obtain rfl := Option.some.inj (htab.symm.trans htab')
    obtain rfl := Except.ok.inj (hcols.symm.trans hcols')
    exact ⟨hdir, hlong⟩
  · exact fun h => ⟨tab, cols, htab, hidx, hcols, h⟩

/-- A file has been created and destroyed again. -/
structure FileUndone (f f' : Files) : Prop where
  dir : f'.dir = f.dir
  path2fd : f'.path2fd = f.path2fd
  fd2path : f'.fd2path = f.fd2path
  opened : f'.opened = f.opened
  handles : ∀ fd, f.fd2path fd ≠ none → f.handles fd ≠ none → f'.handles fd ≠ none

theorem FileUndone.namesAgree {f f' : Files} (hundone : FileUndone f f') (h : NamesAgree f) : NamesAgree f' := by
  refine ⟨?_, ?_, ?_⟩
  · intro fd path
    rw [hundone.fd2path, hundone.path2fd]
    exact h.paths fd path
  · intro fd path hpath
    rw [hundone.fd2path] at hpath
    rw [hundone.dir]
    exact h.inDir fd path hpath
  · intro fd hfree
    rw [hundone.opened] at hfree
    rw [hundone.fd2path]
    exact h.free fd hfree

theorem FileUndone.openAs {f f' : Files} {path : String} {fd : ℤ} (hundone : FileUndone f f') (h : OpenAs f path fd) :
    OpenAs f' path fd :=
  ⟨hundone.handles fd (by rw [h.path]; exact Option.some_ne_none path) h.handle, by rw [hundone.fd2path, h.path]⟩

/-- After a load that has thrown, the index is closed and its file is destroyed. -/
theorem cleanup_granted {os : IndexOs} (hos : os.Granted) {fd : ℤ} {ixName : String} (e : DbError)
    (h : OpenAs s.files ixName fd) (hdir : s.files.dir ixName ≠ none) :
    ∃ f₁ f₂, (do call (IxManager.closeIndex os.close fd)
                 call (IxManager.destroyIndex os.destroy ixName)
                 throw e : SmM PUnit) s = .error e { s with files := f₂ } ∧
      FileClosed s.files f₁ ixName fd ∧ f₂ = { f₁ with dir := update f₁.dir ixName none } ∧ (f₂.honest → s.files.honest) := by
  obtain ⟨f₁, hclose, hclosed, hh⟩ := closeHandle_granted hos.close h Index.IX_FILE_HDR_PAGE
  have h₁ : IxManager.closeIndex os.close fd s.files = .ok () f₁ := hclose
  have hpath : f₁.path2fd ixName = none := by rw [hclosed.path2fd, Function.update_self]
  have h₂ : IxManager.destroyIndex os.destroy ixName f₁ = .ok () { f₁ with dir := update f₁.dir ixName none } :=
    destroyFile_granted hos.destroy hpath (by rw [hclosed.dir]; exact hdir)
  refine ⟨f₁, _, ?_, hclosed, rfl, hh⟩
  rw [bind_of_ok (call_of_ok h₁), bind_of_ok (call_of_ok h₂)]
  rfl

/-- What creates a file, opens it, uses handles, closes it and destroys it has undone everything. -/
theorem undone_of_destroyed {f f₁ f₂ f₃ f₄ : Files} {path : String} {fd : ℤ} (h : NamesAgree f) (hdir : f.dir path = none)
    (hcreated : FileCreated f f₁ path) (hopened : FileOpened f₁ f₂ path fd) (hsame : SameNames f₂ f₃)
    (hclosed : FileClosed f₃ f₄ path fd) : FileUndone f { f₄ with dir := update f₄.dir path none } := by
  have hfree : f.fd2path fd = none := h.free fd (hcreated.opened ▸ hopened.free)
  obtain ⟨file, hfile⟩ := hcreated.dir
  obtain ⟨file', hfile'⟩ := hopened.opened
  refine ⟨?_, ?_, ?_, ?_, ?_⟩
  · change update f₄.dir path none = f.dir
    rw [hclosed.dir, hsame.dir, hopened.dir, hfile, update_restore hdir]
  · change f₄.path2fd = f.path2fd
    rw [hclosed.path2fd, hsame.path2fd, hopened.path2fd, hcreated.path2fd, update_restore (h.path2fd_none hdir)]
  · change f₄.fd2path = f.fd2path
    rw [hclosed.fd2path, hsame.fd2path, hopened.fd2path, hcreated.fd2path, update_restore hfree]
  · change f₄.opened = f.opened
    rw [hclosed.opened, hsame.opened, hfile', update_restore hopened.free, hcreated.opened]
  · intro fd' hpath hhandle
    have hne : fd' ≠ fd := by
      rintro rfl
      exact hpath hfree
    change f₄.handles fd' ≠ none
    rw [hclosed.handles fd' hne]
    exact hsame.handles fd' (hopened.handles fd' (by rw [hcreated.handles]; exact hhandle))

/-- The state after a `create_index` that has returned. -/
def withNewIndex (s : Sm) (tabName : String) (tab : Catalog.TabMeta) (cols : List Catalog.ColMeta) (fd : ℤ) (f : Files) : Sm :=
  { s with
    files := f
    db := withTable s.db tabName (withIndex tab tabName cols)
    ihs := emplace s.ihs (IxManager.getIndexName tabName (cols.map (·.name))) fd }

/-- How `create_index` ends. -/
inductive CreateIndexEnds (tabName : String) (colNames : List String) (s : Sm) : EStateM.Result DbError Sm Unit → Prop where
  /-- A check fails before the file is created. -/
  | refused {e : DbError} : ¬ KeyTooLong s tabName colNames → CreateIndexEnds tabName colNames s (.error e s)
  /-- The key is too long; the file is left behind, and open. -/
  | tooLong {e : DbError} {path : String} {fd : ℤ} {f₁ f₂ : Files} : KeyTooLong s tabName colNames → s.files.dir path = none →
      FileCreated s.files f₁ path → f₂.dir path ≠ none → (f₂.honest → s.files.honest ∧ FileOpened f₁ f₂ path fd) →
      CreateIndexEnds tabName colNames s (.error e { s with files := f₂ })
  /-- The process ends. -/
  | died {s' : Sm} : CreateIndexEnds tabName colNames s (.error .died s')
  /-- The load has thrown. -/
  | undone {e : DbError} {f : Files} : ¬ KeyTooLong s tabName colNames → (f.honest → s.files.honest ∧ FileUndone s.files f) →
      CreateIndexEnds tabName colNames s (.error e { s with files := f })
  /-- The index is there. -/
  | created {tab : Catalog.TabMeta} {cols : List Catalog.ColMeta} {fd : ℤ} {f₁ f₂ f₃ : Files} :
      s.db.tabs.find tabName = some tab → getCols tab colNames = .ok cols →
      s.files.dir (IxManager.getIndexName tabName (cols.map (·.name))) = none →
      (f₃.honest → s.files.honest ∧ FileCreated s.files f₁ (IxManager.getIndexName tabName (cols.map (·.name))) ∧
        FileOpened f₁ f₂ (IxManager.getIndexName tabName (cols.map (·.name))) fd ∧ SameNames f₂ f₃) →
      OpenAs f₂ (IxManager.getIndexName tabName (cols.map (·.name))) fd →
      CreateIndexEnds tabName colNames s (.ok () (withNewIndex s tabName tab cols fd f₃))

theorem getTable_of_find {tabName : String} {tab : Catalog.TabMeta} (h : s.db.tabs.find tabName = some tab) :
    getTable tabName s = .ok tab s := by
  simp only [getTable, h]

theorem getTable_of_none {tabName : String} (h : s.db.tabs.find tabName = none) :
    getTable tabName s = .error (.tableNotFound tabName) s := by
  simp only [getTable, h]

/-- A load ends with handles used, if the process goes on. -/
theorem tableLoad_ends {acc : Access} (hacc : acc.Ok) (tabName : String) (colNames : List String)
    (cols : List Catalog.ColMeta) (fd : ℤ) (s : Sm) :
    EndsIn (fun _ => After s) (fun e s' => e = .died ∨ After s s')
      ((tableHandle tabName >>= fun tableFd => load acc tabName colNames cols tableFd fd acc.rids) s) := by
  refine Triple.bind (P := After s) (R := fun _ => After s) ?_
    (fun tableFd => after_load s hacc tabName colNames cols tableFd fd acc.rids) s ⟨rfl, rfl, rfl, .refl⟩
  intro t ht
  rw [tableHandle]
  split
  · exact ht
  · exact .inr ht

theorem After.eq {s s' : Sm} (h : After s s') : s' = { s with files := s'.files } := by
  obtain ⟨hdb, hfhs, hihs, -⟩ := h
  cases s'
  cases hdb
  cases hfhs
  cases hihs
  rfl

/-- **How `create_index` ends**, if the operating system grants what it is asked. -/
theorem createIndex_ends (h : NamesAgree s.files) {os : IndexOs} (hos : os.Granted) {acc : Access} (hacc : acc.Ok)
    (tabName : String) (colNames : List String) : CreateIndexEnds tabName colNames s (createIndex os acc tabName colNames s) := by
  rw [createIndex]
  rcases htab : s.db.tabs.find tabName with _ | tab
  · rw [bind_of_error (getTable_of_none htab)]
    refine .refused ?_
    rintro ⟨tab, -, htab', -⟩
    cases htab.symm.trans htab'
  rw [bind_of_ok (getTable_of_find htab)]
  rcases hidx : tab.indexes.any (hasCols colNames) with _ | _
  swap
  · refine .refused ?_
    rintro ⟨tab', -, htab', hidx', -⟩
    cases htab.symm.trans htab'
    cases hidx.symm.trans hidx'
  rw [if_neg (by decide)]
  rcases hcols : getCols tab colNames with e' | cols
  · refine .refused ?_
    rintro ⟨tab', cols, htab', -, hcols', -⟩
    cases htab.symm.trans htab'
    cases hcols.symm.trans hcols'
  rw [bind_of_ok (show ofExcept (Except.ok cols) s = .ok cols s from rfl)]
  have hkey := keyTooLong_iff htab hidx hcols
  generalize hix : IxManager.getIndexName tabName (cols.map (·.name)) = ixName at hkey ⊢
  -- the file is created
  by_cases hdir : s.files.dir ixName = none
  swap
  · obtain ⟨file, hfile⟩ := Option.ne_none_iff_exists'.mp hdir
    have hcreate : IxManager.createIndex os.create ixName cols s.files = .error (.fileExists ixName) s.files := by
      rw [IxManager.createIndex]
      refine bind_of_error ?_
      simp only [DiskManager.createFile, hfile]
    rw [bind_of_error (call_of_error hcreate)]
    exact .refused fun hlong => hdir (hkey.mp hlong).1
  rcases createIndexFile_granted hos.create hos.createOpens h hdir cols with
    ⟨hlong, e', fd, f₀, f₁, h₁, hcreated, hthere, hopened⟩ | ⟨f₁, h₁⟩ | ⟨hshort, f₁, h₁, hthere, hclosed, hcreated⟩
  · rw [bind_of_error (call_of_error h₁)]
    exact .tooLong (hkey.mpr ⟨hdir, hlong⟩) hdir hcreated hthere hopened
  · rw [bind_of_error (call_of_error h₁)]
    exact .died
  rw [bind_of_ok (call_of_ok h₁)]
  have hnot : ¬ KeyTooLong s tabName colNames := fun hlong => absurd (hkey.mp hlong).2 (not_lt.mpr hshort)
  -- and opened
  rcases openIndexFile_granted hos.opens hos.opensOpens hclosed hthere with ⟨f₂, h₂⟩ | ⟨fd, f₂, h₂, hopenAs, hdir₂, -, hopened⟩
  · rw [bind_of_error (call_of_error h₂)]
    exact .died
  rw [bind_of_ok (call_of_ok h₂)]
  -- the index is loaded
  have hload := tableLoad_ends hacc tabName colNames cols fd { s with files := f₂ }
  rcases hrun : (tableHandle tabName >>= fun tableFd => load acc tabName colNames cols tableFd fd acc.rids)
    { s with files := f₂ } with ⟨_, s₃⟩ | ⟨e', s₃⟩
  · rw [hrun] at hload
    have hafter : After { s with files := f₂ } s₃ := hload
    have hsame := uses_sameNames hafter.uses
    have hsteps : s₃.files.honest → s.files.honest ∧ FileCreated s.files f₁ ixName ∧ FileOpened f₁ f₂ ixName fd ∧
        SameNames f₂ s₃.files := by
      intro hh
      obtain ⟨hh₁, hopened⟩ := hopened (uses_honest hafter.uses ▸ hh)
      exact ⟨(hcreated hh₁).1, (hcreated hh₁).2, hopened, hsame⟩
    rw [bind_of_ok (tryCatch_of_ok hrun), hafter.eq]
    subst hix
    exact .created htab hcols hdir hsteps hopenAs
  rw [hrun] at hload
  rcases hload with rfl | hafter
  · rw [bind_of_error ((tryCatch_of_error hrun).trans (by rw [if_pos rfl]; rfl))]
    exact .died
  by_cases hdied : e' = .died
  · subst hdied
    rw [bind_of_error ((tryCatch_of_error hrun).trans (by rw [if_pos rfl]; rfl))]
    exact .died
  have hsame := uses_sameNames hafter.uses
  obtain ⟨f₃, f₄, h₄, hclosed₄, rfl, hh₄⟩ := cleanup_granted hos e' (hsame.openAs hopenAs)
    (by rw [hsame.dir, hdir₂]; exact hthere)
  rw [bind_of_error ((tryCatch_of_error hrun).trans (by rw [if_neg hdied]; exact h₄)), hafter.eq]
  refine .undone hnot ?_
  intro hh
  obtain ⟨hh₁, hopened⟩ := hopened (uses_honest hafter.uses ▸ hh₄ hh)
  exact ⟨(hcreated hh₁).1, undone_of_destroyed h hdir (hcreated hh₁).2 hopened hsame hclosed₄⟩

/-- **An error of `create_index`** leaves the catalog, the open handles, the files and the open files as they were,
exactly when it is not that of a key that is too long, found after the file has been created. -/
theorem createIndex_unchanged_iff {s₀ : Sm} (hstart : Start s₀) (hrun : ReflTransGen SmStep s₀ s) (hs : s.files.honest)
    {os : IndexOs} (hos : os.Granted) {acc : Access} (hacc : acc.Ok) {tabName : String} {colNames : List String} {e : DbError}
    (h : createIndex os acc tabName colNames s = .error e s') (he : e ≠ .died) (hh : s'.files.honest) :
    Unchanged s s' ↔ ¬ KeyTooLong s tabName colNames := by
  have hends := createIndex_ends (run_inOrder hstart hrun hs).namesAgree hos hacc tabName colNames
  rw [h] at hends
  cases hends with
  | refused hnot => exact iff_of_true ⟨rfl, rfl, rfl, rfl, rfl⟩ hnot
  | tooLong hlong hdir hcreated hthere hopened =>
    refine iff_of_false (fun hun => hthere ?_) (not_not.mpr hlong)
    have hsame := congrFun hun.dir
    exact (hsame _).trans hdir
  | died => exact absurd rfl he
  | undone hnot hundone =>
    obtain ⟨hdir, hpath2fd, hfd2path, -, -⟩ := (hundone hh).2
    exact iff_of_true ⟨rfl, rfl, hdir, hpath2fd, hfd2path⟩ hnot

end CreateIndex

/-! ### A key that is too long -/

/-- After `CREATE TABLE t (a CHAR(300))`. -/
def longTable : Sm :=
  endState (createTable (.plain (some (3, 0)) []) (.plain (some (3, 20)) []) "t" ([⟨"a", .char 300⟩].map Field.colDef) emptySm)

/-- Answers without a failure. -/
def plainIndexOs : IndexOs :=
  ⟨.plain (some (4, 0)) [], .plain (some (4, 12288)) [], .plain none [], .plain none []⟩

/-- A table without a record. -/
def noRecord : Access := ⟨[], fun _ _ => pure [], fun _ _ => pure false, fun _ _ _ => pure (), fun _ => pure ()⟩

theorem plain_granted (fd : Option (ℤ × ℤ)) (frames : List ℕ) : (Os.plain fd frames).Granted :=
  ⟨rfl, rfl, rfl, rfl, fun _ => rfl, rfl, fun _ => rfl⟩

theorem plainIndexOs_granted : plainIndexOs.Granted :=
  ⟨plain_granted _ _, ⟨4, 0, rfl, by decide⟩, plain_granted _ _, ⟨4, 12288, rfl, by decide⟩, plain_granted _ _, plain_granted _ _⟩

theorem noRecord_ok : noRecord.Ok := ⟨fun _ _ _ => .refl, fun _ _ _ => .refl, fun _ _ _ _ => .refl, fun _ _ => .refl⟩

theorem run_longTable : ReflTransGen SmStep emptySm longTable ∧ longTable.files.honest := by
  have hname : ¬ IsIndexName "t" := by
    rintro ⟨base, hbase⟩
    have h := congrArg String.length hbase
    rw [String.length_append] at h
    have h4 : ".idx".length = 4 := rfl
    have h1 : "t".length = 1 := rfl
    omega
  refine ⟨.single (.createTable hname (reaches_endState rfl)), ?_⟩
  have hblank : SizeOf blank 0 := ⟨le_refl _, fun n hn => absurd rfl hn, fun h => absurd h (lt_irrefl _)⟩
  exact ⟨⟨trivial, by decide, rfl, hblank⟩, by decide, rfl, sizeOf_header _ (Record.RmFileHdr.length_bytes (RmManager.fileHdr 300))⟩

/-- `CREATE INDEX t (b)`. -/
theorem createIndex_unchanged_iff_noColumn : ∃ s' : Sm,
    createIndex plainIndexOs noRecord "t" ["b"] longTable = .error (.columnNotFound "b") s' ∧
      (Unchanged longTable s' ↔ ¬ KeyTooLong longTable "t" ["b"]) :=
  ⟨longTable, rfl, createIndex_unchanged_iff emptySm_start run_longTable.1 run_longTable.2 plainIndexOs_granted noRecord_ok rfl
    (by decide) run_longTable.2⟩

/-- `CREATE INDEX t (a, a)` throws and leaves the file of the index behind, open. -/
theorem createIndex_long_key : Start emptySm ∧ ReflTransGen SmStep emptySm longTable ∧ longTable.files.honest ∧
    plainIndexOs.Granted ∧ noRecord.Ok ∧ ∃ s' : Sm, s'.files.honest ∧
      createIndex plainIndexOs noRecord "t" ["a", "a"] longTable = .error (.invalidColLength 600) s' ∧
      ¬ Unchanged longTable s' := by
  have hblank : SizeOf blank 0 := ⟨le_refl _, fun n hn => absurd rfl hn, fun h => absurd h (lt_irrefl _)⟩
  refine ⟨emptySm_start, run_longTable.1, run_longTable.2, plainIndexOs_granted, noRecord_ok,
    endState (createIndex plainIndexOs noRecord "t" ["a", "a"] longTable), ?_, rfl, ?_⟩
  · exact ⟨run_longTable.2, by decide, rfl, hblank⟩
  · intro h
    have hdir := congrFun h.dir "t_a_a.idx"
    exact absurd hdir (by decide +kernel)

end Rmdb.Fs
