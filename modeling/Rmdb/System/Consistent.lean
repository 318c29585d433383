import Rmdb.System.Ddl

/-!
# The catalog and the open handles

Between the statements there is a handle in `fhs_` for every table of the catalog and in `ihs_` for
every index, and for no other, and the flag of a column says whether an index has it
(`catalog_consistent`). The maps and the catalog are changed one after another, in the drop of a table
also index by index; so it matters that nothing throws in between: a file that the catalog knows is in
the directory, and is open under the descriptor that the map has.

The statements fail on their own checks only: the operating system grants what it is asked. A cycle
of `close_db` and `open_db` ends in the same process or in a new one.
-/

namespace Rmdb.Fs

open Lib Storage
open Catalog (placeCols)
open Function (update)
open Relation (ReflTransGen)

/-! ### Names -/

/-- A name that the lexer accepts, as far as it matters here. -/
def IsIdentifier (name : String) : Prop := name ≠ "" ∧ ∀ c ∈ name.toList, c.isAlphanum = true ∨ c = '_'

instance (name : String) : Decidable (IsIdentifier name) :=
  @instDecidableAnd _ _ inferInstance (List.decidableBAll _ name.toList)

theorem IsIdentifier.nameOk {name : String} (h : IsIdentifier name) : Catalog.NameOk name := by
  refine ⟨h.1, ?_⟩
  intro c hc
  by_contra hspace
  have hspace' : isSpace c = true := Bool.eq_true_of_not_eq_false hspace
  simp only [isSpace, Bool.or_eq_true, decide_eq_true_iff] at hspace'
  rcases h.2 c hc with h | h <;> rcases hspace' with ((((rfl | rfl) | rfl) | rfl) | rfl) | rfl <;> exact absurd h (by decide)

theorem IsIdentifier.notIndex {name : String} (h : IsIdentifier name) : ¬ IsIndexName name := by
  rintro ⟨base, rfl⟩
  have hdot : '.' ∈ (base ++ ".idx").toList := by
    rw [String.toList_append]
    exact List.mem_append_right _ (by decide)
  rcases h.2 '.' hdot with h | h <;> exact absurd h (by decide)

/-! ### Handles -/

/-- There are handles for the tables `T` and the indexes `I`, and they are open. -/
structure Handles (s : Sm) (T I : String → Prop) : Prop where
  names : NamesAgree s.files
  tables : ∀ t, s.fhs t ≠ none ↔ T t
  indexes : ∀ name, s.ihs name ≠ none ↔ I name
  tableOpen : ∀ t fd, s.fhs t = some fd → OpenAs s.files t fd
  indexOpen : ∀ name fd, s.ihs name = some fd → OpenAs s.files name fd
  tableName : ∀ t, T t → ¬ IsIndexName t
  indexName : ∀ name, I name → IsIndexName name

section Handles

variable {s : Sm} {T I : String → Prop} {f : Files} {path : String} {fd : ℤ}

theorem emplace_eq {m : String → Option ℤ} {name : String} (h : m name = none) (fd : ℤ) : emplace m name fd = update m name (some fd) :=
  if_pos h

theorem Handles.congr (h : Handles s T I) {T' I' : String → Prop} (hT : ∀ t, T t ↔ T' t) (hI : ∀ name, I name ↔ I' name) :
    Handles s T' I' := by
  obtain rfl : T = T' := funext fun t => propext (hT t)
  obtain rfl : I = I' := funext fun name => propext (hI name)
  exact h

/-- The files change, and what is open stays open. -/
theorem Handles.withFiles (h : Handles s T I) (hnames : NamesAgree f)
    (hopen : ∀ path fd, OpenAs s.files path fd → OpenAs f path fd) : Handles { s with files := f } T I :=
  { h with
    names := hnames
    tableOpen := fun t fd hfd => hopen t fd (h.tableOpen t fd hfd)
    indexOpen := fun name fd hfd => hopen name fd (h.indexOpen name fd hfd) }

/-- The catalog does not matter. -/
theorem Handles.withDb (h : Handles s T I) (db : Catalog.DbMeta) : Handles { s with db := db } T I :=
  ⟨h.names, h.tables, h.indexes, h.tableOpen, h.indexOpen, h.tableName, h.indexName⟩

theorem Handles.openTable (h : Handles s T I) (hT : ¬ T path) (hname : ¬ IsIndexName path) (hclosed : s.files.path2fd path = none)
    (hdir : s.files.dir path ≠ none) (hopened : FileOpened s.files f path fd) (hhandle : f.handles fd ≠ none) :
    Handles { s with files := f, fhs := emplace s.fhs path fd } (fun t => t = path ∨ T t) I := by
  have hnone : s.fhs path = none := not_not.mp fun hne => hT ((h.tables path).mp hne)
  have hfiles := h.withFiles (hopened.namesAgree h.names hclosed hdir) fun p fd' hp => hopened.openAs h.names hp
  have hnew : OpenAs f path fd := ⟨hhandle, by rw [hopened.fd2path, Function.update_self]⟩
  refine { hfiles with tables := ?_, tableOpen := ?_, tableName := ?_ }
  · intro t
    change emplace s.fhs path fd t ≠ none ↔ _
    rw [emplace_eq hnone, Function.update_apply]
    split
    · rename_i heq
      exact iff_of_true (Option.some_ne_none fd) (.inl heq)
    · rename_i hne
      rw [or_iff_right hne]
      exact h.tables t
  · intro t fd' hfd
    change emplace s.fhs path fd t = some fd' at hfd
    rw [emplace_eq hnone, Function.update_apply] at hfd
    split at hfd
    · rename_i heq
      obtain rfl := Option.some.inj hfd
      rw [heq]
      exact hnew
    · exact hfiles.tableOpen t fd' hfd
  · intro t ht
    rcases ht with rfl | ht
    · exact hname
    · exact h.tableName t ht

theorem Handles.openIndex (h : Handles s T I) (hI : ¬ I path) (hname : IsIndexName path) (hclosed : s.files.path2fd path = none)
    (hdir : s.files.dir path ≠ none) (hopened : FileOpened s.files f path fd) (hhandle : f.handles fd ≠ none) :
    Handles { s with files := f, ihs := emplace s.ihs path fd } T fun name => name = path ∨ I name := by
  have hnone : s.ihs path = none := not_not.mp fun hne => hI ((h.indexes path).mp hne)
  have hfiles := h.withFiles (hopened.namesAgree h.names hclosed hdir) fun p fd' hp => hopened.openAs h.names hp
  have hnew : OpenAs f path fd := ⟨hhandle, by rw [hopened.fd2path, Function.update_self]⟩
  refine { hfiles with indexes := ?_, indexOpen := ?_, indexName := ?_ }
  · intro name
    change emplace s.ihs path fd name ≠ none ↔ _
    rw [emplace_eq hnone, Function.update_apply]
    split
    · rename_i heq
      exact iff_of_true (Option.some_ne_none fd) (.inl heq)
    · rename_i hne
      rw [or_iff_right hne]
      exact h.indexes name
  · intro name fd' hfd
    change emplace s.ihs path fd name = some fd' at hfd
    rw [emplace_eq hnone, Function.update_apply] at hfd
    split at hfd
    · rename_i heq
      obtain rfl := Option.some.inj hfd
      rw [heq]
      exact hnew
    · exact hfiles.indexOpen name fd' hfd
  · intro name hn
    rcases hn with rfl | hn
    · exact hname
    · exact h.indexName name hn

/-- A file that is closed leaves the directory. -/
theorem Handles.destroy (h : Handles s T I) (hclosed : s.files.path2fd path = none) :
    Handles { s with files := { s.files with dir := update s.files.dir path none } } T I :=
  h.withFiles (h.names.destroyed hclosed) fun _ _ hp => ⟨hp.handle, hp.path⟩

theorem Handles.closeTable (h : Handles s T I) (hT : T path) (hpath : s.files.fd2path fd = some path)
    (hclosed : FileClosed s.files f path fd) :
    Handles { s with files := f, fhs := update s.fhs path none } (fun t => t ≠ path ∧ T t) I := by
  refine ⟨hclosed.namesAgree h.names hpath, ?_, h.indexes, ?_, ?_, fun t ht => h.tableName t ht.2, h.indexName⟩
  · intro t
    change update s.fhs path none t ≠ none ↔ _
    rw [Function.update_apply]
    split
    · rename_i heq
      exact iff_of_false (fun hne => hne rfl) fun hand => hand.1 heq
    · rename_i hne
      rw [h.tables t]
      exact (and_iff_right hne).symm
  · intro t fd' hfd
    change update s.fhs path none t = some fd' at hfd
    rw [Function.update_apply] at hfd
    split at hfd
    · cases hfd
    · rename_i hne
      exact hclosed.openAs hpath (h.tableOpen t fd' hfd) hne
  · intro name fd' hfd
    refine hclosed.openAs hpath (h.indexOpen name fd' hfd) ?_
    rintro rfl
    exact h.tableName name hT (h.indexName name ((h.indexes name).mp (by rw [show s.ihs name = some fd' from hfd]; exact Option.some_ne_none fd')))

theorem Handles.closeIndex (h : Handles s T I) (hI : I path) (hpath : s.files.fd2path fd = some path)
    (hclosed : FileClosed s.files f path fd) :
    Handles { s with files := f, ihs := update s.ihs path none } T fun name => name ≠ path ∧ I name := by
  refine ⟨hclosed.namesAgree h.names hpath, h.tables, ?_, ?_, ?_, h.tableName, fun name hn => h.indexName name hn.2⟩
  · intro name
    change update s.ihs path none name ≠ none ↔ _
    rw [Function.update_apply]
    split
    · rename_i heq
      exact iff_of_false (fun hne => hne rfl) fun hand => hand.1 heq
    · rename_i hne
      rw [h.indexes name]
      exact (and_iff_right hne).symm
  · intro t fd' hfd
    refine hclosed.openAs hpath (h.tableOpen t fd' hfd) ?_
    rintro rfl
    exact h.tableName t ((h.tables t).mp (by rw [show s.fhs t = some fd' from hfd]; exact Option.some_ne_none fd')) (h.indexName t hI)
  · intro name fd' hfd
    change update s.ihs path none name = some fd' at hfd
    rw [Function.update_apply] at hfd
    split at hfd
    · cases hfd
    · rename_i hne
      exact hclosed.openAs hpath (h.indexOpen name fd' hfd) hne

end Handles

/-! ### The statements -/

/-- **The catalog and the handles agree**, and the handles are open. -/
structure Connected (s : Sm) : Prop where
  db : DbOk s.db
  handles : Handles s (fun t => s.db.tabs.find t ≠ none) (IndexNamed s.db)

section Statements

variable {s s' : Sm}

/-- What is reached is in order. -/
def Leads (out : EStateM.Result DbError Sm Unit) : Prop :=
  EndsIn (fun _ s' => s'.files.honest → Connected s') (fun e s' => e = .died ∨ (s'.files.honest → Connected s')) out

theorem Leads.reaches {out : EStateM.Result DbError Sm Unit} (h : Leads out) (hr : Reaches out s') (hh : s'.files.honest) :
    Connected s' := by
  rcases out with ⟨_, t⟩ | ⟨e, t⟩
  · obtain rfl : t = s' := hr
    exact h hh
  · obtain ⟨he, rfl⟩ : e ≠ .died ∧ t = s' := hr
    exact h.resolve_left he hh

theorem leads_error {e : DbError} (h : Connected s) : Leads (.error e s) := .inr fun _ => h

theorem find_withTable_ne_none {db : Catalog.DbMeta} {t : String} {tab tab' : Catalog.TabMeta} (hfind : db.tabs.find t = some tab)
    (t' : String) : db.tabs.find t' ≠ none ↔ (withTable db t tab').tabs.find t' ≠ none := by
  rw [find_withTable]
  split
  · rename_i heq
    rw [heq, hfind]
    exact iff_of_true (Option.some_ne_none tab) (Option.some_ne_none tab')
  · rfl

/-- A new table in the catalog. -/
theorem Connected.newTable (h : Connected s) {t : String} (hfind : s.db.tabs.find t = none) {tab : Catalog.TabMeta}
    (htab : TabOk t tab) (hindexes : tab.indexes = []) : DbOk (withTable s.db t tab) ∧
      (∀ t', t' = t ∨ s.db.tabs.find t' ≠ none ↔ (withTable s.db t tab).tabs.find t' ≠ none) ∧
      ∀ name, IndexNamed s.db name ↔ IndexNamed (withTable s.db t tab) name := by
  refine ⟨h.db.withTable htab ?_, ?_, ?_⟩
  · intro t' tab' _ _ index hindex
    rw [hindexes] at hindex
    cases hindex
  · intro t'
    rw [find_withTable]
    split
    · rename_i heq
      exact iff_of_true (.inl heq) (Option.some_ne_none tab)
    · rename_i hne
      exact or_iff_right hne
  · intro name
    rw [indexNamed_withTable, hindexes]
    constructor
    · rintro ⟨t', tab', index, hfind', hindex, hname⟩
      refine .inr ⟨t', tab', index, ?_, hfind', hindex, hname⟩
      rintro rfl
      cases hfind.symm.trans hfind'
    · rintro (⟨index, hindex, -⟩ | ⟨t', tab', index, -, hfind', hindex, hname⟩)
      · cases hindex
      · exact ⟨t', tab', index, hfind', hindex, hname⟩

/-- The columns that `create_table` makes. -/
theorem tabOk_placeCols {tabName : String} (hname : IsIdentifier tabName) {colDefs : List Catalog.ColDef}
    (hnames : ∀ colDef ∈ colDefs, IsIdentifier colDef.name) (hnodup : (colDefs.map (·.name)).Nodup) :
    TabOk tabName ⟨tabName, (placeCols tabName 0 colDefs).1, []⟩ := by
  have hcols : ∀ (defs : List Catalog.ColDef) (a : Int32), ∀ col ∈ (placeCols tabName a defs).1,
      col.tabName = tabName ∧ col.index = false ∧ ∃ colDef ∈ defs, col.name = colDef.name := by
    intro defs
    induction defs with
    | nil => exact fun a col hcol => by cases hcol
    | cons colDef defs ih =>
      intro a col hcol
      rcases List.mem_cons.mp hcol with rfl | hcol
      · exact ⟨rfl, rfl, colDef, List.mem_cons_self, rfl⟩
      · obtain ⟨htab, hindex, colDef', hdef, heq⟩ := ih (a + colDef.len) col hcol
        exact ⟨htab, hindex, colDef', List.mem_cons_of_mem _ hdef, heq⟩
  refine ⟨rfl, hname.notIndex, ⟨hname.nameOk, ?_, fun index hindex => by cases hindex⟩, ?_, .nil, ?_⟩
  · intro col hcol
    obtain ⟨htab, -, colDef, hdef, heq⟩ := hcols colDefs 0 col hcol
    exact ⟨htab ▸ hname.nameOk, heq ▸ (hnames colDef hdef).nameOk⟩
  · rw [Catalog.placeCols_names]
    exact hnodup
  · intro col hcol
    rw [(hcols colDefs 0 col hcol).2.1]
    exact iff_of_false (by decide) fun ⟨index, hindex, _⟩ => by cases hindex

/-- **`CREATE TABLE`.** -/
theorem Connected.createTable (h : Connected s) {osCreate osOpen : Os} (hcreate : osCreate.Granted) (hcreateOpens : osCreate.Opens)
    (hopen : osOpen.Granted) (hopenOpens : osOpen.Opens) {tabName : String} (hname : IsIdentifier tabName)
    {colDefs : List Catalog.ColDef} (hnames : ∀ colDef ∈ colDefs, IsIdentifier colDef.name) (hnodup : (colDefs.map (·.name)).Nodup) :
    Leads (createTable osCreate osOpen tabName colDefs s) := by
  rw [Fs.createTable]
  rcases hfind : s.db.tabs.find tabName with _ | tab
  swap
  · exact leads_error h
  simp only
  by_cases hsize : (placeCols tabName 0 colDefs).2.toInt < 1 ∨ Record.RM_MAX_RECORD_SIZE < (placeCols tabName 0 colDefs).2.toInt
  · have herror : RmManager.createFile osCreate tabName (placeCols tabName 0 colDefs).2 s.files =
        .error (.invalidRecordSize (placeCols tabName 0 colDefs).2.toInt) s.files := by
      rw [RmManager.createFile, if_pos hsize]
      rfl
    rw [bind_of_error (call_of_error herror)]
    exact leads_error h
  by_cases hdir : s.files.dir tabName = none
  swap
  · obtain ⟨file, hfile⟩ := Option.ne_none_iff_exists'.mp hdir
    have herror : RmManager.createFile osCreate tabName (placeCols tabName 0 colDefs).2 s.files =
        .error (.fileExists tabName) s.files := by
      rw [RmManager.createFile, if_neg hsize]
      refine bind_of_error ?_
      simp only [DiskManager.createFile, hfile]
    rw [bind_of_error (call_of_error herror)]
    exact leads_error h
  obtain ⟨f₁, h₁, hthere, hclosed, hcreated⟩ := createTableFile_granted hcreate hcreateOpens h.handles.names hdir hsize
  obtain ⟨fd, f₂, h₂, hhandle, -, hopened⟩ := openTableFile_granted hopen hopenOpens hclosed hthere
  let db := withTable s.db tabName ⟨tabName, (placeCols tabName 0 colDefs).1, []⟩
  have hset : setTable tabName ⟨tabName, (placeCols tabName 0 colDefs).1, []⟩ { s with files := f₁ } =
      .ok () { s with files := f₁, db := db } := rfl
  rw [bind_of_ok (call_of_ok h₁), bind_of_ok hset, bind_of_ok (call_of_ok h₂)]
  intro hh
  obtain ⟨hh₁, hopened⟩ := hopened hh
  have hcreated := (hcreated hh₁).2
  obtain ⟨hdb, htables, hindexes⟩ := h.newTable hfind (tabOk_placeCols hname hnames hnodup) rfl
  have hfiles : Handles { s with files := f₁ } _ _ :=
    h.handles.withFiles (hcreated.namesAgree h.handles.names) fun _ _ hp => hcreated.openAs hp
  exact ⟨hdb, ((hfiles.openTable (not_not.mpr hfind) hname.notIndex hclosed hthere hopened hhandle).withDb db).congr htables hindexes⟩

/-- **`CREATE INDEX`.** -/
theorem Connected.createIndex (h : Connected s) {os : IndexOs} (hos : os.Granted) {acc : Access} (hacc : acc.Ok) (tabName : String)
    {colNames : List String} (hlen : colNames.length < 2 ^ 31) : Leads (createIndex os acc tabName colNames s) := by
  have hends := createIndex_ends h.handles.names hos hacc tabName colNames
  generalize Fs.createIndex os acc tabName colNames s = out at hends ⊢
  cases hends with
  | refused => exact leads_error h
  | died => exact .inl rfl
  | tooLong hlong hdir hcreated hthere hopened =>
    refine .inr fun hh => ⟨h.db, ?_⟩
    have hopened := (hopened hh).2
    have hclosed := hcreated.path2fd ▸ h.handles.names.path2fd_none hdir
    have hthere := hopened.dir ▸ hthere
    have hnames := hcreated.namesAgree h.handles.names
    exact h.handles.withFiles (hopened.namesAgree hnames hclosed hthere) fun _ _ hp => hopened.openAs hnames (hcreated.openAs hp)
  | undone hnot hundone =>
    refine .inr fun hh => ⟨h.db, ?_⟩
    have hundone := (hundone hh).2
    exact h.handles.withFiles (hundone.namesAgree h.handles.names) fun _ _ hp => hundone.openAs hp
  | @created tab cols fd f₁ f₂ f₃ hfind hcols hdir hsteps hopenAs =>
    intro hh
    obtain ⟨-, hcreated, hopened, hsame⟩ := hsteps hh
    -- an index of that name would be open, and its file in the directory
    have hfresh : ¬ IndexNamed s.db (IxManager.getIndexName tabName (cols.map (·.name))) := by
      intro hnamed
      obtain ⟨fd', hfd'⟩ := Option.ne_none_iff_exists'.mp ((h.handles.indexes _).mpr hnamed)
      exact h.handles.names.inDir fd' _ (h.handles.indexOpen _ fd' hfd').path hdir
    have htab := (h.db.tables tabName tab hfind).withIndex hcols hlen fun index hindex heq =>
      hfresh ⟨tabName, tab, index, hfind, hindex, heq⟩
    have hdb : DbOk (withTable s.db tabName (withIndex tab tabName cols)) := by
      refine h.db.withTable htab ?_
      intro t' tab' hfind' hne index hindex index' hindex' heq
      rcases List.mem_append.mp hindex with hindex | hindex
      · exact h.db.apart tabName tab t' tab' hfind hfind' hne index hindex index' hindex' heq
      · obtain rfl := List.mem_singleton.mp hindex
        exact hfresh ⟨t', tab', index', hfind', hindex', heq.symm⟩
    have hclosed : f₁.path2fd (IxManager.getIndexName tabName (cols.map (·.name))) = none :=
      hcreated.path2fd ▸ h.handles.names.path2fd_none hdir
    have hthere : f₁.dir (IxManager.getIndexName tabName (cols.map (·.name))) ≠ none := by
      obtain ⟨file, hfile⟩ := hcreated.dir
      rw [hfile, Function.update_self]
      exact Option.some_ne_none file
    have hfiles : Handles { s with files := f₁ } _ _ :=
      h.handles.withFiles (hcreated.namesAgree h.handles.names) fun _ _ hp => hcreated.openAs hp
    have hopen := hfiles.openIndex hfresh (isIndexName_getIndexName _ _) hclosed hthere hopened hopenAs.handle
    have hused := hopen.withFiles (hsame.namesAgree hopen.names) fun _ _ hp => hsame.openAs hp
    refine ⟨hdb, (hused.withDb _).congr (find_withTable_ne_none hfind) ?_⟩
    intro name
    rw [withNewIndex, indexNamed_withTable, indexNamed_iff hfind, withIndex]
    simp only [List.mem_append, List.mem_singleton, or_and_right, exists_or, exists_eq_left]
    rw [or_left_comm, ← or_assoc]
    exact or_congr_left (or_congr_right eq_comm)

/-- **`DROP INDEX`** of an index that is there returns. -/
theorem Connected.dropIndex_found (h : Connected s) {osClose osDestroy : Os} (hclose : osClose.Granted) (hdestroy : osDestroy.Granted)
    {tabName : String} {colNames : List String} {tab : Catalog.TabMeta} {index : Catalog.IndexMeta}
    (hfind : s.db.tabs.find tabName = some tab) (hindex : tab.indexes.find? (hasCols colNames) = some index) :
    ∃ s', dropIndex osClose osDestroy tabName colNames s = .ok () s' ∧ Connected s' ∧
      s'.db.tabs.find tabName = some (withoutIndex tab colNames) := by
  have htab := h.db.tables tabName tab hfind
  have hnamed : IndexNamed s.db (ixName tabName index) := ⟨tabName, tab, index, hfind, List.mem_of_find?_eq_some hindex, rfl⟩
  obtain ⟨fd, hfd⟩ := Option.ne_none_iff_exists'.mp ((h.handles.indexes _).mpr hnamed)
  have hopen := h.handles.indexOpen _ fd hfd
  obtain ⟨f₁, h₁, hclosed, -⟩ := closeHandle_granted hclose hopen Index.IX_FILE_HDR_PAGE
  have hpath : f₁.path2fd (ixName tabName index) = none := by rw [hclosed.path2fd, Function.update_self]
  have hthere : f₁.dir (ixName tabName index) ≠ none := by
    rw [hclosed.dir]
    exact h.handles.names.inDir fd _ hopen.path
  have h₂ := destroyFile_granted hdestroy hpath hthere
  let s₁ : Sm := { s with files := f₁, ihs := update s.ihs (ixName tabName index) none }
  let s₂ : Sm := { s₁ with files := { f₁ with dir := update f₁.dir (ixName tabName index) none } }
  have hcloseRun : closeIfOpen osClose (ixName tabName index) s = .ok () s₁ := by
    simp only [closeIfOpen, hfd]
    exact bind_of_ok (call_of_ok h₁)
  have hdestroyRun : call (IxManager.destroyIndex osDestroy (ixName tabName index)) s₁ = .ok () s₂ := call_of_ok h₂
  refine ⟨{ s₂ with db := withTable s.db tabName (withoutIndex tab colNames) }, ?_, ⟨?_, ?_⟩, ?_⟩
  · rw [dropIndex, bind_of_ok (getTable_of_find hfind)]
    simp only [hindex]
    exact (bind_of_ok hcloseRun).trans (bind_of_ok hdestroyRun)
  · refine h.db.withTable (htab.withoutIndex colNames) ?_
    intro t' tab' hfind' hne other hother
    exact h.db.apart tabName tab t' tab' hfind hfind' hne other (List.eraseP_sublist.subset hother)
  · have hhandles : Handles s₂ _ _ := (h.handles.closeIndex hnamed hopen.path hclosed).destroy hpath
    refine (hhandles.withDb _).congr (find_withTable_ne_none hfind) ?_
    intro name
    rw [indexNamed_withTable, indexNamed_iff hfind]
    constructor
    · rintro ⟨hne, ⟨other, hother, rfl⟩ | hother⟩
      · exact .inl ⟨other, (mem_eraseP_iff htab.distinct hindex).mpr ⟨hother, hne⟩, rfl⟩
      · exact .inr hother
    · rintro (⟨other, hother, rfl⟩ | ⟨t', tab', other, hne, hfind', hother, rfl⟩)
      · obtain ⟨hmem, hne⟩ := (mem_eraseP_iff htab.distinct hindex).mp hother
        exact ⟨hne, .inl ⟨other, hmem, rfl⟩⟩
      · exact ⟨h.db.apart t' tab' tabName tab hfind' hfind hne other hother index (List.mem_of_find?_eq_some hindex),
          .inr ⟨t', tab', other, hne, hfind', hother, rfl⟩⟩
  · rw [find_withTable, if_pos rfl]

theorem Connected.dropIndex (h : Connected s) {osClose osDestroy : Os} (hclose : osClose.Granted) (hdestroy : osDestroy.Granted)
    (tabName : String) (colNames : List String) : Leads (dropIndex osClose osDestroy tabName colNames s) := by
  rcases hfind : s.db.tabs.find tabName with _ | tab
  · rw [Fs.dropIndex, bind_of_error (getTable_of_none hfind)]
    exact leads_error h
  rcases hindex : tab.indexes.find? (hasCols colNames) with _ | index
  · rw [Fs.dropIndex, bind_of_ok (getTable_of_find hfind)]
    simp only [hindex]
    exact leads_error h
  · obtain ⟨s', hrun, hs', -⟩ := h.dropIndex_found hclose hdestroy hfind hindex
    rw [hrun]
    exact fun _ => hs'

/-- The loop of `drop_table` drops all indexes. -/
theorem Connected.dropIndexes {os : ℕ → Os × Os} (hos : ∀ n, (os n).1.Granted ∧ (os n).2.Granted) {tabName : String} :
    ∀ {n : ℕ} {s : Sm} {tab : Catalog.TabMeta}, Connected s → s.db.tabs.find tabName = some tab → tab.indexes.length = n →
      ∃ s' tab', dropIndexes os tabName n s = .ok () s' ∧ Connected s' ∧ s'.db.tabs.find tabName = some tab' ∧ tab'.indexes = []
  | 0, s, tab, h, hfind, hlen => ⟨s, tab, rfl, h, hfind, List.length_eq_zero_iff.mp hlen⟩
  | n + 1, s, tab, h, hfind, hlen => by
    obtain ⟨index, hlast⟩ : ∃ index, tab.indexes.getLast? = some index := by
      refine Option.ne_none_iff_exists'.mp ?_
      intro hnone
      rw [List.getLast?_eq_none_iff.mp hnone] at hlen
      cases hlen
    have hmem : index ∈ tab.indexes := List.mem_of_getLast? hlast
    have hcols : hasCols (index.cols.map (·.name)) index = true :=
      (hasCols_iff ((h.db.tables tabName tab hfind).names.2.2 index hmem)).mpr rfl
    obtain ⟨found, hfound⟩ : ∃ found, tab.indexes.find? (hasCols (index.cols.map (·.name))) = some found := by
      refine Option.ne_none_iff_exists'.mp ?_
      intro hnone
      exact absurd hcols (List.find?_eq_none.mp hnone index hmem)
    obtain ⟨s₁, hrun, h₁, hfind₁⟩ := h.dropIndex_found (hos n).1 (hos n).2 hfind hfound
    have hlen₁ : (withoutIndex tab (index.cols.map (·.name))).indexes.length = n := by
      have herase := List.length_eraseP_of_mem hmem hcols
      rw [withoutIndex, herase, hlen, Nat.add_sub_cancel]
    obtain ⟨s', tab', hrest, h', hfind', hnil⟩ := Connected.dropIndexes hos h₁ hfind₁ hlen₁
    refine ⟨s', tab', ?_, h', hfind', hnil⟩
    rw [Fs.dropIndexes, bind_of_ok (getTable_of_find hfind)]
    simp only [hlast]
    rw [bind_of_ok hrun, hrest]

/-- **`DROP TABLE`.** -/
theorem Connected.dropTable (h : Connected s) {os : ℕ → Os × Os} (hos : ∀ n, (os n).1.Granted ∧ (os n).2.Granted)
    {osClose osDestroy : Os} (hclose : osClose.Granted) (hdestroy : osDestroy.Granted) (tabName : String) :
    Leads (dropTable os osClose osDestroy tabName s) := by
  rcases hfind : s.db.tabs.find tabName with _ | tab
  · rw [Fs.dropTable, bind_of_error (getTable_of_none hfind)]
    exact leads_error h
  obtain ⟨s₁, tab', hrun, h₁, hfind₁, hnil⟩ := Connected.dropIndexes hos h hfind rfl
  have hthere : s₁.db.tabs.find tabName ≠ none := by
    rw [hfind₁]
    exact Option.some_ne_none tab'
  obtain ⟨fd, hfd⟩ := Option.ne_none_iff_exists'.mp ((h₁.handles.tables tabName).mpr hthere)
  have hopen := h₁.handles.tableOpen tabName fd hfd
  have hhandle : tableHandle tabName s₁ = .ok fd s₁ := by
    simp only [tableHandle, hfd]
  obtain ⟨f₂, hcloseRun, hclosed, -⟩ := closeHandle_granted hclose hopen RM_FILE_HDR_PAGE
  have h₂ : RmManager.closeFile osClose fd s₁.files = .ok () f₂ := hcloseRun
  have hpath : f₂.path2fd tabName = none := by rw [hclosed.path2fd, Function.update_self]
  let s₂ : Sm := { s₁ with files := f₂, fhs := update s₁.fhs tabName none }
  have hdestroyRun : RmManager.destroyFile osDestroy tabName s₂.files = .ok () { f₂ with dir := update f₂.dir tabName none } := by
    refine destroyFile_granted hdestroy hpath ?_
    rw [hclosed.dir]
    exact h₁.handles.names.inDir fd tabName hopen.path
  let s₃ : Sm := { s₂ with files := { f₂ with dir := update f₂.dir tabName none } }
  have hall : Fs.dropTable os osClose osDestroy tabName s =
      .ok () { s₃ with db := { s₁.db with tabs := s₁.db.tabs.erase tabName } } := by
    rw [Fs.dropTable, bind_of_ok (getTable_of_find hfind), bind_of_ok hrun, bind_of_ok hhandle, bind_of_ok (call_of_ok h₂)]
    exact bind_of_ok (call_of_ok hdestroyRun)
  rw [hall]
  have hfindErase : ∀ t, (s₁.db.tabs.erase tabName).find t = if t = tabName then none else s₁.db.tabs.find t := by
    intro t
    split
    · rename_i heq
      rw [heq, OrderedMap.find_erase_self]
    · rename_i hne
      exact OrderedMap.find_erase_of_ne _ hne
  have hkept : ∀ {t tab}, (s₁.db.tabs.erase tabName).find t = some tab → s₁.db.tabs.find t = some tab := by
    intro t tab hfind
    rw [hfindErase] at hfind
    split at hfind
    · cases hfind
    · exact hfind
  refine fun _ => ⟨⟨h₁.db.name, fun t tab hfind => h₁.db.tables t tab (hkept hfind), ?_⟩, ?_⟩
  · exact fun t tab t' tab' hfind hfind' hne => h₁.db.apart t tab t' tab' (hkept hfind) (hkept hfind') hne
  · have hhandles : Handles s₃ _ _ := (h₁.handles.closeTable hthere hopen.path hclosed).destroy hpath
    refine (hhandles.withDb _).congr ?_ ?_
    · intro t
      rw [hfindErase]
      split
      · rename_i heq
        exact iff_of_false (fun hand => hand.1 heq) fun hne => hne rfl
      · rename_i hne
        exact and_iff_right hne
    · intro name
      constructor
      · rintro ⟨t, tab, index, hfind', hindex, hname⟩
        have hne : t ≠ tabName := by
          rintro rfl
          cases hfind₁.symm.trans hfind'
          rw [hnil] at hindex
          cases hindex
        exact ⟨t, tab, index, by rw [hfindErase, if_neg hne, hfind'], hindex, hname⟩
      · rintro ⟨t, tab, index, hfind, hindex, hname⟩
        exact ⟨t, tab, index, hkept hfind, hindex, hname⟩

end Statements

/-! ### Closing and opening the database -/

/-- Some files have been closed. -/
structure AllClosed (f f' : Files) (fds : List ℤ) : Prop where
  names : NamesAgree f'
  dir : f'.dir = f.dir
  others : ∀ path fd, fd ∉ fds → OpenAs f path fd → OpenAs f' path fd
  kept : ∀ path, f.path2fd path = none → f'.path2fd path = none
  closed : ∀ path, ∀ fd ∈ fds, f.fd2path fd = some path → f'.path2fd path = none

/-- The loop of `close_db`. -/
theorem closeAll_granted {os : ℤ → Os} (hos : ∀ fd, (os fd).Granted) (page : ℤ) : ∀ {fds : List ℤ} {s : Sm}, fds.Nodup →
    NamesAgree s.files → (∀ fd ∈ fds, ∃ path, OpenAs s.files path fd) →
    ∃ f, closeAll (fun fd => closeHandle (os fd) page fd) fds s = .ok () { s with files := f } ∧ AllClosed s.files f fds
  | [], s, _, hnames, _ => ⟨s.files, rfl, hnames, rfl, fun _ _ _ => id, fun _ => id, fun _ fd hfd => by cases hfd⟩
  | fd :: fds, s, hnodup, hnames, hopen => by
    obtain ⟨hfd, hnodup⟩ := List.nodup_cons.mp hnodup
    obtain ⟨path, hpath⟩ := hopen fd List.mem_cons_self
    obtain ⟨f₁, h₁, hclosed, -⟩ := closeHandle_granted (hos fd) hpath page
    have hothers : ∀ p fd', fd' ≠ fd → OpenAs s.files p fd' → OpenAs f₁ p fd' := fun p fd' hne hp => by
      refine hclosed.openAs hpath.path hp ?_
      rintro rfl
      exact hne (Option.some.inj (((hnames.paths fd' p).mp hp.path).symm.trans ((hnames.paths fd p).mp hpath.path)))
    have hkept : ∀ p, s.files.path2fd p = none → f₁.path2fd p = none := fun p hp => by
      rw [hclosed.path2fd, Function.update_apply]
      split
      · rfl
      · exact hp
    obtain ⟨f, hrun, hall⟩ := closeAll_granted hos page (s := { s with files := f₁ }) hnodup (hclosed.namesAgree hnames hpath.path)
      fun fd' hfd' => by
        obtain ⟨p, hp⟩ := hopen fd' (List.mem_cons_of_mem _ hfd')
        exact ⟨p, hothers p fd' (fun heq => hfd (heq ▸ hfd')) hp⟩
    refine ⟨f, ?_, hall.names, hall.dir.trans hclosed.dir, ?_, fun p hp => hall.kept p (hkept p hp), ?_⟩
    · rw [closeAll, bind_of_ok (call_of_ok h₁), hrun]
    · intro p fd' hnot hp
      exact hall.others p fd' (List.not_mem_of_not_mem_cons hnot) (hothers p fd' (List.ne_of_not_mem_cons hnot) hp)
    · intro p fd' hfd' hp
      rcases List.mem_cons.mp hfd' with rfl | hfd'
      · refine hall.kept p ?_
        obtain rfl := Option.some.inj (hp.symm.trans hpath.path)
        change f₁.path2fd p = none
        rw [hclosed.path2fd, Function.update_self]
      · have hne : fd' ≠ fd := fun heq => hfd (heq ▸ hfd')
        refine hall.closed p fd' hfd' ?_
        change f₁.fd2path fd' = some p
        rw [hclosed.fd2path, Function.update_of_ne hne, hp]

/-- The descriptors in a map, in some order. -/
structure Listed (m : String → Option ℤ) (fds : List ℤ) : Prop where
  nodup : fds.Nodup
  mem : ∀ fd, fd ∈ fds ↔ ∃ name, m name = some fd

/-- **`close_db`** returns, and the files of the catalog are there and closed. -/
theorem Connected.closeDb {s : Sm} (h : Connected s) {os : ℤ → Os} (hos : ∀ fd, (os fd).Granted) {indexFds tableFds : List ℤ}
    (hix : Listed s.ihs indexFds) (htab : Listed s.fhs tableFds) :
    ∃ f, closeDb os indexFds tableFds s = .ok () { s with files := f, fhs := fun _ => none, ihs := fun _ => none } ∧
      NamesAgree f ∧ (∀ t, s.db.tabs.find t ≠ none → Ready f t) ∧ ∀ name, IndexNamed s.db name → Ready f name := by
  have hh := h.handles
  obtain ⟨f₁, hrun₁, hall₁⟩ := closeAll_granted hos Index.IX_FILE_HDR_PAGE hix.nodup hh.names fun fd hfd => by
    obtain ⟨name, hname⟩ := (hix.mem fd).mp hfd
    exact ⟨name, hh.indexOpen name fd hname⟩
  -- no table is open under the descriptor of an index
  have hapart : ∀ t fd, s.fhs t = some fd → fd ∉ indexFds := by
    intro t fd hfd hmem
    obtain ⟨name, hname⟩ := (hix.mem fd).mp hmem
    obtain rfl : t = name := Option.some.inj ((hh.tableOpen t fd hfd).path.symm.trans (hh.indexOpen name fd hname).path)
    refine hh.tableName t ((hh.tables t).mp ?_) (hh.indexName t ((hh.indexes t).mp ?_))
    · rw [hfd]
      exact Option.some_ne_none fd
    · rw [hname]
      exact Option.some_ne_none fd
  obtain ⟨f₂, hrun₂, hall₂⟩ := closeAll_granted hos RM_FILE_HDR_PAGE (s := { s with files := f₁, ihs := fun _ => none }) htab.nodup
    hall₁.names fun fd hfd => by
      obtain ⟨t, ht⟩ := (htab.mem fd).mp hfd
      exact ⟨t, hall₁.others t fd (hapart t fd ht) (hh.tableOpen t fd ht)⟩
  refine ⟨f₂, ?_, hall₂.names, ?_, ?_⟩
  · have h₁ : closeAll (fun fd => IxManager.closeIndex (os fd) fd) indexFds s = .ok () { s with files := f₁ } := hrun₁
    have h₂ : closeAll (fun fd => RmManager.closeFile (os fd) fd) tableFds { s with files := f₁, ihs := fun _ => none } =
        .ok () { s with files := f₂, ihs := fun _ => none } := hrun₂
    have hmodify : (modify (fun s : Sm => { s with ihs := fun _ => none }) : SmM PUnit) { s with files := f₁ } =
        .ok ⟨⟩ { s with files := f₁, ihs := fun _ => none } := rfl
    rw [Fs.closeDb, bind_of_ok h₁, bind_of_ok hmodify, bind_of_ok h₂]
    rfl
  · intro t ht
    obtain ⟨fd, hfd⟩ := Option.ne_none_iff_exists'.mp ((hh.tables t).mpr ht)
    have hopen := hh.tableOpen t fd hfd
    have hopen₁ := hall₁.others t fd (hapart t fd hfd) hopen
    refine ⟨hall₂.closed t fd ((htab.mem fd).mpr ⟨t, hfd⟩) hopen₁.path, ?_⟩
    rw [hall₂.dir]
    change f₁.dir t ≠ none
    rw [hall₁.dir]
    exact hh.names.inDir fd t hopen.path
  · intro name hname
    obtain ⟨fd, hfd⟩ := Option.ne_none_iff_exists'.mp ((hh.indexes name).mpr hname)
    have hopen := hh.indexOpen name fd hfd
    refine ⟨hall₂.kept name (hall₁.closed name fd ((hix.mem fd).mpr ⟨name, hfd⟩) hopen.path), ?_⟩
    rw [hall₂.dir]
    change f₁.dir name ≠ none
    rw [hall₁.dir]
    exact hh.names.inDir fd name hopen.path

section Opening

variable {os : String → Os} {s s' : Sm} {T I : String → Prop}

/-- A step of opening: what is ready stays so apart from the names that are opened, and the handles of these are added. -/
structure Opens (s s' : Sm) (tables indexes : String → Prop) : Prop where
  db : s'.db = s.db
  ready : ∀ name, ¬ tables name → ¬ indexes name → Ready s.files name → Ready s'.files name
  handles : s'.files.honest → s.files.honest ∧ ∀ T I, Handles s T I → (∀ t, tables t → ¬ T t) → (∀ name, indexes name → ¬ I name) →
    Handles s' (fun t => tables t ∨ T t) fun name => indexes name ∨ I name

theorem Opens.refl (s : Sm) : Opens s s (fun _ => False) fun _ => False :=
  ⟨rfl, fun _ _ _ => id, fun hh => ⟨hh, fun _ _ h _ _ => h.congr (fun _ => (Iff.of_eq (false_or _)).symm) fun _ => (Iff.of_eq (false_or _)).symm⟩⟩

theorem Opens.congr {T I T' I' : String → Prop} (h : Opens s s' T I) (hT : ∀ t, T t ↔ T' t) (hI : ∀ name, I name ↔ I' name) :
    Opens s s' T' I' := by
  obtain rfl : T = T' := funext fun t => propext (hT t)
  obtain rfl : I = I' := funext fun name => propext (hI name)
  exact h

/-- One after the other, with different names. -/
theorem Opens.trans {s₁ s₂ s₃ : Sm} {T₁ I₁ T₂ I₂ : String → Prop} (h : Opens s₁ s₂ T₁ I₁) (h' : Opens s₂ s₃ T₂ I₂)
    (hT : ∀ t, T₂ t → ¬ T₁ t) (hI : ∀ name, I₂ name → ¬ I₁ name) :
    Opens s₁ s₃ (fun t => T₂ t ∨ T₁ t) fun name => I₂ name ∨ I₁ name where
  db := h'.db.trans h.db
  ready name ht hi hready := by
    rw [not_or] at ht hi
    exact h'.ready name ht.1 hi.1 (h.ready name ht.2 hi.2 hready)
  handles hh := by
    obtain ⟨hh₂, hhandles'⟩ := h'.handles hh
    obtain ⟨hh₁, hhandles⟩ := h.handles hh₂
    refine ⟨hh₁, ?_⟩
    intro T I hs hnewT hnewI
    have hs₂ := hhandles T I hs (fun t ht => hnewT t (.inr ht)) fun name hn => hnewI name (.inr hn)
    refine (hhandles' _ _ hs₂ ?_ ?_).congr (fun _ => or_assoc.symm) fun _ => or_assoc.symm
    · intro t ht hor
      exact hor.elim (hT t ht) (hnewT t (.inl ht))
    · intro name hn hor
      exact hor.elim (hI name hn) (hnewI name (.inl hn))

/-- An index is opened. -/
theorem openIndex_opens (hos : ∀ name, (os name).Granted ∧ (os name).Opens) {name : String} (hname : IsIndexName name)
    (hready : Ready s.files name) : (∃ f, call (IxManager.openIndex (os name) name) s = .error .died { s with files := f }) ∨
      ∃ fd f, call (IxManager.openIndex (os name) name) s = .ok fd { s with files := f } ∧
        Opens s { s with files := f, ihs := emplace s.ihs name fd } (fun _ => False) (· = name) := by
  rcases openIndexFile_granted (hos name).1 (hos name).2 hready.closed hready.dir with ⟨f, h⟩ | ⟨fd, f, h, hopenAs, -, hothers, hopened⟩
  · exact .inl ⟨f, call_of_error h⟩
  · refine .inr ⟨fd, f, call_of_ok h, rfl, fun other _ hne hr => hothers other hne hr, ?_⟩
    intro hh
    obtain ⟨hh₁, hopened⟩ := hopened hh
    refine ⟨hh₁, ?_⟩
    intro T I hs _ hI
    exact (hs.openIndex (hI name rfl) hname hready.closed hready.dir hopened hopenAs.handle).congr (fun _ => (Iff.of_eq (false_or _)).symm)
      fun _ => Iff.rfl

/-- A table is opened. -/
theorem openTable_opens (hos : ∀ name, (os name).Granted ∧ (os name).Opens) {name : String} (hname : ¬ IsIndexName name)
    (hready : Ready s.files name) : ∃ fd f, call (RmManager.openFile (os name) name) s = .ok fd { s with files := f } ∧
        Opens s { s with files := f, fhs := emplace s.fhs name fd } (· = name) fun _ => False := by
  obtain ⟨fd, f, h, hhandle, hothers, hopened⟩ := openTableFile_granted (hos name).1 (hos name).2 hready.closed hready.dir
  refine ⟨fd, f, call_of_ok h, rfl, fun other hne _ hr => hothers other hne hr, ?_⟩
  intro hh
  obtain ⟨hh₁, hopened⟩ := hopened hh
  refine ⟨hh₁, ?_⟩
  intro T I hs hT _
  exact (hs.openTable (hT name rfl) hname hready.closed hready.dir hopened hhandle).congr (fun _ => Iff.rfl)
    fun _ => (Iff.of_eq (false_or _)).symm

/-- The loop over the indexes of a table. -/
theorem openIndexes_opens (hos : ∀ name, (os name).Granted ∧ (os name).Opens) {tabName : String} :
    ∀ {indexes : List Catalog.IndexMeta} {s : Sm}, indexes.Pairwise (fun i j => ixName tabName i ≠ ixName tabName j) →
      (∀ index ∈ indexes, Ready s.files (ixName tabName index)) →
      (∃ s', openIndexes os tabName indexes s = .error .died s') ∨
        ∃ s', openIndexes os tabName indexes s = .ok () s' ∧
          Opens s s' (fun _ => False) fun name => ∃ index ∈ indexes, ixName tabName index = name
  | [], s, _, _ => .inr ⟨s, rfl, by simpa using Opens.refl s⟩
  | index :: indexes, s, hdistinct, hready => by
    obtain ⟨hfirst, hdistinct⟩ := List.pairwise_cons.mp hdistinct
    rcases openIndex_opens hos (isIndexName_getIndexName _ _) (hready index List.mem_cons_self) with ⟨f, h⟩ | ⟨fd, f, h, hopens⟩
    · exact .inl ⟨_, bind_of_error h⟩
    have hready' : ∀ index' ∈ indexes, Ready f (ixName tabName index') := fun index' hindex' =>
      hopens.ready _ id (fun heq => hfirst index' hindex' heq.symm) (hready index' (List.mem_cons_of_mem _ hindex'))
    rcases openIndexes_opens hos hdistinct (s := { s with files := f, ihs := emplace s.ihs (ixName tabName index) fd }) hready' with
      ⟨s', hrest⟩ | ⟨s', hrest, hopens'⟩
    · exact .inl ⟨s', (bind_of_ok h).trans hrest⟩
    · refine .inr ⟨s', (bind_of_ok h).trans hrest, ?_⟩
      have hboth := hopens.trans hopens' (fun _ hfalse _ => hfalse) fun name => by
        rintro ⟨index', hindex', rfl⟩ heq
        exact hfirst index' hindex' heq.symm
      refine hboth.congr (fun _ => Iff.of_eq (or_self False)) ?_
      intro name
      rw [List.exists_mem_cons_iff, or_comm, eq_comm]
      exact Iff.rfl

/-- The names of the indexes of a list of tables. -/
def IndexOf (tabs : List Catalog.TabMeta) (name : String) : Prop :=
  ∃ tab ∈ tabs, ∃ index ∈ tab.indexes, ixName tab.name index = name

/-- **The loop of `open_db`.** -/
theorem openTables_opens (hos : ∀ name, (os name).Granted ∧ (os name).Opens) :
    ∀ {tabs : List Catalog.TabMeta} {s : Sm}, (∀ tab ∈ tabs, TabOk tab.name tab) → (tabs.map (·.name)).Nodup →
      tabs.Pairwise (fun tab tab' => ∀ index ∈ tab.indexes, ∀ index' ∈ tab'.indexes, ixName tab.name index ≠ ixName tab'.name index') →
      (∀ tab ∈ tabs, Ready s.files tab.name) → (∀ name, IndexOf tabs name → Ready s.files name) →
      (∃ s', openTables os tabs s = .error .died s') ∨
        ∃ s', openTables os tabs s = .ok () s' ∧ Opens s s' (fun t => ∃ tab ∈ tabs, tab.name = t) (IndexOf tabs)
  | [], s, _, _, _, _, _ => .inr ⟨s, rfl, (Opens.refl s).congr (fun _ => by simp) fun _ => by simp [IndexOf]⟩
  | tab :: tabs, s, hok, hnodup, hapart, hready, hreadyIndex => by
    obtain ⟨hfirst, hnodup⟩ := List.nodup_cons.mp hnodup
    obtain ⟨hfirstIndex, hapart⟩ := List.pairwise_cons.mp hapart
    have htab := hok tab List.mem_cons_self
    obtain ⟨fd, f, h, hopens⟩ := openTable_opens hos htab.notIndex (hready tab List.mem_cons_self)
    have hne : ∀ tab' ∈ tabs, tab'.name ≠ tab.name := fun tab' htab' heq => hfirst (List.mem_map.mpr ⟨tab', htab', heq⟩)
    have hneIndex : ∀ (t : String) (index : Catalog.IndexMeta), ixName t index ≠ tab.name := fun t index heq =>
      htab.notIndex (heq ▸ isIndexName_getIndexName _ _)
    have hmodify : (modify (fun s : Sm => { s with fhs := emplace s.fhs tab.name fd }) : SmM PUnit) { s with files := f } =
        .ok ⟨⟩ { s with files := f, fhs := emplace s.fhs tab.name fd } := rfl
    rcases openIndexes_opens hos htab.distinct (s := { s with files := f, fhs := emplace s.fhs tab.name fd })
      (fun index hindex => hopens.ready _ (hneIndex _ _) id (hreadyIndex _ ⟨tab, List.mem_cons_self, index, hindex, rfl⟩)) with
      ⟨s', hrest⟩ | ⟨s₁, hrest, hopens₁⟩
    · exact .inl ⟨s', (bind_of_ok h).trans ((bind_of_ok hmodify).trans (bind_of_error hrest))⟩
    have hboth := (hopens.trans hopens₁ (fun _ hfalse _ => hfalse) fun _ _ hfalse => hfalse).congr (fun t => Iff.of_eq (false_or (t = tab.name)))
      fun name => Iff.of_eq (or_false (∃ index ∈ tab.indexes, ixName tab.name index = name))
    have hnotIndex : ∀ tab' ∈ tabs, ¬ ∃ index ∈ tab.indexes, ixName tab.name index = tab'.name := by
      rintro tab' htab' ⟨index, -, heq⟩
      exact (hok tab' (List.mem_cons_of_mem _ htab')).notIndex (heq ▸ isIndexName_getIndexName _ _)
    have hindexApart : ∀ name, IndexOf tabs name → ¬ ∃ index ∈ tab.indexes, ixName tab.name index = name := by
      rintro _ ⟨tab', htab', index', hindex', rfl⟩ ⟨index, hindex, heq⟩
      exact hfirstIndex tab' htab' index hindex index' hindex' heq
    have htables := fun tab' htab' => hboth.ready tab'.name (hne tab' htab') (hnotIndex tab' htab') (hready tab' (List.mem_cons_of_mem _ htab'))
    have hindexes : ∀ name, IndexOf tabs name → Ready s₁.files name := by
      intro name hname
      refine hboth.ready name ?_ (hindexApart name hname) ?_
      · obtain ⟨tab', -, index', -, rfl⟩ := hname
        exact hneIndex _ _
      · obtain ⟨tab', htab', hindex'⟩ := hname
        exact hreadyIndex name ⟨tab', List.mem_cons_of_mem _ htab', hindex'⟩
    rcases openTables_opens hos (fun t ht => hok t (List.mem_cons_of_mem _ ht)) hnodup hapart htables hindexes with
      ⟨s', hlast⟩ | ⟨s', hlast, hopens'⟩
    · exact .inl ⟨s', (bind_of_ok h).trans ((bind_of_ok hmodify).trans ((bind_of_ok hrest).trans hlast))⟩
    · refine .inr ⟨s', (bind_of_ok h).trans ((bind_of_ok hmodify).trans ((bind_of_ok hrest).trans hlast)), ?_⟩
      refine (hboth.trans hopens' ?_ hindexApart).congr ?_ ?_
      · rintro _ ⟨tab', htab', rfl⟩
        exact hne tab' htab'
      · intro t
        rw [List.exists_mem_cons_iff, or_comm, eq_comm]
      · intro name
        rw [IndexOf, IndexOf, List.exists_mem_cons_iff, or_comm]

end Opening

/-! ### The cycle -/

/-- What `ifs >> db_` makes of a catalog: the tables that are read are assigned one after another. -/
def mergeDb (db read : Catalog.DbMeta) : Catalog.DbMeta :=
  ⟨read.name, read.tabs.pairs.foldl (fun tabs entry => tabs.assign entry.1 entry.2) db.tabs⟩

/-- A new process: the files are as they were, and nothing is open. -/
structure NewProcess (s s' : Sm) : Prop where
  dir : s'.files.dir = s.files.dir
  pages : s'.files.pages = s.files.pages
  path2fd : ∀ path, s'.files.path2fd path = none
  fd2path : ∀ fd, s'.files.fd2path fd = none
  fhs : ∀ t, s'.fhs t = none
  ihs : ∀ name, s'.ihs name = none
  db : s'.db.tabs = .empty

theorem mergeDb_self (db : Catalog.DbMeta) : mergeDb db db = db := by
  have hfold : ∀ entries : List (String × Catalog.TabMeta), (∀ entry ∈ entries, entry ∈ db.tabs.pairs) →
      entries.foldl (fun tabs entry => tabs.assign entry.1 entry.2) db.tabs = db.tabs := by
    intro entries
    induction entries with
    | nil => exact fun _ => rfl
    | cons entry entries ih =>
      intro hmem
      rw [List.foldl_cons, OrderedMap.assign_find (OrderedMap.mem_pairs_iff.mp (hmem entry List.mem_cons_self))]
      exact ih fun e he => hmem e (List.mem_cons_of_mem _ he)
  rw [mergeDb, hfold _ fun _ => id]

theorem DbOk.namesOk {db : Catalog.DbMeta} (h : DbOk db) : db.NamesOk := by
  refine ⟨h.name, ?_⟩
  intro entry hentry
  have htab := h.tables entry.1 entry.2 (OrderedMap.mem_pairs_iff.mp hentry)
  exact ⟨htab.named, htab.names⟩

/-- The tables of a catalog, in the order in which they are opened. -/
def tableList (db : Catalog.DbMeta) : List Catalog.TabMeta := db.tabs.pairs.map (·.2)

theorem DbOk.mem_tableList {db : Catalog.DbMeta} (h : DbOk db) {tab : Catalog.TabMeta} :
    tab ∈ tableList db ↔ db.tabs.find tab.name = some tab := by
  rw [tableList, List.mem_map]
  constructor
  · rintro ⟨entry, hentry, rfl⟩
    have hfind := OrderedMap.mem_pairs_iff.mp hentry
    rwa [(h.tables entry.1 entry.2 hfind).named]
  · exact fun hfind => ⟨(tab.name, tab), OrderedMap.mem_pairs_iff.mpr hfind, rfl⟩

theorem DbOk.tableList_nodup {db : Catalog.DbMeta} (h : DbOk db) : ((tableList db).map (·.name)).Nodup := by
  have hkeys : (tableList db).map (·.name) = db.tabs.pairs.map (·.1) := by
    rw [tableList, List.map_map]
    exact List.map_congr_left fun entry hentry => (h.tables entry.1 entry.2 (OrderedMap.mem_pairs_iff.mp hentry)).named
  rw [hkeys]
  exact (List.pairwise_map.mpr (db.tabs.sorted.imp fun hlt => hlt.ne))

theorem DbOk.indexOf_iff {db : Catalog.DbMeta} (h : DbOk db) {name : String} : IndexOf (tableList db) name ↔ IndexNamed db name := by
  constructor
  · rintro ⟨tab, htab, index, hindex, hname⟩
    exact ⟨tab.name, tab, index, h.mem_tableList.mp htab, hindex, hname⟩
  · rintro ⟨t, tab, index, hfind, hindex, hname⟩
    obtain rfl := (h.tables t tab hfind).named
    exact ⟨tab, h.mem_tableList.mpr hfind, index, hindex, hname⟩

/-- **A cycle** of `close_db` and `open_db`. -/
theorem Connected.reopen {s s₁ s₂ : Sm} (h : Connected s) {osClose : ℤ → Os} (hclose : ∀ fd, (osClose fd).Granted)
    {osOpen : String → Os} (hopen : ∀ name, (osOpen name).Granted ∧ (osOpen name).Opens) {indexFds tableFds : List ℤ}
    (hix : Listed s.ihs indexFds) (htab : Listed s.fhs tableFds) (hclosed : Reaches (Fs.closeDb osClose indexFds tableFds s) s₁)
    (hprocess : s₂ = s₁ ∨ NewProcess s₁ s₂) {read : Catalog.DbMeta} (hread : (Catalog.DbMeta.read s₁.db.write).map Prod.fst = some read) :
    Leads (openDb osOpen (mergeDb s₂.db read) s₂) := by
  obtain ⟨f, hrun, hnames, htables, hindexes⟩ := h.closeDb hclose hix htab
  rw [hrun] at hclosed
  obtain rfl : { s with files := f, fhs := fun _ => none, ihs := fun _ => none } = s₁ := hclosed
  obtain rfl := Option.some.inj ((Catalog.DbMeta.read_write s.db h.db.namesOk).symm.trans hread)
  -- in either process the catalog is the old one, and its files are ready
  obtain ⟨hmerge, hnames₂, hfhs, hihs, hready⟩ : mergeDb s₂.db s.db = s.db ∧ NamesAgree s₂.files ∧ (∀ t, s₂.fhs t = none) ∧
      (∀ name, s₂.ihs name = none) ∧ ∀ path, Ready f path → Ready s₂.files path := by
    rcases hprocess with rfl | hnew
    · exact ⟨mergeDb_self s.db, hnames, fun _ => rfl, fun _ => rfl, fun _ => id⟩
    · refine ⟨?_, ⟨fun fd path => ?_, fun fd path hpath => ?_, fun fd _ => hnew.fd2path fd⟩, hnew.fhs, hnew.ihs, fun path hpath =>
        ⟨hnew.path2fd path, by rw [hnew.dir]; exact hpath.dir⟩⟩
      · rw [mergeDb, hnew.db, OrderedMap.assignAll_pairs]
      · rw [hnew.fd2path, hnew.path2fd]
        exact iff_of_false (fun heq => by cases heq) fun heq => by cases heq
      · rw [hnew.fd2path] at hpath
        cases hpath
  rw [hmerge]
  let s₃ : Sm := { s₂ with db := s.db }
  have hnone : Handles s₃ (fun _ => False) fun _ => False :=
    ⟨hnames₂, fun t => iff_of_false (not_not.mpr (hfhs t)) id, fun name => iff_of_false (not_not.mpr (hihs name)) id,
      fun t fd hfd => (by cases (hfhs t).symm.trans hfd), fun name fd hfd => (by cases (hihs name).symm.trans hfd),
      fun _ hfalse => hfalse.elim, fun _ hfalse => hfalse.elim⟩
  have hok : ∀ tab ∈ tableList s.db, TabOk tab.name tab := fun tab htab => h.db.tables _ tab (h.db.mem_tableList.mp htab)
  have hapart : (tableList s.db).Pairwise fun tab tab' => ∀ index ∈ tab.indexes, ∀ index' ∈ tab'.indexes,
      ixName tab.name index ≠ ixName tab'.name index' := by
    refine (List.pairwise_map.mp h.db.tableList_nodup).imp_of_mem fun hmem hmem' hne => ?_
    exact h.db.apart _ _ _ _ (h.db.mem_tableList.mp hmem) (h.db.mem_tableList.mp hmem') hne
  have hopened : openDb osOpen s.db s₂ = openTables osOpen (tableList s.db) s₃ := rfl
  rw [hopened]
  rcases openTables_opens hopen hok h.db.tableList_nodup hapart (s := s₃)
    (fun tab htab => hready _ (htables _ (by rw [h.db.mem_tableList.mp htab]; exact Option.some_ne_none tab)))
    (fun name hname => hready _ (hindexes name (h.db.indexOf_iff.mp hname))) with ⟨s', hlast⟩ | ⟨s', hlast, hopens⟩
  · rw [hlast]
    exact .inl rfl
  · rw [hlast]
    intro hh
    have hdb : s'.db = s.db := hopens.db
    have hhandles := (hopens.handles hh).2 _ _ hnone (fun _ _ => id) fun _ _ => id
    refine ⟨hdb ▸ h.db, hhandles.congr ?_ ?_⟩
    · intro t
      rw [or_false, hdb]
      constructor
      · rintro ⟨tab, htab, rfl⟩
        rw [h.db.mem_tableList.mp htab]
        exact Option.some_ne_none tab
      · intro hne
        obtain ⟨tab, hfind⟩ := Option.ne_none_iff_exists'.mp hne
        obtain rfl := (h.db.tables t tab hfind).named
        exact ⟨tab, h.db.mem_tableList.mpr hfind, rfl⟩
    · intro name
      rw [or_false, hdb]
      exact h.db.indexOf_iff

/-! ### Runs -/

/-- A statement, which may fail on its checks, or a cycle; the answers of the operating system have been true. -/
inductive CatalogStep (s : Sm) : Sm → Prop where
  /-- `CREATE TABLE`, with distinct names of columns. -/
  | createTable {osCreate osOpen : Os} {tabName : String} {colDefs : List Catalog.ColDef} {s' : Sm} :
      osCreate.Granted → osCreate.Opens → osOpen.Granted → osOpen.Opens → IsIdentifier tabName →
      (∀ colDef ∈ colDefs, IsIdentifier colDef.name) → (colDefs.map (·.name)).Nodup →
      Reaches (createTable osCreate osOpen tabName colDefs s) s' → s'.files.honest → CatalogStep s s'
  /-- `DROP TABLE`. -/
  | dropTable {os : ℕ → Os × Os} {osClose osDestroy : Os} {tabName : String} {s' : Sm} :
      (∀ n, (os n).1.Granted ∧ (os n).2.Granted) → osClose.Granted → osDestroy.Granted →
      Reaches (dropTable os osClose osDestroy tabName s) s' → s'.files.honest → CatalogStep s s'
  /-- `CREATE INDEX`; the columns are read from a statement, whose text has at most 8192 bytes. -/
  | createIndex {os : IndexOs} {acc : Access} {tabName : String} {colNames : List String} {s' : Sm} :
      os.Granted → acc.Ok → colNames.length ≤ 8192 →
      Reaches (createIndex os acc tabName colNames s) s' → s'.files.honest → CatalogStep s s'
  /-- `DROP INDEX`. -/
  | dropIndex {osClose osDestroy : Os} {tabName : String} {colNames : List String} {s' : Sm} :
      osClose.Granted → osDestroy.Granted → Reaches (dropIndex osClose osDestroy tabName colNames s) s' → s'.files.honest →
      CatalogStep s s'
  /-- `close_db`, which writes the catalog, and `open_db`, which reads it, in the same process or in a new one. -/
  | reopen {osClose : ℤ → Os} {osOpen : String → Os} {indexFds tableFds : List ℤ} {s₁ s₂ s' : Sm} {read : Catalog.DbMeta} :
      (∀ fd, (osClose fd).Granted) → (∀ name, (osOpen name).Granted ∧ (osOpen name).Opens) →
      Listed s.ihs indexFds → Listed s.fhs tableFds → Reaches (closeDb osClose indexFds tableFds s) s₁ →
      s₂ = s₁ ∨ NewProcess s₁ s₂ → (Catalog.DbMeta.read s₁.db.write).map Prod.fst = some read →
      Reaches (openDb osOpen (mergeDb s₂.db read) s₂) s' → s'.files.honest → CatalogStep s s'
  /-- What the other statements do through the handles. -/
  | use {files : Files} : Use s.files files → CatalogStep s { s with files := files }

/-- A new database, opened: it has no table. -/
structure NewDb (s : Sm) : Prop where
  name : Catalog.NameOk s.db.name
  tabs : s.db.tabs = .empty
  fhs : ∀ t, s.fhs t = none
  ihs : ∀ name, s.ihs name = none
  names : NamesAgree s.files

/-- The catalog and the maps of handles say the same. -/
structure Consistent (s : Sm) : Prop where
  /-- There is a handle exactly for the tables. -/
  tables : ∀ t, s.fhs t ≠ none ↔ s.db.tabs.find t ≠ none
  /-- There is a handle exactly for the names of the indexes. -/
  indexes : ∀ name, s.ihs name ≠ none ↔ ∃ t tab index, s.db.tabs.find t = some tab ∧ index ∈ tab.indexes ∧
    IxManager.getIndexName t (index.cols.map (·.name)) = name
  /-- The flag of a column is set if and only if an index of its table has it. -/
  flags : ∀ t tab, s.db.tabs.find t = some tab → ∀ col ∈ tab.cols,
    col.index = true ↔ ∃ index ∈ tab.indexes, ∃ c ∈ index.cols, c.name = col.name

section Runs

variable {s s' : Sm}

theorem NewDb.connected (h : NewDb s) : Connected s := by
  have hfind : ∀ t, s.db.tabs.find t = none := fun t => by
    rw [h.tabs]
    rfl
  refine ⟨⟨h.name, fun t tab ht => (by cases (hfind t).symm.trans ht), fun t tab _ _ ht => (by cases (hfind t).symm.trans ht)⟩,
    h.names, fun t => iff_of_false (not_not.mpr (h.fhs t)) (not_not.mpr (hfind t)), ?_,
    fun t fd hfd => (by cases (h.fhs t).symm.trans hfd), fun name fd hfd => (by cases (h.ihs name).symm.trans hfd),
    fun t ht => absurd (hfind t) ht, ?_⟩
  · intro name
    refine iff_of_false (not_not.mpr (h.ihs name)) ?_
    rintro ⟨t, tab, index, ht, -⟩
    cases (hfind t).symm.trans ht
  · rintro name ⟨t, tab, index, ht, -⟩
    cases (hfind t).symm.trans ht

/-- Every statement and every cycle keeps the catalog and the handles together. -/
theorem CatalogStep.connected (hstep : CatalogStep s s') (h : Connected s) : Connected s' := by
  cases hstep with
  | createTable hcreate hcreateOpens hopen hopenOpens hname hnames hnodup hr hh =>
    exact (h.createTable hcreate hcreateOpens hopen hopenOpens hname hnames hnodup).reaches hr hh
  | dropTable hos hclose hdestroy hr hh => exact (h.dropTable hos hclose hdestroy _).reaches hr hh
  | createIndex hos hacc hlen hr hh => exact (h.createIndex hos hacc _ (by omega)).reaches hr hh
  | dropIndex hclose hdestroy hr hh => exact (h.dropIndex hclose hdestroy _ _).reaches hr hh
  | reopen hclose hopen hix htab hclosed hprocess hread hr hh =>
    exact (h.reopen hclose hopen hix htab hclosed hprocess hread).reaches hr hh
  | use huse =>
    have hsame := huse.sameNames
    exact ⟨h.db, h.handles.withFiles (hsame.namesAgree h.handles.names) fun _ _ hp => hsame.openAs hp⟩

theorem run_connected (hnew : NewDb s) (hrun : ReflTransGen CatalogStep s s') : Connected s' := by
  induction hrun with
  | refl => exact hnew.connected
  | tail _ hstep ih => exact hstep.connected ih

/-- **The catalog stays consistent**, whatever statements are run and however often the database is closed and opened. -/
theorem catalog_consistent (hnew : NewDb s) (hrun : ReflTransGen CatalogStep s s') : Consistent s' := by
  obtain ⟨hdb, hhandles⟩ := run_connected hnew hrun
  exact ⟨hhandles.tables, hhandles.indexes, fun t tab hfind => (hdb.tables t tab hfind).flags⟩

end Runs

/-! ### A table with an index -/

section Plain

open DiskManager

theorem sizeOf_index {hdr leaf root : Bytes} (hh : hdr.length ≤ PAGE_SIZE) (hl : leaf.length ≤ PAGE_SIZE)
    (hr : 0 < root.length) (hr' : root.length ≤ PAGE_SIZE) :
    SizeOf (Index.writeBytes (Index.writeBytes (Index.writeBytes blank 0 hdr) 1 leaf) 2 root) 12288 := by
  refine ⟨by decide, ?_, ?_⟩
  · intro n hn
    have hn' : n = 0 ∨ n = 1 ∨ n = 2 := by
      by_contra hne
      obtain ⟨h0, h1, h2⟩ : n ≠ 0 ∧ n ≠ 1 ∧ n ≠ 2 := by tauto
      rw [Index.writeBytes_other hr' _ h2, Index.writeBytes_other hl _ h1, Index.writeBytes_other hh _ h0] at hn
      exact hn rfl
    rcases hn' with rfl | rfl | rfl <;> decide
  · intro _
    have hpage : ((12288 : ℤ) - 1) / (PAGE_SIZE : ℤ) = 2 := by decide
    rw [hpage]
    unfold Index.writeBytes
    rw [if_pos ⟨le_refl _, by simpa using hr⟩]
    exact Option.some_ne_none _

theorem writePage_plain (fd : Option (ℤ × ℤ)) (frames : List ℕ) (f : Files) (x pageNo : ℤ) (bytes : Bytes) :
    writePage (.plain fd frames) x pageNo bytes f = .ok () (setPages f x (Index.writeBytes (filePages f x) pageNo bytes)) := rfl

/-- A file with the three pages of an empty index is created. -/
theorem createIndex_plain {f : Files} {ixName : String} {cols : List Catalog.ColMeta} {order : ℤ}
    (hdir : f.dir ixName = none) (hclosed : f.path2fd ixName = none) (hfree : f.opened 4 = none)
    (hlen : ¬ (Index.IX_MAX_COL_LEN : ℤ) < (IxManager.colTotLen cols).toInt)
    (horder : IxManager.btreeOrder (IxManager.colTotLen cols) = some order)
    (hhdr : (IxManager.fileHdr cols order).serialize.length ≤ PAGE_SIZE) :
    ∃ f', IxManager.createIndex (.plain (some (4, 0)) []) ixName cols f = .ok () f' ∧ f'.dir ixName = some f.nextFile ∧
      f'.path2fd ixName = none ∧ f'.opened 4 = none ∧ (f.honest → f'.honest) ∧
      SizeOf (f'.pages f.nextFile) 12288 := by
  have hblank : SizeOf blank 0 := ⟨le_refl _, fun n hn => absurd rfl hn, fun h => absurd h (lt_irrefl _)⟩
  let f₁ : Files := { f with
    dir := update f.dir ixName (some f.nextFile)
    pages := update f.pages f.nextFile blank
    nextFile := f.nextFile + 1 }
  have h₁ : DiskManager.createFile (.plain (some (4, 0)) []) ixName f = .ok () f₁ := by
    simp only [DiskManager.createFile, hdir]
    rfl
  let f₂ : Files := { f₁ with
    path2fd := update f.path2fd ixName (some 4)
    fd2path := update f.fd2path 4 (some ixName)
    opened := update f.opened 4 (some f.nextFile)
    bpm := { f.bpm with
      disk := fun pid => if pid.fd = 4 then f₁.pages f.nextFile pid.pageNo else f.bpm.disk pid
      fd2pageno := update f.bpm.fd2pageno 4 (pagesOfSize 0) }
    honest := f.honest ∧ 0 ≤ (4 : ℤ) ∧ f.opened 4 = none ∧ SizeOf (f₁.pages f.nextFile) 0 }
  have h₂ : DiskManager.openFile (.plain (some (4, 0)) []) ixName f₁ = .ok 4 f₂ := by
    have hthere : f₁.dir ixName = some f.nextFile := Function.update_self ..
    have hshut : f₁.path2fd ixName = none := hclosed
    simp only [DiskManager.openFile, hthere, hshut]
    rfl
  have hpages₁ : f₁.pages f.nextFile = blank := Function.update_self ..
  have hpages₂ : filePages f₂ 4 = blank := by
    rw [← hpages₁]
    funext n
    rfl
  let file₃ := Index.writeBytes blank Index.IX_FILE_HDR_PAGE (IxManager.fileHdr cols order).serialize
  let file₄ := Index.writeBytes file₃ Index.IX_LEAF_HEADER_PAGE (IxManager.leafPage Index.IX_INIT_ROOT_PAGE Index.IX_INIT_ROOT_PAGE)
  let file₅ := Index.writeBytes file₄ Index.IX_INIT_ROOT_PAGE (IxManager.leafPage Index.IX_LEAF_HEADER_PAGE Index.IX_LEAF_HEADER_PAGE)
  let f₅ := setPages (setPages (setPages f₂ 4 file₃) 4 file₄) 4 file₅
  let f₆ : Files := { f₅ with bpm := { f₅.bpm with fd2pageno := update f₅.bpm.fd2pageno 4 Index.IX_INIT_NUM_PAGES } }
  let f₇ : Files := { f₆ with
    path2fd := update f₆.path2fd ixName none
    fd2path := update f₆.fd2path 4 none
    opened := update f₆.opened 4 none
    pages := update f₆.pages f.nextFile fun n => f₆.bpm.disk ⟨4, n⟩ }
  have hpath : f₆.fd2path 4 = some ixName := by
    change update f.fd2path 4 (some ixName) 4 = some ixName
    exact Function.update_self ..
  have hopened : f₆.opened 4 = some f.nextFile := by
    change update f.opened 4 (some f.nextFile) 4 = some f.nextFile
    exact Function.update_self ..
  have h₇ : DiskManager.closeFile (.plain (some (4, 0)) []) 4 f₆ = .ok () f₇ := by
    simp only [DiskManager.closeFile, hpath, hopened]
    rfl
  have h₃ : writePage (.plain (some (4, 0)) []) 4 Index.IX_FILE_HDR_PAGE (IxManager.fileHdr cols order).serialize f₂ =
      .ok () (setPages f₂ 4 file₃) := by
    rw [writePage_plain, hpages₂]
  have h₄ : writePage (.plain (some (4, 0)) []) 4 Index.IX_LEAF_HEADER_PAGE
      (IxManager.leafPage Index.IX_INIT_ROOT_PAGE Index.IX_INIT_ROOT_PAGE) (setPages f₂ 4 file₃) =
      .ok () (setPages (setPages f₂ 4 file₃) 4 file₄) := by
    rw [writePage_plain, filePages_setPages]
  have h₅ : writePage (.plain (some (4, 0)) []) 4 Index.IX_INIT_ROOT_PAGE
      (IxManager.leafPage Index.IX_LEAF_HEADER_PAGE Index.IX_LEAF_HEADER_PAGE) (setPages (setPages f₂ 4 file₃) 4 file₄) =
      .ok () f₅ := by
    rw [writePage_plain, filePages_setPages]
  have h₆ : DiskManager.setFd2pageno 4 Index.IX_INIT_NUM_PAGES f₅ = .ok ⟨⟩ f₆ := rfl
  have hfile : (fun n => f₆.bpm.disk ⟨4, n⟩) = file₅ := filePages_setPages (setPages (setPages f₂ 4 file₃) 4 file₄) 4 file₅
  refine ⟨f₇, ?_, ?_, ?_, ?_, ?_, ?_⟩
  · rw [IxManager.createIndex, bind_of_ok h₁, bind_of_ok h₂, if_neg hlen, horder]
    simp only
    rw [bind_of_ok h₃, bind_of_ok h₄, bind_of_ok h₅, bind_of_ok h₆, h₇]
  · change update f.dir ixName (some f.nextFile) ixName = _
    exact Function.update_self ..
  · change update f₆.path2fd ixName none ixName = _
    exact Function.update_self ..
  · change update f₆.opened 4 none 4 = _
    exact Function.update_self ..
  · intro hh
    exact ⟨hh, by decide, hfree, hpages₁ ▸ hblank⟩
  · have hlast : f₇.pages f.nextFile = file₅ := (Function.update_self ..).trans hfile
    rw [hlast]
    exact sizeOf_index hhdr (by decide +kernel) (by decide +kernel) (by decide +kernel)

theorem readPage_plain (fd : Option (ℤ × ℤ)) (frames : List ℕ) (f : Files) (x pageNo : ℤ) :
    readPage (.plain fd frames) x pageNo f = .ok (Index.readBytes (filePages f x) pageNo) f := rfl

/-- An index file of three pages is opened. -/
theorem openIndex_plain {f f' : Files} {ixName : String} {fd : ℤ} {file : FileNo}
    (h : IxManager.openIndex (.plain (some (4, 12288)) []) ixName f = .ok fd f') (hdir : f.dir ixName = some file)
    (hclosed : f.path2fd ixName = none) (hfree : f.opened 4 = none) (hsize : SizeOf (f.pages file) 12288) (hh : f.honest) :
    f'.honest := by
  unfold IxManager.openIndex at h
  obtain ⟨fd₁, f₁, hopen, hrest⟩ := of_bind_ok h
  obtain ⟨src, f₂, hread, hlast⟩ := of_bind_ok hrest
  simp only [DiskManager.openFile, hdir, hclosed] at hopen
  obtain ⟨rfl, rfl⟩ := EStateM.Result.ok.inj hopen
  rw [readPage_plain] at hread
  obtain ⟨-, rfl⟩ := EStateM.Result.ok.inj hread
  rcases hdes : Index.IxFileHdr.deserialize src with _ | hdr
  · rw [hdes] at hlast
    cases hlast
  · rw [hdes] at hlast
    obtain ⟨now, f₃, hnow, hconstruct⟩ := of_bind_ok hlast
    cases hnow
    obtain ⟨_, f₄, hconstruct, hpure⟩ := of_bind_ok hconstruct
    cases hpure
    unfold construct at hconstruct
    split at hconstruct
    · cases hconstruct
    · cases hconstruct
      exact ⟨hh, by decide, hfree, hsize⟩

/-- The files after `CREATE INDEX` on a table without records. -/
theorem createIndex_honest {s s' : Sm} {tabName : String} {tab : Catalog.TabMeta} {colNames : List String}
    {cols : List Catalog.ColMeta} {ixName : String} {order : ℤ} (hok : createIndex plainIndexOs noRecord tabName colNames s = .ok () s')
    (htab : s.db.tabs.find tabName = some tab) (hcols : getCols tab colNames = .ok cols)
    {tableFd : ℤ} (hfhs : s.fhs tabName = some tableFd)
    (hname : IxManager.getIndexName tabName (cols.map (·.name)) = ixName)
    (hdir : s.files.dir ixName = none) (hclosed : s.files.path2fd ixName = none) (hfree : s.files.opened 4 = none)
    (hlen : ¬ (Index.IX_MAX_COL_LEN : ℤ) < (IxManager.colTotLen cols).toInt)
    (horder : IxManager.btreeOrder (IxManager.colTotLen cols) = some order)
    (hhdr : (IxManager.fileHdr cols order).serialize.length ≤ PAGE_SIZE) (hh : s.files.honest) : s'.files.honest := by
  obtain ⟨f₁, hcreate, hdir₁, hclosed₁, hfree₁, hhonest, hsize⟩ := createIndex_plain hdir hclosed hfree hlen horder hhdr
  rw [createIndex, bind_of_ok (getTable_of_find htab)] at hok
  split at hok
  · cases hok
  · rw [hcols] at hok
    obtain ⟨cols', s₁, hget, hrest⟩ := of_bind_ok hok
    cases hget
    subst hname
    obtain ⟨_, s₂, hcall, hrest⟩ := of_bind_ok hrest
    obtain ⟨f₂, hcreate₂, rfl⟩ := of_call_ok hcall
    obtain rfl : f₁ = f₂ := (EStateM.Result.ok.inj (hcreate.symm.trans hcreate₂)).2
    obtain ⟨fd, s₃, hopen, hrest⟩ := of_bind_ok hrest
    obtain ⟨f₃, hopen₃, rfl⟩ := of_call_ok hopen
    have hh₃ : f₃.honest := openIndex_plain hopen₃ hdir₁ hclosed₁ hfree₁ hsize (hhonest hh)
    obtain ⟨_, s₄, hload, hrest⟩ := of_bind_ok hrest
    obtain ⟨_, s₅, htable, hlast⟩ := of_bind_ok hrest
    have hrun : (tableHandle tabName >>= fun tableFd => load noRecord tabName colNames cols tableFd fd noRecord.rids)
        { s with files := f₃ } = .ok () { s with files := f₃ } :=
      bind_of_ok (a := tableFd) (by simp only [tableHandle, hfhs])
    obtain ⟨-, rfl⟩ := EStateM.Result.ok.inj ((tryCatch_of_ok hrun).symm.trans hload)
    cases htable
    cases hlast
    exact hh₃

end Plain

/-- After `CREATE TABLE t (a INT)`. -/
def oneTable : Sm :=
  endState (createTable (.plain (some (3, 0)) []) (.plain (some (3, 20)) []) "t" [⟨"a", .int, 4⟩] emptySm)

/-- A table is created, and an index on it. -/
theorem catalog_consistent_index : ∃ s, ReflTransGen CatalogStep emptySm s ∧ s.ihs "t_a.idx" ≠ none ∧ Consistent s := by
  have hblank : SizeOf blank 0 := ⟨le_refl _, fun n hn => absurd rfl hn, fun h => absurd h (lt_irrefl _)⟩
  have hnew : NewDb emptySm := ⟨by decide, rfl, fun _ => rfl, fun _ => rfl, emptySm_start.good.namesAgree⟩
  -- the states stay variables: only what is decided of them is evaluated
  obtain ⟨s₁, hs₁⟩ : ∃ s₁, s₁ = oneTable := ⟨_, rfl⟩
  have hreach : Reaches (createTable (.plain (some (3, 0)) []) (.plain (some (3, 20)) []) "t" [⟨"a", .int, 4⟩] emptySm) s₁ := by
    rw [hs₁]
    exact reaches_endState rfl
  have hh : s₁.files.honest := by
    rw [hs₁]
    exact ⟨⟨trivial, by decide, rfl, hblank⟩, by decide, rfl, sizeOf_header _ (Record.RmFileHdr.length_bytes (RmManager.fileHdr 4))⟩
  have htab : s₁.db.tabs.find "t" = some ⟨"t", [⟨"t", "a", .int, 4, 0, false⟩], []⟩ := by
    rw [hs₁]
    decide +kernel
  have hfhs : s₁.fhs "t" = some 3 := by
    rw [hs₁]
    decide +kernel
  have hdir : s₁.files.dir "t_a.idx" = none := by
    rw [hs₁]
    decide +kernel
  have hclosed : s₁.files.path2fd "t_a.idx" = none := by
    rw [hs₁]
    decide +kernel
  have hfree : s₁.files.opened 4 = none := by
    rw [hs₁]
    decide +kernel
  have hreturned : returned (createIndex plainIndexOs noRecord "t" ["a"] s₁) = true := by
    rw [hs₁]
    decide +kernel
  obtain ⟨s₂, hs₂⟩ : ∃ s₂, s₂ = endState (createIndex plainIndexOs noRecord "t" ["a"] s₁) := ⟨_, rfl⟩
  have hok : createIndex plainIndexOs noRecord "t" ["a"] s₁ = .ok () s₂ := hs₂ ▸ ok_endState hreturned
  have hopen : s₂.ihs "t_a.idx" ≠ none := by
    rw [hs₂, hs₁]
    decide +kernel
  have hcols : getCols ⟨"t", [⟨"t", "a", .int, 4, 0, false⟩], []⟩ ["a"] = .ok [⟨"t", "a", .int, 4, 0, false⟩] := by decide +kernel
  have horder : IxManager.btreeOrder (IxManager.colTotLen [⟨"t", "a", .int, 4, 0, false⟩]) = some 338 := by decide +kernel
  have hh₂ : s₂.files.honest := createIndex_honest hok htab hcols hfhs (by decide +kernel) hdir hclosed hfree
    (by decide +kernel) horder (by decide +kernel) hh
  have hrun : ReflTransGen CatalogStep emptySm s₂ :=
    (ReflTransGen.single (.createTable (plain_granted _ _) ⟨3, 0, rfl, by decide⟩ (plain_granted _ _) ⟨3, 20, rfl, by decide⟩
      (by decide) (by decide) (by decide) hreach hh)).tail
      (.createIndex plainIndexOs_granted noRecord_ok (show ["a"].length ≤ 8192 by decide) (by rw [hok]; rfl) hh₂)
  exact ⟨s₂, hrun, hopen, catalog_consistent hnew hrun⟩

end Rmdb.Fs
