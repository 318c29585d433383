import Rmdb.System.SmManager

/-!
# Index names and index flags

What the catalog knows of indexes, it knows three times: the indexes of a table, the names of their
files, and a flag in every column. `create_index` marks the columns of the new index, and `drop_index`
works the flags of the table out again from the indexes that are left. The names of the files come
from the names of the table and the columns; they are distinct, because there are no two files of
one name, not because they are spelled differently (`t_a` with an index on `b`, and `t` with one on
`a` and `b`).
-/

namespace Rmdb.Fs

open Lib

/-- The file of an index. -/
def ixName (tabName : String) (index : Catalog.IndexMeta) : String :=
  IxManager.getIndexName tabName (index.cols.map (·.name))

/-- The file of an index that the catalog has. -/
def IndexNamed (db : Catalog.DbMeta) (name : String) : Prop :=
  ∃ t tab index, db.tabs.find t = some tab ∧ index ∈ tab.indexes ∧ ixName t index = name

/-- The flag of every column says whether an index has it. -/
def FlagsOk (tab : Catalog.TabMeta) : Prop :=
  ∀ col ∈ tab.cols, col.index = true ↔ ∃ index ∈ tab.indexes, ∃ c ∈ index.cols, c.name = col.name

/-- A table in the catalog. -/
structure TabOk (t : String) (tab : Catalog.TabMeta) : Prop where
  /-- It is kept under its name. -/
  named : tab.name = t
  /-- A table's file is not named as an index. -/
  notIndex : ¬ IsIndexName t
  /-- The names are read back. -/
  names : tab.NamesOk
  /-- The columns have distinct names. -/
  nodup : (tab.cols.map (·.name)).Nodup
  /-- The indexes have distinct files. -/
  distinct : tab.indexes.Pairwise fun index index' => ixName t index ≠ ixName t index'
  flags : FlagsOk tab

/-- The catalog. -/
structure DbOk (db : Catalog.DbMeta) : Prop where
  name : Catalog.NameOk db.name
  tables : ∀ t tab, db.tabs.find t = some tab → TabOk t tab
  /-- Indexes of different tables have distinct files. -/
  apart : ∀ t tab t' tab', db.tabs.find t = some tab → db.tabs.find t' = some tab' → t ≠ t' →
    ∀ index ∈ tab.indexes, ∀ index' ∈ tab'.indexes, ixName t index ≠ ixName t' index'

section Catalog

variable {db : Catalog.DbMeta} {t : String} {tab tab' : Catalog.TabMeta}

/-- A table changes in the catalog. -/
def withTable (db : Catalog.DbMeta) (t : String) (tab : Catalog.TabMeta) : Catalog.DbMeta :=
  { db with tabs := db.tabs.assign t tab }

theorem find_withTable (db : Catalog.DbMeta) (t : String) (tab : Catalog.TabMeta) (t' : String) :
    (withTable db t tab).tabs.find t' = if t' = t then some tab else db.tabs.find t' := by
  split
  · rename_i heq
    rw [heq]
    exact OrderedMap.find_assign _ _ _
  · rename_i hne
    exact OrderedMap.find_assign_of_ne _ _ hne

/-- The catalog is in order with a table that is, whose index files no other table has. -/
theorem DbOk.withTable (h : DbOk db) (htab : TabOk t tab)
    (hapart : ∀ t' tab', db.tabs.find t' = some tab' → t ≠ t' → ∀ index ∈ tab.indexes, ∀ index' ∈ tab'.indexes,
      ixName t index ≠ ixName t' index') : DbOk (withTable db t tab) where
  name := h.name
  tables t' tab' hfind := by
    rw [find_withTable] at hfind
    split at hfind
    · rename_i heq
      cases hfind
      rw [heq]
      exact htab
    · exact h.tables t' tab' hfind
  apart t₁ tab₁ t₂ tab₂ hfind₁ hfind₂ hne index₁ hindex₁ index₂ hindex₂ := by
    rw [find_withTable] at hfind₁ hfind₂
    split at hfind₁
    · rename_i heq₁
      cases hfind₁
      rw [heq₁] at hne ⊢
      rw [if_neg hne.symm] at hfind₂
      exact hapart t₂ tab₂ hfind₂ hne index₁ hindex₁ index₂ hindex₂
    · split at hfind₂
      · rename_i heq₂
        cases hfind₂
        rw [heq₂] at hne ⊢
        exact (hapart t₁ tab₁ hfind₁ hne.symm index₂ hindex₂ index₁ hindex₁).symm
      · exact h.apart t₁ tab₁ t₂ tab₂ hfind₁ hfind₂ hne index₁ hindex₁ index₂ hindex₂

/-- The index files are those of the table and those of the others. -/
theorem indexNamed_withTable {name : String} : IndexNamed (withTable db t tab) name ↔
    (∃ index ∈ tab.indexes, ixName t index = name) ∨
      ∃ t' tab' index, t' ≠ t ∧ db.tabs.find t' = some tab' ∧ index ∈ tab'.indexes ∧ ixName t' index = name := by
  constructor
  · rintro ⟨t', tab', index, hfind, hindex, hname⟩
    rw [find_withTable] at hfind
    split at hfind
    · rename_i heq
      cases hfind
      exact .inl ⟨index, hindex, heq ▸ hname⟩
    · rename_i hne
      exact .inr ⟨t', tab', index, hne, hfind, hindex, hname⟩
  · rintro (⟨index, hindex, hname⟩ | ⟨t', tab', index, hne, hfind, hindex, hname⟩)
    · exact ⟨t, tab, index, by rw [find_withTable, if_pos rfl], hindex, hname⟩
    · exact ⟨t', tab', index, by rw [find_withTable, if_neg hne, hfind], hindex, hname⟩

/-- The same in terms of the table that was there. -/
theorem indexNamed_iff (hfind : db.tabs.find t = some tab) {name : String} : IndexNamed db name ↔
    (∃ index ∈ tab.indexes, ixName t index = name) ∨
      ∃ t' tab' index, t' ≠ t ∧ db.tabs.find t' = some tab' ∧ index ∈ tab'.indexes ∧ ixName t' index = name := by
  have hsame : withTable db t tab = db := by
    rw [withTable, OrderedMap.assign_find hfind]
  rw [← indexNamed_withTable, hsame]

/-! ### `CREATE INDEX` -/

theorem mem_markIndexed_name {colName : String} : ∀ {cols : List Catalog.ColMeta},
    (markIndexed cols colName).map (·.name) = cols.map (·.name)
  | [] => rfl
  | col :: cols => by
    rw [markIndexed]
    split
    · rfl
    · exact congrArg (col.name :: ·) mem_markIndexed_name

/-- Marking a column marks every column of that name, as there is one only. -/
theorem markIndexed_eq {colName : String} : ∀ {cols : List Catalog.ColMeta}, (cols.map (·.name)).Nodup →
    markIndexed cols colName = cols.map fun col => { col with index := col.index || col.name = colName }
  | [], _ => rfl
  | col :: cols, hnodup => by
    rw [List.map_cons, List.nodup_cons] at hnodup
    rw [markIndexed, List.map_cons]
    split
    · rename_i heq
      have hrest : ∀ c ∈ cols, ({ c with index := c.index || c.name = colName } : Catalog.ColMeta) = c := by
        intro c hc
        have hne : c.name ≠ colName := fun hname => hnodup.1 (List.mem_map.mpr ⟨c, hc, hname.trans heq.symm⟩)
        rw [decide_eq_false hne, Bool.or_false]
      rw [decide_eq_true heq, Bool.or_true, List.map_congr_left hrest, List.map_id']
    · rename_i hne
      rw [decide_eq_false hne, Bool.or_false, markIndexed_eq hnodup.2]

/-- All columns of an index are marked. -/
theorem foldl_markIndexed_eq : ∀ {colNames : List String} {cols : List Catalog.ColMeta}, (cols.map (·.name)).Nodup →
    colNames.foldl markIndexed cols = cols.map fun col => { col with index := col.index || colNames.contains col.name }
  | [], cols, _ => by
    have hsame : ∀ c ∈ cols, ({ c with index := c.index || [].contains c.name } : Catalog.ColMeta) = c := fun c _ => by
      rw [List.contains_nil, Bool.or_false]
    rw [List.foldl_nil, List.map_congr_left hsame, List.map_id']
  | colName :: colNames, cols, hnodup => by
    have hnodup' : ((markIndexed cols colName).map (·.name)).Nodup := by rwa [mem_markIndexed_name]
    rw [List.foldl_cons, foldl_markIndexed_eq hnodup', markIndexed_eq hnodup, List.map_map]
    refine List.map_congr_left ?_
    intro col _
    simp only [Function.comp, Bool.or_assoc, List.contains_cons, beq_eq_decide]

theorem getCols_names {tab : Catalog.TabMeta} : ∀ {colNames : List String} {cols : List Catalog.ColMeta},
    getCols tab colNames = .ok cols → cols.map (·.name) = colNames ∧ ∀ col ∈ cols, col ∈ tab.cols
  | [], cols, h => by
    cases h
    exact ⟨rfl, fun col hcol => by cases hcol⟩
  | colName :: colNames, cols, h => by
    rw [getCols] at h
    rcases hcol : getCol tab colName with _ | col
    · rw [hcol] at h
      cases h
    · rw [hcol] at h
      rcases hcols : getCols tab colNames with e | cols'
      · simp only [hcols] at h
        cases h
      · simp only [hcols] at h
        cases h
        obtain ⟨hnames, hmem⟩ := getCols_names hcols
        rw [getCol] at hcol
        have hname := List.find?_some hcol
        constructor
        · rw [List.map_cons, hnames, of_decide_eq_true hname]
        · intro c hc
          rcases List.mem_cons.mp hc with rfl | hc
          · exact List.mem_of_find?_eq_some hcol
          · exact hmem c hc

/-- The table after `create_index`. -/
def withIndex (tab : Catalog.TabMeta) (t : String) (cols : List Catalog.ColMeta) : Catalog.TabMeta :=
  { tab with
    indexes := tab.indexes ++ [⟨t, IxManager.colTotLen cols, Int32.ofNat cols.length, cols⟩]
    cols := (cols.map (·.name)).foldl markIndexed tab.cols }

theorem TabOk.withIndex (h : TabOk t tab) {colNames : List String} {cols : List Catalog.ColMeta}
    (hcols : getCols tab colNames = .ok cols) (hlen : colNames.length < 2 ^ 31)
    (hfresh : ∀ index ∈ tab.indexes, ixName t index ≠ IxManager.getIndexName t (cols.map (·.name))) :
    TabOk t (withIndex tab t cols) := by
  obtain ⟨hnames, hmem⟩ := getCols_names hcols
  have heq : (cols.map (·.name)).foldl markIndexed tab.cols =
      tab.cols.map fun col => { col with index := col.index || (cols.map (·.name)).contains col.name } :=
    foldl_markIndexed_eq h.nodup
  have hcount : (Int32.ofNat cols.length).toInt = cols.length := by
    have hcols : cols.length = colNames.length := by rw [← hnames, List.length_map]
    exact Int32.toInt_ofNat_of_lt (by omega)
  refine ⟨h.named, h.notIndex, ⟨h.names.1, ?_, ?_⟩, ?_, ?_, ?_⟩
  · rw [Fs.withIndex, heq]
    intro col hcol
    obtain ⟨c, hc, rfl⟩ := List.mem_map.mp hcol
    exact h.names.2.1 c hc
  · intro index hindex
    rcases List.mem_append.mp hindex with hindex | hindex
    · exact h.names.2.2 index hindex
    · obtain rfl := List.mem_singleton.mp hindex
      refine ⟨h.named ▸ h.names.1, hcount, fun col hcol => h.names.2.1 col (hmem col hcol)⟩
  · rw [Fs.withIndex, heq, List.map_map]
    exact h.nodup
  · refine List.pairwise_append.mpr ⟨h.distinct, List.pairwise_singleton _ _, ?_⟩
    intro index hindex index' hindex'
    obtain rfl := List.mem_singleton.mp hindex'
    exact hfresh index hindex
  · rw [Fs.withIndex, heq]
    intro col hcol
    obtain ⟨c, hc, rfl⟩ := List.mem_map.mp hcol
    have hnew : (cols.map (·.name)).contains c.name = true ↔ ∃ c' ∈ cols, c'.name = c.name := by
      rw [List.contains_iff_mem, List.mem_map]
    simp only [Bool.or_eq_true, hnew, h.flags c hc, List.mem_append, List.mem_singleton, or_and_right, exists_or, exists_eq_left]

/-! ### `DROP INDEX` -/

theorem hasCols_iff {index : Catalog.IndexMeta} (h : index.Ok) {colNames : List String} :
    hasCols colNames index = true ↔ index.cols.map (·.name) = colNames := by
  rw [hasCols, Bool.and_eq_true, decide_eq_true_iff, decide_eq_true_iff, h.2.1, Nat.cast_inj]
  constructor
  · rintro ⟨hlen, htake⟩
    rwa [List.take_of_length_le (by rw [List.length_map, hlen])] at htake
  · rintro rfl
    rw [List.length_map, List.take_of_length_le (by rw [List.length_map])]
    exact ⟨rfl, rfl⟩

/-- The indexes that are left when one has been erased are those with other files. -/
theorem mem_eraseP_iff {p : Catalog.IndexMeta → Bool} {index : Catalog.IndexMeta} : ∀ {indexes : List Catalog.IndexMeta},
    indexes.Pairwise (fun i j => ixName t i ≠ ixName t j) → indexes.find? p = some index → ∀ {other : Catalog.IndexMeta},
    other ∈ indexes.eraseP p ↔ other ∈ indexes ∧ ixName t other ≠ ixName t index
  | [], _, h, _ => by cases h
  | first :: indexes, hdistinct, h, other => by
    obtain ⟨hfirst, hrest⟩ := List.pairwise_cons.mp hdistinct
    rw [List.find?_cons] at h
    rcases hp : p first with _ | _
    · rw [hp] at h
      have hmem : index ∈ indexes := List.mem_of_find?_eq_some h
      rw [List.eraseP_cons_of_neg (by rw [hp]; decide), List.mem_cons, List.mem_cons, mem_eraseP_iff hrest h, or_and_right]
      refine or_congr_left ⟨fun heq => ⟨heq, ?_⟩, And.left⟩
      rw [heq]
      exact hfirst index hmem
    · rw [hp] at h
      cases h
      rw [List.eraseP_cons_of_pos hp, List.mem_cons]
      refine ⟨fun hmem => ⟨.inr hmem, (hfirst other hmem).symm⟩, ?_⟩
      rintro ⟨rfl | hmem, hne⟩
      · exact absurd rfl hne
      · exact hmem

/-- The table after `drop_index`. -/
def withoutIndex (tab : Catalog.TabMeta) (colNames : List String) : Catalog.TabMeta :=
  { tab with
    indexes := tab.indexes.eraseP (hasCols colNames)
    cols := tab.cols.map fun col => { col with
      index := (tab.indexes.eraseP (hasCols colNames)).any fun index => index.cols.any fun indexCol => indexCol.name = col.name } }

theorem TabOk.withoutIndex (h : TabOk t tab) (colNames : List String) : TabOk t (withoutIndex tab colNames) := by
  have hsub : (tab.indexes.eraseP (hasCols colNames)).Sublist tab.indexes := List.eraseP_sublist
  refine ⟨h.named, h.notIndex, ⟨h.names.1, ?_, fun index hindex => h.names.2.2 index (hsub.subset hindex)⟩, ?_,
    h.distinct.sublist hsub, ?_⟩
  · intro col hcol
    obtain ⟨c, hc, rfl⟩ := List.mem_map.mp hcol
    exact h.names.2.1 c hc
  · rw [Fs.withoutIndex, List.map_map]
    exact h.nodup
  · intro col hcol
    obtain ⟨c, hc, rfl⟩ := List.mem_map.mp hcol
    simp only [List.any_eq_true, decide_eq_true_iff, Fs.withoutIndex]

end Catalog

end Rmdb.Fs
