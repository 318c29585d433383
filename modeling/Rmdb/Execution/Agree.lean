import Rmdb.Execution.Dml

/-!
# Tables and indexes that agree

An index agrees with its table if it has an entry for every record, with the record's key,
and no other. A row that is inserted, changed or deleted together with its entries keeps
the agreement (`AgreesOn.insert`, `AgreesOn.move`, `AgreesOn.delete`), and each of the three
can be taken back: the contents that the index had before come back, entry by entry.
-/

namespace Rmdb.Execution

open Lib Record Index

/-- The contents of an index are the keys of the records, each with its rid. -/
def AgreesOn (index : IndexMeta) (records : Rid → Option Bytes) (m : List ℤ → Option Rid) : Prop :=
  ∀ key rid, m key = some rid ↔ ∃ rec, records rid = some rec ∧ index.key rec = key

/-- Every index agrees with the table. -/
def Table.Agrees (t : Table) : Prop := ∀ index ∈ t.tab.indexes, AgreesOn index t.fh.records (t.entry index)

section Maps

variable {index : IndexMeta} {R : Rid → Option Bytes} {m : List ℤ → Option Rid} {rid : Rid} {rec old new : Bytes}

theorem AgreesOn.entry (h : AgreesOn index R m) (hrec : R rid = some rec) : m (index.key rec) = some rid :=
  (h _ _).mpr ⟨rec, hrec, rfl⟩

theorem AgreesOn.delete (h : AgreesOn index R m) (hrec : R rid = some rec) :
    AgreesOn index (Function.update R rid none) ((Op.delete (index.key rec)).applyMap m) := by
  intro key r
  have hown := h.entry hrec
  by_cases hk : key = index.key rec
  · subst hk
    simp only [Op.applyMap, if_true, reduceCtorEq, false_iff]
    rintro ⟨rec', hrec', hkey⟩
    by_cases hr : r = rid
    · rw [hr, Function.update_self] at hrec'
      cases hrec'
    · rw [Function.update_of_ne hr] at hrec'
      have := h.entry hrec'
      rw [hkey, hown] at this
      exact hr (Option.some.inj this).symm
  · simp only [Op.applyMap, if_neg hk]
    rw [h key r]
    by_cases hr : r = rid
    · subst hr
      rw [Function.update_self, hrec]
      simp [Ne.symm hk]
    · rw [Function.update_of_ne hr]

theorem AgreesOn.insert (h : AgreesOn index R m) (hrid : R rid = none) (hkey : m (index.key rec) = none) :
    AgreesOn index (Function.update R rid (some rec)) ((Op.insert (index.key rec) rid).applyMap m) := by
  intro key r
  by_cases hk : key = index.key rec
  · subst hk
    simp only [Op.applyMap, hkey, and_self, if_true, Option.some.injEq]
    constructor
    · rintro rfl
      exact ⟨rec, by rw [Function.update_self], rfl⟩
    · rintro ⟨rec', hrec', hkey'⟩
      by_contra hr
      rw [Function.update_of_ne (Ne.symm hr)] at hrec'
      have := h.entry hrec'
      rw [hkey', hkey] at this
      cases this
  · simp only [Op.applyMap, hk, false_and, if_false]
    rw [h key r]
    by_cases hr : r = rid
    · subst hr
      rw [Function.update_self, hrid]
      simp [Ne.symm hk]
    · rw [Function.update_of_ne hr]

/-- The keys of two records have the same bytes. -/
theorem key_eq_of_makeIndexKey (h : index.makeIndexKey old = index.makeIndexKey new) : index.key old = index.key new := by
  unfold IndexMeta.key
  rw [h]

theorem AgreesOn.move (h : AgreesOn index R m) (hold : R rid = some old)
    (hnew : index.makeIndexKey old ≠ index.makeIndexKey new → m (index.key new) = none) :
    AgreesOn index (Function.update R rid (some new)) (Table.moveMap rid old new index m) := by
  unfold Table.moveMap
  split
  · rename_i hne
    have hdel := h.delete hold
    have hfree : (Op.delete (index.key old)).applyMap m (index.key new) = none := by
      simp only [Op.applyMap, hnew hne, ite_self]
    have hins := hdel.insert (Function.update_self ..) hfree
    rwa [Function.update_idem] at hins
  · rename_i heq
    have hkey := key_eq_of_makeIndexKey (not_not.mp heq)
    intro key r
    rw [h key r]
    by_cases hr : r = rid
    · subst hr
      rw [Function.update_self, hold]
      simp [hkey]
    · rw [Function.update_of_ne hr]

/-- A key may be replaced by one that no other record has. -/
theorem AgreesOn.move_own (h : AgreesOn index R m) (hold : R rid = some old)
    (hnew : ∀ r, m (index.key new) = some r → r = rid) :
    AgreesOn index (Function.update R rid (some new)) (Table.moveMap rid old new index m) := by
  by_cases hne : index.makeIndexKey old = index.makeIndexKey new
  · exact h.move hold fun hdiffer => absurd hne hdiffer
  · have hfree : (Op.delete (index.key old)).applyMap m (index.key new) = none := by
      by_cases hkey : index.key new = index.key old
      · simp only [Op.applyMap, hkey, if_true]
      · simp only [Op.applyMap, hkey, if_false]
        rw [Option.eq_none_iff_forall_ne_some]
        rintro r hr
        obtain rfl := hnew r hr
        obtain ⟨rec, hrec, hreckey⟩ := (h _ _).mp hr
        obtain rfl := Option.some.inj (hold.symm.trans hrec)
        exact hkey hreckey.symm
    have hins := (h.delete hold).insert (Function.update_self ..) hfree
    rw [Function.update_idem] at hins
    rwa [Table.moveMap, if_pos hne]

/-! ### Taking a change back -/

theorem delete_insert (hkey : m (index.key rec) = none) :
    (Op.delete (index.key rec)).applyMap ((Op.insert (index.key rec) rid).applyMap m) = m := by
  funext key
  by_cases hk : key = index.key rec
  · subst hk
    simp [Op.applyMap, hkey]
  · simp [Op.applyMap, hk]

theorem insert_delete (hkey : m (index.key rec) = some rid) :
    (Op.insert (index.key rec) rid).applyMap ((Op.delete (index.key rec)).applyMap m) = m := by
  funext key
  by_cases hk : key = index.key rec
  · subst hk
    simp [Op.applyMap, hkey]
  · simp [Op.applyMap, hk]

theorem move_move (hold : m (index.key old) = some rid)
    (hnew : index.makeIndexKey old ≠ index.makeIndexKey new → m (index.key new) = none) :
    Table.moveMap rid new old index (Table.moveMap rid old new index m) = m := by
  unfold Table.moveMap
  by_cases hne : index.makeIndexKey old = index.makeIndexKey new
  · rw [if_neg (not_not.mpr hne.symm), if_neg (not_not.mpr hne)]
  · rw [if_pos (Ne.symm hne), if_pos hne]
    have hfree : (Op.delete (index.key old)).applyMap m (index.key new) = none := by
      simp only [Op.applyMap, hnew hne, ite_self]
    rw [delete_insert hfree, insert_delete hold]

end Maps

/-! ### Rows -/

namespace Table

variable {t t' : Table} {rid : Rid} {rec old new : Bytes}

theorem Becomes.agrees {o : Option Bytes} {g : IndexMeta → (List ℤ → Option Rid) → List ℤ → Option Rid}
    (hbec : Becomes t rid o g t')
    (h : ∀ index ∈ t.tab.indexes, AgreesOn index (Function.update t.fh.records rid o) (g index (t.entry index))) :
    t'.Agrees := by
  intro index hi
  rw [hbec.tab] at hi
  rw [hbec.records, hbec.entry index hi]
  exact h index hi

/-- The same table as far as its records and the contents of its indexes go. -/
structure Same (t t' : Table) : Prop where
  tab : t'.tab = t.tab
  per : t'.fh.numRecordsPerPage = t.fh.numRecordsPerPage
  records : t'.fh.records = t.fh.records
  entries : ∀ index ∈ t.tab.indexes, t'.entry index = t.entry index

theorem Same.refl (t : Table) : Same t t := ⟨rfl, rfl, rfl, fun _ _ => rfl⟩

theorem Same.trans {t t₁ t₂ : Table} (h₁ : Same t t₁) (h₂ : Same t₁ t₂) : Same t t₂ where
  tab := h₂.tab.trans h₁.tab
  per := h₂.per.trans h₁.per
  records := h₂.records.trans h₁.records
  entries index hi := (h₂.entries index (by rw [h₁.tab]; exact hi)).trans (h₁.entries index hi)

/-- A change, and one that takes it back on a table with the same contents. -/
theorem Becomes.back {s s' : Table} {o o' : Option Bytes} {g g' : IndexMeta → (List ℤ → Option Rid) → List ℤ → Option Rid}
    (hbec : Becomes t rid o g t') (hsame : Same t' s) (hback : Becomes s rid o' g' s') (ho : t.fh.records rid = o')
    (hg : ∀ index ∈ t.tab.indexes, g' index (g index (t.entry index)) = t.entry index) : Same t s' where
  tab := (hback.tab.trans hsame.tab).trans hbec.tab
  per := (hback.per.trans hsame.per).trans hbec.per
  records := by
    rw [hback.records, hsame.records, hbec.records, Function.update_idem, ← ho, Function.update_eq_self]
  entries index hi := by
    have hi' : index ∈ t'.tab.indexes := by rw [hbec.tab]; exact hi
    have hi'' : index ∈ s.tab.indexes := by rw [hsame.tab]; exact hi'
    rw [hback.entry index hi'', hsame.entries index hi', hbec.entry index hi, hg index hi]

end Table

/-! ### A table just created -/

/-- A table with an empty file and with empty indexes. -/
def Table.create (tab : TabMeta) (fh : RmFileHandle) (btreeOrder : ℕ) : Table := ⟨tab, fh, fun _ => .createIndex btreeOrder⟩

/-- **A table just created** is in order and agrees with its indexes. -/
theorem Table.create_spec {tab : TabMeta} {recordSize : ℤ} {fh : RmFileHandle} {btreeOrder : ℕ} (hnd : tab.indexes.Nodup)
    (h1 : 1 ≤ recordSize) (h2 : recordSize ≤ RM_MAX_RECORD_SIZE) (hfh : RmFileHandle.createFile recordSize = .ok fh)
    (horder : 2 < btreeOrder) : (Table.create tab fh btreeOrder).Ok ∧ (Table.create tab fh btreeOrder).Agrees := by
  obtain ⟨f, hf, hok, hrecords⟩ := RmFileHandle.createFile_ok h1 h2
  obtain rfl := Except.ok.inj (hf.symm.trans hfh)
  have hinv : ∀ index, ((Table.create tab f btreeOrder).ihs index).Inv [⟨[], IX_INIT_ROOT_PAGE, []⟩] [] := fun _ =>
    IxIndexHandle.createIndex_inv horder []
  refine ⟨⟨hok.pages, hok.first, fun index _ => ⟨_, _, hinv index⟩, hnd⟩, ?_⟩
  intro index _ key rid
  rw [Table.entry_eq (hinv index)]
  simp [Table.create, hrecords, contents, lookupKey]

/-- The column `a INT` of the table `k`. -/
def colK : ColMeta := ⟨"k", "a", .int, 4, 0⟩

/-- The table `k (a INT)` with an index on `a`, just created. -/
def tableK : Table :=
  Table.create ⟨"k", [colK], [⟨"k", [colK]⟩]⟩ ⟨1, 987, RM_NO_PAGE, fun _ => ⟨0, 0, []⟩⟩ 4

theorem tableK_spec : tableK.Ok ∧ tableK.Agrees :=
  Table.create_spec (by decide) (show (1 : ℤ) ≤ 4 by decide) (by decide) rfl (by decide)

/-- The value of an `INT` column. -/
def valueK (v : ℤ) : Value := ⟨.int v, some (intBytes 4 v)⟩

/-- `SET a = v`. -/
def setK (v : ℤ) : List SetClause := [⟨⟨"k", "a"⟩, valueK v⟩]

end Rmdb.Execution
