import Rmdb.Lib.Linked
import Rmdb.Record.File
import Mathlib.Logic.Relation

/-!
# The list of pages with room

The pages of a record file that are not full are linked from the file header. The list is
sound if it ends, visits no page twice, and visits exactly the pages with room
(`FreeListOk`). `insert_record(buf)` and `delete_record` keep it sound by themselves: they
work at its head. `insert_record(rid, buf)`, which puts a record back under its old rid,
unlinks a page it fills only if the page is at the head, so it keeps the list sound only
in a state where this is so.

It is so whenever a transaction is rolled back, because the rollback goes through the
transaction's writes in reverse order and nobody else has written the table meanwhile.
The rollback of a write gives back the file before it, up to pages that were created
meanwhile and stay behind, with room, at the end of the list (`Ext`); a rollback that
works on a file works on every such extension of it (`Undoable.ext`); so every state of a
table under a transaction can be rolled back (`Undoable`), one write at a time.
-/

namespace Rmdb.Record

open Lib

namespace RmFileHandle

/-- The list of pages with room is sound, and is `l`. -/
structure FreeListOk (f : RmFileHandle) (l : List ℤ) : Prop where
  linked : Linked (fun p => (f.pages p).nextFreePageNo) RM_NO_PAGE f.firstFreePageNo l
  nodup : l.Nodup
  mem : ∀ p, p ∈ l ↔ RM_FIRST_RECORD_PAGE ≤ p ∧ p < f.numPages ∧ (f.pages p).numRecords < f.numRecordsPerPage

/-- A record file in order. -/
structure Ok (f : RmFileHandle) (l : List ℤ) : Prop where
  pos : 0 < f.numRecordsPerPage
  first : RM_FIRST_RECORD_PAGE ≤ f.numPages
  pages : f.PagesOk
  list : f.FreeListOk l

/-- A file just created is in order. -/
theorem createFile_ok {recordSize : ℤ} (h1 : 1 ≤ recordSize) (h2 : recordSize ≤ RM_MAX_RECORD_SIZE) :
    ∃ f, createFile recordSize = .ok f ∧ f.Ok [] ∧ f.records = fun _ => none := by
  unfold RM_MAX_RECORD_SIZE at h2
  unfold createFile
  rw [if_neg (by unfold RM_MAX_RECORD_SIZE; omega)]
  refine ⟨_, rfl, ⟨?_, ?_, ?_, rfl, List.nodup_nil, ?_⟩, ?_⟩
  · have h3 : 1 ≤ (BITMAP_WIDTH * (PAGE_SIZE - 1 - sizeofRmFileHdr) + 1) / (1 + recordSize * BITMAP_WIDTH) := by
      unfold BITMAP_WIDTH PAGE_SIZE sizeofRmFileHdr
      rw [Int.le_ediv_iff_mul_le (by omega)]
      omega
    exact Int.lt_toNat.mpr h3
  · exact le_refl _
  · intro p hp hp'
    exact absurd hp (not_le.mpr hp')
  · intro p
    simp only [List.not_mem_nil, false_iff]
    rintro ⟨hp, hp', -⟩
    exact absurd hp (not_le.mpr hp')
  · funext rid
    unfold records
    rw [if_neg]
    rintro ⟨hp, hp'⟩
    exact absurd hp (not_le.mpr hp')

/-! ### Rebuilding the list -/

/-- After a round the page is at the head of the list if it has room, and else not in it. -/
theorem relinkPage_linked {f : RmFileHandle} {l : List ℤ} {p : ℤ} (hp : p ∉ l)
    (h : Linked (fun q => (f.pages q).nextFreePageNo) RM_NO_PAGE f.firstFreePageNo l) :
    Linked (fun q => ((f.relinkPage p).pages q).nextFreePageNo) RM_NO_PAGE (f.relinkPage p).firstFreePageNo
      (if (f.pages p).numRecords < f.numRecordsPerPage then p :: l else l) := by
  have hother : ∀ q ∈ l, ((f.relinkPage p).pages q).nextFreePageNo = (f.pages q).nextFreePageNo := fun q hq => by
    have hne : q ≠ p := fun heq => hp (heq ▸ hq)
    rw [relinkPage]
    split_ifs <;> simp only [setPage, Function.update_of_ne hne]
  have hrest := h.congr hother
  by_cases hroom : (f.pages p).numRecords < f.numRecordsPerPage
  · have hrun : f.relinkPage p =
        ({ f with firstFreePageNo := p }).setPage p { f.pages p with nextFreePageNo := f.firstFreePageNo } := if_pos hroom
    rw [if_pos hroom]
    rw [hrun] at hrest ⊢
    refine ⟨rfl, ?_⟩
    simp only [setPage, Function.update_self] at hrest ⊢
    exact hrest
  · have hrun : f.relinkPage p = f.setPage p { f.pages p with nextFreePageNo := RM_NO_PAGE } := if_neg hroom
    rw [if_neg hroom]
    rw [hrun] at hrest ⊢
    exact hrest

/-- The rounds so far have made a list of the pages with room among those they have come to, whatever the links were. -/
theorem relinkPages_linked (f : RmFileHandle) (n : ℕ) :
    let g := (List.range n).foldl (fun f (i : ℕ) => f.relinkPage (RM_FIRST_RECORD_PAGE + i))
      { f with firstFreePageNo := RM_NO_PAGE }
    g.cells = f.cells ∧ g.numRecordsPerPage = f.numRecordsPerPage ∧
      ∃ l, Linked (fun q => (g.pages q).nextFreePageNo) RM_NO_PAGE g.firstFreePageNo l ∧ l.Nodup ∧
        ∀ p, p ∈ l ↔ RM_FIRST_RECORD_PAGE ≤ p ∧ p < RM_FIRST_RECORD_PAGE + n ∧ (f.pages p).numRecords < f.numRecordsPerPage := by
  induction n with
  | zero => exact ⟨rfl, rfl, [], rfl, List.nodup_nil, fun p => iff_of_false List.not_mem_nil fun h => by push_cast at h; omega⟩
  | succ n ih =>
    rw [List.range_succ, List.foldl_concat]
    obtain ⟨hcells, hper, l, hlinked, hnodup, hmem⟩ := ih
    revert hcells hper hlinked
    generalize (List.range n).foldl (fun f (i : ℕ) => f.relinkPage (RM_FIRST_RECORD_PAGE + i))
      { f with firstFreePageNo := RM_NO_PAGE } = g
    intro hcells hper hlinked
    have hnot : RM_FIRST_RECORD_PAGE + (n : ℤ) ∉ l := fun hp => lt_irrefl _ ((hmem _).mp hp).2.1
    obtain ⟨hcells', -, hper'⟩ := relinkPage_cells g (RM_FIRST_RECORD_PAGE + n)
    have hrecords : (g.pages (RM_FIRST_RECORD_PAGE + n)).numRecords = (f.pages (RM_FIRST_RECORD_PAGE + n)).numRecords :=
      congrArg Prod.fst (congrFun hcells _)
    refine ⟨hcells'.trans hcells, hper'.trans hper, _, relinkPage_linked hnot hlinked, ?_, ?_⟩
    · split_ifs
      · exact List.nodup_cons.mpr ⟨hnot, hnodup⟩
      · exact hnodup
    · intro p
      rw [hrecords, hper]
      split_ifs with hroom
      · rw [List.mem_cons, hmem]
        constructor
        · rintro (rfl | ⟨hfirst, hlast, hp⟩)
          · exact ⟨by omega, by push_cast; omega, hroom⟩
          · exact ⟨hfirst, by push_cast; omega, hp⟩
        · rintro ⟨hfirst, hlast, hp⟩
          push_cast at hlast
          by_cases heq : p = RM_FIRST_RECORD_PAGE + n
          · exact Or.inl heq
          · exact Or.inr ⟨hfirst, by omega, hp⟩
      · rw [hmem]
        constructor
        · rintro ⟨hfirst, hlast, hp⟩
          exact ⟨hfirst, by push_cast; omega, hp⟩
        · rintro ⟨hfirst, hlast, hp⟩
          push_cast at hlast
          have hne : p ≠ RM_FIRST_RECORD_PAGE + n := fun heq => hroom (heq ▸ hp)
          exact ⟨hfirst, by omega, hp⟩

/-- **`rebuild_free_page_list` makes the list sound**, whatever it was, and changes nothing but the links. -/
theorem rebuildFreePageList_ok (f : RmFileHandle) :
    (∃ l, f.rebuildFreePageList.FreeListOk l ∧
      ∀ p, p ∈ l ↔ RM_FIRST_RECORD_PAGE ≤ p ∧ p < f.numPages ∧ (f.pages p).numRecords < f.numRecordsPerPage) ∧
    f.rebuildFreePageList.cells = f.cells ∧ f.rebuildFreePageList.records = f.records ∧
    f.rebuildFreePageList.numPages = f.numPages ∧ f.rebuildFreePageList.numRecordsPerPage = f.numRecordsPerPage := by
  obtain ⟨hcells, hpages, hper⟩ := rebuildFreePageList_cells f
  obtain ⟨-, -, l, hlinked, hnodup, hmem⟩ := f.relinkPages_linked (f.numPages - RM_FIRST_RECORD_PAGE).toNat
  have hmem' : ∀ p, p ∈ l ↔ RM_FIRST_RECORD_PAGE ≤ p ∧ p < f.numPages ∧ (f.pages p).numRecords < f.numRecordsPerPage := fun p => by
    rw [hmem]
    refine and_congr_right fun hfirst => and_congr_left ?_
    intro _
    omega
  refine ⟨⟨l, ⟨hlinked, hnodup, ?_⟩, hmem'⟩, hcells, records_rebuildFreePageList f, hpages, hper⟩
  intro p
  have hrecords : (f.rebuildFreePageList.pages p).numRecords = (f.pages p).numRecords := congrArg Prod.fst (congrFun hcells p)
  rw [hmem', hpages, hper, hrecords]

section Ops

variable {f : RmFileHandle} {l : List ℤ} {rid : Rid} {r : Bytes}

/-- A record put into a page with room: the page leaves the list if it is full now, and then it must be the head. -/
theorem Ok.put (h : f.Ok l) (hin : f.InFile rid) (hnone : f.records rid = none)
    (hhead : (f.pages rid.pageNo).numRecords + 1 = f.numRecordsPerPage → l.head? = some rid.pageNo) (buf : Bytes) :
    (f.put rid buf).Ok (if (f.pages rid.pageNo).numRecords + 1 = f.numRecordsPerPage then l.tail else l) := by
  have hlt : (f.pages rid.pageNo).numRecords < f.numRecordsPerPage :=
    (h.pages rid.pageNo hin.first hin.last).lt_of_free (s := rid.slotNo.toNat) (by rw [h.pages.getElem? hin, hnone])
  refine ⟨by rw [put_numRecordsPerPage]; exact h.pos, by rw [put_numPages]; exact h.first,
    PagesOk.put h.pages hin hnone buf, ?_⟩
  unfold RmFileHandle.put
  simp only
  by_cases hfull : (f.pages rid.pageNo).numRecords + 1 = f.numRecordsPerPage
  · rw [if_pos hfull, if_pos hfull]
    obtain ⟨t, rfl⟩ : ∃ t, l = rid.pageNo :: t := by
      cases l with
      | nil => cases hhead hfull
      | cons p t => exact ⟨t, by rw [Option.some.inj (hhead hfull)]⟩
    obtain ⟨hstart, hrest⟩ := h.list.linked
    obtain ⟨hnotin, hnd⟩ := List.nodup_cons.mp h.list.nodup
    rw [if_pos hstart]
    refine ⟨hrest.congr ?_, hnd, ?_⟩
    · intro q hq
      have hq' : q ≠ rid.pageNo := fun hqp => hnotin (hqp ▸ hq)
      simp [setPage, hq']
    · intro q
      by_cases hq : q = rid.pageNo
      · subst hq
        simp [setPage, hnotin, hfull]
      · have := h.list.mem q
        simpa [setPage, hq] using this
  · rw [if_neg hfull, if_neg hfull]
    refine ⟨h.list.linked.congr ?_, h.list.nodup, ?_⟩
    · intro q _
      by_cases hq : q = rid.pageNo
      · subst hq
        simp [setPage]
      · simp [setPage, hq]
    · intro q
      by_cases hq : q = rid.pageNo
      · subst hq
        have := h.list.mem rid.pageNo
        rw [this]
        simp only [setPage, Function.update_self]
        omega
      · have := h.list.mem q
        simpa [setPage, hq] using this

/-- A record taken out of a page: a page that was full goes to the head of the list. -/
theorem Ok.take (h : f.Ok l) (hr : f.records rid = some r) :
    (f.take rid).Ok (if (f.pages rid.pageNo).numRecords = f.numRecordsPerPage then rid.pageNo :: l else l) := by
  have hin := inFile_of_records hr
  have hle := (h.pages rid.pageNo hin.first hin.last).le
  change (f.pages rid.pageNo).numRecords ≤ _ at hle
  refine ⟨by rw [take_numRecordsPerPage]; exact h.pos, by rw [take_numPages]; exact h.first,
    PagesOk.take h.pages hr, ?_⟩
  have hmem := h.list.mem rid.pageNo
  have hfirst := hin.first
  have hlast := hin.last
  unfold RmFileHandle.take
  simp only
  by_cases hfull : (f.pages rid.pageNo).numRecords = f.numRecordsPerPage
  · rw [if_pos hfull, if_pos hfull]
    have hnotin : rid.pageNo ∉ l := fun hp => by
      have := (hmem.mp hp).2.2
      omega
    refine ⟨⟨rfl, ?_⟩, List.nodup_cons.mpr ⟨hnotin, h.list.nodup⟩, ?_⟩
    · simp only [setPage, Function.update_self]
      refine h.list.linked.congr ?_
      intro q hq
      have hq' : q ≠ rid.pageNo := fun hqp => hnotin (hqp ▸ hq)
      simp [hq']
    · intro q
      by_cases hq : q = rid.pageNo
      · subst hq
        simp only [setPage, Function.update_self, List.mem_cons, true_or, true_iff]
        omega
      · have := h.list.mem q
        simpa [setPage, hq] using this
  · rw [if_neg hfull, if_neg hfull]
    refine ⟨h.list.linked.congr ?_, h.list.nodup, ?_⟩
    · intro q _
      by_cases hq : q = rid.pageNo
      · subst hq
        simp [setPage]
      · simp [setPage, hq]
    · intro q
      by_cases hq : q = rid.pageNo
      · subst hq
        rw [hmem]
        simp only [setPage, Function.update_self]
        omega
      · have := h.list.mem q
        simpa [setPage, hq] using this

theorem Ok.write (h : f.Ok l) (hr : f.records rid = some r) (buf : Bytes) : (f.write rid buf).Ok l := by
  refine ⟨h.pos, h.first, PagesOk.write h.pages hr buf, h.list.linked.congr ?_, h.list.nodup, ?_⟩
  · intro q _
    by_cases hq : q = rid.pageNo
    · subst hq
      simp [RmFileHandle.write, setPage]
    · simp [RmFileHandle.write, setPage, hq]
  · intro q
    rw [h.list.mem q]
    by_cases hq : q = rid.pageNo
    · subst hq
      simp [RmFileHandle.write, setPage]
    · simp [RmFileHandle.write, setPage, hq]

end Ops

/-! ### Pages left behind -/

/-- `g` is `f` with further pages, which are at the end of its list of pages with room. -/
structure Ext (f g : RmFileHandle) (l N : List ℤ) : Prop where
  left : f.Ok l
  right : g.Ok (l ++ N)
  per : g.numRecordsPerPage = f.numRecordsPerPage
  le : f.numPages ≤ g.numPages
  same : ∀ p, RM_FIRST_RECORD_PAGE ≤ p → p < f.numPages → g.cells p = f.cells p

section Extensions

variable {f g k : RmFileHandle} {l N M : List ℤ} {rid : Rid}

theorem Ext.of_cells (hf : f.Ok l) (hg : g.Ok l) (hper : g.numRecordsPerPage = f.numRecordsPerPage)
    (hnum : g.numPages = f.numPages) (hcells : g.cells = f.cells) : Ext f g l [] :=
  ⟨hf, by rwa [List.append_nil], hper, hnum.ge, fun p _ _ => by rw [hcells]⟩

theorem Ext.trans (h₁ : Ext f g l N) (h₂ : Ext g k (l ++ N) M) : Ext f k l (N ++ M) :=
  ⟨h₁.left, by rw [← List.append_assoc]; exact h₂.right, h₂.per.trans h₁.per, h₁.le.trans h₂.le,
    fun p h h' => (h₂.same p h (h'.trans_le h₁.le)).trans (h₁.same p h h')⟩

theorem Ext.inFile (h : Ext f g l N) (hin : f.InFile rid) : g.InFile rid :=
  ⟨hin.first, hin.last.trans_le h.le, hin.low, by rw [h.per]; exact hin.high⟩

theorem Ext.records (h : Ext f g l N) (hin : f.InFile rid) : g.records rid = f.records rid := by
  rw [records_eq, records_eq, if_pos hin, if_pos (h.inFile hin), h.same rid.pageNo hin.first hin.last]

/-- `create_page_handle` gives the head of the list, after adding a page to an empty list. -/
theorem createPageHandle_spec (h : f.Ok l) :
    ∃ g p t N, f.createPageHandle = .ok (g, p) ∧ l ++ N = p :: t ∧ Ext f g l N := by
  cases l with
  | nil =>
    have hstart : f.firstFreePageNo = RM_NO_PAGE := h.list.linked
    have hfirst := h.first
    have hone : RM_FIRST_RECORD_PAGE = 1 := rfl
    unfold createPageHandle
    rw [if_pos hstart]
    refine ⟨f.createNewPageHandle.1, f.numPages, [], [f.numPages], rfl, rfl, h, ?_, rfl, ?_, ?_⟩
    · refine ⟨h.pos, ?_, ?_, ⟨rfl, ?_⟩, by simp, ?_⟩
      · simp only [createNewPageHandle]
        omega
      · intro p hp hp'
        simp only [createNewPageHandle] at hp' ⊢
        by_cases hpn : p = f.numPages
        · subst hpn
          exact ⟨by simp [cells], by simp [cells, List.countP_replicate]⟩
        · have := h.pages p hp (by omega)
          simpa [cells, hpn] using this
      · simp [createNewPageHandle, hstart, Linked]
      · intro p
        have hmem := h.list.mem p
        have hpos := h.pos
        simp only [createNewPageHandle, List.nil_append, List.mem_singleton]
        by_cases hpn : p = f.numPages
        · subst hpn
          simp only [Function.update_self, true_iff]
          omega
        · simp only [hpn, false_iff, Function.update_of_ne hpn]
          simp only [List.not_mem_nil, false_iff] at hmem
          rintro ⟨h1, h2, h3⟩
          exact hmem ⟨h1, by omega, h3⟩
    · simp only [createNewPageHandle]
      omega
    · intro p hp hp'
      have hpn : p ≠ f.numPages := hp'.ne
      simp [createNewPageHandle, cells, hpn]
  | cons p t =>
    have hstart : f.firstFreePageNo = p := h.list.linked.1
    obtain ⟨h1, h2, -⟩ := (h.list.mem p).mp List.mem_cons_self
    have hne : p ≠ RM_NO_PAGE := by
      unfold RM_FIRST_RECORD_PAGE at h1
      unfold RM_NO_PAGE
      omega
    unfold createPageHandle fetchPageHandle
    rw [hstart, if_neg hne, if_neg (by omega)]
    exact ⟨f, p, t, [], rfl, by simp, Ext.of_cells h h rfl rfl rfl⟩

/-- **`insert_record(buf)`** finds a free slot, in the first page of the list. -/
theorem insertRecord_spec (h : f.Ok l) (buf : Bytes) :
    ∃ g N rid, f.insertRecord buf = .ok (g.put rid buf, rid) ∧ Ext f g l N ∧ g.InFile rid ∧ g.records rid = none ∧
      (l ++ N).head? = some rid.pageNo := by
  obtain ⟨g, p, t, N, hrun, hl, hext⟩ := createPageHandle_spec h
  have hok := hext.right
  rw [hl] at hok
  obtain ⟨h1, h2, h3⟩ := (hok.list.mem p).mp List.mem_cons_self
  have hstart : g.firstFreePageNo = p := hok.list.linked.1
  obtain ⟨hlt, hget⟩ := (hok.pages p h1 h2).findIdx_free h3
  set s := (g.cells p).2.findIdx (·.isNone) with hs
  have hin : g.InFile ⟨p, s⟩ := ⟨h1, h2, by simp, by simpa using hlt⟩
  refine ⟨g, N, ⟨p, s⟩, ?_, hext, hin, ?_, by rw [hl]; rfl⟩
  · unfold insertRecord RmFileHandle.put
    rw [hrun]
    have hfind : (g.pages p).slots.findIdx (fun x => x.isNone) = s := rfl
    simp only [bind, Except.bind, hfind, Int.toNat_natCast, hstart, if_true]
    rw [if_pos hlt]
    exact (apply_ite (fun x => Except.ok (x, (⟨p, s⟩ : Rid))) _ _ _).symm
  · have := hok.pages.getElem? hin
    rw [show ((⟨p, s⟩ : Rid).slotNo.toNat) = s by simp, hget, Option.some.injEq] at this
    exact this.symm

/-- `insert_record(buf)` keeps a file in order. -/
theorem Ok.insertRecord {buf : Bytes} (h : f.Ok l) (hrun : f.insertRecord buf = .ok (g, rid)) : ∃ l', g.Ok l' := by
  obtain ⟨g', N, rid', hrun', hext, hin, hnone, hhead⟩ := insertRecord_spec h buf
  obtain ⟨rfl, -⟩ := Prod.mk.inj (Except.ok.inj (hrun'.symm.trans hrun))
  exact ⟨_, hext.right.put hin hnone (fun _ => hhead) buf⟩

end Extensions

/-! ### Rolling back one write -/

/-- What `TransactionManager::abort` does to the table file for one write record. -/
def undoWrite (f : RmFileHandle) : WriteRecord → Except RmError RmFileHandle
  | .insert _ rid => do
    let _ ← f.getRecord rid
    f.deleteRecord rid
  | .delete _ rid record => f.insertRecordAt rid record
  | .update _ rid record => do
    let _ ← f.getRecord rid
    f.updateRecord rid record

/-- The write can be rolled back: its slot is as the write left it, and a page that the rollback fills is at the head
of the list. -/
def CanUndo (f : RmFileHandle) (l : List ℤ) : WriteRecord → Prop
  | .insert _ rid => ∃ r, f.records rid = some r
  | .delete _ rid _ => f.InFile rid ∧ f.records rid = none ∧
    ((f.pages rid.pageNo).numRecords + 1 = f.numRecordsPerPage → l.head? = some rid.pageNo)
  | .update _ rid _ => ∃ r, f.records rid = some r

/-- The file after the rollback of a write. -/
def undone (f : RmFileHandle) : WriteRecord → RmFileHandle
  | .insert _ rid => f.take rid
  | .delete _ rid record => f.put rid record
  | .update _ rid record => f.write rid record

/-- The list of pages with room after the rollback of a write. -/
def undoneList (f : RmFileHandle) (l : List ℤ) : WriteRecord → List ℤ
  | .insert _ rid => if (f.pages rid.pageNo).numRecords = f.numRecordsPerPage then rid.pageNo :: l else l
  | .delete _ rid _ => if (f.pages rid.pageNo).numRecords + 1 = f.numRecordsPerPage then l.tail else l
  | .update _ _ _ => l

section Undo

variable {f g : RmFileHandle} {l N : List ℤ} {w : WriteRecord} {rid : Rid} {r : Bytes}

/-- The rollback of a write does not throw, and keeps the list sound. -/
theorem CanUndo.undoWrite_eq (h : f.Ok l) (hw : f.CanUndo l w) :
    f.undoWrite w = .ok (f.undone w) ∧ (f.undone w).Ok (f.undoneList l w) := by
  cases w with
  | insert t rid =>
    obtain ⟨r, hr⟩ := hw
    refine ⟨?_, h.take hr⟩
    simp only [undoWrite, getRecord_eq hr, deleteRecord_eq hr, bind, Except.bind, undone]
  | delete t rid record =>
    obtain ⟨hin, hnone, hhead⟩ := hw
    exact ⟨insertRecordAt_eq hin hnone record, h.put hin hnone hhead record⟩
  | update t rid record =>
    obtain ⟨r, hr⟩ := hw
    refine ⟨?_, h.write hr record⟩
    simp only [undoWrite, getRecord_eq hr, updateRecord_eq hr, bind, Except.bind, undone]

theorem Ext.numRecords (h : Ext f g l N) (hin : f.InFile rid) :
    (g.pages rid.pageNo).numRecords = (f.pages rid.pageNo).numRecords :=
  congrArg Prod.fst (h.same rid.pageNo hin.first hin.last)

/-- A write that can be rolled back in a file can be rolled back in every extension, with the same effect. -/
theorem Ext.undo (h : Ext f g l N) (hw : f.CanUndo l w) :
    g.CanUndo (l ++ N) w ∧ g.undoneList (l ++ N) w = f.undoneList l w ++ N ∧
      Ext (f.undone w) (g.undone w) (f.undoneList l w) N := by
  have key : ∀ rid, f.InFile rid → g.CanUndo (l ++ N) w → g.undoneList (l ++ N) w = f.undoneList l w ++ N →
      (f.undone w).numPages = f.numPages → (g.undone w).numPages = g.numPages →
      (f.undone w).numRecordsPerPage = f.numRecordsPerPage → (g.undone w).numRecordsPerPage = g.numRecordsPerPage →
      (∃ c : ℤ × List (Option Bytes) → ℤ × List (Option Bytes),
        (f.undone w).cells = Function.update f.cells rid.pageNo (c (f.cells rid.pageNo)) ∧
        (g.undone w).cells = Function.update g.cells rid.pageNo (c (g.cells rid.pageNo))) →
      g.CanUndo (l ++ N) w ∧ g.undoneList (l ++ N) w = f.undoneList l w ++ N ∧
        Ext (f.undone w) (g.undone w) (f.undoneList l w) N := by
    intro rid hin hcan hlist hf hg hfp hgp ⟨c, hfc, hgc⟩
    refine ⟨hcan, hlist, (hw.undoWrite_eq h.left).2, hlist ▸ (hcan.undoWrite_eq h.right).2, ?_, ?_, ?_⟩
    · rw [hgp, hfp, h.per]
    · rw [hf, hg]
      exact h.le
    · intro p hp hp'
      rw [hf] at hp'
      rw [hfc, hgc]
      by_cases hpr : p = rid.pageNo
      · subst hpr
        rw [Function.update_self, Function.update_self, h.same _ hin.first hin.last]
      · rw [Function.update_of_ne hpr, Function.update_of_ne hpr, h.same p hp hp']
  cases w with
  | insert t rid =>
    obtain ⟨r, hr⟩ := hw
    have hin := inFile_of_records hr
    refine key rid hin ⟨r, (h.records hin).trans hr⟩ ?_ (take_numPages ..) (take_numPages ..)
      (take_numRecordsPerPage ..) (take_numRecordsPerPage ..)
      ⟨fun c => (c.1 - 1, c.2.set rid.slotNo.toNat none), cells_take .., cells_take ..⟩
    simp only [undoneList, h.numRecords hin, h.per]
    split <;> rfl
  | delete t rid record =>
    obtain ⟨hin, hnone, hhead⟩ := hw
    have hcons : (f.pages rid.pageNo).numRecords + 1 = f.numRecordsPerPage → ∃ t, l = rid.pageNo :: t := by
      intro hfull
      cases l with
      | nil => cases hhead hfull
      | cons p t => exact ⟨t, by rw [Option.some.inj (hhead hfull)]⟩
    refine key rid hin ⟨h.inFile hin, (h.records hin).trans hnone, ?_⟩ ?_ (put_numPages ..) (put_numPages ..)
      (put_numRecordsPerPage ..) (put_numRecordsPerPage ..)
      ⟨fun c => (c.1 + 1, c.2.set rid.slotNo.toNat (some record)), cells_put .., cells_put ..⟩
    · rw [h.numRecords hin, h.per]
      intro hfull
      obtain ⟨t, rfl⟩ := hcons hfull
      rfl
    · simp only [undoneList, h.numRecords hin, h.per]
      split
      · rename_i hfull
        obtain ⟨t, rfl⟩ := hcons hfull
        rfl
      · rfl
  | update t rid record =>
    obtain ⟨r, hr⟩ := hw
    have hin := inFile_of_records hr
    exact key rid hin ⟨r, (h.records hin).trans hr⟩ rfl rfl rfl rfl rfl
      ⟨fun c => (c.1, c.2.set rid.slotNo.toNat (some record)), cells_write .., cells_write ..⟩

/-- The writes can be rolled back one after the other. -/
def Undoable : RmFileHandle → List ℤ → List WriteRecord → Prop
  | _, _, [] => True
  | f, l, w :: ws => f.CanUndo l w ∧ Undoable (f.undone w) (f.undoneList l w) ws

/-- What can be rolled back in a file can be rolled back in every extension of it. -/
theorem Undoable.ext : ∀ {ws : List WriteRecord} {f g : RmFileHandle} {l N : List ℤ}, Ext f g l N → f.Undoable l ws →
    g.Undoable (l ++ N) ws
  | [], _, _, _, _, _, _ => trivial
  | w :: ws, f, g, l, N, h, ⟨hw, hws⟩ => by
    obtain ⟨hcan, hlist, hext⟩ := h.undo hw
    refine ⟨hcan, ?_⟩
    rw [hlist]
    exact Undoable.ext hext hws

/-- Changing a slot and changing it back. -/
theorem update_cells_back {c : ℤ → ℤ × List (Option Bytes)} {p m n : ℤ} {s : ℕ} {o o' : Option Bytes}
    (hs : (c p).2[s]? = some o) (hm : m = (c p).1) :
    Function.update (Function.update c p (n, (c p).2.set s o')) p (m, ((c p).2.set s o').set s o) = c := by
  obtain ⟨hlt, rfl⟩ := List.getElem?_eq_some_iff.mp hs
  rw [Function.update_idem, List.set_set, List.set_getElem_self, hm, Function.update_eq_self]

/-- An insertion can be rolled back, and gives back the file before it. -/
theorem Ok.put_undoable {ws : List WriteRecord} (h : f.Ok l) (hin : f.InFile rid) (hnone : f.records rid = none)
    (hhead : l.head? = some rid.pageNo) (hws : f.Undoable l ws) (buf : Bytes) (t : String) :
    ∃ l', (f.put rid buf).Ok l' ∧ (f.put rid buf).Undoable l' (.insert t rid :: ws) := by
  have hok := h.put hin hnone (fun _ => hhead) buf
  refine ⟨_, hok, ?_⟩
  have hrec : (f.put rid buf).records rid = some buf := by
    rw [records_put h.pages hin, Function.update_self]
  have hcan : (f.put rid buf).CanUndo (if (f.pages rid.pageNo).numRecords + 1 = f.numRecordsPerPage then l.tail else l)
    (.insert t rid) := ⟨buf, hrec⟩
  have hnum : ((f.put rid buf).pages rid.pageNo).numRecords = (f.pages rid.pageNo).numRecords + 1 := by
    have := congrFun (cells_put f rid buf) rid.pageNo
    rw [Function.update_self] at this
    exact congrArg Prod.fst this
  obtain ⟨t', rfl⟩ : ∃ t', l = rid.pageNo :: t' := by
    cases l with
    | nil => cases hhead
    | cons p t' => exact ⟨t', by rw [Option.some.inj hhead]⟩
  have hlist : (f.put rid buf).undoneList (if (f.pages rid.pageNo).numRecords + 1 = f.numRecordsPerPage then
      (rid.pageNo :: t').tail else rid.pageNo :: t') (.insert t rid) = rid.pageNo :: t' := by
    simp only [undoneList, hnum, put_numRecordsPerPage]
    split <;> rfl
  have hok' := (hcan.undoWrite_eq hok).2
  rw [hlist] at hok'
  refine ⟨hcan, ?_⟩
  rw [hlist, ← List.append_nil (rid.pageNo :: t')]
  refine Undoable.ext (Ext.of_cells h hok' ?_ ?_ ?_) hws
  · simp [undone]
  · simp [undone]
  · simp only [undone]
    rw [cells_take, cells_put, Function.update_self]
    exact update_cells_back (by rw [h.pages.getElem? hin, hnone]) (Int.add_sub_cancel _ _)

/-- A deletion can be rolled back, and gives back the file before it. -/
theorem Ok.take_undoable {ws : List WriteRecord} (h : f.Ok l) (hr : f.records rid = some r) (hws : f.Undoable l ws)
    (t : String) : ∃ l', (f.take rid).Ok l' ∧ (f.take rid).Undoable l' (.delete t rid r :: ws) := by
  have hin := inFile_of_records hr
  have hok := h.take hr
  have hin' : (f.take rid).InFile rid :=
    ⟨hin.first, by rw [take_numPages]; exact hin.last, hin.low, by rw [take_numRecordsPerPage]; exact hin.high⟩
  have hnone : (f.take rid).records rid = none := by
    rw [records_take h.pages hin, Function.update_self]
  have hnum : ((f.take rid).pages rid.pageNo).numRecords + 1 = (f.pages rid.pageNo).numRecords := by
    have := congrFun (cells_take f rid) rid.pageNo
    rw [Function.update_self] at this
    have := congrArg Prod.fst this
    simp only [cells] at this
    omega
  refine ⟨_, hok, ?_⟩
  have hcan : (f.take rid).CanUndo (if (f.pages rid.pageNo).numRecords = f.numRecordsPerPage then rid.pageNo :: l else l)
      (.delete t rid r) := by
    refine ⟨hin', hnone, ?_⟩
    rw [hnum, take_numRecordsPerPage]
    intro hfull
    rw [if_pos hfull]
    rfl
  have hlist : (f.take rid).undoneList (if (f.pages rid.pageNo).numRecords = f.numRecordsPerPage then rid.pageNo :: l
      else l) (.delete t rid r) = l := by
    simp only [undoneList, hnum, take_numRecordsPerPage]
    split <;> rfl
  have hok' := (hcan.undoWrite_eq hok).2
  rw [hlist] at hok'
  refine ⟨hcan, ?_⟩
  rw [hlist, ← List.append_nil l]
  refine Undoable.ext (Ext.of_cells h hok' ?_ ?_ ?_) hws
  · simp [undone]
  · simp [undone]
  · simp only [undone]
    rw [cells_put, cells_take, Function.update_self]
    exact update_cells_back (by rw [h.pages.getElem? hin, hr]) (Int.sub_add_cancel _ _)

/-- An update can be rolled back, and gives back the file before it. -/
theorem Ok.write_undoable {ws : List WriteRecord} (h : f.Ok l) (hr : f.records rid = some r) (hws : f.Undoable l ws)
    (buf : Bytes) (t : String) : (f.write rid buf).Ok l ∧ (f.write rid buf).Undoable l (.update t rid r :: ws) := by
  have hin := inFile_of_records hr
  have hok := h.write hr buf
  have hrec : (f.write rid buf).records rid = some buf := by
    rw [records_write h.pages hin, Function.update_self]
  have hcan : (f.write rid buf).CanUndo l (.update t rid r) := ⟨buf, hrec⟩
  refine ⟨hok, hcan, ?_⟩
  have hok' := (hcan.undoWrite_eq hok).2
  rw [← List.append_nil ((f.write rid buf).undoneList l (.update t rid r))]
  refine Undoable.ext (Ext.of_cells h hok' rfl rfl ?_) hws
  simp only [undone]
  rw [cells_write, cells_write, Function.update_self]
  exact update_cells_back (by rw [h.pages.getElem? hin, hr]) rfl

end Undo

end RmFileHandle

/-! ### A table under transactions -/

/-- What the transaction on a table is doing. -/
inductive Phase where
  /-- Between two operations. -/
  | running
  /-- Inside an `INSERT` that has put its record into the file and fails on an index. -/
  | failing (rid : Rid)
  /-- Inside `abort`. -/
  | undoing
deriving DecidableEq

/-- A table file, and the transaction that holds its lock. -/
structure TableRun where
  /-- The file. -/
  file : RmFileHandle
  /-- The transaction's write set, latest first. -/
  writeSet : List WriteRecord
  /-- What the transaction is doing. -/
  phase : Phase

/-- One step on a table. An operation on a record that is not there throws and changes nothing, so it is no step. -/
inductive TableStep (t : String) : TableRun → TableRun → Prop where
  /-- An `INSERT` that succeeds. -/
  | insert {f f' ws buf rid} : f.insertRecord buf = .ok (f', rid) →
    TableStep t ⟨f, ws, .running⟩ ⟨f', .insert t rid :: ws, .running⟩
  /-- An `INSERT` that will fail: its record is in the file. -/
  | insertFailing {f f' ws buf rid} : f.insertRecord buf = .ok (f', rid) →
    TableStep t ⟨f, ws, .running⟩ ⟨f', ws, .failing rid⟩
  /-- It deletes its record again and leaves no write record. -/
  | cleanup {f f' ws rid} : f.deleteRecord rid = .ok f' → TableStep t ⟨f, ws, .failing rid⟩ ⟨f', ws, .running⟩
  /-- The deletion of a record. -/
  | delete {f f' ws rid record} : f.getRecord rid = .ok record → f.deleteRecord rid = .ok f' →
    TableStep t ⟨f, ws, .running⟩ ⟨f', .delete t rid record :: ws, .running⟩
  /-- The update of a record. -/
  | update {f f' ws rid record buf} : f.getRecord rid = .ok record → f.updateRecord rid buf = .ok f' →
    TableStep t ⟨f, ws, .running⟩ ⟨f', .update t rid record :: ws, .running⟩
  /-- The transaction commits, and the next one begins. -/
  | commit {f ws} : TableStep t ⟨f, ws, .running⟩ ⟨f, [], .running⟩
  /-- The transaction aborts. -/
  | abort {f ws} : TableStep t ⟨f, ws, .running⟩ ⟨f, ws, .undoing⟩
  /-- The rollback of the latest write. -/
  | undo {f f' w ws} : f.undoWrite w = .ok f' → TableStep t ⟨f, w :: ws, .undoing⟩ ⟨f', ws, .undoing⟩
  /-- The rollback is complete, and the next transaction begins. -/
  | undone {f} : TableStep t ⟨f, [], .undoing⟩ ⟨f, [], .running⟩

/-- What holds of a table between the steps: its file is in order, its transaction can be rolled back, and so can an
`INSERT` that is failing. -/
structure TableOk (s : TableRun) : Prop where
  file : ∃ l, s.file.Ok l ∧ match s.phase with
    | .failing rid => s.file.Undoable l (.insert "" rid :: s.writeSet)
    | _ => s.file.Undoable l s.writeSet

open RmFileHandle in
/-- Every step keeps the table in order. -/
theorem TableOk.step {t : String} {s s' : TableRun} (h : TableOk s) (hs : TableStep t s s') : TableOk s' := by
  obtain ⟨l, hok, hws⟩ := h.file
  cases hs with
  | @insert f f' ws buf rid hrun =>
    obtain ⟨g, N, rid', hrun', hext, hin, hnone, hhead⟩ := insertRecord_spec hok buf
    obtain ⟨rfl, rfl⟩ := Prod.mk.inj (Except.ok.inj (hrun.symm.trans hrun'))
    obtain ⟨l', hok', hund⟩ := hext.right.put_undoable hin hnone hhead (Undoable.ext hext hws) buf t
    exact ⟨l', hok', hund⟩
  | @insertFailing f f' ws buf rid hrun =>
    obtain ⟨g, N, rid', hrun', hext, hin, hnone, hhead⟩ := insertRecord_spec hok buf
    obtain ⟨rfl, rfl⟩ := Prod.mk.inj (Except.ok.inj (hrun.symm.trans hrun'))
    obtain ⟨l', hok', hund⟩ := hext.right.put_undoable hin hnone hhead (Undoable.ext hext hws) buf ""
    exact ⟨l', hok', hund⟩
  | @cleanup f f' ws rid hrun =>
    obtain ⟨hcan, hund⟩ := hws
    have hok' := (hcan.undoWrite_eq hok).2
    obtain ⟨r, hr⟩ := hcan
    obtain rfl := Except.ok.inj (hrun.symm.trans (deleteRecord_eq hr))
    exact ⟨_, hok', hund⟩
  | @delete f f' ws rid record hget hrun =>
    have hr := records_of_getRecord hget
    obtain rfl := Except.ok.inj (hrun.symm.trans (deleteRecord_eq hr))
    obtain ⟨l', hok', hund⟩ := hok.take_undoable hr hws t
    exact ⟨l', hok', hund⟩
  | @update f f' ws rid record buf hget hrun =>
    have hr := records_of_getRecord hget
    obtain rfl := Except.ok.inj (hrun.symm.trans (updateRecord_eq hr buf))
    obtain ⟨hok', hund⟩ := hok.write_undoable hr hws buf t
    exact ⟨l, hok', hund⟩
  | commit => exact ⟨l, hok, trivial⟩
  | abort => exact ⟨l, hok, hws⟩
  | @undo f f' w ws hrun =>
    obtain ⟨hcan, hund⟩ := hws
    obtain ⟨hrun', hok'⟩ := hcan.undoWrite_eq hok
    obtain rfl := Except.ok.inj (hrun.symm.trans hrun')
    exact ⟨_, hok', hund⟩
  | undone => exact ⟨l, hok, hws⟩

/-- Every state of a run is in order. -/
theorem TableOk.run {t : String} {s s' : TableRun} (h : TableOk s) (hs : Relation.ReflTransGen (TableStep t) s s') :
    TableOk s' := by
  induction hs with
  | refl => exact h
  | tail _ hstep ih => exact ih.step hstep

/-- **The list of pages with room is sound after every step**, also in the middle of a rollback; no insertion, no
clean-up of a failed `INSERT` and no step of a rollback throws. -/
theorem freeList_sound (recordSize : ℤ) (h1 : 1 ≤ recordSize) (h2 : recordSize ≤ RM_MAX_RECORD_SIZE) (t : String) :
    ∃ f, RmFileHandle.createFile recordSize = .ok f ∧
      ∀ s, Relation.ReflTransGen (TableStep t) ⟨f, [], .running⟩ s →
        (∃ l, s.file.FreeListOk l) ∧ (∀ buf, ∃ f' rid, s.file.insertRecord buf = .ok (f', rid)) ∧
        (∀ rid, s.phase = .failing rid → ∃ f', s.file.deleteRecord rid = .ok f') ∧
        ∀ w ws, s.phase = .undoing → s.writeSet = w :: ws → ∃ f', s.file.undoWrite w = .ok f' := by
  obtain ⟨f, hf, hok, -⟩ := RmFileHandle.createFile_ok h1 h2
  refine ⟨f, hf, ?_⟩
  intro s hs
  obtain ⟨l, hok, hws⟩ := (TableOk.run ⟨[], hok, trivial⟩ hs).file
  refine ⟨⟨l, hok.list⟩, ?_, ?_, ?_⟩
  · intro buf
    obtain ⟨g, N, rid, hrun, -⟩ := RmFileHandle.insertRecord_spec hok buf
    exact ⟨_, rid, hrun⟩
  · intro rid hphase
    rw [hphase] at hws
    obtain ⟨r, hr⟩ := hws.1
    exact ⟨_, RmFileHandle.deleteRecord_eq hr⟩
  · intro w ws hphase hw
    rw [hphase, hw] at hws
    exact ⟨_, (hws.1.undoWrite_eq hok).1⟩

theorem freeList_sound_insert : ∃ f, RmFileHandle.createFile 4 = .ok f ∧
    ∃ f' rid, f.insertRecord [1, 2, 3, 4] = .ok (f', rid) ∧ ∃ l, f'.FreeListOk l := by
  obtain ⟨f, hf, hrun⟩ := freeList_sound 4 (by decide) (by decide) "t"
  obtain ⟨-, hins, -⟩ := hrun _ .refl
  obtain ⟨f', rid, hf'⟩ := hins [1, 2, 3, 4]
  exact ⟨f, hf, f', rid, hf', (hrun _ (.single (.insert hf'))).1⟩

end Rmdb.Record
