import Rmdb.Lib.Trace
import Rmdb.Record.Refine

/-!
# A record file is a map

What a client sees of a record file in bytes: for every record size that `create_file`
accepts, and every sequence of operations on the file, with the file closed and opened again
at any time, the operations return what they would return on a map from rids to records
(`heapFile_is_map`).

Page numbers are `int`s. What happens when a file of `INT_MAX` pages, of 8 TiB, is to be
extended is undefined in the source, and the result says nothing of a run in which it is.
-/

namespace Rmdb.Record.Paged

open Lib Storage

/-! ### Closing and opening -/

/-- `close_file` and `open_file`. -/
def reopenFile (f : RmFileHandle) (frameIds : List ℕ) (fd : ℤ) : RmFileHandle :=
  openFile (closeFile f frameIds).1 (closeFile f frameIds).2 fd

section Files

variable {bpm : BufferPoolManager} {contents : PageId → PageData} {f : RmFileHandle} {fd : ℤ}

/-- A page that is not in the pool is written to disk. -/
theorem idle_writePage (h : Idle bpm contents) {pid : PageId} (hpid : bpm.pageTable pid = none) (data : PageData) :
    Idle (bpm.writePage pid data) (Function.update contents pid data) := by
  have hother : ∀ p f, bpm.pageTable p = some f → p ≠ pid := by
    rintro p f hp rfl
    rw [hpid] at hp
    cases hp
  have hidle := h.remount (bpm.writePage pid data).disk
    (fun p f hp => Function.update_of_ne (hother p f hp) ..) h.good.counters
  have heq : (fun p => if bpm.pageTable p = none then ((bpm.writePage pid data).disk p).getD zeros else contents p) =
      Function.update contents pid data := by
    funext p
    by_cases hp : p = pid
    · subst hp
      rw [if_pos hpid, Function.update_self]
      simp [BufferPoolManager.writePage]
    · rw [Function.update_of_ne hp]
      split
      · rename_i hnone
        have hgone := h.good.gone p hnone
        rw [← hgone]
        simp [BufferPoolManager.writePage, BufferPoolManager.diskData, hp]
      · rfl
  rw [heq] at hidle
  exact hidle

theorem openFile_counter (bpm : BufferPoolManager) (file : DiskFile) (fd : ℤ) :
    (openFile bpm file fd).bpm.fd2pageno fd = (openFile bpm file fd).fileHdr.numPages := by
  unfold openFile
  exact Function.update_self fd _ _

/-- What the pages hold when a file has been opened. -/
def mounted (contents : PageId → PageData) (file : DiskFile) (fd : ℤ) : PageId → PageData :=
  fun p => if p.fd = fd then (file p.pageNo).getD zeros else contents p

theorem openFile_idle (file : DiskFile) (h : Idle bpm contents)
    (hfd : ∀ p frame, bpm.pageTable p = some frame → p.fd ≠ fd) (hnum : 0 ≤ (openFile bpm file fd).fileHdr.numPages) :
    Idle (openFile bpm file fd).bpm (mounted contents file fd) := by
  have hcounters : ∀ fd', 0 ≤ Function.update bpm.fd2pageno fd (openFile bpm file fd).fileHdr.numPages fd' := by
    intro fd'
    by_cases hfd' : fd' = fd
    · rw [hfd', Function.update_self]
      exact hnum
    · rw [Function.update_of_ne hfd']
      exact h.good.counters fd'
  have hidle := h.remount (openFile bpm file fd).bpm.disk (fun p frame hp => if_neg (hfd p frame hp)) hcounters
  have heq : (fun p => if bpm.pageTable p = none then ((openFile bpm file fd).bpm.disk p).getD zeros else contents p) =
      mounted contents file fd := by
    funext p
    unfold mounted
    by_cases hp : p.fd = fd
    · have hnone : bpm.pageTable p = none := by
        rcases htable : bpm.pageTable p with _ | frame
        · rfl
        · exact absurd hp (hfd p frame htable)
      rw [if_pos hnone, if_pos hp]
      exact congrArg (Option.getD · zeros) (if_pos hp)
    · rw [if_neg hp]
      split
      · rename_i hnone
        rw [← h.good.gone p hnone]
        exact congrArg (Option.getD · zeros) (if_neg hp)
      · rfl
  rw [heq] at hidle
  exact hidle

/-- A file that differs only in the page of its header. -/
theorem ok_congr {g g' : Record.RmFileHandle} {l : List ℤ} (h : g.Ok l) (hnum : g'.numPages = g.numPages)
    (hper : g'.numRecordsPerPage = g.numRecordsPerPage) (hfirst : g'.firstFreePageNo = g.firstFreePageNo)
    (hpages : ∀ p, RM_FIRST_RECORD_PAGE ≤ p → g'.pages p = g.pages p) : g'.Ok l ∧ g'.records = g.records := by
  refine ⟨⟨hper ▸ h.pos, hnum ▸ h.first, ?_, ?_, h.list.nodup, ?_⟩, funext ?_⟩
  · intro p hp hp'
    have hcell := h.pages p hp (hnum ▸ hp')
    unfold Record.RmFileHandle.cells at hcell ⊢
    rw [hpages p hp, hper]
    exact hcell
  · rw [hfirst]
    exact h.list.linked.congr fun p hp => by rw [hpages p ((h.list.mem p).mp hp).1]
  · intro p
    rw [h.list.mem p, hnum, hper]
    refine and_congr_right ?_
    intro hp
    rw [hpages p hp]
  · intro rid
    unfold Record.RmFileHandle.records Record.RmFileHandle.slot
    rw [hnum, hper]
    split
    · rename_i hp
      rw [hpages _ hp.1]
    · rfl

theorem Inv.fits (h : Inv f contents) : f.fileHdr.Fits := by
  obtain ⟨l, hok⟩ := h.ok
  have hfirst : RM_FIRST_RECORD_PAGE ≤ f.fileHdr.numPages := hok.first
  have hpages := h.base.numPages
  refine ⟨h.base.recordSize, ?_, h.base.numRecordsPerPage, h.firstFreePageNo, h.base.bitmapSize⟩
  unfold RM_FIRST_RECORD_PAGE at hfirst
  unfold INT_MAX at hpages
  unfold InInt
  omega

/-- The file header is on disk, and no page of the file is in the pool. -/
theorem closeFile_spec (h : Inv f contents) {frameIds : List ℕ} (hl : f.bpm.Lists f.fd frameIds) :
    ∃ header, cellsAt header 0 20 = f.fileHdr.bytes ∧
      Idle (closeFile f frameIds).1 (Function.update contents ⟨f.fd, RM_FILE_HDR_PAGE⟩ header) ∧
      (∀ p, (closeFile f frameIds).1.pageTable p = none ↔ f.bpm.pageTable p = none ∨ p.fd = f.fd) ∧
      ∀ pageNo, ((closeFile f frameIds).2 pageNo).getD zeros =
        Function.update contents ⟨f.fd, RM_FILE_HDR_PAGE⟩ header ⟨f.fd, pageNo⟩ := by
  have hnone : f.bpm.pageTable ⟨f.fd, RM_FILE_HDR_PAGE⟩ = none := by
    rcases htable : f.bpm.pageTable ⟨f.fd, RM_FILE_HDR_PAGE⟩ with _ | frame
    · rfl
    · have := (h.base.table _ _ htable rfl).1
      unfold RM_FIRST_RECORD_PAGE RM_FILE_HDR_PAGE at this
      simp at this
  set header := copyTo (f.bpm.diskData ⟨f.fd, RM_FILE_HDR_PAGE⟩) 0 f.fileHdr.bytes
  have hidle := idle_writePage h.idle hnone header
  have hl' : (f.bpm.writePage ⟨f.fd, RM_FILE_HDR_PAGE⟩ header).Lists f.fd frameIds := hl
  obtain ⟨hdel, htab, -⟩ := hidle.deleteAllPages hl'
  refine ⟨header, cellsAt_copyTo (by decide) f.fileHdr.length_bytes, hdel, htab, ?_⟩
  intro pageNo
  exact hdel.good.gone _ ((htab _).mpr (Or.inr rfl))

/-- **Closing and opening** leaves the file as it is. -/
theorem reopenFile_spec (h : Inv f contents) {frameIds : List ℕ} (hl : f.bpm.Lists f.fd frameIds)
    (hfree : ∀ p frame, f.bpm.pageTable p = some frame → p.fd = fd → p.fd = f.fd) :
    ∃ contents', Inv (reopenFile f frameIds fd) contents' ∧ (reopenFile f frameIds fd).fileHdr = f.fileHdr ∧
      (abs f.fileHdr fd contents').records = (abs f.fileHdr f.fd contents).records := by
  obtain ⟨header, hheader, hidle, htable, hfile⟩ := closeFile_spec h hl
  obtain ⟨l, hok⟩ := h.ok
  have hfirst : RM_FIRST_RECORD_PAGE ≤ f.fileHdr.numPages := hok.first
  have hhdr : (reopenFile f frameIds fd).fileHdr = f.fileHdr := by
    change RmFileHdr.ofBytes (cellsAt (((closeFile f frameIds).2 RM_FILE_HDR_PAGE).getD zeros) 0 20) = f.fileHdr
    rw [hfile, Function.update_self, hheader, RmFileHdr.ofBytes_bytes h.fits]
  have habsent : ∀ p frame, (closeFile f frameIds).1.pageTable p = some frame → p.fd ≠ fd := by
    intro p frame hp hfd
    have hnone : (closeFile f frameIds).1.pageTable p = none := by
      refine (htable p).mpr ?_
      rcases hold : f.bpm.pageTable p with _ | frame'
      · exact Or.inl rfl
      · exact Or.inr (hfree p frame' hold hfd)
    rw [hp] at hnone
    cases hnone
  have hopen := openFile_idle (closeFile f frameIds).2 hidle habsent (by
    change 0 ≤ (reopenFile f frameIds fd).fileHdr.numPages
    rw [hhdr]
    unfold RM_FIRST_RECORD_PAGE at hfirst
    omega)
  set contents' := mounted (Function.update contents ⟨f.fd, RM_FILE_HDR_PAGE⟩ header) (closeFile f frameIds).2 fd
  -- the record pages are the same
  have hpages : ∀ pageNo, RM_FIRST_RECORD_PAGE ≤ pageNo → contents' ⟨fd, pageNo⟩ = contents ⟨f.fd, pageNo⟩ := by
    intro pageNo hp
    refine (if_pos rfl).trans ((hfile pageNo).trans (Function.update_of_ne ?_ ..))
    intro heq
    have := (PageId.mk.inj heq).2
    unfold RM_FIRST_RECORD_PAGE at hp
    unfold RM_FILE_HDR_PAGE at this
    omega
  obtain ⟨hok', hrecords⟩ : (abs f.fileHdr fd contents').Ok l ∧
      (abs f.fileHdr fd contents').records = (abs f.fileHdr f.fd contents).records :=
    ok_congr hok rfl rfl rfl fun p hp => congrArg (pageOf f.fileHdr) (hpages p hp)
  have hb := h.base
  refine ⟨contents', ⟨⟨?_, ?_, ?_, ?_, ?_, ?_, ?_, ?_⟩, hopen, l, ?_⟩, hhdr, hrecords⟩
  · rw [hhdr]
    exact hb.layout
  · rw [hhdr]
    exact hb.recordSize
  · rw [hhdr]
    exact hb.numRecordsPerPage
  · rw [hhdr]
    exact hb.bitmapSize
  · rw [hhdr]
    exact hb.numPages
  · exact openFile_counter ..
  · intro p frame hp hfd
    exact absurd hfd (habsent p frame hp)
  · intro pageNo hp
    rw [hhdr] at hp
    refine (hpages pageNo (hfirst.trans hp)).trans (hb.beyond pageNo hp)
  · rw [hhdr]
    exact hok'

/-- A file with no record pages. -/
theorem ok_empty {g : Record.RmFileHandle} (hnum : g.numPages = RM_FIRST_RECORD_PAGE)
    (hfirst : g.firstFreePageNo = RM_NO_PAGE) (hpos : 0 < g.numRecordsPerPage) :
    g.Ok [] ∧ g.records = fun _ => none := by
  have hnopage : ∀ p, RM_FIRST_RECORD_PAGE ≤ p → ¬ p < g.numPages := fun p hp hp' => by
    rw [hnum] at hp'
    exact absurd hp (not_le.mpr hp')
  refine ⟨⟨hpos, hnum.ge, fun p hp hp' => absurd hp' (hnopage p hp), hfirst, List.nodup_nil, ?_⟩, funext fun rid => if_neg ?_⟩
  · intro p
    simp only [List.not_mem_nil, false_iff]
    rintro ⟨hp, hp', -⟩
    exact hnopage p hp hp'
  · rintro ⟨hp, hp'⟩
    exact hnopage _ hp hp'

/-- **A new file** that has been opened is empty. -/
theorem openFile_created (fd : ℤ) (h : Idle bpm contents) (hfd : ∀ p frame, bpm.pageTable p = some frame → p.fd ≠ fd)
    {recordSize : ℤ} {file : DiskFile} (hfile : createFile recordSize = .ok file) :
    ∃ contents', Inv (openFile bpm file fd) contents' ∧
      (openFile bpm file fd).fileHdr.recordSize = recordSize.toNat ∧
      (abs (openFile bpm file fd).fileHdr fd contents').records = fun _ => none := by
  obtain ⟨⟨h1, h2⟩, hf⟩ : (1 ≤ recordSize ∧ recordSize ≤ RM_MAX_RECORD_SIZE) ∧
      Function.update (fun _ => none) RM_FILE_HDR_PAGE (some (copyTo zeros 0 (createHdr recordSize).bytes)) = file := by
    unfold createFile at hfile
    split at hfile
    · cases hfile
    · rename_i hsize
      exact ⟨by omega, Except.ok.inj hfile⟩
  obtain ⟨hlayout, hfits, hpos⟩ := layout_create h1 h2
  have hhdr : (openFile bpm file fd).fileHdr = createHdr recordSize := by
    change RmFileHdr.ofBytes (cellsAt ((file RM_FILE_HDR_PAGE).getD zeros) 0 20) = _
    rw [← hf, Function.update_self, Option.getD_some, cellsAt_copyTo (by decide) (RmFileHdr.length_bytes _),
      RmFileHdr.ofBytes_bytes hfits]
  have hnum : (createHdr recordSize).numPages = 1 := rfl
  have hsize : (createHdr recordSize).recordSize = recordSize.toNat := rfl
  have hfree : (createHdr recordSize).firstFreePageNo = RM_NO_PAGE := rfl
  have hzero : ∀ pageNo, RM_FIRST_RECORD_PAGE ≤ pageNo → file pageNo = none := by
    intro pageNo hp
    rw [← hf, Function.update_of_ne]
    unfold RM_FIRST_RECORD_PAGE at hp
    unfold RM_FILE_HDR_PAGE
    omega
  generalize createHdr recordSize = hdr at *
  obtain ⟨hok, hrecords⟩ := ok_empty (g := abs hdr fd (mounted contents file fd)) hnum hfree hpos
  rw [hhdr]
  refine ⟨mounted contents file fd, ⟨⟨?_, ?_, ?_, ?_, ?_, ?_, ?_, ?_⟩, openFile_idle file h hfd ?_, [], ?_⟩, hsize, hrecords⟩
  · rw [hhdr]
    exact hlayout
  · rw [hhdr]
    exact hfits.recordSize
  · rw [hhdr]
    exact hfits.numRecordsPerPage
  · rw [hhdr]
    exact hfits.bitmapSize
  · rw [hhdr, hnum]
    unfold INT_MAX
    omega
  · exact openFile_counter ..
  · intro p frame hp hpfd
    exact absurd hpfd (hfd p frame hp)
  · intro pageNo hp
    rw [hhdr, hnum] at hp
    refine (if_pos rfl).trans ?_
    rw [hzero pageNo hp, Option.getD_none]
  · rw [hhdr, hnum]
    decide
  · rw [hhdr]
    exact hok

end Files

/-! ### Runs -/

/-- The bytes of a record. -/
abbrev Buf (recordSize : ℕ) := { buf : Bytes // buf.length = recordSize }

/-- An operation on a file of records of `n` bytes. -/
inductive Op (n : ℕ) where
  /-- `insert_record(buf)`. -/
  | insert (buf : Buf n)
  /-- `delete_record`. -/
  | delete (rid : Rid)
  /-- `update_record`. -/
  | update (rid : Rid) (buf : Buf n)
  /-- `get_record`. -/
  | get (rid : Rid)
  /-- `is_record`. -/
  | isRecord (rid : Rid)
  /-- `close_file` and `open_file`. -/
  | reopen

/-- What an operation returns. -/
inductive Out where
  /-- A rid. -/
  | rid (rid : Rid)
  /-- A record. -/
  | record (record : Bytes)
  /-- Whether there is a record. -/
  | present (exists' : Bool)
  /-- Nothing. -/
  | done
deriving DecidableEq

/-- An operation and how it ends. -/
abbrev Call (n : ℕ) := Op n × Except Error Out

/-- A step of a client of the file. -/
inductive FileStep (n : ℕ) (f : RmFileHandle) : Call n → RmFileHandle → Prop where
  /-- `insert_record(buf)`. -/
  | insert {buf : Buf n} {out : Except Error Rid} {f' : RmFileHandle} : exec (insertRecord buf) f = (out, f') →
      FileStep n f (.insert buf, out.map .rid) f'
  /-- `delete_record`. -/
  | delete {rid : Rid} {out : Except Error Unit} {f' : RmFileHandle} : exec (deleteRecord rid) f = (out, f') →
      FileStep n f (.delete rid, out.map fun _ => .done) f'
  /-- `update_record`. -/
  | update {rid : Rid} {buf : Buf n} {out : Except Error Unit} {f' : RmFileHandle} :
      exec (updateRecord rid buf) f = (out, f') → FileStep n f (.update rid buf, out.map fun _ => .done) f'
  /-- `get_record`. -/
  | get {rid : Rid} {out : Except Error Bytes} {f' : RmFileHandle} : exec (getRecord rid) f = (out, f') →
      FileStep n f (.get rid, out.map .record) f'
  /-- `is_record`. -/
  | isRecord {rid : Rid} {out : Except Error Bool} {f' : RmFileHandle} : exec (isRecord rid) f = (out, f') →
      FileStep n f (.isRecord rid, out.map .present) f'
  /-- The file is closed, and opened with a file descriptor that no other file has. -/
  | reopen {frameIds : List ℕ} {fd : ℤ} : f.bpm.Lists f.fd frameIds → 0 ≤ fd → fd < MAX_FD →
      (∀ p frame, f.bpm.pageTable p = some frame → p.fd = fd → p.fd = f.fd) →
      FileStep n f (.reopen, .ok .done) (reopenFile f frameIds fd)

/-- A step of a client of a map from rids to records: what a record file should be. -/
inductive MapStep (n : ℕ) (m : Rid → Option Bytes) : Call n → (Rid → Option Bytes) → Prop where
  /-- A record is put under a rid that has none. -/
  | insert {buf : Buf n} {rid : Rid} : m rid = none →
      MapStep n m (.insert buf, .ok (.rid rid)) (Function.update m rid (some buf.1))
  /-- A record is removed. -/
  | delete {rid : Rid} {r : Bytes} : m rid = some r → MapStep n m (.delete rid, .ok .done) (Function.update m rid none)
  /-- There is none, and nothing changes. -/
  | deleteNone {rid : Rid} {e : Error} : m rid = none → NotFound rid e → MapStep n m (.delete rid, .error e) m
  /-- A record is replaced. -/
  | update {rid : Rid} {buf : Buf n} {r : Bytes} : m rid = some r →
      MapStep n m (.update rid buf, .ok .done) (Function.update m rid (some buf.1))
  /-- There is none, and nothing changes. -/
  | updateNone {rid : Rid} {buf : Buf n} {e : Error} : m rid = none → NotFound rid e →
      MapStep n m (.update rid buf, .error e) m
  /-- A record is read. -/
  | get {rid : Rid} {r : Bytes} : m rid = some r → MapStep n m (.get rid, .ok (.record r)) m
  /-- There is none. -/
  | getNone {rid : Rid} {e : Error} : m rid = none → NotFound rid e → MapStep n m (.get rid, .error e) m
  /-- Whether there is a record. -/
  | isRecord {rid : Rid} : MapStep n m (.isRecord rid, .ok (.present (m rid).isSome)) m
  /-- There is not even a page, nor a record on it. -/
  | isRecordNoPage {rid : Rid} : (∀ slotNo, m ⟨rid.pageNo, slotNo⟩ = none) →
      MapStep n m (.isRecord rid, .error (.rm (.pageNotExist rid.pageNo))) m
  /-- Nothing changes. -/
  | reopen : MapStep n m (.reopen, .ok .done) m

/-- The file is in order, and its records are those of the map. -/
def IsMap (n : ℕ) (f : RmFileHandle) (m : Rid → Option Bytes) : Prop :=
  ∃ contents, Inv f contents ∧ f.fileHdr.recordSize = n ∧ (abs f.fileHdr f.fd contents).records = m

section Steps

variable {n : ℕ} {f f' : RmFileHandle} {m : Rid → Option Bytes} {c : Call n}

/-- What an operation has left is a map again. -/
theorem Leaves.isMap {g : Record.RmFileHandle} {contents' : PageId → PageData} (h : Leaves f f' g contents')
    (hsize : f.fileHdr.recordSize = n) (hm : g.records = m) : IsMap n f' m :=
  ⟨contents', h.inv, h.recordSize.trans hsize, by rw [h.abs, hm]⟩

/-- **One step** on the file is one on the map. -/
theorem FileStep.mapStep (hs : FileStep n f c f') (h : IsMap n f m) (hdef : c.2 ≠ .error .overflow) :
    ∃ m', MapStep n m c m' ∧ IsMap n f' m' := by
  obtain ⟨contents, hinv, hsize, rfl⟩ := h
  obtain ⟨l, hok⟩ := hinv.ok
  cases hs with
  | @insert buf out _ hx =>
    have hroom : f.HasRoom := by
      by_contra hfull
      obtain ⟨rfl, -⟩ := Prod.mk.inj (hx.symm.trans (insertRecord_overflow hfull))
      exact hdef rfl
    obtain ⟨f'', contents', g, rid, hspec, hins, hleaves⟩ := insertRecord_spec hinv hroom (buf.2.trans hsize.symm)
    obtain ⟨rfl, rfl⟩ := Prod.mk.inj (hx.symm.trans hspec)
    obtain ⟨hnone, -, hchanged⟩ := RmFileHandle.insertRecord_cases hok.pages hok.first hins
    exact ⟨_, .insert hnone, hleaves.isMap hsize hchanged.records⟩
  | @delete rid out _ hx =>
    rcases hr : (abs f.fileHdr f.fd contents).records rid with _ | r
    · obtain ⟨e, f'', hspec, he, hleaves⟩ := deleteRecord_none hinv hr
      obtain ⟨rfl, rfl⟩ := Prod.mk.inj (hx.symm.trans hspec)
      exact ⟨_, .deleteNone hr he, hleaves.isMap hsize rfl⟩
    · obtain ⟨f'', contents', hspec, hleaves⟩ := deleteRecord_some hinv hr
      obtain ⟨rfl, rfl⟩ := Prod.mk.inj (hx.symm.trans hspec)
      exact ⟨_, .delete hr, hleaves.isMap hsize (RmFileHandle.records_take hok.pages (RmFileHandle.inFile_of_records hr))⟩
  | @update rid buf out _ hx =>
    rcases hr : (abs f.fileHdr f.fd contents).records rid with _ | r
    · obtain ⟨e, f'', hspec, he, hleaves⟩ := updateRecord_none hinv hr
      obtain ⟨rfl, rfl⟩ := Prod.mk.inj (hx.symm.trans hspec)
      exact ⟨_, .updateNone hr he, hleaves.isMap hsize rfl⟩
    · obtain ⟨f'', contents', hspec, hleaves⟩ := updateRecord_some hinv hr (buf.2.trans hsize.symm)
      obtain ⟨rfl, rfl⟩ := Prod.mk.inj (hx.symm.trans hspec)
      have hrecords := RmFileHandle.records_write hok.pages (RmFileHandle.inFile_of_records hr) buf.1
      exact ⟨_, .update hr, hleaves.isMap hsize hrecords⟩
  | @get rid out _ hx =>
    rcases hr : (abs f.fileHdr f.fd contents).records rid with _ | r
    · obtain ⟨e, f'', hspec, he, hleaves⟩ := getRecord_none hinv hr
      obtain ⟨rfl, rfl⟩ := Prod.mk.inj (hx.symm.trans hspec)
      exact ⟨_, .getNone hr he, hleaves.isMap hsize rfl⟩
    · obtain ⟨f'', hspec, hleaves⟩ := getRecord_some hinv hr
      obtain ⟨rfl, rfl⟩ := Prod.mk.inj (hx.symm.trans hspec)
      exact ⟨_, .get hr, hleaves.isMap hsize rfl⟩
  | @isRecord rid out _ hx =>
    obtain ⟨out', f'', hspec, hleaves, hout⟩ := isRecord_spec hinv rid
    obtain ⟨rfl, rfl⟩ := Prod.mk.inj (hx.symm.trans hspec)
    refine ⟨_, ?_, hleaves.isMap hsize rfl⟩
    rcases hout with rfl | ⟨rfl, hpage⟩
    · exact .isRecord
    · exact .isRecordNoPage fun slotNo => if_neg hpage
  | reopen hl _ _ hfree =>
    obtain ⟨contents', hinv', hhdr, hrecords⟩ := reopenFile_spec hinv hl hfree
    refine ⟨_, .reopen, contents', hinv', ?_, ?_⟩
    · rw [hhdr, hsize]
    · rw [hhdr, ← hrecords]
      rfl

/-- **Every run** on the file is one on the map, with the same calls and the same results. -/
theorem FileStep.mapRun {f₀ : RmFileHandle} {m₀ : Rid → Option Bytes} (h₀ : IsMap n f₀ m₀)
    {tr : List (RmFileHandle × Call n)} (hrun : Trace (FileStep n) f₀ tr f)
    (hdef : ∀ x ∈ tr, x.2.2 ≠ .error .overflow) :
    ∃ tr' m, Trace (MapStep n) m₀ tr' m ∧ tr'.map (·.2) = tr.map (·.2) ∧ IsMap n f m := by
  induction hrun with
  | nil => exact ⟨[], m₀, .nil, rfl, h₀⟩
  | snoc _ hs ih =>
    obtain ⟨tr', m, hrun', hcalls, hmap⟩ := ih fun x hx => hdef x (List.mem_append_left _ hx)
    obtain ⟨m', hs', hmap'⟩ := hs.mapStep hmap (hdef _ (List.mem_append_right _ List.mem_cons_self))
    refine ⟨_, m', hrun'.snoc hs', ?_, hmap'⟩
    rw [List.map_append, List.map_append, hcalls]
    rfl

end Steps

/-- **A record file is a map** from rids to records: every run of `insert_record`,
`delete_record`, `update_record`, `get_record`, `is_record`, and of closing and opening the
file, is one on a map, with the same results, as long as no `int` overflows. -/
theorem heapFile_is_map (recordSize : ℤ) {file : DiskFile} (hfile : createFile recordSize = .ok file)
    {poolSize : ℕ} (hpool : 0 < poolSize) (disk : PageId → Option PageData) {fd2pageno : ℤ → ℤ}
    (hcounters : ∀ fd, 0 ≤ fd2pageno fd) (fd : ℤ) {tr : List (RmFileHandle × Call recordSize.toNat)} {f : RmFileHandle}
    (hrun : Trace (FileStep recordSize.toNat) (openFile (BufferPoolManager.create poolSize disk fd2pageno) file fd) tr f)
    (hdef : ∀ x ∈ tr, x.2.2 ≠ .error .overflow) :
    ∃ tr' m, Trace (MapStep recordSize.toNat) (fun _ => none) tr' m ∧ tr'.map (·.2) = tr.map (·.2) := by
  have hidle := Idle.create hpool disk hcounters
  obtain ⟨contents', hinv, hsize, hrecords⟩ := openFile_created fd hidle nofun hfile
  obtain ⟨tr', m, hrun', hcalls, -⟩ := FileStep.mapRun ⟨contents', hinv, hsize, hrecords⟩ hrun hdef
  exact ⟨tr', m, hrun', hcalls⟩

/-- A record is put into a new file, which has been closed and opened again, and read. -/
theorem heapFile_is_map_get : ∃ file f tr, createFile 4 = .ok file ∧
    Trace (FileStep 4) (openFile (BufferPoolManager.create 1 (fun _ => none) fun _ => 0) file 3) tr f ∧
    tr.map (·.2) = [(.reopen, .ok .done), (.insert ⟨[1, 2, 3, 4], rfl⟩, .ok (.rid ⟨1, 0⟩)),
      (.get ⟨1, 0⟩, .ok (.record [1, 2, 3, 4]))] ∧
    ∃ tr' m, Trace (MapStep 4) (fun _ => none) tr' m ∧ tr'.map (·.2) = tr.map (·.2) := by
  obtain ⟨file, hf⟩ : ∃ file : DiskFile, file =
    Function.update (fun _ => none) RM_FILE_HDR_PAGE (some (copyTo zeros 0 (createHdr 4).bytes)) := ⟨_, rfl⟩
  have hfile : createFile 4 = .ok file := by
    rw [hf]
    rfl
  obtain ⟨f₀, h₀⟩ : ∃ f₀, f₀ = openFile (BufferPoolManager.create 1 (fun _ => none) fun _ => 0) file 3 := ⟨_, rfl⟩
  obtain ⟨f₁, h₁⟩ : ∃ f₁, f₁ = reopenFile f₀ [] 4 := ⟨_, rfl⟩
  have htable : f₀.bpm.pageTable = fun _ => none := by
    rw [h₀]
    rfl
  have hlists : f₀.bpm.Lists f₀.fd [] := by
    refine ⟨List.nodup_nil, ?_⟩
    intro frame
    simp [htable]
  have hfree : ∀ p frame, f₀.bpm.pageTable p = some frame → p.fd = 4 → p.fd = f₀.fd := by
    intro p frame hp
    rw [htable] at hp
    cases hp
  have hreopen : FileStep 4 f₀ (.reopen, .ok .done) f₁ := h₁ ▸ .reopen hlists (by decide) (by decide) hfree
  obtain ⟨f₂, h₂⟩ : ∃ f₂, f₂ = (exec (insertRecord [1, 2, 3, 4]) f₁).2 := ⟨_, rfl⟩
  have hins : exec (insertRecord [1, 2, 3, 4]) f₁ = (.ok ⟨1, 0⟩, f₂) := by
    have hout : (exec (insertRecord [1, 2, 3, 4]) f₁).1 = .ok ⟨1, 0⟩ := by
      rw [h₁, h₀, hf]
      decide +kernel
    exact Prod.ext hout h₂.symm
  obtain ⟨f₃, h₃⟩ : ∃ f₃, f₃ = (exec (getRecord ⟨1, 0⟩) f₂).2 := ⟨_, rfl⟩
  have hget : exec (getRecord ⟨1, 0⟩) f₂ = (.ok [1, 2, 3, 4], f₃) := by
    have hout : (exec (getRecord ⟨1, 0⟩) f₂).1 = .ok [1, 2, 3, 4] := by
      rw [h₂, h₁, h₀, hf]
      decide +kernel
    exact Prod.ext hout h₃.symm
  have hinsert : FileStep 4 f₁ (.insert ⟨[1, 2, 3, 4], rfl⟩, .ok (.rid ⟨1, 0⟩)) f₂ :=
    @FileStep.insert 4 f₁ ⟨[1, 2, 3, 4], rfl⟩ (.ok ⟨1, 0⟩) f₂ hins
  have hrun := ((Trace.nil.snoc hreopen).snoc hinsert).snoc (@FileStep.get 4 f₂ ⟨1, 0⟩ (.ok [1, 2, 3, 4]) f₃ hget)
  rw [h₀] at hrun
  refine ⟨file, _, _, hfile, hrun, rfl, heapFile_is_map 4 hfile (by decide) _ (fun _ => le_refl _) 3 hrun ?_⟩
  intro x hx
  simp only [List.nil_append, List.cons_append, List.mem_cons, List.not_mem_nil, or_false] at hx
  rcases hx with rfl | rfl | rfl <;> nofun

end Rmdb.Record.Paged
