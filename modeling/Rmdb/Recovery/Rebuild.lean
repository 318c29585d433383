import Rmdb.Execution.CreateIndex
import Rmdb.System.Files

/-!
# Rebuilding the indexes

`rebuild_indexes` throws every index file away and makes a new one: it closes the open
index, destroys the file, creates it, opens it, inserts the key of every record that a scan
of the table finds, closes it and opens it again. The records are those of the table's file
when it starts, and nothing is left of the old files, whatever was in them: `close_index`
takes the pages of the file out of the buffer pool, so that the next file with the same
descriptor finds none (`Indexes.Ok.frames`).

An index file has a header, which is bytes, and nodes. While an index is open its nodes are
those of the handle, in the pool or on disk; all are on disk when it is closed. A header
that is longer than a page does not open, so that it never matters what its end would do to
the nodes. The operating system grants its calls.
-/

namespace Rmdb.Recovery

open Lib Record Index
open Execution (AgreesOn KeysDiffer recordsAt recordsAt_nil recordsAt_concat recordsAt_rids agreesOn_nil)
open Function (update update_self update_of_ne)

/-! ### Index files -/

/-- An index file. -/
structure IxFile where
  /-- What is written as header. -/
  header : Pages
  /-- The nodes. -/
  nodes : ℤ → Option (Node (List ℤ))
  /-- The size, in pages. -/
  numPages : ℤ

/-- An index that is open. -/
structure IxOpen where
  /-- The descriptor. -/
  fd : ℤ
  /-- `col_types_` and `col_lens_` of the header. -/
  cols : List (ColType × ℕ)
  /-- The handle. -/
  ih : IxIndexHandle (List ℤ)

/-- The index files and the handles. -/
structure Indexes where
  /-- The files. -/
  files : String → Option IxFile
  /-- `path2fd_` and `fd2path_`: the files that are open, with their descriptors. -/
  opened : List (String × ℤ)
  /-- The pages that the pool holds under a descriptor that is not in use. -/
  frames : ℤ → ℤ → Option (Node (List ℤ))
  /-- `ihs_`. -/
  ihs : String → Option IxOpen

/-- How `open` chooses a descriptor: one that is not in use. -/
structure Os where
  /-- The descriptor. -/
  openFd : List (String × ℤ) → ℤ
  /-- No open file has it. -/
  fresh : ∀ opened, ∀ e ∈ opened, e.2 ≠ openFd opened

namespace Indexes

/-- Is there an entry in `path2fd_`? -/
def isOpen (path : String) (s : Indexes) : Bool := s.opened.any fun e => e.1 = path

/-- The entry in `fd2path_`. -/
def pathOf (fd : ℤ) (s : Indexes) : Option String := (s.opened.find? fun e => e.2 = fd).map (·.1)

/-- `create_file`. -/
def createFile (path : String) (file : IxFile) (s : Indexes) : Option Indexes :=
  if (s.files path).isSome then none else some { s with files := update s.files path (some file) }

/-- `open_file`. -/
def openFile (os : Os) (path : String) (s : Indexes) : Option (ℤ × Indexes) :=
  let fd := os.openFd s.opened
  if s.isOpen path || (s.files path).isNone then none
  else some (fd, { s with opened := (path, fd) :: s.opened })

/-- `close_file`. -/
def closeFile (fd : ℤ) (s : Indexes) : Option Indexes :=
  if (s.pathOf fd).isSome then some { s with opened := s.opened.filter fun e => e.2 ≠ fd } else none

/-- `destroy_file`. -/
def destroyFile (path : String) (s : Indexes) : Option Indexes :=
  if s.isOpen path || (s.files path).isNone then none else some { s with files := update s.files path none }

/-- A file is written. -/
def write (path : String) (file : IxFile) (s : Indexes) : Indexes := { s with files := update s.files path (some file) }

/-- `delete_all_pages`. -/
def deleteAllPages (fd : ℤ) (s : Indexes) : Indexes := { s with frames := update s.frames fd fun _ => none }

/-- What `fetch_page` finds: a page that is in the pool, or else the one on disk. -/
def fetch (fd : ℤ) (file : IxFile) (s : Indexes) (pageNo : ℤ) : Option (Node (List ℤ)) :=
  (s.frames fd pageNo).or (file.nodes pageNo)

end Indexes

/-- A file without pages. -/
def IxFile.empty : IxFile := ⟨fun _ => none, fun _ => none, 0⟩

/-- What `create_index` writes: the header, the leaf header and an empty root. -/
def IxFile.created (cols : List (ColType × ℕ)) : IxFile where
  header := writeBytes IxFile.empty.header IX_FILE_HDR_PAGE (createHdr cols).serialize
  nodes := (IxIndexHandle.createIndex (btreeOrderOf (colTotLen cols))).pages
  numPages := IX_INIT_NUM_PAGES

/-- What `close_index` leaves: all pages have been written then. -/
def IxFile.closed (file : IxFile) (h : IxOpen) : IxFile where
  header := h.ih.closeHdr h.cols file.header
  nodes := h.ih.pages
  numPages := max file.numPages h.ih.fd2pageno

/-- `create_index`. -/
def createIndex (os : Os) (path : String) (cols : List (ColType × ℕ)) (s : Indexes) : Option Indexes := do
  let s ← s.createFile path .empty
  let (fd, s) ← s.openFile os path
  if IX_MAX_COL_LEN < colTotLen cols then none
  else if btreeOrderOf (colTotLen cols) ≤ 2 then none
  else (s.write path (.created cols)).closeFile fd

/-- `open_index`. -/
def openIndex (os : Os) (path : String) (s : Indexes) : Option (IxOpen × Indexes) := do
  let (fd, s) ← s.openFile os path
  let file ← s.files path
  let hdr ← openHdr file.header
  some (⟨fd, hdr.colTypes.zip (hdr.colLens.map Int.toNat), hdr.handle file.numPages (s.fetch fd file)⟩, s)

/-- `close_index`. -/
def closeIndex (h : IxOpen) (s : Indexes) : Option Indexes := do
  let path ← s.pathOf h.fd
  let file ← s.files path
  ((s.write path (file.closed h)).deleteAllPages h.fd).closeFile h.fd

/-- `insert_entry`. -/
def IxOpen.insertEntry (h : IxOpen) (key : Bytes) (rid : Rid) : Option IxOpen :=
  (h.ih.insertEntry (keyVal h.cols key) rid).map fun out => { h with ih := out.1 }

/-! ### `rebuild_indexes` -/

/-- The loop over the records, with as many rounds left. -/
def insertAll (f : RmFileHandle) (index : IndexMeta) : ℕ → Rid → IxOpen → Option IxOpen
  | 0, _, _ => none
  | rounds + 1, rid, h =>
    if f.scanIsEnd rid then some h
    else
      match f.getRecord rid with
      | .error _ => none
      | .ok record => do
        let h ← h.insertEntry (index.makeIndexKey record) rid
        match f.scanNext rid with
        | .error _ => none
        | .ok rid => insertAll f index rounds rid h

/-- The open index is closed and forgotten. -/
def closeOpen (ixName : String) (s : Indexes) : Option Indexes :=
  match s.ihs ixName with
  | some h => (closeIndex h s).map fun s => { s with ihs := update s.ihs ixName none }
  | none => some s

/-- The file of the index is removed, if it exists. -/
def destroyOld (ixName : String) (s : Indexes) : Option Indexes :=
  if (s.files ixName).isSome then s.destroyFile ixName else some s

/-- The index is made anew. -/
def remakeIndex (os : Os) (ixName : String) (cols : List (ColType × ℕ)) (s : Indexes) : Option (IxOpen × Indexes) := do
  let s ← closeOpen ixName s
  let s ← destroyOld ixName s
  let s ← createIndex os ixName cols s
  let (h, s) ← openIndex os ixName s
  some (h, { s with ihs := update s.ihs ixName (some h) })

/-- It is closed, and opened again. -/
def reopenIndex (os : Os) (ixName : String) (h : IxOpen) (s : Indexes) : Option Indexes := do
  let s ← closeIndex h s
  let (h, s) ← openIndex os ixName { s with ihs := update s.ihs ixName none }
  some { s with ihs := update s.ihs ixName (some h) }

/-- The round for an index. -/
def rebuildIndex (os : Os) (rounds : ℕ) (tabName : String) (f : RmFileHandle) (index : IndexMeta) (s : Indexes) :
    Option Indexes := do
  let ixName := Fs.IxManager.getIndexName tabName index.colNames
  let (h, s) ← remakeIndex os ixName index.shape s
  match f.scanBegin with
  | .error _ => none
  | .ok rid =>
    let h ← insertAll f index rounds rid h
    reopenIndex os ixName h { s with ihs := update s.ihs ixName (some h) }

/-- `rebuild_indexes`, with the entries of `fhs_` in their order. -/
def rebuildIndexes (os : Os) (rounds : ℕ) (db : DbMeta) (fhs : List (String × RmFileHandle)) (s : Indexes) :
    Option Indexes :=
  fhs.foldlM (fun s entry =>
    match db.getTable entry.1 with
    | .error _ => none
    | .ok table => table.indexes.foldlM (fun s index => rebuildIndex os rounds entry.1 entry.2 index s) s) s

/-! ### What is inserted -/

/-- The entries that are inserted. -/
def indexEntries (f : RmFileHandle) (index : IndexMeta) : List (Op (List ℤ)) :=
  f.rids.map fun rid => .insert (index.key ((f.records rid).getD [])) rid

section Entries

variable {f : RmFileHandle} {index : IndexMeta}

/-- The loop runs over the records that the scan visits. -/
theorem insertAll_eq {rid rid' : Rid} {L : List Rid} (hv : f.rmScan.Visits rid L rid') (hend : f.rmScan.isEnd rid' = true)
    (hrec : ∀ r ∈ L, (f.records r).isSome) : ∀ {rounds : ℕ} {h : IxOpen} {ih : IxIndexHandle (List ℤ)},
      h.cols = index.shape → L.length < rounds →
      runOps h.ih (L.map fun r => .insert (index.key ((f.records r).getD [])) r) = some ih →
      insertAll f index rounds rid h = some { h with ih := ih } := by
  induction hv with
  | nil rid =>
    rintro (_ | rounds) h ih - hlt hrun
    · cases hlt
    · have hend' : f.scanIsEnd rid = true := hend
      obtain rfl : h.ih = ih := Option.some.inj hrun
      rw [insertAll, if_pos hend']
  | @cons rid next rid' r L hgo hread hnext _ hrest =>
    rintro (_ | rounds) h ih hcols hlt hrun
    · cases hlt
    · obtain rfl : rid = r := Except.ok.inj hread
      obtain ⟨rec, hrecord⟩ := Option.isSome_iff_exists.mp (hrec rid List.mem_cons_self)
      have hnext' : f.scanNext rid = .ok next := hnext
      have hgo' : f.scanIsEnd rid = false := hgo
      rw [runOps, List.map_cons, List.foldlM_cons, hrecord] at hrun
      obtain ⟨ih₁, hop, hops⟩ := Option.bind_eq_some_iff.mp hrun
      obtain ⟨out, hout, rfl⟩ := Option.map_eq_some_iff.mp hop
      have hinsert : h.insertEntry (index.makeIndexKey rec) rid = some { h with ih := out.1 } := by
        rw [IxOpen.insertEntry, hcols]
        exact Option.map_eq_some_iff.mpr ⟨out, hout, rfl⟩
      simp only [insertAll, hgo', Bool.false_eq_true, if_false, RmFileHandle.getRecord_eq hrecord, hinsert, hnext',
        Option.bind_eq_bind, Option.bind_some]
      exact hrest hend (fun r hr => hrec r (List.mem_cons_of_mem _ hr)) (h := { h with ih := out.1 }) hcols
        (Nat.lt_of_succ_lt_succ hlt) hops

/-- The entries of some records, as far as they have been inserted. -/
theorem agreesOn_inserted (hkeys : KeysDiffer index f.records) : ∀ {L : List Rid}, L.Nodup → (∀ r ∈ L, (f.records r).isSome) →
    AgreesOn index (recordsAt f L)
      ((L.map fun r => Op.insert (index.key ((f.records r).getD [])) r).foldl Op.applyMap fun _ => none) := by
  intro L
  induction L using List.reverseRecOn with
  | nil =>
    intro _ _
    rw [recordsAt_nil]
    exact agreesOn_nil index
  | append_singleton L r ih =>
    intro hnodup hrecs
    obtain ⟨hL, -, hdisjoint⟩ := List.nodup_append.mp hnodup
    have hnot : r ∉ L := fun hr => hdisjoint r hr r List.mem_cons_self rfl
    have hagree := ih hL fun r hr => hrecs r (List.mem_append_left _ hr)
    obtain ⟨rec, hrec⟩ := Option.isSome_iff_exists.mp (hrecs r (List.mem_append_right _ List.mem_cons_self))
    rw [List.map_append, List.map_singleton, List.foldl_concat, recordsAt_concat hrec, hrec, Option.getD_some]
    refine hagree.insert (if_neg hnot) ?_
    -- the key is not there: its record would be another one with the same key
    rw [Option.eq_none_iff_forall_ne_some]
    intro rid hrid
    obtain ⟨rec', hrec', hkey⟩ := (hagree _ _).mp hrid
    obtain ⟨hmem, hrec'⟩ := Option.ite_none_right_eq_some.mp hrec'
    exact hnot (hkeys hrec' hrec hkey ▸ hmem)

/-- **The entries of all records** make an index that agrees with the table. -/
theorem agreesOn_entries (hkeys : KeysDiffer index f.records) :
    AgreesOn index f.records ((indexEntries f index).foldl Op.applyMap fun _ => none) := by
  have hagree := agreesOn_inserted hkeys f.nodup_rids fun r hr => RmFileHandle.mem_rids.mp hr
  rwa [recordsAt_rids] at hagree

end Entries

/-! ### The files -/

/-- Every open index file has its handle, a descriptor is that of one file, and the pool has no page under any other. -/
structure Indexes.Ok (s : Indexes) : Prop where
  /-- The file of a handle is open. -/
  handle : ∀ {name h}, s.ihs name = some h → (name, h.fd) ∈ s.opened ∧ (s.files name).isSome
  /-- What is open has a handle. -/
  opened : ∀ {e}, e ∈ s.opened → ∃ h, s.ihs e.1 = some h ∧ h.fd = e.2
  /-- No two files have one descriptor. -/
  fds : ∀ {e e'}, e ∈ s.opened → e' ∈ s.opened → e.2 = e'.2 → e = e'
  /-- `close_index` has taken the pages out. -/
  frames : ∀ {fd}, (∀ e ∈ s.opened, e.2 ≠ fd) → s.frames fd = fun _ => none

/-- Nothing is changed but the index of that name. -/
def OnlyAt (ixName : String) (s s' : Indexes) : Prop :=
  ∀ name, name ≠ ixName → s'.ihs name = s.ihs name ∧ s'.files name = s.files name

theorem OnlyAt.trans {ixName : String} {s s₁ s' : Indexes} (h : OnlyAt ixName s s₁) (h' : OnlyAt ixName s₁ s') :
    OnlyAt ixName s s' := fun name hne =>
  ⟨(h' name hne).1.trans (h name hne).1, (h' name hne).2.trans (h name hne).2⟩

section Files

variable (os : Os) {s : Indexes} {ixName : String} {h : IxOpen} {file : IxFile}

theorem Indexes.isOpen_eq_false : s.isOpen ixName = false ↔ ∀ e ∈ s.opened, e.1 ≠ ixName := by
  simp only [isOpen, List.any_eq_false, decide_eq_true_eq]

theorem Indexes.Ok.closed_of_none (hok : s.Ok) (hnone : s.ihs ixName = none) : s.isOpen ixName = false :=
  Indexes.isOpen_eq_false.mpr fun e he heq => by
    obtain ⟨h, hh, -⟩ := hok.opened he
    rw [heq, hnone] at hh
    cases hh

theorem Indexes.Ok.pathOf_eq (hok : s.Ok) {e : String × ℤ} (he : e ∈ s.opened) : s.pathOf e.2 = some e.1 := by
  have hsome : (s.opened.find? fun e' => e'.2 = e.2).isSome := List.find?_isSome.mpr ⟨e, he, decide_eq_true rfl⟩
  obtain ⟨e', he'⟩ := Option.isSome_iff_exists.mp hsome
  have hmem := List.mem_of_find?_eq_some he'
  have hfd : decide (e'.2 = e.2) = true := List.find?_some (p := fun e' : String × ℤ => decide (e'.2 = e.2)) he'
  obtain rfl := hok.fds hmem he (of_decide_eq_true hfd)
  rw [pathOf, he', Option.map_some]

/-- An index whose file is not open gets a descriptor under which the pool has no page: its nodes are those on disk. -/
theorem openIndex_eq {hdr : IxFileHdr} (hok : s.Ok) (hnone : s.ihs ixName = none) (hfile : s.files ixName = some file)
    (hhdr : openHdr file.header = some hdr) :
    openIndex os ixName s = some (⟨os.openFd s.opened, hdr.colTypes.zip (hdr.colLens.map Int.toNat),
      hdr.handle file.numPages file.nodes⟩, { s with opened := (ixName, os.openFd s.opened) :: s.opened }) := by
  have hopen : s.openFile os ixName =
      some (os.openFd s.opened, { s with opened := (ixName, os.openFd s.opened) :: s.opened }) := by
    rw [Indexes.openFile, hok.closed_of_none hnone, hfile]
    rfl
  have hfetch : Indexes.fetch (os.openFd s.opened) file
      { s with opened := (ixName, os.openFd s.opened) :: s.opened } = file.nodes := by
    funext pageNo
    rw [Indexes.fetch, hok.frames (os.fresh s.opened)]
    rfl
  rw [openIndex, hopen]
  simp only [Option.bind_eq_bind, Option.bind_some, hfile, hhdr, hfetch]

/-- A new handle. -/
theorem Indexes.Ok.opens (hok : s.Ok) (hnone : s.ihs ixName = none) (hfile : (s.files ixName).isSome)
    (hfd : h.fd = os.openFd s.opened) :
    Indexes.Ok { s with opened := (ixName, os.openFd s.opened) :: s.opened, ihs := update s.ihs ixName (some h) } where
  handle {name h'} hh := by
    by_cases heq : name = ixName
    · subst heq
      have hh' : update s.ihs name (some h) name = some h' := hh
      rw [update_self] at hh'
      obtain rfl := Option.some.inj hh'
      exact ⟨hfd ▸ List.mem_cons_self, hfile⟩
    · obtain ⟨hmem, hsome⟩ := hok.handle ((update_of_ne heq ..).symm.trans hh)
      exact ⟨List.mem_cons_of_mem _ hmem, hsome⟩
  opened {e} he := by
    rcases List.mem_cons.mp he with rfl | he
    · exact ⟨h, update_self .., hfd⟩
    · have hne := Indexes.isOpen_eq_false.mp (hok.closed_of_none hnone) e he
      obtain ⟨h', hh', hfd'⟩ := hok.opened he
      exact ⟨h', (update_of_ne hne ..).trans hh', hfd'⟩
  fds {e e'} he he' heq := by
    rcases List.mem_cons.mp he with rfl | he <;> rcases List.mem_cons.mp he' with rfl | he'
    · rfl
    · exact absurd heq.symm (os.fresh _ _ he')
    · exact absurd heq (os.fresh _ _ he)
    · exact hok.fds he he' heq
  frames hfree := hok.frames fun e he => hfree e (List.mem_cons_of_mem _ he)

theorem Indexes.Ok.write (hok : s.Ok) (ixName : String) (file : IxFile) : (s.write ixName file).Ok := by
  refine ⟨fun {name h} hh => ⟨(hok.handle hh).1, ?_⟩, hok.opened, hok.fds, hok.frames⟩
  by_cases heq : name = ixName
  · rw [heq]
    exact congrArg Option.isSome (update_self ixName (some file) s.files)
  · exact (congrArg Option.isSome (update_of_ne heq ..)).trans (hok.handle hh).2

theorem eq_of_update_none {α : Type} {m : String → Option α} {name : String} {x : α}
    (hx : update m ixName none name = some x) : name ≠ ixName ∧ m name = some x := by
  have hne : name ≠ ixName := fun heq => by
    rw [heq, update_self] at hx
    cases hx
  exact ⟨hne, by rwa [update_of_ne hne] at hx⟩

/-- A handle is forgotten after its file has been closed. -/
theorem Indexes.Ok.closes (hok : s.Ok) (hh : s.ihs ixName = some h) (file : IxFile) : Indexes.Ok
    { files := update s.files ixName (some file)
      opened := s.opened.filter fun e => e.2 ≠ h.fd
      frames := update s.frames h.fd fun _ => none
      ihs := update s.ihs ixName none } where
  handle {name h₁} hh₁ := by
    obtain ⟨hne, hh₁⟩ := eq_of_update_none hh₁
    obtain ⟨hmem₁, hsome⟩ := hok.handle hh₁
    refine ⟨List.mem_filter.mpr ⟨hmem₁, decide_eq_true fun heq => hne ?_⟩, ?_⟩
    · exact congrArg Prod.fst (hok.fds hmem₁ (hok.handle hh).1 heq)
    · exact (congrArg Option.isSome (update_of_ne hne ..)).trans hsome
  opened {e} he := by
    obtain ⟨he, hfd⟩ := List.mem_filter.mp he
    obtain ⟨h₁, hh₁, hfd₁⟩ := hok.opened he
    refine ⟨h₁, (update_of_ne (fun heq => of_decide_eq_true hfd ?_) ..).trans hh₁, hfd₁⟩
    rw [heq, hh] at hh₁
    rw [Option.some.inj hh₁, hfd₁]
  fds he he' := hok.fds (List.mem_of_mem_filter he) (List.mem_of_mem_filter he')
  frames {fd} hfree := by
    by_cases heq : fd = h.fd
    · exact heq ▸ update_self ..
    · refine (update_of_ne heq ..).trans (hok.frames ?_)
      intro e he hfd
      exact hfree e (List.mem_filter.mpr ⟨he, decide_eq_true fun hfd' => heq (hfd.symm.trans hfd')⟩) hfd

/-- The handle of an open index changes. -/
theorem Indexes.Ok.refill {h' : IxOpen} (hok : s.Ok) (hh : s.ihs ixName = some h) (hfd : h'.fd = h.fd) :
    Indexes.Ok { s with ihs := update s.ihs ixName (some h') } where
  handle {name h₁} hh₁ := by
    by_cases heq : name = ixName
    · subst heq
      have hh₂ : update s.ihs name (some h') name = some h₁ := hh₁
      rw [update_self] at hh₂
      obtain rfl := Option.some.inj hh₂
      exact hfd ▸ hok.handle hh
    · exact hok.handle ((update_of_ne heq ..).symm.trans hh₁)
  opened {e} he := by
    obtain ⟨h₁, hh₁, hfd₁⟩ := hok.opened he
    by_cases heq : e.1 = ixName
    · rw [heq, hh] at hh₁
      obtain rfl := Option.some.inj hh₁
      exact ⟨h', heq ▸ update_self .., hfd.trans hfd₁⟩
    · exact ⟨h₁, (update_of_ne heq ..).trans hh₁, hfd₁⟩
  fds := hok.fds
  frames := hok.frames

/-- What `close_index` leaves. -/
theorem closeIndex_eq (hok : s.Ok) (hh : s.ihs ixName = some h) (hfile : s.files ixName = some file) {h' : IxOpen}
    (hfd : h'.fd = h.fd) : closeIndex h' s = some
      { files := update s.files ixName (some (file.closed h'))
        opened := s.opened.filter fun e => e.2 ≠ h.fd
        frames := update s.frames h.fd fun _ => none
        ihs := s.ihs } := by
  have hpath : s.pathOf h'.fd = some ixName := by
    rw [hfd]
    exact hok.pathOf_eq (hok.handle hh).1
  have hsome : (((s.write ixName (file.closed h')).deleteAllPages h'.fd).pathOf h'.fd).isSome :=
    (congrArg Option.isSome hpath).trans rfl
  rw [closeIndex, hpath]
  simp only [Option.bind_eq_bind, Option.bind_some, hfile]
  rw [Indexes.closeFile, if_pos hsome, hfd]
  rfl

/-! ### The round for an index -/

/-- What `create_index` and `open_index` accept of the columns: the key is short enough, and the header fits into a page. That a
file can have the name, as `create_file` asks, limits the number of columns further. -/
structure Accepted (cols : List (ColType × ℕ)) : Prop where
  /-- The assertions of `create_index`. -/
  totLen : colTotLen cols ≤ IX_MAX_COL_LEN
  /-- `open_index` reads one page. -/
  colNum : cols.length ≤ 507

theorem closeOpen_ok (hok : s.Ok) (ixName : String) :
    ∃ s', closeOpen ixName s = some s' ∧ s'.Ok ∧ s'.ihs ixName = none ∧ OnlyAt ixName s s' := by
  rcases hh : s.ihs ixName with _ | h
  · exact ⟨s, by simp only [closeOpen, hh], hok, hh, fun name _ => ⟨rfl, rfl⟩⟩
  · obtain ⟨file, hfile⟩ := Option.isSome_iff_exists.mp (hok.handle hh).2
    refine ⟨_, ?_, hok.closes hh (file.closed h), update_self .., fun name hne => ⟨update_of_ne hne .., update_of_ne hne ..⟩⟩
    simp only [closeOpen, hh, closeIndex_eq hok hh hfile rfl, Option.map_some]

/-- The file is removed, if it is there. -/
theorem destroy_ok (hok : s.Ok) (hnone : s.ihs ixName = none) :
    ∃ s', destroyOld ixName s = some s' ∧ s'.Ok ∧ s'.ihs ixName = none ∧ s'.files ixName = none ∧ OnlyAt ixName s s' := by
  by_cases hsome : (s.files ixName).isSome
  · refine ⟨{ s with files := update s.files ixName none }, ?_, ⟨fun {name h} hh => ?_, hok.opened, hok.fds, hok.frames⟩,
      hnone, update_self .., fun name hne => ⟨rfl, update_of_ne hne ..⟩⟩
    · obtain ⟨file, hfile⟩ := Option.isSome_iff_exists.mp hsome
      rw [destroyOld, if_pos hsome, Indexes.destroyFile, hok.closed_of_none hnone, hfile]
      rfl
    · have hne : name ≠ ixName := fun heq => by
        rw [heq] at hh
        exact nomatch hnone.symm.trans hh
      exact ⟨(hok.handle hh).1, (congrArg Option.isSome (update_of_ne hne ..)).trans (hok.handle hh).2⟩
  · exact ⟨s, if_neg hsome, hok, hnone, Option.not_isSome_iff_eq_none.mp hsome, fun name _ => ⟨rfl, rfl⟩⟩

theorem createIndex_eq {cols : List (ColType × ℕ)} (hok : s.Ok) (hnone : s.ihs ixName = none)
    (hfile : s.files ixName = none) (hacc : Accepted cols) :
    createIndex os ixName cols s = some { s with files := update s.files ixName (some (.created cols)) } := by
  have hcreate : s.createFile ixName .empty = some { s with files := update s.files ixName (some .empty) } := by
    rw [Indexes.createFile, hfile]
    rfl
  have hopen : Indexes.openFile os ixName { s with files := update s.files ixName (some .empty) } =
      some (os.openFd s.opened, { s with
        files := update s.files ixName (some .empty)
        opened := (ixName, os.openFd s.opened) :: s.opened }) := by
    have hclosed : Indexes.isOpen ixName { s with files := update s.files ixName (some .empty) } = false :=
      hok.closed_of_none hnone
    rw [Indexes.openFile, hclosed]
    simp only [update_self]
    rfl
  have hfilter : (((ixName, os.openFd s.opened) :: s.opened).filter fun e => e.2 ≠ os.openFd s.opened) = s.opened := by
    rw [List.filter_cons_of_neg (by simp)]
    exact List.filter_eq_self.mpr fun e he => decide_eq_true (os.fresh _ e he)
  rw [createIndex, hcreate, Option.bind_eq_bind, Option.bind_some, hopen, Option.bind_eq_bind, Option.bind_some]
  dsimp only
  rw [if_neg (not_lt.mpr hacc.totLen), if_neg (not_le.mpr (btreeOrderOf_fits hacc.totLen).1), Indexes.closeFile, if_pos]
  · simp only [Indexes.write, hfilter, Function.update_idem]
  · simp only [Indexes.pathOf, Indexes.write, List.find?_cons, decide_true, Option.map_some, Option.isSome_some]

theorem zip_fileHdr (ih : IxIndexHandle (List ℤ)) (cols : List (ColType × ℕ)) :
    (ih.fileHdr cols).colTypes.zip ((ih.fileHdr cols).colLens.map Int.toNat) = cols := by
  change (cols.map (·.1)).zip ((cols.map fun c => (c.2 : ℤ)).map Int.toNat) = cols
  induction cols with
  | nil => rfl
  | cons c cols ih => rw [List.map_cons, List.map_cons, List.map_cons, List.zip_cons_cons, ih, Int.toNat_natCast]

/-- A file that an index has been written to opens as that index. -/
theorem openIndex_written {cols : List (ColType × ℕ)} {ih : IxIndexHandle (List ℤ)} (hok : s.Ok)
    (hnone : s.ihs ixName = none) (hsame : ReopensSame cols ih) {header : Pages} {numPages : ℤ}
    (hfile : s.files ixName = some ⟨ih.closeHdr cols header, ih.pages, numPages⟩) (hnum : numPages ≤ ih.numPages) :
    openIndex os ixName s = some (⟨os.openFd s.opened, cols, ih⟩,
      { s with opened := (ixName, os.openFd s.opened) :: s.opened }) := by
  rw [openIndex_eq os hok hnone hfile (hsame.header header), zip_fileHdr, hsame.handle numPages hnum]

/-- An index that has been created and filled is reopened as it was. -/
theorem run_reopens {cols : List (ColType × ℕ)} {ops : List (Op (List ℤ))} {ih : IxIndexHandle (List ℤ)}
    (hacc : Accepted cols) (hrun : runOps (IxIndexHandle.createIndex (btreeOrderOf (colTotLen cols))) ops = some ih)
    (hpages : ih.numPages < 2 ^ 31) : ReopensSame cols ih ∧ ih.numPages = ih.fd2pageno ∧ IX_INIT_NUM_PAGES ≤ ih.numPages := by
  obtain ⟨ih', hrun', horder, hcount, hlinks⟩ := run_header (btreeOrderOf_fits hacc.totLen).1 ops
  obtain rfl : ih = ih' := Option.some.inj (hrun.symm.trans hrun')
  have hroot := hlinks ih.rootPage List.mem_cons_self
  have hthree : IX_INIT_NUM_PAGES = 3 := rfl
  refine ⟨reopensSame hacc.colNum hacc.totLen horder hcount ⟨?_, hpages⟩ hlinks, hcount, ?_⟩ <;> omega

theorem length_le_colTotLen : ∀ {cols : List (ColType × ℕ)}, (∀ c ∈ cols, 1 ≤ c.2) → cols.length ≤ colTotLen cols
  | [], _ => Nat.zero_le _
  | c :: cols, hpos => by
    have hc := hpos c List.mem_cons_self
    have hcols := length_le_colTotLen fun d hd => hpos d (List.mem_cons_of_mem _ hd)
    simp only [colTotLen, List.map_cons, List.sum_cons, List.length_cons] at hcols ⊢
    omega

/-- **What is accepted** is exactly what `create_index` creates and `open_index` then opens, for a name that a file can have. -/
theorem accepted_iff {cols : List (ColType × ℕ)} (hpos : ∀ c ∈ cols, 1 ≤ c.2) (hok : s.Ok) (hnone : s.ihs ixName = none)
    (hfile : s.files ixName = none) :
    Accepted cols ↔ ∃ s₁ out, createIndex os ixName cols s = some s₁ ∧ openIndex os ixName s₁ = some out := by
  constructor
  · intro hacc
    obtain ⟨hsame, -⟩ := run_reopens hacc (show runOps _ [] = some _ from rfl) (show IX_INIT_NUM_PAGES < 2 ^ 31 by decide)
    exact ⟨_, _, createIndex_eq os hok hnone hfile hacc,
      openIndex_written os (hok.write ixName (.created cols)) hnone hsame (update_self ..) le_rfl⟩
  · rintro ⟨s₁, out, hcreate, hopen⟩
    obtain ⟨s₂, hs₂, hcreate⟩ := Option.bind_eq_some_iff.mp hcreate
    obtain ⟨⟨fd, s₃⟩, hs₃, hcreate⟩ := Option.bind_eq_some_iff.mp hcreate
    dsimp only at hcreate
    split_ifs at hcreate with htot horder
    refine ⟨not_lt.mp htot, ?_⟩
    have hlen := (length_le_colTotLen hpos).trans (not_lt.mp htot)
    have hfile₁ : s₁.files ixName = some (.created cols) := by
      rw [Indexes.closeFile] at hcreate
      split_ifs at hcreate
      obtain rfl := Option.some.inj hcreate
      exact update_self ..
    -- the header that is read says how many columns there are, and fits into the page
    obtain ⟨⟨fd', s₄⟩, hs₄, hopen⟩ := Option.bind_eq_some_iff.mp hopen
    rw [Indexes.openFile] at hs₄
    split_ifs at hs₄
    obtain ⟨rfl, rfl⟩ := Prod.mk.inj (Option.some.inj hs₄)
    obtain ⟨file, hfile₄, hopen⟩ := Option.bind_eq_some_iff.mp hopen
    obtain rfl := Option.some.inj (hfile₁.symm.trans hfile₄)
    obtain ⟨hdr, hhdr, -⟩ := Option.bind_eq_some_iff.mp hopen
    have hint : InInt (createHdr cols).colNum := by
      have hmax : IX_MAX_COL_LEN = 512 := rfl
      change -2 ^ 31 ≤ (cols.length : ℤ) ∧ (cols.length : ℤ) < 2 ^ 31
      omega
    have hnum : hdr.colNum = cols.length := (openHdr_written hhdr).2 hint
    obtain ⟨hpage, -⟩ := IxFileHdr.deserialize_bounds hhdr
    rw [hnum, Int.toNat_natCast, readBytes, length_cellsAt, Storage.PAGE_SIZE] at hpage
    omega

/-- An index of the table, as it is when its entries have been inserted into an empty one. -/
def Filled (f : RmFileHandle) (index : IndexMeta) (ih : IxIndexHandle (List ℤ)) : Prop :=
  runOps (IxIndexHandle.createIndex (btreeOrderOf (colTotLen index.shape))) (indexEntries f index) = some ih

theorem onlyAt_update (s : Indexes) (ixName : String) (file : Option IxFile) (h : Option IxOpen)
    (opened : List (String × ℤ)) (frames : ℤ → ℤ → Option (Node (List ℤ))) :
    OnlyAt ixName s ⟨update s.files ixName file, opened, frames, update s.ihs ixName h⟩ :=
  fun _ hne => ⟨update_of_ne hne .., update_of_ne hne ..⟩

/-- The new index is empty, and open. -/
theorem remakeIndex_ok {cols : List (ColType × ℕ)} (hok : s.Ok) (hacc : Accepted cols) (ixName : String) :
    ∃ s' fd, remakeIndex os ixName cols s = some (⟨fd, cols, .createIndex (btreeOrderOf (colTotLen cols))⟩, s') ∧
      s'.Ok ∧ OnlyAt ixName s s' ∧ s'.files ixName = some (.created cols) ∧
      s'.ihs ixName = some ⟨fd, cols, .createIndex (btreeOrderOf (colTotLen cols))⟩ := by
  obtain ⟨hsame, -⟩ := run_reopens hacc (show runOps _ [] = some _ from rfl) (show IX_INIT_NUM_PAGES < 2 ^ 31 by decide)
  obtain ⟨s₁, hclose, hok₁, hnone₁, honly₁⟩ := closeOpen_ok hok ixName
  obtain ⟨s₂, hdestroy, hok₂, hnone₂, hfile₂, honly₂⟩ := destroy_ok hok₁ hnone₁
  set s₃ : Indexes := s₂.write ixName (.created cols)
  have hcreate : createIndex os ixName cols s₂ = some s₃ := createIndex_eq os hok₂ hnone₂ hfile₂ hacc
  have hfile₃ : s₃.files ixName = some (.created cols) := update_self ..
  have hok₃ : s₃.Ok := hok₂.write ixName _
  have hopen := openIndex_written os hok₃ hnone₂ hsame hfile₃ le_rfl
  refine ⟨_, os.openFd s₃.opened, ?_, hok₃.opens os hnone₂ (congrArg Option.isSome hfile₃) rfl,
    (honly₁.trans honly₂).trans (onlyAt_update s₂ ixName _ _ _ _), hfile₃, update_self ..⟩
  simp only [remakeIndex, hclose, hdestroy, hcreate, hopen, Option.bind_eq_bind, Option.bind_some]

/-- The index that is reopened is the one that was closed. -/
theorem reopenIndex_ok (hok : s.Ok) (hh : s.ihs ixName = some h) (hfile : s.files ixName = some file)
    (hsame : ReopensSame h.cols h.ih) (hcount : h.ih.numPages = h.ih.fd2pageno) (hnum : file.numPages ≤ h.ih.numPages) :
    ∃ s' fd, reopenIndex os ixName h s = some s' ∧ s'.Ok ∧ OnlyAt ixName s s' ∧
      s'.ihs ixName = some { h with fd := fd } := by
  have hclose := closeIndex_eq hok hh hfile (rfl : h.fd = h.fd)
  have hok₁ := hok.closes hh (file.closed h)
  set s₁ : Indexes :=
    { files := update s.files ixName (some (file.closed h))
      opened := s.opened.filter fun e => e.2 ≠ h.fd
      frames := update s.frames h.fd fun _ => none
      ihs := update s.ihs ixName none } with hs₁
  have hfile₁ : s₁.files ixName = some (file.closed h) := update_self ..
  have hnone₁ : s₁.ihs ixName = none := update_self ..
  have hopen := openIndex_written os hok₁ hnone₁ hsame hfile₁ (max_le hnum hcount.ge)
  refine ⟨_, os.openFd s₁.opened, ?_, hok₁.opens os hnone₁ (congrArg Option.isSome hfile₁) rfl, ?_, update_self ..⟩
  · simp only [reopenIndex, hclose, Option.bind_eq_bind, Option.bind_some]
    rw [← hs₁, hopen, Option.bind_some]
  · refine OnlyAt.trans (onlyAt_update s ixName _ _ _ _ : OnlyAt ixName s s₁) fun name hne => ⟨update_of_ne hne .., rfl⟩

/-- **One round** makes the index of the records, and opens it. -/
theorem rebuildIndex_ok {rounds : ℕ} {tabName : String} {f : RmFileHandle} {index : IndexMeta}
    {ih : IxIndexHandle (List ℤ)} (hok : s.Ok) (hacc : Accepted index.shape) (hrounds : f.rids.length < rounds)
    (hfilled : Filled f index ih) (hpages : ih.numPages < 2 ^ 31) :
    ∃ s' fd, rebuildIndex os rounds tabName f index s = some s' ∧ s'.Ok ∧
      OnlyAt (Fs.IxManager.getIndexName tabName index.colNames) s s' ∧
      s'.ihs (Fs.IxManager.getIndexName tabName index.colNames) = some ⟨fd, index.shape, ih⟩ := by
  set ixName := Fs.IxManager.getIndexName tabName index.colNames with hname
  obtain ⟨hsame, hcount, hinit⟩ := run_reopens hacc hfilled hpages
  obtain ⟨s₁, fd, hremake, hok₁, honly₁, hfile₁, hh₁⟩ := remakeIndex_ok os hok hacc ixName
  obtain ⟨rid, rid', hbegin, hvisits, hend⟩ := f.scan_visits
  set h : IxOpen := ⟨fd, index.shape, ih⟩ with hh
  have hinsert := insertAll_eq (h := ⟨fd, index.shape, .createIndex (btreeOrderOf (colTotLen index.shape))⟩) hvisits hend
    (fun r hr => RmFileHandle.mem_rids.mp hr) rfl hrounds hfilled
  -- the handle has been filled in place
  have hok₂ : Indexes.Ok { s₁ with ihs := update s₁.ihs ixName (some h) } := hok₁.refill hh₁ rfl
  obtain ⟨s', fd', hreopen, hok', honly', hh'⟩ := reopenIndex_ok os hok₂ (update_self ..) hfile₁ hsame hcount hinit
  have honly₂ : OnlyAt ixName s₁ { s₁ with ihs := update s₁.ihs ixName (some h) } :=
    fun name hne => ⟨update_of_ne hne .., rfl⟩
  refine ⟨s', fd', ?_, hok', (honly₁.trans honly₂).trans honly', hh'⟩
  simp only [rebuildIndex, ← hname, hremake, hbegin, hinsert, Option.bind_eq_bind, Option.bind_some]
  exact hreopen

end Files

/-! ### All indexes -/

/-- The indexes of the tables whose files are open, in the order of the loops. -/
def rebuilt (db : DbMeta) (fhs : List (String × RmFileHandle)) : List (String × RmFileHandle × IndexMeta) :=
  fhs.flatMap fun entry =>
    match db.getTable entry.1 with
    | .error _ => []
    | .ok table => table.indexes.map fun index => (entry.1, entry.2, index)

/-- The file of an index. -/
def rebuiltName (x : String × RmFileHandle × IndexMeta) : String :=
  Fs.IxManager.getIndexName x.1 x.2.2.colNames

/-- The loops are one loop over the indexes. -/
theorem rebuildIndexes_eq (os : Os) {rounds : ℕ} {db : DbMeta} : ∀ {fhs : List (String × RmFileHandle)} {s : Indexes},
    (∀ entry ∈ fhs, ∃ tab, db.getTable entry.1 = .ok tab) →
      rebuildIndexes os rounds db fhs s =
        (rebuilt db fhs).foldlM (fun s x => rebuildIndex os rounds x.1 x.2.1 x.2.2 s) s := by
  intro fhs
  induction fhs with
  | nil => exact fun _ => rfl
  | cons entry fhs ih =>
    intro s htabs
    obtain ⟨tab, htab⟩ := htabs entry List.mem_cons_self
    rw [rebuildIndexes, List.foldlM_cons, rebuilt, List.flatMap_cons, List.foldlM_append]
    simp only [htab, List.foldlM_map]
    exact congrArg _ (funext fun s => ih fun e he => htabs e (List.mem_cons_of_mem _ he))

/-- An open index has these records: `get_value` finds a key with a rid exactly if it is the key of the record there. -/
def IxOpen.Has (h : IxOpen) (index : IndexMeta) (records : Rid → Option Bytes) : Prop :=
  h.cols = index.shape ∧ ∃ m, (∀ key, h.ih.getValue key = some (m key)) ∧ AgreesOn index records m

/-- The index of an entry has been rebuilt: the one that is open has the records. -/
def Rebuilt (x : String × RmFileHandle × IndexMeta) (s : Indexes) : Prop :=
  ∃ h, s.ihs (rebuiltName x) = some h ∧ h.Has x.2.2 x.2.1.records

/-- What recovery finds when it comes to the indexes. -/
structure Rebuildable (db : DbMeta) (fhs : List (String × RmFileHandle)) : Prop where
  /-- The tables are in the catalog. -/
  tables : ∀ entry ∈ fhs, ∃ tab, db.getTable entry.1 = .ok tab
  /-- The indexes have been created and opened before. -/
  accepted : ∀ x ∈ rebuilt db fhs, Accepted x.2.2.shape
  /-- And they have their own files. -/
  names : (rebuilt db fhs).Pairwise fun y x => rebuiltName y ≠ rebuiltName x
  /-- The pages of an index can be counted by an `int`. -/
  pages : ∀ x ∈ rebuilt db fhs, ∀ ih, Filled x.2.1 x.2.2 ih → ih.numPages < 2 ^ 31

/-- An index that has been filled has a value, or none, for every key. -/
theorem Filled.has {f : RmFileHandle} {index : IndexMeta} (hacc : Accepted index.shape) (hkeys : KeysDiffer index f.records) :
    ∃ ih, Filled f index ih ∧ ∀ fd, IxOpen.Has ⟨fd, index.shape, ih⟩ index f.records := by
  obtain ⟨ih, lv, lvls, hrun, hinv, hmap⟩ :=
    run_inv (indexEntries f index) (IxIndexHandle.createIndex_inv (btreeOrderOf_fits hacc.totLen).1 (default : List ℤ))
  refine ⟨ih, hrun, fun fd => ⟨rfl, lookupKey (contents lv), hinv.getValue_eq, ?_⟩⟩
  rw [hmap]
  exact agreesOn_entries hkeys

/-- **Every index is rebuilt**: whatever the old files were, each index that is open afterwards has the records of its
table. -/
theorem rebuildIndexes_exact (os : Os) {rounds : ℕ} {db : DbMeta} {fhs : List (String × RmFileHandle)} {s : Indexes}
    (hok : s.Ok) (h : Rebuildable db fhs) (hkeys : ∀ x ∈ rebuilt db fhs, KeysDiffer x.2.2 x.2.1.records)
    (hrounds : ∀ entry ∈ fhs, entry.2.rids.length < rounds) :
    ∃ s', rebuildIndexes os rounds db fhs s = some s' ∧ s'.Ok ∧
      ∀ f tabName tab index, (tabName, f) ∈ fhs → db.getTable tabName = .ok tab → index ∈ tab.indexes →
        ∃ h, s'.ihs (Fs.IxManager.getIndexName tabName index.colNames) = some h ∧ h.Has index f.records := by
  have hmem : ∀ x ∈ rebuilt db fhs, x.2.1.rids.length < rounds := fun x hx => by
    obtain ⟨entry, hentry, hx⟩ := List.mem_flatMap.mp hx
    obtain ⟨tab, htab⟩ := h.tables entry hentry
    rw [htab] at hx
    obtain ⟨index, -, rfl⟩ := List.mem_map.mp hx
    exact hrounds entry hentry
  have hstep : ∀ x ∈ rebuilt db fhs, ∀ s : Indexes, s.Ok → ∃ s', rebuildIndex os rounds x.1 x.2.1 x.2.2 s = some s' ∧
      s'.Ok ∧ Rebuilt x s' ∧ ∀ y, rebuiltName y ≠ rebuiltName x → Rebuilt y s → Rebuilt y s' := fun x hx s hok => by
    obtain ⟨ih, hfilled, hhas⟩ := Filled.has (h.accepted x hx) (hkeys x hx)
    obtain ⟨s', fd, hrun, hok', honly, hh⟩ := rebuildIndex_ok os hok (h.accepted x hx) (hmem x hx) hfilled
      (h.pages x hx ih hfilled)
    refine ⟨s', hrun, hok', ⟨_, hh, hhas fd⟩, fun y hne ⟨h₁, hh₁, hhas₁⟩ => ⟨h₁, ?_, hhas₁⟩⟩
    exact (honly _ hne).1.trans hh₁
  obtain ⟨s', hrun, hok', hall, -⟩ := foldlM_all hstep h.names hok
  refine ⟨s', (rebuildIndexes_eq os h.tables).trans hrun, hok', ?_⟩
  intro f tabName tab index hf htab hindex
  refine hall (tabName, f, index) (List.mem_flatMap.mpr ⟨(tabName, f), hf, ?_⟩)
  rw [htab]
  exact List.mem_map.mpr ⟨index, hindex, rfl⟩

section Example

open Execution (colK)

/-- The table `k (a INT, b CHAR(508))` with an index on `a`. -/
def tabK : TabMeta := ⟨"k", [colK, ⟨"k", "b", .string, 508, 4⟩], [⟨"k", [colK]⟩]⟩

/-- A row. -/
def rowK (a : ℤ) : Bytes := intBytes 4 a ++ List.replicate 508 0

/-- Its file, with four rows in two pages. -/
def fileK : RmFileHandle where
  numPages := 3
  numRecordsPerPage := 7
  firstFreePageNo := 1
  pages pageNo :=
    if pageNo = 1 then ⟨2, 3, [some (rowK 7), none, some (rowK 9), some (rowK (-8)), none, none, none]⟩
    else ⟨RM_NO_PAGE, 1, some (rowK (-5)) :: List.replicate 6 none⟩

/-- Its index. -/
def indexK : IndexMeta := ⟨"k", [colK]⟩

/-- A catalog with the table. -/
def dbK : DbMeta := ⟨fun name => if name = "k" then some tabK else none⟩

/-- A number above those in use. -/
def aboveAll : Os where
  openFd opened := opened.foldr (fun e m => max e.2 m) 0 + 1
  fresh opened e he := by
    have hle : ∀ l : List (String × ℤ), ∀ e ∈ l, e.2 ≤ l.foldr (fun e m => max e.2 m) 0 := fun l => by
      induction l with
      | nil => exact nofun
      | cons a l ih =>
        rintro e (_ | ⟨_, he⟩)
        · exact le_max_left ..
        · exact (ih e he).trans (le_max_right ..)
    have := hle opened e he
    omega

/-- The file of the index. -/
def nameK : String := rebuiltName ("k", fileK, indexK)

/-- No index file. -/
def noFiles : Indexes := ⟨fun _ => none, [], fun _ _ => none, fun _ => none⟩

/-- An index file that has nothing to do with the table, before it is opened. -/
def staleFile : Indexes := noFiles.write nameK ⟨fun _ => none, fun _ => none, 9⟩

/-- The same, with a handle that has nothing to do with the file. -/
def staleK : Indexes :=
  { staleFile with
    opened := (nameK, aboveAll.openFd staleFile.opened) :: staleFile.opened
    ihs := update staleFile.ihs nameK (some ⟨aboveAll.openFd staleFile.opened, [], .createIndex 0⟩) }

theorem staleK_ok : staleK.Ok := by
  have hno : noFiles.Ok := ⟨nofun, nofun, nofun, fun _ => rfl⟩
  have hfile : staleFile.files nameK = some ⟨fun _ => none, fun _ => none, 9⟩ := by
    simp only [staleFile, Indexes.write, update_self]
  exact (hno.write nameK _).opens aboveAll rfl (congrArg Option.isSome hfile) rfl

theorem rids_fileK : fileK.rids = [⟨1, 0⟩, ⟨1, 2⟩, ⟨1, 3⟩, ⟨2, 0⟩] := by decide +kernel

theorem rebuilt_K : rebuilt dbK [("k", fileK)] = [("k", fileK, indexK)] := rfl

theorem rebuildable_K : Rebuildable dbK [("k", fileK)] where
  tables entry hentry := by
    obtain rfl := List.mem_singleton.mp hentry
    exact ⟨tabK, rfl⟩
  accepted x hx := by
    obtain rfl := List.mem_singleton.mp (rebuilt_K ▸ hx)
    exact ⟨by decide, by decide⟩
  names := rebuilt_K ▸ List.pairwise_singleton _ _
  pages x hx ih hfilled := by
    obtain rfl := List.mem_singleton.mp (rebuilt_K ▸ hx)
    have hnum : (runOps (IxIndexHandle.createIndex (btreeOrderOf (colTotLen indexK.shape)))
        (indexEntries fileK indexK)).map (·.numPages) = some 3 := by decide +kernel
    rw [show runOps _ _ = some ih from hfilled, Option.map_some] at hnum
    have := Option.some.inj hnum
    omega

theorem keysDiffer_K : KeysDiffer indexK fileK.records := by
  have hall : ∀ a ∈ fileK.rids, ∀ b ∈ fileK.rids,
      (fileK.records a).map indexK.key = (fileK.records b).map indexK.key → a = b := by
    rw [rids_fileK]
    decide +kernel
  have hmem : ∀ {rid rec}, fileK.records rid = some rec → rid ∈ fileK.rids := fun {rid rec} hrec =>
    RmFileHandle.mem_rids.mpr (Option.isSome_iff_exists.mpr ⟨rec, hrec⟩)
  intro rid rid' rec rec' hrec hrec' hkey
  refine hall rid (hmem hrec) rid' (hmem hrec') ?_
  rw [hrec, hrec', Option.map_some, Option.map_some, hkey]

/-- An index over four rows, from an old file of something else. -/
theorem rebuildIndexes_exact_rows :
    ∃ s', rebuildIndexes aboveAll 5 dbK [("k", fileK)] staleK = some s' ∧ s'.Ok ∧
      ∀ f tabName tab index, (tabName, f) ∈ [("k", fileK)] → dbK.getTable tabName = .ok tab → index ∈ tab.indexes →
        ∃ h, s'.ihs (Fs.IxManager.getIndexName tabName index.colNames) = some h ∧ h.Has index f.records :=
  rebuildIndexes_exact aboveAll staleK_ok rebuildable_K
    (fun x hx => by
      obtain rfl := List.mem_singleton.mp (rebuilt_K ▸ hx)
      exact keysDiffer_K)
    (fun entry hentry => by
      obtain rfl := List.mem_singleton.mp hentry
      rw [rids_fileK]
      decide)

end Example

end Rmdb.Recovery
