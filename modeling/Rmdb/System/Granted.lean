import Rmdb.System.SmManager

/-!
# Calls that the operating system grants

What the calls of the managers do if the operating system grants what it is asked: files are created,
opened, closed and destroyed, and the maps `path2fd_` and `fd2path_` change at one place. As long as
the answers are true, a descriptor that is given is not in use.

What is done through the handles of open files changes none of this (`Use.sameNames`).
-/

namespace Rmdb.Fs

open Lib Storage
open Function (update)
open Relation (ReflTransGen)

/-- The operating system and the disk grant what they are asked. -/
structure Os.Granted (os : Os) : Prop where
  createFails : os.createFails = false
  createCloseFails : os.createCloseFails = false
  unlinkFails : os.unlinkFails = false
  closeFails : os.closeFails = false
  torn : ∀ pageNo, os.torn pageNo = none
  readFails : os.readFails = false
  writeFails : ∀ pid, os.io.writeFails pid = false

/-- `open` gives a descriptor that the disk manager can use. -/
def Os.Opens (os : Os) : Prop := ∃ fd size, os.fd = some (fd, size) ∧ fd < MAX_FD

/-- All calls of `create_index` are granted. -/
structure IndexOs.Granted (os : IndexOs) : Prop where
  create : os.create.Granted
  createOpens : os.create.Opens
  opens : os.opens.Granted
  opensOpens : os.opens.Opens
  close : os.close.Granted
  destroy : os.destroy.Granted

/-! ### What changes in the names -/

/-- The names of the open files: the two maps are inverse to each other, an open file is in the directory, and a
descriptor of a name is in use. -/
structure NamesAgree (f : Files) : Prop where
  paths : ∀ fd path, f.fd2path fd = some path ↔ f.path2fd path = some fd
  inDir : ∀ fd path, f.fd2path fd = some path → f.dir path ≠ none
  free : ∀ fd, f.opened fd = none → f.fd2path fd = none

/-- There is a handle of the file of this name. -/
structure OpenAs (f : Files) (path : String) (fd : ℤ) : Prop where
  handle : f.handles fd ≠ none
  path : f.fd2path fd = some path

/-- The directory, the open files and the handles are the same. -/
structure SameNames (f f' : Files) : Prop where
  dir : f'.dir = f.dir
  path2fd : f'.path2fd = f.path2fd
  fd2path : f'.fd2path = f.fd2path
  opened : f'.opened = f.opened
  handles : ∀ fd, f.handles fd ≠ none → f'.handles fd ≠ none

/-- A file has been created, and is not open. -/
structure FileCreated (f f' : Files) (path : String) : Prop where
  dir : ∃ file, f'.dir = update f.dir path (some file)
  path2fd : f'.path2fd = f.path2fd
  fd2path : f'.fd2path = f.fd2path
  opened : f'.opened = f.opened
  handles : f'.handles = f.handles

/-- A file has been opened, under a descriptor that was free. -/
structure FileOpened (f f' : Files) (path : String) (fd : ℤ) : Prop where
  free : f.opened fd = none
  dir : f'.dir = f.dir
  path2fd : f'.path2fd = update f.path2fd path (some fd)
  fd2path : f'.fd2path = update f.fd2path fd (some path)
  opened : ∃ file, f'.opened = update f.opened fd (some file)
  handles : ∀ fd', f.handles fd' ≠ none → f'.handles fd' ≠ none

/-- A file has been closed. -/
structure FileClosed (f f' : Files) (path : String) (fd : ℤ) : Prop where
  dir : f'.dir = f.dir
  path2fd : f'.path2fd = update f.path2fd path none
  fd2path : f'.fd2path = update f.fd2path fd none
  opened : f'.opened = update f.opened fd none
  handles : ∀ fd' ≠ fd, f'.handles fd' = f.handles fd'

/-- A file is there, and closed. -/
structure Ready (f : Files) (path : String) : Prop where
  closed : f.path2fd path = none
  dir : f.dir path ≠ none

section Names

variable {f f' f'' : Files} {path : String} {fd : ℤ}

theorem Good.namesAgree (h : Good f) : NamesAgree f := ⟨h.paths, h.inDir, fun _ hfd => h.fd2path_none hfd⟩

theorem NamesAgree.path2fd_none (h : NamesAgree f) (hpath : f.dir path = none) : f.path2fd path = none := by
  rcases hfd : f.path2fd path with _ | fd
  · rfl
  · exact absurd hpath (h.inDir fd path ((h.paths fd path).mpr hfd))

theorem SameNames.trans (h : SameNames f f') (h' : SameNames f' f'') : SameNames f f'' :=
  ⟨h'.dir.trans h.dir, h'.path2fd.trans h.path2fd, h'.fd2path.trans h.fd2path, h'.opened.trans h.opened,
    fun fd hne => h'.handles fd (h.handles fd hne)⟩

theorem SameNames.namesAgree (hsame : SameNames f f') (h : NamesAgree f) : NamesAgree f' := by
  refine ⟨?_, ?_, ?_⟩
  · intro fd path
    rw [hsame.fd2path, hsame.path2fd]
    exact h.paths fd path
  · intro fd path hpath
    rw [hsame.fd2path] at hpath
    rw [hsame.dir]
    exact h.inDir fd path hpath
  · intro fd hfree
    rw [hsame.opened] at hfree
    rw [hsame.fd2path]
    exact h.free fd hfree

theorem SameNames.openAs (hsame : SameNames f f') (h : OpenAs f path fd) : OpenAs f' path fd :=
  ⟨hsame.handles fd h.handle, by rw [hsame.fd2path, h.path]⟩

/-- The directory grows. -/
theorem FileCreated.namesAgree (hcreated : FileCreated f f' path) (h : NamesAgree f) : NamesAgree f' := by
  obtain ⟨file, hdir⟩ := hcreated.dir
  refine ⟨?_, ?_, ?_⟩
  · intro fd p
    rw [hcreated.fd2path, hcreated.path2fd]
    exact h.paths fd p
  · intro fd p hp
    rw [hcreated.fd2path] at hp
    rw [hdir, Function.update_apply]
    split
    · exact Option.some_ne_none file
    · exact h.inDir fd p hp
  · intro fd hfree
    rw [hcreated.opened] at hfree
    rw [hcreated.fd2path]
    exact h.free fd hfree

theorem FileCreated.openAs (hcreated : FileCreated f f' path) {p : String} (h : OpenAs f p fd) : OpenAs f' p fd :=
  ⟨by rw [hcreated.handles]; exact h.handle, by rw [hcreated.fd2path, h.path]⟩

theorem FileOpened.namesAgree (hopened : FileOpened f f' path fd) (h : NamesAgree f) (hclosed : f.path2fd path = none)
    (hdir : f.dir path ≠ none) : NamesAgree f' := by
  obtain ⟨file, hfile⟩ := hopened.opened
  have hfree := h.free fd hopened.free
  refine ⟨?_, ?_, ?_⟩
  · intro fd' p
    rw [hopened.fd2path, hopened.path2fd, Function.update_apply, Function.update_apply]
    by_cases hfd : fd' = fd <;> by_cases hp : p = path
    · rw [if_pos hfd, if_pos hp, hfd, hp]
      exact iff_of_true rfl rfl
    · rw [if_pos hfd, if_neg hp, ← h.paths, hfd, hfree]
      exact iff_of_false (fun heq => hp (Option.some.inj heq).symm) (fun heq => by cases heq)
    · rw [if_neg hfd, if_pos hp, h.paths, hp, hclosed]
      exact iff_of_false (fun heq => by cases heq) fun heq => hfd (Option.some.inj heq).symm
    · rw [if_neg hfd, if_neg hp]
      exact h.paths fd' p
  · intro fd' p hp
    rw [hopened.dir]
    rw [hopened.fd2path, Function.update_apply] at hp
    split at hp
    · obtain rfl := Option.some.inj hp
      exact hdir
    · exact h.inDir fd' p hp
  · intro fd' hnone
    rw [hfile, Function.update_apply] at hnone
    split at hnone
    · cases hnone
    · rename_i hne
      rw [hopened.fd2path, Function.update_of_ne hne]
      exact h.free fd' hnone

/-- The files that were open still are. -/
theorem FileOpened.openAs (hopened : FileOpened f f' path fd) (h : NamesAgree f) {p : String} {fd' : ℤ} (hp : OpenAs f p fd') :
    OpenAs f' p fd' := by
  have hne : fd' ≠ fd := by
    rintro rfl
    have hpath := hp.path
    rw [h.free fd' hopened.free] at hpath
    cases hpath
  refine ⟨hopened.handles fd' hp.handle, ?_⟩
  rw [hopened.fd2path, Function.update_of_ne hne, hp.path]

theorem FileClosed.namesAgree (hclosed : FileClosed f f' path fd) (h : NamesAgree f) (hpath : f.fd2path fd = some path) : NamesAgree f' := by
  have hfd := (h.paths fd path).mp hpath
  refine ⟨?_, ?_, ?_⟩
  · intro fd' p
    rw [hclosed.fd2path, hclosed.path2fd, Function.update_apply, Function.update_apply]
    by_cases hfd' : fd' = fd <;> by_cases hp : p = path
    · rw [if_pos hfd', if_pos hp]
      exact iff_of_false (fun heq => by cases heq) fun heq => by cases heq
    · rw [if_pos hfd', if_neg hp, ← h.paths, hfd', hpath]
      exact iff_of_false (fun heq => by cases heq) fun heq => hp (Option.some.inj heq).symm
    · rw [if_neg hfd', if_pos hp, h.paths, hp, hfd]
      exact iff_of_false (fun heq => hfd' (Option.some.inj heq).symm) fun heq => by cases heq
    · rw [if_neg hfd', if_neg hp]
      exact h.paths fd' p
  · intro fd' p hp
    rw [hclosed.dir]
    rw [hclosed.fd2path, Function.update_apply] at hp
    split at hp
    · cases hp
    · exact h.inDir fd' p hp
  · intro fd' hnone
    rw [hclosed.fd2path, Function.update_apply]
    split
    · rfl
    · rename_i hne
      rw [hclosed.opened, Function.update_of_ne hne] at hnone
      exact h.free fd' hnone

/-- The other files are still open. -/
theorem FileClosed.openAs (hclosed : FileClosed f f' path fd) (hpath : f.fd2path fd = some path) {p : String} {fd' : ℤ} (hp : OpenAs f p fd')
    (hne : p ≠ path) : OpenAs f' p fd' := by
  have hfd : fd' ≠ fd := by
    rintro rfl
    exact hne (Option.some.inj (hp.path.symm.trans hpath))
  exact ⟨by rw [hclosed.handles fd' hfd]; exact hp.handle, by rw [hclosed.fd2path, Function.update_of_ne hfd, hp.path]⟩

/-- A handle is made for the file that has been opened. -/
theorem FileOpened.withHandle (hopened : FileOpened f f' path fd) (x : Handle) {bpm : BufferPoolManager} :
    FileOpened f { f' with bpm := bpm, handles := update f'.handles fd (some x) } path fd := by
  refine ⟨hopened.free, hopened.dir, hopened.path2fd, hopened.fd2path, hopened.opened, ?_⟩
  intro fd' hne
  change update f'.handles fd (some x) fd' ≠ none
  rw [Function.update_apply]
  split
  · exact Option.some_ne_none x
  · exact hopened.handles fd' hne

theorem update_restore {α β : Type} [DecidableEq α] {m : α → Option β} {a : α} (h : m a = none) (b : Option β) :
    update (update m a b) a none = m := by
  rw [Function.update_idem, ← h, Function.update_eq_self]

end Names

/-! ### The calls -/

section Granted

variable {os : Os} {f f' : Files} {fd : ℤ} {path : String}

theorem createFile_granted (hos : os.Granted) (h : f.dir path = none) :
    ∃ f', DiskManager.createFile os path f = .ok () f' ∧ FileCreated f f' path ∧ f'.honest = f.honest := by
  simp only [DiskManager.createFile, h, hos.createFails, hos.createCloseFails, Bool.false_eq_true, if_false]
  exact ⟨_, rfl, ⟨⟨_, rfl⟩, rfl, rfl, rfl, rfl⟩, rfl⟩

/-- A file is opened that is not open. -/
theorem openFile_granted (hos : os.Opens) (hclosed : f.path2fd path = none) (hdir : f.dir path ≠ none) :
    ∃ fd f', DiskManager.openFile os path f = .ok fd f' ∧ f'.handles = f.handles ∧ f'.fd2path fd = some path ∧
      f'.opened fd ≠ none ∧ f'.dir = f.dir ∧ (∀ other ≠ path, Ready f other → Ready f' other) ∧
      (f'.honest → f.honest ∧ FileOpened f f' path fd) := by
  obtain ⟨fd, size, hfd, hlt⟩ := hos
  obtain ⟨file, hfile⟩ := Option.ne_none_iff_exists'.mp hdir
  simp only [DiskManager.openFile, hclosed, hfile, hfd, if_neg (not_le.mpr hlt)]
  refine ⟨fd, _, rfl, rfl, Function.update_self .., ?_, rfl, fun other hne hready => ⟨?_, hready.dir⟩,
    fun hh => ⟨hh.1, hh.2.2.1, rfl, rfl, rfl, ⟨file, rfl⟩, fun _ => id⟩⟩
  · simp only [Function.update_self]
    exact Option.some_ne_none file
  · exact (Function.update_of_ne hne _ _).trans hready.closed

theorem writePage_granted (hos : os.Granted) (fd pageNo : ℤ) (bytes : Bytes) (f : Files) :
    ∃ f', DiskManager.writePage os fd pageNo bytes f = .ok () f' ∧ SameNames f f' ∧ f'.handles = f.handles ∧
      f'.honest = f.honest := by
  simp only [DiskManager.writePage, hos.torn]
  exact ⟨_, rfl, ⟨rfl, rfl, rfl, rfl, fun _ => id⟩, rfl, rfl⟩

theorem closeFile_granted (hos : os.Granted) (h : f.fd2path fd = some path) :
    ∃ f', DiskManager.closeFile os fd f = .ok () f' ∧ FileClosed f f' path fd ∧ f'.handles = f.handles ∧ f'.honest = f.honest := by
  simp only [DiskManager.closeFile, h, hos.closeFails, Bool.false_eq_true, if_false]
  exact ⟨_, rfl, ⟨rfl, rfl, rfl, rfl, fun _ _ => rfl⟩, rfl, rfl⟩

theorem destroyFile_granted (hos : os.Granted) (hclosed : f.path2fd path = none) (hdir : f.dir path ≠ none) :
    DiskManager.destroyFile os path f = .ok () { f with dir := update f.dir path none } := by
  obtain ⟨file, hfile⟩ := Option.ne_none_iff_exists'.mp hdir
  simp only [DiskManager.destroyFile, hclosed, hfile, hos.unlinkFails, Bool.false_eq_true, if_false]

/-- A file that is closed leaves the directory. -/
theorem NamesAgree.destroyed (h : NamesAgree f) (hclosed : f.path2fd path = none) :
    NamesAgree { f with dir := update f.dir path none } := by
  refine ⟨h.paths, ?_, h.free⟩
  intro fd p hp
  have hne : p ≠ path := by
    rintro rfl
    rw [(h.paths fd p).mp hp] at hclosed
    cases hclosed
  change update f.dir path none p ≠ none
  rw [Function.update_of_ne hne]
  exact h.inDir fd p hp

theorem deleteAllPagesIo_returns {io : Io} (hio : ∀ pid, io.writeFails pid = false) (fd : ℤ) : ∀ (frames : List ℕ)
    (bpm : BufferPoolManager), (BufferPoolManager.deleteAllPagesIo io fd bpm frames).2 = .returned ()
  | [], _ => rfl
  | frame :: frames, bpm => by
    rw [BufferPoolManager.deleteAllPagesIo, if_neg (fun h => by simp [hio] at h)]
    exact deleteAllPagesIo_returns hio fd frames _

theorem deleteAllPages_granted (hos : os.Granted) (fd : ℤ) (f : Files) : ∃ f', deleteAllPages os fd f = .ok () f' ∧
    SameNames f f' ∧ f'.handles = f.handles ∧ (f'.honest → f.honest) := by
  simp only [deleteAllPages, deleteAllPagesIo_returns hos.writeFails]
  exact ⟨_, rfl, ⟨rfl, rfl, rfl, rfl, fun _ => id⟩, rfl, And.left⟩

/-- A handle is closed. -/
theorem closeHandle_granted (hos : os.Granted) (h : OpenAs f path fd) (hdrPage : ℤ) :
    ∃ f', closeHandle os hdrPage fd f = .ok () f' ∧ FileClosed f f' path fd ∧ (f'.honest → f.honest) := by
  obtain ⟨x, hx⟩ := Option.ne_none_iff_exists'.mp h.handle
  obtain ⟨f₁, h₁, hsame₁, hhandles₁, hh₁⟩ := writePage_granted hos fd hdrPage x.hdr.bytes f
  obtain ⟨f₂, h₂, hsame₂, hhandles₂, hh₂⟩ := deleteAllPages_granted hos fd f₁
  have hsame := hsame₁.trans hsame₂
  have hpath : f₂.fd2path fd = some path := by rw [hsame.fd2path, h.path]
  obtain ⟨f₃, h₃, hclosed, hhandles₃, hh₃⟩ := closeFile_granted hos hpath
  simp only [closeHandle, hx]
  rw [bind_of_ok h₁, bind_of_ok h₂, bind_of_ok h₃]
  refine ⟨_, rfl, ⟨hclosed.dir.trans hsame.dir, ?_, ?_, ?_, ?_⟩, ?_⟩
  · rw [← hsame.path2fd]
    exact hclosed.path2fd
  · rw [← hsame.fd2path]
    exact hclosed.fd2path
  · rw [← hsame.opened]
    exact hclosed.opened
  · intro fd' hne
    rw [← hhandles₁, ← hhandles₂, ← hhandles₃]
    exact Function.update_of_ne hne _ _
  · intro hh
    rw [← hh₁]
    exact hh₂ (hh₃ ▸ hh)

/-- What opens a file, does something with it and closes it, leaves it created. -/
theorem created_of_closed {f₁ f₂ f₃ f₄ : Files} (h : NamesAgree f) (hdir : f.dir path = none) (hcreated : FileCreated f f₁ path)
    (hopened : FileOpened f₁ f₂ path fd) (hhandles : f₂.handles = f₁.handles) (hsame : SameNames f₂ f₃)
    (hhandles₃ : f₃.handles = f₂.handles) (hclosed : FileClosed f₃ f₄ path fd) (hhandles₄ : f₄.handles = f₃.handles) :
    FileCreated f f₄ path := by
  have hfree : f.fd2path fd = none := h.free fd (hcreated.opened ▸ hopened.free)
  have hpath : f.path2fd path = none := h.path2fd_none hdir
  obtain ⟨file, hfile⟩ := hcreated.dir
  obtain ⟨file', hfile'⟩ := hopened.opened
  refine ⟨⟨file, ?_⟩, ?_, ?_, ?_, ?_⟩
  · rw [hclosed.dir, hsame.dir, hopened.dir, hfile]
  · rw [hclosed.path2fd, hsame.path2fd, hopened.path2fd, hcreated.path2fd, update_restore hpath]
  · rw [hclosed.fd2path, hsame.fd2path, hopened.fd2path, hcreated.fd2path, update_restore hfree]
  · rw [hclosed.opened, hsame.opened, hfile', ← hcreated.opened, update_restore hopened.free]
  · rw [hhandles₄, hhandles₃, hhandles, hcreated.handles]

/-- `RmManager::create_file` of a table whose record has a length that is allowed, when there is no such file. -/
theorem createTableFile_granted (hos : os.Granted) (hopens : os.Opens) (h : NamesAgree f) (hdir : f.dir path = none)
    {recordSize : Int32} (hsize : ¬ (recordSize.toInt < 1 ∨ Record.RM_MAX_RECORD_SIZE < recordSize.toInt)) :
    ∃ f', RmManager.createFile os path recordSize f = .ok () f' ∧ f'.dir path ≠ none ∧ f'.path2fd path = none ∧
      (f'.honest → f.honest ∧ FileCreated f f' path) := by
  obtain ⟨f₁, h₁, hcreated, hh₁⟩ := createFile_granted hos hdir
  have hclosed : f₁.path2fd path = none := by rw [hcreated.path2fd, h.path2fd_none hdir]
  have hthere : f₁.dir path ≠ none := by
    obtain ⟨file, hfile⟩ := hcreated.dir
    rw [hfile, Function.update_self]
    exact Option.some_ne_none _
  obtain ⟨fd, f₂, h₂, hhandles₂, hpath₂, -, hdir₂, -, hh₂⟩ := openFile_granted hopens hclosed hthere
  obtain ⟨f₃, h₃, hsame, hhandles₃, hh₃⟩ :=
    writePage_granted hos fd RM_FILE_HDR_PAGE (RmManager.fileHdr recordSize.toInt).bytes f₂
  obtain ⟨f₄, h₄, hclosed₄, hhandles₄, hh₄⟩ := closeFile_granted hos (hsame.fd2path ▸ hpath₂)
  refine ⟨f₄, ?_, ?_, ?_, ?_⟩
  · rw [RmManager.createFile, if_neg hsize, bind_of_ok h₁, bind_of_ok h₂, bind_of_ok h₃, h₄]
  · rw [hclosed₄.dir, hsame.dir, hdir₂]
    exact hthere
  · rw [hclosed₄.path2fd, Function.update_self]
  · intro hh
    rw [hh₄, hh₃] at hh
    obtain ⟨hh₁', hopened⟩ := hh₂ hh
    exact ⟨hh₁ ▸ hh₁', created_of_closed h hdir hcreated hopened hhandles₂ hsame hhandles₃ hclosed₄ hhandles₄⟩

/-- `RmManager::open_file` of a file that is closed. -/
theorem openTableFile_granted (hos : os.Granted) (hopens : os.Opens) (hclosed : f.path2fd path = none) (hdir : f.dir path ≠ none) :
    ∃ fd f', RmManager.openFile os path f = .ok fd f' ∧ f'.handles fd ≠ none ∧ (∀ other ≠ path, Ready f other → Ready f' other) ∧
      (f'.honest → f.honest ∧ FileOpened f f' path fd) := by
  obtain ⟨fd, f₁, h₁, hhandles₁, -, hopened₁, -, hready₁, hh₁⟩ := openFile_granted hopens hclosed hdir
  obtain ⟨file, hfile⟩ := Option.ne_none_iff_exists'.mp hopened₁
  have h₂ : DiskManager.readPage os fd RM_FILE_HDR_PAGE f₁ =
      .ok (Index.readBytes (DiskManager.filePages f₁ fd) RM_FILE_HDR_PAGE) f₁ := by
    rw [DiskManager.readPage, hos.readFails, if_neg (by decide)]
  let hdr := Record.RmFileHdr.ofBytes (Index.readBytes (DiskManager.filePages f₁ fd) RM_FILE_HDR_PAGE)
  let f₂ : Files := { f₁ with
    bpm := { f₁.bpm with fd2pageno := update f₁.bpm.fd2pageno fd hdr.numPages }
    handles := update f₁.handles fd (some ⟨.table hdr, file, hdr.numPages, []⟩) }
  have h₃ : construct fd (.table hdr) hdr.numPages f₁ = .ok () f₂ := by
    simp only [construct, hfile]
    rfl
  refine ⟨fd, f₂, ?_, ?_, fun other hne hother => ⟨(hready₁ other hne hother).closed, (hready₁ other hne hother).dir⟩, ?_⟩
  · rw [RmManager.openFile, bind_of_ok h₁, bind_of_ok h₂]
    exact bind_of_ok h₃
  · simp only [f₂, Function.update_self]
    exact Option.some_ne_none _
  · intro hh
    obtain ⟨hh₀, hopened⟩ := hh₁ hh
    exact ⟨hh₀, hopened.withHandle _⟩

/-- `IxManager::create_index` when there is no such file: it throws with the file left behind and open, or ends the process,
or the file is there and closed. -/
theorem createIndexFile_granted (hos : os.Granted) (hopens : os.Opens) (h : NamesAgree f) (hdir : f.dir path = none)
    (cols : List Catalog.ColMeta) :
    (512 < (IxManager.colTotLen cols).toInt ∧ ∃ e fd f₁ f', IxManager.createIndex os path cols f = .error e f' ∧
      FileCreated f f₁ path ∧ f'.dir path ≠ none ∧ (f'.honest → f.honest ∧ FileOpened f₁ f' path fd)) ∨
    (∃ f', IxManager.createIndex os path cols f = .error .died f') ∨
    ((IxManager.colTotLen cols).toInt ≤ 512 ∧ ∃ f', IxManager.createIndex os path cols f = .ok () f' ∧
      f'.dir path ≠ none ∧ f'.path2fd path = none ∧ (f'.honest → f.honest ∧ FileCreated f f' path)) := by
  obtain ⟨f₁, h₁, hcreated, hh₁⟩ := createFile_granted hos hdir
  have hclosed : f₁.path2fd path = none := by rw [hcreated.path2fd, h.path2fd_none hdir]
  have hthere : f₁.dir path ≠ none := by
    obtain ⟨file, hfile⟩ := hcreated.dir
    rw [hfile, Function.update_self]
    exact Option.some_ne_none _
  obtain ⟨fd, f₂, h₂, hhandles₂, hpath₂, -, hdir₂, -, hh₂⟩ := openFile_granted hopens hclosed hthere
  rw [IxManager.createIndex, bind_of_ok h₁, bind_of_ok h₂]
  by_cases hlong : (Index.IX_MAX_COL_LEN : ℤ) < (IxManager.colTotLen cols).toInt
  · rw [if_pos hlong]
    refine .inl ⟨hlong, _, fd, f₁, f₂, rfl, hcreated, hdir₂ ▸ hthere, ?_⟩
    intro hh
    obtain ⟨hh', hopened⟩ := hh₂ hh
    exact ⟨hh₁ ▸ hh', hopened⟩
  · rw [if_neg hlong]
    rcases IxManager.btreeOrder (IxManager.colTotLen cols) with _ | order
    · exact .inr (.inl ⟨f₂, rfl⟩)
    · obtain ⟨f₃, h₃, hsame₃, hhandles₃, hh₃⟩ :=
        writePage_granted hos fd Index.IX_FILE_HDR_PAGE (IxManager.fileHdr cols order).serialize f₂
      obtain ⟨f₄, h₄, hsame₄, hhandles₄, hh₄⟩ := writePage_granted hos fd Index.IX_LEAF_HEADER_PAGE
        (IxManager.leafPage Index.IX_INIT_ROOT_PAGE Index.IX_INIT_ROOT_PAGE) f₃
      obtain ⟨f₅, h₅, hsame₅, hhandles₅, hh₅⟩ := writePage_granted hos fd Index.IX_INIT_ROOT_PAGE
        (IxManager.leafPage Index.IX_LEAF_HEADER_PAGE Index.IX_LEAF_HEADER_PAGE) f₄
      let f₆ : Files := { f₅ with bpm := { f₅.bpm with fd2pageno := update f₅.bpm.fd2pageno fd Index.IX_INIT_NUM_PAGES } }
      have h₆ : DiskManager.setFd2pageno fd Index.IX_INIT_NUM_PAGES f₅ = .ok ⟨⟩ f₆ := rfl
      have hsame : SameNames f₂ f₆ := ((hsame₃.trans hsame₄).trans hsame₅).trans ⟨rfl, rfl, rfl, rfl, fun _ => id⟩
      have hhandles : f₆.handles = f₂.handles := hhandles₅.trans (hhandles₄.trans hhandles₃)
      obtain ⟨f₇, h₇, hclosed₇, hhandles₇, hh₇⟩ := closeFile_granted hos (hsame.fd2path ▸ hpath₂)
      refine .inr (.inr ⟨not_lt.mp hlong, f₇, ?_, ?_, ?_, ?_⟩)
      · simp only
        rw [bind_of_ok h₃, bind_of_ok h₄, bind_of_ok h₅, bind_of_ok h₆, h₇]
      · rw [hclosed₇.dir, hsame.dir, hdir₂]
        exact hthere
      · rw [hclosed₇.path2fd, Function.update_self]
      · intro hh
        have hh₂' : f₂.honest := by
          rw [hh₇] at hh
          have heq : f₆.honest = f₂.honest := hh₅.trans (hh₄.trans hh₃)
          exact heq ▸ hh
        obtain ⟨hh', hopened⟩ := hh₂ hh₂'
        exact ⟨hh₁ ▸ hh', created_of_closed h hdir hcreated hopened hhandles₂ hsame hhandles hclosed₇ hhandles₇⟩

/-- `open_index` of an index file that is closed. -/
theorem openIndexFile_granted (hos : os.Granted) (hopens : os.Opens) (hclosed : f.path2fd path = none) (hdir : f.dir path ≠ none) :
    (∃ f', IxManager.openIndex os path f = .error .died f') ∨
    ∃ fd f', IxManager.openIndex os path f = .ok fd f' ∧ OpenAs f' path fd ∧ f'.dir = f.dir ∧
      (∀ other ≠ path, Ready f other → Ready f' other) ∧ (f'.honest → f.honest ∧ FileOpened f f' path fd) := by
  obtain ⟨fd, f₁, h₁, hhandles₁, hpath₁, hopened₁, hdir₁, hready₁, hh₁⟩ := openFile_granted hopens hclosed hdir
  obtain ⟨file, hfile⟩ := Option.ne_none_iff_exists'.mp hopened₁
  have h₂ : DiskManager.readPage os fd Index.IX_FILE_HDR_PAGE f₁ =
      .ok (Index.readBytes (DiskManager.filePages f₁ fd) Index.IX_FILE_HDR_PAGE) f₁ := by
    rw [DiskManager.readPage, hos.readFails, if_neg (by decide)]
  rw [IxManager.openIndex, bind_of_ok h₁, bind_of_ok h₂]
  rcases Index.IxFileHdr.deserialize (Index.readBytes (DiskManager.filePages f₁ fd) Index.IX_FILE_HDR_PAGE) with _ | hdr
  · exact .inl ⟨f₁, rfl⟩
  · let f₂ : Files := { f₁ with
      bpm := { f₁.bpm with fd2pageno := update f₁.bpm.fd2pageno fd (max (f₁.bpm.fd2pageno fd) hdr.numPages) }
      handles := update f₁.handles fd (some ⟨.index hdr, file, hdr.numPages, []⟩) }
    have h₃ : construct fd (.index hdr) (max (f₁.bpm.fd2pageno fd) hdr.numPages) f₁ = .ok () f₂ := by
      simp only [construct, hfile]
      rfl
    have hnow : DiskManager.getFd2pageno fd f₁ = .ok (f₁.bpm.fd2pageno fd) f₁ := rfl
    refine .inr ⟨fd, f₂, ?_, ⟨?_, hpath₁⟩, hdir₁, fun other hne hother => ⟨(hready₁ other hne hother).closed,
      (hready₁ other hne hother).dir⟩, ?_⟩
    · simp only
      rw [bind_of_ok hnow, bind_of_ok h₃]
      rfl
    · simp only [f₂, Function.update_self]
      exact Option.some_ne_none _
    · intro hh
      obtain ⟨hh', hopened⟩ := hh₁ hh
      exact ⟨hh', hopened.withHandle _⟩

end Granted

/-! ### The use of handles -/

section Uses

variable {f f' : Files}

/-- What a use of a handle leaves alone. -/
theorem Use.sameNames (h : Use f f') : SameNames f f' := by
  have hupdate : ∀ (fd : ℤ) (x : Handle) fd', f.handles fd' ≠ none → update f.handles fd (some x) fd' ≠ none := by
    intro fd x fd' hne
    rw [Function.update_apply]
    split
    · exact Option.some_ne_none x
    · exact hne
  cases h with
  | fetch => exact ⟨rfl, rfl, rfl, rfl, fun _ => id⟩
  | createNewPageHandle => exact ⟨rfl, rfl, rfl, rfl, hupdate _ _⟩
  | createNode => exact ⟨rfl, rfl, rfl, rfl, hupdate _ _⟩
  | call => exact ⟨rfl, rfl, rfl, rfl, fun _ => id⟩
  | setHdr => exact ⟨rfl, rfl, rfl, rfl, hupdate _ _⟩
  | writeHdr => exact ⟨rfl, rfl, rfl, rfl, fun _ => id⟩

theorem uses_sameNames (h : ReflTransGen Use f f') : SameNames f f' := by
  induction h with
  | refl => exact ⟨rfl, rfl, rfl, rfl, fun _ => id⟩
  | tail _ hstep ih => exact ih.trans hstep.sameNames

end Uses

end Rmdb.Fs
