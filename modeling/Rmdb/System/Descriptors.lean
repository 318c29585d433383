import Rmdb.System.Files

/-!
# Pages and the files they belong to

What holds between the operations on files (`Good`): every page in the pool was read from, or
allocated for, the file that its descriptor is open for. A descriptor is free for another file
only after `delete_all_pages` has returned for it, so nothing of the old file is in the pool then.

The number of pages that an index starts to allocate from is the larger of what the file's
header and the file's size say. They agree, because no page of an index is written beyond what
its header counts when it is closed; so the numbers start at the file's own page count.
-/

namespace Rmdb.Fs

open Lib Storage Index DiskManager
open Function (update)

/-- The name of an index file. -/
def IsIndexName (path : String) : Prop := ∃ base : String, path = base ++ ".idx"

theorem isIndexName_getIndexName (filename : String) (indexCols : List String) :
    IsIndexName (IxManager.getIndexName filename indexCols) := ⟨_, rfl⟩

/-- An open handle. -/
structure HandleOk (s : Files) (fd : ℤ) (h : Handle) : Prop where
  /-- Its descriptor is open for its file. -/
  file : s.opened fd = some h.file
  /-- The numbers allocated through it follow its page count. -/
  allocated : h.allocated = (List.range h.allocated.length).map fun i : ℕ => h.start + i
  /-- The counter of the file. -/
  count : s.bpm.fd2pageno fd = h.start + h.allocated.length
  /-- The header counts no more pages. -/
  pages : h.hdr.numPages ≤ s.bpm.fd2pageno fd

/-- The header of an open index. -/
structure IndexOk (s : Files) (fd : ℤ) (hdr : IxFileHdr) : Prop where
  /-- The header counts the pages that are allocated. -/
  count : hdr.numPages = s.bpm.fd2pageno fd
  pos : 1 ≤ hdr.numPages
  int : hdr.numPages < 2 ^ 31
  types : hdr.colTypes.length = hdr.colNum.toNat
  lens : hdr.colLens.length = hdr.colNum.toNat
  /-- The header fits into its page. -/
  fits : 40 + 8 * hdr.colNum.toNat ≤ PAGE_SIZE
  /-- The pages on disk. -/
  disk : ∀ n, s.bpm.disk ⟨fd, n⟩ ≠ none → n < hdr.numPages
  /-- The header is not in the pool. -/
  resident : ∀ n, s.bpm.pageTable ⟨fd, n⟩ ≠ none → 1 ≤ n

/-- The header of an index file that is closed counts its pages. -/
def Counted (file : Pages) : Prop := ∀ hdr, openHdr file = some hdr → ∀ n, file n ≠ none → n < hdr.numPages

/-- What holds between the operations. -/
structure Good (s : Files) : Prop where
  table : TableOk s.bpm
  ids : IdsOk s.bpm
  /-- **A page in the pool** belongs to the file that is open. -/
  resident : ∀ pid, s.bpm.pageTable pid ≠ none →
    s.opened pid.fd ≠ none ∧ s.owner pid = s.opened pid.fd ∧ pid.pageNo < s.bpm.fd2pageno pid.fd
  handle : ∀ fd h, s.handles fd = some h → HandleOk s fd h
  index : ∀ fd h hdr, s.handles fd = some h → h.hdr = .index hdr → IndexOk s fd hdr
  /-- A table's file is not named as an index. -/
  tableName : ∀ fd h hdr path, s.handles fd = some h → h.hdr = .table hdr → s.fd2path fd = some path → ¬ IsIndexName path
  /-- `path2fd_` and `fd2path_` are inverse to each other. -/
  paths : ∀ fd path, s.fd2path fd = some path ↔ s.path2fd path = some fd
  /-- A descriptor is open for the file of its path. -/
  opened : ∀ fd, s.opened fd = (s.fd2path fd).bind s.dir
  /-- An open file is in the directory. -/
  inDir : ∀ fd path, s.fd2path fd = some path → s.dir path ≠ none
  /-- A file has one name. -/
  inj : ∀ path path' file, s.dir path = some file → s.dir path' = some file → path = path'
  fresh : ∀ path file, s.dir path = some file → file < s.nextFile
  /-- The index files that are closed. -/
  closed : ∀ path file, s.dir path = some file → s.path2fd path = none → IsIndexName path → Counted (s.pages file)

namespace Good

variable {s : Files} {fd : ℤ} {path : String}

theorem fd2path_none (h : Good s) (hfd : s.opened fd = none) : s.fd2path fd = none := by
  rcases hpath : s.fd2path fd with _ | path
  · rfl
  · rw [h.opened, hpath] at hfd
    exact absurd hfd (h.inDir fd path hpath)

theorem path2fd_none (h : Good s) (hpath : s.dir path = none) : s.path2fd path = none := by
  rcases hfd : s.path2fd path with _ | fd
  · rfl
  · exact absurd hpath (h.inDir fd path ((h.paths fd path).mpr hfd))

theorem handles_none (h : Good s) (hfd : s.opened fd = none) : s.handles fd = none := by
  rcases hh : s.handles fd with _ | x
  · rfl
  · rw [(h.handle fd x hh).file] at hfd
    cases hfd

/-- No page of a descriptor that is not open is in the pool. -/
theorem absent (h : Good s) (hfd : s.opened fd = none) (n : ℤ) : s.bpm.pageTable ⟨fd, n⟩ = none := by
  by_contra hne
  exact (h.resident ⟨fd, n⟩ hne).1 hfd

/-- The pages that the pool can write. -/
theorem frame_resident (h : Good s) {pid : PageId} (hvalid : pid.pageNo ≠ INVALID_PAGE_ID) {frame : ℕ}
    (hid : (s.bpm.pages frame).id = pid) : s.bpm.pageTable pid ≠ none := by
  have hf := h.ids frame (hid ▸ hvalid)
  rw [hid] at hf
  rw [hf]
  exact Option.some_ne_none frame

end Good

/-! ### Using a handle -/

/-- How a call of the pool through a handle changes it. -/
structure Evolves (bpm' : BufferPoolManager) (fd : ℤ) (h h' : Handle) : Prop where
  file : h'.file = h.file
  allocated : h'.allocated = (List.range h'.allocated.length).map fun i : ℕ => h'.start + i
  count : bpm'.fd2pageno fd = h'.start + h'.allocated.length
  pages : h'.hdr.numPages ≤ bpm'.fd2pageno fd
  table : ∀ hdr', h'.hdr = .table hdr' → ∃ hdr, h.hdr = .table hdr
  index : ∀ hdr', h'.hdr = .index hdr' → ∃ hdr, h.hdr = .index hdr ∧ hdr'.colNum = hdr.colNum ∧
    hdr'.colTypes = hdr.colTypes ∧ hdr'.colLens = hdr.colLens ∧ hdr'.numPages = bpm'.fd2pageno fd ∧ hdr'.numPages < 2 ^ 31

section Pool

variable {s : Files} {bpm' : BufferPoolManager} {brought : PageId → Prop} {owner' : PageId → Option FileNo}
  {handles' : ℤ → Option Handle}

/-- **A call of the pool**: the pages it brings belong to the file that is open, and have numbers that are
allocated. -/
theorem Good.pool (h : Good s) (heff : Effect s.bpm bpm' brought) (hids : IdsOk bpm')
    (hmono : ∀ fd, s.bpm.fd2pageno fd ≤ bpm'.fd2pageno fd)
    (howner : ∀ pid, s.bpm.pageTable pid ≠ none → owner' pid = s.owner pid)
    (hbrought : ∀ pid, brought pid → s.bpm.pageTable pid = none → bpm'.pageTable pid ≠ none →
      s.opened pid.fd ≠ none ∧ owner' pid = s.opened pid.fd ∧ pid.pageNo < bpm'.fd2pageno pid.fd)
    (hpos : ∀ pid h hdr, brought pid → s.handles pid.fd = some h → h.hdr = .index hdr → 1 ≤ pid.pageNo)
    (hhandles : ∀ fd h', handles' fd = some h' → ∃ h, s.handles fd = some h ∧ Evolves bpm' fd h h') :
    Good { s with bpm := bpm', owner := owner', handles := handles' } where
  table := heff.tableOk
  ids := hids
  resident pid hpid := by
    obtain ⟨frame, hf⟩ := Option.ne_none_iff_exists'.mp hpid
    by_cases hold : s.bpm.pageTable pid = none
    · rcases (heff.table pid frame hf).2.2 with hne | hb
      · exact absurd hold hne
      · exact hbrought pid hb hold hpid
    · obtain ⟨hopen, hown, hlt⟩ := h.resident pid hold
      exact ⟨hopen, (howner pid hold).trans hown, lt_of_lt_of_le hlt (hmono pid.fd)⟩
  handle fd h' hh' := by
    obtain ⟨x, hx, hev⟩ := hhandles fd h' hh'
    exact ⟨hev.file ▸ (h.handle fd x hx).file, hev.allocated, hev.count, hev.pages⟩
  index fd h' hdr' hh' hhdr' := by
    obtain ⟨x, hx, hev⟩ := hhandles fd h' hh'
    obtain ⟨hdr, hhdr, hnum, htypes, hlens, hpages, hint⟩ := hev.index hdr' hhdr'
    have hok := h.index fd x hdr hx hhdr
    have hle : hdr.numPages ≤ hdr'.numPages := by
      rw [hok.count, hpages]
      exact hmono fd
    refine ⟨hpages, hok.pos.trans hle, hint, ?_, ?_, ?_, ?_, ?_⟩
    · rw [htypes, hnum, hok.types]
    · rw [hlens, hnum, hok.lens]
    · rw [hnum]
      exact hok.fits
    · intro n hn
      rcases heff.disk _ hn with hold | ⟨hvalid, frame, hid⟩
      · exact lt_of_lt_of_le (hok.disk n hold) hle
      · have hlt := (h.resident _ (h.frame_resident hvalid hid)).2.2
        rw [← hok.count] at hlt
        exact lt_of_lt_of_le hlt hle
    · intro n hn
      by_cases hold : s.bpm.pageTable ⟨fd, n⟩ = none
      · obtain ⟨frame, hf⟩ := Option.ne_none_iff_exists'.mp hn
        rcases (heff.table _ frame hf).2.2 with hne | hb
        · exact absurd hold hne
        · exact hpos _ x hdr hb hx hhdr
      · exact hok.resident n hold
  tableName fd h' hdr' path hh' hhdr' hpath := by
    obtain ⟨x, hx, hev⟩ := hhandles fd h' hh'
    obtain ⟨hdr, hhdr⟩ := hev.table hdr' hhdr'
    exact h.tableName fd x hdr path hx hhdr hpath
  paths := h.paths
  opened := h.opened
  inDir := h.inDir
  inj := h.inj
  fresh := h.fresh
  closed := h.closed

/-- A handle that is left as it is. -/
theorem Good.evolves_refl (h : Good s) {fd : ℤ} {x : Handle} (hx : s.handles fd = some x)
    (hcount : bpm'.fd2pageno fd = s.bpm.fd2pageno fd) : Evolves bpm' fd x x := by
  have hok := h.handle fd x hx
  refine ⟨rfl, hok.allocated, hcount.trans hok.count, hcount ▸ hok.pages, fun hdr hhdr => ⟨hdr, hhdr⟩,
    fun hdr hhdr => ⟨hdr, hhdr, rfl, rfl, rfl, ?_, ?_⟩⟩
  · rw [hcount]
    exact (h.index fd x hdr hx hhdr).count
  · exact (h.index fd x hdr hx hhdr).int

/-- A call that is for a page of an open file. -/
theorem Good.bring (h : Good s) {pid : PageId} {file : FileNo} (heff : Effect s.bpm bpm' (· = pid)) (hids : IdsOk bpm')
    (hcount : bpm'.fd2pageno = s.bpm.fd2pageno) (hfile : s.opened pid.fd = some file)
    (hlt : pid.pageNo < s.bpm.fd2pageno pid.fd) (hpos : 1 ≤ pid.pageNo) : Good (s.bring bpm' pid file) := by
  refine h.pool heff hids (fun fd => (congrFun hcount fd).ge) ?_ ?_
    (fun p x hdr hb _ _ => hb ▸ hpos) fun fd x hx => ⟨x, hx, h.evolves_refl hx (congrFun hcount fd)⟩
  · intro p hp
    split
    next hnone =>
      refine Function.update_of_ne (fun heq => hp ?_) ..
      rw [heq, hnone]
    next => rfl
  · intro p hb hold _
    subst hb
    rw [if_pos hold, Function.update_self, hfile, hcount]
    exact ⟨Option.some_ne_none file, rfl, hlt⟩

/-- `new_page` through a handle: the counter moves by one, or nothing happens. -/
theorem Good.allocate (h : Good s) {fd : ℤ} {x : Handle} {io : Io} {hdr : Hdr} (hx : s.handles fd = some x)
    (hpages : hdr.numPages ≤ (s.bpm.newPageIo io fd).1.fd2pageno fd)
    (htable : ∀ hdr', hdr = .table hdr' → ∃ hdr₀, x.hdr = .table hdr₀)
    (hindex : ∀ hdr', hdr = .index hdr' → ∃ hdr₀, x.hdr = .index hdr₀ ∧ hdr'.colNum = hdr₀.colNum ∧
      hdr'.colTypes = hdr₀.colTypes ∧ hdr'.colLens = hdr₀.colLens ∧
      hdr'.numPages = (s.bpm.newPageIo io fd).1.fd2pageno fd ∧ hdr'.numPages < 2 ^ 31) :
    Good (s.allocate io fd x hdr) := by
  have hok := h.handle fd x hx
  have habsent : s.bpm.pageTable ⟨fd, s.bpm.fd2pageno fd⟩ = none := by
    by_contra hne
    exact absurd (h.resident _ hne).2.2 (lt_irrefl _)
  have heff := effect_newPageIo h.table io fd
  have hids := h.ids.newPageIo h.table io fd habsent
  have hothers : ∀ fd', fd' ≠ fd → (s.bpm.newPageIo io fd).1.fd2pageno fd' = s.bpm.fd2pageno fd' := fun fd' hne => by
    rcases newPageIo_counters s.bpm io fd with hnone | ⟨hcount, -⟩
    · rw [hnone]
    · rw [hcount, Function.update_of_ne hne]
  -- the number is taken, and the page may be in the pool, or there is no frame and nothing has changed
  have hmoves : (s.bpm.newPageIo io fd).1.fd2pageno fd = s.bpm.fd2pageno fd + 1 ∨ (s.bpm.newPageIo io fd).1 = s.bpm := by
    rcases newPageIo_counters s.bpm io fd with hnone | ⟨hcount, -⟩
    · exact .inr (by rw [hnone])
    · exact .inl (by rw [hcount, Function.update_self])
  simp only [Files.allocate, Files.setHandle, Files.bring, if_pos habsent]
  refine h.pool heff hids ?_ ?_ ?_ ?_ ?_
  · intro fd'
    by_cases hne : fd' = fd
    · subst hne
      rcases hmoves with hmoves | hsame
      · omega
      · rw [hsame]
    · exact (hothers fd' hne).ge
  · intro p hp
    refine Function.update_of_ne (fun heq => hp ?_) ..
    rw [heq, habsent]
  · intro p hb hold hres
    subst hb
    rw [Function.update_self, hok.file]
    refine ⟨Option.some_ne_none _, rfl, ?_⟩
    rcases hmoves with hmoves | hsame
    · exact (Int.lt_succ _).trans_eq hmoves.symm
    · rw [hsame] at hres
      exact absurd habsent hres
  · intro p y hdr₀ hb hy hhdr
    subst hb
    have hidx := h.index fd y hdr₀ hy hhdr
    rw [← hidx.count]
    exact hidx.pos
  · intro fd' h' hh'
    by_cases hne : fd' = fd
    · subst hne
      simp only [Function.update_self, Option.some.injEq] at hh'
      subst hh'
      refine ⟨x, hx, rfl, ?_, ?_, hpages, htable, hindex⟩
      · rcases hmoves with hmoves | hsame
        · rw [if_neg (by omega)]
          rw [List.length_append, List.length_singleton, List.range_succ, List.map_append, ← hok.allocated, hok.count]
          rfl
        · rw [if_pos (by rw [hsame])]
          exact hok.allocated
      · rcases hmoves with hmoves | hsame
        · rw [if_neg (by omega), List.length_append, List.length_singleton, hmoves, hok.count]
          push_cast
          omega
        · rw [if_pos (by rw [hsame]), hsame]
          exact hok.count
    · rw [Function.update_of_ne hne] at hh'
      exact ⟨h', hh', h.evolves_refl hh' (hothers fd' hne)⟩

theorem SameLayout.numPages {hdr hdr' : Hdr} (h : SameLayout hdr hdr') : hdr'.numPages = hdr.numPages := by
  cases h <;> rfl

theorem SameLayout.table_of {hdr hdr' : Hdr} (h : SameLayout hdr hdr') : ∀ y, hdr' = .table y → ∃ x, hdr = .table x := by
  cases h with
  | table n => exact fun _ _ => ⟨_, rfl⟩
  | index => intro y hy; cases hy

theorem SameLayout.index_of {hdr hdr' : Hdr} (h : SameLayout hdr hdr') : ∀ y, hdr' = .index y → ∃ x, hdr = .index x ∧
    y.colNum = x.colNum ∧ y.colTypes = x.colTypes ∧ y.colLens = x.colLens ∧ y.numPages = x.numPages := by
  cases h with
  | table n => intro y hy; cases hy
  | index =>
    intro y hy
    cases hy
    exact ⟨_, rfl, rfl, rfl, rfl, rfl⟩

/-- The record of the answers is not looked at. -/
theorem Good.setHonest (h : Good s) (honest : Prop) : Good { s with honest := honest } :=
  { h with
    handle := fun fd x hx =>
      have hok := h.handle fd x hx
      ⟨hok.file, hok.allocated, hok.count, hok.pages⟩
    index := fun fd x hdr hx hhdr =>
      have hok := h.index fd x hdr hx hhdr
      ⟨hok.count, hok.pos, hok.int, hok.types, hok.lens, hok.fits, hok.disk, hok.resident⟩ }

/-- A handle changes its header. -/
theorem Good.setHdr (h : Good s) {fd : ℤ} {x : Handle} {hdr : Hdr} (hx : s.handles fd = some x)
    (hsame : SameLayout x.hdr hdr) : Good (s.setHandle fd { x with hdr := hdr }) := by
  have hok := h.handle fd x hx
  refine h.pool (Effect.refl h.table) h.ids (fun _ => le_refl _) (fun _ _ => rfl) (fun p hb _ _ => hb.elim)
    (fun p _ _ hb _ _ => hb.elim) ?_
  intro fd' h' hh'
  by_cases hne : fd' = fd
  · subst hne
    rw [Function.update_self] at hh'
    obtain rfl := Option.some.inj hh'
    refine ⟨x, hx, rfl, hok.allocated, hok.count, hsame.numPages ▸ hok.pages, hsame.table_of, ?_⟩
    intro y hy
    obtain ⟨hdr₀, hhdr, hnum, htypes, hlens, hpages⟩ := hsame.index_of y hy
    have hidx := h.index fd' x hdr₀ hx hhdr
    exact ⟨hdr₀, hhdr, hnum, htypes, hlens, hpages.trans hidx.count, hpages ▸ hidx.int⟩
  · rw [Function.update_of_ne hne] at hh'
    exact ⟨h', hh', h.evolves_refl hh' rfl⟩

/-- The pages of an open file on disk change. -/
theorem Good.setPages (h : Good s) (fd : ℤ) (file : Pages)
    (hindex : ∀ x hdr, s.handles fd = some x → x.hdr = .index hdr → ∀ n, file n ≠ none → n < hdr.numPages) :
    Good (DiskManager.setPages s fd file) :=
  { h with
    handle := fun fd' x hx =>
      have hok := h.handle fd' x hx
      ⟨hok.file, hok.allocated, hok.count, hok.pages⟩
    index := fun fd' x hdr hx hhdr => by
      have hok := h.index fd' x hdr hx hhdr
      refine ⟨hok.count, hok.pos, hok.int, hok.types, hok.lens, hok.fits, ?_, hok.resident⟩
      intro n hn
      simp only [DiskManager.setPages] at hn
      split at hn
      next heq =>
        subst heq
        exact hindex x hdr hx hhdr n hn
      next => exact hok.disk n hn }

theorem Call.of_stays {c : Call} (h : Call.stays c = true) (bpm : BufferPoolManager) :
    (∀ pid, ¬ c.brings bpm pid) ∧ ¬ bpm.AllocatesResident c ∧ ∀ fd, c ≠ .new fd := by
  cases c with
  | fetch _ => cases h
  | new _ => cases h
  | deleteAll _ => cases h
  | _ => exact ⟨fun _ => id, id, fun _ hc => by cases hc⟩

/-- **A use of a handle.** -/
theorem Good.use {s' : Files} (h : Good s) (huse : Use s s') : Good s' := by
  cases huse with
  | @fetch fd n x io hx hpos hlt =>
    have hok := h.handle fd x hx
    exact h.bring (effect_fetchPageIo h.table io ⟨fd, n⟩) (h.ids.fetchPageIo h.table io ⟨fd, n⟩)
      (fetchPageIo_counters s.bpm io ⟨fd, n⟩) hok.file (lt_of_lt_of_le hlt hok.pages) hpos
  | @createNewPageHandle fd x hdr io hx hhdr =>
    refine h.allocate hx ?_ (fun _ _ => ⟨hdr, hhdr⟩) fun hdr' hhdr' => by cases hhdr'
    have hpages := (h.handle fd x hx).pages
    rw [hhdr] at hpages
    rcases newPageIo_counters s.bpm io fd with hnone | ⟨hcount, hout⟩
    · rw [hnone]
      exact hpages
    · rw [hcount, Function.update_self]
      simp only [Hdr.numPages] at hpages ⊢
      split
      · exact Int.add_le_add_right hpages 1
      · omega
  | @createNode fd x hdr io hx hhdr hint hframe =>
    have hidx := h.index fd x hdr hx hhdr
    have hcount : (s.bpm.newPageIo io fd).1.fd2pageno fd = hdr.numPages + 1 := by
      rcases newPageIo_counters s.bpm io fd with hnone | ⟨hcount, -⟩
      · exact absurd (congrArg Prod.snd hnone) hframe
      · rw [hcount, Function.update_self, hidx.count]
    refine h.allocate hx hcount.ge (fun hdr' hhdr' => by cases hhdr') ?_
    intro hdr' hhdr'
    cases hhdr'
    exact ⟨hdr, hhdr, rfl, rfl, rfl, hcount.symm, hint⟩
  | @call c io bpm hstep hstays =>
    obtain ⟨hbrings, habsent, hnew⟩ := Call.of_stays hstays s.bpm
    have hcount := hstep.counters hnew
    refine h.pool (hstep.effect h.table) (hstep.idsOk h.ids h.table habsent) (fun fd => (congrFun hcount fd).ge)
      (fun _ _ => rfl) (fun pid hb _ _ => absurd hb (hbrings pid)) (fun pid _ _ hb _ _ => absurd hb (hbrings pid))
      fun fd x hx => ⟨x, hx, h.evolves_refl hx (congrFun hcount fd)⟩
  | @setHdr fd x hdr hx hsame => exact h.setHdr hx hsame
  | @writeHdr fd x hdr bytes hx hhdr =>
    refine h.setPages fd _ ?_
    intro y hdr' hy hhdr'
    rw [Option.some.inj (hx.symm.trans hy), hhdr'] at hhdr
    cases hhdr

end Pool

/-! ### The disk manager -/

/-- From a state with `P`, as far as the answers were true, to one with `Q`, or to an exception in a good state. -/
def Spec {α : Type} (P : Files → Prop) (x : FileM α) (Q : α → Files → Prop) : Prop :=
  Triple (fun s => s.honest → P s) x (fun a s => s.honest → Q a s) fun e s => e = .died ∨ (s.honest → Good s)

theorem Spec.bind {α β : Type} {P : Files → Prop} {R : α → Files → Prop} {Q : β → Files → Prop} {x : FileM α}
    {f : α → FileM β} (hx : Spec P x R) (hf : ∀ a, Spec (R a) (f a) Q) : Spec P (x >>= f) Q := Triple.bind hx hf

theorem Spec.conseq {α : Type} {P P' : Files → Prop} {Q Q' : α → Files → Prop} {x : FileM α} (h : Spec P x Q)
    (hP : ∀ s, P' s → P s) (hQ : ∀ a s, Q a s → Q' a s) : Spec P' x Q' :=
  Triple.conseq h (fun s hs hh => hP s (hs hh)) (fun a s hs hh => hQ a s (hs hh)) fun _ _ => id

/-- A file is open that has no handle and no page in the pool. -/
structure Opened (s : Files) (fd : ℤ) (path : String) (file : Pages) : Prop where
  good : Good s
  path : s.fd2path fd = some path
  handle : s.handles fd = none
  absent : ∀ n, s.bpm.pageTable ⟨fd, n⟩ = none
  pages : filePages s fd = file

variable {s : Files} {os : Os} {fd : ℤ} {path : String}

theorem Good.create (h : Good s) (hpath : s.dir path = none) : Good { s with
    dir := update s.dir path (some s.nextFile)
    pages := update s.pages s.nextFile fun _ => none
    nextFile := s.nextFile + 1 } where
  table := h.table
  ids := h.ids
  resident := h.resident
  handle fd x hx :=
    have hok := h.handle fd x hx
    ⟨hok.file, hok.allocated, hok.count, hok.pages⟩
  index fd x hdr hx hhdr :=
    have hok := h.index fd x hdr hx hhdr
    ⟨hok.count, hok.pos, hok.int, hok.types, hok.lens, hok.fits, hok.disk, hok.resident⟩
  tableName := h.tableName
  paths := h.paths
  opened fd := by
    rw [h.opened]
    rcases hfd : s.fd2path fd with _ | p
    · rfl
    · have hne : p ≠ path := fun heq => h.inDir fd p hfd (heq ▸ hpath)
      exact (Function.update_of_ne hne ..).symm
  inDir fd p hp := by
    have hne : p ≠ path := fun heq => h.inDir fd p hp (heq ▸ hpath)
    simp only [Function.update_of_ne hne]
    exact h.inDir fd p hp
  inj p q file hp hq := by
    have hnew : ∀ r, s.dir r ≠ some s.nextFile := fun r hr => absurd (h.fresh r _ hr) (lt_irrefl _)
    simp only [Function.update_apply] at hp hq
    split at hp
    next hpeq =>
      split at hq
      next hqeq => rw [hpeq, hqeq]
      next => exact absurd (Option.some.inj hp ▸ hq) (hnew q)
    next =>
      split at hq
      next => exact absurd (Option.some.inj hq ▸ hp) (hnew p)
      next => exact h.inj p q file hp hq
  fresh p file hp := by
    simp only [Function.update_apply] at hp
    split at hp
    next =>
      rw [← Option.some.inj hp]
      exact Nat.lt_succ_self _
    next => exact Nat.lt_succ_of_lt (h.fresh p file hp)
  closed p file hp hclosed hname := by
    simp only [Function.update_apply] at hp
    split at hp
    next =>
      rw [← Option.some.inj hp]
      simp only [Function.update_self]
      exact fun _ _ n hn => absurd rfl hn
    next =>
      have hne : file ≠ s.nextFile := fun heq => absurd (h.fresh p file hp) (heq ▸ lt_irrefl _)
      simp only [Function.update_of_ne hne]
      exact h.closed p file hp hclosed hname

theorem spec_createFile (os : Os) (path : String) : Spec Good (DiskManager.createFile os path)
    fun _ s => Good s ∧ ∀ file, s.dir path = some file → s.pages file = fun _ => none := by
  intro s hs
  unfold DiskManager.createFile
  split
  · exact .inr hs
  next hpath =>
    split
    · exact .inr hs
    · split
      · exact .inr fun hh => (hs hh).create hpath
      · refine fun hh => ⟨(hs hh).create hpath, ?_⟩
        intro file hfile
        simp only [Function.update_self, Option.some.injEq] at hfile ⊢
        subst hfile
        rw [Function.update_self]

theorem Good.destroy (h : Good s) (hclosed : s.path2fd path = none) : Good { s with dir := update s.dir path none } := by
  have hne : ∀ fd p, s.fd2path fd = some p → p ≠ path := by
    rintro fd p hp rfl
    rw [(h.paths fd p).mp hp] at hclosed
    cases hclosed
  have hold : ∀ p file, update s.dir path none p = some file → s.dir p = some file := fun p file hp => by
    rw [Function.update_apply] at hp
    split at hp
    · cases hp
    · exact hp
  exact { h with
    handle := fun fd x hx =>
      have hok := h.handle fd x hx
      ⟨hok.file, hok.allocated, hok.count, hok.pages⟩
    index := fun fd x hdr hx hhdr =>
      have hok := h.index fd x hdr hx hhdr
      ⟨hok.count, hok.pos, hok.int, hok.types, hok.lens, hok.fits, hok.disk, hok.resident⟩
    opened := fun fd => by
      rw [h.opened]
      rcases hfd : s.fd2path fd with _ | p
      · rfl
      · exact (Function.update_of_ne (hne fd p hfd) ..).symm
    inDir := fun fd p hp => by
      simp only [Function.update_of_ne (hne fd p hp)]
      exact h.inDir fd p hp
    inj := fun p q file hp hq => h.inj p q file (hold p file hp) (hold q file hq)
    fresh := fun p file hp => h.fresh p file (hold p file hp)
    closed := fun p file hp => h.closed p file (hold p file hp) }

theorem spec_destroyFile (os : Os) (path : String) : Spec Good (DiskManager.destroyFile os path) fun _ => Good := by
  intro s hs
  unfold DiskManager.destroyFile
  split
  · exact .inr hs
  next hclosed =>
    split
    · exact .inr hs
    · split
      · exact .inr hs
      · exact fun hh => (hs hh).destroy hclosed

/-- A descriptor that was free is opened for a file. -/
theorem Good.open (h : Good s) {file : FileNo} (hclosed : s.path2fd path = none) (hdir : s.dir path = some file)
    (hfree : s.opened fd = none) (count : ℤ) (honest : Prop) : Good { s with
      path2fd := update s.path2fd path (some fd)
      fd2path := update s.fd2path fd (some path)
      opened := update s.opened fd (some file)
      bpm := { s.bpm with
        disk := fun pid => if pid.fd = fd then s.pages file pid.pageNo else s.bpm.disk pid
        fd2pageno := update s.bpm.fd2pageno fd count }
      honest := honest } := by
  have hpath := h.fd2path_none hfree
  have hhandle : ∀ fd' x, s.handles fd' = some x → fd' ≠ fd := by
    rintro fd' x hx rfl
    rw [h.handles_none hfree] at hx
    cases hx
  exact {
    table := h.table
    ids := h.ids
    resident := fun pid hpid => by
      have hne : pid.fd ≠ fd := fun heq => (h.resident pid hpid).1 (heq ▸ hfree)
      simp only [Function.update_of_ne hne]
      exact h.resident pid hpid
    handle := fun fd' x hx => by
      have hne := hhandle fd' x hx
      have hok := h.handle fd' x hx
      refine ⟨?_, hok.allocated, ?_, ?_⟩ <;> simp only [Function.update_of_ne hne]
      exacts [hok.file, hok.count, hok.pages]
    index := fun fd' x hdr hx hhdr => by
      have hne := hhandle fd' x hx
      have hok := h.index fd' x hdr hx hhdr
      refine ⟨?_, hok.pos, hok.int, hok.types, hok.lens, hok.fits, ?_, hok.resident⟩
      · simp only [Function.update_of_ne hne]
        exact hok.count
      · intro n hn
        simp only [if_neg hne] at hn
        exact hok.disk n hn
    tableName := fun fd' x hdr p hx hhdr hp => by
      simp only [Function.update_of_ne (hhandle fd' x hx)] at hp
      exact h.tableName fd' x hdr p hx hhdr hp
    paths := fun fd' p => by
      have hold := h.paths fd' p
      simp only [Function.update_apply]
      split
      next hfd =>
        subst hfd
        split
        next hp => simp [hp]
        next hp =>
          rw [← hold, hpath]
          simp [Ne.symm hp]
      next hfd =>
        split
        next hp =>
          subst hp
          rw [hold, hclosed]
          simp [Ne.symm hfd]
        next => exact hold
    opened := fun fd' => by
      simp only [Function.update_apply]
      split
      · exact hdir.symm
      · exact h.opened fd'
    inDir := fun fd' p hp => by
      simp only [Function.update_apply] at hp
      split at hp
      · rw [← Option.some.inj hp, hdir]
        exact Option.some_ne_none file
      · exact h.inDir fd' p hp
    inj := h.inj
    fresh := h.fresh
    closed := fun p file' hp hnone hname => by
      simp only [Function.update_apply] at hnone
      split at hnone
      · cases hnone
      · exact h.closed p file' hp hnone hname }

/-- `open_file`: the pages are those of the file, and the counter comes from its size. -/
theorem spec_openFile (K : Pages → Prop) (os : Os) (path : String) :
    Spec (fun s => Good s ∧ ∀ file, s.dir path = some file → K (s.pages file)) (DiskManager.openFile os path)
      fun fd s => ∃ file, Opened s fd path file ∧ K file ∧ (IsIndexName path → Counted file) ∧
        ∃ size, SizeOf file size ∧ s.bpm.fd2pageno fd = pagesOfSize size := by
  intro s hs
  have hthrow : ∀ e, e = DbError.died ∨ (s.honest → Good s) := fun _ => .inr fun hh => (hs hh).1
  unfold DiskManager.openFile
  split
  · exact hthrow _
  next hclosed =>
    split
    · exact hthrow _
    next file hdir =>
      split
      · exact hthrow _
      next fd size _ =>
        split
        · exact hthrow _
        · rintro ⟨hh, -, hfree, hsize⟩
          obtain ⟨hgood, hK⟩ := hs hh
          refine ⟨s.pages file, ⟨hgood.open hclosed hdir hfree _ _, Function.update_self .., hgood.handles_none hfree,
            hgood.absent hfree, ?_⟩, hK file hdir, hgood.closed path file hdir hclosed, size, hsize, Function.update_self ..⟩
          funext n
          simp only [filePages, if_true]

@[simp] theorem filePages_setPages (s : Files) (fd : ℤ) (file : Pages) : filePages (setPages s fd file) fd = file := by
  funext n
  simp only [filePages, setPages, if_true]

theorem Opened.setPages {file : Pages} (h : Opened s fd path file) (file' : Pages) : Opened (setPages s fd file') fd path file' where
  good := h.good.setPages fd file' fun x hdr hx => by
    rw [h.handle] at hx
    cases hx
  path := h.path
  handle := h.handle
  absent := h.absent
  pages := filePages_setPages s fd file'

/-- `write_page` to a file without a handle. -/
theorem spec_writePage (os : Os) (file : Pages) (fd pageNo : ℤ) (bytes : Bytes) : Spec (Opened · fd path file)
    (writePage os fd pageNo bytes) fun _ s => Opened s fd path (writeBytes file pageNo bytes) := by
  intro s hs
  unfold DiskManager.writePage
  split
  · exact .inr fun hh => ((hs hh).setPages _).good
  · intro hh
    have hopened := hs hh
    rw [hopened.pages]
    exact hopened.setPages _

theorem spec_readPage {P : Files → Prop} (hP : ∀ s, P s → Good s) (os : Os) (fd pageNo : ℤ) : Spec P (readPage os fd pageNo)
    fun src s => P s ∧ src = readBytes (filePages s fd) pageNo := by
  intro s hs
  unfold DiskManager.readPage
  split
  · exact .inr fun hh => hP s (hs hh)
  · exact fun hh => ⟨hs hh, rfl⟩

theorem Opened.setCount {file : Pages} (h : Opened s fd path file) (count : ℤ) :
    Opened { s with bpm := { s.bpm with fd2pageno := update s.bpm.fd2pageno fd count } } fd path file := by
  have hhandle : ∀ fd' x, s.handles fd' = some x → fd' ≠ fd := by
    rintro fd' x hx rfl
    rw [h.handle] at hx
    cases hx
  refine ⟨?_, h.path, h.handle, h.absent, h.pages⟩
  exact { h.good with
    resident := fun pid hpid => by
      have hne : pid.fd ≠ fd := by
        rintro rfl
        exact hpid (h.absent pid.pageNo)
      simp only [Function.update_of_ne hne]
      exact h.good.resident pid hpid
    handle := fun fd' x hx => by
      have hok := h.good.handle fd' x hx
      refine ⟨hok.file, hok.allocated, ?_, ?_⟩ <;> simp only [Function.update_of_ne (hhandle fd' x hx)]
      exacts [hok.count, hok.pages]
    index := fun fd' x hdr hx hhdr => by
      have hok := h.good.index fd' x hdr hx hhdr
      refine ⟨?_, hok.pos, hok.int, hok.types, hok.lens, hok.fits, hok.disk, hok.resident⟩
      simp only [Function.update_of_ne (hhandle fd' x hx)]
      exact hok.count }

theorem spec_setFd2pageno (file : Pages) (fd count : ℤ) : Spec (Opened · fd path file) (setFd2pageno fd count)
    fun _ s => Opened s fd path file := fun _ hs hh => (hs hh).setCount count

/-- A file is closed that has no page in the pool; its handle, if it has one, goes with it. -/
theorem Good.close (h : Good s) (hpath : s.fd2path fd = some path) (habsent : ∀ n, s.bpm.pageTable ⟨fd, n⟩ = none)
    (hcounted : IsIndexName path → Counted (filePages s fd)) : Good { s with
      path2fd := update s.path2fd path none
      fd2path := update s.fd2path fd none
      opened := update s.opened fd none
      pages := match s.opened fd with
        | some file => update s.pages file fun n => s.bpm.disk ⟨fd, n⟩
        | none => s.pages
      handles := update s.handles fd none } := by
  obtain ⟨file, hdir⟩ := Option.ne_none_iff_exists'.mp (h.inDir fd path hpath)
  have hopened : s.opened fd = some file := by rw [h.opened, hpath]; exact hdir
  have hhandle : ∀ fd' x, update s.handles fd none fd' = some x → fd' ≠ fd ∧ s.handles fd' = some x := fun fd' x hx => by
    rw [Function.update_apply] at hx
    split at hx
    · cases hx
    next hne => exact ⟨hne, hx⟩
  have hfd : ∀ fd' p, update s.fd2path fd none fd' = some p → fd' ≠ fd ∧ s.fd2path fd' = some p := fun fd' p hp => by
    rw [Function.update_apply] at hp
    split at hp
    · cases hp
    next hne => exact ⟨hne, hp⟩
  simp only [hopened]
  exact {
    table := h.table
    ids := h.ids
    resident := fun pid hpid => by
      have hne : pid.fd ≠ fd := by
        rintro rfl
        exact hpid (habsent pid.pageNo)
      simp only [Function.update_of_ne hne]
      exact h.resident pid hpid
    handle := fun fd' x hx => by
      obtain ⟨hne, hx⟩ := hhandle fd' x hx
      have hok := h.handle fd' x hx
      refine ⟨?_, hok.allocated, hok.count, hok.pages⟩
      simp only [Function.update_of_ne hne]
      exact hok.file
    index := fun fd' x hdr hx hhdr =>
      have hok := h.index fd' x hdr (hhandle fd' x hx).2 hhdr
      ⟨hok.count, hok.pos, hok.int, hok.types, hok.lens, hok.fits, hok.disk, hok.resident⟩
    tableName := fun fd' x hdr p hx hhdr hp => h.tableName fd' x hdr p (hhandle fd' x hx).2 hhdr (hfd fd' p hp).2
    paths := fun fd' p => by
      have hold := h.paths fd' p
      simp only [Function.update_apply]
      split
      next heq =>
        subst heq
        split
        next => simp
        next hp =>
          rw [← hold, hpath]
          simp [Ne.symm hp]
      next hne =>
        split
        next heq =>
          subst heq
          rw [hold, (h.paths fd p).mp hpath]
          simp [Ne.symm hne]
        next => exact hold
    opened := fun fd' => by
      simp only [Function.update_apply]
      split
      · rfl
      · exact h.opened fd'
    inDir := fun fd' p hp => h.inDir fd' p (hfd fd' p hp).2
    inj := h.inj
    fresh := h.fresh
    closed := fun p file' hp hnone hname => by
      by_cases heq : p = path
      · subst heq
        obtain rfl : file' = file := Option.some.inj (hp.symm.trans hdir)
        simp only [Function.update_self]
        exact hcounted hname
      · have hne : file' ≠ file := fun hf => heq (h.inj p path file (hf ▸ hp) hdir)
        simp only [Function.update_of_ne heq] at hnone
        simp only [Function.update_of_ne hne]
        exact h.closed p file' hp hnone hname }

/-- `close_file` of a file without a handle. -/
theorem spec_closeFile (os : Os) (file : Pages) (fd : ℤ) : Spec (fun s => Opened s fd path file ∧ (IsIndexName path → Counted file))
    (DiskManager.closeFile os fd) fun _ => Good := by
  intro s hs
  unfold DiskManager.closeFile
  split
  · exact .inr fun hh => (hs hh).1.good
  next p hp =>
    split
    · exact .inr fun hh => (hs hh).1.good
    · intro hh
      obtain ⟨hopened, hcounted⟩ := hs hh
      obtain rfl := Option.some.inj (hp.symm.trans hopened.path)
      have hgood := hopened.good.close hp hopened.absent (hopened.pages.symm ▸ hcounted)
      rwa [← hopened.handle, Function.update_eq_self] at hgood

/-! ### Closing a handle -/

/-- The bytes of an index header. -/
theorem length_serialize {hdr : IxFileHdr} (htypes : hdr.colTypes.length = hdr.colNum.toNat)
    (hlens : hdr.colLens.length = hdr.colNum.toNat) : hdr.serialize.length = 40 + 8 * hdr.colNum.toNat := by
  rw [IxFileHdr.serialize, length_flatMap_intBytes, IxFileHdr.ints, List.take_of_length_le htypes.le,
    List.take_of_length_le hlens.le]
  simp only [List.length_append, List.length_cons, List.length_nil, List.length_map, htypes, hlens]
  omega

/-- A write to the first page of an index. -/
theorem IndexOk.writeBytes {hdr : IxFileHdr} (h : IndexOk s fd hdr) {bytes : Bytes} (hlen : bytes.length ≤ PAGE_SIZE) {n : ℤ}
    (hn : writeBytes (filePages s fd) IX_FILE_HDR_PAGE bytes n ≠ none) : n < hdr.numPages := by
  by_cases heq : n = IX_FILE_HDR_PAGE
  · have := h.pos
    rw [heq, IX_FILE_HDR_PAGE]
    omega
  · rw [writeBytes_other hlen _ heq] at hn
    exact h.disk n hn

/-- The header on disk is that of the handle, if it is an index. -/
def HdrWritten (s : Files) (fd : ℤ) (x : Handle) : Prop :=
  ∀ hdr hdr', x.hdr = .index hdr → openHdr (filePages s fd) = some hdr' → hdr'.numPages = hdr.numPages

/-- The header write of a handle that is closed. -/
theorem spec_writeHdr (os : Os) (fd : ℤ) (x : Handle) : Spec (fun s => Good s ∧ s.handles fd = some x)
    (writePage os fd IX_FILE_HDR_PAGE x.hdr.bytes) fun _ s => Good s ∧ s.handles fd = some x ∧ HdrWritten s fd x := by
  intro s hs
  have hwrite : ∀ bytes : Bytes, bytes.length ≤ x.hdr.bytes.length → s.honest →
      Good (setPages s fd (writeBytes (filePages s fd) IX_FILE_HDR_PAGE bytes)) := fun bytes hlen hh => by
    obtain ⟨hgood, hx⟩ := hs hh
    refine hgood.setPages fd _ ?_
    intro y hdr hy hhdr n hn
    have hok := hgood.index fd y hdr hy hhdr
    obtain rfl := Option.some.inj (hy.symm.trans hx)
    rw [hhdr, Hdr.bytes, length_serialize hok.types hok.lens] at hlen
    exact hok.writeBytes (hlen.trans hok.fits) hn
  unfold DiskManager.writePage
  split
  next k _ => exact .inr (hwrite _ (List.length_take_le' k _))
  next =>
    refine fun hh => ⟨hwrite _ (le_refl _) hh, (hs hh).2, ?_⟩
    intro hdr hdr' hhdr hopen
    rw [filePages_setPages, hhdr] at hopen
    have hok := (hs hh).1.index fd x hdr (hs hh).2 hhdr
    have hpos := hok.pos
    exact (openHdr_written hopen).1 ⟨by omega, hok.int⟩

/-- `delete_all_pages` for a handle that is closed: nothing of the file is left in the pool. -/
theorem spec_deleteAllPages (os : Os) (fd : ℤ) (x : Handle) :
    Spec (fun s => Good s ∧ s.handles fd = some x ∧ HdrWritten s fd x) (deleteAllPages os fd)
      fun _ s => Good s ∧ s.handles fd = some x ∧ HdrWritten s fd x ∧ ∀ n, s.bpm.pageTable ⟨fd, n⟩ = none := by
  intro s hs
  have hgood' : s.honest → s.bpm.Lists fd os.frames → ∀ honest, Good { s with
      bpm := (BufferPoolManager.deleteAllPagesIo os.io fd s.bpm os.frames).1, honest := honest } := fun hh hl honest => by
    have hgood := (hs hh).1
    have hcount := deleteAllPagesIo_counters os.io fd os.frames s.bpm
    refine (hgood.pool (effect_deleteAllPagesIo os.io fd hgood.table hl) (hgood.ids.deleteAllPagesIo os.io fd)
      (fun fd => (congrFun hcount fd).ge) (fun _ _ => rfl) (fun _ hb _ _ => hb.elim) (fun _ _ _ hb _ _ => hb.elim)
      fun fd y hy => ⟨y, hy, hgood.evolves_refl hy (congrFun hcount fd)⟩).setHonest honest
  unfold deleteAllPages
  simp only
  split
  next hret =>
    rintro ⟨hh, hl⟩
    obtain ⟨hgood, hx, hwritten⟩ := hs hh
    refine ⟨hgood' hh hl _, hx, ?_, ?_⟩
    · intro hdr hdr' hhdr hopen
      -- the header page was not in the pool, so it is as it was written
      have hok := hgood.index fd x hdr hx hhdr
      refine hwritten hdr hdr' hhdr ((openHdr_congr ?_).symm.trans hopen)
      have hvalid : IX_FILE_HDR_PAGE ≠ INVALID_PAGE_ID := by decide
      refine deleteAllPagesIo_disk os.io ⟨fd, IX_FILE_HDR_PAGE⟩ hvalid ?_
      intro f hf heq
      obtain ⟨pid, hpid, hpfd⟩ := (hl.2 f).mp hf
      rw [(hgood.table pid f hpid).1] at heq
      have hpos := hok.resident pid.pageNo (by rw [← hpfd, hpid]; exact Option.some_ne_none f)
      have hzero : pid.pageNo = 0 := heq
      omega
    · intro n
      exact deleteAllPagesIo_absent os.io fd hgood.table hl hret ⟨fd, n⟩ rfl
  next => exact .inr fun hh => hgood' hh.1 hh.2 _

/-- **A handle is closed.** -/
theorem spec_closeHandle (os : Os) (fd : ℤ) : Spec Good (closeHandle os IX_FILE_HDR_PAGE fd) fun _ => Good := by
  intro s hs
  unfold closeHandle
  split
  · exact .inl rfl
  next x hx =>
    have hclose : Spec (fun s => Good s ∧ s.handles fd = some x ∧ HdrWritten s fd x ∧ ∀ n, s.bpm.pageTable ⟨fd, n⟩ = none)
        (DiskManager.closeFile os fd) fun _ s => Good { s with handles := update s.handles fd none } := by
      intro s hs
      unfold DiskManager.closeFile
      split
      · exact .inr fun hh => (hs hh).1
      next path hpath =>
        split
        · exact .inr fun hh => (hs hh).1
        · intro hh
          obtain ⟨hgood, hx, hwritten, habsent⟩ := hs hh
          refine hgood.close hpath habsent ?_
          intro hname hdr' hopen n hn
          rcases hhdr : x.hdr with hdr | hdr
          · exact absurd hname (hgood.tableName fd x hdr path hx hhdr hpath)
          · rw [hwritten hdr hdr' hhdr hopen]
            exact (hgood.index fd x hdr hx hhdr).disk n hn
    have hdrop : Spec (fun s => Good { s with handles := update s.handles fd none })
        (modify fun s => { s with handles := update s.handles fd none }) fun _ => Good := Triple.modify fun _ h hh => h hh
    have hall := (spec_writeHdr os fd x).bind fun _ => (spec_deleteAllPages os fd x).bind fun _ => hclose.bind fun _ => hdrop
    exact hall s fun hh => ⟨hs hh, hx⟩

/-! ### The managers -/

/-- A handle comes to be. -/
theorem Opened.construct {file : Pages} {node : FileNo} {hdr : Hdr} (h : Opened s fd path file)
    (hnode : s.opened fd = some node) (htable : ∀ x, hdr = .table x → ¬ IsIndexName path)
    (hindex : ∀ x, hdr = .index x → IndexOk { s with
      bpm := { s.bpm with fd2pageno := update s.bpm.fd2pageno fd hdr.numPages } } fd x) : Good { s with
      bpm := { s.bpm with fd2pageno := update s.bpm.fd2pageno fd hdr.numPages }
      handles := update s.handles fd (some ⟨hdr, node, hdr.numPages, []⟩) } := by
  have hgood := (h.setCount hdr.numPages).good
  exact { hgood with
    handle := fun fd' x hx => by
      by_cases hne : fd' = fd
      · subst hne
        simp only [Function.update_self, Option.some.injEq] at hx
        subst hx
        refine ⟨hnode, rfl, ?_, ?_⟩ <;> simp only [Function.update_self]
        · exact (Int.add_zero _).symm
        · exact le_refl _
      · simp only [Function.update_of_ne hne] at hx
        have hok := hgood.handle fd' x hx
        exact ⟨hok.file, hok.allocated, hok.count, hok.pages⟩
    index := fun fd' x hdr' hx hhdr' => by
      have hok : IndexOk { s with bpm := { s.bpm with fd2pageno := update s.bpm.fd2pageno fd hdr.numPages } } fd' hdr' := by
        by_cases hne : fd' = fd
        · subst hne
          simp only [Function.update_self, Option.some.injEq] at hx
          subst hx
          exact hindex hdr' hhdr'
        · simp only [Function.update_of_ne hne] at hx
          exact hgood.index fd' x hdr' hx hhdr'
      exact ⟨hok.count, hok.pos, hok.int, hok.types, hok.lens, hok.fits, hok.disk, hok.resident⟩
    tableName := fun fd' x hdr' p hx hhdr' hp => by
      by_cases hne : fd' = fd
      · subst hne
        simp only [Function.update_self, Option.some.injEq] at hx
        subst hx
        obtain rfl := Option.some.inj (hp.symm.trans h.path)
        exact htable hdr' hhdr'
      · simp only [Function.update_of_ne hne] at hx
        exact hgood.tableName fd' x hdr' p hx hhdr' hp }

theorem bmod_le {x : ℤ} (hx : -2 ^ 31 ≤ x) : x.bmod (2 ^ 32) ≤ x ∧ -2 ^ 31 ≤ x.bmod (2 ^ 32) := by
  rw [Int.bmod_def]
  split <;> omega

/-- The counter that `open_file` starts from is at most the number of pages, whatever wraps. -/
theorem pagesOfSize_le {file : Pages} {size N : ℤ} (hsize : SizeOf file size) (hN : 0 ≤ N) (hfile : ∀ n, file n ≠ none → n < N) :
    pagesOfSize size ≤ N := by
  obtain ⟨hnonneg, -, hlast⟩ := hsize
  have hup : size ≤ N * PAGE_SIZE := by
    by_cases hpos : 0 < size
    · have := hfile _ (hlast hpos)
      unfold PAGE_SIZE at this ⊢
      omega
    · have : 0 ≤ N * (PAGE_SIZE : ℤ) := Int.mul_nonneg hN (Int.natCast_nonneg _)
      omega
  have hpage : (0 : ℤ) < PAGE_SIZE := by decide
  have hsum : (size.bmod (2 ^ 32) + (PAGE_SIZE - 1)).bmod (2 ^ 32) ≤ N * PAGE_SIZE + (PAGE_SIZE - 1) := by
    obtain ⟨h₁, h₂⟩ := bmod_le (x := size) (by omega)
    obtain ⟨h₃, -⟩ := bmod_le (x := size.bmod (2 ^ 32) + (PAGE_SIZE - 1)) (by omega)
    omega
  refine (Int.tdiv_le_tdiv hpage hsum).trans_eq ?_
  rw [Int.tdiv_eq_ediv_of_nonneg (Int.add_nonneg (Int.mul_nonneg hN hpage.le) (by omega))]
  unfold PAGE_SIZE
  omega

/-- The header of an index that is opened. -/
theorem Opened.indexOk {file : Pages} {hdr : IxFileHdr} (h : Opened s fd path file) (hopen : openHdr file = some hdr)
    (hcounted : Counted file) : IndexOk { s with
      bpm := { s.bpm with fd2pageno := update s.bpm.fd2pageno fd hdr.numPages } } fd hdr := by
  obtain ⟨-, -, -, -, htypes, hlens, hlen⟩ := IxFileHdr.deserialize_fields hopen
  have hint := (IxFileHdr.deserialize_bounds hopen).2
  have hdisk : ∀ n, s.bpm.disk ⟨fd, n⟩ ≠ none → n < hdr.numPages := fun n hn =>
    hcounted hdr hopen n (by rw [← h.pages]; exact hn)
  refine ⟨?_, ?_, hint.2, htypes, hlens, ?_, hdisk, fun n hn => absurd (h.absent n) hn⟩
  · simp only [Function.update_self]
  · have hzero : file IX_FILE_HDR_PAGE ≠ none := fun hnone => by
      rw [openHdr_blank hnone] at hopen
      cases hopen
    exact hcounted hdr hopen _ hzero
  · rwa [readBytes, length_cellsAt] at hlen

theorem spec_construct {P : Files → Prop} {hdr : Hdr} {count : ℤ} (hcount : ∀ s, P s → count = hdr.numPages)
    (hP : ∀ s, P s → ∃ path file, Opened s fd path file ∧ (∀ x, hdr = .table x → ¬ IsIndexName path) ∧
      ∀ x, hdr = .index x → openHdr file = some x ∧ Counted file) : Spec P (construct fd hdr count) fun _ => Good := by
  intro s hs
  unfold construct
  split
  · exact .inl rfl
  next node hnode =>
    intro hh
    obtain ⟨path, file, hopened, htable, hindex⟩ := hP s (hs hh)
    rw [hcount s (hs hh)]
    refine hopened.construct hnode htable ?_
    intro x hx
    obtain ⟨hopen, hcounted⟩ := hindex x hx
    subst hx
    exact hopened.indexOk hopen hcounted

/-- A file without pages. -/
def blank : Pages := fun _ => none

/-- A file is created and opened. -/
theorem spec_createOpen (os : Os) (path : String) : Spec Good
    (do DiskManager.createFile os path; DiskManager.openFile os path) fun fd s => Opened s fd path blank := by
  refine (spec_createFile os path).bind fun _ => (spec_openFile (· = blank) os path).conseq (fun _ h => h) ?_
  intro fd s h
  obtain ⟨file, hopened, rfl, -⟩ := h
  exact hopened

theorem spec_return {P : Files → Prop} {α : Type} (a : α) : Spec P (pure a) fun _ => P := Triple.pure fun _ h => h

namespace RmManager

theorem spec_createFile (os : Os) {filename : String} (recordSize : Int32) (hname : ¬ IsIndexName filename) :
    Spec Good (createFile os filename recordSize) fun _ => Good := by
  unfold createFile
  split
  · exact Triple.throw fun s hs => .inr hs
  · have hall := (spec_createOpen os filename).bind fun fd =>
      (spec_writePage os blank fd RM_FILE_HDR_PAGE (fileHdr recordSize.toInt).bytes).bind fun _ =>
        (spec_closeFile os _ fd).conseq (fun _ h => ⟨h, fun h' => absurd h' hname⟩) fun _ _ => id
    rwa [bind_assoc] at hall

theorem spec_openFile (os : Os) {filename : String} (hname : ¬ IsIndexName filename) :
    Spec Good (openFile os filename) fun _ => Good := by
  refine ((Fs.spec_openFile (fun _ => True) os filename).conseq (fun _ h => ⟨h, fun _ _ => trivial⟩) fun _ _ => id).bind
    fun fd => (spec_readPage (fun _ h => ?_) os fd RM_FILE_HDR_PAGE).bind fun src =>
      (spec_construct (fun _ _ => rfl) fun s h => ?_).bind fun _ => spec_return fd
  · obtain ⟨file, hopened, -⟩ := h
    exact hopened.good
  · obtain ⟨⟨file, hopened, -⟩, -⟩ := h
    exact ⟨filename, file, hopened, fun _ _ => hname, fun x hx => by cases hx⟩

end RmManager

namespace IxManager

/-- What `create_index` writes. -/
def created (indexCols : List Catalog.ColMeta) (order : ℤ) : Pages :=
  writeBytes (writeBytes (writeBytes blank IX_FILE_HDR_PAGE (fileHdr indexCols order).serialize)
    IX_LEAF_HEADER_PAGE (leafPage IX_INIT_ROOT_PAGE IX_INIT_ROOT_PAGE))
    IX_INIT_ROOT_PAGE (leafPage IX_LEAF_HEADER_PAGE IX_LEAF_HEADER_PAGE)

theorem length_leafPage (prevLeaf nextLeaf : ℤ) : (leafPage prevLeaf nextLeaf).length = PAGE_SIZE := by
  rw [leafPage, List.length_append, length_flatMap_intBytes, List.length_replicate]
  rfl

/-- A new index file has the pages that its header counts. -/
theorem counted_created (indexCols : List Catalog.ColMeta) (order : ℤ) : Counted (created indexCols order) := by
  intro hdr hopen n hn
  have hleaf : ∀ p q, (leafPage p q).length ≤ PAGE_SIZE := fun p q => (length_leafPage p q).le
  have hpage : created indexCols order IX_FILE_HDR_PAGE =
      writeBytes blank IX_FILE_HDR_PAGE (fileHdr indexCols order).serialize IX_FILE_HDR_PAGE := by
    rw [created, writeBytes_other (hleaf _ _) _ (by decide), writeBytes_other (hleaf _ _) _ (by decide)]
  have hopen' : openHdr (writeBytes blank IX_FILE_HDR_PAGE (fileHdr indexCols order).serialize) = some hdr :=
    (openHdr_congr hpage).symm.trans hopen
  obtain ⟨hnum, hcol⟩ := openHdr_written hopen'
  have hinit : Record.InInt IX_INIT_NUM_PAGES := ⟨by decide, by decide⟩
  have hthree : hdr.numPages = 3 := hnum hinit
  rw [hthree]
  by_contra hge
  have hone : n ≠ IX_LEAF_HEADER_PAGE := fun h => hge (h ▸ by decide)
  have htwo : n ≠ IX_INIT_ROOT_PAGE := fun h => hge (h ▸ by decide)
  have hzero : n ≠ IX_FILE_HDR_PAGE := fun h => hge (h ▸ by decide)
  -- the header can be read, so it has no more columns than fit into its page
  have hlen : (fileHdr indexCols order).serialize.length ≤ PAGE_SIZE := by
    obtain ⟨-, -, -, -, -, -, hfits⟩ := IxFileHdr.deserialize_fields hopen'
    have hcolNum : hdr.colNum = (fileHdr indexCols order).colNum :=
      hcol ⟨Int32.le_toInt _, Int32.toInt_lt _⟩
    rw [hcolNum, readBytes, length_cellsAt] at hfits
    rw [IxFileHdr.serialize, length_flatMap_intBytes, IxFileHdr.ints]
    simp only [List.length_append, List.length_cons, List.length_nil, List.length_map, List.length_take]
    omega
  rw [created, writeBytes_other (hleaf _ _) _ htwo, writeBytes_other (hleaf _ _) _ hone, writeBytes_other hlen _ hzero] at hn
  exact hn rfl

theorem spec_createIndex (os : Os) (ixName : String) (indexCols : List Catalog.ColMeta) :
    Spec Good (createIndex os ixName indexCols) fun _ => Good := by
  rw [createIndex, ← bind_assoc]
  refine (spec_createOpen os ixName).bind ?_
  intro fd
  split
  · exact Triple.throw fun s hs => .inr fun hh => (hs hh).good
  · split
    · exact Triple.throw fun s hs => .inl rfl
    next order _ =>
      exact (spec_writePage os blank fd _ _).bind fun _ => (spec_writePage os _ fd _ _).bind fun _ =>
        (spec_writePage os _ fd _ _).bind fun _ => (spec_setFd2pageno _ fd _).bind fun _ =>
          (spec_closeFile os _ fd).conseq (fun _ h => ⟨h, fun _ => counted_created indexCols order⟩) fun _ _ => id

theorem spec_openIndex (os : Os) {ixName : String} (hname : IsIndexName ixName) :
    Spec Good (openIndex os ixName) fun _ => Good := by
  refine ((Fs.spec_openFile (fun _ => True) os ixName).conseq (fun _ h => ⟨h, fun _ _ => trivial⟩) fun _ _ => id).bind
    fun fd => (spec_readPage ?_ os fd IX_FILE_HDR_PAGE).bind ?_
  · intro _ h
    obtain ⟨file, hopened, -⟩ := h
    exact hopened.good
  · intro src
    split
    · exact Triple.throw fun s hs => .inl rfl
    next hdr hdes =>
      have hread : ∀ P : Files → Prop, Spec P (getFd2pageno fd)
          fun now s => P s ∧ now = s.bpm.fd2pageno fd := fun P s hs hh => ⟨hs hh, rfl⟩
      refine (hread _).bind fun now => (spec_construct ?_ ?_).bind fun _ => spec_return fd
      · intro s h
        -- the file has no page that its header does not count
        obtain ⟨⟨⟨file, hopened, -, hcounted, size, hsize, hnow⟩, hsrc⟩, rfl⟩ := h
        rw [hsrc, hopened.pages] at hdes
        have hopen : openHdr file = some hdr := hdes
        have hok := hopened.indexOk hopen (hcounted hname)
        have hpos := hok.pos
        rw [hnow]
        exact max_eq_right (pagesOfSize_le hsize (by omega) (hcounted hname hdr hopen))
      · intro s h
        obtain ⟨⟨⟨file, hopened, -, hcounted, -⟩, hsrc⟩, -⟩ := h
        rw [hsrc, hopened.pages] at hdes
        refine ⟨ixName, file, hopened, fun x hx => (by cases hx), ?_⟩
        intro x hx
        cases hx
        exact ⟨hdes, hcounted hname⟩

end IxManager

end Rmdb.Fs
