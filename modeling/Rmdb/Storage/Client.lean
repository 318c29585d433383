import Rmdb.Storage.Contents
import Mathlib.Data.List.Perm.Subperm

/-!
# One pin at a time

A client that holds at most one pin, alone on the pool. While it holds none, every frame is
free or can be replaced (`Idle`), so that `fetch_page` and `new_page` never run out of
frames; while it holds one, every other frame is (`Held`).
-/

namespace Rmdb.Storage

/-- Nobody holds a pin. -/
structure Idle (bpm : BufferPoolManager) (contents : PageId → PageData) : Prop where
  good : Good ⟨bpm, []⟩ contents
  room : 0 < bpm.poolSize
  listed : ∀ f < bpm.poolSize, f ∈ bpm.freeList ∨ f ∈ bpm.lruList

/-- The client holds one pin. -/
structure Held (bpm : BufferPoolManager) (contents : PageId → PageData) (x : Pin) : Prop where
  good : Good ⟨bpm, [x]⟩ contents
  room : 0 < bpm.poolSize
  listed : ∀ f < bpm.poolSize, f ≠ x.frame → f ∈ bpm.freeList ∨ f ∈ bpm.lruList

/-- At most the page `pid` has come into the pool. -/
def Brings (bpm bpm' : BufferPoolManager) (pid : PageId) : Prop :=
  ∀ p, p ≠ pid → bpm.pageTable p = none → bpm'.pageTable p = none

variable {bpm : BufferPoolManager} {contents : PageId → PageData} {pid : PageId} {x : Pin}

/-- A new pool. -/
theorem Idle.create {poolSize : ℕ} (hpool : 0 < poolSize) (disk : PageId → Option PageData) {fd2pageno : ℤ → ℤ}
    (hcounters : ∀ fd, 0 ≤ fd2pageno fd) :
    Idle (BufferPoolManager.create poolSize disk fd2pageno) (fun p => (disk p).getD zeros) where
  good := .create poolSize disk hcounters
  room := hpool
  listed _ h := Or.inl (List.mem_range.mpr h)

/-- The frames that can be had after one has been taken. -/
theorem Idle.findVictimPage (h : Idle bpm contents) : ∃ b frame, bpm.findVictimPage = some (b, frame) ∧
    b.poolSize = bpm.poolSize ∧ ∀ f < bpm.poolSize, f ≠ frame → f ∈ b.freeList ∨ f ∈ b.lruList := by
  have hsome := h.listed 0 h.room
  have hothers : ∀ f < bpm.poolSize, f ∈ bpm.freeList ∨ f ∈ bpm.lruList := h.listed
  unfold BufferPoolManager.findVictimPage
  cases hfree : bpm.freeList with
  | cons frame rest =>
    refine ⟨_, frame, rfl, rfl, ?_⟩
    intro f hf hne
    have hmem := hothers f hf
    rw [hfree, List.mem_cons] at hmem
    simp only
    tauto
  | nil =>
    cases hlru : bpm.lruList with
    | cons frame rest =>
      refine ⟨_, frame, rfl, rfl, ?_⟩
      intro f hf hne
      have hmem := hothers f hf
      rw [hfree, hlru, List.mem_cons] at hmem
      simp only
      tauto
    | nil =>
      rw [hfree, hlru] at hsome
      simp at hsome

/-- **`fetch_page`** finds a frame for the page. -/
theorem Idle.fetchPage (h : Idle bpm contents) (hpos : 0 ≤ pid.pageNo) : ∃ bpm' frame,
    bpm.fetchPage pid = (bpm', .page frame) ∧ Held bpm' contents ⟨pid, frame, false⟩ ∧ Brings bpm bpm' pid ∧
      bpm'.fd2pageno = bpm.fd2pageno := by
  cases htable : bpm.pageTable pid with
  | some frame =>
    obtain ⟨-, -, hin⟩ := h.good.table pid frame htable
    have hf : bpm.fetchPage pid = ((bpm.setPage frame { bpm.pages frame with
        pinCount := (bpm.pages frame).pinCount + 1 }).pin frame, .page frame) := by
      simp only [BufferPoolManager.fetchPage, htable]
    refine ⟨_, frame, hf, ⟨h.good.fetchPage hf, ?_, fun f hlt hne => ?_⟩, fun p _ hp => ?_, ?_⟩
    all_goals rw [pin_eq (bpm.setPage _ _) hin] at *
    · exact h.room
    · rcases h.listed f hlt with hl | hl
      · exact Or.inl hl
      · exact Or.inr ((List.mem_erase_of_ne hne).mpr hl)
    · exact hp
    · rfl
  | none =>
    obtain ⟨b, frame, hv, hsize, hlisted⟩ := h.findVictimPage
    obtain ⟨-, ht, htab, -, hcounter⟩ := h.good.takeVictim hv
    obtain ⟨-, hetab, hefree, helru, hesize, hecount, -⟩ := evict_eq b frame
    have hf : bpm.fetchPage pid = (((b.evict frame).install frame pid ((b.evict frame).diskData pid) 1), .page frame) := by
      simp only [BufferPoolManager.fetchPage, htable, hv, BufferPoolManager.updatePage_of_nonneg b frame hpos]
      have hread : ((b.evict frame).install frame pid zeros 0).readPage pid = some ((b.evict frame).diskData pid) := by
        unfold BufferPoolManager.readPage
        rw [if_neg (by omega)]
        rfl
      rw [hread]
      simp only [Prod.mk.injEq, and_true]
      rw [pin_of_not_mem]
      · simp [BufferPoolManager.setPage, BufferPoolManager.install]
      · exact ht.evict.notLru
    refine ⟨_, frame, hf, ⟨h.good.fetchPage hf, ?_, ?_⟩, ?_, ?_⟩
    · change 0 < (b.evict frame).poolSize
      rw [hesize, hsize]
      exact h.room
    · intro f hlt hne
      change f < (b.evict frame).poolSize at hlt
      rw [hesize, hsize] at hlt
      change f ∈ (b.evict frame).freeList ∨ f ∈ (b.evict frame).lruList
      rw [hefree, helru]
      exact hlisted f hlt hne
    · intro p hne hp
      change Function.update (b.evict frame).pageTable pid (some frame) p = none
      rw [Function.update_of_ne hne]
      exact evict_pageTable_none b frame (htab ▸ hp)
    · exact hecount.trans hcounter

/-- **`new_page`** finds a frame for the page. -/
theorem Idle.newPage (h : Idle bpm contents) {fd : ℤ} (hpid : pid = ⟨fd, bpm.fd2pageno fd⟩)
    (hpool : bpm.pageTable pid = none) (hzero : contents pid = zeros) : ∃ bpm' frame,
    bpm.newPage fd = (bpm', some (pid, frame)) ∧ Held bpm' contents ⟨pid, frame, false⟩ ∧ Brings bpm bpm' pid ∧
      bpm'.fd2pageno = Function.update bpm.fd2pageno fd (bpm.fd2pageno fd + 1) := by
  subst hpid
  obtain ⟨b, frame, hv, hsize, hlisted⟩ := h.findVictimPage
  obtain ⟨-, ht, htab, -, hcounter⟩ := h.good.takeVictim hv
  have hpos : 0 ≤ (⟨fd, bpm.fd2pageno fd⟩ : PageId).pageNo := h.good.counters fd
  set b' : BufferPoolManager := { b with fd2pageno := Function.update bpm.fd2pageno fd (bpm.fd2pageno fd + 1) } with hb'
  have ht' : Taken ⟨b', []⟩ frame := ⟨ht.notFree, ht.notLru, ht.unpinned, ht.inPool⟩
  obtain ⟨-, -, hefree, helru, hesize, hecount, -⟩ := evict_eq b' frame
  have hn : bpm.newPage fd = ((b'.evict frame).install frame ⟨fd, bpm.fd2pageno fd⟩ zeros 1,
      some (⟨fd, bpm.fd2pageno fd⟩, frame)) := by
    simp only [BufferPoolManager.newPage, hv, BufferPoolManager.allocatePage, hcounter, ← hb',
      BufferPoolManager.updatePage_of_nonneg b' frame hpos, Prod.mk.injEq, and_true]
    rw [pin_of_not_mem]
    · simp [BufferPoolManager.setPage, BufferPoolManager.install]
    · exact ht'.evict.notLru
  refine ⟨_, frame, hn, ⟨h.good.newPage hn hzero hpool, ?_, ?_⟩, ?_, hecount⟩
  · change 0 < (b'.evict frame).poolSize
    rw [hesize]
    exact hsize.symm ▸ h.room
  · intro f hlt hne
    change f < (b'.evict frame).poolSize at hlt
    rw [hesize] at hlt
    change f ∈ (b'.evict frame).freeList ∨ f ∈ (b'.evict frame).lruList
    rw [hefree, helru]
    exact hlisted f (hsize ▸ hlt) hne
  · intro p hne hp
    change Function.update (b'.evict frame).pageTable _ (some frame) p = none
    rw [Function.update_of_ne hne]
    exact evict_pageTable_none b' frame (htab ▸ hp)

theorem Held.data (h : Held bpm contents x) : (bpm.pages x.frame).data = contents x.pid :=
  h.good.data _ _ (h.good.held x List.mem_cons_self)

/-- The client writes to its page. -/
theorem Held.write (h : Held bpm contents x) (data : PageData) :
    Held (bpm.setPage x.frame { bpm.pages x.frame with data := data }) (Function.update contents x.pid data)
      { x with modified := true } :=
  ⟨h.good.write (A := []) data rfl, h.room, h.listed⟩

/-- **`unpin_page`**: the client gives its pin back, and the frame can be replaced again. -/
theorem Held.unpin (h : Held bpm contents x) {isDirty : Bool} (hdirty : x.modified = true → isDirty = true) :
    Idle (bpm.unpinPage x.pid isDirty).1 contents ∧ (bpm.unpinPage x.pid isDirty).1.pageTable = bpm.pageTable ∧
      (bpm.unpinPage x.pid isDirty).1.fd2pageno = bpm.fd2pageno := by
  have hgood : Good ⟨(bpm.unpinPage x.pid isDirty).1, []⟩ contents :=
    h.good.unpin (A := []) (B := []) rfl hdirty (Prod.ext rfl rfl)
  have htable : bpm.pageTable x.pid = some x.frame := h.good.held x List.mem_cons_self
  have hin : x.frame < bpm.poolSize := (h.good.table _ _ htable).2.2
  have hcount : (bpm.pages x.frame).pinCount = 1 := by
    have := h.good.counts x.frame
    simpa using this
  have hnot : x.frame ∉ bpm.lruList := fun hl => by
    have := (h.good.lru _ hl).2.1
    simp only at this
    omega
  -- a frame that is missing in the replacer's list leaves room there
  have hshort : bpm.lruList.length < bpm.poolSize := by
    have hsub : bpm.lruList ⊆ (List.range bpm.poolSize).erase x.frame := by
      intro f hf
      have hne : f ≠ x.frame := fun hfx => hnot (hfx ▸ hf)
      exact (List.mem_erase_of_ne hne).mpr (List.mem_range.mpr (h.good.lru f hf).2.2)
    have hnd : bpm.lruList.Nodup := h.good.lruNodup
    have hle := (hnd.subperm hsub).length_le
    rw [List.length_erase_of_mem (List.mem_range.mpr hin), List.length_range] at hle
    have := h.room
    omega
  have heq : (bpm.unpinPage x.pid isDirty).1 = { bpm.setPage x.frame { bpm.pages x.frame with
      pinCount := (bpm.pages x.frame).pinCount - 1, isDirty := (bpm.pages x.frame).isDirty || isDirty } with
      lruList := bpm.lruList ++ [x.frame] } := by
    simp only [BufferPoolManager.unpinPage, htable]
    rw [if_neg (by omega), if_pos (by omega)]
    unfold BufferPoolManager.unpin
    rw [if_neg (by simp only [BufferPoolManager.setPage]; simpa using hin), if_neg]
    · rfl
    · rintro (hl | hl)
      · exact hnot hl
      · simp only [BufferPoolManager.setPage] at hl
        omega
  refine ⟨⟨hgood, ?_, ?_⟩, by rw [heq]; rfl, by rw [heq]; rfl⟩
  · rw [heq]
    exact h.room
  · intro f hlt
    rw [heq] at hlt ⊢
    by_cases hne : f = x.frame
    · exact Or.inr (List.mem_append_right _ (by rw [hne]; exact List.mem_singleton.mpr rfl))
    · rcases h.listed f hlt hne with hl | hl
      · exact Or.inl hl
      · exact Or.inr (List.mem_append_left _ hl)

/-! ### Whole files -/

/-- A round of `delete_all_pages`. -/
theorem Idle.deleteFrame (h : Idle bpm contents) {frame : ℕ} (hf : bpm.pageTable pid = some frame) :
    Idle (BufferPoolManager.deleteFrame pid.fd bpm frame) contents ∧
      (BufferPoolManager.deleteFrame pid.fd bpm frame).pageTable = Function.update bpm.pageTable pid none ∧
      (BufferPoolManager.deleteFrame pid.fd bpm frame).fd2pageno = bpm.fd2pageno := by
  obtain ⟨hid, hpos, hin⟩ := h.good.table pid frame hf
  have hpin : (bpm.pages frame).pinCount = 0 := h.good.counts frame
  have hvalid : ¬ pid.pageNo = INVALID_PAGE_ID := by unfold INVALID_PAGE_ID; omega
  obtain ⟨hgood, htable, -⟩ := h.good.deleteFrame hf hpin
  have hlists : (BufferPoolManager.deleteFrame pid.fd bpm frame).freeList = bpm.freeList ++ [frame] ∧
      (BufferPoolManager.deleteFrame pid.fd bpm frame).lruList = bpm.lruList.erase frame ∧
      (BufferPoolManager.deleteFrame pid.fd bpm frame).poolSize = bpm.poolSize ∧
      (BufferPoolManager.deleteFrame pid.fd bpm frame).fd2pageno = bpm.fd2pageno := by
    simp only at hid hin
    simp only [BufferPoolManager.deleteFrame, hid, hvalid, if_false]
    rw [pin_eq (bpm.writePage _ _) hin]
    exact ⟨rfl, rfl, rfl, rfl⟩
  obtain ⟨hfree, hlru, hsize, hcounter⟩ := hlists
  refine ⟨⟨hgood, by rw [hsize]; exact h.room, ?_⟩, htable, hcounter⟩
  intro f hlt
  rw [hfree, hlru]
  by_cases hne : f = frame
  · exact Or.inl (List.mem_append_right _ (by rw [hne]; exact List.mem_singleton.mpr rfl))
  · rcases h.listed f (hsize ▸ hlt) with hl | hl
    · exact Or.inl (List.mem_append_left _ hl)
    · exact Or.inr ((List.mem_erase_of_ne hne).mpr hl)

/-- `delete_all_pages` on some of the frames of a file. -/
theorem Idle.deleteFrames {fd : ℤ} : ∀ (frameIds : List ℕ) {bpm : BufferPoolManager}, Idle bpm contents →
    frameIds.Nodup → (∀ f ∈ frameIds, ∃ pid, bpm.pageTable pid = some f ∧ pid.fd = fd) →
    Idle (bpm.deleteAllPages fd frameIds) contents ∧
      (∀ p, (bpm.deleteAllPages fd frameIds).pageTable p = none ↔ bpm.pageTable p = none ∨
        ∃ f ∈ frameIds, bpm.pageTable p = some f) ∧
      (bpm.deleteAllPages fd frameIds).fd2pageno = bpm.fd2pageno
  | [], _, h, _, _ => ⟨h, fun p => by simp [BufferPoolManager.deleteAllPages], rfl⟩
  | f :: rest, bpm, h, hnd, hall => by
    obtain ⟨pid, htable, rfl⟩ := hall f List.mem_cons_self
    obtain ⟨hidle, htab, hcounter⟩ := h.deleteFrame htable
    have hinj : ∀ p, bpm.pageTable p = some f → p = pid := fun p hp =>
      (h.good.table p f hp).1.symm.trans (h.good.table pid f htable).1
    have hrest : ∀ f' ∈ rest, ∃ pid', (BufferPoolManager.deleteFrame pid.fd bpm f).pageTable pid' = some f' ∧
        pid'.fd = pid.fd := by
      intro f' hf'
      obtain ⟨pid', htable', hfd⟩ := hall f' (List.mem_cons_of_mem _ hf')
      have hne : f' ≠ f := fun hff => (List.nodup_cons.mp hnd).1 (hff ▸ hf')
      refine ⟨pid', ?_, hfd⟩
      rw [htab, Function.update_of_ne, htable']
      rintro rfl
      exact hne (Option.some.inj (htable'.symm.trans htable))
    obtain ⟨h1, h2, h3⟩ := Idle.deleteFrames rest hidle (List.nodup_cons.mp hnd).2 hrest
    refine ⟨h1, ?_, h3.trans hcounter⟩
    intro p
    refine (h2 p).trans ?_
    rw [htab]
    by_cases hp : p = pid
    · subst hp
      simp [htable]
    · have hne : bpm.pageTable p ≠ some f := fun hpf => hp (hinj p hpf)
      simp [Function.update_of_ne hp, hne]

/-- **`delete_all_pages`** takes the pages of a file out of the pool, and leaves their contents on disk. -/
theorem Idle.deleteAllPages (h : Idle bpm contents) {fd : ℤ} {frameIds : List ℕ} (hl : bpm.Lists fd frameIds) :
    Idle (bpm.deleteAllPages fd frameIds) contents ∧
      (∀ p, (bpm.deleteAllPages fd frameIds).pageTable p = none ↔ bpm.pageTable p = none ∨ p.fd = fd) ∧
      (bpm.deleteAllPages fd frameIds).fd2pageno = bpm.fd2pageno := by
  obtain ⟨h1, h2, h3⟩ := Idle.deleteFrames frameIds h hl.1 fun f hf => (hl.2 f).mp hf
  refine ⟨h1, fun p => (h2 p).trans ⟨?_, ?_⟩, h3⟩
  · rintro (hp | ⟨f, hf, hp⟩)
    · exact Or.inl hp
    · obtain ⟨p', hp', hfd⟩ := (hl.2 f).mp hf
      have heq : p = p' := (h.good.table p f hp).1.symm.trans (h.good.table p' f hp').1
      exact Or.inr (heq ▸ hfd)
  · rintro (hp | hfd)
    · exact Or.inl hp
    · rcases hp : bpm.pageTable p with _ | f
      · exact Or.inl rfl
      · exact Or.inr ⟨f, (hl.2 f).mpr ⟨p, hp, hfd⟩, rfl⟩

/-- The disk and the counters change for pages that are not in the pool. -/
theorem Idle.remount (h : Idle bpm contents) (disk : PageId → Option PageData) {fd2pageno : ℤ → ℤ}
    (hdisk : ∀ p f, bpm.pageTable p = some f → disk p = bpm.disk p) (hcounters : ∀ fd, 0 ≤ fd2pageno fd) :
    Idle { bpm with disk := disk, fd2pageno := fd2pageno } fun p =>
      if bpm.pageTable p = none then (disk p).getD zeros else contents p := by
  have hin : ∀ {p : PageId} {f : ℕ}, bpm.pageTable p = some f → ¬ bpm.pageTable p = none := fun hp hn => by
    rw [hp] at hn
    cases hn
  refine ⟨⟨h.good.table, h.good.ids, ?_, ?_, ?_, nofun, h.good.counts,
    h.good.free, h.good.lru, h.good.freeNodup, h.good.lruNodup, hcounters⟩, h.room, h.listed⟩
  · intro p f hp
    rw [if_neg (hin hp)]
    exact h.good.data p f hp
  · intro p hp
    exact (if_pos hp).symm
  · intro p f hp hd hm
    rw [if_neg (hin hp)]
    change (disk p).getD zeros = contents p
    rw [hdisk p f hp]
    exact h.good.clean p f hp hd hm

end Rmdb.Storage
