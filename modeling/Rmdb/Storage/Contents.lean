import Rmdb.Storage.BufferPool
import Rmdb.Lib.Trace

/-!
# What the buffer pool returns

The buffer pool behaves as a map from pages to contents: in every run of clients that keep
to the rules of `Step`, a page that is fetched has the contents last written to it
(`fetch_returns_lastWritten`), provided that `new_page` never allocates a page that is in
the pool. Without that, two frames hold one page, and writing the older one back later
destroys what was written to the newer (`fetch_after_new_fails`).

The invariant (`Good`) says where the contents of a page are: in its frame, if it has one,
and then also on disk if the frame is neither dirty nor modified by a client that still has
to unpin it; on disk, if it has none.
-/

namespace Rmdb.Storage

open Lib

/-- **The invariant**: where the contents of the pages are. -/
structure Good (s : Sys) (contents : PageId → PageData) : Prop where
  /-- An entry of the page table is a frame with that page. -/
  table : ∀ pid frame, s.bpm.pageTable pid = some frame →
    (s.bpm.pages frame).id = pid ∧ 0 ≤ pid.pageNo ∧ frame < s.bpm.poolSize
  /-- A frame with a page is in the page table. -/
  ids : ∀ frame, (s.bpm.pages frame).id.pageNo ≠ INVALID_PAGE_ID →
    s.bpm.pageTable (s.bpm.pages frame).id = some frame
  /-- The contents of a page with a frame are there. -/
  data : ∀ pid frame, s.bpm.pageTable pid = some frame → (s.bpm.pages frame).data = contents pid
  /-- The contents of a page without a frame are on disk. -/
  gone : ∀ pid, s.bpm.pageTable pid = none → s.bpm.diskData pid = contents pid
  /-- The contents of a page are on disk too if nothing says that they may be newer. -/
  clean : ∀ pid frame, s.bpm.pageTable pid = some frame → (s.bpm.pages frame).isDirty = false →
    (∀ h ∈ s.pins, h.frame = frame → h.modified = false) → s.bpm.diskData pid = contents pid
  /-- A pin is on the frame of its page. -/
  held : ∀ h ∈ s.pins, s.bpm.pageTable h.pid = some h.frame
  /-- A frame is pinned as often as clients hold pins on it. -/
  counts : ∀ frame, (s.bpm.pages frame).pinCount = (s.pins.countP fun h => h.frame = frame : ℕ)
  /-- A free frame has no page and no pin. -/
  free : ∀ frame ∈ s.bpm.freeList, (s.bpm.pages frame).id.pageNo = INVALID_PAGE_ID ∧
    (s.bpm.pages frame).pinCount = 0 ∧ frame < s.bpm.poolSize
  /-- A frame that may be replaced has a page and no pin. -/
  lru : ∀ frame ∈ s.bpm.lruList, (s.bpm.pages frame).id.pageNo ≠ INVALID_PAGE_ID ∧
    (s.bpm.pages frame).pinCount = 0 ∧ frame < s.bpm.poolSize
  /-- No frame is free twice. -/
  freeNodup : s.bpm.freeList.Nodup
  /-- No frame may be replaced twice. -/
  lruNodup : s.bpm.lruList.Nodup
  /-- Page numbers are not negative. -/
  counters : ∀ fd, 0 ≤ s.bpm.fd2pageno fd

namespace BufferPoolManager

/-- The part of `update_page` that takes the frame's page out of it. -/
def evict (bpm : BufferPoolManager) (frame : ℕ) : BufferPoolManager :=
  let page := bpm.pages frame
  let bpm :=
    if page.id.pageNo ≠ INVALID_PAGE_ID then
      let bpm := if page.isDirty then bpm.writePage page.id page.data else bpm
      { bpm with pageTable := Function.update bpm.pageTable page.id none }
    else bpm
  bpm.setPage frame ⟨noPage, zeros, false, 0⟩

/-- The part that puts a page into an empty frame. -/
def install (bpm : BufferPoolManager) (frame : ℕ) (pid : PageId) (data : PageData) (pinCount : ℤ) : BufferPoolManager :=
  { bpm with
    pages := Function.update bpm.pages frame ⟨pid, data, false, pinCount⟩
    pageTable := Function.update bpm.pageTable pid (some frame) }

theorem updatePage_eq (bpm : BufferPoolManager) (frame : ℕ) (pid : PageId) :
    bpm.updatePage frame pid = { bpm.evict frame with
      pages := Function.update (bpm.evict frame).pages frame ⟨pid, zeros, false, 0⟩
      pageTable := if pid.pageNo ≠ INVALID_PAGE_ID then Function.update (bpm.evict frame).pageTable pid (some frame)
        else (bpm.evict frame).pageTable } := by
  by_cases hid : pid.pageNo = INVALID_PAGE_ID
  · simp [updatePage, evict, setPage, hid]
  · simp [updatePage, evict, setPage, hid]

theorem updatePage_noPage (bpm : BufferPoolManager) (frame : ℕ) : bpm.updatePage frame noPage = bpm.evict frame := by
  simp [updatePage, evict, noPage]

theorem updatePage_of_nonneg (bpm : BufferPoolManager) (frame : ℕ) {pid : PageId} (h : 0 ≤ pid.pageNo) :
    bpm.updatePage frame pid = (bpm.evict frame).install frame pid zeros 0 := by
  have hne : pid.pageNo ≠ INVALID_PAGE_ID := by unfold INVALID_PAGE_ID; omega
  simp [updatePage, evict, install, setPage, hne]

/-- A frame that is given back after `read_page` has failed is as it was when its old page had been taken out. -/
theorem updatePage_thrown (bpm : BufferPoolManager) (frame : ℕ) {pid : PageId}
    (hnone : (bpm.evict frame).pageTable pid = none) :
    (let bpm := bpm.updatePage frame pid
      let bpm := { bpm with pageTable := Function.update bpm.pageTable pid none }
      let bpm := bpm.setPage frame { bpm.pages frame with id := noPage }
      { bpm with freeList := bpm.freeList ++ [frame] } : BufferPoolManager) =
      { bpm.evict frame with freeList := (bpm.evict frame).freeList ++ [frame] } := by
  have hself : Function.update (bpm.evict frame).pageTable pid none = (bpm.evict frame).pageTable := by
    rw [← hnone, Function.update_eq_self]
  have hblank : Function.update (bpm.evict frame).pages frame ⟨noPage, zeros, false, 0⟩ = (bpm.evict frame).pages := by
    simp [evict, setPage]
  by_cases hid : pid.pageNo = INVALID_PAGE_ID
  · rw [updatePage_eq, if_neg (by simpa using hid)]
    simp [setPage, hself, hblank]
  · rw [updatePage_eq, if_pos hid]
    simp [setPage, hself, hblank]

end BufferPoolManager

section Steps

variable {s : Sys} {contents : PageId → PageData} {frame : ℕ}

/-- The frame is neither free nor replaceable, and not pinned. -/
structure Taken (s : Sys) (frame : ℕ) : Prop where
  notFree : frame ∉ s.bpm.freeList
  notLru : frame ∉ s.bpm.lruList
  unpinned : (s.bpm.pages frame).pinCount = 0
  inPool : frame < s.bpm.poolSize

theorem Good.no_pin (h : Good s contents) (hpin : (s.bpm.pages frame).pinCount = 0) : ∀ x ∈ s.pins, x.frame ≠ frame := by
  intro x hx hf
  have hc := h.counts frame
  rw [hpin] at hc
  have hpos : 0 < s.pins.countP fun y => decide (y.frame = frame) := List.countP_pos_iff.mpr ⟨x, hx, by simpa using hf⟩
  omega

/-- A victim is taken out of the list it was in. -/
theorem Good.takeVictim (h : Good s contents) {bpm : BufferPoolManager} (hv : s.bpm.findVictimPage = some (bpm, frame)) :
    Good ⟨bpm, s.pins⟩ contents ∧ Taken ⟨bpm, s.pins⟩ frame ∧ bpm.pageTable = s.bpm.pageTable ∧ bpm.disk = s.bpm.disk ∧
      bpm.fd2pageno = s.bpm.fd2pageno := by
  unfold BufferPoolManager.findVictimPage at hv
  split at hv
  · rename_i f rest hfree
    obtain ⟨rfl, rfl⟩ := Prod.mk.inj (Option.some.inj hv)
    have hnd := h.freeNodup
    have hmem : f ∈ s.bpm.freeList := by rw [hfree]; exact List.mem_cons_self
    obtain ⟨hid, hpin, hin⟩ := h.free f hmem
    rw [hfree] at hnd
    refine ⟨⟨h.table, h.ids, h.data, h.gone, h.clean, h.held, h.counts, fun x hx => h.free x ?_, h.lru,
      (List.nodup_cons.mp hnd).2, h.lruNodup, h.counters⟩, ⟨(List.nodup_cons.mp hnd).1, fun hl => (h.lru f hl).1 hid, hpin, hin⟩,
      rfl, rfl, rfl⟩
    rw [hfree]
    exact List.mem_cons_of_mem _ hx
  · split at hv
    · rename_i f rest hlru
      obtain ⟨rfl, rfl⟩ := Prod.mk.inj (Option.some.inj hv)
      have hnd := h.lruNodup
      have hmem : f ∈ s.bpm.lruList := by rw [hlru]; exact List.mem_cons_self
      obtain ⟨hid, hpin, hin⟩ := h.lru f hmem
      rw [hlru] at hnd
      refine ⟨⟨h.table, h.ids, h.data, h.gone, h.clean, h.held, h.counts, h.free, fun x hx => h.lru x ?_, h.freeNodup,
        (List.nodup_cons.mp hnd).2, h.counters⟩, ⟨fun hf => hid (h.free f hf).1, (List.nodup_cons.mp hnd).1, hpin, hin⟩,
        rfl, rfl, rfl⟩
      rw [hlru]
      exact List.mem_cons_of_mem _ hx
    · cases hv

theorem diskData_writePage (bpm : BufferPoolManager) (pid : PageId) (data : PageData) (p : PageId) :
    (bpm.writePage pid data).diskData p = if p = pid then data else bpm.diskData p := by
  by_cases hp : p = pid
  · subst hp
    simp [BufferPoolManager.diskData, BufferPoolManager.writePage]
  · simp [BufferPoolManager.diskData, BufferPoolManager.writePage, hp]

/-- What taking a page out of its frame does to the pool. -/
theorem evict_eq (bpm : BufferPoolManager) (frame : ℕ) :
    (bpm.evict frame).pages = Function.update bpm.pages frame ⟨noPage, zeros, false, 0⟩ ∧
      (bpm.evict frame).pageTable = (if (bpm.pages frame).id.pageNo ≠ INVALID_PAGE_ID then
        Function.update bpm.pageTable (bpm.pages frame).id none else bpm.pageTable) ∧
      (bpm.evict frame).freeList = bpm.freeList ∧ (bpm.evict frame).lruList = bpm.lruList ∧
      (bpm.evict frame).poolSize = bpm.poolSize ∧ (bpm.evict frame).fd2pageno = bpm.fd2pageno ∧
      ∀ p, (bpm.evict frame).diskData p = if p = (bpm.pages frame).id ∧ p.pageNo ≠ INVALID_PAGE_ID ∧
        (bpm.pages frame).isDirty = true then (bpm.pages frame).data else bpm.diskData p := by
  unfold BufferPoolManager.evict
  simp only
  by_cases hid : (bpm.pages frame).id.pageNo = INVALID_PAGE_ID
  · simp only [hid, ne_eq, not_true_eq_false, if_false]
    refine ⟨rfl, rfl, rfl, rfl, rfl, rfl, ?_⟩
    intro p
    rw [if_neg]
    · rfl
    · rintro ⟨rfl, hp, -⟩
      exact hp hid
  · by_cases hd : (bpm.pages frame).isDirty = true
    · simp only [hid, hd, ne_eq, not_false_eq_true, if_true]
      refine ⟨rfl, rfl, rfl, rfl, rfl, rfl, ?_⟩
      intro p
      refine (diskData_writePage bpm _ _ p).trans ?_
      by_cases hp : p = (bpm.pages frame).id
      · simp [hp, hid]
      · simp [hp]
    · simp only [hid, hd, ne_eq, not_false_eq_true, if_true]
      refine ⟨rfl, rfl, rfl, rfl, rfl, rfl, ?_⟩
      intro p
      simp [BufferPoolManager.diskData, BufferPoolManager.setPage]

theorem evict_blank (bpm : BufferPoolManager) (frame : ℕ) :
    (bpm.evict frame).pages frame = ⟨noPage, zeros, false, 0⟩ := by
  rw [(evict_eq bpm frame).1, Function.update_self]

theorem evict_page (bpm : BufferPoolManager) {f : ℕ} (hf : f ≠ frame) : (bpm.evict frame).pages f = bpm.pages f := by
  rw [(evict_eq bpm frame).1, Function.update_of_ne hf]

/-- Taking a page out of its frame adds nothing to the page table. -/
theorem evict_pageTable_none (bpm : BufferPoolManager) (frame : ℕ) {pid : PageId} (hpid : bpm.pageTable pid = none) :
    (bpm.evict frame).pageTable pid = none := by
  rw [(evict_eq bpm frame).2.1]
  split
  · by_cases hp : pid = (bpm.pages frame).id
    · rw [hp, Function.update_self]
    · rw [Function.update_of_ne hp, hpid]
  · exact hpid

section Evict

variable {pid : PageId} {f : ℕ}

/-- The page table after an eviction is the old one without the frame. -/
theorem Good.evict_lookup (h : Good s contents) (hf : (s.bpm.evict frame).pageTable pid = some f) :
    s.bpm.pageTable pid = some f ∧ f ≠ frame := by
  rw [(evict_eq s.bpm frame).2.1] at hf
  split at hf
  · by_cases hp : pid = (s.bpm.pages frame).id
    · rw [hp, Function.update_self] at hf
      cases hf
    · rw [Function.update_of_ne hp] at hf
      exact ⟨hf, fun hff => hp ((h.table pid f hf).1.symm.trans (by rw [hff]))⟩
  · rename_i hid
    refine ⟨hf, fun hff => hid ?_⟩
    rw [← hff, (h.table pid f hf).1]
    have := (h.table pid f hf).2.1
    unfold INVALID_PAGE_ID
    omega

/-- The page that goes out is the only one of its frame. -/
theorem Good.ne_evicted (h : Good s contents) (hf : s.bpm.pageTable pid = some f) (hne : f ≠ frame)
    (hid : (s.bpm.pages frame).id.pageNo ≠ INVALID_PAGE_ID) : pid ≠ (s.bpm.pages frame).id := by
  rintro rfl
  rw [h.ids frame hid] at hf
  exact hne (Option.some.inj hf).symm

theorem Good.evict_kept (h : Good s contents) (hf : s.bpm.pageTable pid = some f) (hne : f ≠ frame) :
    (s.bpm.evict frame).pageTable pid = some f := by
  rw [(evict_eq s.bpm frame).2.1]
  split
  · rename_i hid
    rw [Function.update_of_ne (h.ne_evicted hf hne hid), hf]
  · exact hf

theorem Good.evict_diskData (h : Good s contents) (hf : s.bpm.pageTable pid = some f) (hne : f ≠ frame) :
    (s.bpm.evict frame).diskData pid = s.bpm.diskData pid := by
  rw [(evict_eq s.bpm frame).2.2.2.2.2.2, if_neg]
  rintro ⟨hp, hid, -⟩
  exact h.ne_evicted hf hne (hp ▸ hid) hp

/-- A page without a frame is on disk: it was before, or it has just been written there if the disk had an older one. -/
theorem Good.evict_gone (h : Good s contents) (ht : Taken s frame) (hp : (s.bpm.evict frame).pageTable pid = none) :
    (s.bpm.evict frame).diskData pid = contents pid := by
  rw [(evict_eq s.bpm frame).2.2.2.2.2.2]
  rcases hq : s.bpm.pageTable pid with _ | f
  · rw [if_neg]
    · exact h.gone pid hq
    · rintro ⟨rfl, hid, -⟩
      rw [h.ids frame hid] at hq
      cases hq
  · -- the page that is taken out of its frame
    obtain rfl : f = frame := by
      by_contra hne
      rw [h.evict_kept hq hne] at hp
      cases hp
    obtain ⟨hid, hpos, -⟩ := h.table pid f hq
    have hvalid : pid.pageNo ≠ INVALID_PAGE_ID := by
      unfold INVALID_PAGE_ID
      omega
    by_cases hd : (s.bpm.pages f).isDirty = true
    · rw [if_pos ⟨hid.symm, hvalid, hd⟩]
      exact h.data pid f hq
    · rw [if_neg (by tauto)]
      exact h.clean pid f hq (by simpa using hd) fun x hx hxf => absurd hxf (h.no_pin ht.unpinned x hx)

theorem Good.evict_counts (h : Good s contents) (ht : Taken s frame) (f : ℕ) :
    ((s.bpm.evict frame).pages f).pinCount = (s.pins.countP fun x => x.frame = f : ℕ) := by
  by_cases hne : f = frame
  · subst hne
    have hc := h.counts f
    rw [ht.unpinned] at hc
    rw [evict_blank]
    exact hc
  · rw [evict_page s.bpm hne]
    exact h.counts f

end Evict

/-- **Eviction** loses nothing: the page is unpinned, so that what is newer than the disk is marked dirty. -/
theorem Good.evict (h : Good s contents) (ht : Taken s frame) : Good ⟨s.bpm.evict frame, s.pins⟩ contents := by
  obtain ⟨-, -, hfree, hlru, hsize, hcounters, -⟩ := evict_eq s.bpm frame
  have hpage : ∀ f, f ≠ frame → (s.bpm.evict frame).pages f = s.bpm.pages f := fun f => evict_page s.bpm
  refine ⟨?_, ?_, ?_, fun pid hp => h.evict_gone ht hp, ?_, ?_, h.evict_counts ht, ?_, ?_, hfree ▸ h.freeNodup,
    hlru ▸ h.lruNodup, hcounters ▸ h.counters⟩
  · intro pid f hf
    obtain ⟨hf', hne⟩ := h.evict_lookup hf
    rw [hpage f hne, hsize]
    exact h.table pid f hf'
  · intro f hf
    by_cases hne : f = frame
    · subst hne
      simp only at hf
      rw [evict_blank] at hf
      exact absurd rfl hf
    · simp only [hpage f hne] at hf ⊢
      exact h.evict_kept (h.ids f hf) hne
  · intro pid f hf
    obtain ⟨hf', hne⟩ := h.evict_lookup hf
    rw [hpage f hne]
    exact h.data pid f hf'
  · intro pid f hf hd hm
    obtain ⟨hf', hne⟩ := h.evict_lookup hf
    simp only at hd hm ⊢
    rw [hpage f hne] at hd
    rw [h.evict_diskData hf' hne]
    exact h.clean pid f hf' hd hm
  · intro x hx
    exact h.evict_kept (h.held x hx) (h.no_pin ht.unpinned x hx)
  · intro f hf
    have hf' : f ∈ s.bpm.freeList := hfree ▸ hf
    have hne : f ≠ frame := fun hff => ht.notFree (hff ▸ hf')
    simp only [hpage f hne, hsize]
    exact h.free f hf'
  · intro f hf
    have hf' : f ∈ s.bpm.lruList := hlru ▸ hf
    have hne : f ≠ frame := fun hff => ht.notLru (hff ▸ hf')
    simp only [hpage f hne, hsize]
    exact h.lru f hf'

theorem Taken.evict (ht : Taken s frame) : Taken ⟨s.bpm.evict frame, s.pins⟩ frame := by
  obtain ⟨-, -, hfree, hlru, hsize, -, -⟩ := evict_eq s.bpm frame
  refine ⟨hfree ▸ ht.notFree, hlru ▸ ht.notLru, ?_, hsize ▸ ht.inPool⟩
  simp only [evict_blank]

/-- An empty frame may go to the free list. -/
theorem Good.release (h : Good s contents) (ht : Taken s frame)
    (hid : (s.bpm.pages frame).id.pageNo = INVALID_PAGE_ID) :
    Good ⟨{ s.bpm with freeList := s.bpm.freeList ++ [frame] }, s.pins⟩ contents := by
  refine ⟨h.table, h.ids, h.data, h.gone, h.clean, h.held, h.counts, ?_, h.lru, ?_, h.lruNodup, h.counters⟩
  · intro f hf
    rcases List.mem_append.mp hf with hf | hf
    · exact h.free f hf
    · obtain rfl := List.mem_singleton.mp hf
      exact ⟨hid, ht.unpinned, ht.inPool⟩
  · refine h.freeNodup.append (List.nodup_singleton _) ?_
    intro x hx hx'
    obtain rfl := List.mem_singleton.mp hx'
    exact ht.notFree hx

/-- A page that is not in the pool is put, as it is on disk, into an empty frame, with a pin. -/
theorem Good.install (h : Good s contents) (ht : Taken s frame)
    (hid : (s.bpm.pages frame).id.pageNo = INVALID_PAGE_ID) {pid : PageId} (hpid : s.bpm.pageTable pid = none)
    (hpos : 0 ≤ pid.pageNo) :
    Good ⟨s.bpm.install frame pid (s.bpm.diskData pid) 1, ⟨pid, frame, false⟩ :: s.pins⟩ contents := by
  have hnopin := h.no_pin ht.unpinned
  have hold : ∀ p f, s.bpm.pageTable p = some f → p ≠ pid ∧ f ≠ frame := by
    intro p f hf
    constructor
    · intro hp
      rw [hp, hpid] at hf
      cases hf
    · intro hff
      obtain ⟨hpf, hnn, -⟩ := h.table p f hf
      rw [hff] at hpf
      rw [hpf] at hid
      unfold INVALID_PAGE_ID at hid
      omega
  have htable : ∀ p f, (s.bpm.install frame pid (s.bpm.diskData pid) 1).pageTable p = some f →
      (p = pid ∧ f = frame) ∨ (s.bpm.pageTable p = some f ∧ p ≠ pid ∧ f ≠ frame) := by
    intro p f hf
    by_cases hp : p = pid
    · subst hp
      simp only [BufferPoolManager.install, Function.update_self] at hf
      exact .inl ⟨rfl, (Option.some.inj hf).symm⟩
    · simp only [BufferPoolManager.install, Function.update_of_ne hp] at hf
      exact .inr ⟨hf, hold p f hf⟩
  have hnew : (s.bpm.install frame pid (s.bpm.diskData pid) 1).pages frame = ⟨pid, s.bpm.diskData pid, false, 1⟩ := by
    simp [BufferPoolManager.install]
  have hpage : ∀ f, f ≠ frame → (s.bpm.install frame pid (s.bpm.diskData pid) 1).pages f = s.bpm.pages f := by
    intro f hf
    simp [BufferPoolManager.install, hf]
  have hentry : ∀ p f, s.bpm.pageTable p = some f →
      (s.bpm.install frame pid (s.bpm.diskData pid) 1).pageTable p = some f := by
    intro p f hf
    simp only [BufferPoolManager.install, Function.update_of_ne (hold p f hf).1, hf]
  refine ⟨?_, ?_, ?_, ?_, ?_, ?_, ?_, ?_, ?_, h.freeNodup, h.lruNodup, h.counters⟩
  · intro p f hf
    rcases htable p f hf with ⟨rfl, rfl⟩ | ⟨hf', -, hne⟩
    · simp only [hnew]
      exact ⟨trivial, hpos, ht.inPool⟩
    · simp only [hpage f hne]
      exact h.table p f hf'
  · intro f hf
    by_cases hne : f = frame
    · subst hne
      simp only [hnew]
      simp [BufferPoolManager.install]
    · simp only [hpage f hne] at hf ⊢
      exact hentry _ f (h.ids f hf)
  · intro p f hf
    rcases htable p f hf with ⟨rfl, rfl⟩ | ⟨hf', -, hne⟩
    · simp only [hnew]
      exact h.gone p hpid
    · simp only [hpage f hne]
      exact h.data p f hf'
  · intro p hp
    refine h.gone p ?_
    by_cases hpp : p = pid
    · rw [hpp, hpid]
    · simpa only [BufferPoolManager.install, Function.update_of_ne hpp] using hp
  · intro p f hf hd hm
    rcases htable p f hf with ⟨rfl, rfl⟩ | ⟨hf', -, hne⟩
    · exact h.gone p hpid
    · simp only [hpage f hne] at hd
      exact h.clean p f hf' hd fun x hx hxf => hm x (List.mem_cons_of_mem _ hx) hxf
  · intro x hx
    rcases List.mem_cons.mp hx with rfl | hx
    · simp [BufferPoolManager.install]
    · exact hentry _ _ (h.held x hx)
  · intro f
    by_cases hne : f = frame
    · subst hne
      have hc := h.counts f
      rw [ht.unpinned] at hc
      simp only [hnew, List.countP_cons, decide_true, if_true]
      omega
    · have hne' : ¬ frame = f := fun hff => hne hff.symm
      simp only [hpage f hne, List.countP_cons, hne', decide_false, Bool.false_eq_true, if_false, Nat.add_zero]
      exact h.counts f
  · intro f hf
    have hne : f ≠ frame := fun hff => ht.notFree (hff ▸ hf)
    simp only [hpage f hne]
    exact h.free f hf
  · intro f hf
    have hne : f ≠ frame := fun hff => ht.notLru (hff ▸ hf)
    simp only [hpage f hne]
    exact h.lru f hf

/-- **A change to the frame of one page** keeps the invariant, for contents that follow the change. -/
theorem Good.modify (h : Good s contents) {pid : PageId} (hf : s.bpm.pageTable pid = some frame) {page : Page}
    {disk : PageId → Option PageData} {lru : List ℕ} {pins : List Pin} {contents' : PageId → PageData}
    (hid : page.id = pid) (hdata : page.data = contents' pid) (hcontents : ∀ p, p ≠ pid → contents' p = contents p)
    (hdisk : ∀ p, p ≠ pid → disk p = s.bpm.disk p)
    (hclean : page.isDirty = false → (∀ x ∈ pins, x.frame = frame → x.modified = false) →
      (disk pid).getD zeros = contents' pid)
    (hothers : ∀ f, f ≠ frame → (pins.filter fun x => x.frame = f) = s.pins.filter fun x => x.frame = f)
    (hpins : ∀ x ∈ pins, x.frame = frame → x.pid = pid)
    (hcount : page.pinCount = (pins.countP fun x => x.frame = frame : ℕ))
    (hlru : ∀ f ∈ lru, (f ∈ s.bpm.lruList ∧ f ≠ frame) ∨ (f = frame ∧ page.pinCount = 0)) (hnd : lru.Nodup) :
    Good ⟨{ s.bpm with pages := Function.update s.bpm.pages frame page, disk := disk, lruList := lru }, pins⟩
      contents' := by
  obtain ⟨hidf, hpos, hin⟩ := h.table pid frame hf
  have hvalid : pid.pageNo ≠ INVALID_PAGE_ID := by unfold INVALID_PAGE_ID; omega
  have hmem : ∀ f, f ≠ frame → ∀ x, x.frame = f → (x ∈ pins ↔ x ∈ s.pins) := by
    intro f hne x hx
    have := congrArg (x ∈ ·) (hothers f hne)
    simpa [List.mem_filter, hx] using this
  have hother : ∀ p f, s.bpm.pageTable p = some f → p ≠ pid → f ≠ frame := by
    rintro p f hp hne rfl
    exact hne ((h.table p f hp).1.symm.trans hidf)
  have hself : ∀ f, s.bpm.pageTable pid = some f → f = frame := fun f hp => Option.some.inj (hp.symm.trans hf)
  have hpage : ∀ f, f ≠ frame → Function.update s.bpm.pages frame page f = s.bpm.pages f := fun f hne =>
    Function.update_of_ne hne _ _
  refine ⟨?_, ?_, ?_, ?_, ?_, ?_, ?_, ?_, ?_, h.freeNodup, hnd, h.counters⟩
  · intro p f hp
    by_cases hpp : p = pid
    · subst hpp
      obtain rfl := hself f hp
      simp only [Function.update_self]
      exact ⟨hid, hpos, hin⟩
    · simp only [hpage f (hother p f hp hpp)]
      exact h.table p f hp
  · intro f hfi
    by_cases hne : f = frame
    · subst hne
      simp only [Function.update_self, hid]
      exact hf
    · simp only [hpage f hne] at hfi ⊢
      exact h.ids f hfi
  · intro p f hp
    by_cases hpp : p = pid
    · subst hpp
      obtain rfl := hself f hp
      simp only [Function.update_self]
      exact hdata
    · simp only [hpage f (hother p f hp hpp), hcontents p hpp]
      exact h.data p f hp
  · intro p hp
    have hpp : p ≠ pid := by
      rintro rfl
      exact absurd (hp.symm.trans hf) (by simp)
    simp only [BufferPoolManager.diskData, hdisk p hpp, hcontents p hpp]
    exact h.gone p hp
  · intro p f hp hd hm
    by_cases hpp : p = pid
    · subst hpp
      obtain rfl := hself f hp
      simp only [Function.update_self] at hd
      exact hclean hd hm
    · have hne := hother p f hp hpp
      simp only [hpage f hne] at hd
      simp only [BufferPoolManager.diskData, hdisk p hpp, hcontents p hpp]
      exact h.clean p f hp hd fun x hx hxf => hm x ((hmem f hne x hxf).mpr hx) hxf
  · intro x hx
    by_cases hxf : x.frame = frame
    · simp only [hpins x hx hxf, hxf]
      exact hf
    · exact h.held x ((hmem x.frame hxf x rfl).mp hx)
  · intro f
    by_cases hne : f = frame
    · subst hne
      simp only [Function.update_self]
      exact hcount
    · simp only [hpage f hne, List.countP_eq_length_filter, hothers f hne]
      rw [← List.countP_eq_length_filter]
      exact h.counts f
  · intro f hff
    have hne : f ≠ frame := by
      rintro rfl
      have := (h.free f hff).1
      rw [hidf] at this
      exact hvalid this
    simp only [hpage f hne]
    exact h.free f hff
  · intro f hff
    rcases hlru f hff with ⟨hfl, hne⟩ | ⟨rfl, hzero⟩
    · simp only [hpage f hne]
      exact h.lru f hfl
    · simp only [Function.update_self, hid]
      exact ⟨hvalid, hzero, hin⟩

/-! ### The operations -/

theorem Good.nonneg (h : Good s contents) {pid : PageId} (hf : s.bpm.pageTable pid = some frame) : 0 ≤ pid.pageNo :=
  (h.table pid frame hf).2.1

/-- A frame of a page is not removed from the pool by `pin`, only from the replacer's list. -/
theorem pin_eq (bpm : BufferPoolManager) (hin : frame < bpm.poolSize) :
    bpm.pin frame = { bpm with lruList := bpm.lruList.erase frame } := by
  unfold BufferPoolManager.pin
  rw [if_neg (by omega)]

theorem pin_of_not_mem (bpm : BufferPoolManager) (hnot : frame ∉ bpm.lruList) : bpm.pin frame = bpm := by
  unfold BufferPoolManager.pin
  split
  · rfl
  · rw [List.erase_of_not_mem hnot]

/-- The empty frame that `fetch_page` and `new_page` put a page into. -/
theorem Good.evictVictim (h : Good s contents) {bpm : BufferPoolManager}
    (hv : s.bpm.findVictimPage = some (bpm, frame)) :
    Good ⟨bpm.evict frame, s.pins⟩ contents ∧ Taken ⟨bpm.evict frame, s.pins⟩ frame := by
  obtain ⟨hg, ht, -⟩ := h.takeVictim hv
  exact ⟨hg.evict ht, ht.evict⟩

/-- **A page that is fetched** has its contents in the frame that is returned, and is pinned. -/
theorem Good.fetchPage (h : Good s contents) {pid : PageId} {bpm : BufferPoolManager}
    (hf : s.bpm.fetchPage pid = (bpm, .page frame)) : Good ⟨bpm, ⟨pid, frame, false⟩ :: s.pins⟩ contents := by
  unfold BufferPoolManager.fetchPage at hf
  split at hf
  · -- the page is in the pool
    rename_i f htable
    obtain ⟨hb, hff⟩ := Prod.mk.inj hf
    obtain rfl := BufferPoolManager.Fetched.page.inj hff
    obtain ⟨hid, hpos, hin⟩ := h.table pid f htable
    rw [pin_eq (s.bpm.setPage _ _) hin] at hb
    subst hb
    refine h.modify htable hid (h.data pid f htable) (fun _ _ => rfl) (fun _ _ => rfl) ?_ ?_ ?_ ?_ ?_ (h.lruNodup.erase f)
    · intro hd hm
      exact h.clean pid f htable hd fun x hx => hm x (List.mem_cons_of_mem _ hx)
    · intro g hg
      simp [Ne.symm hg]
    · intro x hx hxf
      rcases List.mem_cons.mp hx with rfl | hx
      · rfl
      · rw [← (h.table _ _ (h.held x hx)).1, hxf, hid]
    · have hc := h.counts f
      simp only [List.countP_cons, decide_true, if_true]
      omega
    · intro g hg
      exact .inl ⟨List.mem_of_mem_erase hg, fun hgf => (List.Nodup.mem_erase_iff h.lruNodup).mp hg |>.1 hgf⟩
  · rename_i htable
    split at hf
    · cases hf
    · rename_i b f hv
      obtain ⟨hg, ht⟩ := h.evictVictim hv
      simp only at hf
      split at hf
      · cases hf
      · rename_i data hread
        obtain ⟨hb, hff⟩ := Prod.mk.inj hf
        obtain rfl := BufferPoolManager.Fetched.page.inj hff
        unfold BufferPoolManager.readPage at hread
        split at hread
        · cases hread
        · rename_i hpos
          have hpos' : 0 ≤ pid.pageNo := by omega
          have hnone : (b.evict f).pageTable pid = none :=
            evict_pageTable_none b f ((h.takeVictim hv).2.2.1 ▸ htable)
          have hinst := hg.install ht (by rw [evict_blank]; rfl) hnone hpos'
          rw [BufferPoolManager.updatePage_of_nonneg b f hpos'] at hread hb
          have hd : data = (b.evict f).diskData pid := by
            rw [← Option.some.inj hread]
            rfl
          rw [pin_of_not_mem] at hb
          · subst hb hd
            simpa [BufferPoolManager.setPage, BufferPoolManager.install] using hinst
          · exact ht.notLru

/-- A fetch that returns no page loses none. -/
theorem Good.fetchFails (h : Good s contents) {pid : PageId} {bpm : BufferPoolManager} {out : BufferPoolManager.Fetched}
    (hf : s.bpm.fetchPage pid = (bpm, out)) (hout : ∀ f, out ≠ .page f) : Good ⟨bpm, s.pins⟩ contents := by
  unfold BufferPoolManager.fetchPage at hf
  split at hf
  · obtain ⟨-, hff⟩ := Prod.mk.inj hf
    exact absurd hff.symm (hout _)
  · rename_i htable
    split at hf
    · obtain ⟨rfl, -⟩ := Prod.mk.inj hf
      exact h
    · rename_i b f hv
      obtain ⟨hg, ht⟩ := h.evictVictim hv
      have hnone : (b.evict f).pageTable pid = none :=
        evict_pageTable_none b f ((h.takeVictim hv).2.2.1 ▸ htable)
      simp only at hf
      split at hf
      · -- the frame is given back
        obtain ⟨hb, -⟩ := Prod.mk.inj hf
        have hrel := hg.release ht (by rw [evict_blank]; rfl)
        have hback : bpm = { b.evict f with freeList := (b.evict f).freeList ++ [f] } := by
          rw [← hb]
          exact BufferPoolManager.updatePage_thrown b f hnone
        rw [hback]
        exact hrel
      · obtain ⟨-, hff⟩ := Prod.mk.inj hf
        exact absurd hff.symm (hout _)

theorem Good.allocatePage (h : Good s contents) (fd : ℤ) : Good ⟨(s.bpm.allocatePage fd).1, s.pins⟩ contents := by
  refine ⟨h.table, h.ids, h.data, h.gone, h.clean, h.held, h.counts, h.free, h.lru, h.freeNodup, h.lruNodup, ?_⟩
  intro fd'
  have hold := h.counters fd
  have hother := h.counters fd'
  by_cases hfd : fd' = fd
  · subst hfd
    simp only [BufferPoolManager.allocatePage, Function.update_self]
    omega
  · simp only [BufferPoolManager.allocatePage, Function.update_of_ne hfd]
    exact hother

theorem Good.newPage_pid (h : Good s contents) {fd : ℤ} {bpm : BufferPoolManager} {pid : PageId}
    (hn : s.bpm.newPage fd = (bpm, some (pid, frame))) : pid = ⟨fd, s.bpm.fd2pageno fd⟩ := by
  unfold BufferPoolManager.newPage at hn
  split at hn
  · cases hn
  · rename_i b f hv
    obtain ⟨-, hpf⟩ := Prod.mk.inj hn
    rw [← (Prod.mk.inj (Option.some.inj hpf)).1]
    simp only [(h.takeVictim hv).2.2.2.2]

/-- **A new page** that is not in the pool and was never written has its contents: zeros. -/
theorem Good.newPage (h : Good s contents) {fd : ℤ} {bpm : BufferPoolManager} {pid : PageId}
    (hn : s.bpm.newPage fd = (bpm, some (pid, frame))) (hzero : contents pid = zeros)
    (hpool : s.bpm.pageTable ⟨fd, s.bpm.fd2pageno fd⟩ = none) :
    Good ⟨bpm, ⟨pid, frame, false⟩ :: s.pins⟩ contents := by
  unfold BufferPoolManager.newPage at hn
  split at hn
  · cases hn
  · rename_i b f hv
    obtain ⟨hg, ht, htable, hdisk', hcounter⟩ := h.takeVictim hv
    simp only [BufferPoolManager.allocatePage] at hn
    obtain ⟨hb, hpf⟩ := Prod.mk.inj hn
    obtain ⟨hpid, hff⟩ := Prod.mk.inj (Option.some.inj hpf)
    subst hpid hff
    rw [hcounter] at hb hzero ⊢
    have hg' := hg.allocatePage fd
    have ht' : Taken ⟨(b.allocatePage fd).1, s.pins⟩ f := ⟨ht.notFree, ht.notLru, ht.unpinned, ht.inPool⟩
    simp only [BufferPoolManager.allocatePage, hcounter] at hg' ht'
    have hpos : 0 ≤ (⟨fd, s.bpm.fd2pageno fd⟩ : PageId).pageNo := h.counters fd
    have hevict := hg'.evict ht'
    have hnone := evict_pageTable_none
      { b with fd2pageno := Function.update s.bpm.fd2pageno fd (s.bpm.fd2pageno fd + 1) } f (htable ▸ hpool)
    have hinst := hevict.install ht'.evict (by rw [evict_blank]; rfl) hnone hpos
    rw [hevict.gone _ hnone, hzero] at hinst
    rw [BufferPoolManager.updatePage_of_nonneg _ f hpos, pin_of_not_mem] at hb
    · subst hb
      simpa [BufferPoolManager.setPage, BufferPoolManager.install] using hinst
    · exact ht'.evict.notLru

theorem Good.newPage_zeros (h : Good s contents) {fd : ℤ} {bpm : BufferPoolManager} {pid : PageId}
    (hn : s.bpm.newPage fd = (bpm, some (pid, frame))) (hdisk : s.bpm.disk pid = none)
    (hpool : s.bpm.pageTable ⟨fd, s.bpm.fd2pageno fd⟩ = none) : contents pid = zeros := by
  rw [← h.newPage_pid hn] at hpool
  rw [← h.gone _ hpool, BufferPoolManager.diskData, hdisk]
  rfl

theorem Good.newFails (h : Good s contents) {fd : ℤ} {bpm : BufferPoolManager} (hn : s.bpm.newPage fd = (bpm, none)) :
    Good ⟨bpm, s.pins⟩ contents := by
  unfold BufferPoolManager.newPage at hn
  split at hn
  · obtain ⟨rfl, -⟩ := Prod.mk.inj hn
    exact h
  · cases hn

/-- A pin on a frame is a pin on its page. -/
theorem Good.pid_of_frame (h : Good s contents) {pid : PageId} (hf : s.bpm.pageTable pid = some frame) :
    ∀ x ∈ s.pins, x.frame = frame → x.pid = pid := by
  intro x hx hxf
  rw [← (h.table _ _ (h.held x hx)).1, hxf, (h.table _ _ hf).1]

/-- **A write** through a pin is a write to the contents. -/
theorem Good.write (h : Good s contents) {A B : List Pin} {x : Pin} (data : PageData) (hpins : s.pins = A ++ x :: B) :
    Good ⟨s.bpm.setPage x.frame { s.bpm.pages x.frame with data := data }, A ++ { x with modified := true } :: B⟩
      (Function.update contents x.pid data) := by
  have hmem : x ∈ s.pins := by rw [hpins]; simp
  have htable := h.held x hmem
  refine h.modify htable (h.table _ _ htable).1 (by simp) (fun p hp => Function.update_of_ne hp ..)
    (fun _ _ => rfl) ?_ ?_ ?_ ?_ ?_ h.lruNodup
  · intro _ hm
    exact absurd (hm { x with modified := true } (by simp) rfl) (by simp)
  · intro f hf
    rw [hpins]
    simp [List.filter_append, Ne.symm hf]
  · intro y hy hyf
    have hy' : y ∈ A ∨ y = { x with modified := true } ∨ y ∈ B := by simpa using hy
    rcases hy' with hy | rfl | hy
    · exact h.pid_of_frame htable y (by rw [hpins]; simp [hy]) hyf
    · rfl
    · exact h.pid_of_frame htable y (by rw [hpins]; simp [hy]) hyf
  · have hc := h.counts x.frame
    rw [hpins] at hc
    simpa [List.countP_append, List.countP_cons] using hc
  · intro f hf
    refine .inl ⟨hf, ?_⟩
    rintro rfl
    exact h.no_pin (h.lru _ hf).2.1 x hmem rfl

/-- **A pin is given back**: the frame is dirty then if the client says so. -/
theorem Good.unpin (h : Good s contents) {A B : List Pin} {x : Pin} {isDirty : Bool} {bpm : BufferPoolManager} {ok : Bool}
    (hpins : s.pins = A ++ x :: B) (hdirty : x.modified = true → isDirty = true)
    (hu : s.bpm.unpinPage x.pid isDirty = (bpm, ok)) : Good ⟨bpm, A ++ B⟩ contents := by
  have hmem : x ∈ s.pins := by rw [hpins]; simp
  have htable := h.held x hmem
  obtain ⟨hid, -, hin⟩ := h.table _ _ htable
  have hsub : ∀ y, y ∈ A ++ B → y ∈ s.pins := by
    intro y hy
    rw [hpins]
    simp only [List.mem_append, List.mem_cons] at hy ⊢
    tauto
  have hcount := h.counts x.frame
  have hpos : 0 < s.pins.countP fun y => decide (y.frame = x.frame) := List.countP_pos_iff.mpr ⟨x, hmem, by simp⟩
  have hcount' : (s.bpm.pages x.frame).pinCount - 1 = ((A ++ B).countP fun y => decide (y.frame = x.frame) : ℕ) := by
    rw [hpins] at hcount
    rw [hcount]
    simp only [List.countP_append, List.countP_cons, decide_true, if_true]
    omega
  have hnot : x.frame ∉ s.bpm.lruList := fun hl => h.no_pin (h.lru _ hl).2.1 x hmem rfl
  -- whatever the replacer's list becomes
  have hmod : ∀ lru : List ℕ, (∀ f ∈ lru, f ∈ s.bpm.lruList ∨ (f = x.frame ∧ (s.bpm.pages x.frame).pinCount - 1 = 0)) →
      lru.Nodup → Good ⟨{ s.bpm.setPage x.frame { s.bpm.pages x.frame with
        pinCount := (s.bpm.pages x.frame).pinCount - 1, isDirty := (s.bpm.pages x.frame).isDirty || isDirty } with
        lruList := lru }, A ++ B⟩ contents := by
    intro lru hlru hnd
    refine h.modify htable hid (h.data _ _ htable) (fun _ _ => rfl) (fun _ _ => rfl) ?_ ?_
      (fun y hy hyf => h.pid_of_frame htable y (hsub y hy) hyf) hcount' ?_ hnd
    · intro hd hm
      simp only [Bool.or_eq_false_iff] at hd
      refine h.clean _ _ htable hd.1 ?_
      intro y hy hyf
      rw [hpins] at hy
      have hy' : y ∈ A ++ B ∨ y = x := by
        simp only [List.mem_append, List.mem_cons] at hy ⊢
        tauto
      rcases hy' with hy' | rfl
      · exact hm y hy' hyf
      · by_contra hne
        have := hdirty (by simpa using hne)
        rw [hd.2] at this
        cases this
    · intro f hf
      rw [hpins]
      simp [List.filter_append, Ne.symm hf]
    · intro f hf
      rcases hlru f hf with hl | hl
      · exact .inl ⟨hl, fun hff => hnot (hff ▸ hl)⟩
      · exact .inr hl
  unfold BufferPoolManager.unpinPage at hu
  simp only [htable] at hu
  rw [if_neg (by omega)] at hu
  obtain ⟨hb, -⟩ := Prod.mk.inj hu
  subst hb
  split
  · rename_i hzero
    unfold BufferPoolManager.unpin
    rw [if_neg (by simp only [BufferPoolManager.setPage]; omega)]
    split
    · exact hmod _ (fun f hf => .inl hf) h.lruNodup
    · refine hmod (s.bpm.lruList ++ [x.frame]) ?_ ?_
      · intro f hf
        rcases List.mem_append.mp hf with hf | hf
        · exact .inl hf
        · exact .inr ⟨List.mem_singleton.mp hf, hzero⟩
      · refine h.lruNodup.append (List.nodup_singleton _) ?_
        intro f hf hf'
        exact hnot (List.mem_singleton.mp hf' ▸ hf)
  · exact hmod _ (fun f hf => .inl hf) h.lruNodup

/-- Nothing happens to a page that nobody holds pinned. -/
theorem Good.unpinNone (h : Good s contents) {pid : PageId} {isDirty : Bool} {bpm : BufferPoolManager} {ok : Bool}
    (hno : ∀ x ∈ s.pins, x.pid ≠ pid) (hu : s.bpm.unpinPage pid isDirty = (bpm, ok)) : bpm = s.bpm := by
  unfold BufferPoolManager.unpinPage at hu
  split at hu
  · exact (Prod.mk.inj hu).1.symm
  · rename_i f htable
    have hzero : (s.pins.countP fun y => decide (y.frame = f)) = 0 := by
      refine List.countP_eq_zero.mpr ?_
      intro y hy
      simp only [decide_eq_true_eq]
      exact fun hyf => hno y hy (h.pid_of_frame htable y hy hyf)
    have hc := h.counts f
    simp only at hu
    rw [if_pos (by omega)] at hu
    exact (Prod.mk.inj hu).1.symm

/-- **A flush** of a page writes its contents to disk. -/
theorem Good.flush (h : Good s contents) {pid : PageId} (hf : s.bpm.pageTable pid = some frame) :
    Good ⟨(s.bpm.writePage pid (s.bpm.pages frame).data).setPage frame { s.bpm.pages frame with isDirty := false },
      s.pins⟩ contents := by
  obtain ⟨hid, -, -⟩ := h.table _ _ hf
  refine h.modify hf hid (h.data _ _ hf) (fun _ _ => rfl) (fun p hp => Function.update_of_ne hp ..) ?_
    (fun _ _ => rfl) (h.pid_of_frame hf) (h.counts frame) ?_ h.lruNodup
  · intro _ _
    simp only [BufferPoolManager.writePage, Function.update_self]
    exact h.data _ _ hf
  · intro f hl
    by_cases hff : f = frame
    · subst hff
      exact .inr ⟨rfl, (h.lru f hl).2.1⟩
    · exact .inl ⟨hl, hff⟩

theorem Good.flushPage (h : Good s contents) {pid : PageId} {bpm : BufferPoolManager} {ok : Bool}
    (hf : s.bpm.flushPage pid = (bpm, ok)) : Good ⟨bpm, s.pins⟩ contents := by
  unfold BufferPoolManager.flushPage at hf
  split at hf
  · obtain ⟨rfl, -⟩ := Prod.mk.inj hf
    exact h
  · split at hf
    · obtain ⟨rfl, -⟩ := Prod.mk.inj hf
      exact h
    · rename_i f htable
      obtain ⟨rfl, -⟩ := Prod.mk.inj hf
      exact h.flush htable

/-- A round of `flush_all_pages` is a flush of the frame's page. -/
theorem Good.flushFrame (h : Good s contents) {pid : PageId} (hf : s.bpm.pageTable pid = some frame) :
    BufferPoolManager.flushFrame pid.fd s.bpm frame =
      (s.bpm.writePage pid (s.bpm.pages frame).data).setPage frame { s.bpm.pages frame with isDirty := false } := by
  obtain ⟨hid, hpos, -⟩ := h.table _ _ hf
  unfold BufferPoolManager.flushFrame
  simp only
  rw [if_neg, hid]
  rw [hid]
  unfold INVALID_PAGE_ID
  omega

theorem Good.flushAllPages {fd : ℤ} {pins : List Pin} : ∀ (frameIds : List ℕ) {bpm : BufferPoolManager},
    Good ⟨bpm, pins⟩ contents → (∀ f ∈ frameIds, ∃ pid, bpm.pageTable pid = some f ∧ pid.fd = fd) →
    Good ⟨bpm.flushAllPages fd frameIds, pins⟩ contents
  | [], _, h, _ => h
  | f :: rest, bpm, h, hall => by
    obtain ⟨pid, htable, rfl⟩ := hall f List.mem_cons_self
    have hround := h.flushFrame htable
    have hg := h.flush htable
    rw [← hround] at hg
    refine Good.flushAllPages rest hg ?_
    intro f' hf'
    obtain ⟨pid', htable', hfd⟩ := hall f' (List.mem_cons_of_mem _ hf')
    refine ⟨pid', ?_, hfd⟩
    rw [hround]
    exact htable'

/-- The replacer forgets a frame. -/
theorem Good.unlist (h : Good s contents) {pid : PageId} (hf : s.bpm.pageTable pid = some frame)
    (hpin : (s.bpm.pages frame).pinCount = 0) :
    Good ⟨s.bpm.pin frame, s.pins⟩ contents ∧ Taken ⟨s.bpm.pin frame, s.pins⟩ frame := by
  obtain ⟨hid, hpos, hin⟩ := h.table _ _ hf
  rw [pin_eq _ hin]
  refine ⟨⟨h.table, h.ids, h.data, h.gone, h.clean, h.held, h.counts, h.free, fun f hl => h.lru f (List.mem_of_mem_erase hl),
    h.freeNodup, h.lruNodup.erase _, h.counters⟩, ⟨?_, h.lruNodup.not_mem_erase, hpin, hin⟩⟩
  intro hfr
  have hinv := (h.free frame hfr).1
  rw [hid] at hinv
  unfold INVALID_PAGE_ID at hinv
  omega

/-- An unpinned page is deleted from the pool. -/
theorem Good.drop (h : Good s contents) {pid : PageId} (hf : s.bpm.pageTable pid = some frame)
    (hpin : (s.bpm.pages frame).pinCount = 0) :
    Good ⟨{ (s.bpm.pin frame).evict frame with freeList := ((s.bpm.pin frame).evict frame).freeList ++ [frame] }, s.pins⟩
      contents := by
  obtain ⟨hg, ht⟩ := h.unlist hf hpin
  exact (hg.evict ht).release ht.evict (by rw [evict_blank]; rfl)

theorem Good.deletePage (h : Good s contents) {pid : PageId} {bpm : BufferPoolManager} {ok : Bool}
    (hd : s.bpm.deletePage pid = (bpm, ok)) : Good ⟨bpm, s.pins⟩ contents := by
  unfold BufferPoolManager.deletePage at hd
  split at hd
  · obtain ⟨rfl, -⟩ := Prod.mk.inj hd
    exact h
  · rename_i f htable
    split at hd
    · obtain ⟨rfl, -⟩ := Prod.mk.inj hd
      exact h
    · rename_i hpin
      simp only [BufferPoolManager.updatePage_noPage] at hd
      obtain ⟨rfl, -⟩ := Prod.mk.inj hd
      exact h.drop htable (by simpa using hpin)

/-- A round of `delete_all_pages` flushes the frame's page and deletes it from the pool. -/
theorem Good.deleteFrame (h : Good s contents) {pid : PageId} (hf : s.bpm.pageTable pid = some frame)
    (hpin : (s.bpm.pages frame).pinCount = 0) :
    Good ⟨BufferPoolManager.deleteFrame pid.fd s.bpm frame, s.pins⟩ contents ∧
      (BufferPoolManager.deleteFrame pid.fd s.bpm frame).pageTable = Function.update s.bpm.pageTable pid none ∧
      ∀ f, f ≠ frame → (BufferPoolManager.deleteFrame pid.fd s.bpm frame).pages f = s.bpm.pages f := by
  obtain ⟨hid, hpos, hin⟩ := h.table _ _ hf
  have hvalid : ¬ pid.pageNo = INVALID_PAGE_ID := by unfold INVALID_PAGE_ID; omega
  have hdrop := (h.flush hf).drop hf (by simpa [BufferPoolManager.setPage] using hpin)
  have heq : BufferPoolManager.deleteFrame pid.fd s.bpm frame =
      { s.bpm with
        pages := Function.update s.bpm.pages frame ⟨noPage, zeros, false, 0⟩
        pageTable := Function.update s.bpm.pageTable pid none
        freeList := s.bpm.freeList ++ [frame]
        lruList := s.bpm.lruList.erase frame
        disk := Function.update s.bpm.disk pid (some (s.bpm.pages frame).data) } := by
    simp only [BufferPoolManager.deleteFrame, hid, hvalid, if_false]
    rw [pin_eq (s.bpm.writePage _ _) hin]
    rfl
  refine ⟨?_, by rw [heq], fun f hne => by rw [heq]; exact Function.update_of_ne hne _ _⟩
  rw [heq]
  rw [pin_eq ((s.bpm.writePage _ _).setPage _ _) hin] at hdrop
  simpa [BufferPoolManager.evict, BufferPoolManager.setPage, BufferPoolManager.writePage, hid, hvalid] using hdrop

theorem Good.deleteAllPages {fd : ℤ} {pins : List Pin} (hno : ∀ x ∈ pins, x.pid.fd ≠ fd) :
    ∀ (frameIds : List ℕ) {bpm : BufferPoolManager}, Good ⟨bpm, pins⟩ contents → frameIds.Nodup →
    (∀ f ∈ frameIds, ∃ pid, bpm.pageTable pid = some f ∧ pid.fd = fd) →
    Good ⟨bpm.deleteAllPages fd frameIds, pins⟩ contents
  | [], _, h, _, _ => h
  | f :: rest, bpm, h, hnd, hall => by
    obtain ⟨pid, htable, rfl⟩ := hall f List.mem_cons_self
    have hpin : (bpm.pages f).pinCount = 0 := by
      refine (h.counts f).trans ?_
      have hzero : (pins.countP fun y => decide (y.frame = f)) = 0 := by
        refine List.countP_eq_zero.mpr ?_
        intro y hy
        simp only [decide_eq_true_eq]
        exact fun hyf => hno y hy (by rw [h.pid_of_frame htable y hy hyf])
      rw [hzero]
      rfl
    obtain ⟨hg, htab, hpages⟩ := h.deleteFrame htable hpin
    refine Good.deleteAllPages hno rest hg (List.nodup_cons.mp hnd).2 ?_
    intro f' hf'
    obtain ⟨pid', htable', hfd⟩ := hall f' (List.mem_cons_of_mem _ hf')
    have hne : f' ≠ f := fun hff => (List.nodup_cons.mp hnd).1 (hff ▸ hf')
    refine ⟨pid', ?_, hfd⟩
    simp only at htab
    rw [htab, Function.update_of_ne, htable']
    rintro rfl
    exact hne (Option.some.inj (htable'.symm.trans htable))

/-! ### Runs -/

/-- `new_page` allocates a page that is not in the pool. -/
def AllocatesAbsent (s : Sys) (e : Event) : Prop :=
  ∀ fd, e = .new fd → s.bpm.pageTable ⟨fd, s.bpm.fd2pageno fd⟩ = none

/-- **One step** keeps the invariant, for the contents after it. -/
theorem Good.step {e : Event} {s' : Sys} (h : Good s contents) (hstep : Step s e s') (habsent : AllocatesAbsent s e) :
    Good s' (lastWritten contents [e]) := by
  cases hstep with
  | fetch hf => exact h.fetchPage hf
  | fetchFails hf hout => exact h.fetchFails hf hout
  | new _ _ hn hdisk => exact h.newPage hn (h.newPage_zeros hn hdisk (habsent _ rfl)) (habsent _ rfl)
  | newFails hn => exact h.newFails hn
  | write data hpins => exact h.write data hpins
  | unpin hpins hdirty hu => exact h.unpin hpins hdirty hu
  | unpinNone hno hu =>
    obtain rfl := h.unpinNone hno hu
    exact h
  | flush hf => exact h.flushPage hf
  | flushAll hl => exact Good.flushAllPages _ h fun f hf => (hl.2 f).mp hf
  | delete hd => exact h.deletePage hd
  | deleteAll hno hl => exact Good.deleteAllPages hno _ h hl.1 fun f hf => (hl.2 f).mp hf

theorem lastWritten_append (before : PageId → PageData) (es es' : List Event) :
    lastWritten before (es ++ es') = lastWritten (lastWritten before es) es' := List.foldl_append

theorem Good.create (poolSize : ℕ) (disk : PageId → Option PageData) {fd2pageno : ℤ → ℤ} (hcounters : ∀ fd, 0 ≤ fd2pageno fd) :
    Good ⟨BufferPoolManager.create poolSize disk fd2pageno, []⟩ (fun p => (disk p).getD zeros) where
  table _ _ h := by cases h
  ids _ h := absurd rfl h
  data _ _ h := by cases h
  gone _ _ := rfl
  clean _ _ h := by cases h
  held _ h := by cases h
  counts _ := rfl
  free f h := ⟨rfl, rfl, List.mem_range.mp h⟩
  lru _ h := by cases h
  freeNodup := List.nodup_range
  lruNodup := List.nodup_nil
  counters := hcounters

/-- **A run** keeps the invariant. -/
theorem Good.run {tr : List (Sys × Event)} {s' : Sys} (h : Good s contents) (htr : Trace Step s tr s')
    (habsent : ∀ x ∈ tr, AllocatesAbsent x.1 x.2) : Good s' (lastWritten contents (tr.map (·.2))) := by
  induction htr with
  | nil => exact h
  | snoc htr hs ih =>
    rw [List.map_append, lastWritten_append]
    exact (ih fun x hx => habsent x (List.mem_append_left _ hx)).step hs (habsent _ (by simp))

theorem lastWritten_of_not_written {pid : PageId} : ∀ {es : List Event} {before : PageId → PageData},
    (∀ data, Event.write pid data ∉ es) → lastWritten before es pid = before pid
  | [], _, _ => rfl
  | e :: es, before, hno => by
    have hrest : lastWritten (lastWritten before [e]) es pid = lastWritten before [e] pid :=
      lastWritten_of_not_written fun data hd => hno data (List.mem_cons_of_mem _ hd)
    refine hrest.trans ?_
    cases e with
    | write p data =>
      refine Function.update_of_ne ?_ _ _
      rintro rfl
      exact hno data List.mem_cons_self
    | _ => rfl

/-- A page that a run allocates and never writes to had no contents before. -/
theorem Good.allocated {tr : List (Sys × Event)} {s' : Sys} (h : Good s contents) (htr : Trace Step s tr s')
    (habsent : ∀ x ∈ tr, AllocatesAbsent x.1 x.2) {pid : PageId} (hno : ∀ data, Event.write pid data ∉ tr.map (·.2))
    {x : Sys × Event} (hx : x ∈ tr) {fd : ℤ} {bpm : BufferPoolManager} (he : x.2 = .new fd)
    (hn : x.1.bpm.newPage fd = (bpm, some (pid, frame))) : contents pid = zeros := by
  induction htr with
  | nil => cases hx
  | @snoc tr a e b htr hs ih =>
    have hno' : ∀ data, Event.write pid data ∉ tr.map (·.2) := fun data hd =>
      hno data (by rw [List.map_append]; exact List.mem_append_left _ hd)
    have habsent' : ∀ y ∈ tr, AllocatesAbsent y.1 y.2 := fun y hy => habsent y (List.mem_append_left _ hy)
    rcases List.mem_append.mp hx with hx | hx
    · exact ih habsent' hno' hx
    · obtain rfl := List.mem_singleton.mp hx
      simp only at he hn
      subst he
      have hgood := h.run htr habsent'
      have hdisk : a.bpm.disk pid = none := by
        cases hs with
        | new _ _ hn' hdisk =>
          obtain ⟨-, hpf⟩ := Prod.mk.inj (hn.symm.trans hn')
          rw [(Prod.mk.inj (Option.some.inj hpf)).1]
          exact hdisk
        | newFails hn' =>
          obtain ⟨-, hpf⟩ := Prod.mk.inj (hn.symm.trans hn')
          cases hpf
      have hzero := hgood.newPage_zeros hn hdisk (habsent (a, .new fd) (by simp) fd rfl)
      rwa [lastWritten_of_not_written hno'] at hzero

end Steps

/-- **The pool is a map from pages to contents.** In every run that starts with an empty pool on any disk, and in which
`new_page` never allocates a page that is in the pool, a page that is fetched at the end has the contents last written
to it; they are zeros if the run has allocated it and not written to it. -/
theorem fetch_returns_lastWritten {poolSize : ℕ} {disk : PageId → Option PageData} {fd2pageno : ℤ → ℤ}
    (hcounters : ∀ fd, 0 ≤ fd2pageno fd) {tr : List (Sys × Event)} {s : Sys}
    (htr : Trace Step ⟨BufferPoolManager.create poolSize disk fd2pageno, []⟩ tr s)
    (habsent : ∀ x ∈ tr, AllocatesAbsent x.1 x.2) {pid : PageId} {bpm : BufferPoolManager} {frame : ℕ}
    (hf : s.bpm.fetchPage pid = (bpm, .page frame)) :
    (bpm.pages frame).data = lastWritten (fun p => (disk p).getD zeros) (tr.map (·.2)) pid ∧
      ((∃ x ∈ tr, ∃ fd bpm' f, x.2 = .new fd ∧ x.1.bpm.newPage fd = (bpm', some (pid, f))) →
        (∀ data, Event.write pid data ∉ tr.map (·.2)) → (bpm.pages frame).data = zeros) := by
  have hinit := Good.create poolSize disk hcounters
  have hgood := (hinit.run htr habsent).fetchPage hf
  have hdata := hgood.data pid frame (hgood.held _ List.mem_cons_self)
  refine ⟨hdata, ?_⟩
  rintro ⟨x, hx, fd, bpm', f, he, hn⟩ hno
  refine hdata.trans ?_
  rw [lastWritten_of_not_written hno]
  exact hinit.allocated htr habsent hno hx he hn

/-! ### Two runs

A client that writes through the pin it got last and gives that one back first. -/

namespace Sys

/-- The state after `fetch_page` has returned a frame. -/
def fetched (s : Sys) (pid : PageId) (frame : ℕ) : Sys := ⟨(s.bpm.fetchPage pid).1, ⟨pid, frame, false⟩ :: s.pins⟩

/-- The state after `new_page` has returned a frame. -/
def allocated (s : Sys) (pid : PageId) (frame : ℕ) : Sys := ⟨(s.bpm.newPage pid.fd).1, ⟨pid, frame, false⟩ :: s.pins⟩

/-- The state after a write through the last pin. -/
def written (s : Sys) (pid : PageId) (frame : ℕ) (data : PageData) : Sys :=
  ⟨s.bpm.setPage frame { s.bpm.pages frame with data := data }, ⟨pid, frame, true⟩ :: s.pins.tail⟩

/-- The state after the last pin has been given back. -/
def unpinned (s : Sys) (pid : PageId) (isDirty : Bool) : Sys := ⟨(s.bpm.unpinPage pid isDirty).1, s.pins.tail⟩

variable {s s' : Sys} {tr : List (Sys × Event)}

theorem run_fetched (htr : Trace Step s tr s') (pid : PageId) (frame : ℕ)
    (h : (s'.bpm.fetchPage pid).2 = .page frame) :
    Trace Step s (tr ++ [(s', .fetch pid)]) (s'.fetched pid frame) :=
  htr.snoc (.fetch (Prod.ext rfl h))

theorem run_allocated (htr : Trace Step s tr s') (pid : PageId) (frame : ℕ) (hfd : 0 ≤ pid.fd ∧ pid.fd < MAX_FD)
    (h : (s'.bpm.newPage pid.fd).2 = some (pid, frame)) (hdisk : s'.bpm.disk pid = none) :
    Trace Step s (tr ++ [(s', .new pid.fd)]) (s'.allocated pid frame) :=
  htr.snoc (.new hfd.1 hfd.2 (Prod.ext rfl h) hdisk)

theorem run_written {pid : PageId} {frame : ℕ} {modified : Bool} (htr : Trace Step s tr s')
    (h : s'.pins = ⟨pid, frame, modified⟩ :: s'.pins.tail) (data : PageData) :
    Trace Step s (tr ++ [(s', .write pid data)]) (s'.written pid frame data) :=
  htr.snoc (.write (A := []) (B := s'.pins.tail) (h := ⟨pid, frame, modified⟩) data h)

theorem run_unpinned {pid : PageId} {frame : ℕ} {modified : Bool} (htr : Trace Step s tr s') (isDirty : Bool)
    (h : s'.pins = ⟨pid, frame, modified⟩ :: s'.pins.tail)
    (hdirty : modified = true → isDirty = true) :
    Trace Step s (tr ++ [(s', .unpin pid isDirty)]) (s'.unpinned pid isDirty) :=
  htr.snoc (.unpin (A := []) (B := s'.pins.tail) (h := ⟨pid, frame, modified⟩) h hdirty rfl)

end Sys

/-- A page full of one byte. -/
def filled (b : UInt8) : PageData := fun _ => b

/-- An empty pool on an empty disk. -/
def emptyPool (poolSize : ℕ) : Sys := ⟨BufferPoolManager.create poolSize (fun _ => none) (fun _ => 0), []⟩

/-- A page is allocated in the only frame, written, and evicted for another page. -/
def evicted : Sys :=
  (((((emptyPool 1).allocated ⟨3, 0⟩ 0).written ⟨3, 0⟩ 0 (filled 7)).unpinned ⟨3, 0⟩ true).fetched ⟨3, 1⟩ 0).unpinned
    ⟨3, 1⟩ false

theorem evicted_run : ∃ tr, Trace Step (emptyPool 1) tr evicted ∧ (∀ x ∈ tr, AllocatesAbsent x.1 x.2) ∧
    tr.map (·.2) = [.new 3, .write ⟨3, 0⟩ (filled 7), .unpin ⟨3, 0⟩ true, .fetch ⟨3, 1⟩, .unpin ⟨3, 1⟩ false] := by
  have h₁ := Sys.run_allocated (s := emptyPool 1) .nil ⟨3, 0⟩ 0 ⟨by decide, by decide⟩ rfl rfl
  have h₂ := Sys.run_written h₁ rfl (filled 7)
  have h₃ := Sys.run_unpinned h₂ true rfl (fun _ => rfl)
  have h₄ := Sys.run_fetched h₃ ⟨3, 1⟩ 0 rfl
  have h₅ := Sys.run_unpinned h₄ false rfl (by simp)
  refine ⟨_, h₅, ?_, rfl⟩
  intro x hx fd he
  simp at hx
  rcases hx with rfl | rfl | rfl | rfl | rfl
  all_goals simp at he
  rfl

theorem fetch_returns_lastWritten_evicted : ∃ tr bpm, Trace Step (emptyPool 1) tr evicted ∧
    evicted.bpm.fetchPage ⟨3, 0⟩ = (bpm, .page 0) ∧ (bpm.pages 0).data = filled 7 := by
  obtain ⟨tr, htr, habsent, hevents⟩ := evicted_run
  have hf : evicted.bpm.fetchPage ⟨3, 0⟩ = ((evicted.bpm.fetchPage ⟨3, 0⟩).1, .page 0) := Prod.ext rfl rfl
  refine ⟨tr, _, htr, hf, ?_⟩
  rw [(fetch_returns_lastWritten (fun _ => le_rfl) htr habsent hf).1, hevents]
  rfl

/-- A page is fetched and written before it is allocated. `new_page` puts it into a second frame, where it is written
again; the first frame goes to another page later, and this erases the page's entry in the page table. -/
def twoFrames : Sys :=
  (((((((emptyPool 2).fetched ⟨3, 0⟩ 0).written ⟨3, 0⟩ 0 (filled 1)).unpinned ⟨3, 0⟩ true).allocated ⟨3, 0⟩ 1).written
    ⟨3, 0⟩ 1 (filled 2)).fetched ⟨3, 1⟩ 0).unpinned ⟨3, 1⟩ false

theorem twoFrames_run : ∃ tr, Trace Step (emptyPool 2) tr twoFrames ∧
    tr.map (·.2) = [.fetch ⟨3, 0⟩, .write ⟨3, 0⟩ (filled 1), .unpin ⟨3, 0⟩ true, .new 3, .write ⟨3, 0⟩ (filled 2),
      .fetch ⟨3, 1⟩, .unpin ⟨3, 1⟩ false] := by
  have h₁ := Sys.run_fetched (s := emptyPool 2) .nil ⟨3, 0⟩ 0 rfl
  have h₂ := Sys.run_written h₁ rfl (filled 1)
  have h₃ := Sys.run_unpinned h₂ true rfl (fun _ => rfl)
  have h₄ := Sys.run_allocated h₃ ⟨3, 0⟩ 1 ⟨by decide, by decide⟩ rfl rfl
  have h₅ := Sys.run_written h₄ rfl (filled 2)
  have h₆ := Sys.run_fetched h₅ ⟨3, 1⟩ 0 rfl
  have h₇ := Sys.run_unpinned h₆ false rfl (by simp)
  exact ⟨_, h₇, rfl⟩

/-- What was last written to a page that `new_page` allocated while it was in the pool is not what a fetch returns. -/
theorem fetch_after_new_fails : ¬ ∀ (poolSize : ℕ) (disk : PageId → Option PageData) (fd2pageno : ℤ → ℤ)
    (tr : List (Sys × Event)) (s : Sys) (pid : PageId) (bpm : BufferPoolManager) (frame : ℕ), 0 < poolSize →
    (∀ fd, 0 ≤ fd2pageno fd) → Trace Step ⟨BufferPoolManager.create poolSize disk fd2pageno, []⟩ tr s →
    s.bpm.fetchPage pid = (bpm, .page frame) →
    (bpm.pages frame).data = lastWritten (fun p => (disk p).getD zeros) (tr.map (·.2)) pid := by
  intro hall
  obtain ⟨tr, htr, hevents⟩ := twoFrames_run
  have hf : twoFrames.bpm.fetchPage ⟨3, 0⟩ = ((twoFrames.bpm.fetchPage ⟨3, 0⟩).1, .page 0) := Prod.ext rfl rfl
  have hdata := hall 2 _ _ tr _ _ _ _ (by decide) (fun _ => le_rfl) htr hf
  rw [hevents] at hdata
  have hbyte : (1 : UInt8) = 2 := congrFun hdata ⟨0, by decide⟩
  exact absurd hbyte (by decide)

end Rmdb.Storage
