import Rmdb.Storage.Contents
import Mathlib.Data.List.Perm.Subperm

/-!
# The frames of the buffer pool

Any sequence of calls of the buffer pool, with nothing promised of its callers, on a disk
whose `write_page` and `read_page` may throw at any call. A `write_page` that throws may have
written a part of the page.

Every frame is free, or holds a page that can be replaced, or holds a page that is pinned
(`PoolOk.frame_class`). `update_page` throws when it cannot write the old page of the
frame; the frame has been taken off its list then, and nobody puts it back
(`failed_disk_loses_frame`). As long as this does not happen, no failure of the disk makes the pool
smaller (`failed_disk_keeps_frames`).
-/

namespace Rmdb.Storage

open Lib

/-- How the disk answers the calls of an operation. -/
structure Io where
  /-- Does `write_page` throw at this page? -/
  writeFails : PageId → Bool
  /-- What a `write_page` that throws leaves on disk. -/
  left : PageId → PageData
  /-- Does `read_page` throw at this page? -/
  readFails : PageId → Bool

/-- Nothing throws. -/
def Io.ok : Io := ⟨fun _ => false, fun _ => zeros, fun _ => false⟩

@[simp] theorem Io.ok_writeFails (pid : PageId) : Io.ok.writeFails pid = false := rfl

@[simp] theorem Io.ok_readFails (pid : PageId) : Io.ok.readFails pid = false := rfl

namespace BufferPoolManager

/-! ### The operations on a disk that may fail -/

/-- What an operation returns. -/
inductive Result (α : Type) where
  /-- It returns. -/
  | returned (a : α)
  /-- It throws. -/
  | throws
deriving DecidableEq

/-- A `write_page` that throws. -/
def tornPage (bpm : BufferPoolManager) (io : Io) (pid : PageId) : BufferPoolManager := bpm.writePage pid (io.left pid)

/-- `update_page` throws: the page in the frame is dirty, and it cannot be written. -/
def updateFails (bpm : BufferPoolManager) (io : Io) (frame : ℕ) : Bool :=
  let page := bpm.pages frame
  page.id.pageNo ≠ INVALID_PAGE_ID && page.isDirty && io.writeFails page.id

/-- `fetch_page`. -/
def fetchPageIo (bpm : BufferPoolManager) (io : Io) (pid : PageId) : BufferPoolManager × Result (Option ℕ) :=
  match bpm.pageTable pid with
  | some frame =>
    let page := bpm.pages frame
    ((bpm.setPage frame { page with pinCount := page.pinCount + 1 }).pin frame, .returned (some frame))
  | none =>
    match bpm.findVictimPage with
    | none => (bpm, .returned none)
    | some (bpm, frame) =>
      if bpm.updateFails io frame then (bpm.tornPage io (bpm.pages frame).id, .throws)
      else
        let bpm := bpm.updatePage frame pid
        match if io.readFails pid then none else bpm.readPage pid with
        | none =>
          let bpm := { bpm with pageTable := Function.update bpm.pageTable pid none }
          let bpm := bpm.setPage frame { bpm.pages frame with id := noPage }
          ({ bpm with freeList := bpm.freeList ++ [frame] }, .throws)
        | some data =>
          ((bpm.setPage frame { bpm.pages frame with data := data, pinCount := 1 }).pin frame, .returned (some frame))

/-- `new_page`. -/
def newPageIo (bpm : BufferPoolManager) (io : Io) (fd : ℤ) : BufferPoolManager × Result (Option (PageId × ℕ)) :=
  match bpm.findVictimPage with
  | none => (bpm, .returned none)
  | some (bpm, frame) =>
    let (bpm, pageNo) := bpm.allocatePage fd
    let newPageId : PageId := ⟨fd, pageNo⟩
    if bpm.updateFails io frame then (bpm.tornPage io (bpm.pages frame).id, .throws)
    else
      let bpm := bpm.updatePage frame newPageId
      ((bpm.setPage frame { bpm.pages frame with pinCount := 1 }).pin frame, .returned (some (newPageId, frame)))

/-- `flush_page`. -/
def flushPageIo (bpm : BufferPoolManager) (io : Io) (pid : PageId) : BufferPoolManager × Result Bool :=
  if pid.pageNo = INVALID_PAGE_ID then (bpm, .returned false)
  else match bpm.pageTable pid with
    | none => (bpm, .returned false)
    | some frame =>
      let page := bpm.pages frame
      if io.writeFails pid then (bpm.tornPage io pid, .throws)
      else ((bpm.writePage pid page.data).setPage frame { page with isDirty := false }, .returned true)

/-- `delete_page`. -/
def deletePageIo (bpm : BufferPoolManager) (io : Io) (pid : PageId) : BufferPoolManager × Result Bool :=
  match bpm.pageTable pid with
  | none => (bpm, .returned true)
  | some frame =>
    if (bpm.pages frame).pinCount ≠ 0 then (bpm, .returned false)
    else
      let bpm := bpm.pin frame
      if bpm.updateFails io frame then (bpm.tornPage io (bpm.pages frame).id, .throws)
      else
        let bpm := bpm.updatePage frame noPage
        ({ bpm with freeList := bpm.freeList ++ [frame] }, .returned true)

/-- The loop of `flush_all_pages`. -/
def flushAllPagesIo (io : Io) (fd : ℤ) : BufferPoolManager → List ℕ → BufferPoolManager × Result Unit
  | bpm, [] => (bpm, .returned ())
  | bpm, frame :: frames =>
    let page := bpm.pages frame
    if page.id.pageNo ≠ INVALID_PAGE_ID ∧ io.writeFails ⟨fd, page.id.pageNo⟩ then
      (bpm.tornPage io ⟨fd, page.id.pageNo⟩, .throws)
    else flushAllPagesIo io fd (flushFrame fd bpm frame) frames

/-- The loop of `delete_all_pages`. -/
def deleteAllPagesIo (io : Io) (fd : ℤ) : BufferPoolManager → List ℕ → BufferPoolManager × Result Unit
  | bpm, [] => (bpm, .returned ())
  | bpm, frame :: frames =>
    let page := bpm.pages frame
    if page.id.pageNo ≠ INVALID_PAGE_ID ∧ io.writeFails ⟨fd, page.id.pageNo⟩ then
      (bpm.tornPage io ⟨fd, page.id.pageNo⟩, .throws)
    else deleteAllPagesIo io fd (deleteFrame fd bpm frame) frames

/-- What `fetch_page` returns, as a result. -/
def Fetched.result : Fetched → Result (Option ℕ)
  | .page frame => .returned (some frame)
  | .null => .returned none
  | .throws => .throws

section Ok

variable (bpm : BufferPoolManager)

@[simp] theorem updateFails_ok (frame : ℕ) : bpm.updateFails .ok frame = false := by
  simp [updateFails]

/-- On a disk that does not fail, the operations are those of the pool. -/
theorem fetchPageIo_ok (pid : PageId) :
    bpm.fetchPageIo .ok pid = ((bpm.fetchPage pid).1, (bpm.fetchPage pid).2.result) := by
  rcases htable : bpm.pageTable pid with _ | frame
  · rcases hv : bpm.findVictimPage with _ | ⟨b, frame⟩
    · simp only [fetchPageIo, fetchPage, htable, hv, Fetched.result]
    · simp only [fetchPageIo, fetchPage, htable, hv, updateFails_ok, Io.ok_readFails, Bool.false_eq_true,
        if_false]
      rcases (b.updatePage frame pid).readPage pid with _ | data <;> rfl
  · simp only [fetchPageIo, fetchPage, htable, Fetched.result]

theorem newPageIo_ok (fd : ℤ) : bpm.newPageIo .ok fd = ((bpm.newPage fd).1, .returned (bpm.newPage fd).2) := by
  rcases hv : bpm.findVictimPage with _ | ⟨b, frame⟩
  · simp only [newPageIo, newPage, hv]
  · simp only [newPageIo, newPage, hv, updateFails_ok, Bool.false_eq_true, if_false]

theorem flushPageIo_ok (pid : PageId) :
    bpm.flushPageIo .ok pid = ((bpm.flushPage pid).1, .returned (bpm.flushPage pid).2) := by
  unfold flushPageIo flushPage
  split
  · rfl
  · rcases bpm.pageTable pid with _ | frame <;> rfl

theorem deletePageIo_ok (pid : PageId) :
    bpm.deletePageIo .ok pid = ((bpm.deletePage pid).1, .returned (bpm.deletePage pid).2) := by
  rcases htable : bpm.pageTable pid with _ | frame
  · simp only [deletePageIo, deletePage, htable]
  · simp only [deletePageIo, deletePage, htable, updateFails_ok, Bool.false_eq_true, if_false]
    split <;> rfl

theorem flushAllPagesIo_ok (fd : ℤ) (frameIds : List ℕ) :
    flushAllPagesIo .ok fd bpm frameIds = (bpm.flushAllPages fd frameIds, .returned ()) := by
  induction frameIds generalizing bpm with
  | nil => rfl
  | cons frame frames ih => simpa [flushAllPagesIo, flushAllPages] using ih (flushFrame fd bpm frame)

theorem deleteAllPagesIo_ok (fd : ℤ) (frameIds : List ℕ) :
    deleteAllPagesIo .ok fd bpm frameIds = (bpm.deleteAllPages fd frameIds, .returned ()) := by
  induction frameIds generalizing bpm with
  | nil => rfl
  | cons frame frames ih => simpa [deleteAllPagesIo, deleteAllPages] using ih (deleteFrame fd bpm frame)

end Ok

end BufferPoolManager

/-- A call of the pool, or a write of a client to a page that is pinned. -/
inductive Call where
  /-- `fetch_page`. -/
  | fetch (pid : PageId)
  /-- `new_page`. -/
  | new (fd : ℤ)
  /-- `unpin_page`. -/
  | unpin (pid : PageId) (isDirty : Bool)
  /-- `flush_page`. -/
  | flush (pid : PageId)
  /-- `flush_all_pages`. -/
  | flushAll (fd : ℤ)
  /-- `delete_page`. -/
  | delete (pid : PageId)
  /-- `delete_all_pages`. -/
  | deleteAll (fd : ℤ)
  /-- A client writes to a page. -/
  | write (frame : ℕ) (data : PageData)

open BufferPoolManager in
/-- A call, with the answers of the disk. -/
inductive IoStep (bpm : BufferPoolManager) : Call × Io → BufferPoolManager → Prop where
  /-- `fetch_page`. -/
  | fetch {pid : PageId} {io : Io} : IoStep bpm (.fetch pid, io) (bpm.fetchPageIo io pid).1
  /-- `new_page`; `allocate_page` asserts that the file descriptor is in range. -/
  | new {fd : ℤ} {io : Io} : 0 ≤ fd → fd < MAX_FD → IoStep bpm (.new fd, io) (bpm.newPageIo io fd).1
  /-- `unpin_page`. -/
  | unpin {pid : PageId} {isDirty : Bool} {io : Io} : IoStep bpm (.unpin pid isDirty, io) (bpm.unpinPage pid isDirty).1
  /-- `flush_page`. -/
  | flush {pid : PageId} {io : Io} : IoStep bpm (.flush pid, io) (bpm.flushPageIo io pid).1
  /-- `flush_all_pages`. -/
  | flushAll {fd : ℤ} {io : Io} {frameIds : List ℕ} : bpm.Lists fd frameIds →
      IoStep bpm (.flushAll fd, io) (flushAllPagesIo io fd bpm frameIds).1
  /-- `delete_page`. -/
  | delete {pid : PageId} {io : Io} : IoStep bpm (.delete pid, io) (bpm.deletePageIo io pid).1
  /-- `delete_all_pages`. -/
  | deleteAll {fd : ℤ} {io : Io} {frameIds : List ℕ} : bpm.Lists fd frameIds →
      IoStep bpm (.deleteAll fd, io) (deleteAllPagesIo io fd bpm frameIds).1
  /-- A client writes to a page. -/
  | write {frame : ℕ} {data : PageData} {io : Io} : 0 < (bpm.pages frame).pinCount →
      IoStep bpm (.write frame data, io) (bpm.setPage frame { bpm.pages frame with data := data })

/-! ### The invariant -/

/-- What holds of the pool between the calls. A frame that is loose holds no pin, and is on no list. -/
structure PoolOk (bpm : BufferPoolManager) (loose : ℕ → Prop) : Prop where
  /-- An entry of the page table is a frame with that page. -/
  table : ∀ pid frame, bpm.pageTable pid = some frame →
    (bpm.pages frame).id = pid ∧ pid.pageNo ≠ INVALID_PAGE_ID ∧ frame < bpm.poolSize
  /-- A frame with a page is in the page table. -/
  ids : ∀ frame, (bpm.pages frame).id.pageNo ≠ INVALID_PAGE_ID → bpm.pageTable (bpm.pages frame).id = some frame
  /-- Pins are counted from zero. -/
  pins : ∀ frame, 0 ≤ (bpm.pages frame).pinCount
  /-- A frame without a page is not pinned. -/
  blank : ∀ frame, (bpm.pages frame).id.pageNo = INVALID_PAGE_ID → (bpm.pages frame).pinCount = 0
  /-- A free frame has no page. -/
  free : ∀ frame ∈ bpm.freeList, (bpm.pages frame).id.pageNo = INVALID_PAGE_ID ∧ frame < bpm.poolSize
  /-- A frame that may be replaced has a page and no pin. -/
  lru : ∀ frame ∈ bpm.lruList, (bpm.pages frame).id.pageNo ≠ INVALID_PAGE_ID ∧ (bpm.pages frame).pinCount = 0
  /-- No frame is free twice. -/
  freeNodup : bpm.freeList.Nodup
  /-- No frame may be replaced twice. -/
  lruNodup : bpm.lruList.Nodup
  /-- A frame without a pin is on a list. -/
  listed : ∀ frame < bpm.poolSize, (bpm.pages frame).pinCount = 0 → ¬ loose frame →
    frame ∈ bpm.freeList ∨ frame ∈ bpm.lruList
  /-- A loose frame is on none. -/
  loose : ∀ frame, loose frame → frame < bpm.poolSize ∧ (bpm.pages frame).pinCount = 0 ∧ frame ∉ bpm.freeList ∧
    frame ∉ bpm.lruList
  /-- Page numbers are not negative. -/
  counters : ∀ fd, 0 ≤ bpm.fd2pageno fd

/-- No frame is loose. -/
def noFrame : ℕ → Prop := fun _ => False

section Frames

variable {bpm : BufferPoolManager} {L L' : ℕ → Prop} {frame : ℕ} {pid : PageId}

/-- **A change of one frame**, of its page, its entry in the page table and its place on the lists. -/
theorem PoolOk.change (h : PoolOk bpm L) (hin : frame < bpm.poolSize) {page : Page} {table : PageId → Option ℕ}
    {free lru : List ℕ} {d : PageId → Option PageData}
    (htable : ∀ p g, table p = some g ↔
      g = frame ∧ p = page.id ∧ page.id.pageNo ≠ INVALID_PAGE_ID ∨ g ≠ frame ∧ bpm.pageTable p = some g)
    (hpin : 0 ≤ page.pinCount) (hblank : page.id.pageNo = INVALID_PAGE_ID → page.pinCount = 0)
    (hfree : ∀ g, g ≠ frame → (g ∈ free ↔ g ∈ bpm.freeList)) (hfreeNodup : free.Nodup)
    (hlru : ∀ g, g ≠ frame → (g ∈ lru ↔ g ∈ bpm.lruList)) (hlruNodup : lru.Nodup)
    (hinFree : frame ∈ free → page.id.pageNo = INVALID_PAGE_ID)
    (hinLru : frame ∈ lru → page.id.pageNo ≠ INVALID_PAGE_ID ∧ page.pinCount = 0)
    (hlisted : page.pinCount = 0 → ¬ L' frame → frame ∈ free ∨ frame ∈ lru)
    (hothers : ∀ g, g ≠ frame → (L' g ↔ L g))
    (hloose : L' frame → page.pinCount = 0 ∧ frame ∉ free ∧ frame ∉ lru) :
    PoolOk { bpm with
      pages := Function.update bpm.pages frame page, pageTable := table, freeList := free, lruList := lru
      disk := d } L' := by
  have hself : Function.update bpm.pages frame page frame = page := Function.update_self ..
  have hother : ∀ g, g ≠ frame → Function.update bpm.pages frame page g = bpm.pages g := fun g hg =>
    Function.update_of_ne hg ..
  refine ⟨fun p g hg => ?_, fun g hg => ?_, fun g => ?_, fun g hg => ?_, fun g hg => ?_, fun g hg => ?_, hfreeNodup,
    hlruNodup, fun g hlt hg hl => ?_, fun g hg => ?_, h.counters⟩ <;> simp only at *
  · rcases (htable p g).mp hg with ⟨rfl, rfl, hvalid⟩ | ⟨hne, hold⟩
    · rw [hself]
      exact ⟨rfl, hvalid, hin⟩
    · rw [hother g hne]
      exact h.table p g hold
  · by_cases hne : g = frame
    · subst hne
      rw [hself] at hg ⊢
      exact (htable _ _).mpr (.inl ⟨rfl, rfl, hg⟩)
    · rw [hother g hne] at hg ⊢
      exact (htable _ _).mpr (.inr ⟨hne, h.ids g hg⟩)
  · by_cases hne : g = frame
    · subst hne
      rw [hself]
      exact hpin
    · rw [hother g hne]
      exact h.pins g
  · by_cases hne : g = frame
    · subst hne
      rw [hself] at hg ⊢
      exact hblank hg
    · rw [hother g hne] at hg ⊢
      exact h.blank g hg
  · by_cases hne : g = frame
    · subst hne
      rw [hself]
      exact ⟨hinFree hg, hin⟩
    · rw [hother g hne]
      exact h.free g ((hfree g hne).mp hg)
  · by_cases hne : g = frame
    · subst hne
      rw [hself]
      exact hinLru hg
    · rw [hother g hne]
      exact h.lru g ((hlru g hne).mp hg)
  · by_cases hne : g = frame
    · subst hne
      rw [hself] at hg
      exact hlisted hg hl
    · rw [hother g hne] at hg
      rw [hfree g hne, hlru g hne]
      exact h.listed g hlt hg (mt (hothers g hne).mpr hl)
  · by_cases hne : g = frame
    · subst hne
      rw [hself]
      exact ⟨hin, hloose hg⟩
    · rw [hother g hne, hfree g hne, hlru g hne]
      exact h.loose g ((hothers g hne).mp hg)

/-- The entries of the page table, seen from a frame. -/
theorem PoolOk.table_iff (h : PoolOk bpm L) (frame : ℕ) (p : PageId) (g : ℕ) : bpm.pageTable p = some g ↔
    g = frame ∧ p = (bpm.pages frame).id ∧ (bpm.pages frame).id.pageNo ≠ INVALID_PAGE_ID ∨
      g ≠ frame ∧ bpm.pageTable p = some g := by
  constructor
  · intro hg
    by_cases hne : g = frame
    · subst hne
      obtain ⟨hid, hvalid, -⟩ := h.table p g hg
      exact .inl ⟨rfl, hid.symm, by rw [hid]; exact hvalid⟩
    · exact .inr ⟨hne, hg⟩
  · rintro (⟨rfl, rfl, hvalid⟩ | ⟨-, hg⟩)
    · exact h.ids g hvalid
    · exact hg

/-- A frame changes its place on the lists. -/
theorem PoolOk.relist (h : PoolOk bpm L) (hin : frame < bpm.poolSize) {free lru : List ℕ}
    (hfree : ∀ g, g ≠ frame → (g ∈ free ↔ g ∈ bpm.freeList)) (hfreeNodup : free.Nodup)
    (hlru : ∀ g, g ≠ frame → (g ∈ lru ↔ g ∈ bpm.lruList)) (hlruNodup : lru.Nodup)
    (hinFree : frame ∈ free → (bpm.pages frame).id.pageNo = INVALID_PAGE_ID)
    (hinLru : frame ∈ lru → (bpm.pages frame).id.pageNo ≠ INVALID_PAGE_ID ∧ (bpm.pages frame).pinCount = 0)
    (hlisted : (bpm.pages frame).pinCount = 0 → ¬ L' frame → frame ∈ free ∨ frame ∈ lru)
    (hothers : ∀ g, g ≠ frame → (L' g ↔ L g))
    (hloose : L' frame → (bpm.pages frame).pinCount = 0 ∧ frame ∉ free ∧ frame ∉ lru) :
    PoolOk { bpm with freeList := free, lruList := lru } L' := by
  have hchange := h.change (d := bpm.disk) hin (h.table_iff frame) (h.pins frame) (h.blank frame) hfree hfreeNodup hlru
    hlruNodup hinFree hinLru hlisted hothers hloose
  rw [Function.update_eq_self] at hchange
  exact hchange

/-- `find_victim_page` takes a frame off its list. -/
theorem PoolOk.takeVictim (h : PoolOk bpm noFrame) {b : BufferPoolManager} (hv : bpm.findVictimPage = some (b, frame)) :
    PoolOk b (· = frame) ∧ b.pages = bpm.pages ∧ b.pageTable = bpm.pageTable ∧ b.disk = bpm.disk ∧
      b.poolSize = bpm.poolSize ∧ b.fd2pageno = bpm.fd2pageno := by
  have hothers : ∀ g, g ≠ frame → (g = frame ↔ noFrame g) := fun g hg => iff_of_false hg id
  unfold BufferPoolManager.findVictimPage at hv
  split at hv
  · rename_i f rest hfree
    obtain ⟨rfl, rfl⟩ := Prod.mk.inj (Option.some.inj hv)
    have hmem : f ∈ bpm.freeList := by rw [hfree]; exact List.mem_cons_self
    obtain ⟨hid, hin⟩ := h.free f hmem
    have hnd := h.freeNodup
    rw [hfree, List.nodup_cons] at hnd
    refine ⟨h.relist hin (fun g hg => by simp [hfree, hg]) hnd.2 (fun g _ => Iff.rfl) h.lruNodup (fun hf => absurd hf hnd.1)
      (fun hl => h.lru f hl) (fun _ hl => absurd rfl hl) hothers (fun _ => ⟨h.blank f hid, hnd.1, ?_⟩), rfl, rfl, rfl, rfl, rfl⟩
    intro hl
    exact (h.lru f hl).1 hid
  · split at hv
    · rename_i f rest hlru
      obtain ⟨rfl, rfl⟩ := Prod.mk.inj (Option.some.inj hv)
      have hmem : f ∈ bpm.lruList := by rw [hlru]; exact List.mem_cons_self
      obtain ⟨hid, hpin⟩ := h.lru f hmem
      obtain ⟨-, -, hin⟩ := h.table _ _ (h.ids f hid)
      have hnd := h.lruNodup
      rw [hlru, List.nodup_cons] at hnd
      refine ⟨h.relist hin (fun g _ => Iff.rfl) h.freeNodup (fun g hg => by simp [hlru, hg]) hnd.2
        (fun hf => (h.free f hf).1) (fun hl => absurd hl hnd.1) (fun _ hl => absurd rfl hl) hothers
        (fun _ => ⟨hpin, fun hf => hid (h.free f hf).1, hnd.1⟩), rfl, rfl, rfl, rfl, rfl⟩
    · cases hv

/-- Taking the page out of a frame, as a change of that frame. -/
theorem evict_form (bpm : BufferPoolManager) (frame : ℕ) : bpm.evict frame = { bpm with
    pages := Function.update bpm.pages frame ⟨noPage, zeros, false, 0⟩
    pageTable := if (bpm.pages frame).id.pageNo ≠ INVALID_PAGE_ID then
      Function.update bpm.pageTable (bpm.pages frame).id none else bpm.pageTable
    disk := (bpm.evict frame).disk } := by
  obtain ⟨hpages, htable, hfree, hlru, hsize, hcounters, -⟩ := evict_eq bpm frame
  rw [← hpages, ← htable, ← hfree, ← hlru, ← hsize, ← hcounters]

/-- The table without the page of a frame. -/
theorem PoolOk.erase_iff (h : PoolOk bpm L) (frame : ℕ) (p : PageId) (g : ℕ) :
    (if (bpm.pages frame).id.pageNo ≠ INVALID_PAGE_ID then Function.update bpm.pageTable (bpm.pages frame).id none
      else bpm.pageTable) p = some g ↔ g ≠ frame ∧ bpm.pageTable p = some g := by
  split
  · rename_i hid
    by_cases hp : p = (bpm.pages frame).id
    · subst hp
      rw [Function.update_self, h.ids frame hid]
      constructor
      · intro hg
        cases hg
      · rintro ⟨hne, hg⟩
        exact absurd (Option.some.inj hg).symm hne
    · rw [Function.update_of_ne hp, h.table_iff frame p g]
      simp [hp]
  · rename_i hid
    rw [h.table_iff frame p g]
    simp [hid]

/-- `update_page` takes the page out of a frame that has been taken off its list. -/
theorem PoolOk.evict (h : PoolOk bpm (· = frame)) : PoolOk (bpm.evict frame) (· = frame) := by
  obtain ⟨hin, -, hfree, hlru⟩ := h.loose frame rfl
  rw [evict_form]
  refine h.change hin (fun p g => (h.erase_iff frame p g).trans ?_) le_rfl (fun _ => rfl) (fun g _ => Iff.rfl) h.freeNodup
    (fun g _ => Iff.rfl) h.lruNodup (fun hf => absurd hf hfree) (fun hl => absurd hl hlru) (fun _ hl => absurd rfl hl)
    (fun g _ => Iff.rfl) fun _ => ⟨rfl, hfree, hlru⟩
  simp [noPage]

/-- An empty frame goes to the free list. -/
theorem PoolOk.release (h : PoolOk bpm (· = frame)) (hid : (bpm.pages frame).id.pageNo = INVALID_PAGE_ID) :
    PoolOk { bpm with freeList := bpm.freeList ++ [frame] } noFrame := by
  obtain ⟨hin, -, hfree, hlru⟩ := h.loose frame rfl
  refine h.relist hin (fun g hg => by simp [hg]) ?_ (fun g _ => Iff.rfl) h.lruNodup (fun _ => hid) (fun hl => absurd hl hlru)
    (fun _ _ => .inl (by simp)) (fun g hg => iff_of_false id hg) (fun hl => hl.elim)
  exact h.freeNodup.append (List.nodup_singleton _) (by simpa using hfree)

/-- A page is put into an empty frame, with a pin. -/
theorem PoolOk.install (h : PoolOk bpm (· = frame)) (hid : (bpm.pages frame).id.pageNo = INVALID_PAGE_ID)
    (hnone : bpm.pageTable pid = none) (hpid : pid.pageNo ≠ INVALID_PAGE_ID) (data : PageData) :
    PoolOk (bpm.install frame pid data 1) noFrame := by
  obtain ⟨hin, -, hfree, hlru⟩ := h.loose frame rfl
  refine h.change (d := bpm.disk) hin ?_ Int.one_nonneg (fun hp => absurd hp hpid) (fun g _ => Iff.rfl)
    h.freeNodup (fun g _ => Iff.rfl) h.lruNodup (fun hf => absurd hf hfree) (fun hl => absurd hl hlru)
    (fun hp => absurd hp Int.one_ne_zero) (fun g hg => iff_of_false id hg) (fun hl => hl.elim)
  intro p g
  by_cases hp : p = pid
  · subst hp
    simp only [Function.update_self, Option.some.injEq, hnone, reduceCtorEq, and_false, or_false, true_and]
    exact ⟨fun hg => ⟨hg.symm, hpid⟩, fun hg => hg.1.symm⟩
  · rw [Function.update_of_ne hp, h.table_iff frame p g]
    simp [hp, hid]

/-- The frame of a page changes its pins, its bytes or its mark, and its place in the replacer. -/
theorem PoolOk.touch (h : PoolOk bpm noFrame) (hf : bpm.pageTable pid = some frame) {page : Page} {lru : List ℕ}
    {d : PageId → Option PageData} (hid : page.id = pid) (hpin : 0 ≤ page.pinCount)
    (hlru : ∀ g, g ≠ frame → (g ∈ lru ↔ g ∈ bpm.lruList)) (hlruNodup : lru.Nodup)
    (hinLru : frame ∈ lru ↔ page.pinCount = 0) :
    PoolOk { bpm with pages := Function.update bpm.pages frame page, lruList := lru, disk := d } noFrame := by
  obtain ⟨hold, hvalid, hin⟩ := h.table pid frame hf
  have hnotFree : frame ∉ bpm.freeList := fun hfree => hvalid (hold ▸ (h.free frame hfree).1)
  refine h.change hin ?_ hpin (fun hp => absurd (hid ▸ hp) hvalid) (fun g _ => Iff.rfl) h.freeNodup hlru
    hlruNodup (fun hfree => absurd hfree hnotFree) (fun hl => ⟨hid ▸ hvalid, hinLru.mp hl⟩) (fun hp _ => .inr (hinLru.mpr hp))
    (fun g _ => Iff.rfl) (fun hl => hl.elim)
  intro p g
  rw [hid, ← hold]
  exact h.table_iff frame p g

/-- `update_page` throws in the call. -/
def BufferPoolManager.WriteBackFails (bpm : BufferPoolManager) : Call × Io → Prop
  | (.fetch pid, io) =>
    bpm.pageTable pid = none ∧ ∃ b frame, bpm.findVictimPage = some (b, frame) ∧ b.updateFails io frame = true
  | (.new _, io) => ∃ b frame, bpm.findVictimPage = some (b, frame) ∧ b.updateFails io frame = true
  | (.delete pid, io) =>
    ∃ frame, bpm.pageTable pid = some frame ∧ (bpm.pages frame).pinCount = 0 ∧ bpm.updateFails io frame = true
  | _ => False

/-- `new_page` allocates a page that is in the pool already. -/
def BufferPoolManager.AllocatesResident (bpm : BufferPoolManager) : Call → Prop
  | .new fd => bpm.pageTable ⟨fd, bpm.fd2pageno fd⟩ ≠ none
  | _ => False

/-! ### What the operations do -/

theorem PoolOk.blank_evict (bpm : BufferPoolManager) (frame : ℕ) :
    ((bpm.evict frame).pages frame).id.pageNo = INVALID_PAGE_ID := by
  rw [evict_blank]
  rfl

/-- What `fetch_page` does. -/
theorem PoolOk.fetchPageIo_cases (h : PoolOk bpm noFrame) (io : Io) (pid : PageId) :
    (∃ frame, bpm.pageTable pid = some frame ∧ bpm.fetchPageIo io pid = ({ bpm with
      pages := Function.update bpm.pages frame { bpm.pages frame with pinCount := (bpm.pages frame).pinCount + 1 }
      lruList := bpm.lruList.erase frame }, .returned (some frame))) ∨
    bpm.pageTable pid = none ∧ (bpm.findVictimPage = none ∧ bpm.fetchPageIo io pid = (bpm, .returned none) ∨
      ∃ b frame, bpm.findVictimPage = some (b, frame) ∧
        (b.updateFails io frame = true ∧ bpm.fetchPageIo io pid = (b.tornPage io (b.pages frame).id, .throws) ∨
          b.updateFails io frame = false ∧
            (bpm.fetchPageIo io pid = ({ b.evict frame with freeList := (b.evict frame).freeList ++ [frame] }, .throws) ∨
              pid.pageNo ≠ INVALID_PAGE_ID ∧ ∃ data,
                bpm.fetchPageIo io pid = ((b.evict frame).install frame pid data 1, .returned (some frame))))) := by
  rcases htable : bpm.pageTable pid with _ | frame
  · refine .inr ⟨rfl, ?_⟩
    rcases hv : bpm.findVictimPage with _ | ⟨b, frame⟩
    · exact .inl ⟨rfl, by simp only [BufferPoolManager.fetchPageIo, htable, hv]⟩
    · refine .inr ⟨b, frame, rfl, ?_⟩
      obtain ⟨hb, -, htab, -⟩ := h.takeVictim hv
      rcases hfails : b.updateFails io frame with _ | _
      · refine .inr ⟨rfl, ?_⟩
        simp only [BufferPoolManager.fetchPageIo, htable, hv, hfails, Bool.false_eq_true, if_false]
        have hnone : (b.evict frame).pageTable pid = none := evict_pageTable_none b frame (htab ▸ htable)
        rcases hread : (if io.readFails pid then none else (b.updatePage frame pid).readPage pid) with _ | data
        · exact .inl (Prod.ext (BufferPoolManager.updatePage_thrown b frame hnone) rfl)
        · have hpos : 0 ≤ pid.pageNo := by
            unfold BufferPoolManager.readPage at hread
            by_contra hneg
            rw [if_pos (show pid.pageNo < 0 by omega)] at hread
            split at hread <;> cases hread
          refine .inr ⟨by unfold INVALID_PAGE_ID; omega, data, Prod.ext ?_ rfl⟩
          simp only
          rw [BufferPoolManager.updatePage_of_nonneg b frame hpos, pin_of_not_mem]
          · simp [BufferPoolManager.setPage, BufferPoolManager.install]
          · exact (hb.evict.loose frame rfl).2.2.2
      · refine .inl ⟨rfl, ?_⟩
        simp only [BufferPoolManager.fetchPageIo, htable, hv, hfails, if_true]
  · refine .inl ⟨frame, rfl, ?_⟩
    simp only [BufferPoolManager.fetchPageIo, htable]
    rw [pin_eq (bpm.setPage _ _) (h.table pid frame htable).2.2]
    rfl

/-- What `new_page` does, with the number that `allocate_page` gives. -/
theorem PoolOk.newPageIo_cases (h : PoolOk bpm noFrame) (io : Io) (fd : ℤ) :
    bpm.findVictimPage = none ∧ bpm.newPageIo io fd = (bpm, .returned none) ∨
      ∃ b frame, bpm.findVictimPage = some (b, frame) ∧
        (b.updateFails io frame = true ∧
            bpm.newPageIo io fd = ((b.allocatePage fd).1.tornPage io (b.pages frame).id, .throws) ∨
          b.updateFails io frame = false ∧ bpm.newPageIo io fd =
            (((b.allocatePage fd).1.evict frame).install frame ⟨fd, bpm.fd2pageno fd⟩ zeros 1,
              .returned (some (⟨fd, bpm.fd2pageno fd⟩, frame)))) := by
  rcases hv : bpm.findVictimPage with _ | ⟨b, frame⟩
  · exact .inl ⟨rfl, by simp only [BufferPoolManager.newPageIo, hv]⟩
  · refine .inr ⟨b, frame, rfl, ?_⟩
    obtain ⟨hb, -, -, -, -, hcounters⟩ := h.takeVictim hv
    have hnum : (b.allocatePage fd).2 = bpm.fd2pageno fd := by rw [← hcounters]; rfl
    have hfails : (b.allocatePage fd).1.updateFails io frame = b.updateFails io frame := rfl
    rcases hf : b.updateFails io frame with _ | _
    · refine .inr ⟨rfl, ?_⟩
      simp only [BufferPoolManager.newPageIo, hv, hfails, hf, Bool.false_eq_true, if_false, hnum]
      rw [BufferPoolManager.updatePage_of_nonneg _ frame (h.counters fd), pin_of_not_mem]
      · simp [BufferPoolManager.setPage, BufferPoolManager.install]
      · obtain ⟨-, -, -, hlru, -⟩ := evict_eq (b.allocatePage fd).1 frame
        change frame ∉ ((b.allocatePage fd).1.evict frame).lruList
        rw [hlru]
        exact (hb.loose frame rfl).2.2.2
    · refine .inl ⟨rfl, ?_⟩
      simp only [BufferPoolManager.newPageIo, hv, hfails, hf, if_true]
      rfl

/-- What `delete_page` does. -/
theorem PoolOk.deletePageIo_cases (h : PoolOk bpm noFrame) (io : Io) (pid : PageId) :
    (bpm.deletePageIo io pid).1 = bpm ∨
      ∃ frame, bpm.pageTable pid = some frame ∧ (bpm.pages frame).pinCount = 0 ∧
        (bpm.updateFails io frame = true ∧
            (bpm.deletePageIo io pid).1 = ({ bpm with lruList := bpm.lruList.erase frame }).tornPage io pid ∨
          bpm.updateFails io frame = false ∧ (bpm.deletePageIo io pid).1 =
            { ({ bpm with lruList := bpm.lruList.erase frame }).evict frame with freeList := bpm.freeList ++ [frame] }) := by
  rcases htable : bpm.pageTable pid with _ | frame
  · exact .inl (by simp only [BufferPoolManager.deletePageIo, htable])
  · by_cases hpin : (bpm.pages frame).pinCount = 0
    · refine .inr ⟨frame, rfl, hpin, ?_⟩
      obtain ⟨hid, -, hin⟩ := h.table pid frame htable
      have hfails : ({ bpm with lruList := bpm.lruList.erase frame } : BufferPoolManager).updateFails io frame =
        bpm.updateFails io frame := rfl
      rcases hf : bpm.updateFails io frame with _ | _
      · refine .inr ⟨rfl, ?_⟩
        simp only [BufferPoolManager.deletePageIo, htable, hpin, pin_eq bpm hin, hfails, hf, ne_eq, not_true_eq_false,
          Bool.false_eq_true, if_false, BufferPoolManager.updatePage_noPage]
        obtain ⟨-, -, hfree, -⟩ := evict_eq { bpm with lruList := bpm.lruList.erase frame } frame
        rw [hfree]
      · refine .inl ⟨rfl, ?_⟩
        simp only [BufferPoolManager.deletePageIo, htable, hpin, pin_eq bpm hin, hfails, hf, ne_eq, not_true_eq_false,
          if_false, if_true, hid]
    · exact .inl (by simp only [BufferPoolManager.deletePageIo, htable, ne_eq, hpin, not_false_eq_true, if_true])

theorem PoolOk.writePage (h : PoolOk bpm L) (pid : PageId) (data : PageData) : PoolOk (bpm.writePage pid data) L :=
  ⟨h.table, h.ids, h.pins, h.blank, h.free, h.lru, h.freeNodup, h.lruNodup, h.listed, h.loose, h.counters⟩

theorem PoolOk.allocatePage (h : PoolOk bpm L) (fd : ℤ) : PoolOk (bpm.allocatePage fd).1 L := by
  refine ⟨h.table, h.ids, h.pins, h.blank, h.free, h.lru, h.freeNodup, h.lruNodup, h.listed, h.loose, ?_⟩
  intro fd'
  have hold := h.counters fd
  by_cases hfd : fd' = fd
  · subst hfd
    simp only [BufferPoolManager.allocatePage, Function.update_self]
    omega
  · simp only [BufferPoolManager.allocatePage, Function.update_of_ne hfd]
    exact h.counters fd'

theorem PoolOk.fetchPageIo (h : PoolOk bpm noFrame) {io : Io} (hok : ¬ bpm.WriteBackFails (.fetch pid, io)) :
    PoolOk (bpm.fetchPageIo io pid).1 noFrame := by
  rcases h.fetchPageIo_cases io pid with ⟨frame, hf, heq⟩ | ⟨hnone, ⟨-, heq⟩ | ⟨b, frame, hv, hcase⟩⟩
  · rw [heq]
    have hpin := h.pins frame
    refine h.touch (d := bpm.disk) hf (h.table pid frame hf).1 (by simp only; omega)
      (fun g hg => List.mem_erase_of_ne hg) (h.lruNodup.erase frame) ?_
    simp only [h.lruNodup.mem_erase_iff, ne_eq, not_true_eq_false, false_and, false_iff]
    omega
  · rw [heq]
    exact h
  · obtain ⟨hb, -, htable, -⟩ := h.takeVictim hv
    rcases hcase with ⟨hfails, -⟩ | ⟨-, heq | ⟨hpid, data, heq⟩⟩
    · exact absurd ⟨hnone, b, frame, hv, hfails⟩ hok
    · rw [heq]
      exact hb.evict.release (blank_evict b frame)
    · rw [heq]
      exact hb.evict.install (blank_evict b frame) (evict_pageTable_none b frame (htable ▸ hnone)) hpid data

theorem PoolOk.newPageIo (h : PoolOk bpm noFrame) {fd : ℤ} {io : Io} (hok : ¬ bpm.WriteBackFails (.new fd, io))
    (habsent : ¬ bpm.AllocatesResident (.new fd)) : PoolOk (bpm.newPageIo io fd).1 noFrame := by
  rcases h.newPageIo_cases io fd with ⟨-, heq⟩ | ⟨b, frame, hv, ⟨hfails, -⟩ | ⟨-, heq⟩⟩
  · rw [heq]
    exact h
  · exact absurd ⟨b, frame, hv, hfails⟩ hok
  · obtain ⟨hb, -, htable, -⟩ := h.takeVictim hv
    have hnone : b.pageTable ⟨fd, bpm.fd2pageno fd⟩ = none := by
      rw [htable]
      exact not_not.mp habsent
    rw [heq]
    refine (hb.allocatePage fd).evict.install (blank_evict _ frame) (evict_pageTable_none _ frame hnone) ?_ zeros
    have := h.counters fd
    unfold INVALID_PAGE_ID
    simp only
    omega

/-- A frame that may be replaced is taken off the replacer's list. -/
theorem PoolOk.unlist (h : PoolOk bpm noFrame) (hf : bpm.pageTable pid = some frame)
    (hpin : (bpm.pages frame).pinCount = 0) : PoolOk { bpm with lruList := bpm.lruList.erase frame } (· = frame) := by
  obtain ⟨hid, hvalid, hin⟩ := h.table pid frame hf
  have hnot : frame ∉ bpm.lruList.erase frame := by simp [h.lruNodup.mem_erase_iff]
  refine h.relist hin (fun g _ => Iff.rfl) h.freeNodup (fun g hg => List.mem_erase_of_ne hg) (h.lruNodup.erase frame)
    (fun hfree => (h.free frame hfree).1) (fun hl => absurd hl hnot) (fun _ hl => absurd rfl hl)
    (fun g hg => iff_of_false hg id) (fun _ => ⟨hpin, fun hfree => hvalid (hid ▸ (h.free frame hfree).1), hnot⟩)

theorem PoolOk.deletePageIo (h : PoolOk bpm noFrame) {io : Io} (hok : ¬ bpm.WriteBackFails (.delete pid, io)) :
    PoolOk (bpm.deletePageIo io pid).1 noFrame := by
  rcases h.deletePageIo_cases io pid with heq | ⟨frame, hf, hpin, ⟨hfails, -⟩ | ⟨-, heq⟩⟩
  · rw [heq]
    exact h
  · exact absurd ⟨frame, hf, hpin, hfails⟩ hok
  · have hrel := (h.unlist hf hpin).evict.release (blank_evict _ frame)
    obtain ⟨-, -, hfree, -⟩ := evict_eq { bpm with lruList := bpm.lruList.erase frame } frame
    rw [hfree] at hrel
    rw [heq]
    exact hrel

/-- A frame whose page has a pin is not in the replacer, which therefore has room for it. -/
theorem PoolOk.lru_room (h : PoolOk bpm L) (hin : frame < bpm.poolSize) (hnot : frame ∉ bpm.lruList) :
    bpm.lruList.length < bpm.poolSize := by
  have hsub : frame :: bpm.lruList ⊆ List.range bpm.poolSize := by
    intro g hg
    rcases List.mem_cons.mp hg with rfl | hg
    · exact List.mem_range.mpr hin
    · exact List.mem_range.mpr (h.table _ _ (h.ids g (h.lru g hg).1)).2.2
  have hnd : (frame :: bpm.lruList).Nodup := List.nodup_cons.mpr ⟨hnot, h.lruNodup⟩
  have := (List.subperm_of_subset hnd hsub).length_le
  rw [List.length_cons, List.length_range] at this
  omega

theorem PoolOk.unpinPage (h : PoolOk bpm noFrame) (pid : PageId) (isDirty : Bool) :
    PoolOk (bpm.unpinPage pid isDirty).1 noFrame := by
  unfold BufferPoolManager.unpinPage
  split
  · exact h
  · rename_i frame hf
    obtain ⟨hid, -, hin⟩ := h.table pid frame hf
    simp only
    split
    · exact h
    · rename_i hpin
      have hnot : frame ∉ bpm.lruList := fun hl => hpin (h.lru frame hl).2.le
      simp only
      split
      · rename_i hzero
        have hroom := h.lru_room hin hnot
        unfold BufferPoolManager.unpin
        rw [if_neg (by simp only [BufferPoolManager.setPage]; omega),
          if_neg (by simp only [BufferPoolManager.setPage]; rw [not_or]; exact ⟨hnot, by omega⟩)]
        refine h.touch (d := bpm.disk) hf hid hzero.ge (fun g hg => by simp [BufferPoolManager.setPage, hg]) ?_ ?_
        · exact h.lruNodup.append (List.nodup_singleton _) (by simpa [BufferPoolManager.setPage] using hnot)
        · simp [hzero]
      · rename_i hzero
        exact h.touch (d := bpm.disk) hf hid (by simp only; omega) (fun g _ => Iff.rfl) h.lruNodup
          (iff_of_false hnot hzero)

/-- The bytes of a page, or its mark, change. -/
theorem PoolOk.modify (h : PoolOk bpm noFrame) (hf : bpm.pageTable pid = some frame) (data : PageData) (isDirty : Bool)
    (disk : PageId → Option PageData) : PoolOk { bpm with
      pages := Function.update bpm.pages frame { bpm.pages frame with data := data, isDirty := isDirty }
      disk := disk } noFrame := by
  obtain ⟨hid, hvalid, hin⟩ := h.table pid frame hf
  refine h.touch hf hid (h.pins frame) (fun g _ => Iff.rfl) h.lruNodup ⟨fun hl => (h.lru frame hl).2, ?_⟩
  intro hpin
  refine (h.listed frame hin hpin id).resolve_left fun hfree => hvalid ?_
  rw [← hid]
  exact (h.free frame hfree).1

theorem PoolOk.flushPageIo (h : PoolOk bpm noFrame) (io : Io) (pid : PageId) :
    PoolOk (bpm.flushPageIo io pid).1 noFrame := by
  unfold BufferPoolManager.flushPageIo
  split
  · exact h
  · split
    · exact h
    · rename_i frame hf
      simp only
      split
      · exact h.writePage _ _
      · exact h.modify hf _ _ _

/-- The frames that a loop over the page table has found hold pages of the file. -/
def Found (bpm : BufferPoolManager) (fd : ℤ) (frames : List ℕ) : Prop :=
  frames.Nodup ∧ ∀ frame ∈ frames, ∃ pid, bpm.pageTable pid = some frame ∧ pid.fd = fd

theorem Found.head {fd : ℤ} {frames : List ℕ} (hf : Found bpm fd (frame :: frames)) (h : PoolOk bpm L) :
    bpm.pageTable (bpm.pages frame).id = some frame ∧ (bpm.pages frame).id.pageNo ≠ INVALID_PAGE_ID ∧
      (⟨fd, (bpm.pages frame).id.pageNo⟩ : PageId) = (bpm.pages frame).id := by
  obtain ⟨pid, hpid, rfl⟩ := hf.2 frame List.mem_cons_self
  obtain ⟨rfl, hvalid, -⟩ := h.table pid frame hpid
  exact ⟨hpid, hvalid, rfl⟩

theorem PoolOk.flushFrame (h : PoolOk bpm noFrame) {fd : ℤ} {frames : List ℕ} (hf : Found bpm fd (frame :: frames)) :
    PoolOk (bpm.flushFrame fd frame) noFrame ∧ Found (bpm.flushFrame fd frame) fd frames := by
  obtain ⟨htable, hvalid, -⟩ := hf.head h
  unfold BufferPoolManager.flushFrame
  simp only
  rw [if_neg hvalid]
  exact ⟨h.modify htable _ _ _, hf.1.of_cons, fun g hg => hf.2 g (List.mem_cons_of_mem _ hg)⟩

theorem PoolOk.flushAllPagesIo (io : Io) (fd : ℤ) : ∀ {frames : List ℕ} {bpm : BufferPoolManager}, PoolOk bpm noFrame →
    Found bpm fd frames → PoolOk (BufferPoolManager.flushAllPagesIo io fd bpm frames).1 noFrame
  | [], _, h, _ => h
  | frame :: frames, bpm, h, hf => by
    unfold BufferPoolManager.flushAllPagesIo
    simp only
    split
    · exact h.writePage _ _
    · obtain ⟨h', hf'⟩ := h.flushFrame hf
      exact PoolOk.flushAllPagesIo io fd h' hf'

/-- A round of `delete_all_pages`, as a change of the frame. -/
theorem deleteFrame_form {fd : ℤ} (hvalid : (bpm.pages frame).id.pageNo ≠ INVALID_PAGE_ID) (hin : frame < bpm.poolSize) :
    bpm.deleteFrame fd frame = { bpm with
      pages := Function.update bpm.pages frame ⟨noPage, zeros, false, 0⟩
      pageTable := Function.update bpm.pageTable (bpm.pages frame).id none
      freeList := bpm.freeList ++ [frame]
      lruList := bpm.lruList.erase frame
      disk := (bpm.writePage ⟨fd, (bpm.pages frame).id.pageNo⟩ (bpm.pages frame).data).disk } := by
  unfold BufferPoolManager.deleteFrame
  simp only
  rw [if_neg hvalid, pin_eq (bpm.writePage _ _) hin]
  rfl

theorem PoolOk.deleteFrame (h : PoolOk bpm noFrame) {fd : ℤ} {frames : List ℕ} (hf : Found bpm fd (frame :: frames)) :
    PoolOk (bpm.deleteFrame fd frame) noFrame ∧ Found (bpm.deleteFrame fd frame) fd frames := by
  obtain ⟨htable, hvalid, -⟩ := hf.head h
  obtain ⟨-, -, hin⟩ := h.table _ _ htable
  have herase : ∀ p g, Function.update bpm.pageTable (bpm.pages frame).id none p = some g ↔
      g ≠ frame ∧ bpm.pageTable p = some g := by
    intro p g
    rw [← h.erase_iff frame p g, if_pos hvalid]
  have hnotFree : frame ∉ bpm.freeList := fun hfree => hvalid (h.free frame hfree).1
  have hnotLru : frame ∉ bpm.lruList.erase frame := by simp [h.lruNodup.mem_erase_iff]
  rw [deleteFrame_form hvalid hin]
  refine ⟨?_, hf.1.of_cons, ?_⟩
  · refine h.change hin (fun p g => (herase p g).trans ?_) le_rfl (fun _ => rfl) (fun g hg => by simp [hg]) ?_
      (fun g hg => List.mem_erase_of_ne hg) (h.lruNodup.erase frame) (fun _ => rfl) (fun hl => absurd hl hnotLru)
      (fun _ _ => .inl (by simp)) (fun g _ => Iff.rfl) (fun hl => hl.elim)
    · simp [noPage]
    · exact h.freeNodup.append (List.nodup_singleton _) (by simpa using hnotFree)
  · intro g hg
    obtain ⟨pid, hpid, hfd⟩ := hf.2 g (List.mem_cons_of_mem _ hg)
    refine ⟨pid, (herase pid g).mpr ⟨?_, hpid⟩, hfd⟩
    rintro rfl
    exact (List.nodup_cons.mp hf.1).1 hg

theorem PoolOk.deleteAllPagesIo (io : Io) (fd : ℤ) : ∀ {frames : List ℕ} {bpm : BufferPoolManager}, PoolOk bpm noFrame →
    Found bpm fd frames → PoolOk (BufferPoolManager.deleteAllPagesIo io fd bpm frames).1 noFrame
  | [], _, h, _ => h
  | frame :: frames, bpm, h, hf => by
    unfold BufferPoolManager.deleteAllPagesIo
    simp only
    split
    · exact h.writePage _ _
    · obtain ⟨h', hf'⟩ := h.deleteFrame hf
      exact PoolOk.deleteAllPagesIo io fd h' hf'

theorem found_of_lists {fd : ℤ} {frames : List ℕ} (hl : bpm.Lists fd frames) : Found bpm fd frames :=
  ⟨hl.1, fun frame hf => (hl.2 frame).mp hf⟩

/-- **One call** keeps the invariant, unless a write-back fails or a page is allocated that is in the pool. -/
theorem PoolOk.step (h : PoolOk bpm noFrame) {c : Call × Io} {bpm' : BufferPoolManager} (hs : IoStep bpm c bpm')
    (hok : ¬ bpm.WriteBackFails c) (habsent : ¬ bpm.AllocatesResident c.1) : PoolOk bpm' noFrame := by
  cases hs with
  | fetch => exact h.fetchPageIo hok
  | new _ _ => exact h.newPageIo hok habsent
  | unpin => exact h.unpinPage _ _
  | flush => exact h.flushPageIo _ _
  | flushAll hl => exact PoolOk.flushAllPagesIo _ _ h (found_of_lists hl)
  | delete => exact h.deletePageIo hok
  | deleteAll hl => exact PoolOk.deleteAllPagesIo _ _ h (found_of_lists hl)
  | @write frame data io hpin =>
    have hvalid : (bpm.pages frame).id.pageNo ≠ INVALID_PAGE_ID := fun hid => by
      have := h.blank frame hid
      omega
    exact h.modify (h.ids frame hvalid) _ _ _

theorem PoolOk.create (poolSize : ℕ) (disk : PageId → Option PageData) {fd2pageno : ℤ → ℤ}
    (hcounters : ∀ fd, 0 ≤ fd2pageno fd) : PoolOk (BufferPoolManager.create poolSize disk fd2pageno) noFrame where
  table _ _ hf := by cases hf
  ids _ hid := absurd rfl hid
  pins _ := le_rfl
  blank _ _ := rfl
  free frame hf := ⟨rfl, List.mem_range.mp hf⟩
  lru _ hl := by cases hl
  freeNodup := List.nodup_range
  lruNodup := List.nodup_nil
  listed frame hlt _ _ := .inl (List.mem_range.mpr hlt)
  loose _ hl := hl.elim
  counters := hcounters

/-! ### What stays in the pool -/

/-- The contents of a page are in the pool, or on disk. -/
def BufferPoolManager.Has (bpm : BufferPoolManager) (p : PageId) (data : PageData) : Prop :=
  (∃ f, bpm.pageTable p = some f ∧ (bpm.pages f).data = data) ∨ bpm.pageTable p = none ∧ bpm.diskData p = data

/-- No dirty page loses its contents. -/
def KeepsDirty (bpm bpm' : BufferPoolManager) : Prop :=
  ∀ p f, bpm.pageTable p = some f → (bpm.pages f).isDirty = true → bpm'.Has p (bpm.pages f).data

/-- No page with a pin leaves its frame. -/
def KeepsPinned (bpm bpm' : BufferPoolManager) : Prop :=
  ∀ p f, bpm.pageTable p = some f → 0 < (bpm.pages f).pinCount → bpm'.pageTable p = some f

/-- The page table after a frame's page has been taken out of it. -/
theorem PoolOk.evict_table (h : PoolOk bpm (· = frame)) (p : PageId) (g : ℕ) :
    (bpm.evict frame).pageTable p = some g ↔ g ≠ frame ∧ bpm.pageTable p = some g := by
  obtain ⟨-, htable, -⟩ := evict_eq bpm frame
  rw [htable]
  exact h.erase_iff frame p g

theorem PoolOk.keepsPinned_evict (h : PoolOk bpm (· = frame)) : KeepsPinned bpm (bpm.evict frame) := by
  intro p f hf hpin
  refine (h.evict_table p f).mpr ⟨?_, hf⟩
  rintro rfl
  have := (h.loose f rfl).2.1
  omega

theorem PoolOk.keepsDirty_evict (h : PoolOk bpm (· = frame)) : KeepsDirty bpm (bpm.evict frame) := by
  obtain ⟨hpages, -, -, -, -, -, hdisk⟩ := evict_eq bpm frame
  intro p f hf hdirty
  obtain ⟨hid, hvalid, -⟩ := h.table p f hf
  by_cases hne : f = frame
  · subst hne
    refine .inr ⟨?_, ?_⟩
    · rcases hnone : (bpm.evict f).pageTable p with _ | g
      · rfl
      · obtain ⟨hg, hold⟩ := (h.evict_table p g).mp hnone
        exact absurd (Option.some.inj (hold.symm.trans hf)) hg
    · rw [hdisk, if_pos ⟨hid.symm, hvalid, hdirty⟩]
  · refine .inl ⟨f, (h.evict_table p f).mpr ⟨hne, hf⟩, ?_⟩
    rw [hpages, Function.update_of_ne hne]

/-- A page that is put into an empty frame takes nothing away from another page. -/
theorem Has.install (h : PoolOk bpm (· = frame)) (hid : (bpm.pages frame).id.pageNo = INVALID_PAGE_ID) {p : PageId}
    {data : PageData} (hp : p ≠ pid) (hhas : bpm.Has p data) (data' : PageData) (n : ℤ) :
    (bpm.install frame pid data' n).Has p data := by
  have htable : (bpm.install frame pid data' n).pageTable p = bpm.pageTable p := Function.update_of_ne hp ..
  rcases hhas with ⟨f, hf, hdata⟩ | ⟨hnone, hdata⟩
  · refine .inl ⟨f, htable.trans hf, ?_⟩
    have hne : f ≠ frame := by
      rintro rfl
      obtain ⟨hpid, hvalid, -⟩ := h.table p f hf
      exact hvalid (hpid ▸ hid)
    rw [← hdata]
    exact congrArg Page.data (Function.update_of_ne hne ..)
  · exact .inr ⟨htable.trans hnone, hdata⟩

theorem ne_of_resident {p : PageId} {f : ℕ} (hf : bpm.pageTable p = some f) (hnone : bpm.pageTable pid = none) : p ≠ pid := by
  rintro rfl
  rw [hnone] at hf
  cases hf

theorem PoolOk.fetchPageIo_keeps (h : PoolOk bpm noFrame) {io : Io} (hok : ¬ bpm.WriteBackFails (.fetch pid, io)) :
    KeepsPinned bpm (bpm.fetchPageIo io pid).1 ∧ KeepsDirty bpm (bpm.fetchPageIo io pid).1 := by
  rcases h.fetchPageIo_cases io pid with ⟨frame, hf, heq⟩ | ⟨hnone, ⟨-, heq⟩ | ⟨b, frame, hv, hcase⟩⟩
  · rw [heq]
    refine ⟨fun p f hp _ => hp, fun p f hp _ => .inl ⟨f, hp, ?_⟩⟩
    by_cases hne : f = frame
    · subst hne
      simp
    · simp [hne]
  · rw [heq]
    exact ⟨fun p f hp _ => hp, fun p f hp _ => .inl ⟨f, hp, rfl⟩⟩
  · obtain ⟨hb, hpages, htable, -⟩ := h.takeVictim hv
    have hpinned : KeepsPinned bpm (b.evict frame) := fun p f hp hpin =>
      hb.keepsPinned_evict p f (htable ▸ hp) (hpages ▸ hpin)
    have hdirty : KeepsDirty bpm (b.evict frame) := fun p f hp hd =>
      hpages ▸ hb.keepsDirty_evict p f (htable ▸ hp) (hpages ▸ hd)
    rcases hcase with ⟨hfails, -⟩ | ⟨-, heq | ⟨hpid, data, heq⟩⟩
    · exact absurd ⟨hnone, b, frame, hv, hfails⟩ hok
    · rw [heq]
      exact ⟨hpinned, hdirty⟩
    · rw [heq]
      constructor
      · intro p f hp hpin
        exact (Function.update_of_ne (ne_of_resident hp hnone) ..).trans (hpinned p f hp hpin)
      · intro p f hp hd
        exact Has.install hb.evict (blank_evict b frame) (ne_of_resident hp hnone) (hdirty p f hp hd) data 1

theorem PoolOk.newPageIo_keeps (h : PoolOk bpm noFrame) {fd : ℤ} {io : Io} (hok : ¬ bpm.WriteBackFails (.new fd, io))
    (habsent : ¬ bpm.AllocatesResident (.new fd)) :
    KeepsPinned bpm (bpm.newPageIo io fd).1 ∧ KeepsDirty bpm (bpm.newPageIo io fd).1 := by
  rcases h.newPageIo_cases io fd with ⟨-, heq⟩ | ⟨b, frame, hv, ⟨hfails, -⟩ | ⟨-, heq⟩⟩
  · rw [heq]
    exact ⟨fun p f hp _ => hp, fun p f hp _ => .inl ⟨f, hp, rfl⟩⟩
  · exact absurd ⟨b, frame, hv, hfails⟩ hok
  · obtain ⟨hb, hpages, htable, -⟩ := h.takeVictim hv
    have hb' := hb.allocatePage fd
    have hnone : bpm.pageTable ⟨fd, bpm.fd2pageno fd⟩ = none := not_not.mp habsent
    have hpages' : (b.allocatePage fd).1.pages = bpm.pages := hpages
    have htable' : (b.allocatePage fd).1.pageTable = bpm.pageTable := htable
    rw [heq]
    constructor
    · intro p f hp hpin
      refine (Function.update_of_ne (ne_of_resident hp hnone) ..).trans ?_
      exact hb'.keepsPinned_evict p f (htable' ▸ hp) (hpages' ▸ hpin)
    · intro p f hp hd
      refine Has.install hb'.evict (blank_evict _ frame) (ne_of_resident hp hnone) ?_ zeros 1
      exact hpages' ▸ hb'.keepsDirty_evict p f (htable' ▸ hp) (hpages' ▸ hd)

theorem PoolOk.deletePageIo_keeps (h : PoolOk bpm noFrame) {io : Io} (hok : ¬ bpm.WriteBackFails (.delete pid, io)) :
    KeepsPinned bpm (bpm.deletePageIo io pid).1 ∧ KeepsDirty bpm (bpm.deletePageIo io pid).1 := by
  rcases h.deletePageIo_cases io pid with heq | ⟨frame, hf, hpin, ⟨hfails, -⟩ | ⟨-, heq⟩⟩
  · rw [heq]
    exact ⟨fun p f hp _ => hp, fun p f hp _ => .inl ⟨f, hp, rfl⟩⟩
  · exact absurd ⟨frame, hf, hpin, hfails⟩ hok
  · rw [heq]
    have hb := h.unlist hf hpin
    exact ⟨hb.keepsPinned_evict, hb.keepsDirty_evict⟩

/-- A call that changes neither the page table nor the bytes. -/
theorem keeps_of_same {bpm' : BufferPoolManager} (htable : bpm'.pageTable = bpm.pageTable)
    (hdata : ∀ f, (bpm'.pages f).data = (bpm.pages f).data) : KeepsPinned bpm bpm' ∧ KeepsDirty bpm bpm' :=
  ⟨fun _ _ hp _ => htable ▸ hp, fun _ f hp _ => .inl ⟨f, htable ▸ hp, hdata f⟩⟩

theorem data_update (page : Page) (hdata : page.data = (bpm.pages frame).data) (f : ℕ) :
    (Function.update bpm.pages frame page f).data = (bpm.pages f).data := by
  by_cases hne : f = frame
  · subst hne
    rw [Function.update_self, hdata]
  · rw [Function.update_of_ne hne]

theorem unpin_same (bpm : BufferPoolManager) (frame : ℕ) :
    (bpm.unpin frame).pageTable = bpm.pageTable ∧ (bpm.unpin frame).pages = bpm.pages := by
  unfold BufferPoolManager.unpin
  split
  · exact ⟨rfl, rfl⟩
  · split <;> exact ⟨rfl, rfl⟩

theorem unpinPage_keeps (bpm : BufferPoolManager) (pid : PageId) (isDirty : Bool) :
    KeepsPinned bpm (bpm.unpinPage pid isDirty).1 ∧ KeepsDirty bpm (bpm.unpinPage pid isDirty).1 := by
  rcases htable : bpm.pageTable pid with _ | frame
  · simp only [BufferPoolManager.unpinPage, htable]
    exact keeps_of_same rfl fun _ => rfl
  · simp only [BufferPoolManager.unpinPage, htable]
    split
    · exact keeps_of_same rfl fun _ => rfl
    · simp only
      split
      · obtain ⟨htab, hpages⟩ := unpin_same (bpm.setPage frame { bpm.pages frame with
          pinCount := (bpm.pages frame).pinCount - 1, isDirty := (bpm.pages frame).isDirty || isDirty }) frame
        refine keeps_of_same htab ?_
        rw [hpages]
        intro f
        exact data_update { bpm.pages frame with
          pinCount := (bpm.pages frame).pinCount - 1, isDirty := (bpm.pages frame).isDirty || isDirty } rfl f
      · exact keeps_of_same rfl (data_update _ rfl)

theorem flushPageIo_keeps (bpm : BufferPoolManager) (io : Io) (pid : PageId) :
    KeepsPinned bpm (bpm.flushPageIo io pid).1 ∧ KeepsDirty bpm (bpm.flushPageIo io pid).1 := by
  unfold BufferPoolManager.flushPageIo
  split
  · exact keeps_of_same rfl fun _ => rfl
  · rcases htable : bpm.pageTable pid with _ | frame
    · exact keeps_of_same rfl fun _ => rfl
    · simp only
      split
      · exact keeps_of_same rfl fun _ => rfl
      · exact keeps_of_same rfl (data_update _ rfl)

/-- The loop of `flush_all_pages` changes neither the page table nor the bytes. -/
theorem flushAllPagesIo_same (io : Io) (fd : ℤ) : ∀ (frames : List ℕ) (bpm : BufferPoolManager),
    (BufferPoolManager.flushAllPagesIo io fd bpm frames).1.pageTable = bpm.pageTable ∧
      ∀ f, ((BufferPoolManager.flushAllPagesIo io fd bpm frames).1.pages f).data = (bpm.pages f).data
  | [], _ => ⟨rfl, fun _ => rfl⟩
  | frame :: frames, bpm => by
    unfold BufferPoolManager.flushAllPagesIo
    simp only
    split
    · exact ⟨rfl, fun _ => rfl⟩
    · obtain ⟨htable, hdata⟩ := flushAllPagesIo_same io fd frames (bpm.flushFrame fd frame)
      have hstep : (bpm.flushFrame fd frame).pageTable = bpm.pageTable ∧
          ∀ f, ((bpm.flushFrame fd frame).pages f).data = (bpm.pages f).data := by
        unfold BufferPoolManager.flushFrame
        simp only
        split
        · exact ⟨rfl, fun _ => rfl⟩
        · exact ⟨rfl, data_update _ rfl⟩
      exact ⟨htable.trans hstep.1, fun f => (hdata f).trans (hstep.2 f)⟩

/-- A round of `delete_all_pages` writes the page that it takes out of the pool. -/
theorem PoolOk.has_deleteFrame (h : PoolOk bpm noFrame) {fd : ℤ} {frames : List ℕ} (hf : Found bpm fd (frame :: frames))
    {p : PageId} {data : PageData} (hhas : bpm.Has p data) : (bpm.deleteFrame fd frame).Has p data := by
  obtain ⟨htable, hvalid, hpid⟩ := hf.head h
  obtain ⟨-, -, hin⟩ := h.table _ _ htable
  rw [deleteFrame_form hvalid hin, hpid]
  by_cases hp : p = (bpm.pages frame).id
  · subst hp
    rcases hhas with ⟨f, hf', hdata⟩ | ⟨hnone, -⟩
    · obtain rfl := Option.some.inj (hf'.symm.trans htable)
      refine .inr ⟨Function.update_self .., ?_⟩
      exact (diskData_writePage bpm _ _ _).trans ((if_pos rfl).trans hdata)
    · rw [htable] at hnone
      cases hnone
  · rcases hhas with ⟨f, hf', hdata⟩ | ⟨hnone, hdata⟩
    · have hne : f ≠ frame := by
        rintro rfl
        exact hp (h.table p f hf').1.symm
      refine .inl ⟨f, (Function.update_of_ne hp ..).trans hf', ?_⟩
      rw [← hdata]
      exact congrArg Page.data (Function.update_of_ne hne ..)
    · refine .inr ⟨(Function.update_of_ne hp ..).trans hnone, ?_⟩
      exact (diskData_writePage bpm _ _ _).trans ((if_neg hp).trans hdata)

theorem PoolOk.has_deleteAllPagesIo (io : Io) (fd : ℤ) {p : PageId} {data : PageData} : ∀ {frames : List ℕ}
    {bpm : BufferPoolManager}, PoolOk bpm noFrame → Found bpm fd frames → bpm.Has p data →
    (BufferPoolManager.deleteAllPagesIo io fd bpm frames).1.Has p data
  | [], _, _, _, hhas => hhas
  | frame :: frames, bpm, h, hf, hhas => by
    obtain ⟨htable, hvalid, hpid⟩ := hf.head h
    unfold BufferPoolManager.deleteAllPagesIo
    simp only
    split
    · -- the page stays, whatever the disk holds of it now
      rw [hpid]
      rcases hhas with hres | ⟨hnone, hdata⟩
      · exact .inl hres
      · refine .inr ⟨hnone, (diskData_writePage bpm _ _ _).trans ((if_neg ?_).trans hdata)⟩
        exact fun hp => by simp [hp, htable] at hnone
    · obtain ⟨h', hf'⟩ := h.deleteFrame hf
      exact PoolOk.has_deleteAllPagesIo io fd h' hf' (h.has_deleteFrame hf hhas)

theorem PoolOk.keepsDirty_step (h : PoolOk bpm noFrame) {c : Call × Io} {bpm' : BufferPoolManager} (hs : IoStep bpm c bpm')
    (hok : ¬ bpm.WriteBackFails c) (habsent : ¬ bpm.AllocatesResident c.1) (hcall : ∀ f data, c.1 ≠ .write f data) :
    KeepsDirty bpm bpm' := by
  cases hs with
  | fetch => exact (h.fetchPageIo_keeps hok).2
  | new _ _ => exact (h.newPageIo_keeps hok habsent).2
  | unpin => exact (unpinPage_keeps ..).2
  | flush => exact (flushPageIo_keeps ..).2
  | flushAll hl =>
    obtain ⟨htable, hdata⟩ := flushAllPagesIo_same _ _ _ bpm
    exact (keeps_of_same htable hdata).2
  | delete => exact (h.deletePageIo_keeps hok).2
  | deleteAll hl =>
    exact fun p f hp _ => PoolOk.has_deleteAllPagesIo _ _ h (found_of_lists hl) (.inl ⟨f, hp, rfl⟩)
  | write _ => exact absurd rfl (hcall _ _)

theorem PoolOk.keepsPinned_step (h : PoolOk bpm noFrame) {c : Call × Io} {bpm' : BufferPoolManager} (hs : IoStep bpm c bpm')
    (hok : ¬ bpm.WriteBackFails c) (habsent : ¬ bpm.AllocatesResident c.1) (hcall : ∀ fd, c.1 ≠ .deleteAll fd) :
    KeepsPinned bpm bpm' := by
  cases hs with
  | fetch => exact (h.fetchPageIo_keeps hok).1
  | new _ _ => exact (h.newPageIo_keeps hok habsent).1
  | unpin => exact (unpinPage_keeps ..).1
  | flush => exact (flushPageIo_keeps ..).1
  | flushAll hl =>
    obtain ⟨htable, hdata⟩ := flushAllPagesIo_same _ _ _ bpm
    exact (keeps_of_same htable hdata).1
  | delete => exact (h.deletePageIo_keeps hok).1
  | deleteAll hl => exact absurd rfl (hcall _)
  | write _ => exact fun p f hp _ => hp

end Frames

/-! ### Runs -/

/-- Where a frame is. -/
inductive FrameClass where
  /-- In `free_list_`. -/
  | free
  /-- In the replacer. -/
  | evictable
  /-- In neither. -/
  | pinned
deriving DecidableEq

/-- The frame is in the class. -/
def BufferPoolManager.InClass (bpm : BufferPoolManager) (frame : ℕ) : FrameClass → Prop
  | .free => bpm.freeList.count frame = 1 ∧ (∀ pid, bpm.pageTable pid ≠ some frame) ∧ frame ∉ bpm.lruList
  | .evictable => (∃ pid, bpm.pageTable pid = some frame) ∧ (bpm.pages frame).pinCount = 0 ∧
      bpm.lruList.count frame = 1 ∧ frame ∉ bpm.freeList
  | .pinned => (∃ pid, bpm.pageTable pid = some frame) ∧ 0 < (bpm.pages frame).pinCount ∧ frame ∉ bpm.freeList ∧
      frame ∉ bpm.lruList

/-- `page_table_` and the ids of the frames say the same. -/
def BufferPoolManager.TableAgrees (bpm : BufferPoolManager) : Prop :=
  ∀ pid frame, bpm.pageTable pid = some frame ↔
    frame < bpm.poolSize ∧ (bpm.pages frame).id = pid ∧ pid.pageNo ≠ INVALID_PAGE_ID

/-- A frame without a pin can be had again. -/
def BufferPoolManager.NoFrameLost (bpm : BufferPoolManager) : Prop :=
  ∀ frame < bpm.poolSize, (bpm.pages frame).pinCount = 0 → frame ∈ bpm.freeList ∨ frame ∈ bpm.lruList

section Runs

variable {bpm : BufferPoolManager} {frame : ℕ} {pid : PageId}

theorem PoolOk.tableAgrees (h : PoolOk bpm noFrame) : bpm.TableAgrees := by
  refine fun pid frame => ⟨?_, ?_⟩
  · intro hf
    obtain ⟨hid, hvalid, hin⟩ := h.table pid frame hf
    exact ⟨hin, hid, hvalid⟩
  · rintro ⟨-, rfl, hvalid⟩
    exact h.ids frame hvalid

theorem PoolOk.noFrameLost (h : PoolOk bpm noFrame) : bpm.NoFrameLost := fun frame hlt hpin => h.listed frame hlt hpin id

/-- **Every frame is in one class.** -/
theorem PoolOk.frame_class (h : PoolOk bpm noFrame) (hlt : frame < bpm.poolSize) : ∃! c, bpm.InClass frame c := by
  by_cases hid : (bpm.pages frame).id.pageNo = INVALID_PAGE_ID
  · have hnotLru : frame ∉ bpm.lruList := fun hl => (h.lru frame hl).1 hid
    have hnotRes : ∀ pid, bpm.pageTable pid ≠ some frame := fun pid hf => by
      obtain ⟨rfl, hvalid, -⟩ := h.table pid frame hf
      exact hvalid hid
    have hfree := (h.listed frame hlt (h.blank frame hid) fun hl => hl).resolve_right hnotLru
    refine ⟨.free, ⟨List.count_eq_one_of_mem h.freeNodup hfree, hnotRes, hnotLru⟩, ?_⟩
    intro c hc
    cases c with
    | free => rfl
    | evictable | pinned =>
      obtain ⟨⟨pid, hf⟩, -⟩ := hc
      exact absurd hf (hnotRes pid)
  · have hres : ∃ pid, bpm.pageTable pid = some frame := ⟨_, h.ids frame hid⟩
    have hnotFree : frame ∉ bpm.freeList := fun hf => hid (h.free frame hf).1
    by_cases hpin : (bpm.pages frame).pinCount = 0
    · have hlru := (h.listed frame hlt hpin fun hl => hl).resolve_left hnotFree
      refine ⟨.evictable, ⟨hres, hpin, List.count_eq_one_of_mem h.lruNodup hlru, hnotFree⟩, ?_⟩
      intro c hc
      cases c with
      | free => exact absurd (h.ids frame hid) (hc.2.1 _)
      | evictable => rfl
      | pinned => exact absurd hlru hc.2.2.2
    · have hpos := h.pins frame
      have hnotLru : frame ∉ bpm.lruList := fun hl => hpin (h.lru frame hl).2
      refine ⟨.pinned, ⟨hres, by omega, hnotFree, hnotLru⟩, ?_⟩
      intro c hc
      cases c with
      | free => exact absurd (h.ids frame hid) (hc.2.1 _)
      | evictable => exact absurd hc.2.1 hpin
      | pinned => rfl

/-- **No frame can be had** exactly when every frame is pinned. -/
theorem PoolOk.findVictimPage_eq_none (h : PoolOk bpm noFrame) :
    bpm.findVictimPage = none ↔ ∀ frame < bpm.poolSize, bpm.InClass frame .pinned := by
  have hlists : bpm.findVictimPage = none ↔ bpm.freeList = [] ∧ bpm.lruList = [] := by
    unfold BufferPoolManager.findVictimPage
    rcases hfree : bpm.freeList with _ | ⟨f, rest⟩ <;> rcases hlru : bpm.lruList with _ | ⟨g, rest'⟩ <;> simp
  rw [hlists]
  constructor
  · rintro ⟨hfree, hlru⟩ frame hlt
    obtain ⟨c, hc, -⟩ := h.frame_class hlt
    cases c with
    | free => simp [BufferPoolManager.InClass, hfree] at hc
    | evictable => simp [BufferPoolManager.InClass, hlru] at hc
    | pinned => exact hc
  · intro hall
    constructor <;> refine List.eq_nil_iff_forall_not_mem.mpr fun f hf => ?_
    · exact (hall f (h.free f hf).2).2.2.1 hf
    · exact (hall f (h.table _ _ (h.ids f (h.lru f hf).1)).2.2).2.2.2 hf

theorem PoolOk.fetchPage_null (h : PoolOk bpm noFrame) (hnone : bpm.pageTable pid = none) :
    (bpm.fetchPage pid).2 = .null ↔ ∀ frame < bpm.poolSize, bpm.InClass frame .pinned := by
  rw [← h.findVictimPage_eq_none]
  rcases hv : bpm.findVictimPage with _ | ⟨b, f⟩
  · simp only [BufferPoolManager.fetchPage, hnone, hv]
  · simp only [BufferPoolManager.fetchPage, hnone, hv, reduceCtorEq, iff_false]
    rcases (b.updatePage f pid).readPage pid with _ | data <;> simp

theorem PoolOk.newPage_null (h : PoolOk bpm noFrame) (fd : ℤ) :
    (bpm.newPage fd).2 = none ↔ ∀ frame < bpm.poolSize, bpm.InClass frame .pinned := by
  rw [← h.findVictimPage_eq_none]
  rcases hv : bpm.findVictimPage with _ | ⟨b, f⟩
  · simp only [BufferPoolManager.newPage, hv]
  · simp [BufferPoolManager.newPage, hv]

/-- **Every run** keeps the invariant. -/
theorem PoolOk.run {poolSize : ℕ} {disk : PageId → Option PageData} {fd2pageno : ℤ → ℤ} (hcounters : ∀ fd, 0 ≤ fd2pageno fd)
    {tr : List (BufferPoolManager × Call × Io)} (htr : Trace IoStep (BufferPoolManager.create poolSize disk fd2pageno) tr bpm)
    (hok : ∀ x ∈ tr, ¬ x.1.WriteBackFails x.2 ∧ ¬ x.1.AllocatesResident x.2.1) : PoolOk bpm noFrame :=
  htr.inv (I := fun b => PoolOk b noFrame)
    (C := fun (b : BufferPoolManager) (c : Call × Io) => ¬ b.WriteBackFails c ∧ ¬ b.AllocatesResident c.1) hok
    (.create poolSize disk hcounters) fun h hc hs => h.step hs hc.1 hc.2

theorem not_writeBackFails_ok (bpm : BufferPoolManager) (c : Call) : ¬ bpm.WriteBackFails (c, .ok) := by
  cases c <;> simp [BufferPoolManager.WriteBackFails]

/-- **The frames of the pool**, on a disk that does not fail, when `allocate_page` never returns the number of a page
that is in the pool. -/
theorem pool_frames {poolSize : ℕ} {disk : PageId → Option PageData} {fd2pageno : ℤ → ℤ}
    (hcounters : ∀ fd, 0 ≤ fd2pageno fd) {tr : List (BufferPoolManager × Call × Io)}
    (htr : Trace IoStep (BufferPoolManager.create poolSize disk fd2pageno) tr bpm) (hio : ∀ x ∈ tr, x.2.2 = .ok)
    (habsent : ∀ x ∈ tr, ¬ x.1.AllocatesResident x.2.1) :
    (∀ p q f, bpm.pageTable p = some f → bpm.pageTable q = some f → p = q) ∧ bpm.TableAgrees ∧
      (∀ f < bpm.poolSize, ∃! c, bpm.InClass f c) ∧
      (∀ c bpm', IoStep bpm (c, .ok) bpm' → ¬ bpm.AllocatesResident c → (∀ fd, c ≠ .deleteAll fd) → KeepsPinned bpm bpm') ∧
      (∀ pid, bpm.pageTable pid = none →
        ((bpm.fetchPage pid).2 = .null ↔ ∀ f < bpm.poolSize, bpm.InClass f .pinned)) ∧
      ∀ fd, (bpm.newPage fd).2 = none ↔ ∀ f < bpm.poolSize, bpm.InClass f .pinned := by
  have h : PoolOk bpm noFrame := by
    refine PoolOk.run hcounters htr fun x hx => ⟨?_, habsent x hx⟩
    obtain ⟨b, c, io⟩ := x
    obtain rfl : io = .ok := hio _ hx
    exact not_writeBackFails_ok b c
  refine ⟨?_, h.tableAgrees, fun f hf => h.frame_class hf, ?_, fun pid hnone => h.fetchPage_null hnone, h.newPage_null⟩
  · intro p q f hp hq
    rw [← (h.table p f hp).1, (h.table q f hq).1]
  · intro c bpm' hs ha hc
    exact h.keepsPinned_step hs (not_writeBackFails_ok bpm c) ha hc

/-- An empty pool on an empty disk. -/
def blankPool (poolSize : ℕ) : BufferPoolManager := .create poolSize (fun _ => none) fun _ => 0

/-- A page is allocated in the only frame. -/
theorem pool_frames_allocated : ∃ tr, Trace IoStep (blankPool 1) tr ((blankPool 1).newPageIo .ok 3).1 ∧
    ((((blankPool 1).newPageIo .ok 3).1.fetchPage ⟨3, 1⟩).2 = .null ↔
      ∀ f < ((blankPool 1).newPageIo .ok 3).1.poolSize, ((blankPool 1).newPageIo .ok 3).1.InClass f .pinned) := by
  have htr : Trace IoStep (blankPool 1) [(blankPool 1, (.new 3, .ok))] ((blankPool 1).newPageIo .ok 3).1 :=
    Trace.nil.snoc (.new (by decide) (by decide))
  have hlabels : ∀ x ∈ [(blankPool 1, (Call.new 3, Io.ok))], x.2.2 = .ok ∧ ¬ x.1.AllocatesResident x.2.1 := by
    intro x hx
    obtain rfl := List.mem_singleton.mp hx
    exact ⟨rfl, fun h => h rfl⟩
  obtain ⟨-, -, -, -, hnull, -⟩ :=
    pool_frames (fun _ => le_rfl) htr (fun x hx => (hlabels x hx).1) fun x hx => (hlabels x hx).2
  exact ⟨_, htr, hnull ⟨3, 1⟩ rfl⟩

/-- A page is fetched before it is allocated: `new_page` puts it into a second frame. -/
def fetchedThenNew : BufferPoolManager := (((blankPool 2).fetchPageIo .ok ⟨3, 0⟩).1.newPageIo .ok 3).1

theorem fetchedThenNew_run : ∃ tr, Trace IoStep (blankPool 2) tr fetchedThenNew ∧ ∀ x ∈ tr, x.2.2 = .ok := by
  refine ⟨_, (Trace.nil.snoc .fetch).snoc (.new (by decide) (by decide)), ?_⟩
  intro x hx
  rcases List.mem_append.mp hx with hx | hx <;> obtain rfl := List.mem_singleton.mp hx <;> rfl

/-- A pool whose page table does not know one of its frames. -/
theorem pool_frames_fails : ¬ ∀ (poolSize : ℕ) (disk : PageId → Option PageData) (fd2pageno : ℤ → ℤ)
    (tr : List (BufferPoolManager × Call × Io)) (bpm : BufferPoolManager), (∀ fd, 0 ≤ fd2pageno fd) →
    Trace IoStep (BufferPoolManager.create poolSize disk fd2pageno) tr bpm → (∀ x ∈ tr, x.2.2 = .ok) →
    (∀ p q f, bpm.pageTable p = some f → bpm.pageTable q = some f → p = q) ∧ bpm.TableAgrees ∧
      (∀ f < bpm.poolSize, ∃! c, bpm.InClass f c) ∧
      (∀ c bpm', IoStep bpm (c, .ok) bpm' → (∀ fd, c ≠ .deleteAll fd) → KeepsPinned bpm bpm') ∧
      (∀ pid, bpm.pageTable pid = none →
        ((bpm.fetchPage pid).2 = .null ↔ ∀ f < bpm.poolSize, bpm.InClass f .pinned)) ∧
      ∀ fd, (bpm.newPage fd).2 = none ↔ ∀ f < bpm.poolSize, bpm.InClass f .pinned := by
  intro hall
  obtain ⟨tr, htr, hio⟩ := fetchedThenNew_run
  obtain ⟨-, hagrees, -⟩ := hall 2 _ _ tr _ (fun _ => le_rfl) htr hio
  have hzero := (hagrees ⟨3, 0⟩ 0).mpr ⟨by decide, by decide, by decide⟩
  have hone : fetchedThenNew.pageTable ⟨3, 0⟩ = some 1 := rfl
  rw [hone] at hzero
  cases hzero

/-- **A disk that fails** costs no frame and no contents, as long as no write-back of `update_page` fails and
`allocate_page` never returns the number of a page that is in the pool. -/
theorem failed_disk_keeps_frames {poolSize : ℕ} {disk : PageId → Option PageData} {fd2pageno : ℤ → ℤ}
    (hcounters : ∀ fd, 0 ≤ fd2pageno fd) {tr : List (BufferPoolManager × Call × Io)} {c : Call × Io}
    {bpm' : BufferPoolManager} (htr : Trace IoStep (BufferPoolManager.create poolSize disk fd2pageno) tr bpm)
    (hs : IoStep bpm c bpm')
    (hok : ∀ x ∈ tr ++ [(bpm, c)], ¬ x.1.WriteBackFails x.2 ∧ ¬ x.1.AllocatesResident x.2.1) :
    bpm'.NoFrameLost ∧ bpm'.TableAgrees ∧ ((∀ f data, c.1 ≠ .write f data) → KeepsDirty bpm bpm') := by
  have h : PoolOk bpm noFrame := PoolOk.run hcounters htr fun x hx => hok x (List.mem_append_left _ hx)
  have h' : PoolOk bpm' noFrame := PoolOk.run hcounters (htr.snoc hs) hok
  obtain ⟨hlast, habsent⟩ := hok _ (List.mem_append_right _ List.mem_cons_self)
  exact ⟨h'.noFrameLost, h'.tableAgrees, h.keepsDirty_step hs hlast habsent⟩

/-- Every call of the disk throws. -/
def allFails : Io := ⟨fun _ => true, fun _ => zeros, fun _ => true⟩

/-- A read that throws. -/
theorem failed_disk_keeps_frames_read : ∃ bpm', IoStep (blankPool 1) (.fetch ⟨3, 0⟩, allFails) bpm' ∧
    ((blankPool 1).fetchPageIo allFails ⟨3, 0⟩).2 = .throws ∧ bpm'.NoFrameLost := by
  have hs : IoStep (blankPool 1) (.fetch ⟨3, 0⟩, allFails) ((blankPool 1).fetchPageIo allFails ⟨3, 0⟩).1 := .fetch
  refine ⟨_, hs, rfl, (failed_disk_keeps_frames (fun _ => le_rfl) .nil hs ?_).1⟩
  intro x hx
  obtain rfl := List.mem_singleton.mp hx
  refine ⟨?_, id⟩
  rintro ⟨-, b, frame, hv, hfails⟩
  obtain ⟨rfl, rfl⟩ := Prod.mk.inj (Option.some.inj (show some _ = some (b, frame) from hv))
  cases hfails

/-- A dirty page in the only frame, not pinned. -/
def dirtyPool : BufferPoolManager := (((blankPool 1).newPageIo .ok 3).1.unpinPage ⟨3, 0⟩ true).1

theorem dirtyPool_run : ∃ tr, Trace IoStep (blankPool 1) tr dirtyPool := by
  have hnew : IoStep (blankPool 1) (.new 3, .ok) ((blankPool 1).newPageIo .ok 3).1 := .new (by decide) (by decide)
  have hunpin : IoStep ((blankPool 1).newPageIo .ok 3).1 (.unpin ⟨3, 0⟩ true, .ok) dirtyPool := .unpin
  exact ⟨_, (Trace.nil.snoc hnew).snoc hunpin⟩

/-- A write-back that throws: the only frame is lost. -/
theorem failed_disk_loses_frame : ¬ ∀ (poolSize : ℕ) (disk : PageId → Option PageData) (fd2pageno : ℤ → ℤ)
    (tr : List (BufferPoolManager × Call × Io)) (bpm bpm' : BufferPoolManager) (c : Call × Io), (∀ fd, 0 ≤ fd2pageno fd) →
    Trace IoStep (BufferPoolManager.create poolSize disk fd2pageno) tr bpm → IoStep bpm c bpm' →
    bpm'.NoFrameLost ∧ bpm'.TableAgrees ∧ ((∀ f data, c.1 ≠ .write f data) → KeepsDirty bpm bpm') := by
  intro hall
  obtain ⟨tr, htr⟩ := dirtyPool_run
  obtain ⟨hlost, -⟩ := hall 1 _ _ tr _ _ (.fetch ⟨3, 1⟩, allFails) (fun _ => le_rfl) htr .fetch
  rcases hlost 0 Nat.one_pos rfl with hfree | hlru
  · cases hfree
  · cases hlru

end Runs

end Rmdb.Storage
