import Rmdb.Storage.Frames

/-!
# The pages a call brings into the pool

What a call of the buffer pool can do to the page table, to the ids of the frames and to the
disk, whatever the disk answers (`Effect`): an entry of the page table is an old one or that of
the page the call was for, and only pages that were in a frame are written. Nothing of this
depends on the lists or the pin counts, so it also holds where a write-back has failed.
`delete_all_pages` leaves no page of its file in the pool (`deleteAllPagesIo_absent`).
-/

namespace Rmdb.Storage

open BufferPoolManager

/-- An entry of the page table is the id of its frame. -/
def TableOk (bpm : BufferPoolManager) : Prop :=
  ∀ pid frame, bpm.pageTable pid = some frame → (bpm.pages frame).id = pid ∧ pid.pageNo ≠ INVALID_PAGE_ID

/-- What a call can do that is for the pages of which `brought` holds. -/
structure Effect (bpm bpm' : BufferPoolManager) (brought : PageId → Prop) : Prop where
  /-- The entries of the page table. -/
  table : ∀ pid frame, bpm'.pageTable pid = some frame →
    (bpm'.pages frame).id = pid ∧ pid.pageNo ≠ INVALID_PAGE_ID ∧ (bpm.pageTable pid ≠ none ∨ brought pid)
  /-- The ids of the frames. -/
  ids : ∀ frame, (bpm'.pages frame).id = (bpm.pages frame).id ∨ (bpm'.pages frame).id.pageNo = INVALID_PAGE_ID ∨
    brought (bpm'.pages frame).id
  /-- The pages on disk. -/
  disk : ∀ pid, bpm'.disk pid ≠ none →
    bpm.disk pid ≠ none ∨ pid.pageNo ≠ INVALID_PAGE_ID ∧ ∃ frame, (bpm.pages frame).id = pid

namespace Effect

variable {bpm bpm₁ bpm' : BufferPoolManager} {brought : PageId → Prop} {frame : ℕ} {pid : PageId}

theorem tableOk (h : Effect bpm bpm' brought) : TableOk bpm' := fun pid frame hf =>
  ⟨(h.table pid frame hf).1, (h.table pid frame hf).2.1⟩

theorem mono {brought' : PageId → Prop} (h : Effect bpm bpm' brought) (hb : ∀ pid, brought pid → brought' pid) :
    Effect bpm bpm' brought' where
  table pid frame hf := by
    obtain ⟨hid, hvalid, hold⟩ := h.table pid frame hf
    exact ⟨hid, hvalid, hold.imp_right (hb pid)⟩
  ids frame := by
    rcases h.ids frame with hold | hnone | hnew
    · exact .inl hold
    · exact .inr (.inl hnone)
    · exact .inr (.inr (hb _ hnew))
  disk := h.disk

/-- One call after another. -/
theorem trans (h : Effect bpm bpm₁ fun _ => False) (h' : Effect bpm₁ bpm' brought) : Effect bpm bpm' brought where
  table pid frame hf := by
    obtain ⟨hid, hvalid, hold⟩ := h'.table pid frame hf
    refine ⟨hid, hvalid, hold.imp_left ?_⟩
    intro hne
    obtain ⟨g, hg⟩ := Option.ne_none_iff_exists'.mp hne
    exact (h.table pid g hg).2.2.resolve_right id
  ids frame := by
    rcases h'.ids frame with hold | hnone | hnew
    · rcases h.ids frame with hold' | hnone' | hnew'
      · exact .inl (hold.trans hold')
      · exact .inr (.inl (hold ▸ hnone'))
      · exact hnew'.elim
    · exact .inr (.inl hnone)
    · exact .inr (.inr hnew)
  disk pid hpid := by
    rcases h'.disk pid hpid with hold | ⟨hvalid, f, hf⟩
    · exact h.disk pid hold
    · rcases h.ids f with hold | hnone | hnew
      · exact .inr ⟨hvalid, f, hold ▸ hf⟩
      · exact absurd (hf ▸ hnone) hvalid
      · exact hnew.elim

/-- Nothing of this changes. -/
theorem same (h : TableOk bpm) (htable : bpm'.pageTable = bpm.pageTable)
    (hids : ∀ f, (bpm'.pages f).id = (bpm.pages f).id) (hdisk : bpm'.disk = bpm.disk) : Effect bpm bpm' fun _ => False where
  table pid frame hf := by
    rw [htable] at hf
    obtain ⟨hid, hvalid⟩ := h pid frame hf
    exact ⟨(hids frame).trans hid, hvalid, .inl (by rw [hf]; exact Option.some_ne_none frame)⟩
  ids frame := .inl (hids frame)
  disk pid hpid := .inl (hdisk ▸ hpid)

/-- A frame's page is written. -/
theorem write (h : TableOk bpm) (hid : (bpm.pages frame).id = pid) (hvalid : pid.pageNo ≠ INVALID_PAGE_ID) (data : PageData) :
    Effect bpm (bpm.writePage pid data) fun _ => False where
  table p f hf := ⟨(h p f hf).1, (h p f hf).2, .inl (by rw [show bpm.pageTable p = some f from hf]; exact Option.some_ne_none f)⟩
  ids f := .inl rfl
  disk p hp := by
    by_cases heq : p = pid
    · exact .inr ⟨heq ▸ hvalid, frame, heq ▸ hid⟩
    · refine .inl ?_
      simpa only [writePage, Function.update_of_ne heq] using hp

/-- A frame changes, but not its id. -/
theorem touch (h : TableOk bpm) {page : Page} (htable : bpm'.pageTable = bpm.pageTable)
    (hpages : bpm'.pages = Function.update bpm.pages frame page) (hid : page.id = (bpm.pages frame).id)
    (hdisk : bpm'.disk = bpm.disk) : Effect bpm bpm' fun _ => False := by
  refine .same h htable ?_ hdisk
  intro f
  rw [hpages]
  by_cases hf : f = frame
  · rw [hf, Function.update_self, hid]
  · rw [Function.update_of_ne hf]

theorem pin (h : TableOk bpm) (frame : ℕ) : Effect bpm (bpm.pin frame) fun _ => False := by
  unfold BufferPoolManager.pin
  split
  · exact .same h rfl (fun _ => rfl) rfl
  · exact .same h rfl (fun _ => rfl) rfl

theorem unpin (h : TableOk bpm) (frame : ℕ) : Effect bpm (bpm.unpin frame) fun _ => False := by
  unfold BufferPoolManager.unpin
  split
  · exact .same h rfl (fun _ => rfl) rfl
  · split
    · exact .same h rfl (fun _ => rfl) rfl
    · exact .same h rfl (fun _ => rfl) rfl

theorem findVictimPage (h : TableOk bpm) (hv : bpm.findVictimPage = some (bpm', frame)) : Effect bpm bpm' fun _ => False := by
  unfold BufferPoolManager.findVictimPage at hv
  split at hv
  · obtain ⟨rfl, -⟩ := Prod.mk.inj (Option.some.inj hv)
    exact .same h rfl (fun _ => rfl) rfl
  · split at hv
    · obtain ⟨rfl, -⟩ := Prod.mk.inj (Option.some.inj hv)
      exact .same h rfl (fun _ => rfl) rfl
    · cases hv

/-- A frame gets another page, and its old page leaves the page table. -/
theorem replace (h : TableOk bpm) (page : Page) (hpages : bpm'.pages = Function.update bpm.pages frame page)
    (hdisk : bpm'.disk = bpm.disk)
    (htable : ∀ p f, bpm'.pageTable p = some f → p = page.id ∧ f = frame ∧ p.pageNo ≠ INVALID_PAGE_ID ∨
      p ≠ (bpm.pages frame).id ∧ bpm.pageTable p = some f) : Effect bpm bpm' (· = page.id) where
  table p f hf := by
    rw [hpages]
    rcases htable p f hf with ⟨rfl, rfl, hvalid⟩ | ⟨hp, hold⟩
    · exact ⟨congrArg Page.id (Function.update_self ..), hvalid, .inr rfl⟩
    · have hne : f ≠ frame := fun heq => hp (heq ▸ (h p f hold).1).symm
      refine ⟨?_, (h p f hold).2, .inl (by rw [hold]; exact Option.some_ne_none f)⟩
      rw [Function.update_of_ne hne, (h p f hold).1]
  ids f := by
    rw [hpages]
    by_cases hf : f = frame
    · exact .inr (.inr (congrArg Page.id (hf ▸ Function.update_self ..)))
    · exact .inl (congrArg Page.id (Function.update_of_ne hf ..))
  disk p hp := .inl (hdisk ▸ hp)

/-- A frame loses its page. -/
theorem drop (h : TableOk bpm) (frame : ℕ) (page : Page) (hpages : bpm'.pages = Function.update bpm.pages frame page)
    (hdisk : bpm'.disk = bpm.disk) (hpage : page.id.pageNo = INVALID_PAGE_ID)
    (htable : bpm'.pageTable = Function.update bpm.pageTable (bpm.pages frame).id none) : Effect bpm bpm' fun _ => False := by
  have hr : Effect bpm bpm' (· = page.id) := by
    refine .replace h page hpages hdisk ?_
    intro p f hf
    rw [htable] at hf
    by_cases hp : p = (bpm.pages frame).id
    · rw [hp, Function.update_self] at hf
      cases hf
    · exact .inr ⟨hp, by rwa [Function.update_of_ne hp] at hf⟩
  refine ⟨?_, ?_, hr.disk⟩
  · intro p f hf
    obtain ⟨hid, hvalid, hold⟩ := hr.table p f hf
    refine ⟨hid, hvalid, hold.imp_right ?_⟩
    rintro rfl
    exact hvalid hpage
  · intro f
    rcases hr.ids f with hold | hnone | hnew
    · exact .inl hold
    · exact .inr (.inl hnone)
    · exact .inr (.inl (hnew ▸ hpage))

/-- The page table without the page of a frame. -/
theorem erased {table : PageId → Option ℕ} (h : TableOk bpm)
    (htable : table = if (bpm.pages frame).id.pageNo ≠ INVALID_PAGE_ID then
      Function.update bpm.pageTable (bpm.pages frame).id none else bpm.pageTable) {p : PageId} {f : ℕ} (hf : table p = some f) :
    p ≠ (bpm.pages frame).id ∧ bpm.pageTable p = some f := by
  subst htable
  split at hf
  · by_cases hp : p = (bpm.pages frame).id
    · rw [hp, Function.update_self] at hf
      cases hf
    · exact ⟨hp, by rwa [Function.update_of_ne hp] at hf⟩
  next hinvalid =>
    refine ⟨?_, hf⟩
    rintro rfl
    exact hinvalid (h _ f hf).2

/-- `update_page`: the write-back, and then the change of the frame. -/
theorem updatePage_form (h : TableOk bpm) (frame : ℕ) (newPageId : PageId) :
    ∃ b table, Effect bpm b (fun _ => False) ∧ b.pages = bpm.pages ∧ b.pageTable = bpm.pageTable ∧
      (table = if (b.pages frame).id.pageNo ≠ INVALID_PAGE_ID then
        Function.update b.pageTable (b.pages frame).id none else b.pageTable) ∧
      bpm.updatePage frame newPageId = { b with
        pages := Function.update b.pages frame ⟨newPageId, zeros, false, 0⟩
        pageTable :=
          if newPageId.pageNo ≠ INVALID_PAGE_ID then Function.update table newPageId (some frame) else table } := by
  unfold BufferPoolManager.updatePage
  by_cases hid : (bpm.pages frame).id.pageNo = INVALID_PAGE_ID
  · refine ⟨bpm, _, .same h rfl (fun _ => rfl) rfl, rfl, rfl, rfl, ?_⟩
    simp only [hid, ne_eq, not_true_eq_false, if_false, BufferPoolManager.setPage]
    split <;> rfl
  · by_cases hdirty : (bpm.pages frame).isDirty = true
    · refine ⟨_, _, .write h rfl hid (bpm.pages frame).data, rfl, rfl, rfl, ?_⟩
      simp only [writePage, hid, ne_eq, not_false_eq_true, hdirty, if_true, BufferPoolManager.setPage]
      split <;> rfl
    · refine ⟨bpm, _, .same h rfl (fun _ => rfl) rfl, rfl, rfl, rfl, ?_⟩
      simp only [hid, ne_eq, not_false_eq_true, hdirty, if_true, BufferPoolManager.setPage]
      split <;> rfl

/-- `update_page`. -/
theorem updatePage (h : TableOk bpm) (frame : ℕ) (newPageId : PageId) :
    Effect bpm (bpm.updatePage frame newPageId) (· = newPageId) := by
  obtain ⟨b, table, heffect, -, -, htable, heq⟩ := updatePage_form h frame newPageId
  rw [heq]
  refine heffect.trans (.replace heffect.tableOk ⟨newPageId, zeros, false, 0⟩ rfl rfl ?_)
  intro p f hf
  by_cases hvalid : newPageId.pageNo = INVALID_PAGE_ID
  · simp only [hvalid, ne_eq, not_true_eq_false, if_false] at hf
    exact .inr (erased heffect.tableOk htable hf)
  · simp only [hvalid, ne_eq, not_false_eq_true, if_true] at hf
    by_cases hp : p = newPageId
    · rw [hp, Function.update_self] at hf
      exact .inl ⟨hp, (Option.some.inj hf).symm, hp ▸ hvalid⟩
    · rw [Function.update_of_ne hp] at hf
      exact .inr (erased heffect.tableOk htable hf)

/-- A `write_page` that throws. -/
theorem tornPage (h : TableOk bpm) (io : Io) (hid : (bpm.pages frame).id = pid) (hvalid : pid.pageNo ≠ INVALID_PAGE_ID) :
    Effect bpm (bpm.tornPage io pid) fun _ => False := .write h hid hvalid _

theorem valid_of_updateFails {io : Io} (h : bpm.updateFails io frame = true) : (bpm.pages frame).id.pageNo ≠ INVALID_PAGE_ID := by
  simp only [updateFails, Bool.and_eq_true, decide_eq_true_eq] at h
  exact h.1.1

/-- A call that brings a page, and then changes of what is not on disk. -/
theorem andThen (h : Effect bpm bpm₁ brought) (h' : Effect bpm₁ bpm' fun _ => False) (hdisk : bpm'.disk = bpm₁.disk) :
    Effect bpm bpm' brought where
  table p f hf := by
    obtain ⟨hid, hvalid, hold⟩ := h'.table p f hf
    refine ⟨hid, hvalid, ?_⟩
    obtain ⟨g, hg⟩ := Option.ne_none_iff_exists'.mp (hold.resolve_right id)
    exact (h.table p g hg).2.2
  ids f := by
    rcases h'.ids f with hold | hnone | hnew
    · rw [hold]
      exact h.ids f
    · exact .inr (.inl hnone)
    · exact hnew.elim
  disk p hp := h.disk p (hdisk ▸ hp)

end Effect

/-- The replacer changes its list only. -/
theorem pin_same (bpm : BufferPoolManager) (frame : ℕ) : (bpm.pin frame).pageTable = bpm.pageTable ∧
    (bpm.pin frame).pages = bpm.pages ∧ (bpm.pin frame).disk = bpm.disk ∧ (bpm.pin frame).fd2pageno = bpm.fd2pageno := by
  unfold BufferPoolManager.pin
  split <;> exact ⟨rfl, rfl, rfl, rfl⟩

/-! ### The calls -/

section Calls

variable {bpm bpm' : BufferPoolManager} {io : Io} {frame : ℕ} {pid : PageId}

/-- The page of a frame is pinned. -/
theorem Effect.hold (h : TableOk bpm) {page : Page} (hid : page.id = (bpm.pages frame).id) :
    Effect bpm ((bpm.setPage frame page).pin frame) fun _ => False := by
  obtain ⟨htable, hpages, hdisk, -⟩ := pin_same (bpm.setPage frame page) frame
  exact .touch h htable hpages hid hdisk

theorem updatePage_id (bpm : BufferPoolManager) (frame : ℕ) (pid : PageId) : ((bpm.updatePage frame pid).pages frame).id = pid := by
  unfold BufferPoolManager.updatePage
  simp only [BufferPoolManager.setPage]
  split <;> simp only [Function.update_self]

/-- A call that brings nothing. -/
theorem Effect.none (h : Effect bpm bpm' fun _ => False) (brought : PageId → Prop) : Effect bpm bpm' brought :=
  h.mono fun _ hf => hf.elim

theorem Effect.refl (h : TableOk bpm) : Effect bpm bpm fun _ => False := .same h rfl (fun _ => rfl) rfl

theorem effect_fetchPageIo (h : TableOk bpm) (io : Io) (pid : PageId) :
    Effect bpm (bpm.fetchPageIo io pid).1 (· = pid) := by
  rcases htable : bpm.pageTable pid with _ | frame
  · rcases hv : bpm.findVictimPage with _ | ⟨b, frame⟩
    · simp only [fetchPageIo, htable, hv]
      exact (Effect.refl h).none _
    · have hb := Effect.findVictimPage h hv
      simp only [fetchPageIo, htable, hv]
      split
      next hfails =>
        exact (hb.trans (.tornPage hb.tableOk io rfl (Effect.valid_of_updateFails hfails))).none _
      next =>
        have hu := hb.trans (.updatePage hb.tableOk frame pid)
        split
        · -- the page cannot be read: its entry and its id are taken back
          refine hu.andThen (.drop hu.tableOk frame _ rfl rfl rfl ?_) rfl
          rw [updatePage_id]
          rfl
        · exact hu.andThen (.hold hu.tableOk rfl) (pin_same _ _).2.2.1
  · simp only [fetchPageIo, htable]
    refine Effect.none ?_ _
    exact .hold h rfl

theorem findVictimPage_counters (hv : bpm.findVictimPage = some (bpm', frame)) : bpm'.fd2pageno = bpm.fd2pageno := by
  unfold BufferPoolManager.findVictimPage at hv
  split at hv
  · obtain ⟨rfl, -⟩ := Prod.mk.inj (Option.some.inj hv)
    rfl
  · split at hv
    · obtain ⟨rfl, -⟩ := Prod.mk.inj (Option.some.inj hv)
      rfl
    · cases hv

theorem effect_newPageIo (h : TableOk bpm) (io : Io) (fd : ℤ) :
    Effect bpm (bpm.newPageIo io fd).1 (· = ⟨fd, bpm.fd2pageno fd⟩) := by
  rcases hv : bpm.findVictimPage with _ | ⟨b, frame⟩
  · simp only [newPageIo, hv]
    exact (Effect.refl h).none _
  · have hb := Effect.findVictimPage h hv
    have hcount := findVictimPage_counters hv
    have ha : Effect bpm (b.allocatePage fd).1 fun _ => False := hb.trans (.same hb.tableOk rfl (fun _ => rfl) rfl)
    simp only [newPageIo, hv]
    split
    next hfails => exact (ha.trans (.tornPage ha.tableOk io rfl (Effect.valid_of_updateFails hfails))).none _
    next =>
      have hu := ha.trans (.updatePage ha.tableOk frame ⟨fd, (b.allocatePage fd).2⟩)
      rw [show (b.allocatePage fd).2 = bpm.fd2pageno fd from congrFun hcount fd] at hu ⊢
      exact hu.andThen (.hold hu.tableOk rfl) (pin_same _ _).2.2.1

theorem effect_unpinPage (h : TableOk bpm) (pid : PageId) (isDirty : Bool) :
    Effect bpm (bpm.unpinPage pid isDirty).1 fun _ => False := by
  rcases htable : bpm.pageTable pid with _ | frame
  · simp only [unpinPage, htable]
    exact .refl h
  · simp only [unpinPage, htable]
    split
    · exact .refl h
    · have hs : Effect bpm (bpm.setPage frame { bpm.pages frame with
          pinCount := (bpm.pages frame).pinCount - 1, isDirty := (bpm.pages frame).isDirty || isDirty }) fun _ => False :=
        .touch h rfl rfl rfl rfl
      simp only
      split
      · exact hs.trans (.unpin hs.tableOk frame)
      · exact hs

/-- A frame's page is written, and is not dirty any more. -/
theorem Effect.flush (h : TableOk bpm) (hid : (bpm.pages frame).id = pid) (hvalid : pid.pageNo ≠ INVALID_PAGE_ID)
    (data : PageData) (hpages : bpm'.pages = Function.update bpm.pages frame { bpm.pages frame with isDirty := false })
    (htable : bpm'.pageTable = bpm.pageTable) (hdisk : bpm'.disk = (bpm.writePage pid data).disk) :
    Effect bpm bpm' fun _ => False :=
  (Effect.write h hid hvalid data).trans (.touch (Effect.write h hid hvalid data).tableOk htable hpages rfl hdisk)

theorem effect_flushPageIo (h : TableOk bpm) (io : Io) (pid : PageId) :
    Effect bpm (bpm.flushPageIo io pid).1 fun _ => False := by
  rcases htable : bpm.pageTable pid with _ | frame
  · simp only [flushPageIo, htable]
    split <;> exact .refl h
  · obtain ⟨hid, hvalid⟩ := h pid frame htable
    simp only [flushPageIo, htable, hvalid, if_false]
    split
    · exact .tornPage h io hid hvalid
    · exact .flush h hid hvalid _ rfl rfl rfl

theorem effect_deletePageIo (h : TableOk bpm) (io : Io) (pid : PageId) :
    Effect bpm (bpm.deletePageIo io pid).1 fun _ => False := by
  rcases htable : bpm.pageTable pid with _ | frame
  · simp only [deletePageIo, htable]
    exact .refl h
  · simp only [deletePageIo, htable]
    split
    · exact .refl h
    · have hp := Effect.pin h frame
      split
      next hfails => exact hp.trans (.tornPage hp.tableOk io rfl (Effect.valid_of_updateFails hfails))
      next =>
        have hu := hp.trans (.updatePage hp.tableOk frame noPage)
        have hl : Effect bpm { (bpm.pin frame).updatePage frame noPage with
            freeList := ((bpm.pin frame).updatePage frame noPage).freeList ++ [frame] } (· = noPage) :=
          hu.andThen (.same hu.tableOk rfl (fun _ => rfl) rfl) rfl
        refine ⟨?_, ?_, hl.disk⟩
        · intro p f hf
          obtain ⟨hid, hvalid, hold⟩ := hl.table p f hf
          refine ⟨hid, hvalid, hold.imp_right ?_⟩
          rintro rfl
          exact hvalid rfl
        · intro f
          rcases hl.ids f with hold | hnone | hnew
          · exact .inl hold
          · exact .inr (.inl hnone)
          · exact .inr (.inl (by rw [hnew]; rfl))

/-- Frames whose pages are of the file, as the loops over a file find them. -/
def OfFile (bpm : BufferPoolManager) (fd : ℤ) (frameIds : List ℕ) : Prop :=
  ∀ frame ∈ frameIds, (bpm.pages frame).id.fd = fd

theorem OfFile.of_lists (h : TableOk bpm) {fd : ℤ} {frameIds : List ℕ} (hl : bpm.Lists fd frameIds) : OfFile bpm fd frameIds := by
  intro frame hframe
  obtain ⟨pid, htable, rfl⟩ := (hl.2 frame).mp hframe
  rw [(h pid frame htable).1]

/-- The page that a loop over a file writes is that of the frame. -/
theorem OfFile.page_id {fd : ℤ} {frames : List ℕ} (h : OfFile bpm fd (frame :: frames)) :
    (⟨fd, (bpm.pages frame).id.pageNo⟩ : PageId) = (bpm.pages frame).id := by
  have hfd := h frame List.mem_cons_self
  rw [← hfd]

theorem effect_flushFrame (h : TableOk bpm) {fd : ℤ} {frames : List ℕ} (hof : OfFile bpm fd (frame :: frames)) :
    Effect bpm (flushFrame fd bpm frame) fun _ => False := by
  unfold flushFrame
  simp only
  split
  · exact .refl h
  next hvalid => exact .flush h hof.page_id.symm hvalid _ rfl rfl rfl

theorem effect_flushAllPagesIo (io : Io) (fd : ℤ) : ∀ {frames : List ℕ} {bpm : BufferPoolManager}, TableOk bpm →
    OfFile bpm fd frames → Effect bpm (flushAllPagesIo io fd bpm frames).1 fun _ => False
  | [], bpm, h, _ => .refl h
  | frame :: frames, bpm, h, hof => by
    have hf := effect_flushFrame h hof
    rw [flushAllPagesIo]
    split
    next hfails => exact .tornPage h io hof.page_id.symm hfails.1
    next =>
      refine hf.trans (effect_flushAllPagesIo io fd hf.tableOk ?_)
      intro g hg
      have hids : ((flushFrame fd bpm frame).pages g).id = (bpm.pages g).id := by
        unfold flushFrame
        simp only
        split
        · rfl
        · by_cases hne : g = frame
          · subst hne
            simp only [BufferPoolManager.setPage, writePage, Function.update_self]
          · simp only [BufferPoolManager.setPage, writePage, Function.update_of_ne hne]
      rw [hids]
      exact hof g (List.mem_cons_of_mem frame hg)

/-- A round of `delete_all_pages` takes the frame's page out of the page table. -/
theorem effect_deleteFrame (h : TableOk bpm) {fd : ℤ} {frames : List ℕ} (hof : OfFile bpm fd (frame :: frames)) :
    Effect bpm (deleteFrame fd bpm frame) fun _ => False := by
  unfold deleteFrame
  simp only
  split
  · exact .refl h
  next hvalid =>
    have hw := Effect.write h hof.page_id.symm hvalid (bpm.pages frame).data
    obtain ⟨htable, hpages, hdisk, -⟩ := pin_same (bpm.writePage ⟨fd, (bpm.pages frame).id.pageNo⟩ (bpm.pages frame).data) frame
    refine hw.trans (.drop hw.tableOk frame ⟨noPage, zeros, false, 0⟩ ?_ ?_ rfl ?_)
    · simp only [BufferPoolManager.setPage, hpages]
    · simp only [BufferPoolManager.setPage, hdisk]
    · simp only [BufferPoolManager.setPage, htable]
      rfl

/-- The frames of the file that are left after a round. -/
theorem lists_deleteFrame (h : TableOk bpm) {fd : ℤ} {frames : List ℕ} (hl : bpm.Lists fd (frame :: frames)) :
    (deleteFrame fd bpm frame).Lists fd frames := by
  obtain ⟨hnodup, hmem⟩ := hl
  obtain ⟨hnot, hnodup'⟩ := List.nodup_cons.mp hnodup
  obtain ⟨pid, hentry, hfd⟩ := (hmem frame).mp List.mem_cons_self
  obtain ⟨hid, hvalid⟩ := h pid frame hentry
  have htable : (deleteFrame fd bpm frame).pageTable = Function.update bpm.pageTable pid none := by
    obtain ⟨htable, -⟩ := pin_same (bpm.writePage ⟨fd, pid.pageNo⟩ (bpm.pages frame).data) frame
    simp only [deleteFrame, hid, hvalid, if_false, BufferPoolManager.setPage, htable]
    rfl
  refine ⟨hnodup', fun g => ⟨?_, ?_⟩⟩
  · intro hg
    obtain ⟨p, hp, hpfd⟩ := (hmem g).mp (List.mem_cons_of_mem frame hg)
    have hne : p ≠ pid := by
      rintro rfl
      rw [Option.some.inj (hentry.symm.trans hp)] at hnot
      exact hnot hg
    exact ⟨p, by rw [htable, Function.update_of_ne hne, hp], hpfd⟩
  · rintro ⟨p, hp, hpfd⟩
    rw [htable] at hp
    by_cases hpp : p = pid
    · rw [hpp, Function.update_self] at hp
      cases hp
    · rw [Function.update_of_ne hpp] at hp
      rcases List.mem_cons.mp ((hmem g).mpr ⟨p, hp, hpfd⟩) with rfl | hg
      · exact absurd ((h p g hp).1.symm.trans hid) hpp
      · exact hg

theorem effect_deleteAllPagesIo (io : Io) (fd : ℤ) : ∀ {frames : List ℕ} {bpm : BufferPoolManager}, TableOk bpm →
    bpm.Lists fd frames → Effect bpm (deleteAllPagesIo io fd bpm frames).1 fun _ => False
  | [], bpm, h, _ => .refl h
  | frame :: frames, bpm, h, hl => by
    have hof := OfFile.of_lists h hl
    have hf := effect_deleteFrame h hof
    rw [deleteAllPagesIo]
    split
    next hfails => exact .tornPage h io hof.page_id.symm hfails.1
    next => exact hf.trans (effect_deleteAllPagesIo io fd hf.tableOk (lists_deleteFrame h hl))

/-- **`delete_all_pages`** leaves no page of the file in the pool, unless it throws. -/
theorem deleteAllPagesIo_absent (io : Io) (fd : ℤ) : ∀ {frames : List ℕ} {bpm : BufferPoolManager}, TableOk bpm →
    bpm.Lists fd frames → (deleteAllPagesIo io fd bpm frames).2 = .returned () →
    ∀ pid : PageId, pid.fd = fd → (deleteAllPagesIo io fd bpm frames).1.pageTable pid = none
  | [], bpm, _, hl, _, pid, hfd => by
    by_contra hne
    obtain ⟨f, hf⟩ := Option.ne_none_iff_exists'.mp hne
    exact List.not_mem_nil ((hl.2 f).mpr ⟨pid, hf, hfd⟩)
  | frame :: frames, bpm, h, hl, hret, pid, hfd => by
    have hf := effect_deleteFrame h (OfFile.of_lists h hl)
    rw [deleteAllPagesIo] at hret ⊢
    split at hret
    · cases hret
    next hfails =>
      rw [if_neg hfails]
      exact deleteAllPagesIo_absent io fd hf.tableOk (lists_deleteFrame h hl) hret pid hfd

/-- `delete_all_pages` writes the pages of the frames only. -/
theorem deleteAllPagesIo_disk (io : Io) (pid : PageId) (hvalid : pid.pageNo ≠ INVALID_PAGE_ID) :
    ∀ {frames : List ℕ} {bpm : BufferPoolManager}, (∀ f ∈ frames, (bpm.pages f).id.pageNo ≠ pid.pageNo) →
    (deleteAllPagesIo io pid.fd bpm frames).1.disk pid = bpm.disk pid
  | [], _, _ => rfl
  | frame :: frames, bpm, h => by
    have hother : ∀ data, (bpm.writePage ⟨pid.fd, (bpm.pages frame).id.pageNo⟩ data).disk pid = bpm.disk pid := fun data => by
      refine Function.update_of_ne (fun heq => h frame List.mem_cons_self ?_) ..
      rw [heq]
    rw [deleteAllPagesIo]
    split
    · exact hother _
    · have hframe : (deleteFrame pid.fd bpm frame).disk pid = bpm.disk pid := by
        rw [deleteFrame]
        split
        · rfl
        · exact (congrFun (pin_same _ frame).2.2.1 pid).trans (hother _)
      refine (deleteAllPagesIo_disk io pid hvalid ?_).trans hframe
      intro f hf
      rw [deleteFrame]
      split
      · exact h f (List.mem_cons_of_mem frame hf)
      · simp only [BufferPoolManager.setPage]
        by_cases heq : f = frame
        · rw [heq, Function.update_self]
          exact hvalid.symm
        · rw [Function.update_of_ne heq, (pin_same _ frame).2.1]
          exact h f (List.mem_cons_of_mem frame hf)

/-! ### Frames and the page table -/

/-- A frame with a page is in the page table. -/
def IdsOk (bpm : BufferPoolManager) : Prop :=
  ∀ frame, (bpm.pages frame).id.pageNo ≠ INVALID_PAGE_ID → bpm.pageTable (bpm.pages frame).id = some frame

theorem IdsOk.same (h : IdsOk bpm) (htable : bpm'.pageTable = bpm.pageTable)
    (hids : ∀ f, (bpm'.pages f).id = (bpm.pages f).id) : IdsOk bpm' := by
  intro f hf
  rw [hids f] at hf ⊢
  rw [htable]
  exact h f hf

theorem IdsOk.touch (h : IdsOk bpm) {page : Page} (htable : bpm'.pageTable = bpm.pageTable)
    (hpages : bpm'.pages = Function.update bpm.pages frame page) (hid : page.id = (bpm.pages frame).id) : IdsOk bpm' := by
  refine h.same htable ?_
  intro f
  rw [hpages]
  by_cases hf : f = frame
  · rw [hf, Function.update_self, hid]
  · rw [Function.update_of_ne hf]

/-- A frame gets another page, which is in no frame, or none. -/
theorem IdsOk.replace (h : IdsOk bpm) (page : Page) (hpages : bpm'.pages = Function.update bpm.pages frame page)
    (habsent : page.id.pageNo = INVALID_PAGE_ID ∨ bpm.pageTable page.id = none)
    (hself : page.id.pageNo ≠ INVALID_PAGE_ID → bpm'.pageTable page.id = some frame)
    (hother : ∀ p f, p ≠ (bpm.pages frame).id → p ≠ page.id → bpm.pageTable p = some f → bpm'.pageTable p = some f) :
    IdsOk bpm' := by
  intro f hf
  rw [hpages] at hf ⊢
  by_cases hne : f = frame
  · rw [hne, Function.update_self] at hf ⊢
    exact hself hf
  · rw [Function.update_of_ne hne] at hf ⊢
    have hold := h f hf
    refine hother _ f (fun heq => hne ?_) ?_ hold
    · exact Option.some.inj (hold.symm.trans ((congrArg bpm.pageTable heq).trans (h frame (heq ▸ hf))))
    · intro heq
      rcases habsent with hinvalid | hnone
      · exact hf (heq ▸ hinvalid)
      · rw [heq, hnone] at hold
        cases hold

theorem IdsOk.updatePage (h : IdsOk bpm) (ht : TableOk bpm) (frame : ℕ) {pid : PageId}
    (habsent : pid.pageNo = INVALID_PAGE_ID ∨ bpm.pageTable pid = none) : IdsOk (bpm.updatePage frame pid) := by
  obtain ⟨b, table, -, hpages, hpt, htable, heq⟩ := Effect.updatePage_form ht frame pid
  have hb : IdsOk b := h.same hpt fun f => by rw [hpages]
  rw [heq]
  refine hb.replace ⟨pid, zeros, false, 0⟩ rfl (hpt ▸ habsent) ?_ ?_
  · intro hvalid
    simp only [hvalid, ne_eq, not_false_eq_true, if_true, Function.update_self]
  · intro p f hold hnew hp
    have htab : table p = some f := by
      rw [htable]
      split
      · rw [Function.update_of_ne hold, hp]
      · exact hp
    simp only
    split
    · rw [Function.update_of_ne hnew, htab]
    · exact htab

theorem IdsOk.findVictimPage (h : IdsOk bpm) (hv : bpm.findVictimPage = some (bpm', frame)) :
    IdsOk bpm' ∧ bpm'.pageTable = bpm.pageTable := by
  unfold BufferPoolManager.findVictimPage at hv
  split at hv
  · obtain ⟨rfl, -⟩ := Prod.mk.inj (Option.some.inj hv)
    exact ⟨h.same rfl fun _ => rfl, rfl⟩
  · split at hv
    · obtain ⟨rfl, -⟩ := Prod.mk.inj (Option.some.inj hv)
      exact ⟨h.same rfl fun _ => rfl, rfl⟩
    · cases hv

theorem IdsOk.hold (h : IdsOk bpm) {page : Page} (hid : page.id = (bpm.pages frame).id) :
    IdsOk ((bpm.setPage frame page).pin frame) := by
  obtain ⟨htable, hpages, -⟩ := pin_same (bpm.setPage frame page) frame
  exact h.touch htable hpages hid

theorem IdsOk.fetchPageIo (h : IdsOk bpm) (ht : TableOk bpm) (io : Io) (pid : PageId) : IdsOk (bpm.fetchPageIo io pid).1 := by
  rcases htable : bpm.pageTable pid with _ | frame
  · rcases hv : bpm.findVictimPage with _ | ⟨b, frame⟩
    · simp only [BufferPoolManager.fetchPageIo, htable, hv]
      exact h
    · obtain ⟨hb, hpt⟩ := h.findVictimPage hv
      have htb := (Effect.findVictimPage ht hv).tableOk
      have hu : IdsOk (b.updatePage frame pid) := hb.updatePage htb frame (.inr (hpt ▸ htable))
      simp only [BufferPoolManager.fetchPageIo, htable, hv]
      split
      · exact hb
      · split
        · refine hu.replace { (b.updatePage frame pid).pages frame with id := noPage } rfl (.inl rfl)
            (fun hvalid => absurd rfl hvalid) ?_
          intro p f hold _ hp
          rw [updatePage_id] at hold
          exact (Function.update_of_ne hold ..).trans hp
        · exact hu.hold rfl
  · simp only [BufferPoolManager.fetchPageIo, htable]
    exact h.hold rfl

theorem IdsOk.newPageIo (h : IdsOk bpm) (ht : TableOk bpm) (io : Io) (fd : ℤ)
    (habsent : bpm.pageTable ⟨fd, bpm.fd2pageno fd⟩ = none) : IdsOk (bpm.newPageIo io fd).1 := by
  rcases hv : bpm.findVictimPage with _ | ⟨b, frame⟩
  · simp only [BufferPoolManager.newPageIo, hv]
    exact h
  · obtain ⟨hb, hpt⟩ := h.findVictimPage hv
    have htb := (Effect.findVictimPage ht hv).tableOk
    have ha : IdsOk (b.allocatePage fd).1 := hb.same rfl fun _ => rfl
    have hta : TableOk (b.allocatePage fd).1 := htb
    have hno : (b.allocatePage fd).1.pageTable ⟨fd, (b.allocatePage fd).2⟩ = none := by
      rw [show (b.allocatePage fd).2 = bpm.fd2pageno fd from congrFun (findVictimPage_counters hv) fd, ← habsent, ← hpt]
      rfl
    simp only [BufferPoolManager.newPageIo, hv]
    split
    · exact ha
    · exact (ha.updatePage hta frame (.inr hno)).hold rfl

theorem IdsOk.deletePageIo (h : IdsOk bpm) (ht : TableOk bpm) (io : Io) (pid : PageId) : IdsOk (bpm.deletePageIo io pid).1 := by
  rcases htable : bpm.pageTable pid with _ | frame
  · simp only [BufferPoolManager.deletePageIo, htable]
    exact h
  · obtain ⟨hpt, hpages, -⟩ := pin_same bpm frame
    have hp : IdsOk (bpm.pin frame) := h.same hpt fun f => by rw [hpages]
    simp only [BufferPoolManager.deletePageIo, htable]
    split
    · exact h
    · split
      · exact hp
      · exact (hp.updatePage (Effect.pin ht frame).tableOk frame (.inl rfl)).same rfl fun _ => rfl

theorem IdsOk.flushAllPagesIo (h : IdsOk bpm) (io : Io) (fd : ℤ) (frames : List ℕ) :
    IdsOk (flushAllPagesIo io fd bpm frames).1 := by
  induction frames generalizing bpm with
  | nil => exact h
  | cons frame frames ih =>
    rw [BufferPoolManager.flushAllPagesIo]
    split
    · exact h
    · refine ih ?_
      unfold flushFrame
      simp only
      split
      · exact h
      · exact h.touch rfl rfl rfl

theorem IdsOk.deleteAllPagesIo (io : Io) (fd : ℤ) : ∀ {frames : List ℕ} {bpm : BufferPoolManager}, IdsOk bpm →
    IdsOk (deleteAllPagesIo io fd bpm frames).1
  | [], _, h => h
  | frame :: frames, bpm, h => by
    rw [BufferPoolManager.deleteAllPagesIo]
    split
    · exact h
    · refine IdsOk.deleteAllPagesIo io fd ?_
      unfold deleteFrame
      simp only
      split
      · exact h
      · obtain ⟨htable, hpages, -⟩ := pin_same (bpm.writePage ⟨fd, (bpm.pages frame).id.pageNo⟩ (bpm.pages frame).data) frame
        refine h.replace ⟨noPage, zeros, false, 0⟩ (by simp only [BufferPoolManager.setPage, hpages]; rfl) (.inl rfl)
          (fun hvalid => absurd rfl hvalid) ?_
        intro p f hold _ hp
        simp only [BufferPoolManager.setPage, htable]
        exact (Function.update_of_ne hold ..).trans hp

/-- **Frames stay in the page table** as long as `new_page` is not given the number of a page that is in it. -/
theorem IoStep.idsOk {c : Call} (h : IdsOk bpm) (ht : TableOk bpm) (hs : IoStep bpm (c, io) bpm')
    (habsent : ¬ bpm.AllocatesResident c) : IdsOk bpm' := by
  cases hs with
  | fetch => exact h.fetchPageIo ht io _
  | new _ _ => exact h.newPageIo ht io _ (not_not.mp habsent)
  | @unpin pid isDirty _ =>
    rcases htable : bpm.pageTable pid with _ | frame
    · simp only [unpinPage, htable]
      exact h
    · simp only [unpinPage, htable]
      split
      · exact h
      · have hs : IdsOk (bpm.setPage frame { bpm.pages frame with
            pinCount := (bpm.pages frame).pinCount - 1, isDirty := (bpm.pages frame).isDirty || isDirty }) :=
          h.touch rfl rfl rfl
        split
        · obtain ⟨hpt, hpages⟩ := unpin_same (bpm.setPage frame { bpm.pages frame with
            pinCount := (bpm.pages frame).pinCount - 1, isDirty := (bpm.pages frame).isDirty || isDirty }) frame
          exact hs.same hpt fun f => by rw [hpages]
        · exact hs
  | @flush pid _ =>
    rcases htable : bpm.pageTable pid with _ | frame
    · simp only [flushPageIo, htable]
      split <;> exact h
    · simp only [flushPageIo, htable]
      split
      · exact h
      · split
        · exact h
        · exact h.touch rfl rfl rfl
  | flushAll _ => exact h.flushAllPagesIo io _ _
  | delete => exact h.deletePageIo ht io _
  | deleteAll _ => exact h.deleteAllPagesIo io _
  | write _ => exact h.touch rfl rfl rfl

/-! ### The counters -/

theorem updatePage_counters (bpm : BufferPoolManager) (frame : ℕ) (pid : PageId) :
    (bpm.updatePage frame pid).fd2pageno = bpm.fd2pageno := by
  unfold BufferPoolManager.updatePage
  simp only [BufferPoolManager.setPage]
  split <;> split <;> (try split) <;> rfl

theorem fetchPageIo_counters (bpm : BufferPoolManager) (io : Io) (pid : PageId) :
    (bpm.fetchPageIo io pid).1.fd2pageno = bpm.fd2pageno := by
  rcases htable : bpm.pageTable pid with _ | frame
  · rcases hv : bpm.findVictimPage with _ | ⟨b, frame⟩
    · simp only [fetchPageIo, htable, hv]
    · rw [← findVictimPage_counters hv]
      simp only [fetchPageIo, htable, hv]
      split
      · rfl
      · split
        · exact updatePage_counters b frame pid
        · exact (pin_same _ _).2.2.2.trans (updatePage_counters b frame pid)
  · simp only [fetchPageIo, htable]
    exact (pin_same _ _).2.2.2

/-- What `new_page` does to the counters. -/
theorem newPageIo_counters (bpm : BufferPoolManager) (io : Io) (fd : ℤ) :
    (bpm.newPageIo io fd = (bpm, .returned none)) ∨
    ((bpm.newPageIo io fd).1.fd2pageno = Function.update bpm.fd2pageno fd (bpm.fd2pageno fd + 1) ∧
      ((bpm.newPageIo io fd).2 = .throws ∨ ∃ frame, (bpm.newPageIo io fd).2 = .returned (some (⟨fd, bpm.fd2pageno fd⟩, frame)))) := by
  rcases hv : bpm.findVictimPage with _ | ⟨b, frame⟩
  · exact .inl (by simp only [newPageIo, hv])
  · have hcount := findVictimPage_counters hv
    refine .inr ?_
    simp only [newPageIo, hv]
    split
    · exact ⟨by rw [← hcount]; rfl, .inl rfl⟩
    · refine ⟨?_, .inr ⟨frame, ?_⟩⟩
      · rw [← hcount]
        exact (pin_same _ _).2.2.2.trans (updatePage_counters ..)
      · rw [← hcount]
        rfl

theorem unpin_counters (bpm : BufferPoolManager) (frame : ℕ) : (bpm.unpin frame).fd2pageno = bpm.fd2pageno := by
  unfold BufferPoolManager.unpin
  split
  · rfl
  · split <;> rfl

theorem flushAllPagesIo_counters (io : Io) (fd : ℤ) : ∀ (frames : List ℕ) (bpm : BufferPoolManager),
    (flushAllPagesIo io fd bpm frames).1.fd2pageno = bpm.fd2pageno
  | [], _ => rfl
  | frame :: frames, bpm => by
    rw [flushAllPagesIo]
    split
    · rfl
    · rw [flushAllPagesIo_counters io fd frames]
      unfold flushFrame
      simp only
      split <;> rfl

theorem deleteAllPagesIo_counters (io : Io) (fd : ℤ) : ∀ (frames : List ℕ) (bpm : BufferPoolManager),
    (deleteAllPagesIo io fd bpm frames).1.fd2pageno = bpm.fd2pageno
  | [], _ => rfl
  | frame :: frames, bpm => by
    rw [deleteAllPagesIo]
    split
    · rfl
    · rw [deleteAllPagesIo_counters io fd frames]
      unfold deleteFrame
      simp only
      split
      · rfl
      · exact (pin_same _ _).2.2.2

theorem deletePageIo_counters (bpm : BufferPoolManager) (io : Io) (pid : PageId) :
    (bpm.deletePageIo io pid).1.fd2pageno = bpm.fd2pageno := by
  rcases htable : bpm.pageTable pid with _ | frame
  · simp only [deletePageIo, htable]
  · have hpin := (pin_same bpm frame).2.2.2
    simp only [deletePageIo, htable]
    split
    · rfl
    · split
      · exact hpin
      · exact (updatePage_counters (bpm.pin frame) frame noPage).trans hpin

/-- **No other call** than `new_page` changes a counter. -/
theorem IoStep.counters {c : Call} (hs : IoStep bpm (c, io) bpm') (hc : ∀ fd, c ≠ .new fd) : bpm'.fd2pageno = bpm.fd2pageno := by
  cases hs with
  | fetch => exact fetchPageIo_counters bpm io _
  | new _ _ => exact absurd rfl (hc _)
  | @unpin pid isDirty _ =>
    rcases htable : bpm.pageTable pid with _ | frame
    · simp only [unpinPage, htable]
    · simp only [unpinPage, htable]
      split
      · rfl
      · split
        · exact unpin_counters ..
        · rfl
  | @flush pid _ =>
    rcases htable : bpm.pageTable pid with _ | frame
    · simp only [flushPageIo, htable]
      split <;> rfl
    · simp only [flushPageIo, htable]
      split
      · rfl
      · split <;> rfl
  | flushAll _ => exact flushAllPagesIo_counters io _ _ bpm
  | delete => exact deletePageIo_counters bpm io _
  | deleteAll _ => exact deleteAllPagesIo_counters io _ _ bpm
  | write _ => rfl

/-- The page that a call is for. -/
def Call.brings (bpm : BufferPoolManager) : Call → PageId → Prop
  | .fetch pid => (· = pid)
  | .new fd => (· = ⟨fd, bpm.fd2pageno fd⟩)
  | _ => fun _ => False

/-- **What a call can do.** -/
theorem IoStep.effect {c : Call} (h : TableOk bpm) (hs : IoStep bpm (c, io) bpm') : Effect bpm bpm' (c.brings bpm) := by
  cases hs with
  | fetch => exact effect_fetchPageIo h io _
  | new _ _ => exact effect_newPageIo h io _
  | unpin => exact effect_unpinPage h _ _
  | flush => exact effect_flushPageIo h io _
  | flushAll hl => exact effect_flushAllPagesIo io _ h (.of_lists h hl)
  | delete => exact effect_deletePageIo h io _
  | deleteAll hl => exact effect_deleteAllPagesIo io _ h hl
  | write _ => exact .touch h rfl rfl rfl rfl

end Calls

end Rmdb.Storage
