import Rmdb.Storage.Client
import Rmdb.Storage.Frames

/-!
# Any number of pins

A client that holds several pins, beside others that hold theirs. While there are fewer pins than frames, some frame is free or
can be replaced, so that `fetch_page` and `new_page` never run out of frames (`Pinned`). What a client unpins may be replaced by the
next page that is fetched; but the replacer takes the frame that has been unpinned last only if it has no other, so that
the client may still read the page then (`Recent`).
-/

namespace Rmdb.Storage

/-- These pins are held, and every other frame can be had. -/
structure Pinned (bpm : BufferPoolManager) (contents : PageId → PageData) (pins : List Pin) : Prop where
  good : Good ⟨bpm, pins⟩ contents
  listed : ∀ f < bpm.poolSize, (∀ x ∈ pins, x.frame ≠ f) → f ∈ bpm.freeList ∨ f ∈ bpm.lruList

/-- The page is in the frame, and if it can be replaced, it is the last one that would be. -/
def Recent (bpm : BufferPoolManager) (pid : PageId) (frame : ℕ) : Prop :=
  bpm.pageTable pid = some frame ∧ (frame ∈ bpm.lruList → bpm.lruList.getLast? = some frame)

section Pins

variable {bpm : BufferPoolManager} {contents : PageId → PageData} {pins A B : List Pin} {pid : PageId} {x : Pin}

/-- Without pins this is `Idle`. -/
theorem Idle.pinned (h : Idle bpm contents) : Pinned bpm contents [] := ⟨h.good, fun f hf _ => h.listed f hf⟩

/-- The order of the pins does not matter. -/
theorem Pinned.perm {pins' : List Pin} (h : Pinned bpm contents pins) (hperm : pins.Perm pins') : Pinned bpm contents pins' := by
  obtain ⟨⟨table, ids, data, gone, clean, held, counts, free, lru, freeNodup, lruNodup, counters⟩, listed⟩ := h
  refine ⟨⟨table, ids, data, gone, ?_, ?_, ?_, free, lru, freeNodup, lruNodup, counters⟩, ?_⟩
  · intro pid frame ht hd hm
    exact clean pid frame ht hd fun x hx => hm x (hperm.mem_iff.mp hx)
  · intro x hx
    exact held x (hperm.mem_iff.mpr hx)
  · intro frame
    exact (counts frame).trans (congrArg _ (hperm.countP_eq _))
  · intro f hf hpin
    exact listed f hf fun x hx => hpin x (hperm.mem_iff.mp hx)

/-- **Frames to spare**: those that nobody has pinned. -/
theorem Pinned.spare (h : Pinned bpm contents pins) {k : ℕ} (hroom : pins.length + k ≤ bpm.poolSize) :
    k ≤ bpm.freeList.length + bpm.lruList.length := by
  have hsub : List.range bpm.poolSize ⊆ pins.map (·.frame) ++ (bpm.freeList ++ bpm.lruList) := by
    intro f hf
    by_cases hpin : ∃ x ∈ pins, x.frame = f
    · exact List.mem_append_left _ (List.mem_map.mpr hpin)
    · rw [not_exists] at hpin
      exact List.mem_append_right _ (List.mem_append.mpr
        (h.listed f (List.mem_range.mp hf) fun x hx hxf => hpin x ⟨hx, hxf⟩))
  have hle := (List.nodup_range.subperm hsub).length_le
  rw [List.length_range, List.length_append, List.length_append, List.length_map] at hle
  omega

/-- The frame that `find_victim_page` takes, and those that are left. -/
theorem Pinned.findVictimPage (h : Pinned bpm contents pins) (hroom : pins.length < bpm.poolSize) : ∃ b frame,
    bpm.findVictimPage = some (b, frame) ∧ b.poolSize = bpm.poolSize ∧
      (∀ f < bpm.poolSize, (∀ x ∈ pins, x.frame ≠ f) → f ≠ frame → f ∈ b.freeList ∨ f ∈ b.lruList) ∧
      (frame ∈ bpm.freeList ∨ bpm.freeList = [] ∧ bpm.lruList.head? = some frame) := by
  have hspare := h.spare (k := 1) hroom
  unfold BufferPoolManager.findVictimPage
  cases hfree : bpm.freeList with
  | cons frame rest =>
    refine ⟨_, frame, rfl, rfl, ?_, Or.inl List.mem_cons_self⟩
    intro f hf hpin hne
    have hmem := h.listed f hf hpin
    rw [hfree, List.mem_cons] at hmem
    simp only
    tauto
  | nil =>
    cases hlru : bpm.lruList with
    | cons frame rest =>
      refine ⟨_, frame, rfl, rfl, ?_, Or.inr ⟨rfl, rfl⟩⟩
      intro f hf hpin hne
      have hmem := h.listed f hf hpin
      rw [hfree, hlru, List.mem_cons] at hmem
      simp only
      tauto
    | nil =>
      rw [hfree, hlru] at hspare
      exact absurd hspare (by decide)

/-- A frame that has been unpinned last is not the victim if there is another. -/
theorem Pinned.victim_ne (h : Pinned bpm contents pins) (hroom : pins.length + 2 ≤ bpm.poolSize) {frame victim : ℕ}
    (hrecent : Recent bpm pid frame)
    (hvictim : victim ∈ bpm.freeList ∨ bpm.freeList = [] ∧ bpm.lruList.head? = some victim) : frame ≠ victim := by
  rintro rfl
  obtain ⟨htable, hlast⟩ := hrecent
  obtain ⟨hid, hpos, -⟩ := h.good.table pid frame htable
  rcases hvictim with hfree | ⟨hfree, hhead⟩
  · have hnone := (h.good.free frame hfree).1
    rw [hid] at hnone
    unfold INVALID_PAGE_ID at hnone
    omega
  · have hspare := h.spare hroom
    cases hlru : bpm.lruList with
    | nil =>
      rw [hfree, hlru] at hspare
      exact absurd hspare (by decide)
    | cons f rest =>
      rw [hlru, List.head?_cons, Option.some.injEq] at hhead
      subst hhead
      have hlast' := hlast (by rw [hlru]; exact List.mem_cons_self)
      rw [hlru, List.getLast?_cons] at hlast'
      rw [hfree, hlru, List.length_nil, List.length_cons] at hspare
      obtain ⟨y, hy⟩ : ∃ y, rest.getLast? = some y := by
        rw [← Option.ne_none_iff_exists', Ne, List.getLast?_eq_none_iff]
        rintro rfl
        simp at hspare
      rw [hy, Option.getD_some, Option.some.injEq] at hlast'
      have hnd := h.good.lruNodup
      simp only [hlru] at hnd
      exact (List.nodup_cons.mp hnd).1 (hlast' ▸ List.mem_of_getLast? hy)

/-- A page that is not in the pool is not written to disk. -/
theorem evict_disk {frame : ℕ} (hids : (bpm.pages frame).id.pageNo ≠ INVALID_PAGE_ID → bpm.pageTable (bpm.pages frame).id = some frame)
    (hpid : bpm.pageTable pid = none) : (bpm.evict frame).disk pid = bpm.disk pid := by
  unfold BufferPoolManager.evict
  dsimp only
  split
  · have hne : pid ≠ (bpm.pages frame).id := by
      rintro rfl
      cases hpid.symm.trans (hids ‹_›)
    split
    · exact Function.update_of_ne hne ..
    · rfl
  · rfl

/-- **`fetch_page`** finds a frame for the page, and leaves alone what has been unpinned last if there is another frame. -/
theorem Pinned.fetchPage (h : Pinned bpm contents pins) (hroom : pins.length < bpm.poolSize) (hpos : 0 ≤ pid.pageNo) :
    ∃ bpm' frame, bpm.fetchPage pid = (bpm', .page frame) ∧ Pinned bpm' contents (⟨pid, frame, false⟩ :: pins) ∧
      bpm'.poolSize = bpm.poolSize ∧ bpm'.fd2pageno = bpm.fd2pageno ∧ Brings bpm bpm' pid ∧
      (∀ p f, Recent bpm p f → pins.length + 2 ≤ bpm.poolSize → bpm'.pageTable p = some f) ∧
      ∀ p, bpm.pageTable p = none → bpm'.disk p = bpm.disk p := by
  cases htable : bpm.pageTable pid with
  | some frame =>
    obtain ⟨-, -, hin⟩ := h.good.table pid frame htable
    have hf : bpm.fetchPage pid = ((bpm.setPage frame { bpm.pages frame with
        pinCount := (bpm.pages frame).pinCount + 1 }).pin frame, .page frame) := by
      simp only [BufferPoolManager.fetchPage, htable]
    refine ⟨_, frame, hf, ⟨h.good.fetchPage hf, fun f hlt hpin => ?_⟩, ?_, ?_, fun p _ hp => ?_, fun p f hp _ => ?_, fun p _ => ?_⟩
    all_goals rw [pin_eq (bpm.setPage _ _) hin] at *
    · have hne : f ≠ frame := fun hff => hpin _ List.mem_cons_self hff.symm
      rcases h.listed f hlt fun x hx => hpin x (List.mem_cons_of_mem _ hx) with hl | hl
      · exact Or.inl hl
      · exact Or.inr ((List.mem_erase_of_ne hne).mpr hl)
    · rfl
    · rfl
    · exact hp
    · exact hp.1
    · rfl
  | none =>
    obtain ⟨b, frame, hv, hsize, hlisted, hvictim⟩ := h.findVictimPage hroom
    obtain ⟨hb, ht, htab, hdisk, hcounter⟩ := h.good.takeVictim hv
    obtain ⟨-, hetab, hefree, helru, hesize, hecount, -⟩ := evict_eq b frame
    have hf : bpm.fetchPage pid = (((b.evict frame).install frame pid ((b.evict frame).diskData pid) 1), .page frame) := by
      simp only [BufferPoolManager.fetchPage, htable, hv, BufferPoolManager.updatePage_of_nonneg b frame hpos]
      have hread : ((b.evict frame).install frame pid zeros 0).readPage pid = some ((b.evict frame).diskData pid) := by
        unfold BufferPoolManager.readPage
        rw [if_neg (by omega)]
        rfl
      rw [hread]
      simp only [Prod.mk.injEq, and_true]
      rw [pin_of_not_mem]
      · simp [BufferPoolManager.setPage, BufferPoolManager.install]
      · exact ht.evict.notLru
    refine ⟨_, frame, hf, ⟨h.good.fetchPage hf, ?_⟩, hesize.trans hsize, hecount.trans hcounter, ?_, ?_, ?_⟩
    · intro f hlt hpin
      change f < (b.evict frame).poolSize at hlt
      rw [hesize, hsize] at hlt
      change f ∈ (b.evict frame).freeList ∨ f ∈ (b.evict frame).lruList
      rw [hefree, helru]
      exact hlisted f hlt (fun x hx => hpin x (List.mem_cons_of_mem _ hx)) fun hff => hpin _ List.mem_cons_self hff.symm
    · intro p hne hp
      change Function.update (b.evict frame).pageTable pid (some frame) p = none
      rw [Function.update_of_ne hne]
      exact evict_pageTable_none b frame (htab ▸ hp)
    · intro p f hp htwo
      have hne : f ≠ frame := h.victim_ne htwo hp hvictim
      have hpne : p ≠ pid := by
        rintro rfl
        cases hp.1.symm.trans htable
      change Function.update (b.evict frame).pageTable pid (some frame) p = some f
      rw [Function.update_of_ne hpne, hetab, htab]
      split
      · rw [Function.update_of_ne, hp.1]
        rintro rfl
        -- the page that goes is in the victim's frame
        have hids := hb.ids frame ‹_›
        rw [htab, hp.1] at hids
        exact hne (Option.some.inj hids)
      · exact hp.1
    · intro p hp
      exact (evict_disk (hb.ids frame) ((congrFun htab p).trans hp)).trans (congrFun hdisk p)

/-- **`new_page`** finds a frame for the page. -/
theorem Pinned.newPage (h : Pinned bpm contents pins) (hroom : pins.length < bpm.poolSize) {fd : ℤ}
    (hpid : pid = ⟨fd, bpm.fd2pageno fd⟩) (hpool : bpm.pageTable pid = none) (hzero : contents pid = zeros) :
    ∃ bpm' frame, bpm.newPage fd = (bpm', some (pid, frame)) ∧ Pinned bpm' contents (⟨pid, frame, false⟩ :: pins) ∧
      bpm'.poolSize = bpm.poolSize ∧ bpm'.fd2pageno = Function.update bpm.fd2pageno fd (bpm.fd2pageno fd + 1) ∧
      Brings bpm bpm' pid ∧ ∀ p, bpm.pageTable p = none → bpm'.disk p = bpm.disk p := by
  subst hpid
  obtain ⟨b, frame, hv, hsize, hlisted, -⟩ := h.findVictimPage hroom
  obtain ⟨hb, ht, htab, hdisk, hcounter⟩ := h.good.takeVictim hv
  have hpos : 0 ≤ (⟨fd, bpm.fd2pageno fd⟩ : PageId).pageNo := h.good.counters fd
  set b' : BufferPoolManager := { b with fd2pageno := Function.update bpm.fd2pageno fd (bpm.fd2pageno fd + 1) } with hb'
  have ht' : Taken ⟨b', pins⟩ frame := ⟨ht.notFree, ht.notLru, ht.unpinned, ht.inPool⟩
  obtain ⟨-, -, hefree, helru, hesize, hecount, -⟩ := evict_eq b' frame
  have hn : bpm.newPage fd = ((b'.evict frame).install frame ⟨fd, bpm.fd2pageno fd⟩ zeros 1,
      some (⟨fd, bpm.fd2pageno fd⟩, frame)) := by
    simp only [BufferPoolManager.newPage, hv, BufferPoolManager.allocatePage, hcounter, ← hb',
      BufferPoolManager.updatePage_of_nonneg b' frame hpos, Prod.mk.injEq, and_true]
    rw [pin_of_not_mem]
    · simp [BufferPoolManager.setPage, BufferPoolManager.install]
    · exact ht'.evict.notLru
  refine ⟨_, frame, hn, ⟨h.good.newPage hn hzero hpool, ?_⟩, hesize.trans hsize, hecount, ?_, ?_⟩
  · intro f hlt hpin
    change f < (b'.evict frame).poolSize at hlt
    rw [hesize] at hlt
    change f ∈ (b'.evict frame).freeList ∨ f ∈ (b'.evict frame).lruList
    rw [hefree, helru]
    exact hlisted f (hsize ▸ hlt) (fun x hx => hpin x (List.mem_cons_of_mem _ hx)) fun hff => hpin _ List.mem_cons_self hff.symm
  · intro p hne hp
    change Function.update (b'.evict frame).pageTable _ (some frame) p = none
    rw [Function.update_of_ne hne]
    exact evict_pageTable_none b' frame (htab ▸ hp)
  · intro p hp
    have hsame : (b'.evict frame).disk p = b'.disk p := evict_disk (hb.ids frame) ((congrFun htab p).trans hp)
    exact hsame.trans (congrFun hdisk p)

/-- A pinned page is where its pin says. -/
theorem Pinned.at_pin (h : Pinned bpm contents pins) (hx : x ∈ pins) : (bpm.pages x.frame).data = contents x.pid ∧
    (bpm.pages x.frame).id = x.pid ∧ Recent bpm x.pid x.frame := by
  have htable : bpm.pageTable x.pid = some x.frame := h.good.held x hx
  refine ⟨h.good.data _ _ htable, (h.good.table _ _ htable).1, htable, ?_⟩
  intro hl
  have hzero := (h.good.lru _ hl).2.1
  exact absurd rfl (h.good.no_pin hzero x hx)

/-- A page that is in the pool is where the page table says. -/
theorem Pinned.at_table (h : Pinned bpm contents pins) {frame : ℕ} (hf : bpm.pageTable pid = some frame) :
    (bpm.pages frame).data = contents pid ∧ (bpm.pages frame).id = pid :=
  ⟨h.good.data _ _ hf, (h.good.table _ _ hf).1⟩

/-- The client writes to a page that it has pinned. -/
theorem Pinned.write (h : Pinned bpm contents (A ++ x :: B)) (data : PageData) :
    Pinned (bpm.setPage x.frame { bpm.pages x.frame with data := data }) (Function.update contents x.pid data)
      (A ++ { x with modified := true } :: B) := by
  refine ⟨h.good.write data rfl, fun f hlt hpin => h.listed f hlt ?_⟩
  intro y hy
  rcases List.mem_append.mp hy with hy | hy
  · exact hpin y (List.mem_append_left _ hy)
  · rcases List.mem_cons.mp hy with rfl | hy
    · exact hpin { y with modified := true } (List.mem_append_right _ List.mem_cons_self)
    · exact hpin y (List.mem_append_right _ (List.mem_cons_of_mem _ hy))

/-- What `unpin_page` does to the pool. -/
theorem Pinned.unpinPage_eq (h : Pinned bpm contents (A ++ x :: B)) (isDirty : Bool) :
    bpm.unpinPage x.pid isDirty = ({ bpm.setPage x.frame { bpm.pages x.frame with
      pinCount := (bpm.pages x.frame).pinCount - 1, isDirty := (bpm.pages x.frame).isDirty || isDirty } with
        lruList := if ∃ y ∈ A ++ B, y.frame = x.frame then bpm.lruList else bpm.lruList ++ [x.frame] }, true) := by
  have htable : bpm.pageTable x.pid = some x.frame := h.good.held x (by simp)
  have hin : x.frame < bpm.poolSize := (h.good.table _ _ htable).2.2
  have hcount : (bpm.pages x.frame).pinCount = ((A ++ B).countP fun y => y.frame = x.frame : ℕ) + 1 := by
    have hc := h.good.counts x.frame
    simp only [List.countP_append, List.countP_cons, decide_true, if_true] at hc
    rw [List.countP_append]
    omega
  have hnot : x.frame ∉ bpm.lruList := fun hl => by
    have hzero := (h.good.lru _ hl).2.1
    simp only at hzero
    omega
  -- a frame that is missing in the replacer's list leaves room there
  have hshort : bpm.lruList.length < bpm.poolSize := by
    have hsub : bpm.lruList ⊆ (List.range bpm.poolSize).erase x.frame := by
      intro f hf
      have hne : f ≠ x.frame := fun hfx => hnot (hfx ▸ hf)
      exact (List.mem_erase_of_ne hne).mpr (List.mem_range.mpr (h.good.lru f hf).2.2)
    have hnd : bpm.lruList.Nodup := h.good.lruNodup
    have hle := (hnd.subperm hsub).length_le
    rw [List.length_erase_of_mem (List.mem_range.mpr hin), List.length_range] at hle
    omega
  simp only [BufferPoolManager.unpinPage, htable]
  rw [if_neg (by omega)]
  by_cases hpin : ∃ y ∈ A ++ B, y.frame = x.frame
  · have hpos : 0 < (A ++ B).countP fun y => decide (y.frame = x.frame) :=
      List.countP_pos_iff.mpr (by simpa only [decide_eq_true_eq] using hpin)
    rw [if_neg (by omega), if_pos hpin]
    rfl
  · have hzero : (A ++ B).countP (fun y => decide (y.frame = x.frame)) = 0 := by
      rw [List.countP_eq_zero]
      intro y hy hyf
      exact hpin ⟨y, hy, of_decide_eq_true hyf⟩
    rw [if_pos (by omega), if_neg hpin]
    unfold BufferPoolManager.unpin
    rw [if_neg (by simp only [BufferPoolManager.setPage]; omega), if_neg]
    · rfl
    · simp only [BufferPoolManager.setPage]
      rintro (hl | hl)
      · exact hnot hl
      · omega

/-- **`unpin_page`**: the client gives a pin back. -/
theorem Pinned.unpin (h : Pinned bpm contents (A ++ x :: B)) {isDirty : Bool} (hdirty : x.modified = true → isDirty = true) :
    ∃ bpm', bpm.unpinPage x.pid isDirty = (bpm', true) ∧ Pinned bpm' contents (A ++ B) ∧ bpm'.poolSize = bpm.poolSize ∧
      bpm'.fd2pageno = bpm.fd2pageno ∧ bpm'.pageTable = bpm.pageTable ∧ bpm'.disk = bpm.disk ∧ Recent bpm' x.pid x.frame := by
  have heq := h.unpinPage_eq isDirty
  have htable : bpm.pageTable x.pid = some x.frame := h.good.held x (by simp)
  refine ⟨_, heq, ⟨h.good.unpin rfl hdirty heq, ?_⟩, rfl, rfl, rfl, rfl, htable, ?_⟩
  · intro f hlt hpin
    by_cases hne : f = x.frame
    · subst hne
      rw [if_neg]
      · exact Or.inr (List.mem_append_right _ (List.mem_singleton.mpr rfl))
      · rintro ⟨y, hy, hyf⟩
        exact hpin y hy hyf
    · have hold := h.listed f hlt fun y hy => ?_
      · rcases hold with hl | hl
        · exact Or.inl hl
        · refine Or.inr ?_
          split
          · exact hl
          · exact List.mem_append_left _ hl
      · rcases List.mem_append.mp hy with hy | hy
        · exact hpin y (List.mem_append_left _ hy)
        · rcases List.mem_cons.mp hy with rfl | hy
          · exact Ne.symm hne
          · exact hpin y (List.mem_append_right _ hy)
  · intro hl
    split at hl
    · have hzero := (h.good.lru _ hl).2.1
      exact absurd rfl (h.good.no_pin hzero x (by simp))
    · rw [if_neg ‹_›]
      exact List.getLast?_concat

/-! ### Whole files -/

/-- The pins on a frame are forgotten if what is in it is marked dirty. -/
theorem Good.forget (h : Good ⟨bpm, pins⟩ contents) (frame : ℕ) :
    Good ⟨bpm.setPage frame { bpm.pages frame with pinCount := 0, isDirty := true }, pins.filter fun x => x.frame ≠ frame⟩
      contents := by
  set page : Page := { bpm.pages frame with pinCount := 0, isDirty := true } with hpage
  have hself : (bpm.setPage frame page).pages frame = page := Function.update_self ..
  have hother : ∀ {f}, f ≠ frame → (bpm.setPage frame page).pages f = bpm.pages f := fun hne => Function.update_of_ne hne ..
  have hsame : ∀ f, ((bpm.setPage frame page).pages f).id = (bpm.pages f).id ∧
      ((bpm.setPage frame page).pages f).data = (bpm.pages f).data := by
    intro f
    by_cases hne : f = frame
    · subst hne
      rw [hself]
      exact ⟨rfl, rfl⟩
    · rw [hother hne]
      exact ⟨rfl, rfl⟩
  have hcount : ∀ {f}, (bpm.pages f).pinCount = 0 → ((bpm.setPage frame page).pages f).pinCount = 0 := by
    intro f hzero
    by_cases hne : f = frame
    · subst hne
      rw [hself]
    · rw [hother hne]
      exact hzero
  refine ⟨?_, ?_, ?_, h.gone, ?_, ?_, ?_, ?_, ?_, h.freeNodup, h.lruNodup, h.counters⟩
  · intro p f hp
    simp only [(hsame f).1]
    exact h.table p f hp
  · intro f hf
    simp only [(hsame f).1] at hf ⊢
    exact h.ids f hf
  · intro p f hp
    simp only [(hsame f).2]
    exact h.data p f hp
  · intro p f hp hd hm
    by_cases hne : f = frame
    · subst hne
      exact absurd ((congrArg Page.isDirty hself).symm.trans hd) (by simp [hpage])
    · simp only [hother hne] at hd
      exact h.clean p f hp hd fun x hx hxf => hm x (List.mem_filter.mpr ⟨hx, decide_eq_true (hxf ▸ hne)⟩) hxf
  · intro x hx
    exact h.held x (List.mem_of_mem_filter hx)
  · intro f
    simp only [List.countP_filter]
    by_cases hne : f = frame
    · subst hne
      have hnone : (pins.countP fun x => decide (x.frame = f) && decide (x.frame ≠ f)) = 0 :=
        List.countP_eq_zero.mpr fun x _ => by simp
      rw [hself, hnone]
      rfl
    · rw [hother hne]
      refine (h.counts f).trans (congrArg Nat.cast (List.countP_congr ?_))
      intro x _
      simp only [Bool.and_eq_true, decide_eq_true_eq]
      exact ⟨fun hx => ⟨hx, hx ▸ hne⟩, And.left⟩
  · intro f hf
    obtain ⟨hid, hzero, hin⟩ := h.free f hf
    exact ⟨(congrArg PageId.pageNo (hsame f).1).trans hid, hcount hzero, hin⟩
  · intro f hf
    obtain ⟨hid, hzero, hin⟩ := h.lru f hf
    exact ⟨fun heq => hid ((congrArg PageId.pageNo (hsame f).1).symm.trans heq), hcount hzero, hin⟩

/-- A round of `delete_all_pages`, which does not ask for pins. -/
theorem Pinned.deleteFrame (h : Pinned bpm contents pins) {frame : ℕ} (hf : bpm.pageTable pid = some frame) :
    Pinned (bpm.deleteFrame pid.fd frame) contents (pins.filter fun x => x.frame ≠ frame) ∧
      (bpm.deleteFrame pid.fd frame).pageTable = Function.update bpm.pageTable pid none ∧
      (bpm.deleteFrame pid.fd frame).poolSize = bpm.poolSize ∧
      ∀ p, bpm.pageTable p = none → (bpm.deleteFrame pid.fd frame).disk p = bpm.disk p := by
  obtain ⟨hid, hpos, hin⟩ := h.good.table pid frame hf
  set page : Page := { bpm.pages frame with pinCount := 0, isDirty := true } with hpage
  have hself : (bpm.setPage frame page).pages frame = page := Function.update_self ..
  have hvalid : (bpm.pages frame).id.pageNo ≠ INVALID_PAGE_ID := by
    rw [hid]
    unfold INVALID_PAGE_ID
    omega
  have heq : bpm.deleteFrame pid.fd frame = _ := deleteFrame_form hvalid hin
  have hsame : (bpm.setPage frame page).deleteFrame pid.fd frame = bpm.deleteFrame pid.fd frame := by
    have hvalid' : ((bpm.setPage frame page).pages frame).id.pageNo ≠ INVALID_PAGE_ID := by
      rw [hself]
      exact hvalid
    rw [deleteFrame_form hvalid' hin, heq, hself]
    simp only [BufferPoolManager.setPage, Function.update_idem, hpage]
    rfl
  obtain ⟨hgood, htable, -⟩ := (h.good.forget frame).deleteFrame hf
    (congrArg Page.pinCount hself)
  simp only [← hpage, hsame] at hgood htable
  refine ⟨⟨hgood, ?_⟩, htable, by rw [heq], ?_⟩
  · intro f hlt hpin
    rw [heq] at hlt ⊢
    by_cases hne : f = frame
    · exact Or.inl (List.mem_append_right _ (List.mem_singleton.mpr hne))
    · refine (h.listed f hlt ?_).imp (List.mem_append_left _) (List.mem_erase_of_ne hne).mpr
      intro x hx hxf
      exact hpin x (List.mem_filter.mpr ⟨hx, decide_eq_true (hxf ▸ hne)⟩) hxf
  · intro p hp
    rw [heq]
    refine Function.update_of_ne ?_ ..
    intro hpid
    have hpage : p = pid := hpid.trans (congrArg (PageId.mk pid.fd ·.pageNo) hid)
    cases (hpage ▸ hp).symm.trans hf

theorem Pinned.deleteFrames {fd : ℤ} : ∀ (frameIds : List ℕ) {bpm : BufferPoolManager} {pins : List Pin}, Pinned bpm contents pins →
    frameIds.Nodup → (∀ f ∈ frameIds, ∃ pid, bpm.pageTable pid = some f ∧ pid.fd = fd) →
    Pinned (bpm.deleteAllPages fd frameIds) contents (pins.filter fun x => x.frame ∉ frameIds) ∧
      (∀ p, (bpm.deleteAllPages fd frameIds).pageTable p = none ↔ bpm.pageTable p = none ∨
        ∃ f ∈ frameIds, bpm.pageTable p = some f) ∧
      (bpm.deleteAllPages fd frameIds).poolSize = bpm.poolSize ∧
      ∀ p, bpm.pageTable p = none → (bpm.deleteAllPages fd frameIds).disk p = bpm.disk p
  | [], _, pins, h, _, _ => by
    refine ⟨?_, fun p => by simp [BufferPoolManager.deleteAllPages], rfl, fun p _ => rfl⟩
    have hall : (pins.filter fun x => x.frame ∉ ([] : List ℕ)) = pins := List.filter_eq_self.mpr fun x _ => by simp
    rw [hall]
    exact h
  | f :: rest, bpm, pins, h, hnd, hall => by
    obtain ⟨pid, htable, rfl⟩ := hall f List.mem_cons_self
    obtain ⟨hpinned, htab, hsize, hdisk⟩ := h.deleteFrame htable
    have hinj : ∀ {p}, bpm.pageTable p = some f → p = pid := fun hp =>
      (h.good.table _ f hp).1.symm.trans (h.good.table pid f htable).1
    have hrest : ∀ f' ∈ rest, ∃ pid', (bpm.deleteFrame pid.fd f).pageTable pid' = some f' ∧ pid'.fd = pid.fd := by
      intro f' hf'
      obtain ⟨pid', htable', hfd⟩ := hall f' (List.mem_cons_of_mem _ hf')
      have hne : f' ≠ f := fun hff => (List.nodup_cons.mp hnd).1 (hff ▸ hf')
      refine ⟨pid', ?_, hfd⟩
      rw [htab, Function.update_of_ne, htable']
      rintro rfl
      exact hne (Option.some.inj (htable'.symm.trans htable))
    obtain ⟨h₁, h₂, h₃, h₄⟩ := Pinned.deleteFrames rest hpinned (List.nodup_cons.mp hnd).2 hrest
    refine ⟨?_, fun p => (h₂ p).trans ?_, h₃.trans hsize, ?_⟩
    · have hfilter : ((pins.filter fun x => x.frame ≠ f).filter fun x => x.frame ∉ rest) = pins.filter fun x => x.frame ∉ f :: rest := by
        rw [List.filter_filter]
        refine List.filter_congr ?_
        intro x _
        rw [← Bool.decide_and]
        refine decide_eq_decide.mpr ?_
        rw [List.mem_cons, not_or, and_comm]
      rw [← hfilter]
      exact h₁
    · rw [htab]
      by_cases hp : p = pid
      · subst hp
        simp [htable]
      · have hne : bpm.pageTable p ≠ some f := fun hpf => hp (hinj hpf)
        simp [Function.update_of_ne hp, hne]
    · intro p hp
      refine (h₄ p ?_).trans (hdisk p hp)
      rw [htab, Function.update_of_ne, hp]
      rintro rfl
      cases hp.symm.trans htable

/-- **`delete_all_pages`** takes the pages of a file out of the pool and leaves their contents on disk. The pins on them are gone. -/
theorem Pinned.deleteAllPages (h : Pinned bpm contents pins) {fd : ℤ} {frameIds : List ℕ} (hl : bpm.Lists fd frameIds) :
    Pinned (bpm.deleteAllPages fd frameIds) contents (pins.filter fun x => x.pid.fd ≠ fd) ∧
      (∀ p, (bpm.deleteAllPages fd frameIds).pageTable p = none ↔ bpm.pageTable p = none ∨ p.fd = fd) ∧
      (bpm.deleteAllPages fd frameIds).poolSize = bpm.poolSize ∧
      ∀ p, bpm.pageTable p = none → (bpm.deleteAllPages fd frameIds).disk p = bpm.disk p := by
  obtain ⟨h₁, h₂, h₃, h₄⟩ := h.deleteFrames frameIds hl.1 fun f hf => (hl.2 f).mp hf
  have hmem : ∀ {p f}, bpm.pageTable p = some f → (f ∈ frameIds ↔ p.fd = fd) := by
    intro p f hp
    refine (hl.2 f).trans ⟨?_, fun hfd => ⟨p, hp, hfd⟩⟩
    rintro ⟨p', hp', hfd⟩
    rwa [← (h.good.table p f hp).1, (h.good.table p' f hp').1]
  refine ⟨?_, fun p => (h₂ p).trans (or_congr_right' ?_), h₃, h₄⟩
  · have hfilter : (pins.filter fun x => x.frame ∉ frameIds) = pins.filter fun x => x.pid.fd ≠ fd :=
      List.filter_congr fun x hx => decide_eq_decide.mpr (not_congr (hmem (h.good.held x hx)))
    rw [← hfilter]
    exact h₁
  · intro hp
    obtain ⟨f, hf⟩ := Option.ne_none_iff_exists'.mp hp
    rw [← hmem hf, hf]
    simp

/-- The disk and the counters change for pages that are not in the pool. -/
theorem Pinned.remount (h : Pinned bpm contents pins) (disk : PageId → Option PageData) {fd2pageno : ℤ → ℤ}
    (hdisk : ∀ p f, bpm.pageTable p = some f → disk p = bpm.disk p) (hcounters : ∀ fd, 0 ≤ fd2pageno fd) :
    Pinned { bpm with disk := disk, fd2pageno := fd2pageno } (fun p =>
      if bpm.pageTable p = none then (disk p).getD zeros else contents p) pins := by
  have hin : ∀ {p : PageId} {f : ℕ}, bpm.pageTable p = some f → ¬ bpm.pageTable p = none := fun hp hn => by
    rw [hp] at hn
    cases hn
  refine ⟨⟨h.good.table, h.good.ids, ?_, ?_, ?_, h.good.held, h.good.counts,
    h.good.free, h.good.lru, h.good.freeNodup, h.good.lruNodup, hcounters⟩, h.listed⟩
  · intro p f hp
    rw [if_neg (hin hp)]
    exact h.good.data p f hp
  · intro p hp
    exact (if_pos hp).symm
  · intro p f hp hd hm
    rw [if_neg (hin hp)]
    change (disk p).getD zeros = contents p
    rw [hdisk p f hp]
    exact h.good.clean p f hp hd hm

end Pins

end Rmdb.Storage
