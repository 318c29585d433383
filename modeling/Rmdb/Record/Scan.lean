import Rmdb.Record.Bitmap
import Rmdb.Lib.Cursor
import Mathlib.Data.List.Nodup
import Mathlib.Data.List.Flatten

/-!
# Scanning a record file

`RmScan`: a cursor over the slots in use, page by page and slot by slot. It starts
before the first slot of the first record page, and `next` looks for the next bit set in
the bitmap of its own page and then in those behind it. Past the last page it stands at
the page number `num_pages`.

The main result is that a scan of a file whose pages are in order visits the rid of
every stored record once and no other rid (`scan_visits`, `mem_rids`, `nodup_rids`).
-/

namespace Rmdb.Record

open Lib

namespace RmFileHandle

/-- `Bitmap::is_set` on a page of the file. -/
def isSet (f : RmFileHandle) (page : RmPage) (i : ℕ) : Bool := (f.slot page i).isSome

/-- The loop of `RmScan::next`: `bound` pages from `pageNo` on. -/
def scanPages (f : RmFileHandle) (rid : Rid) : ℕ → ℤ → Except RmError Rid
  | 0, _ => .ok ⟨f.numPages, -1⟩
  | bound + 1, pageNo => do
    let page ← f.fetchPageHandle pageNo
    let currentSlot := if pageNo = rid.pageNo then rid.slotNo else -1
    let start := (currentSlot + 1).toNat
    let slotNo := nextBitFrom (f.isSet page) f.numRecordsPerPage (f.numRecordsPerPage - start) start
    if slotNo < f.numRecordsPerPage then .ok ⟨pageNo, slotNo⟩ else scanPages f rid bound (pageNo + 1)

/-- `RmScan::is_end`. -/
def scanIsEnd (f : RmFileHandle) (rid : Rid) : Bool := f.numPages ≤ rid.pageNo

/-- `RmScan::next`. -/
def scanNext (f : RmFileHandle) (rid : Rid) : Except RmError Rid :=
  if f.scanIsEnd rid then .ok rid else f.scanPages rid (f.numPages - rid.pageNo).toNat rid.pageNo

/-- The constructor of `RmScan`. -/
def scanBegin (f : RmFileHandle) : Except RmError Rid := f.scanNext ⟨RM_FIRST_RECORD_PAGE, -1⟩

/-- `RmScan` as a cursor: its position is the rid. -/
def rmScan (f : RmFileHandle) : Cursor Rid RmError Rid where
  isEnd := f.scanIsEnd
  read := .ok
  next := f.scanNext

/-! ### What a scan has before it -/

/-- The slots in use of a page, from slot `start` on. -/
def pageRids (f : RmFileHandle) (pageNo : ℤ) (start : ℕ) : List Rid :=
  ((List.range' start (f.numRecordsPerPage - start)).filter (f.isSet (f.pages pageNo))).map fun i : ℕ => ⟨pageNo, i⟩

/-- The slots in use of `bound` pages, in the first of them from slot `start` on. -/
def ridsFrom (f : RmFileHandle) : ℕ → ℤ → ℕ → List Rid
  | 0, _, _ => []
  | bound + 1, pageNo, start => f.pageRids pageNo start ++ ridsFrom f bound (pageNo + 1) 0

/-- The slots in use of the file, in the order of a scan. -/
def rids (f : RmFileHandle) : List Rid :=
  f.ridsFrom (f.numPages - RM_FIRST_RECORD_PAGE).toNat RM_FIRST_RECORD_PAGE 0

/-- The slots in use behind a rid. -/
def ridsAfter (f : RmFileHandle) (rid : Rid) : List Rid :=
  f.ridsFrom (f.numPages - rid.pageNo).toNat rid.pageNo (rid.slotNo + 1).toNat

end RmFileHandle

/-- A set bit is the first of those from `i` on, and the others are behind it. -/
theorem nextBitFrom_spec (set : ℕ → Bool) (maxN : ℕ) : ∀ bound i : ℕ, i + bound = maxN →
    match (List.range' i bound).filter set with
    | [] => nextBitFrom set maxN bound i = maxN
    | j :: rest => nextBitFrom set maxN bound i = j ∧ j < maxN ∧ rest = (List.range' (j + 1) (maxN - (j + 1))).filter set
  | 0, i, _ => by simp [nextBitFrom]
  | bound + 1, i, h => by
    rw [List.range'_succ, List.filter_cons]
    by_cases hi : set i = true
    · simp only [hi, if_true, nextBitFrom]
      refine ⟨trivial, by omega, ?_⟩
      rw [show maxN - (i + 1) = bound by omega]
    · simp only [hi, Bool.false_eq_true, if_false, nextBitFrom]
      exact nextBitFrom_spec set maxN bound (i + 1) (by omega)

namespace RmFileHandle

/-- The loop of `next` finds the first slot in use. -/
theorem scanPages_spec {f : RmFileHandle} {rid : Rid} (hslot : rid.slotNo < f.numRecordsPerPage) :
    ∀ (bound : ℕ) (pageNo : ℤ), RM_FIRST_RECORD_PAGE ≤ pageNo → rid.pageNo ≤ pageNo → pageNo + bound = f.numPages →
      match f.ridsFrom bound pageNo ((if pageNo = rid.pageNo then rid.slotNo else -1) + 1).toNat with
      | [] => f.scanPages rid bound pageNo = .ok ⟨f.numPages, -1⟩
      | r :: rest => f.scanPages rid bound pageNo = .ok r ∧ rest = f.ridsAfter r ∧
          RM_FIRST_RECORD_PAGE ≤ r.pageNo ∧ r.pageNo < f.numPages ∧ r.slotNo < f.numRecordsPerPage
  | 0, pageNo, _, _, _ => rfl
  | bound + 1, pageNo, hfirst, hle, hlast => by
    have hfetch : f.fetchPageHandle pageNo = .ok (f.pages pageNo) := by
      unfold fetchPageHandle
      rw [if_neg (by push_cast at hlast; omega)]
    have hrest := scanPages_spec hslot bound (pageNo + 1) (by omega) (by omega) (by push_cast at hlast; omega)
    rw [if_neg (by omega), show ((-1 : ℤ) + 1).toNat = 0 from rfl] at hrest
    obtain ⟨start, hstart⟩ : ∃ s, ((if pageNo = rid.pageNo then rid.slotNo else -1) + 1).toNat = s := ⟨_, rfl⟩
    have hle : start ≤ f.numRecordsPerPage := by
      rw [← hstart]
      split_ifs <;> omega
    have hbit := nextBitFrom_spec (f.isSet (f.pages pageNo)) f.numRecordsPerPage (f.numRecordsPerPage - start) start (by omega)
    simp only [scanPages, ridsFrom, pageRids, hfetch, hstart, bind, Except.bind]
    split at hbit
    · next hnil =>
      rw [hnil, hbit, List.map_nil, List.nil_append, if_neg (lt_irrefl _)]
      exact hrest
    · next j rest hcons =>
      obtain ⟨hj, hlt, hrest'⟩ := hbit
      rw [hcons, hj, if_pos hlt]
      have hlast' : pageNo < f.numPages := by push_cast at hlast; omega
      refine ⟨rfl, ?_, hfirst, hlast', Int.ofNat_lt.mpr hlt⟩
      -- the slots of this page behind `j`, and the pages behind this one
      have hb : (f.numPages - pageNo).toNat = bound + 1 := by omega
      simp only [ridsAfter, hb, ridsFrom, pageRids, hrest', show ((j : ℤ) + 1).toNat = j + 1 by omega]
      rfl

/-- From a rid of the file a scan visits the slots in use behind it, and ends. -/
theorem scanNext_visits {f : RmFileHandle} : ∀ (L : List Rid) (rid : Rid), f.ridsAfter rid = L →
    RM_FIRST_RECORD_PAGE ≤ rid.pageNo → rid.slotNo < f.numRecordsPerPage → rid.pageNo < f.numPages →
    ∃ rid₁ rid', f.scanNext rid = .ok rid₁ ∧ f.rmScan.Visits rid₁ L rid' ∧ f.scanIsEnd rid' = true
  | L, rid, hL, hfirst, hslot, hlast => by
    have h := scanPages_spec hslot (f.numPages - rid.pageNo).toNat rid.pageNo hfirst le_rfl (by omega)
    rw [if_pos rfl] at h
    change match f.ridsAfter rid with | [] => _ | r :: rest => _ at h
    rw [hL] at h
    have hnext : f.scanNext rid = f.scanPages rid (f.numPages - rid.pageNo).toNat rid.pageNo := by
      unfold scanNext scanIsEnd
      rw [decide_eq_false (by omega)]
      rfl
    rw [hnext]
    match L, h with
    | [], h => exact ⟨_, _, h, .nil _, by simp [scanIsEnd]⟩
    | r :: L, ⟨h, hr, h1, h2, h3⟩ =>
      obtain ⟨r₁, r', hr₁, hv, hend⟩ := scanNext_visits L r hr.symm h1 h3 h2
      refine ⟨r, r', h, .cons ?_ rfl hr₁ hv, hend⟩
      exact decide_eq_false (by omega)

/-- **A scan of the file** visits its slots in use, and ends. -/
theorem scan_visits (f : RmFileHandle) :
    ∃ rid₁ rid', f.scanBegin = .ok rid₁ ∧ f.rmScan.Visits rid₁ f.rids rid' ∧ f.rmScan.isEnd rid' = true := by
  by_cases hlast : RM_FIRST_RECORD_PAGE < f.numPages
  · exact scanNext_visits f.rids ⟨RM_FIRST_RECORD_PAGE, -1⟩ rfl le_rfl (by simp; omega) hlast
  · have hend : f.scanIsEnd ⟨RM_FIRST_RECORD_PAGE, -1⟩ = true := decide_eq_true (not_lt.mp hlast)
    refine ⟨⟨RM_FIRST_RECORD_PAGE, -1⟩, ⟨RM_FIRST_RECORD_PAGE, -1⟩, ?_, ?_, hend⟩
    · unfold scanBegin scanNext
      rw [hend]
      rfl
    · have : f.rids = [] := by
        unfold rids
        rw [show (f.numPages - RM_FIRST_RECORD_PAGE).toNat = 0 by omega]
        rfl
      rw [this]
      exact .nil _

/-! ### The slots in use are those with a record -/

theorem mem_pageRids {f : RmFileHandle} {pageNo : ℤ} {start : ℕ} {r : Rid} :
    r ∈ f.pageRids pageNo start ↔
      r.pageNo = pageNo ∧ (start : ℤ) ≤ r.slotNo ∧ (f.slot (f.pages pageNo) r.slotNo).isSome := by
  unfold pageRids
  simp only [List.mem_map, List.mem_filter, List.mem_range'_1, isSet]
  constructor
  · rintro ⟨i, ⟨⟨h1, -⟩, h2⟩, rfl⟩
    exact ⟨rfl, Int.ofNat_le.mpr h1, h2⟩
  · rintro ⟨hp, h1, h2⟩
    have hlt : r.slotNo < f.numRecordsPerPage := by
      unfold slot at h2
      by_contra hno
      rw [if_neg (by omega)] at h2
      cases h2
    refine ⟨r.slotNo.toNat, ⟨⟨by omega, by omega⟩, ?_⟩, ?_⟩
    · rwa [Int.toNat_of_nonneg (by omega)]
    · rw [Int.toNat_of_nonneg (by omega), ← hp]

theorem mem_ridsFrom {f : RmFileHandle} {r : Rid} : ∀ {bound : ℕ} {pageNo : ℤ},
    r ∈ f.ridsFrom bound pageNo 0 ↔
      pageNo ≤ r.pageNo ∧ r.pageNo < pageNo + bound ∧ (f.slot (f.pages r.pageNo) r.slotNo).isSome
  | 0, pageNo => by
    simp only [ridsFrom, List.not_mem_nil, false_iff]
    push_cast
    omega
  | bound + 1, pageNo => by
    simp only [ridsFrom, List.mem_append, mem_pageRids, @mem_ridsFrom f r bound]
    constructor
    · rintro (⟨rfl, -, h⟩ | ⟨h1, h2, h⟩)
      · exact ⟨le_rfl, by push_cast; omega, h⟩
      · exact ⟨by omega, by push_cast at h2 ⊢; omega, h⟩
    · rintro ⟨h1, h2, h⟩
      by_cases hp : r.pageNo = pageNo
      · refine Or.inl ⟨hp, ?_, hp ▸ h⟩
        unfold slot at h
        by_contra hno
        rw [if_neg (by push_cast at hno; omega)] at h
        cases h
      · exact Or.inr ⟨by omega, by push_cast at h2 ⊢; omega, h⟩

/-- **A scan finds a rid** exactly when a record is stored there. -/
theorem mem_rids {f : RmFileHandle} {r : Rid} : r ∈ f.rids ↔ (f.records r).isSome := by
  unfold rids records
  rw [mem_ridsFrom]
  constructor
  · rintro ⟨h1, h2, h⟩
    rwa [if_pos ⟨h1, by omega⟩]
  · intro h
    split_ifs at h with hp
    · exact ⟨hp.1, by have := hp.2; have := hp.1; omega, h⟩
    · cases h

theorem nodup_pageRids (f : RmFileHandle) (pageNo : ℤ) (start : ℕ) : (f.pageRids pageNo start).Nodup := by
  refine List.Nodup.map ?_ (List.Nodup.filter _ List.nodup_range')
  intro i j h
  exact Int.ofNat_inj.mp (congrArg Rid.slotNo h)

theorem nodup_ridsFrom (f : RmFileHandle) : ∀ (bound : ℕ) (pageNo : ℤ) (start : ℕ), (f.ridsFrom bound pageNo start).Nodup
  | 0, _, _ => List.nodup_nil
  | bound + 1, pageNo, start => by
    refine List.nodup_append.mpr ⟨f.nodup_pageRids pageNo start, nodup_ridsFrom f bound (pageNo + 1) 0, ?_⟩
    rintro a ha _ hb rfl
    have h1 := (mem_pageRids.mp ha).1
    have h2 := (mem_ridsFrom.mp hb).1
    omega

/-- A scan finds no rid twice. -/
theorem nodup_rids (f : RmFileHandle) : f.rids.Nodup := f.nodup_ridsFrom _ _ _

/-! ### The order of a scan -/

/-- Page by page, and slot by slot in a page. -/
def Precedes (a b : Rid) : Prop := a.pageNo < b.pageNo ∨ a.pageNo = b.pageNo ∧ a.slotNo < b.slotNo

theorem pairwise_pageRids (f : RmFileHandle) (pageNo : ℤ) (start : ℕ) : (f.pageRids pageNo start).Pairwise Precedes := by
  have hslots := (List.pairwise_lt_range' (s := start) (n := f.numRecordsPerPage - start)).filter (f.isSet (f.pages pageNo))
  exact List.pairwise_map.mpr (hslots.imp fun hlt => Or.inr ⟨rfl, Int.ofNat_lt.mpr hlt⟩)

theorem pairwise_ridsFrom (f : RmFileHandle) : ∀ (bound : ℕ) (pageNo : ℤ) (start : ℕ),
    (f.ridsFrom bound pageNo start).Pairwise Precedes
  | 0, _, _ => List.Pairwise.nil
  | bound + 1, pageNo, start => by
    refine List.pairwise_append.mpr ⟨f.pairwise_pageRids pageNo start, pairwise_ridsFrom f bound (pageNo + 1) 0, ?_⟩
    intro a ha b hb
    have hpage := (mem_pageRids.mp ha).1
    have hbehind := (mem_ridsFrom.mp hb).1
    exact Or.inl (by omega)

theorem pairwise_rids (f : RmFileHandle) : f.rids.Pairwise Precedes := f.pairwise_ridsFrom _ _ _

/-- **A scan visits every record once**, in increasing order, and nothing else, and then it is at the end. -/
theorem scan_once (f : RmFileHandle) : ∃ visited rid₁ rid', f.scanBegin = .ok rid₁ ∧ f.rmScan.Visits rid₁ visited rid' ∧
    f.rmScan.isEnd rid' = true ∧ visited.Pairwise Precedes ∧
    ∀ rid, visited.count rid = if (f.records rid).isSome then 1 else 0 := by
  obtain ⟨rid₁, rid', hbegin, hvisits, hend⟩ := f.scan_visits
  refine ⟨f.rids, rid₁, rid', hbegin, hvisits, hend, f.pairwise_rids, ?_⟩
  intro rid
  split_ifs with hrec
  · exact List.count_eq_one_of_mem f.nodup_rids (mem_rids.mpr hrec)
  · exact List.count_eq_zero_of_not_mem (mt mem_rids.mp hrec)

end RmFileHandle

end Rmdb.Record
