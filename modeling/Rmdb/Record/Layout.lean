import Rmdb.Common.Word
import Rmdb.Record.Bitmap
import Rmdb.Storage.BufferPool

/-!
# The bytes of a record file

The layout of the pages of a record file. Page `0` starts with `RmFileHdr`, five `int`s. A
record page has, after its LSN, `RmPageHdr`, the bitmap and the slots (`RmPageHandle`).
`pageOf` reads a record page; every write the record manager makes to a page changes what
is read in the part it is meant for and nowhere else, as long as the parts fit into a page
(`Layout`), which they do for every record size that `create_file` accepts
(`layout_create`).
-/

namespace Rmdb.Record

open Lib
open Storage (PageData)

/-! ### Integers -/

/-- A number that fits into an `int`. -/
def InInt (x : ℤ) : Prop := -2 ^ 31 ≤ x ∧ x < 2 ^ 31

/-- The `int` at an offset of a page. -/
def intAt (data : PageData) (offset : ℕ) : ℤ := leInt 4 (cellsAt data offset 4)

/-- Write an `int`. -/
def setInt (data : PageData) (offset : ℕ) (x : ℤ) : PageData := copyTo data offset (intBytes 4 x)

@[simp] theorem length_intBytes (w : ℕ) (x : ℤ) : (intBytes w x).length = w := length_leBytes w _

theorem leInt_intBytes {x : ℤ} (h : InInt x) : leInt 4 (intBytes 4 x) = x := by
  obtain ⟨h1, h2⟩ := h
  have hnat : leNat 4 (intBytes 4 x) = (x % 2 ^ 32).toNat := by
    have h := leNat_leBytes 4 (x % 2 ^ (8 * 4)).toNat []
    rw [List.append_nil] at h
    unfold intBytes
    rw [h]
    omega
  unfold leInt
  rw [hnat]
  split <;> omega

variable {data : PageData}

theorem intAt_setInt {offset : ℕ} {x : ℤ} (h : offset + 4 ≤ Storage.PAGE_SIZE) (hx : InInt x) :
    intAt (setInt data offset x) offset = x := by
  unfold intAt setInt
  rw [cellsAt_copyTo h (length_intBytes 4 x), leInt_intBytes hx]

theorem intAt_copyTo {offset off : ℕ} {src : Bytes} (h : offset + src.length ≤ Storage.PAGE_SIZE)
    (hd : offset + src.length ≤ off ∨ off + 4 ≤ offset) : intAt (copyTo data offset src) off = intAt data off := by
  unfold intAt
  rw [cellsAt_copyTo_of_disjoint h hd]

/-! ### The file header -/

/-- `RmFileHdr`. -/
structure RmFileHdr where
  /-- `record_size`. -/
  recordSize : ℕ
  /-- `num_pages`. -/
  numPages : ℤ
  /-- `num_records_per_page`. -/
  numRecordsPerPage : ℕ
  /-- `first_free_page_no`. -/
  firstFreePageNo : ℤ
  /-- `bitmap_size`. -/
  bitmapSize : ℕ
deriving DecidableEq

namespace RmFileHdr

/-- The bytes of the header. -/
def bytes (hdr : RmFileHdr) : Bytes :=
  intBytes 4 hdr.recordSize ++ intBytes 4 hdr.numPages ++ intBytes 4 hdr.numRecordsPerPage ++
    intBytes 4 hdr.firstFreePageNo ++ intBytes 4 hdr.bitmapSize

/-- The header in a buffer. -/
def ofBytes (src : Bytes) : RmFileHdr where
  recordSize := (leInt 4 ((src.drop 0).take 4)).toNat
  numPages := leInt 4 ((src.drop 4).take 4)
  numRecordsPerPage := (leInt 4 ((src.drop 8).take 4)).toNat
  firstFreePageNo := leInt 4 ((src.drop 12).take 4)
  bitmapSize := (leInt 4 ((src.drop 16).take 4)).toNat

@[simp] theorem length_bytes (hdr : RmFileHdr) : hdr.bytes.length = 20 := by
  simp [bytes]

/-- The numbers of the header fit into `int`s. -/
structure Fits (hdr : RmFileHdr) : Prop where
  recordSize : InInt hdr.recordSize
  numPages : InInt hdr.numPages
  numRecordsPerPage : InInt hdr.numRecordsPerPage
  firstFreePageNo : InInt hdr.firstFreePageNo
  bitmapSize : InInt hdr.bitmapSize

theorem leInt_part (A B : Bytes) {l : Bytes} {k : ℕ} {x : ℤ} (hx : InInt x) (hl : l = A ++ (intBytes 4 x ++ B))
    (hk : k = A.length) : leInt 4 ((l.drop k).take 4) = x := by
  subst hl hk
  rw [List.drop_left, List.take_append_of_le_length (by simp), List.take_of_length_le (by simp), leInt_intBytes hx]

/-- A header that is written and read again. -/
theorem ofBytes_bytes {hdr : RmFileHdr} (h : hdr.Fits) : ofBytes hdr.bytes = hdr := by
  obtain ⟨size, pages, per, first, bitmap⟩ := hdr
  have h1 := leInt_part [] (intBytes 4 pages ++ intBytes 4 per ++ intBytes 4 first ++ intBytes 4 bitmap) (k := 0)
    h.recordSize rfl rfl
  have h2 := leInt_part (intBytes 4 size) (intBytes 4 per ++ intBytes 4 first ++ intBytes 4 bitmap) (k := 4)
    h.numPages rfl (by simp)
  have h3 := leInt_part (intBytes 4 size ++ intBytes 4 pages) (intBytes 4 first ++ intBytes 4 bitmap) (k := 8)
    h.numRecordsPerPage rfl (by simp)
  have h4 := leInt_part (intBytes 4 size ++ intBytes 4 pages ++ intBytes 4 per) (intBytes 4 bitmap) (k := 12)
    h.firstFreePageNo rfl (by simp)
  have h5 := leInt_part (intBytes 4 size ++ intBytes 4 pages ++ intBytes 4 per ++ intBytes 4 first) [] (k := 16)
    h.bitmapSize rfl (by simp)
  simp only [List.nil_append, List.append_nil, List.append_assoc] at h1 h2 h3 h4 h5
  simp only [ofBytes, bytes, List.append_assoc, h1, h2, h3, h4, h5, Int.toNat_natCast]

end RmFileHdr

/-! ### Record pages -/

/-- `OFFSET_PAGE_HDR`. -/
def OFFSET_PAGE_HDR : ℕ := 4

/-- The size of `RmPageHdr`: two ints. -/
def sizeofRmPageHdr : ℕ := 8

/-- The address of `next_free_page_no` in a page. -/
def nextFreePageNoAt : ℕ := OFFSET_PAGE_HDR

/-- The address of `num_records` in a page. -/
def numRecordsAt : ℕ := OFFSET_PAGE_HDR + 4

/-- `RmPageHandle::bitmap`: its address in a page. -/
def bitmapAt : ℕ := sizeofRmPageHdr + OFFSET_PAGE_HDR

/-- `RmPageHandle::slots`: their address in a page. -/
def slotsAt (hdr : RmFileHdr) : ℕ := bitmapAt + hdr.bitmapSize

/-- `RmPageHandle::get_slot`: the address of a slot in a page. -/
def getSlot (hdr : RmFileHdr) (slotNo : ℕ) : ℕ := slotsAt hdr + slotNo * hdr.recordSize

/-- The slots of a page: those in use with their bytes. -/
def slotsOf (hdr : RmFileHdr) (data : PageData) : List (Option Bytes) :=
  (List.range hdr.numRecordsPerPage).map fun i =>
    if Bitmap.isSet data bitmapAt i then some (cellsAt data (getSlot hdr i) hdr.recordSize) else none

/-- The page that the bytes stand for. -/
def pageOf (hdr : RmFileHdr) (data : PageData) : RmPage :=
  ⟨intAt data nextFreePageNoAt, intAt data numRecordsAt, slotsOf hdr data⟩

/-- The parts of a page fit into it, and the bitmap has a bit for every slot. -/
structure Layout (hdr : RmFileHdr) : Prop where
  fits : slotsAt hdr + hdr.numRecordsPerPage * hdr.recordSize ≤ Storage.PAGE_SIZE
  bits : hdr.numRecordsPerPage ≤ 8 * hdr.bitmapSize

section Pages

variable {hdr : RmFileHdr} {i j : ℕ} {x : ℤ} {buf : Bytes}

theorem Layout.slot_fits (h : Layout hdr) (hi : i < hdr.numRecordsPerPage) :
    getSlot hdr i + hdr.recordSize ≤ Storage.PAGE_SIZE := by
  have hle : (i + 1) * hdr.recordSize ≤ hdr.numRecordsPerPage * hdr.recordSize := Nat.mul_le_mul_right _ hi
  have := h.fits
  rw [Nat.succ_mul] at hle
  unfold getSlot
  omega

theorem Layout.bucket (h : Layout hdr) (hi : i < hdr.numRecordsPerPage) : Bitmap.getBucket i < hdr.bitmapSize := by
  have := h.bits
  unfold Bitmap.getBucket
  omega

theorem Layout.bitmap_fits (h : Layout hdr) : bitmapAt + hdr.bitmapSize ≤ Storage.PAGE_SIZE := by
  have := h.fits
  unfold slotsAt at this
  omega

theorem Layout.bucket_fits (h : Layout hdr) (hi : i < hdr.numRecordsPerPage) :
    bitmapAt + Bitmap.getBucket i < Storage.PAGE_SIZE := by
  have := h.bitmap_fits
  have := h.bucket hi
  omega

/-- Two slots do not overlap. -/
theorem getSlot_disjoint (hdr : RmFileHdr) (hij : i ≠ j) : getSlot hdr i + hdr.recordSize ≤ getSlot hdr j ∨
    getSlot hdr j + hdr.recordSize ≤ getSlot hdr i := by
  unfold getSlot
  rcases Nat.lt_or_gt_of_ne hij with hlt | hlt
  · have hle : (i + 1) * hdr.recordSize ≤ j * hdr.recordSize := Nat.mul_le_mul_right _ hlt
    rw [Nat.succ_mul] at hle
    omega
  · have hle : (j + 1) * hdr.recordSize ≤ i * hdr.recordSize := Nat.mul_le_mul_right _ hlt
    rw [Nat.succ_mul] at hle
    omega

theorem bitmapAt_le_getSlot (hdr : RmFileHdr) (i : ℕ) : bitmapAt + hdr.bitmapSize ≤ getSlot hdr i := by
  unfold getSlot slotsAt
  omega

theorem slotsOf_length : (slotsOf hdr data).length = hdr.numRecordsPerPage := by
  simp [slotsOf]

theorem getElem?_slotsOf (hi : i < hdr.numRecordsPerPage) : (slotsOf hdr data)[i]? =
    some (if Bitmap.isSet data bitmapAt i then some (cellsAt data (getSlot hdr i) hdr.recordSize) else none) := by
  simp [slotsOf, hi]

/-- A change to one slot. -/
theorem slotsOf_eq_set {data' : PageData} {o : Option Bytes}
    (hself : (if Bitmap.isSet data' bitmapAt i then some (cellsAt data' (getSlot hdr i) hdr.recordSize) else none) = o)
    (hothers : ∀ j < hdr.numRecordsPerPage, j ≠ i → Bitmap.isSet data' bitmapAt j = Bitmap.isSet data bitmapAt j ∧
      cellsAt data' (getSlot hdr j) hdr.recordSize = cellsAt data (getSlot hdr j) hdr.recordSize) :
    slotsOf hdr data' = (slotsOf hdr data).set i o := by
  refine List.ext_getElem? ?_
  intro j
  by_cases hj : j < hdr.numRecordsPerPage
  · by_cases hji : j = i
    · subst hji
      rw [getElem?_slotsOf hj, hself, List.getElem?_set_self (by rw [slotsOf_length]; exact hj)]
    · obtain ⟨hset, hcells⟩ := hothers j hj hji
      rw [getElem?_slotsOf hj, List.getElem?_set_ne (Ne.symm hji), getElem?_slotsOf hj, hset, hcells]
  · rw [List.getElem?_eq_none (by rw [slotsOf_length]; omega),
      List.getElem?_eq_none (by rw [List.length_set, slotsOf_length]; omega)]

/-- A write before the bitmap leaves the slots alone. -/
theorem slotsOf_copyTo_header (h : Layout hdr) {offset : ℕ} {src : Bytes} (ho : offset + src.length ≤ bitmapAt) :
    slotsOf hdr (copyTo data offset src) = slotsOf hdr data := by
  have hpage : offset + src.length ≤ Storage.PAGE_SIZE := by
    have := h.bitmap_fits
    omega
  refine List.map_congr_left ?_
  intro j _
  have hslot := bitmapAt_le_getSlot hdr j
  rw [Bitmap.isSet_copyTo_of_disjoint hpage (by omega), cellsAt_copyTo_of_disjoint hpage (by omega)]

/-- A write behind the page header leaves it alone. -/
theorem intAt_copyTo_header {offset off : ℕ} {src : Bytes} (h : offset + src.length ≤ Storage.PAGE_SIZE)
    (ho : bitmapAt ≤ offset) (hoff : off + 4 ≤ bitmapAt) : intAt (copyTo data offset src) off = intAt data off :=
  intAt_copyTo h (Or.inr (hoff.trans ho))

/-- `page_hdr->next_free_page_no = x`. -/
theorem pageOf_setNextFreePageNo (h : Layout hdr) (hx : InInt x) :
    pageOf hdr (setInt data nextFreePageNoAt x) = { pageOf hdr data with nextFreePageNo := x } := by
  have hnum : intAt (setInt data nextFreePageNoAt x) numRecordsAt = intAt data numRecordsAt :=
    intAt_copyTo (by rw [length_intBytes]; decide) (Or.inl (by rw [length_intBytes]; decide))
  unfold pageOf
  rw [intAt_setInt (by decide) hx, hnum, setInt, slotsOf_copyTo_header h (by rw [length_intBytes]; decide)]

/-- `page_hdr->num_records = x`. -/
theorem pageOf_setNumRecords (h : Layout hdr) (hx : InInt x) :
    pageOf hdr (setInt data numRecordsAt x) = { pageOf hdr data with numRecords := x } := by
  have hnext : intAt (setInt data numRecordsAt x) nextFreePageNoAt = intAt data nextFreePageNoAt :=
    intAt_copyTo (by rw [length_intBytes]; decide) (Or.inr (by decide))
  unfold pageOf
  rw [intAt_setInt (by decide) hx, hnext, setInt, slotsOf_copyTo_header h (by rw [length_intBytes]; decide)]

/-- The bytes of a slot are written. -/
theorem pageOf_writeSlot (h : Layout hdr) (hi : i < hdr.numRecordsPerPage) (hbuf : buf.length = hdr.recordSize)
    (hset : Bitmap.isSet data bitmapAt i = true) :
    pageOf hdr (copyTo data (getSlot hdr i) buf) =
      { pageOf hdr data with slots := (pageOf hdr data).slots.set i (some buf) } := by
  have hfits := h.slot_fits hi
  have hfits' : getSlot hdr i + buf.length ≤ Storage.PAGE_SIZE := by omega
  have hafter := bitmapAt_le_getSlot hdr i
  have hbits : ∀ j < hdr.numRecordsPerPage, Bitmap.isSet (copyTo data (getSlot hdr i) buf) bitmapAt j =
      Bitmap.isSet data bitmapAt j := fun j hj => by
    have := h.bucket hj
    exact Bitmap.isSet_copyTo_of_disjoint hfits' (by omega)
  unfold pageOf
  rw [intAt_copyTo_header hfits' (by omega) (by decide), intAt_copyTo_header hfits' (by omega) (by decide),
    slotsOf_eq_set (i := i) (o := some buf)]
  · rw [hbits i hi, if_pos hset, cellsAt_copyTo hfits hbuf]
  · intro j hj hji
    have hdisj := getSlot_disjoint hdr hji
    exact ⟨hbits j hj, cellsAt_copyTo_of_disjoint hfits' (by omega)⟩

/-- A change of one bit leaves the page header and the slots' bytes alone. -/
theorem copyTo_bit (data : PageData) (h : Layout hdr) (hi : i < hdr.numRecordsPerPage) (c : UInt8) :
    intAt (copyTo data (bitmapAt + Bitmap.getBucket i) [c]) nextFreePageNoAt = intAt data nextFreePageNoAt ∧
      intAt (copyTo data (bitmapAt + Bitmap.getBucket i) [c]) numRecordsAt = intAt data numRecordsAt ∧
      ∀ j, cellsAt (copyTo data (bitmapAt + Bitmap.getBucket i) [c]) (getSlot hdr j) hdr.recordSize =
        cellsAt data (getSlot hdr j) hdr.recordSize := by
  have hpage := h.bucket_fits hi
  have hbucket := h.bucket hi
  have hpage' : bitmapAt + Bitmap.getBucket i + [c].length ≤ Storage.PAGE_SIZE := hpage
  refine ⟨intAt_copyTo_header hpage' (by omega) (by decide), intAt_copyTo_header hpage' (by omega) (by decide),
    fun j => cellsAt_copyTo_of_disjoint hpage' (Or.inl ?_)⟩
  have hafter := bitmapAt_le_getSlot hdr j
  simp only [List.length_singleton]
  omega

/-- `Bitmap::reset`: a record is gone. -/
theorem pageOf_reset (data : PageData) (h : Layout hdr) (hi : i < hdr.numRecordsPerPage) :
    pageOf hdr (Bitmap.reset data bitmapAt i) =
      { pageOf hdr data with slots := (pageOf hdr data).slots.set i none } := by
  obtain ⟨hnext, hnum, hcells⟩ := copyTo_bit data h hi
    (Bitmap.resetChar (cellAt data (bitmapAt + Bitmap.getBucket i)) i)
  have hbit : ∀ j, Bitmap.isSet (Bitmap.reset data bitmapAt i) bitmapAt j =
      (!decide (j = i) && Bitmap.isSet data bitmapAt j) := fun j => Bitmap.isSet_reset (h.bucket_fits hi)
  have hslots : slotsOf hdr (Bitmap.reset data bitmapAt i) = (slotsOf hdr data).set i none := by
    refine slotsOf_eq_set ?_ fun j _ hji => ⟨?_, hcells j⟩
    · rw [hbit]
      simp
    · rw [hbit, decide_eq_false hji, Bool.not_false, Bool.true_and]
  unfold pageOf
  rw [hslots, show intAt (Bitmap.reset data bitmapAt i) nextFreePageNoAt = _ from hnext,
    show intAt (Bitmap.reset data bitmapAt i) numRecordsAt = _ from hnum]

/-- `Bitmap::set` and the bytes: a new record. -/
theorem pageOf_putSlot (data : PageData) (h : Layout hdr) (hi : i < hdr.numRecordsPerPage) (hbuf : buf.length = hdr.recordSize) :
    pageOf hdr (copyTo (Bitmap.set data bitmapAt i) (getSlot hdr i) buf) =
      { pageOf hdr data with slots := (pageOf hdr data).slots.set i (some buf) } := by
  obtain ⟨hnext, hnum, hcells⟩ := copyTo_bit data h hi
    (Bitmap.setChar (cellAt data (bitmapAt + Bitmap.getBucket i)) i)
  have hbit : ∀ j, Bitmap.isSet (Bitmap.set data bitmapAt i) bitmapAt j =
      (decide (j = i) || Bitmap.isSet data bitmapAt j) := fun j => Bitmap.isSet_set (h.bucket_fits hi)
  have hslots : slotsOf hdr (Bitmap.set data bitmapAt i) =
      (slotsOf hdr data).set i (some (cellsAt data (getSlot hdr i) hdr.recordSize)) := by
    refine slotsOf_eq_set ?_ fun j _ hji => ⟨?_, hcells j⟩
    · rw [hbit, decide_eq_true rfl, Bool.true_or, if_pos rfl]
      exact congrArg some (hcells i)
    · rw [hbit, decide_eq_false hji, Bool.false_or]
  rw [pageOf_writeSlot h hi hbuf (by rw [hbit]; simp)]
  unfold pageOf
  rw [hslots, List.set_set, show intAt (Bitmap.set data bitmapAt i) nextFreePageNoAt = _ from hnext,
    show intAt (Bitmap.set data bitmapAt i) numRecordsAt = _ from hnum]

/-- The page of `create_new_page_handle`. -/
theorem pageOf_init (h : Layout hdr) (hx : InInt x) :
    pageOf hdr (Bitmap.init (setInt (setInt data nextFreePageNoAt x) numRecordsAt 0) bitmapAt hdr.bitmapSize) =
      ⟨x, 0, List.replicate hdr.numRecordsPerPage none⟩ := by
  have hfits := h.bitmap_fits
  have hlen : bitmapAt + (List.replicate hdr.bitmapSize (0 : UInt8)).length ≤ Storage.PAGE_SIZE := by
    simpa using hfits
  have hslots : ∀ data : PageData, slotsOf hdr (Bitmap.init data bitmapAt hdr.bitmapSize) =
      List.replicate hdr.numRecordsPerPage none := fun data => by
    refine List.eq_replicate_iff.mpr ⟨slotsOf_length, ?_⟩
    intro o ho
    obtain ⟨j, hj, rfl⟩ := List.mem_map.mp ho
    rw [Bitmap.isSet_init hfits (h.bucket (List.mem_range.mp hj)), if_neg Bool.false_ne_true]
  have hpage : pageOf hdr (setInt (setInt data nextFreePageNoAt x) numRecordsAt 0) =
      { pageOf hdr data with nextFreePageNo := x, numRecords := 0 } := by
    rw [pageOf_setNumRecords h (by unfold InInt; omega), pageOf_setNextFreePageNo h hx]
  unfold pageOf at hpage ⊢
  rw [hslots]
  unfold Bitmap.init
  rw [intAt_copyTo_header hlen (le_refl _) (by decide), intAt_copyTo_header hlen (le_refl _) (by decide)]
  injection hpage with h1 h2 h3
  rw [h1, h2]

/-- `first_bit(false)` finds the first free slot. -/
theorem firstBit_slotsOf : Bitmap.firstBit false data bitmapAt hdr.numRecordsPerPage =
    (slotsOf hdr data).findIdx (·.isNone) := by
  rw [Bitmap.firstBit_eq, slotsOf, List.findIdx_map]
  congr 1
  funext j
  cases hj : Bitmap.isSet data bitmapAt j <;> simp [hj]

end Pages

/-! ### A new file -/

/-- The file header that `create_file` writes. -/
def createHdr (recordSize : ℤ) : RmFileHdr :=
  let numRecordsPerPage := (BITMAP_WIDTH * (PAGE_SIZE - 1 - sizeofRmFileHdr) + 1) / (1 + recordSize * BITMAP_WIDTH)
  { recordSize := recordSize.toNat
    numPages := 1
    numRecordsPerPage := numRecordsPerPage.toNat
    firstFreePageNo := RM_NO_PAGE
    bitmapSize := ((numRecordsPerPage + BITMAP_WIDTH - 1) / BITMAP_WIDTH).toNat }

/-- A page has at least one slot, and all parts of it have room. -/
theorem layout_create {recordSize : ℤ} (h1 : 1 ≤ recordSize) (h2 : recordSize ≤ RM_MAX_RECORD_SIZE) :
    Layout (createHdr recordSize) ∧ (createHdr recordSize).Fits ∧ 0 < (createHdr recordSize).numRecordsPerPage := by
  obtain ⟨r, rfl⟩ := Int.eq_ofNat_of_zero_le (show 0 ≤ recordSize by omega)
  have hr : r ≤ 512 := by unfold RM_MAX_RECORD_SIZE at h2; omega
  set n : ℕ := 32601 / (1 + r * 8) with hn
  have hper : (BITMAP_WIDTH * (PAGE_SIZE - 1 - sizeofRmFileHdr) + 1) / (1 + (r : ℤ) * BITMAP_WIDTH) = (n : ℤ) := by
    rw [hn, Int.natCast_ediv]
    rfl
  have hpos : 0 < n := Nat.div_pos (by omega) (by omega)
  have hmul : n * (1 + r * 8) ≤ 32601 := Nat.div_mul_le_self _ _
  have hsum : n * (1 + r * 8) = n + 8 * (n * r) := by
    rw [Nat.mul_add, Nat.mul_one, ← Nat.mul_assoc, Nat.mul_comm (n * r)]
  have hle : n ≤ n * r := Nat.le_mul_of_pos_right n (by omega)
  have heq : createHdr r = ⟨r, 1, n, RM_NO_PAGE, (n + 7) / 8⟩ := by
    unfold createHdr
    simp only [hper, RmFileHdr.mk.injEq, true_and]
    refine ⟨Int.toNat_natCast r, Int.toNat_natCast n, ?_⟩
    unfold BITMAP_WIDTH
    omega
  rw [heq]
  refine ⟨⟨?_, ?_⟩, ⟨?_, ?_, ?_, ?_, ?_⟩, hpos⟩
  · simp only [slotsAt, bitmapAt, sizeofRmPageHdr, OFFSET_PAGE_HDR, Storage.PAGE_SIZE]
    omega
  · simp only
    omega
  all_goals unfold InInt RM_NO_PAGE; simp only; omega

-- what a page says is known by the lemmas above
attribute [irreducible] intAt

end Rmdb.Record
