import Rmdb.Common.Compare
import Rmdb.Lib.Rounds
import Rmdb.Lib.SparseFile
import Rmdb.Storage.BufferPool

/-!
# Reading and writing pages of a file

`DiskManager::write_page` and `read_page`: loops that call `pwrite` and `pread` until all
bytes have been transferred. The operating system may interrupt a call, and it may transfer
fewer bytes than it was asked for; it answers every call of a loop in its own way (`Answer`).
Where every call that is not interrupted transfers something, and not all calls are
interrupted for ever (`Fair`), both loops end. `writePage_spec` and `readPage_spec` say
with what, and `transfers` puts them together.

A page is a part of a file then, and the whole pages that the buffer pool writes and reads
are those of its disk (`pageOf_writePage`, `readPage_pageOf`).

Offsets are computed in `off_t`, which has room for every page number, and `total` never
exceeds the number of bytes.
-/

namespace Rmdb.Storage

open Lib

/-- What the operating system makes of a call. -/
inductive Answer where
  /-- It returns `-1`, with `EINTR`. -/
  | interrupted
  /-- It returns `-1`, with another `errno`. -/
  | failed
  /-- It transfers so many bytes, or as many as there are. -/
  | moved (n : ℕ)
deriving DecidableEq

/-- `errno`. -/
inductive Errno where
  /-- `EINTR`. -/
  | eintr
  /-- Another one. -/
  | other

/-- `InternalError`. -/
structure InternalError where
  /-- Its message. -/
  msg : String
deriving DecidableEq

/-- `pwrite`: the file, and how many bytes were written. -/
def pwrite (answer : Answer) (file : Bytes) (offset : ℤ) (src : Bytes) : Except Errno (Bytes × ℕ) :=
  match answer with
  | .interrupted => .error .eintr
  | .failed => .error .other
  | .moved n =>
    if offset < 0 then .error .other
    else .ok (poke file offset.toNat (src.take n), (src.take n).length)

/-- `pread`: the bytes that were read. -/
def pread (answer : Answer) (file : Bytes) (offset : ℤ) (count : ℕ) : Except Errno Bytes :=
  match answer with
  | .interrupted => .error .eintr
  | .failed => .error .other
  | .moved n => if offset < 0 then .error .other else .ok ((file.drop offset.toNat).take (min n count))

/-- Every call that is not interrupted transfers something, and from some call on no call is interrupted. -/
structure Fair (os : ℕ → Answer) : Prop where
  /-- No call fails, and none transfers nothing. -/
  moves : ∀ call, os call ≠ .failed ∧ os call ≠ .moved 0
  /-- There are finitely many interruptions. -/
  quiet : ∃ n, ∀ call, n ≤ call → os call ≠ .interrupted

namespace DiskManager

/-! ### The loops -/

/-- A round of `write_page`: the calls so far, `total`, and the file. -/
structure Writing where
  /-- How often `pwrite` has been called. -/
  call : ℕ
  /-- `total`. -/
  total : ℕ
  /-- The file. -/
  file : Bytes

/-- A round of the loop of `write_page`. -/
def writeRound (os : ℕ → Answer) (offset : ℤ) (buf : Bytes) (s : Writing) : Except InternalError (Option Writing) :=
  if s.total < buf.length then
    match pwrite (os s.call) s.file (offset + s.total) (buf.drop s.total) with
    | .error .eintr => .ok (some { s with call := s.call + 1 })
    | .error .other => .error ⟨"DiskManager::write_page Error"⟩
    | .ok (file, written) =>
      if written = 0 then .error ⟨"DiskManager::write_page Error"⟩
      else .ok (some ⟨s.call + 1, s.total + written, file⟩)
  else .ok none

/-- `write_page`, in at most so many rounds: the file after it. -/
def writePage (os : ℕ → Answer) (file : Bytes) (pageNo : ℤ) (buf : Bytes) (n : ℕ) : Option (Except InternalError Bytes) :=
  (rounds (writeRound os (pageNo * PAGE_SIZE) buf) n ⟨0, 0, file⟩).map fun r => r.map (·.file)

/-- A round of `read_page`: the calls so far, `total`, the buffer, and whether the loop has been left. -/
structure Reading where
  /-- How often `pread` has been called. -/
  call : ℕ
  /-- `total`. -/
  total : ℕ
  /-- The buffer. -/
  buf : Bytes
  /-- Has the end of the file been reached? -/
  left : Bool

/-- A round of the loop of `read_page`. -/
def readRound (os : ℕ → Answer) (file : Bytes) (offset : ℤ) (numBytes : ℕ) (s : Reading) :
    Except InternalError (Option Reading) :=
  if s.total < numBytes ∧ s.left = false then
    match pread (os s.call) file (offset + s.total) (numBytes - s.total) with
    | .error .eintr => .ok (some { s with call := s.call + 1 })
    | .error .other => .error ⟨"DiskManager::read_page Error"⟩
    | .ok bytes =>
      if bytes = [] then
        .ok (some ⟨s.call + 1, s.total, put s.buf s.total (List.replicate (numBytes - s.total) 0), true⟩)
      else .ok (some ⟨s.call + 1, s.total + bytes.length, put s.buf s.total bytes, false⟩)
  else .ok none

/-- `read_page` into a buffer, in at most so many rounds: the buffer after it. -/
def readPage (os : ℕ → Answer) (file : Bytes) (pageNo : ℤ) (buf : Bytes) (n : ℕ) : Option (Except InternalError Bytes) :=
  (rounds (readRound os file (pageNo * PAGE_SIZE) buf.length) n ⟨0, 0, buf, false⟩).map fun r => r.map (·.buf)

/-- A function ends: enough rounds give its result. -/
def Ends {ρ : Type} (run : ℕ → Option ρ) (result : ρ) : Prop := ∃ n, ∀ m ≥ n, run m = some result

/-- The bytes have been stored at the offset, and no other byte has been changed. -/
structure Stored (file file' : Bytes) (offset : ℕ) (buf : Bytes) : Prop where
  /-- Every byte of the file, where those past its end are zeros. -/
  bytes : ∀ i, peek file' i = if offset ≤ i ∧ i < offset + buf.length then peek buf (i - offset) else peek file i
  /-- The file is as long as it was, or as it has to be. -/
  length : file'.length = if buf = [] then file.length else max file.length (offset + buf.length)

section Write

variable {os : ℕ → Answer} {file buf : Bytes} {offset : ℕ}

/-- So far the first bytes of the buffer have been written. -/
def Written (file buf : Bytes) (offset : ℕ) (s : Writing) : Prop :=
  s.total ≤ buf.length ∧ s.file = poke file offset (buf.take s.total)

/-- **One round** of `write_page`: while there are bytes left it goes on, with an interruption or some bytes less. -/
theorem writeRound_step (hos : Fair os) {n : ℕ} (hquiet : ∀ call, n ≤ call → os call ≠ .interrupted) {s : Writing}
    (hs : Written file buf offset s) (hlt : s.total < buf.length) :
    ∃ s', writeRound os offset buf s = .ok (some s') ∧ Written file buf offset s' ∧
      n - s'.call + (buf.length - s'.total) < n - s.call + (buf.length - s.total) := by
  obtain ⟨-, hfile⟩ := hs
  obtain ⟨hfail, hzero⟩ := hos.moves s.call
  rw [writeRound, if_pos hlt]
  rcases hanswer : os s.call with _ | _ | k
  · have hcall : s.call < n := Nat.lt_of_not_le fun hle => hquiet _ hle hanswer
    exact ⟨_, rfl, ⟨hlt.le, hfile⟩, by simp only; omega⟩
  · exact absurd hanswer hfail
  · have hk : k ≠ 0 := fun hk => hzero (by rw [hanswer, hk])
    have hoff : ¬ (offset : ℤ) + s.total < 0 := by omega
    have hnat : ((offset : ℤ) + s.total).toNat = offset + s.total := by omega
    have hlen : ((buf.drop s.total).take k).length = min k (buf.length - s.total) := by
      rw [List.length_take, List.length_drop]
    have hpos : ((buf.drop s.total).take k).length ≠ 0 := by omega
    have htake : (buf.take s.total).length = s.total := List.length_take_of_le hlt.le
    simp only [pwrite, if_neg hoff, if_neg hpos, hnat]
    refine ⟨_, rfl, ⟨by simp only; omega, ?_⟩, by simp only; omega⟩
    -- the bytes before and the bytes of this round are one write
    have happend : buf.take s.total ++ (buf.drop s.total).take k = buf.take (s.total + ((buf.drop s.total).take k).length) := by
      rw [List.take_add, hlen]
      congr 1
      rw [← List.length_drop, List.take_eq_take_iff]
      omega
    simp only
    rw [hfile, ← happend, ← poke_poke, htake]

/-- **`write_page`** ends, and has written the buffer. -/
theorem writePage_spec (hos : Fair os) (file buf : Bytes) (pageNo : ℕ) :
    Ends (writePage os file pageNo buf) (.ok (poke file (pageNo * PAGE_SIZE) buf)) := by
  obtain ⟨n, hquiet⟩ := hos.quiet
  have hstart : Written file buf (pageNo * PAGE_SIZE) ⟨0, 0, file⟩ := ⟨Nat.zero_le _, by rw [List.take_zero, poke, if_pos rfl]⟩
  obtain ⟨t, ⟨-, hfile⟩, hdone, k, hrun⟩ := rounds_total (C := fun s : Writing => s.total < buf.length)
    (fun s : Writing => n - s.call + (buf.length - s.total)) (fun s hs hlt => writeRound_step hos hquiet hs hlt)
    (fun s hlt => if_neg hlt) hstart
  refine ⟨k, ?_⟩
  intro m hm
  rw [writePage, ← Int.natCast_mul, hrun m hm, Option.map_some, Except.map, hfile, List.take_of_length_le (Nat.le_of_not_lt hdone)]

end Write

section Read

variable {os : ℕ → Answer} {file buf : Bytes} {offset : ℕ}

/-- So far the first bytes have been read, or all of them if the loop has been left. -/
def Read (file buf : Bytes) (offset : ℕ) (s : Reading) : Prop :=
  s.total ≤ buf.length ∧ s.buf.length = buf.length ∧
    if s.left then s.buf = view file offset buf.length else s.buf.take s.total = view file offset s.total

/-- **One round** of `read_page`. -/
theorem readRound_step (hos : Fair os) {n : ℕ} (hquiet : ∀ call, n ≤ call → os call ≠ .interrupted) {s : Reading}
    (hs : Read file buf offset s) (hgo : s.total < buf.length ∧ s.left = false) :
    ∃ s', readRound os file offset buf.length s = .ok (some s') ∧ Read file buf offset s' ∧
      n - s'.call + (buf.length - s'.total) + (!s'.left).toNat < n - s.call + (buf.length - s.total) + (!s.left).toNat := by
  obtain ⟨hlt, hleft⟩ := hgo
  obtain ⟨-, hlen, hview⟩ := hs
  rw [hleft, if_neg Bool.false_ne_true] at hview
  obtain ⟨hfail, hzero⟩ := hos.moves s.call
  rw [readRound, if_pos ⟨hlt, hleft⟩]
  rcases hanswer : os s.call with _ | _ | k
  · have hcall : s.call < n := Nat.lt_of_not_le fun hle => hquiet _ hle hanswer
    refine ⟨_, rfl, ⟨hlt.le, hlen, ?_⟩, by simp only; omega⟩
    simp only [hleft, Bool.false_eq_true, if_false, hview]
  · exact absurd hanswer hfail
  · have hk : k ≠ 0 := fun hk => hzero (by rw [hanswer, hk])
    have hoff : ¬ (offset : ℤ) + s.total < 0 := by omega
    have hnat : ((offset : ℤ) + s.total).toNat = offset + s.total := by omega
    have htake : (s.buf.take s.total).length = s.total := List.length_take_of_le (by omega)
    simp only [pread, if_neg hoff, hnat]
    by_cases heof : file.length ≤ offset + s.total
    · -- the end of the file: the rest is zeros
      have hnil : (file.drop (offset + s.total)).take (min k (buf.length - s.total)) = [] := by
        rw [List.drop_eq_nil_of_le heof, List.take_nil]
      rw [if_pos hnil]
      refine ⟨_, rfl, ⟨hlt.le, ?_, ?_⟩, by simp only [hleft, Bool.not_true, Bool.not_false, Bool.toNat_true, Bool.toNat_false]; omega⟩
      · rw [length_put (by rw [List.length_replicate]; omega), hlen]
      · have hsplit := view_add file offset s.total (buf.length - s.total)
        rw [Nat.add_sub_cancel' hlt.le] at hsplit
        rw [if_pos rfl, hsplit, ← hview, view_past heof, put, List.length_replicate, Nat.add_sub_cancel' hlt.le,
          List.drop_eq_nil_of_le hlen.le, List.append_nil]
        rfl
    · have hbytes : (file.drop (offset + s.total)).take (min k (buf.length - s.total)) =
          view file (offset + s.total) (min (min k (buf.length - s.total)) (file.length - (offset + s.total))) := by
        rw [view_eq_take (by omega), List.take_eq_take_iff, List.length_drop]
        omega
      rw [hbytes]
      set m := min (min k (buf.length - s.total)) (file.length - (offset + s.total)) with hm
      have hne : view file (offset + s.total) m ≠ [] := fun hnil => by
        have := congrArg List.length hnil
        rw [length_view, List.length_nil] at this
        omega
      rw [if_neg hne]
      refine ⟨_, rfl, ⟨?_, ?_, ?_⟩, ?_⟩
      · simp only [length_view]
        omega
      · simp only
        rw [length_put (by rw [length_view]; omega), hlen]
      · simp only [Bool.false_eq_true, if_false, length_view]
        rw [view_add, ← hview, put, List.take_append_of_le_length (by rw [List.length_append, htake, length_view]),
          List.take_of_length_le (by rw [List.length_append, htake, length_view])]
      · simp only [hleft, length_view]
        omega

/-- **`read_page`** ends, and has read the bytes of the file, and zeros past its end. -/
theorem readPage_spec (hos : Fair os) (file buf : Bytes) (pageNo : ℕ) :
    Ends (readPage os file pageNo buf) (.ok (view file (pageNo * PAGE_SIZE) buf.length)) := by
  obtain ⟨n, hquiet⟩ := hos.quiet
  have hstart : Read file buf (pageNo * PAGE_SIZE) ⟨0, 0, buf, false⟩ := ⟨Nat.zero_le _, rfl, by simp [view]⟩
  obtain ⟨t, ⟨htotal, hlen, hview⟩, hdone, k, hrun⟩ := rounds_total (C := fun s : Reading => s.total < buf.length ∧ s.left = false)
    (fun s : Reading => n - s.call + (buf.length - s.total) + (!s.left).toNat)
    (fun s hs hgo => readRound_step hos hquiet hs hgo) (fun s hgo => if_neg hgo) hstart
  refine ⟨k, ?_⟩
  intro m hm
  rw [readPage, ← Int.natCast_mul, hrun m hm, Option.map_some, Except.map]
  rcases hleft : t.left with _ | _
  · have hall : t.total = buf.length := le_antisymm htotal (Nat.le_of_not_lt fun hlt => hdone ⟨hlt, hleft⟩)
    rw [hleft, if_neg Bool.false_ne_true, hall, List.take_of_length_le hlen.le] at hview
    rw [hview]
  · rw [hleft, if_pos rfl] at hview
    rw [hview]

end Read

/-! ### Both together -/

theorem stored_poke (file buf : Bytes) (offset : ℕ) : Stored file (poke file offset buf) offset buf :=
  ⟨peek_poke file offset buf, length_poke file offset buf⟩

/-- **Transfers are complete.** Whatever the operating system does to the calls, `write_page` ends and has stored the bytes
and changed no other, and `read_page` ends and has read the bytes of the file, with zeros past its end; after `write_page`
it reads what was written. -/
theorem transfers {os os' : ℕ → Answer} (hos : Fair os) (hos' : Fair os') (file data buf : Bytes) {pageNo : ℤ}
    (hpage : 0 ≤ pageNo) :
    Ends (readPage os' file pageNo buf) (.ok (view file (pageNo.toNat * PAGE_SIZE) buf.length)) ∧
    ∃ file', Ends (writePage os file pageNo data) (.ok file') ∧ Stored file file' (pageNo.toNat * PAGE_SIZE) data ∧
      (buf.length = data.length → Ends (readPage os' file' pageNo buf) (.ok data)) := by
  obtain ⟨p, rfl⟩ := Int.eq_ofNat_of_zero_le hpage
  refine ⟨readPage_spec hos' file buf p, _, writePage_spec hos file data p, stored_poke .., ?_⟩
  intro hlen
  have hread := readPage_spec hos' (poke file (p * PAGE_SIZE) data) buf p
  rwa [hlen, view_poke] at hread

/-- A system that interrupts every call but those with an odd number, up to the tenth, and moves three bytes at most. -/
def slow (call : ℕ) : Answer := if call < 10 ∧ call % 2 = 0 then .interrupted else .moved 3

theorem fair_slow : Fair slow where
  moves call := by
    rw [slow]
    split <;> simp
  quiet := ⟨10, fun call hcall => by rw [slow, if_neg (by omega)]; simp⟩

/-- A page is written that lies past the end of the file, and read back, in pieces. -/
theorem transfers_slow : ∃ file', Ends (writePage slow [1, 2, 3] 1 [7, 8, 9, 10, 11]) (.ok file') ∧
    Stored [1, 2, 3] file' 4096 [7, 8, 9, 10, 11] ∧
    Ends (readPage slow file' 1 [0, 0, 0, 0, 0]) (.ok [7, 8, 9, 10, 11]) := by
  obtain ⟨-, file', hwrite, hstored, hread⟩ :=
    transfers fair_slow fair_slow [1, 2, 3] [7, 8, 9, 10, 11] [0, 0, 0, 0, 0] (show (0 : ℤ) ≤ 1 by decide)
  exact ⟨file', hwrite, hstored, hread rfl⟩

/-- The operating system refuses a negative offset. -/
theorem writePage_negative (file buf : Bytes) {pageNo : ℤ} (hpage : pageNo < 0) (hbuf : buf ≠ []) {os : ℕ → Answer}
    (hos : os 0 ≠ .interrupted) : Ends (writePage os file pageNo buf) (.error ⟨"DiskManager::write_page Error"⟩) := by
  refine ⟨1, ?_⟩
  rintro (_ | n) hn
  · cases hn
  · have hlen : 0 < buf.length := List.length_pos_of_ne_nil hbuf
    have hneg : pageNo * (PAGE_SIZE : ℕ) + (0 : ℕ) < 0 := by
      unfold PAGE_SIZE
      omega
    have hround : writeRound os (pageNo * PAGE_SIZE) buf ⟨0, 0, file⟩ = .error ⟨"DiskManager::write_page Error"⟩ := by
      rw [writeRound, if_pos hlen]
      rcases hanswer : os 0 with _ | _ | k
      · exact absurd hanswer hos
      · rfl
      · simp only [pwrite, if_pos hneg]
    rw [writePage, rounds, hround]
    rfl

/-! ### The disk of the buffer pool -/

/-- A page of a file. -/
def pageOf (file : Bytes) (pageNo : ℕ) : PageData := fun i => peek file (pageNo * PAGE_SIZE + i)

/-- The bytes of a page. -/
def pageBytes (data : PageData) : Bytes := List.ofFn data

@[simp] theorem length_pageBytes (data : PageData) : (pageBytes data).length = PAGE_SIZE := List.length_ofFn

theorem peek_pageBytes (data : PageData) (i : Fin PAGE_SIZE) : peek (pageBytes data) i = data i := by
  rw [peek, pageBytes, List.getElem?_ofFn, dif_pos i.isLt, Option.getD_some]

/-- **`write_page` of a page** replaces this page, and no other. -/
theorem pageOf_writePage {os : ℕ → Answer} (hos : Fair os) (file : Bytes) (pageNo : ℕ) (data : PageData) :
    ∃ file', Ends (writePage os file pageNo (pageBytes data)) (.ok file') ∧
      pageOf file' = Function.update (pageOf file) pageNo data := by
  refine ⟨_, writePage_spec hos file (pageBytes data) pageNo, funext fun p => funext ?_⟩
  intro i
  have hi := i.isLt
  rw [pageOf, peek_poke, length_pageBytes]
  by_cases hp : p = pageNo
  · subst hp
    rw [if_pos (by omega), Nat.add_sub_cancel_left, peek_pageBytes, Function.update_self]
  · have hne : p * PAGE_SIZE + PAGE_SIZE ≤ pageNo * PAGE_SIZE ∨ pageNo * PAGE_SIZE + PAGE_SIZE ≤ p * PAGE_SIZE := by
      rcases Nat.lt_or_gt_of_ne hp with h | h
      · exact Or.inl (by rw [← Nat.succ_mul]; exact Nat.mul_le_mul_right _ h)
      · exact Or.inr (by rw [← Nat.succ_mul]; exact Nat.mul_le_mul_right _ h)
    rw [if_neg (by omega), Function.update_of_ne hp]
    rfl

/-- **`read_page` of a page** reads this page. -/
theorem readPage_pageOf {os : ℕ → Answer} (hos : Fair os) (file : Bytes) (pageNo : ℕ) (data : PageData) :
    Ends (readPage os file pageNo (pageBytes data)) (.ok (pageBytes (pageOf file pageNo))) := by
  have hread := readPage_spec hos file (pageBytes data) pageNo
  have hview : view file (pageNo * PAGE_SIZE) PAGE_SIZE = pageBytes (pageOf file pageNo) := by
    refine List.ext_getElem (by rw [length_view, length_pageBytes]) ?_
    intro i hi hi'
    simp only [view, List.getElem_map, List.getElem_range, pageBytes, List.getElem_ofFn, pageOf]
  rwa [length_pageBytes, hview] at hread

end DiskManager

end Rmdb.Storage
