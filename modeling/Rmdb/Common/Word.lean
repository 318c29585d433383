import Rmdb.Common.Value
import Rmdb.Lib.Buffer

/-!
# Words

The `int`s and `uint32_t`s of pages and log records: four bytes, little-endian.
-/

namespace Rmdb

open Lib

/-- The bytes of a `uint32_t`. -/
def wordBytes (w : UInt32) : Bytes := leBytes 4 w.toNat

/-- The bytes of an `int`. -/
def int32Bytes (x : Int32) : Bytes := wordBytes x.toUInt32

/-- The `uint32_t` at an offset, if it lies inside the buffer. -/
def readWord (src : Bytes) (offset : ℕ) : Option UInt32 :=
  (readBlock src offset 4).map fun bs => UInt32.ofNat (leNat 4 bs)

/-- The `int` at an offset. -/
def readInt32 (src : Bytes) (offset : ℕ) : Option Int32 := (readWord src offset).map UInt32.toInt32

@[simp] theorem length_wordBytes (w : UInt32) : (wordBytes w).length = 4 := length_leBytes 4 _

@[simp] theorem length_int32Bytes (x : Int32) : (int32Bytes x).length = 4 := length_wordBytes _

theorem leNat_leBytes (w n : ℕ) (rest : Bytes) : leNat w (leBytes w n ++ rest) = n % 2 ^ (8 * w) := by
  induction w generalizing n with
  | zero => simp [leNat, Nat.mod_one]
  | succ w ih =>
    rw [leBytes, List.cons_append, leNat, List.headD_cons, List.tail_cons, ih,
      show 8 * (w + 1) = 8 + 8 * w by omega, Nat.pow_add, Nat.mod_mul]
    congr 1
    rw [UInt8.toNat_ofNat']
    omega

theorem readWord_append {A B src : Bytes} {offset : ℕ} {w : UInt32} (hsrc : src = A ++ (wordBytes w ++ B))
    (ho : offset = A.length) : readWord src offset = some w := by
  rw [readWord, readBlock_append hsrc ho (length_wordBytes w).symm, Option.map_some, wordBytes]
  have h := leNat_leBytes 4 w.toNat []
  rw [List.append_nil, Nat.mod_eq_of_lt (by simpa using w.toNat_lt)] at h
  rw [h, UInt32.ofNat_toNat]

theorem readInt32_append {A B src : Bytes} {offset : ℕ} {x : Int32} (hsrc : src = A ++ (int32Bytes x ++ B))
    (ho : offset = A.length) : readInt32 src offset = some x := by
  rw [readInt32, readWord_append hsrc ho, Option.map_some, Int32.toInt32_toUInt32]

end Rmdb
