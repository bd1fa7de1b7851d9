import Volforge.Store.Vfday

/-!
# `Store.Correctness.Layout` — what a reader finds where

The packed structures read back as they were written, and a region is found at its offset.

## Contents
- **Fields, structures.** One round trip for each, with the bytes that follow left to read.
- **Regions.** Reading at an offset of a concatenation.
-/

namespace Volforge

/-! ## Fields

Each width has its own `put` and `get`. A `get` takes its bytes off the front and leaves the rest, so the
round trips chain over a structure by rewriting. -/

@[simp] theorem length_put8 (x : UInt8) : (put8 x).length = 1 := rfl
@[simp] theorem length_put16 (x : UInt16) : (put16 x).length = 2 := LittleEndian.length_bytes ..
@[simp] theorem length_put32 (x : UInt32) : (put32 x).length = 4 := LittleEndian.length_bytes ..
@[simp] theorem length_put64 (x : UInt64) : (put64 x).length = 8 := LittleEndian.length_bytes ..

theorem bind_apply {α β : Type} (x : Reader α) (f : α → Reader β) (p : Bytes) :
    (x >>= f) p = f (x p).1 (x p).2 := rfl

theorem pure_apply {α : Type} (a : α) (p : Bytes) : (pure a : Reader α) p = (a, p) := rfl

/-- A field of bytes is read back, whatever follows. -/
theorem getBytes_append {n : Nat} {b : Bytes} (hb : b.length = n) (rest : Bytes) : getBytes n (b ++ rest) = (b, rest) := by
  unfold getBytes
  rw [List.take_left' hb, List.drop_left' hb]

theorem get8_put8 (x : UInt8) (rest : Bytes) : get8 (put8 x ++ rest) = (x, rest) := by
  have hvalue : LittleEndian.value (put8 x) = x.toNat := by
    rw [put8, LittleEndian.value_cons]
    simp
  unfold get8
  rw [List.take_left' (length_put8 x), List.drop_left' (length_put8 x), hvalue, UInt8.ofNat_toNat]

theorem get16_put16 (x : UInt16) (rest : Bytes) : get16 (put16 x ++ rest) = (x, rest) := by
  unfold get16
  rw [List.take_left' (length_put16 x), List.drop_left' (length_put16 x), put16, LittleEndian.value_bytes,
    Nat.mod_eq_of_lt (show x.toNat < 256 ^ 2 from x.toNat_lt), UInt16.ofNat_toNat]

theorem get32_put32 (x : UInt32) (rest : Bytes) : get32 (put32 x ++ rest) = (x, rest) := by
  unfold get32
  rw [List.take_left' (length_put32 x), List.drop_left' (length_put32 x), put32, LittleEndian.value_bytes,
    Nat.mod_eq_of_lt (show x.toNat < 256 ^ 4 from x.toNat_lt), UInt32.ofNat_toNat]

/-- A field determines its number. -/
theorem put32_inj {x y : UInt32} (h : put32 x = put32 y) : x = y := by
  have hx := get32_put32 x []
  rw [h, get32_put32 y []] at hx
  exact (Prod.mk.inj hx).1.symm

theorem get64_put64 (x : UInt64) (rest : Bytes) : get64 (put64 x ++ rest) = (x, rest) := by
  unfold get64
  rw [List.take_left' (length_put64 x), List.drop_left' (length_put64 x), put64, LittleEndian.value_bytes,
    Nat.mod_eq_of_lt (show x.toNat < 256 ^ 8 from x.toNat_lt), UInt64.ofNat_toNat]

/-! ## Structures -/

/-- The header checksum is stored right after what it covers. -/
theorem FileHeader.length_checkedBytes {h : FileHeader} (hmagic : h.magic.length = 8) :
    h.checkedBytes.length = FileHeader.crcOffset := by
  simp [checkedBytes, hmagic, crcOffset]

/-- A header has the size the format gives it. -/
theorem FileHeader.length_bytes {h : FileHeader} (hmagic : h.magic.length = 8) :
    h.bytes.length = FileHeader.size := by
  rw [bytes, List.length_append, length_checkedBytes hmagic]
  simp [crcOffset, size]

/-- **The header** reads back as it was written, and leaves what follows. -/
theorem FileHeader.read_bytes {h : FileHeader} (hmagic : h.magic.length = 8) (rest : Bytes) :
    FileHeader.read (h.bytes ++ rest) = (h, rest) := by
  simp only [FileHeader.read, bytes, checkedBytes, List.append_assoc, bind_apply, pure_apply, getBytes_append hmagic,
    get32_put32, get64_put64, Int32.toInt32_toUInt32, Int64.toInt64_toUInt64]

theorem TableEntry.length_bytes (t : TableEntry) : t.bytes.length = TableEntry.size := by simp [bytes, size]

/-- **A table entry** reads back. -/
theorem TableEntry.read_bytes (t : TableEntry) (rest : Bytes) : TableEntry.read (t.bytes ++ rest) = (t, rest) := by
  simp only [TableEntry.read, bytes, List.append_assoc, bind_apply, pure_apply, get8_put8, get16_put16, get32_put32,
    Int32.toInt32_toUInt32]

theorem DirEntry.length_bytes (e : DirEntry) : e.bytes.length = DirEntry.size := by simp [bytes, size]

/-- **A directory entry** reads back. -/
theorem DirEntry.read_bytes (e : DirEntry) (rest : Bytes) : DirEntry.read (e.bytes ++ rest) = (e, rest) := by
  simp only [DirEntry.read, bytes, List.append_assoc, bind_apply, pure_apply, get32_put32, get64_put64,
    Int32.toInt32_toUInt32, Int64.toInt64_toUInt64]

/-- A table reads back if each of its structures does. -/
theorem readMany_flatMap {α : Type} {read : Reader α} {bytes : α → Bytes}
    (hread : ∀ x rest, read (bytes x ++ rest) = (x, rest)) (xs : List α) (rest : Bytes) :
    readMany read xs.length (xs.flatMap bytes ++ rest) = (xs, rest) := by
  induction xs with
  | nil => rfl
  | cons x xs ih =>
      rw [List.length_cons, List.flatMap_cons, List.append_assoc, readMany, bind_apply, hread, bind_apply, ih]
      rfl

/-- A table of `n` structures is read as `n` of them, whatever the bytes are. -/
theorem length_readMany {α : Type} (read : Reader α) (n : Nat) (p : Bytes) : (readMany read n p).1.length = n := by
  induction n generalizing p with
  | zero => rfl
  | succ n ih =>
      rw [readMany, bind_apply, bind_apply, pure_apply]
      simp [ih]

/-- The size of a table. -/
theorem length_flatMap_bytes {α : Type} {bytes : α → Bytes} {size : Nat} (hsize : ∀ x, (bytes x).length = size)
    (xs : List α) : (xs.flatMap bytes).length = xs.length * size := by
  induction xs with
  | nil => simp
  | cons x xs ih => rw [List.flatMap_cons, List.length_append, hsize, ih, List.length_cons, Nat.succ_mul, Nat.add_comm]

/-- The first structures of a table that is cut. -/
theorem readMany_flatMap_take {α : Type} {read : Reader α} {bytes : α → Bytes} {size : Nat}
    (hread : ∀ x rest, read (bytes x ++ rest) = (x, rest)) (hsize : ∀ x, (bytes x).length = size) {xs : List α} {k n : Nat}
    (hk : k ≤ xs.length) (hn : k * size ≤ n) : (readMany read k ((xs.flatMap bytes).take n)).1 = xs.take k := by
  have hlen : (xs.take k).length = k := by rw [List.length_take, Nat.min_eq_left hk]
  have hfirst : ((xs.take k).flatMap bytes).length ≤ n := by
    rw [length_flatMap_bytes hsize, hlen]
    exact hn
  have hsplit : (xs.flatMap bytes).take n = (xs.take k).flatMap bytes ++
      ((xs.drop k).flatMap bytes).take (n - ((xs.take k).flatMap bytes).length) := by
    conv_lhs => rw [← List.take_append_drop k xs, List.flatMap_append]
    rw [List.take_append, List.take_of_length_le hfirst]
  have hmany := readMany_flatMap hread (xs.take k) (((xs.drop k).flatMap bytes).take (n - ((xs.take k).flatMap bytes).length))
  rw [hlen] at hmany
  rw [hsplit, hmany]

/-! ## Regions -/

/-- A region is found at its offset, in full or in part. -/
theorem readAt_append {before region after : Bytes} {offset : Int64} (hoffset : offset.toInt = before.length) {n : Nat}
    (hn : n ≤ region.length) : readAt (before ++ (region ++ after)) offset n = some (region.take n) := by
  have hnat : offset.toInt.toNat = before.length := by omega
  unfold readAt
  dsimp only
  rw [hnat, List.drop_left, List.length_append, if_neg (by omega), List.take_append_of_le_length hn]

/-- What `readAt` gives lies in the file. -/
theorem readAt_eq_some {file buffer : Bytes} {offset : Int64} {n : Nat} (h : readAt file offset n = some buffer) :
    buffer.length = n ∧ buffer = (file.drop offset.toInt.toNat).take n ∧
      (0 < n → offset.toInt.toNat + n ≤ file.length) := by
  unfold readAt at h
  dsimp only at h
  split_ifs at h with hlen
  cases h
  rw [List.length_drop] at hlen
  refine ⟨?_, rfl, fun hn => by omega⟩
  rw [List.length_take, List.length_drop]
  omega

end Volforge
