import Mathlib.Data.Finset.Card
import Mathlib.Data.Nat.Bitwise

/-!
# Bitmaps

The bitmaps of `lib/kernel/bitmap.c`, which record the free sectors of the file system disk and the
free slots of the swap disk.  A bitmap is its bit count and its bits; the array of 32-bit words
behind it appears only as the bytes it is stored as in a file (`Bitmap.byte`, `Bitmap.ofBytes`).

* `Bitmap.scan_eq_some` and `Bitmap.scan_eq_none`: `bitmap_scan` finds a run of bits of the value
  asked for exactly if there is one.
* `Bitmap.freeCnt`, the number of clear bits, and what a flip does to it.
* `Bitmap.freeList`, the clear bits in the order in which they are taken.
* `Bitmap.ofBytes_byte`: what `bitmap_write` stores, `bitmap_read` reads back.
-/

namespace Pintos

/-- `struct bitmap`. -/
structure Bitmap where
  bitCnt : Nat
  bits : Nat → Bool

namespace Bitmap

variable {b : Bitmap}

/-- `bitmap_create`. -/
def create (bitCnt : Nat) : Bitmap := ⟨bitCnt, fun _ => false⟩

/-- `bitmap_set_multiple`. -/
def setMultiple (b : Bitmap) (start cnt : Nat) (value : Bool) : Bitmap :=
  { b with bits := fun i => if start ≤ i ∧ i < start + cnt then value else b.bits i }

/-- `bitmap_mark`. -/
def mark (b : Bitmap) (bitIdx : Nat) : Bitmap :=
  { b with bits := Function.update b.bits bitIdx true }

/-- `bitmap_contains`. -/
def contains (b : Bitmap) (start cnt : Nat) (value : Bool) : Bool :=
  (List.range cnt).any fun i => b.bits (start + i) == value

/-- `bitmap_all`. -/
def all (b : Bitmap) (start cnt : Nat) : Bool := !b.contains start cnt false

/-- `bitmap_scan`, with `none` for `BITMAP_ERROR`. -/
def scan (b : Bitmap) (start cnt : Nat) (value : Bool) : Option Nat :=
  if cnt ≤ b.bitCnt then
    (List.range' start (b.bitCnt - cnt + 1 - start)).find? fun i => !b.contains i cnt (!value)
  else none

/-- `bitmap_scan_and_flip`: the index found, and the bitmap with the run flipped. -/
def scanAndFlip (b : Bitmap) (start cnt : Nat) (value : Bool) : Option (Nat × Bitmap) :=
  (b.scan start cnt value).map fun idx => (idx, b.setMultiple idx cnt (!value))

/-- `bitmap_file_size`, which is `byte_cnt` of the bit count. -/
def fileSize (b : Bitmap) : Nat := 4 * ((b.bitCnt + 31) / 32)

/-! ## Searching -/

variable {cnt : Nat} {value : Bool} {start : Nat}

theorem contains_eq_false :
    b.contains start cnt (!value) = false ↔ ∀ i < cnt, b.bits (start + i) = value := by
  simp [contains]

theorem all_eq_true : b.all start cnt = true ↔ ∀ i < cnt, b.bits (start + i) = true := by
  simp [all, contains]

variable {idx : Nat}

theorem scan_eq_some (h : b.scan start cnt value = some idx) :
    start ≤ idx ∧ idx + cnt ≤ b.bitCnt ∧ ∀ i < cnt, b.bits (idx + i) = value := by
  rw [scan] at h
  split at h
  · have hp := List.find?_some h
    have hm := List.mem_range'_1.mp (List.mem_of_find?_eq_some h)
    rw [Bool.not_eq_true', contains_eq_false] at hp
    exact ⟨hm.1, by omega, hp⟩
  · simp at h

theorem scan_eq_none (h : b.scan start cnt value = none) (hs : start ≤ idx)
    (hi : idx + cnt ≤ b.bitCnt) : ∃ i < cnt, b.bits (idx + i) ≠ value := by
  rw [scan, if_pos (by omega), List.find?_eq_none] at h
  have hidx := h idx (List.mem_range'_1.mpr ⟨hs, by omega⟩)
  rw [Bool.not_eq_true', contains_eq_false] at hidx
  simpa using hidx

/-! ## Counting -/

/-- The number of clear bits. -/
def freeCnt (b : Bitmap) : Nat := ((Finset.range b.bitCnt).filter fun i => b.bits i = false).card

theorem setMultiple_one (b : Bitmap) (idx : Nat) (value : Bool) :
    b.setMultiple idx 1 value = { b with bits := Function.update b.bits idx value } := by
  rw [setMultiple]
  congr 1
  funext i
  by_cases hi : i = idx
  · rw [hi, Function.update_self, if_pos (by omega)]
  · rw [Function.update_of_ne hi, if_neg (by omega)]

theorem bits_mark (b : Bitmap) (i : Nat) (h : b.bits i = true) : (b.mark idx).bits i = true := by
  by_cases hi : i = idx
  · simp [mark, hi]
  · simpa [mark, hi] using h

theorem freeCnt_mark (hi : idx < b.bitCnt) (hb : b.bits idx = false) :
    (b.mark idx).freeCnt + 1 = b.freeCnt := by
  have herase : ((Finset.range b.bitCnt).filter fun i => (b.mark idx).bits i = false)
      = ((Finset.range b.bitCnt).filter fun i => b.bits i = false).erase idx := by
    ext i
    rw [Finset.mem_erase, Finset.mem_filter]
    by_cases h : i = idx <;> simp [mark, h]
  have hmem : idx ∈ (Finset.range b.bitCnt).filter fun i => b.bits i = false := by simp [hi, hb]
  show ((Finset.range b.bitCnt).filter fun i => (b.mark idx).bits i = false).card + 1 = _
  rw [herase, Finset.card_erase_add_one hmem, freeCnt]

/-- **Taking one bit.**  Either some clear bit is found and set, or none is clear. -/
theorem scanAndFlip_one (b : Bitmap) :
    (b.scanAndFlip 0 1 false = none ∧ b.freeCnt = 0) ∨
      ∃ idx, b.scanAndFlip 0 1 false = some (idx, b.mark idx) ∧ idx < b.bitCnt ∧
        b.bits idx = false := by
  rcases hs : b.scan 0 1 false with _ | idx
  · refine Or.inl ⟨by rw [scanAndFlip, hs, Option.map_none], ?_⟩
    rw [freeCnt, Finset.card_eq_zero, Finset.filter_eq_empty_iff]
    intro i hi hb
    obtain ⟨j, hj, hne⟩ := scan_eq_none hs (Nat.zero_le i) (Finset.mem_range.mp hi)
    obtain rfl : j = 0 := by omega
    exact hne hb
  · obtain ⟨-, hlt, hbit⟩ := scan_eq_some hs
    refine Or.inr ⟨idx, ?_, by omega, hbit 0 (by omega)⟩
    rw [scanAndFlip, hs, Option.map_some, setMultiple_one]
    rfl

/-- The clear bits, the lowest first. -/
def freeList (b : Bitmap) : List Nat := (List.range b.bitCnt).filter fun i => !b.bits i

theorem mem_freeList {i : Nat} : i ∈ b.freeList ↔ i < b.bitCnt ∧ b.bits i = false := by
  simp [freeList]

theorem nodup_freeList (b : Bitmap) : b.freeList.Nodup := List.nodup_range.filter _

theorem length_freeList (b : Bitmap) : b.freeList.length = b.freeCnt := by
  rw [← List.toFinset_card_of_nodup b.nodup_freeList]
  congr 1
  ext i
  simp [mem_freeList]

theorem scan_one_eq_head (b : Bitmap) : b.scan 0 1 false = b.freeList.head? := by
  rw [freeList, List.head?_filter, scan]
  split
  · rw [show b.bitCnt - 1 + 1 - 0 = b.bitCnt by omega, ← List.range_eq_range']
    refine congrArg (fun p => List.find? p _) (funext fun i => ?_)
    simp [contains]
  · rw [show b.bitCnt = 0 by omega]
    rfl

theorem freeList_mark {rest : List Nat} (h : b.freeList = idx :: rest) :
    (b.mark idx).freeList = rest := by
  have hmark : (b.mark idx).freeList = b.freeList.filter fun i => i ≠ idx := by
    rw [freeList, freeList, List.filter_filter]
    refine List.filter_congr fun i _ => ?_
    by_cases hi : i = idx <;> simp [mark, hi]
  have hnodup := b.nodup_freeList
  rw [h, List.nodup_cons] at hnodup
  rw [hmark, h, List.filter_cons_of_neg (by simp), List.filter_eq_self]
  intro i hi
  exact decide_eq_true fun heq => hnodup.1 (heq ▸ hi)

/-! ## Storing -/

/-- Byte `i` of the words behind the bitmap. -/
def byte (b : Bitmap) (i : Nat) : UInt8 :=
  UInt8.ofNat (Nat.ofBits fun j : Fin 8 => b.bits (8 * i + j))

/-- The bitmap that `bitmap_read` makes of the bytes of a file; `last_mask` clears the bits past the
end. -/
def ofBytes (bitCnt : Nat) (bytes : Nat → UInt8) : Bitmap :=
  ⟨bitCnt, fun i => decide (i < bitCnt) && (bytes (i / 8)).toNat.testBit (i % 8)⟩

theorem testBit_byte (b : Bitmap) (i : Nat) :
    (b.byte (i / 8)).toNat.testBit (i % 8) = b.bits i := by
  have hlt : Nat.ofBits (fun j : Fin 8 => b.bits (8 * (i / 8) + j)) < 2 ^ 8 :=
    Nat.ofBits_lt_two_pow _
  have hmod : i % 8 < 8 := Nat.mod_lt _ (by decide)
  rw [byte, UInt8.toNat_ofNat', Nat.mod_eq_of_lt hlt, Nat.testBit_ofBits_lt _ _ hmod]
  congr 1
  exact Nat.div_add_mod i 8

/-- **`bitmap_read` undoes `bitmap_write`**, for bytes that agree with those written up to the size
of the file. -/
theorem ofBytes_byte {bytes : Nat → UInt8} (h : ∀ i < b.fileSize, bytes i = b.byte i) {i : Nat}
    (hi : i < b.bitCnt) : (ofBytes b.bitCnt bytes).bits i = b.bits i := by
  have hsize : i / 8 < b.fileSize := by rw [fileSize]; omega
  show (decide (i < b.bitCnt) && (bytes (i / 8)).toNat.testBit (i % 8)) = b.bits i
  rw [h _ hsize, testBit_byte, decide_eq_true hi, Bool.true_and]

theorem freeCnt_congr {c : Bitmap} (hcnt : c.bitCnt = b.bitCnt)
    (h : ∀ i < b.bitCnt, c.bits i = b.bits i) : c.freeCnt = b.freeCnt := by
  rw [freeCnt, freeCnt, hcnt]
  congr 1
  refine Finset.filter_congr fun i hi => ?_
  rw [h i (by simpa using hi)]

end Bitmap

end Pintos
