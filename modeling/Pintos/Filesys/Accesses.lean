import Pintos.Filesys.FailedGrowth
import Pintos.Filesys.Grown

/-!
# The accesses of a read or write at any position

For which offsets and sizes every access that `inode_read_at` and `inode_write_at` make to the
buffer cache is to a sector of the disk and inside that sector, and the read gives the number of
bytes that it should.

The routines move at least one byte with every access (`sized_inodeReadAt`, `sized_inodeWriteAt`),
so a run is safe where it does not panic.  It panics in three ways.

* Past the end of the file, what is left of it is negative, and becomes a huge `size_t`.
* On a disk that is so full that not even the first new sector of data is there, the uninitialised
  `alloc_sec` goes into the index (`exec_inodeWriteAt_unsafe`).
* Past the last block that the index can hold, `byte_to_sector` returns the uninitialised
  `return_sec`.

If only a later sector is not there, the blocks share the last one that was, and the accesses stay
on the disk, though the contents are lost (`exec_inodeWriteAt_shared`).  `accesses_safe_iff` puts
the cases together.
-/

namespace Pintos

open Bytes Prog
open Function (update update_self)

/-! ## No access is empty -/

theorem sized_inodeReadAt (u : Uninit) (inode : Inode) (size offset : Int) :
    (inodeReadAt u inode size offset).Sized := lifts_sized.inodeReadLoop u inode _ size offset

theorem sized_freeMapAllocate {writeAt : Inode → (Nat → UInt8) → Int → Int → FsProg Int}
    (hw : ∀ inode buffer size offset, (writeAt inode buffer size offset).Sized) (cnt : Nat) :
    (freeMapAllocate writeAt cnt).Sized := by
  have hbitmap : ∀ b file, (bitmapWrite writeAt b file).Sized := by
    intro b file
    refine Sized.bind (Sized.bind ?_ fun r => ?_) fun _ => trivial
    · exact (lifts_sized.readSector _).bind fun _ => trivial
    · split
      · trivial
      · exact hw _ _ _ _
  refine Sized.bind (fun _ => trivial) fun m => ?_
  split
  · trivial
  · refine Sized.bind trivial fun _ => ?_
    split
    · trivial
    · refine (hbitmap _ _).bind fun r => ?_
      split
      · trivial
      · exact Sized.bind (fun _ => trivial) fun _ => Sized.bind trivial fun _ => trivial

theorem sized_inodeWriteAt (u : Uninit) (depth : Nat) : ∀ inode buffer size offset,
    (inodeWriteAt u depth inode buffer size offset).Sized := by
  induction depth with
  | zero => exact fun _ _ _ _ => trivial
  | succ depth ih =>
    intro inode buffer size offset
    rw [inodeWriteAt]
    split
    · trivial
    · refine (lifts_sized.inodeLength inode).bind fun existLength => ?_
      have hloop := lifts_sized.inodeWriteLoop u inode buffer size.toNat size offset 0
      split
      · exact (lifts_sized.inodeExpand u (b := .fail) (sized_freeMapAllocate ih 1) _ _).bind
          fun _ => hloop
      · exact hloop

/-! ## A write that grows the file -/

variable {k k' : Nat}

theorem refused_congr {r free : Nat} (h : min (k + r) maxBlocks = min k' maxBlocks) :
    Refused r k free ↔ Refused (k' - k) k free := by
  constructor <;>
    · rintro ⟨j, hj, hmax, hneed⟩
      exact ⟨j, by omega, hmax, hneed⟩

theorem eq_indexNeed_of_not_refused {remain free : Nat} (hpos : 0 < remain) (hk : k < maxBlocks)
    (hnot : ¬ Refused remain k free) (hle : free ≤ indexNeed k) : free = indexNeed k := by
  obtain ⟨r, rfl⟩ := Nat.exists_eq_succ_of_ne_zero hpos.ne'
  rw [Nat.succ_eq_add_one, refused_succ hk, not_or, Nat.not_lt] at hnot
  exact Nat.le_antisymm hle hnot.1

theorem refused_next_iff {free : Nat} (hone : k' ≤ k + 1) (hk : k ≤ maxBlocks) :
    Refused (k' - k) k free ↔ ¬ (k' ≤ k ∨ k = maxBlocks ∨ indexNeed k ≤ free) := by
  constructor
  · rintro ⟨j, hj, hmax, -, hneed⟩ hcan
    obtain rfl : j = 0 := by omega
    rw [sectorNeed, Nat.zero_add, Nat.add_zero] at hneed
    omega
  · intro hcan
    refine ⟨0, by omega, by omega, ?_, ?_⟩
    · rw [Nat.add_zero]
      omega
    · rw [sectorNeed, Nat.zero_add, Nat.add_zero]
      omega

namespace FsInv

variable {n depth : Nat} {inodes : List Nat} {w : FsWorld} {inode : Inode} {size o len : Nat}

section Grow

variable {k : Nat} (h : FsOk n inodes w) (hi : inode.sector ∈ inodes)
  (hlen : InodeDisk.length (w.disk inode.sector) = len) (hgrow : len < o + size)
  (hlt : o + size < 2147483648)

include h hi hlen hgrow hlt

theorem newSectors_writeExt :
    min (blocks (w.disk inode.sector) + newSectors len (writeExt len size o)) maxBlocks
      = min ((o + size + 511) / 512) maxBlocks := by
  obtain ⟨h0, h1⟩ := h.length _ hi
  have hext : writeExt len size o = ((o + size : Nat) : Int) - len := by
    rw [writeExt_eq (by omega) (by rw [wrap32_of_mem] <;> omega),
      wrap32_of_mem (by omega) (by omega)]
    omega
  by_cases hover : writeExt len size o
      - (blocks (w.disk inode.sector) * 512 - InodeDisk.length (w.disk inode.sector)) + 511 < 2 ^ 31
  · have hnew := blocks_add_newSectors h0 h1 (writeExt len size o) (by omega) hover
    have hsum : (len : Int).toNat + (((o + size : Nat) : Int) - len).toNat = o + size := by omega
    rw [hlen, hext, hsum] at hnew
    rw [hext, hnew]
  · have hnew := maxBlocks_lt_newSectors h0 h1 (by omega) hover
    have hlarge : maxBlocks ≤ (o + size + 511) / 512 := by
      rw [maxBlocks_eq]
      omega
    rw [hlen] at hnew
    rw [Nat.min_eq_right hlarge, Nat.min_eq_right]
    exact Nat.le_trans hnew.le (Nat.le_add_left _ _)

variable (hdeny : inode.denyWriteCnt = 0) (hk : blocks (w.disk inode.sector) = k)

include hdeny hk

variable (depth) in
/-- **`inode_write_at` after a growth that was not refused** goes on in the file as the loop of
`inode_expand` has left it, with the new length. -/
theorem exec_inodeWriteAt_grown {remain : Nat} (hr : newSectors len (writeExt len size o) = remain)
    (hnot : ¬ Refused remain k w.mem.freeMap.freeCnt) (u : Uninit) (buffer : Nat → UInt8) :
    ∃ m' d' hdr' L' b' d, FsInv n inodes ⟨m', d'⟩ hdr' L' ∧
      Grows inode.sector (min w.mem.freeMap.freeCnt (sectorNeed (min remain (maxBlocks - k)) k)) w
        w.disk (OnDisk inodes w.disk) ⟨m', d'⟩ hdr' L' ∧
      Looped inode.sector k k remain u.allocSec w.mem.freeMap.freeList ⟨m', d'⟩ hdr' L' b' ∧
      d = update d' inode.sector
        (InodeDisk.setLength (hdr' inode.sector) ((o + size : Nat) : Int)) ∧
      InodeDisk.length (d inode.sector) = ((o + size : Nat) : Int) ∧
      (inodeWriteAt u (depth + 2) inode buffer size o).exec n w
        = (inodeWriteLoop u inode buffer size size o 0).exec n ⟨m', d⟩ := by
  have hwrap : wrap32 ((o : Int) + size) = ((o + size : Nat) : Int) := by
    rw [wrap32_of_mem (by omega) (by omega)]
    omega
  have hgrow' : InodeDisk.length (w.disk inode.sector) < wrap32 ((o : Int) + size) := by
    rw [hwrap, hlen]
    exact Int.ofNat_lt.mpr hgrow
  have hext := writeExt_eq (h.length _ hi).1 hgrow'
  rw [hlen, hwrap] at hext
  obtain ⟨m', d', hdr', L', hinv, hgrows, hres⟩ := h.exec_inodeExpand_cases inode hi u
    (allocates_freeMapAllocateAt u depth) trivial (writeExt len size o) hk
    (show newSectors _ _ = remain by rw [hlen, hr])
  rcases hres with ⟨href, -⟩ | ⟨-, ⟨b', hloop⟩, hexec⟩
  · exact absurd href hnot
  refine ⟨m', d', hdr', L', b', _, hinv, hgrows, hloop, rfl,
    by rw [update_self, length_setLength _ (by omega) (by omega)], ?_⟩
  have hnew : wrap32 (InodeDisk.length (w.disk inode.sector) + writeExt len size o)
      = ((o + size : Nat) : Int) := by
    have hsum : (len : Int) + (((o + size : Nat) : Int) - len) = ((o + size : Nat) : Int) := by
      omega
    rw [hext, hlen, hsum, wrap32_of_mem (by omega) (by omega)]
  rw [hnew, ← hlen] at hexec
  exact h.exec_inodeWriteAt_of_expand hi hdeny hgrow' hexec buffer

variable (depth) in
/-- **If the first new sector is there**, and the index can hold the new blocks, the write goes
through, though it may lose data: without a sector of its own, a block has that of the one
before. -/
theorem exec_inodeWriteAt_shared
    (hnot : ¬ Refused (newSectors len (writeExt len size o)) k w.mem.freeMap.freeCnt)
    (hmax : (o + size + 511) / 512 ≤ maxBlocks)
    (hfirst : k < (o + size + 511) / 512 → indexNeed k < w.mem.freeMap.freeCnt) (u : Uninit)
    (buffer : Nat → UInt8) :
    ∃ w', (inodeWriteAt u (depth + 2) inode buffer size o).exec n w = some ((size : Int), w') := by
  have hblocks := h.newSectors_writeExt hi hlen hgrow hlt
  rw [hk] at hblocks
  obtain ⟨m', d', hdr', L', b', d, hinv, -, hloop, hd, hstored, hexec⟩ :=
    h.exec_inodeWriteAt_grown depth hi hlen hgrow hlt hdeny hk rfl hnot u buffer
  generalize newSectors len (writeExt len size o) = remain at *
  have hlast : min (k + remain) maxBlocks = (o + size + 511) / 512 :=
    hblocks.trans (Nat.min_eq_left hmax)
  have hw : Writable n d inode.sector _ := hd ▸ writable_of_looped hinv hi hloop hlt hblocks.symm
    (Nat.le_of_eq hlast.symm) fun j hj =>
    exists_own_of_looped hloop (by omega) (by omega) fun hkj => by
      rw [Bitmap.length_freeList]
      exact hfirst (hkj.trans_lt hj)
  obtain ⟨d'', hrun, -⟩ := hw.exec_inodeWriteLoop u buffer size size o 0
    le_rfl hstored (Nat.le_add_right o size) (by clear hlt hblocks hlast; omega)
  rw [show min size (o + size - o) = size by omega, Nat.zero_add] at hrun
  exact ⟨_, hexec.trans hrun⟩

variable (depth) in
/-- **A write that needs one more block**, for which there is none: it comes to its end if what the
uninitialised variable holds is the number of a sector, and panics if not. -/
theorem exec_inodeWriteAt_last (ho : o ≤ len)
    (hnot : ¬ Refused (newSectors len (writeExt len size o)) k w.mem.freeMap.freeCnt)
    (hone : (o + size + 511) / 512 = k + 1)
    (hbad : k = maxBlocks ∨ w.mem.freeMap.freeCnt = indexNeed k) (u : Uninit)
    (buffer : Nat → UInt8) :
    ∃ x, (x = u.allocSec % 2 ^ 32 ∨ x = u.returnSec) ∧
      if x < n then
        ∃ w', (inodeWriteAt u (depth + 2) inode buffer size o).exec n w = some ((size : Int), w')
      else (inodeWriteAt u (depth + 2) inode buffer size o).exec n w = none := by
  have hblocks := h.newSectors_writeExt hi hlen hgrow hlt
  have hkmax := h.blocks_le hi
  rw [hk] at hblocks hkmax
  have hpos : 0 < size ∧ o < o + size ∧ o < 512 * (k + 1) ∧ 512 * k < o + size ∧
      o + size ≤ 512 * (k + 1) := by
    omega
  obtain ⟨m', d', hdr', L', b', d, hinv, -, hloop, hd, hstored, hexec⟩ :=
    h.exec_inodeWriteAt_grown depth hi hlen hgrow hlt hdeny hk rfl hnot u buffer
  have hw : Writable n d inode.sector k := hd ▸ writable_of_looped hinv hi hloop hlt hblocks.symm
    (by omega) fun j hj => exists_own_of_looped hloop (by omega) (by omega) fun hkj =>
      absurd hj (Nat.not_lt.mpr hkj)
  refine ⟨sectorOf u d inode.sector k, ?_, ?_⟩
  · by_cases hmax : k < maxBlocks
    · have hptr := hloop.ptr 0 (by omega)
      rw [Nat.add_zero, newSector_of_short (by rw [Bitmap.length_freeList]; omega)] at hptr
      left
      rw [sectorOf_of_lt u d _ hmax, hd, hinv.ptr_of_looped hi hloop _ (show k < _ by omega), hptr]
    · right
      rw [sectorOf, if_neg hmax]
  · rw [hexec]
    split
    · rename_i hlt'
      obtain ⟨d'', hrun⟩ := hw.exec_inodeWriteLoop_last u buffer 0 hstored
        le_rfl hpos.2.2.2.1 hpos.2.2.2.2 hpos.1 hlt'
      rw [Nat.zero_add] at hrun
      exact ⟨_, hrun⟩
    · rename_i hoff
      exact hw.exec_inodeWriteLoop_bad u buffer 0 hstored hpos.1 hpos.2.1 hpos.2.2.1
        (by rw [Nat.add_sub_cancel_left, Nat.min_self]; exact hpos.2.2.2.1) (Nat.not_lt.mp hoff)

/-- **A write that needs one more block at most.**  If the index blocks for it can be had, it stores
everything, or panics over the block itself; if they cannot, it stores what fits in the file. -/
theorem exec_inodeWriteAt_next (ho : o ≤ len) (hone : (o + size + 511) / 512 ≤ k + 1) (u : Uninit)
    (buffer : Nat → UInt8) {run : Option (Int × FsWorld)}
    (hrun : (inodeWriteAt u (depth + 2) inode buffer size o).exec n w = run) :
    ((o + size + 511) / 512 ≤ k ∨ k = maxBlocks ∨ indexNeed k ≤ w.mem.freeMap.freeCnt) ∧
        ((∃ w', run = some ((size : Int), w')) ∨
          run = none ∧ ¬ (u.allocSec < n ∧ u.returnSec < n)) ∨
      ¬ ((o + size + 511) / 512 ≤ k ∨ k = maxBlocks ∨ indexNeed k ≤ w.mem.freeMap.freeCnt) ∧
        ∃ (t : Nat) (w' : FsWorld), t < size ∧ run = some ((t : Int), w') := by
  have hblocks := h.newSectors_writeExt hi hlen hgrow hlt
  have hkmax := h.blocks_le hi
  rw [hk] at hblocks hkmax
  have href : Refused (newSectors len (writeExt len size o)) k w.mem.freeMap.freeCnt ↔ ¬ _ :=
    (refused_congr hblocks).trans (refused_next_iff hone hkmax)
  by_cases hadd : (o + size + 511) / 512 ≤ k ∨ k = maxBlocks ∨ indexNeed k ≤ w.mem.freeMap.freeCnt
  · refine .inl ⟨hadd, ?_⟩
    have hnot := fun hr => href.mp hr hadd
    by_cases hgood : (o + size + 511) / 512 ≤ maxBlocks ∧
        (k < (o + size + 511) / 512 → indexNeed k < w.mem.freeMap.freeCnt)
    · obtain ⟨w', hexec⟩ := h.exec_inodeWriteAt_shared depth hi hlen hgrow hlt hdeny hk hnot
        hgood.1 hgood.2 u buffer
      exact .inl ⟨w', hrun.symm.trans hexec⟩
    · obtain ⟨x, hx, hlast⟩ := h.exec_inodeWriteAt_last depth hi hlen hgrow hlt hdeny hk ho hnot
        (by omega) (by omega) u buffer
      split at hlast
      · obtain ⟨w', hexec⟩ := hlast
        exact .inl ⟨w', hrun.symm.trans hexec⟩
      · rename_i hoff
        refine .inr ⟨hrun.symm.trans hlast, fun hon => hoff ?_⟩
        rcases hx with rfl | rfl
        · exact Nat.lt_of_le_of_lt (Nat.mod_le _ _) hon.1
        · exact hon.2
  · refine .inr ⟨hadd, ?_⟩
    have hout : InodeDisk.length (w.disk inode.sector) < wrap32 ((o : Int) + size) := by
      rw [hlen, wrap32_of_mem] <;> omega
    obtain ⟨⟨m1, d1⟩, hok, hsame, hexec⟩ := h.exec_inodeWriteAt_refused depth hi hdeny hout
      (by rw [hlen, hk]; exact href.mpr hadd) u buffer
    dsimp only at hsame
    obtain ⟨t, d', ht, hloop, -⟩ := exec_inodeWriteLoop hi u buffer (size : Int).toNat size o 0 hok
      le_rfl (by rw [hsame]; omega)
    rw [hsame, hlen, Int.toNat_natCast] at ht
    rw [Nat.zero_add] at hloop
    exact ⟨t, _, by omega, hrun.symm.trans (hexec.trans hloop)⟩

/-- **Otherwise the write panics**, for some values of the uninitialised variables. -/
theorem exec_inodeWriteAt_unsafe (hn : n < 2 ^ 32) (ho : o ≤ len)
    (hnot : ¬ Refused (newSectors len (writeExt len size o)) k w.mem.freeMap.freeCnt)
    (hnew : k < (o + size + 511) / 512)
    (hbad : maxBlocks < (o + size + 511) / 512 ∨ w.mem.freeMap.freeCnt = indexNeed k)
    (buffer : Nat → UInt8) :
    (inodeWriteAt ⟨noSector, Block.fill 512 0, noSector⟩ (depth + 2) inode buffer size o).exec n w
      = none := by
  have hblocks := h.newSectors_writeExt hi hlen hgrow hlt
  have hkmax := h.blocks_le hi
  rw [hk] at hblocks hkmax
  obtain ⟨m', d', hdr', L', b', d, hinv, -, hloop, hd, hstored, hexec⟩ :=
    h.exec_inodeWriteAt_grown depth hi hlen hgrow hlt hdeny hk rfl hnot
      ⟨noSector, Block.fill 512 0, noSector⟩ buffer
  obtain ⟨g, hkg, hg, hw, hoff⟩ := hinv.bad_blocks hn hi hloop hlt hblocks hkmax hnew
    (by rw [Bitmap.length_freeList]; omega) (u := ⟨noSector, Block.fill 512 0, noSector⟩) rfl hd
  -- the loop starts in the file as it was, and comes to every new block
  have hreach : 0 < size ∧ o < o + size ∧ 512 * g < o + min size (o + size - o) := by
    clear hlt hn hblocks hstored
    omega
  rw [hexec]
  exact hw.exec_inodeWriteLoop_none hstored hoff buffer hreach.1 hreach.2.1 hreach.2.2

end Grow

end FsInv

/-! ## Safe positions -/

/-- `inode_read_at` gives the bytes that there are from the offset on, at most `size` of them, and
no access of it or of `inode_write_at` leaves the disk or its sector or is empty, whatever the
variables hold that the source does not initialise. -/
def AccessesSafe (n depth : Nat) (w : FsWorld) (inode : Inode) (size offset : Nat) : Prop :=
  ∀ (u : Uninit) (buffer : Nat → UInt8),
    (∃ bs, (inodeReadAt u inode size offset).exec n w = some (bs, w) ∧
      (bs.length : Int) = min (size : Int)
        (max 0 (InodeDisk.length (w.disk inode.sector) - offset))) ∧
    (inodeReadAt u inode size offset).Safe n w ∧
    (inodeWriteAt u (depth + 2) inode buffer size offset).Safe n w

/-- There is nothing to read or write; or the offset is not past the end of the file, and the write
is denied, or ends where no `int` can say, or needs no new block, or is refused for want of an index
block, or stays within the index and finds at least the first new sector of data. -/
def SafePosition (w : FsWorld) (inode : Inode) (size offset : Nat) : Prop :=
  size = 0 ∨
    (offset : Int) ≤ InodeDisk.length (w.disk inode.sector) ∧
      (inode.denyWriteCnt ≠ 0 ∨ 2 ^ 31 ≤ offset + size ∨
        (offset + size + 511) / 512 ≤ blocks (w.disk inode.sector) ∨
        Refused ((offset + size + 511) / 512 - blocks (w.disk inode.sector))
          (blocks (w.disk inode.sector)) w.mem.freeMap.freeCnt ∨
        (offset + size + 511) / 512 ≤ maxBlocks ∧
          w.mem.freeMap.freeCnt ≠ indexNeed (blocks (w.disk inode.sector)))

namespace FsInv

variable {n depth : Nat} {inodes : List Nat} {w : FsWorld} {inode : Inode} {size o len : Nat}

theorem exec_inodeReadAt_length (h : FsOk n inodes w) (hi : inode.sector ∈ inodes)
    (hlen : InodeDisk.length (w.disk inode.sector) = len) (ho : size = 0 ∨ o ≤ len) (u : Uninit) :
    ∃ bs, (inodeReadAt u inode size o).exec n w = some (bs, w) ∧
      (bs.length : Int)
        = min (size : Int) (max 0 (InodeDisk.length (w.disk inode.sector) - o)) := by
  rcases ho with rfl | ho
  · exact ⟨[], rfl, by simp only [List.length_nil]; omega⟩
  · have hread := h.exec_inodeReadAt inode hi u size (o := o) (by omega)
    refine ⟨_, hread, ?_⟩
    rw [List.length_map, List.length_range, hlen, Int.toNat_natCast]
    omega

theorem isSome_inodeWriteLoop (h : FsOk n inodes w) (hi : inode.sector ∈ inodes) (u : Uninit)
    (buffer : Nat → UInt8) (ho : (o : Int) ≤ InodeDisk.length (w.disk inode.sector)) :
    ((inodeWriteLoop u inode buffer size size o 0).exec n w).isSome := by
  obtain ⟨r, w', hexec, -⟩ := h.reads_back hi u buffer size ho
  rw [Int.toNat_natCast] at hexec
  rw [hexec]
  rfl

/-- **A write does not panic at a safe position.** -/
theorem isSome_inodeWriteAt (h : FsOk n inodes w) (hi : inode.sector ∈ inodes)
    (hlen : InodeDisk.length (w.disk inode.sector) = len) (ho : o < 2147483648)
    (hsize : size < 2147483648) (hsafe : SafePosition w inode size o) (u : Uninit)
    (buffer : Nat → UInt8) :
    ((inodeWriteAt u (depth + 2) inode buffer size o).exec n w).isSome := by
  by_cases hdeny : inode.denyWriteCnt = 0
  swap
  · rw [inodeWriteAt, if_pos hdeny]
    rfl
  rcases hsafe with rfl | ⟨hoff, hsafe⟩
  · -- the growth of a write of nothing, if there is one, does not panic
    by_cases hgrow : InodeDisk.length (w.disk inode.sector) < wrap32 ((o : Int) + (0 : Nat))
    · obtain ⟨m', d', hdr', L', -, -, hres⟩ := h.exec_inodeExpand_cases inode hi u
        (allocates_freeMapAllocateAt u depth) trivial
        (writeExt (InodeDisk.length (w.disk inode.sector)) (0 : Nat) o) rfl rfl
      rcases hres with ⟨-, hexec, -⟩ | ⟨-, -, hexec⟩ <;>
        · rw [h.exec_inodeWriteAt_of_expand hi hdeny hgrow hexec]
          rfl
    · rw [h.exec_inodeWriteAt_of_le hi hdeny (Int.not_lt.mp hgrow)]
      rfl
  by_cases hover : 2147483648 ≤ o + size
  · rw [h.exec_inodeWriteAt_of_le hi hdeny (by rw [wrap32, Int.bmod_def]; omega) u _ buffer]
    exact h.isSome_inodeWriteLoop hi u buffer hoff
  by_cases hgrow : o + size ≤ len
  · rw [h.exec_inodeWriteAt_of_le hi hdeny (by rw [wrap32_of_mem] <;> omega) u _ buffer]
    exact h.isSome_inodeWriteLoop hi u buffer hoff
  rw [Nat.not_le] at hover hgrow
  have hblocks := h.newSectors_writeExt hi hlen hgrow hover
  have hkmax := h.blocks_le hi
  by_cases href : Refused (newSectors len (writeExt len size o)) (blocks (w.disk inode.sector))
      w.mem.freeMap.freeCnt
  · have hout : InodeDisk.length (w.disk inode.sector) < wrap32 ((o : Int) + size) := by
      rw [wrap32_of_mem] <;> omega
    obtain ⟨w1, hok, hsame, hexec⟩ := h.exec_inodeWriteAt_refused depth hi hdeny hout
      (by rw [hlen]; exact href) u buffer
    rw [hexec]
    exact hok.isSome_inodeWriteLoop hi u buffer (hsame ▸ hoff)
  · have hcases : (o + size + 511) / 512 ≤ blocks (w.disk inode.sector) ∨
        (o + size + 511) / 512 ≤ maxBlocks ∧
          w.mem.freeMap.freeCnt ≠ indexNeed (blocks (w.disk inode.sector)) := by
      rcases hsafe with hsafe | hsafe | hsafe | hsafe | hsafe
      · exact absurd hdeny hsafe
      · exact absurd hsafe (Nat.not_le.mpr hover)
      · exact .inl hsafe
      · exact absurd ((refused_congr hblocks).mpr hsafe) href
      · exact .inr hsafe
    have hfirst : blocks (w.disk inode.sector) < (o + size + 511) / 512 →
        indexNeed (blocks (w.disk inode.sector)) < w.mem.freeMap.freeCnt := by
      intro hnew
      obtain ⟨hmax, hne⟩ := hcases.resolve_left (Nat.not_le.mpr hnew)
      have hlt := hnew.trans_le hmax
      by_contra hle
      exact hne (eq_indexNeed_of_not_refused (by omega) hlt href (Nat.not_lt.mp hle))
    obtain ⟨w', hexec⟩ := h.exec_inodeWriteAt_shared depth hi hlen hgrow hover hdeny rfl
      href (by omega) hfirst u buffer
    rw [hexec]
    rfl

end FsInv

/-- **When the accesses are safe.**  For every file, offset and size, a read delivers what it should
and no access of the read or the write goes wrong if and only if the position is safe. -/
theorem accesses_safe_iff {n depth : Nat} {inodes : List Nat} {w : FsWorld} {inode : Inode}
    (h : FsOk n inodes w) (hn : n < 2 ^ 32) (hi : inode.sector ∈ inodes) {size offset : Nat}
    (hsize : size < 2 ^ 31) (hoff : offset < 2 ^ 31) :
    AccessesSafe n depth w inode size offset ↔ SafePosition w inode size offset := by
  obtain ⟨len, hlen⟩ := Int.eq_ofNat_of_zero_le (h.length _ hi).1
  constructor
  · intro hsafe
    obtain ⟨⟨bs, hread, -⟩, -⟩ := hsafe ⟨0, Block.fill 512 0, 0⟩ fun _ => 0
    obtain ⟨-, -, hwrite⟩ := hsafe ⟨noSector, Block.fill 512 0, noSector⟩ fun _ => 0
    rw [(sized_inodeWriteAt _ _ _ _ _ _).safe_iff] at hwrite
    by_contra hbad
    rw [SafePosition, not_or] at hbad
    obtain ⟨hpos, hbad⟩ := hbad
    have hin : (offset : Int) ≤ InodeDisk.length (w.disk inode.sector) := by
      by_contra hout
      rw [inodeReadAt, Int.toNat_natCast, show size = size - 1 + 1 by omega,
        (h.indexes hi).exec_inodeReadLoop_past _ _ (by omega) (Int.not_le.mp hout)
          (by exact_mod_cast hoff)] at hread
      cases hread
    rw [and_iff_right hin] at hbad
    simp only [not_or, not_not, Nat.not_le] at hbad
    obtain ⟨hdeny, hover, hnew, href, hcan⟩ := hbad
    have hgrow : len < offset + size := by
      rw [blocks] at hnew
      omega
    have hblocks := h.newSectors_writeExt hi hlen hgrow hover
    rw [h.exec_inodeWriteAt_unsafe hi hlen hgrow hover hdeny rfl hn (by omega)
      (fun hr => href ((refused_congr hblocks).mp hr)) hnew (by omega)] at hwrite
    cases hwrite
  · intro hsafe u buffer
    have hin : size = 0 ∨ offset ≤ len := by
      rcases hsafe with hzero | ⟨hin, -⟩
      · exact .inl hzero
      · exact .inr (by omega)
    have hread := h.exec_inodeReadAt_length hi hlen hin u
    refine ⟨hread, ?_, ?_⟩
    · rw [(sized_inodeReadAt _ _ _ _).safe_iff]
      obtain ⟨bs, hexec, -⟩ := hread
      rw [hexec]
      rfl
    · rw [(sized_inodeWriteAt _ _ _ _ _ _).safe_iff]
      exact h.isSome_inodeWriteAt hi hlen hoff hsize hsafe u buffer

theorem accesses_safe_iff_formatted :
    ∃ w, FsOk 8 [rootDirSector, freeMapSector] w ∧
      (AccessesSafe 8 0 w ⟨rootDirSector, 0⟩ 1 0 ↔ SafePosition w ⟨rootDirSector, 0⟩ 1 0) := by
  obtain ⟨w, -, hok, -⟩ := exists_formatted
  exact ⟨w, hok, accesses_safe_iff hok (by decide) (by decide) (by decide) (by decide)⟩

/-- **A read past the end goes wrong.**  In the root directory of a fresh disk of eight sectors, a
read of one byte just past what a file can hold panics. -/
theorem read_past_end_unsafe :
    ∃ w, (filesysInit ⟨0, Block.fill 512 0, 0⟩ 1).exec 8
        ⟨freeMapInit 8, fun _ => Block.fill 512 0⟩ = some ((), w) ∧
      FsOk 8 [rootDirSector, freeMapSector] w ∧
      (∀ u, (inodeReadAt u ⟨rootDirSector, 0⟩ 1 (maxLength + 1)).exec 8 w = none) ∧
      ¬ AccessesSafe 8 0 w ⟨rootDirSector, 0⟩ 1 (maxLength + 1) := by
  obtain ⟨w, hinit, hok, -⟩ := exists_formatted
  have hroot : Inode.sector ⟨rootDirSector, 0⟩ ∈ [rootDirSector, freeMapSector] := by decide
  have hlen := (hok.length rootDirSector hroot).2
  have hread : ∀ u, (inodeReadAt u ⟨rootDirSector, 0⟩ 1 (maxLength + 1)).exec 8 w = none :=
    fun u => (hok.indexes hroot).exec_inodeReadLoop_past u 0 (by decide)
      (Int.lt_add_one_of_le hlen) (by decide)
  refine ⟨w, hinit, hok, hread, fun hsafe => ?_⟩
  obtain ⟨⟨bs, hexec, -⟩, -⟩ := hsafe ⟨0, Block.fill 512 0, 0⟩ fun _ => 0
  rw [show ((1 : Nat) : Int) = 1 from rfl, Int.natCast_add, Int.natCast_one, hread] at hexec
  cases hexec

end Pintos
