import Pintos.Filesys.Accesses

/-!
# What new bytes read as

`inode_expand` gives a file sectors from the free map as they are: it fills new index blocks, with
an array that it does not initialise, and never writes to a new sector of data, nor to what is left
of the last sector that the file had.  So a new byte reads as zero exactly if its place on the disk
held zero before.

* `ReadsZero n w i pos`: byte `pos` of the file in sector `i` reads as zero.
* `CreatesZero`: a file that `inode_create` has made reads as zero.
* `GapReadsZero`: after a write past the end of the file that has made it longer, the bytes from the
  old end to the offset read as zero.
* `new_bytes_zero_iff`: both, in terms of the disk before.
-/

namespace Pintos

open Bytes Prog
open Function (update update_of_ne update_self)
open Bytes.Block (fill)

/-- Byte `pos` of the file in sector `i` reads as zero, for every thread. -/
def ReadsZero (n : Nat) (w : FsWorld) (i pos : Nat) : Prop :=
  ∀ (u : Uninit) (denyWriteCnt : Nat),
    (inodeReadAt u ⟨i, denyWriteCnt⟩ 1 pos).exec n w = some ([0], w)

/-- If `inode_create` returns true, the file reads as zero. -/
def CreatesZero (n depth : Nat) (w : FsWorld) (cwd sector length : Nat) (isDir : Bool) : Prop :=
  ∀ u w', (inodeCreate u (depth + 1) cwd sector length isDir).exec n w = some (true, w') →
    ∀ pos < length, ReadsZero n w' sector pos

/-- If the growth that `inode_write_at` asks for comes to its end, the bytes between the old end of
the file and the offset read as zero after the write. -/
def GapReadsZero (n depth : Nat) (w : FsWorld) (inode : Inode) (size offset : Nat) : Prop :=
  inode.denyWriteCnt = 0 →
    InodeDisk.length (w.disk inode.sector) < wrap32 ((offset : Int) + size) →
    ∀ u buffer w₁, (inodeExpand u (freeMapAllocateAt u (depth + 1)) inode
        (FsInv.writeExt (InodeDisk.length (w.disk inode.sector)) size offset)).exec n w
          = some (true, w₁) →
      ∃ r w', (inodeWriteAt u (depth + 2) inode buffer size offset).exec n w = some (r, w') ∧
        ∀ pos : Nat, InodeDisk.length (w.disk inode.sector) ≤ pos → pos < offset →
          ReadsZero n w' inode.sector pos

/-- A file of length 0 has no byte; one that is refused does not come about; and otherwise the index
has room for the file, there is a sector, and all the sectors that it gets hold zero as far as the
file reaches into them. -/
def ClearForCreate (w : FsWorld) (length : Nat) : Prop :=
  length = 0 ∨ Refused ((length + 511) / 512) 0 w.mem.freeMap.freeCnt ∨
    (length + 511) / 512 ≤ maxBlocks ∧ 0 < w.mem.freeMap.freeCnt ∧
      ∀ pos < length,
        (w.disk (newSector w.mem.freeMap.freeList 0 0 (pos / 512))).get (pos % 512) = 0

/-- The write is denied, or ends where no `int` can say, or is refused, so that the file does not
grow; or the index has room for the file, the first new block has a sector, and the places of the
bytes in the gap hold zero and are not those of bytes that the write stores. -/
def ClearForWrite (w : FsWorld) (inode : Inode) (size offset : Nat) : Prop :=
  inode.denyWriteCnt ≠ 0 ∨ 2 ^ 31 ≤ offset + size ∨
    Refused ((offset + size + 511) / 512 - blocks (w.disk inode.sector))
      (blocks (w.disk inode.sector)) w.mem.freeMap.freeCnt ∨
    (offset + size + 511) / 512 ≤ maxBlocks ∧
      (blocks (w.disk inode.sector) < (offset + size + 511) / 512 →
        indexNeed (blocks (w.disk inode.sector)) < w.mem.freeMap.freeCnt) ∧
      ∀ pos : Nat, InodeDisk.length (w.disk inode.sector) ≤ pos → pos < offset →
        (w.disk (grownSector w inode.sector (pos / 512))).get (pos % 512) = 0 ∧
          ∀ q, offset ≤ q → q < offset + size →
            ¬ (grownSector w inode.sector (q / 512) = grownSector w inode.sector (pos / 512) ∧
              q % 512 = pos % 512)

/-! ## Reading one byte -/

variable {n i len pos : Nat} {m : FreeMap} {d : Disk}

theorem Writable.readsZero_iff {g : Nat} (h : Writable n d i g)
    (hlen : InodeDisk.length (d i) = len) (hpos : pos < len) (hg : pos / 512 < g) :
    ReadsZero n ⟨m, d⟩ i pos ↔ fileByte d i pos = 0 := by
  have hcap := maxBlocks_eq
  have hle := h.le
  have hread : ∀ u denyWriteCnt, (inodeReadAt u ⟨i, denyWriteCnt⟩ 1 pos).exec n ⟨m, d⟩
      = some ([fileByte d i pos], ⟨m, d⟩) := by
    intro u denyWriteCnt
    have hind : Indexes n d (Inode.sector ⟨i, denyWriteCnt⟩) := h.toIndexes
    rw [hind.exec_inodeReadAt_one u (by dsimp only; rw [hlen]; omega) (by omega)]
    rw [sectorOf_of_lt u d i (by omega), if_pos (h.data_lt _ hg), fileByte]
  constructor
  · intro hzero
    have hbyte := hzero ⟨0, fill 512 0, 0⟩ 0
    rw [hread, Option.some_inj, Prod.mk.injEq, List.singleton_inj] at hbyte
    exact hbyte.1
  · intro hzero u denyWriteCnt
    rw [hread, hzero]

theorem Indexes.not_readsZero (h : Indexes n d i) (hlen : InodeDisk.length (d i) = len)
    (hpos : pos < len) (hsmall : pos + 512 < 2 ^ 31) {u : Uninit}
    (hoff : n ≤ sectorOf u d i (pos / 512)) : ¬ ReadsZero n ⟨m, d⟩ i pos := by
  intro hzero
  have hread := hzero u 0
  have hind : Indexes n d (Inode.sector ⟨i, 0⟩) := h
  rw [hind.exec_inodeReadAt_one u (by dsimp only; rw [hlen]; omega) hsmall,
    if_neg (Nat.not_lt.mpr hoff)] at hread
  cases hread

namespace FsInv

variable {n depth : Nat} {inodes : List Nat} {w : FsWorld} {inode : Inode}

/-! ## Creating a file -/

section Create

variable {s : Nat} (h : FsOk n inodes w) (hs : s < n) (hmark : w.mem.freeMap.bits s = true)
  (hunused : ∀ j v, OnDisk inodes w.disk j v → v.ptr w.disk j (w.disk j) ≠ s) (cwd : Nat)
  (isDir : Bool) {length : Nat} (hlt : length < 2147483648)

include h hs hmark hunused hlt

variable (depth) in
/-- **`inode_create`** on any disk, on a marked sector `s` that no file uses.  It grows a file that
is empty, and has no block. -/
theorem exec_inodeCreate_cases (u : Uninit) {w1 : FsWorld}
    (hw1 : w1 = ⟨w.mem, update w.disk s (InodeDisk.create isDir cwd)⟩) :
    FsOk n (s :: inodes) w1 ∧ blocks (w1.disk s) = 0 ∧
      ∃ remain m' d' hdr' L', min (0 + remain) maxBlocks = min ((length + 511) / 512) maxBlocks ∧
        FsInv n (s :: inodes) ⟨m', d'⟩ hdr' L' ∧
        Grows s (min w.mem.freeMap.freeCnt (sectorNeed (min ((length + 511) / 512) maxBlocks) 0)) w1
          w1.disk (OnDisk (s :: inodes) w1.disk) ⟨m', d'⟩ hdr' L' ∧
        (Refused ((length + 511) / 512) 0 w.mem.freeMap.freeCnt ∧
            (inodeCreate u (depth + 1) cwd s length isDir).exec n w = some (false, ⟨m', d'⟩) ∨
          ¬ Refused ((length + 511) / 512) 0 w.mem.freeMap.freeCnt ∧
            (∃ b', Looped s 0 0 remain u.allocSec w.mem.freeMap.freeList ⟨m', d'⟩ hdr' L' b') ∧
            (inodeCreate u (depth + 1) cwd s length isDir).exec n w
              = some (true, ⟨m', update d' s
                (InodeDisk.setLength (hdr' s) length)⟩)) := by
  have hlen : InodeDisk.length (w1.disk s) = 0 := by
    rw [hw1]
    dsimp only
    rw [update_self, length_create]
  have hk : blocks (w1.disk s) = 0 := by
    rw [blocks, hlen]
    rfl
  have hok : FsOk n (s :: inodes) w1 := hw1 ▸ (h.addInode hs hmark hunused
    (length_create isDir cwd)).1
  have hmem : Inode.sector ⟨s, 0⟩ ∈ s :: inodes := .head _
  have hexec : (inodeCreate u (depth + 1) cwd s length isDir).exec n w
      = (inodeExpand u (freeMapAllocateAt u (depth + 1)) ⟨s, 0⟩ length).exec n w1 := by
    rw [inodeCreate, if_neg (by omega), exec_bind_of_eq (exec_writeSector hs _), hw1]
  have hblocks : min (0 + newSectors 0 length) maxBlocks
      = min ((length + 511) / 512) maxBlocks := by
    rcases Nat.eq_zero_or_pos length with rfl | hpos
    · rfl
    · have hlen' : InodeDisk.length (w1.disk (Inode.sector ⟨s, 0⟩)) = (0 : Nat) := hlen
      have hnew := newSectors_writeExt hok hmem hlen' (Nat.add_pos_right 0 hpos) (by omega)
      have hext : writeExt (0 : Nat) length (0 : Nat) = length := by
        rw [writeExt, wrap32_of_mem] <;> omega
      rw [hext, hk] at hnew
      simpa using hnew
  have href : Refused (newSectors 0 length) 0 w.mem.freeMap.freeCnt ↔
      Refused ((length + 511) / 512) 0 w.mem.freeMap.freeCnt := refused_congr hblocks
  obtain ⟨m', d', hdr', L', hinv, hgrow, hres⟩ := hok.exec_inodeExpand_cases ⟨s, 0⟩ hmem u
    (allocates_freeMapAllocateAt u depth) trivial length hk rfl
  rw [hlen, Nat.sub_zero, ← Nat.zero_add (newSectors 0 length), hblocks,
    show w1.mem = w.mem by rw [hw1]] at hgrow
  refine ⟨hok, hk, newSectors 0 length, m', d', hdr', L', hblocks, hinv, hgrow, ?_⟩
  have hnew : wrap32 (0 + (length : Int)) = length := by
    rw [wrap32_of_mem] <;> omega
  rw [hexec, ← href]
  rw [hlen, hnew] at hres
  rw [hw1] at hres ⊢
  rcases hres with ⟨h1, h2, -⟩ | hres
  · exact .inl ⟨h1, h2⟩
  · exact .inr hres

variable (depth) in
/-- **With the first sector there** and room in the index, every byte of the new file reads as what
its place on the disk held before. -/
theorem exec_inodeCreate_full (hnot : ¬ Refused ((length + 511) / 512) 0 w.mem.freeMap.freeCnt)
    (hmax : (length + 511) / 512 ≤ maxBlocks) (hfree : 0 < w.mem.freeMap.freeCnt) (u : Uninit) :
    ∃ w', (inodeCreate u (depth + 1) cwd s length isDir).exec n w = some (true, w') ∧
      ∀ pos < length, (ReadsZero n w' s pos ↔
        (w.disk (newSector w.mem.freeMap.freeList 0 0 (pos / 512))).get (pos % 512) = 0) := by
  generalize hw1 : (⟨w.mem, update w.disk s (InodeDisk.create isDir cwd)⟩ : FsWorld) = w1
  obtain ⟨hok, hk, remain, m', d', hdr', L', hblocks, hinv, hgrow, hres⟩ :=
    h.exec_inodeCreate_cases depth hs hmark hunused cwd isDir hlt u hw1.symm
  have hmem : w1.mem = w.mem := by rw [← hw1]
  obtain ⟨-, ⟨b', hloop⟩, hexec⟩ := hres.resolve_left fun href => hnot href.1
  refine ⟨_, hexec, fun pos hpos => ?_⟩
  have hmap : w1.mem.freeMapFile ≠ none → s ≠ freeMapSector := by
    rintro hfile rfl
    rw [hmem] at hfile
    obtain ⟨file, hf⟩ := Option.ne_none_iff_exists'.mp hfile
    exact hunused _ .inode ⟨(h.map file hf).2.1, trivial⟩ rfl
  obtain ⟨hw, hplace⟩ := grown_blocks hok hinv hgrow (.head _) hmap hk
    (by rw [hmem]; exact hloop) hlt hblocks hmax (fun _ => by rw [hmem]; exact hfree) rfl
  obtain ⟨hptr, hsame⟩ := hplace (pos / 512) (by omega)
  rw [hw.readsZero_iff (by rw [update_self, length_setLength] <;> omega) hpos (by omega),
    fileByte, hptr, hsame]
  -- the sector was free, and so is not that of the inode
  have hfirst : indexNeed 0 < w.mem.freeMap.freeList.length := by
    rw [Bitmap.length_freeList]
    exact hfree
  have hnew := newSector_mem hfirst 0 (pos / 512)
  rw [Bitmap.mem_freeList] at hnew
  rw [grownSector, hk, if_neg (Nat.not_lt_zero _), Nat.sub_zero, hmem, ← hw1]
  dsimp only
  rw [update_of_ne]
  rintro rfl
  rw [hmark] at hnew
  exact absurd hnew.2 Bool.noConfusion

variable (depth) in
/-- **Otherwise** some byte cannot be read, for some values of the uninitialised variables. -/
theorem exec_inodeCreate_bad (hn : n < 2 ^ 32) (hpos : 0 < length)
    (hnot : ¬ Refused ((length + 511) / 512) 0 w.mem.freeMap.freeCnt)
    (hbad : maxBlocks < (length + 511) / 512 ∨ w.mem.freeMap.freeCnt = 0) :
    ∃ w' pos, (inodeCreate ⟨noSector, fill 512 0, noSector⟩ (depth + 1) cwd s length
        isDir).exec n w = some (true, w') ∧ pos < length ∧ ¬ ReadsZero n w' s pos := by
  obtain ⟨hok, hk, remain, m', d', hdr', L', hblocks, hinv, -, hres⟩ :=
    h.exec_inodeCreate_cases depth hs hmark hunused cwd isDir hlt
      ⟨noSector, fill 512 0, noSector⟩ rfl
  obtain ⟨-, ⟨b', hloop⟩, hexec⟩ := hres.resolve_left fun href => hnot href.1
  obtain ⟨g, -, hg, hw, hoff⟩ := hinv.bad_blocks hn (.head _) hloop hlt hblocks
    (Nat.zero_le _) (by omega) (by rw [Bitmap.length_freeList]; omega)
    (u := ⟨noSector, fill 512 0, noSector⟩) rfl rfl
  have hle := hw.le.trans (Nat.min_le_right _ _)
  rw [maxBlocks_eq] at hle
  refine ⟨_, 512 * g, hexec, by omega, hw.toIndexes.not_readsZero
    (by rw [update_self, length_setLength] <;> omega) (by omega) (by omega)
    (hoff (512 * g / 512) ?_ ?_)⟩ <;> omega

/-- **When a file is created that reads as zero.** -/
theorem createsZero_iff (hn : n < 2 ^ 32) :
    CreatesZero n depth w cwd s length isDir ↔ ClearForCreate w length := by
  constructor
  · intro hzero
    by_contra hbad
    rw [ClearForCreate, not_or, not_or] at hbad
    obtain ⟨hpos, hnot, hbad⟩ := hbad
    by_cases hgood : (length + 511) / 512 ≤ maxBlocks ∧ 0 < w.mem.freeMap.freeCnt
    · obtain ⟨w', hexec, hread⟩ := h.exec_inodeCreate_full depth hs hmark hunused cwd
        isDir hlt hnot hgood.1 hgood.2 ⟨0, fill 512 0, 0⟩
      exact hbad ⟨hgood.1, hgood.2, fun pos hpos =>
        (hread pos hpos).mp (hzero _ w' hexec pos hpos)⟩
    · obtain ⟨w', pos, hexec, hpos, hread⟩ := h.exec_inodeCreate_bad depth hs hmark hunused
        cwd isDir hlt hn (Nat.pos_of_ne_zero hpos) hnot (by omega)
      exact hread (hzero _ w' hexec pos hpos)
  · intro hclear u w' hexec pos hpos
    have hnot : ¬ Refused ((length + 511) / 512) 0 w.mem.freeMap.freeCnt := by
      intro href
      obtain ⟨-, -, remain, m', d', hdr', L', -, -, -, hres⟩ :=
        h.exec_inodeCreate_cases depth hs hmark hunused cwd isDir hlt u rfl
      obtain ⟨-, hfail⟩ := hres.resolve_right fun hrun => hrun.1 href
      rw [hexec] at hfail
      cases hfail
    rcases hclear with rfl | href | ⟨hmax, hfree, hclear⟩
    · exact absurd hpos (Nat.not_lt_zero pos)
    · exact absurd href hnot
    · obtain ⟨w'', hexec', hread⟩ := h.exec_inodeCreate_full depth hs hmark hunused cwd
        isDir hlt hnot hmax hfree u
      rw [hexec, Option.some_inj, Prod.mk.injEq] at hexec'
      rw [hexec'.2, hread pos hpos]
      exact hclear pos hpos

end Create

/-! ## Writing past the end -/

variable {size o len : Nat}

section Write

variable (h : FsOk n inodes w) (hi : inode.sector ∈ inodes) (hdeny : inode.denyWriteCnt = 0)
  (hlen : InodeDisk.length (w.disk inode.sector) = len) (hlt : o + size < 2147483648)
  (hnot : ¬ Refused ((o + size + 511) / 512 - blocks (w.disk inode.sector))
    (blocks (w.disk inode.sector)) w.mem.freeMap.freeCnt)

include h hi hdeny hlen hlt hnot

variable (depth) in
/-- **With the first new sector there** and room in the index, a byte before the offset reads as
zero if its place held zero and nothing is stored there. -/
theorem exec_inodeWriteAt_full (hi0 : inode.sector ≠ freeMapSector) (hgrow : len < o + size)
    (hmax : (o + size + 511) / 512 ≤ maxBlocks)
    (hfirst : blocks (w.disk inode.sector) < (o + size + 511) / 512 →
      indexNeed (blocks (w.disk inode.sector)) < w.mem.freeMap.freeCnt) (u : Uninit)
    (buffer : Nat → UInt8) :
    ∃ w', (inodeWriteAt u (depth + 2) inode buffer size o).exec n w = some ((size : Int), w') ∧
      ∀ pos < o + size,
        (∃ q, o ≤ q ∧ q < o + size ∧
            (grownSector w inode.sector (q / 512) = grownSector w inode.sector (pos / 512) ∧
              q % 512 = pos % 512) ∧
            (ReadsZero n w' inode.sector pos ↔ buffer (q - o) = 0)) ∨
          (∀ q, o ≤ q → q < o + size →
            ¬ (grownSector w inode.sector (q / 512) = grownSector w inode.sector (pos / 512) ∧
              q % 512 = pos % 512)) ∧
            (ReadsZero n w' inode.sector pos ↔
              (w.disk (grownSector w inode.sector (pos / 512))).get (pos % 512) = 0) := by
  have hblocks := h.newSectors_writeExt hi hlen hgrow hlt
  have hdiv : ∀ q < o + size, q / 512 < (o + size + 511) / 512 := by
    clear hlt hblocks
    omega
  have hfit : o + min size (o + size - o) ≤ 512 * ((o + size + 511) / 512) := by
    clear hlt hblocks
    omega
  obtain ⟨m', d', hdr', L', b', d, hinv, hgrows, hloop, hd, hstored, hexec⟩ :=
    h.exec_inodeWriteAt_grown depth hi hlen hgrow hlt hdeny rfl rfl
      (fun href => hnot ((refused_congr hblocks).mp href)) u buffer
  obtain ⟨hw, hplace⟩ := grown_blocks h hinv hgrows hi (fun _ => hi0) rfl hloop hlt hblocks hmax
    hfirst hd
  have hnew : min (blocks (d inode.sector)) maxBlocks = (o + size + 511) / 512 := by
    rw [blocks, hstored, Int.toNat_natCast, Nat.min_eq_left hmax]
  obtain ⟨d'', hrun, honly, hstores⟩ := hw.exec_inodeWriteLoop u buffer size size o 0
    le_rfl hstored (Nat.le_add_right o size) hfit
  rw [Nat.add_sub_cancel_left, Nat.min_self] at hrun hstores
  rw [Nat.zero_add] at hrun
  refine ⟨_, hexec.trans hrun, fun pos hpos => ?_⟩
  have hbyte : ReadsZero n ⟨m', d''⟩ inode.sector pos ↔ fileByte d'' inode.sector pos = 0 :=
    (hw.onlyBlocks honly).readsZero_iff (by rw [hw.header_eq honly, hstored]) hpos (hdiv pos hpos)
  have hsame : ∀ q, q < o + size → (bytePlace d inode.sector q = bytePlace d inode.sector pos ↔
      grownSector w inode.sector (q / 512) = grownSector w inode.sector (pos / 512) ∧
        q % 512 = pos % 512) := by
    intro q hq
    rw [bytePlace, bytePlace, (hplace _ (hdiv q hq)).1, (hplace _ (hdiv pos hpos)).1, Prod.mk.injEq]
  rcases hstores pos (by rw [hnew]; exact hdiv pos hpos) with ⟨q, h1, h2, hq, hval⟩ | ⟨hnone, hval⟩
  · refine .inl ⟨q, h1, h2, (hsame q h2).mp hq, ?_⟩
    rw [hbyte, hval, Nat.zero_add]
  · refine .inr ⟨fun q h1 h2 hq => hnone q h1 h2 ((hsame q h2).mpr hq), ?_⟩
    obtain ⟨hptr, hcont⟩ := hplace _ (hdiv pos hpos)
    rw [hbyte, hval, fileByte, hptr, hcont]

/-- **Otherwise** the write panics or leaves a byte that cannot be read, for some values of the
uninitialised variables. -/
theorem exec_inodeWriteAt_bad (hn : n < 2 ^ 32) (hout : len < o)
    (hnew : blocks (w.disk inode.sector) < (o + size + 511) / 512)
    (hbad : maxBlocks < (o + size + 511) / 512 ∨
      w.mem.freeMap.freeCnt ≤ indexNeed (blocks (w.disk inode.sector))) {r : Int} {w' : FsWorld}
    (hexec : (inodeWriteAt ⟨noSector, fill 512 0, noSector⟩ (depth + 2) inode (fun _ => 0)
      size o).exec n w = some (r, w')) :
    ∃ pos, len ≤ pos ∧ pos < o ∧ ¬ ReadsZero n w' inode.sector pos := by
  have hgrow : len < o + size := hout.trans_le (Nat.le_add_right o size)
  have hblocks := h.newSectors_writeExt hi hlen hgrow hlt
  have hlenk : len ≤ 512 * blocks (w.disk inode.sector) := by
    rw [blocks, hlen]
    omega
  obtain ⟨m', d', hdr', L', b', d, hinv, -, hloop, hd, hstored, hrun⟩ :=
    h.exec_inodeWriteAt_grown depth hi hlen hgrow hlt hdeny rfl rfl
      (fun href => hnot ((refused_congr hblocks).mp href)) ⟨noSector, fill 512 0, noSector⟩
      fun _ => 0
  obtain ⟨g, hkg, hg, hw, hoff⟩ := hinv.bad_blocks hn hi hloop hlt hblocks (h.blocks_le hi) hnew
    (by rw [Bitmap.length_freeList]; exact hbad) (u := ⟨noSector, fill 512 0, noSector⟩) rfl hd
  have hgmax : g ≤ 16576 := hw.le.trans (Nat.min_le_right _ _)
  have hreach : 512 * g < o + size ∧ len ≤ 512 * g := by
    clear hlt hblocks hbad hstored
    omega
  rw [hrun] at hexec
  rcases Nat.eq_zero_or_pos size with rfl | hsize
  · -- nothing is written, and the first byte of the block is in the gap
    obtain ⟨-, rfl⟩ : (0 : Int) = r ∧ (⟨m', d⟩ : FsWorld) = w' := by
      rwa [inodeWriteLoop, exec_pure, Option.some_inj, Prod.mk.injEq] at hexec
    refine ⟨512 * g, hreach.2, hreach.1, hw.toIndexes.not_readsZero hstored hreach.1 (by omega)
      (hoff (512 * g / 512) ?_ ?_)⟩ <;> rw [Nat.mul_div_cancel_left g (by decide)]
    exact hg
  · rw [hw.exec_inodeWriteLoop_none hstored hoff _ hsize (Nat.lt_add_of_pos_right hsize)
      (by rw [Nat.add_sub_cancel_left, Nat.min_self]; exact hreach.1)] at hexec
    cases hexec

end Write

variable (depth) in
theorem inodeExpand_true_iff (h : FsOk n inodes w) (hi : inode.sector ∈ inodes) (u : Uninit)
    (ext : Int) :
    (∃ w1, (inodeExpand u (freeMapAllocateAt u (depth + 1)) inode ext).exec n w = some (true, w1)) ↔
      ¬ Refused (newSectors (InodeDisk.length (w.disk inode.sector)) ext)
        (blocks (w.disk inode.sector)) w.mem.freeMap.freeCnt := by
  obtain ⟨m', d', hdr', L', -, -, hres⟩ := h.exec_inodeExpand_cases inode hi u
    (allocates_freeMapAllocateAt u depth) trivial ext rfl rfl
  rcases hres with ⟨href, hexec, -⟩ | ⟨hnot, -, hexec⟩
  · refine iff_of_false ?_ (not_not.mpr href)
    rintro ⟨w1, htrue⟩
    rw [hexec] at htrue
    cases htrue
  · exact iff_of_true ⟨_, hexec⟩ hnot

/-- **When the gap reads as zero.** -/
theorem gapReadsZero_iff (h : FsOk n inodes w) (hn : n < 2 ^ 32) (hi : inode.sector ∈ inodes)
    (hi0 : inode.sector ≠ freeMapSector) (hsize : size < 2147483648) (ho : o < 2147483648)
    (hout : InodeDisk.length (w.disk inode.sector) < o) :
    GapReadsZero n depth w inode size o ↔ ClearForWrite w inode size o := by
  obtain ⟨len, hlen⟩ := Int.eq_ofNat_of_zero_le (h.length _ hi).1
  by_cases hdeny : inode.denyWriteCnt = 0
  swap
  · exact ⟨fun _ => .inl hdeny, fun _ hzero => absurd hzero hdeny⟩
  by_cases hover : 2 ^ 31 ≤ o + size
  · refine ⟨fun _ => .inr (.inl hover), fun _ _ hgrow => ?_⟩
    rw [hlen, wrap32, Int.bmod_def] at hgrow
    omega
  rw [Nat.not_le] at hover
  have hgrow : len < o + size := by omega
  have hwrap : InodeDisk.length (w.disk inode.sector) < wrap32 ((o : Int) + size) := by
    rw [wrap32_of_mem] <;> omega
  have htrue := fun u => h.inodeExpand_true_iff depth hi u
    (writeExt (InodeDisk.length (w.disk inode.sector)) size o)
  have hblocks := h.newSectors_writeExt hi hlen hgrow hover
  rw [← hlen] at hblocks
  simp only [refused_congr hblocks] at htrue
  by_cases href : Refused ((o + size + 511) / 512 - blocks (w.disk inode.sector))
      (blocks (w.disk inode.sector)) w.mem.freeMap.freeCnt
  · exact ⟨fun _ => .inr (.inr (.inl href)), fun _ _ _ u _ w1 hexec =>
      absurd href ((htrue u).mp ⟨w1, hexec⟩)⟩
  constructor
  · intro hzero
    refine .inr (.inr (.inr ?_))
    by_cases hgood : (o + size + 511) / 512 ≤ maxBlocks ∧
        (blocks (w.disk inode.sector) < (o + size + 511) / 512 →
          indexNeed (blocks (w.disk inode.sector)) < w.mem.freeMap.freeCnt)
    · obtain ⟨w1, hexpand⟩ := (htrue ⟨0, fill 512 0, 0⟩).mpr href
      obtain ⟨r, w', hexec, hread⟩ := hzero hdeny hwrap ⟨0, fill 512 0, 0⟩ (fun _ => 1) w1
        hexpand
      obtain ⟨w'', hexec', hbytes⟩ := h.exec_inodeWriteAt_full depth hi hdeny hlen
        hover href hi0 hgrow hgood.1 hgood.2 ⟨0, fill 512 0, 0⟩ fun _ => 1
      rw [hexec, Option.some_inj, Prod.mk.injEq] at hexec'
      refine ⟨hgood.1, hgood.2, fun pos h1 h2 => ?_⟩
      have hpos := hread pos h1 h2
      rw [hexec'.2] at hpos
      rcases hbytes pos (h2.trans_le (Nat.le_add_right o size)) with
        ⟨q, -, -, -, hval⟩ | ⟨hnone, hval⟩
      · exact absurd (hval.mp hpos) (by decide)
      · exact ⟨hval.mp hpos, hnone⟩
    · exfalso
      obtain ⟨w1, hexpand⟩ := (htrue ⟨noSector, fill 512 0, noSector⟩).mpr href
      obtain ⟨r, w', hexec, hread⟩ := hzero hdeny hwrap ⟨noSector, fill 512 0, noSector⟩
        (fun _ => 0) w1 hexpand
      have hkmax := h.blocks_le hi
      obtain ⟨pos, h1, h2, hpos⟩ := h.exec_inodeWriteAt_bad hi hdeny hlen hover href hn (by omega)
        (by omega) (by omega) hexec
      exact hpos (hread pos (by omega) h2)
  · rintro (hzero | hzero | hzero | ⟨hmax, hfirst, hclear⟩) - - u buffer w1 -
    · exact absurd hdeny hzero
    · exact absurd hzero (Nat.not_le.mpr hover)
    · exact absurd hzero href
    · obtain ⟨w', hexec, hbytes⟩ := h.exec_inodeWriteAt_full depth hi hdeny hlen
        hover href hi0 hgrow hmax hfirst u buffer
      refine ⟨_, w', hexec, fun pos h1 h2 => ?_⟩
      obtain ⟨hzero, hnone⟩ := hclear pos h1 h2
      rcases hbytes pos (h2.trans_le (Nat.le_add_right o size)) with
        ⟨q, hq1, hq2, hq, -⟩ | ⟨-, hval⟩
      · exact absurd hq (hnone q hq1 hq2)
      · exact hval.mpr hzero

end FsInv

/-- **When new bytes read as zero.**  A file or directory that `inode_create` makes, on a sector
that `free_map_allocate` has given, and the bytes before a write past the end of a file read as zero
if and only if the places that they get held zero before. -/
theorem new_bytes_zero_iff {n depth : Nat} {inodes : List Nat} {w : FsWorld}
    (h : FsOk n inodes w) (hn : n < 2 ^ 32) :
    (∀ (sector cwd length : Nat) (isDir : Bool), sector < n →
      w.mem.freeMap.bits sector = true →
      (∀ j v, OnDisk inodes w.disk j v → v.ptr w.disk j (w.disk j) ≠ sector) → length < 2 ^ 31 →
      (CreatesZero n depth w cwd sector length isDir ↔ ClearForCreate w length)) ∧
    ∀ (inode : Inode) (size offset : Nat), inode.sector ∈ inodes →
      inode.sector ≠ freeMapSector → size < 2 ^ 31 → offset < 2 ^ 31 →
      InodeDisk.length (w.disk inode.sector) < offset →
      (GapReadsZero n depth w inode size offset ↔ ClearForWrite w inode size offset) :=
  ⟨fun _ cwd _ isDir hs hmark hunused hlt => h.createsZero_iff hs hmark hunused cwd isDir hlt hn,
    fun _ _ _ hi hi0 hsize hoff hout => h.gapReadsZero_iff hn hi hi0 hsize hoff hout⟩

/-- A disk of eight sectors, just formatted and with a sector `s` for an inode allocated, the next
free sector of which is full of `v`. -/
theorem exists_allocated (v : UInt8) : ∃ (w : FsWorld) (s x : Nat) (rest : List Nat),
    FsOk 8 [rootDirSector, freeMapSector] w ∧ s < 8 ∧ w.mem.freeMap.bits s = true ∧
      (∀ j v, OnDisk [rootDirSector, freeMapSector] w.disk j v → v.ptr w.disk j (w.disk j) ≠ s) ∧
      w.mem.freeMap.freeList = x :: rest ∧ w.disk x = fill 512 v := by
  obtain ⟨⟨m, d⟩, -, hok, -, hfree⟩ := exec_filesysInit ⟨0, fill 512 0, 0⟩ 0 (n := 8)
    (by decide) (by decide) fun _ => fill 512 0
  rw [show sectorNeed (mapBlocks 8) 0 = 1 from rfl] at hfree
  obtain ⟨s, d1, -, ha⟩ := hok.exec_freeMapAllocate_of_pos ⟨0, fill 512 0, 0⟩ 0
    (show 0 < m.freeMap.freeCnt by dsimp only at hfree; omega)
  have hcnt := Bitmap.freeCnt_mark (hok.bitCnt.symm ▸ ha.lt) ha.free
  obtain ⟨x, rest, hlist⟩ : ∃ x rest, (m.freeMap.mark s).freeList = x :: rest :=
    List.exists_cons_of_length_pos (by
      rw [Bitmap.length_freeList]
      dsimp only at hfree hcnt
      omega)
  have hx : m.freeMap.bits x = false := by
    have hfree' := (Bitmap.mem_freeList.mp (hlist ▸ List.mem_cons_self)).2
    by_contra hmark
    rw [m.freeMap.bits_mark x (Bool.not_eq_false _ ▸ hmark)] at hfree'
    exact absurd hfree' Bool.noConfusion
  have hok0 := (ha.inv.quiet (ha.inv.layout.quiet_of_free hx (fill 512 v))).restrict
  have hok1 := hok0.mark s
  have hmark : (m.freeMap.mark s).bits s = true := by simp [Bitmap.mark]
  have hunused := fun j v hv => hok0.onDisk.ne_of_free ha.free (i := j) (u := v) hv
  exact ⟨_, s, x, rest, hok1, ha.lt, hmark, hunused, hlist, update_self ..⟩

/-- A file of one byte whose sector holds zeros, and a write of one byte past the end of an empty
file, which gets two sectors. -/
theorem new_bytes_zero_iff_grown :
    (∃ (w : FsWorld) (s : Nat), FsOk 8 [rootDirSector, freeMapSector] w ∧
      CreatesZero 8 0 w rootDirSector s 1 false) ∧
    ∃ (w : FsWorld) (s : Nat), FsOk 8 [s, rootDirSector, freeMapSector] w ∧
      InodeDisk.length (w.disk s) = 0 ∧
      (GapReadsZero 8 0 w ⟨s, 0⟩ 1 600 ↔ ClearForWrite w ⟨s, 0⟩ 1 600) := by
  constructor
  · obtain ⟨w, s, x, rest, hok, hlt, hmark, hunused, hlist, hx⟩ := exists_allocated 0
    refine ⟨w, s, hok, ((new_bytes_zero_iff hok (by decide)).1 s rootDirSector 1 false hlt hmark
      hunused (by decide)).mpr (.inr (.inr ⟨by decide, ?_, fun pos hpos => ?_⟩))⟩
    · rw [← Bitmap.length_freeList, hlist]
      exact Nat.succ_pos _
    · obtain rfl := Nat.lt_one_iff.mp hpos
      rw [hlist]
      change (w.disk x).get 0 = 0
      rw [hx]
      decide
  · obtain ⟨-, -, w, s, -, -, -, hok, hne, hzero, -⟩ := exists_emptyInode false
    refine ⟨w, s, hok, hzero, (new_bytes_zero_iff hok (by decide)).2 ⟨s, 0⟩ 1 600 (.head _) hne
      (by decide) (by decide) ?_⟩
    rw [hzero]
    decide

/-- **Old contents show in a new file.**  On a disk of eight sectors, just formatted and with a
sector for the inode allocated, the next free sector holds ones from before.  A file of one byte
that `inode_create` makes then does not read as zero. -/
theorem created_file_not_zero :
    ∃ (w : FsWorld) (s : Nat), FsOk 8 [rootDirSector, freeMapSector] w ∧ s < 8 ∧
      w.mem.freeMap.bits s = true ∧
      (∀ j v, OnDisk [rootDirSector, freeMapSector] w.disk j v →
        v.ptr w.disk j (w.disk j) ≠ s) ∧
      ¬ CreatesZero 8 0 w rootDirSector s 1 false := by
  obtain ⟨w, s, x, rest, hok, hlt, hmark, hunused, hlist, hx⟩ := exists_allocated 1
  refine ⟨w, s, hok, hlt, hmark, hunused, fun hzero => ?_⟩
  rcases (hok.createsZero_iff hlt hmark hunused _ _ (by decide) (by decide)).mp hzero with
    hnone | ⟨j, hj, -, hneed, -⟩ | ⟨-, -, hclear⟩
  · exact absurd hnone (by decide)
  · obtain rfl : j = 0 := by omega
    exact absurd hneed (by decide)
  · have hbyte := hclear 0 (by decide)
    rw [hlist] at hbyte
    change (w.disk x).get 0 = 0 at hbyte
    rw [hx] at hbyte
    exact absurd hbyte (by decide)

end Pintos
