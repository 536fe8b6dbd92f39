import Pintos.Filesys.FileSystem

/-!
# Growing a file on a disk that is too full

`inode_expand` takes its sectors one at a time.  It looks at the result when it asks for an index
block, and returns false if there is none; it does not look when it asks for a sector of data, and
it never gives back what it has taken.  So a growth that cannot have all its sectors changes nothing
only if it is refused before it has taken or written anything.

* `Obtainable w i ext`: the sectors that the growth needs can be had.
* `FailsClean`: if they cannot, `inode_expand` returns false and leaves the free map and the sectors
  of all files as they were.
* `StopsAtOnce w i ext`: the disk is full, and the first thing the growth asks for whose result it
  looks at comes before the first thing it writes.
* `failsClean_iff`: a growth fails cleanly if and only if it is obtainable or stops at once.
* `failed_growth_iff`: the same for `inode_expand` and for `inode_write_at` after it, which must
  also report only what it has stored.
-/

namespace Pintos

open Bytes Prog

/-! ## What a failed growth should leave -/

/-- The sectors that `inode_expand` needs to add `ext` bytes to the file in sector `i`, of data and
of index blocks, can be had: the index has room for the blocks, and the disk has the sectors. -/
def Obtainable (w : FsWorld) (i : Nat) (ext : Int) : Prop :=
  blocks (w.disk i) + newSectors (InodeDisk.length (w.disk i)) ext ≤ maxBlocks ∧
    sectorNeed (newSectors (InodeDisk.length (w.disk i)) ext) (blocks (w.disk i))
      ≤ w.mem.freeMap.freeCnt

/-- From `w` to `w'`, neither the free map changes nor a sector that belongs to a file. -/
structure Untouched (inodes : List Nat) (w w' : FsWorld) : Prop where
  freeMap : w'.mem.freeMap = w.mem.freeMap
  /-- The inodes, the index blocks and the data. -/
  sectors : ∀ j v, OnDisk inodes w.disk j v →
    w'.disk (v.ptr w.disk j (w.disk j)) = w.disk (v.ptr w.disk j (w.disk j))

/-- If the growth cannot have its sectors, `inode_expand` returns false and changes nothing,
whatever its variables hold that it does not initialise. -/
def FailsClean (n depth : Nat) (inodes : List Nat) (w : FsWorld) (inode : Inode) (ext : Int) :
    Prop :=
  ¬ Obtainable w inode.sector ext → ∀ u, ∃ w',
    (inodeExpand u (freeMapAllocateAt u (depth + 1)) inode ext).exec n w = some (false, w') ∧
      Untouched inodes w w'

/-- After such a growth, `inode_write_at` reports a number of bytes that can be read back. -/
def ReportsStored (n depth : Nat) (w : FsWorld) (inode : Inode) (size offset : Int) : Prop :=
  inode.denyWriteCnt = 0 → InodeDisk.length (w.disk inode.sector) < wrap32 (offset + size) →
    ¬ Obtainable w inode.sector
      (FsInv.writeExt (InodeDisk.length (w.disk inode.sector)) size offset) →
    ∀ (u : Uninit) (buffer : Nat → UInt8), ∃ (r : Nat) (w' : FsWorld),
      (inodeWriteAt u (depth + 2) inode buffer size offset).exec n w = some ((r : Int), w') ∧
        ∀ j < r, (inodeReadAt u inode 1 (offset + j)).exec n w' = some ([buffer j], w')

/-- The disk is full, and the first block that is missing needs an index block first; or the first
blocks go into the inode, of which `inode_expand` has a copy, and the growth comes to the indirect
block before that is stored. -/
def StopsAtOnce (w : FsWorld) (i : Nat) (ext : Int) : Prop :=
  w.mem.freeMap.freeCnt = 0 ∧
    (blocks (w.disk i) < maxBlocks ∧ 0 < indexNeed (blocks (w.disk i)) ∨
      blocks (w.disk i) < 64 ∧
        64 < blocks (w.disk i) + newSectors (InodeDisk.length (w.disk i)) ext)

/-! ## When `inode_expand` leaves it -/

theorem indexNeed_of_lt {k : Nat} (hk : k < 64) : indexNeed k = 0 := if_pos hk

section

variable {n depth : Nat} {inodes : List Nat} {w : FsWorld} {inode : Inode} {ext : Int}

theorem newSectors_pos (h : FsOk n inodes w) (hi : inode.sector ∈ inodes)
    (hnot : ¬ Obtainable w inode.sector ext) :
    0 < newSectors (InodeDisk.length (w.disk inode.sector)) ext := by
  by_contra hzero
  have hmax := h.blocks_le hi
  refine hnot ?_
  rw [Obtainable, Nat.eq_zero_of_not_pos hzero, Nat.add_zero]
  exact ⟨hmax, Nat.zero_le _⟩

theorem StopsAtOnce.refused {i : Nat} (h : StopsAtOnce w i ext)
    (hpos : 0 < newSectors (InodeDisk.length (w.disk i)) ext) :
    Refused (newSectors (InodeDisk.length (w.disk i)) ext) (blocks (w.disk i))
      w.mem.freeMap.freeCnt := by
  obtain ⟨hfree, hstop⟩ := h
  rw [hfree]
  generalize blocks (w.disk i) = k at *
  generalize newSectors (InodeDisk.length (w.disk i)) ext = remain at *
  rcases hstop with ⟨hmax, hneed⟩ | ⟨h64, hlast⟩
  · rw [← Nat.add_zero k] at hmax hneed
    exact ⟨0, hpos, hmax, hneed, Nat.add_pos_right _ hneed⟩
  · have hneed : 0 < indexNeed (k + (64 - k)) := by
      rw [Nat.add_sub_cancel' h64.le]
      decide
    refine ⟨64 - k, by omega, ?_, hneed, Nat.add_pos_right _ hneed⟩
    rw [maxBlocks_eq]
    omega

namespace FsInv

theorem marked_of_full {hdr : Nat → Sector} {L : Nat → Use → Prop} (h : FsInv n inodes w hdr L)
    (hfull : w.mem.freeMap.freeCnt = 0) {s : Nat} (hs : s < n) : w.mem.freeMap.bits s = true := by
  by_contra hbit
  have hmem := Bitmap.mem_freeList.mpr ⟨h.bitCnt.symm ▸ hs, Bool.eq_false_iff.mpr hbit⟩
  rw [List.eq_nil_of_length_eq_zero (w.mem.freeMap.length_freeList.trans hfull)] at hmem
  exact absurd hmem List.not_mem_nil

theorem disk_eq_of_full {w' : FsWorld} {hdr' : Nat → Sector} {L' : Nat → Use → Prop} {i : Nat}
    (h : FsOk n inodes w) (h' : FsInv n inodes w' hdr' L')
    (hgrow : Grows i 0 w w.disk (OnDisk inodes w.disk) w' hdr' L')
    (hfull : w.mem.freeMap.freeCnt = 0) (h64 : blocks (w.disk i) < 64) : w'.disk = w.disk := by
  funext x
  by_contra hx
  rcases hgrow.writes x hx with ⟨hpos, -⟩ | ⟨v, hv, hleaf, -⟩
  · exact absurd hpos (Nat.lt_irrefl 0)
  · rcases hgrow.fresh i v hv with ⟨-, hlive⟩ | hfree
    · cases v with
      | inode => exact hleaf (.inl rfl)
      | data k => exact hleaf (.inr ⟨k, rfl⟩)
      | _ =>
        simp only [Use.Live] at hlive
        omega
    · rw [h.marked_of_full hfull (h'.layout.lt i v hv)] at hfree
      cases hfree

/-- **A growth that stops at once fails cleanly.** -/
theorem failsClean_of_stops (h : FsOk n inodes w) (hi : inode.sector ∈ inodes)
    (hstop : StopsAtOnce w inode.sector ext) : FailsClean n depth inodes w inode ext := by
  intro hnot u
  have href := hstop.refused (newSectors_pos h hi hnot)
  obtain ⟨m', d', hdr', L', hinv, hgrow, hres⟩ := h.exec_inodeExpand_cases inode hi u
    (allocates_freeMapAllocateAt u depth) trivial ext rfl rfl
  rcases hres with ⟨-, hexec, hindex, -⟩ | ⟨hrun, -⟩
  · refine ⟨_, hexec, ?_⟩
    obtain ⟨hfull, ⟨-, hneed⟩ | ⟨h64, -⟩⟩ := hstop
    · rw [hindex hfull hneed]
      exact ⟨rfl, fun _ _ _ => rfl⟩
    · rw [hfull] at hgrow
      have hdisk := disk_eq_of_full h hinv hgrow hfull h64
      exact ⟨congrArg FreeMap.freeMap (hgrow.same rfl), fun _ _ _ => by rw [hdisk]⟩
  · exact absurd href hrun

/-- The index block through which the next block of a file is reached is there, unless the block is
the first to need it. -/
theorem exists_parent {i : Nat} (hi : i ∈ inodes)
    (h64 : 64 ≤ blocks (w.disk i)) (hmax : blocks (w.disk i) < maxBlocks)
    (hneed : indexNeed (blocks (w.disk i)) = 0) :
    ∃ p k, (Use.data (blocks (w.disk i))).parent = some (p, k) ∧ OnDisk inodes w.disk i p := by
  rcases hp : (Use.data (blocks (w.disk i))).parent with _ | ⟨p, k⟩
  · exact absurd (Use.data_lt_of_root hp) (Nat.not_lt.mpr h64)
  · have hlive : Use.Live (blocks (w.disk i) + 1) (.data (blocks (w.disk i))) := Nat.lt_succ_self _
    have hhas : Has (blocks (w.disk i)) (blocks (w.disk i) + 1) p :=
      ⟨(hlive.parent hmax hp).1, fun j hj => absurd hj ((Use.parent_ne_leaf hp).2 j)⟩
    exact ⟨p, k, rfl, hi, ((has_of_none hneed le_rfl p).mp hhas).1⟩

/-- **A growth that fails cleanly stops at once**, if it cannot have its sectors.  Otherwise it
takes what is left of the disk, or writes `alloc_sec` into an index block. -/
theorem stops_of_failsClean (h : FsOk n inodes w) (hi : inode.sector ∈ inodes)
    (hclean : FailsClean n depth inodes w inode ext) (hnot : ¬ Obtainable w inode.sector ext) :
    StopsAtOnce w inode.sector ext := by
  generalize hk : blocks (w.disk inode.sector) = k
  generalize hr : newSectors (InodeDisk.length (w.disk inode.sector)) ext = remain
  -- what is seen of each run, among them one for every value of `alloc_sec`
  have hruns : ∀ u : Uninit, Refused remain k w.mem.freeMap.freeCnt ∧ ∃ w' hdr' L',
      Untouched inodes w w' ∧
      Grows inode.sector (min w.mem.freeMap.freeCnt (sectorNeed (min remain (maxBlocks - k)) k)) w
        w.disk (OnDisk inodes w.disk) w' hdr' L' ∧
      (w.mem.freeMap.freeCnt = 0 → indexNeed k = 0 →
        (Use.data k).ptr w'.disk inode.sector (hdr' inode.sector) = u.allocSec % 2 ^ 32) := by
    intro u
    obtain ⟨w', hexec, hsame⟩ := hclean hnot u
    obtain ⟨m', d', hdr', L', hinv, hgrow, hres⟩ := h.exec_inodeExpand_cases inode hi u
      (allocates_freeMapAllocateAt u depth) trivial ext hk hr
    rcases hres with ⟨href, hrun, -, hlost⟩ | ⟨-, -, hrun⟩
    · rw [hexec, Option.some_inj, Prod.mk.injEq] at hrun
      rw [hrun.2] at hsame
      exact ⟨href, ⟨m', d'⟩, hdr', L', hsame, hgrow, hlost⟩
    · rw [hexec] at hrun
      cases hrun
  obtain ⟨⟨j, hj, hmax, hneed, -⟩, w0, hdr0, L0, hsame0, hgrow0, -⟩ :=
    hruns ⟨0, Block.fill 512 0, 0⟩
  have hfull : w.mem.freeMap.freeCnt = 0 := by
    have hcnt := hgrow0.free
    have hpos := sectorNeed_lt (k := k) (show 0 < min remain (maxBlocks - k) by omega)
    rw [hsame0.freeMap] at hcnt
    omega
  have h64 : 64 ≤ k + j := by
    by_contra hlt
    rw [indexNeed_of_lt (Nat.not_le.mp hlt)] at hneed
    exact absurd hneed (Nat.lt_irrefl 0)
  rw [StopsAtOnce, hk]
  refine ⟨hfull, ?_⟩
  by_cases hfirst : 0 < indexNeed k
  · exact .inl ⟨by omega, hfirst⟩
  by_cases hdirect : k < 64
  · exact .inr ⟨hdirect, by omega⟩
  -- the first block goes into an index block that is there
  exfalso
  have hnone := Nat.eq_zero_of_not_pos hfirst
  obtain ⟨p, o, hp, hlive⟩ := exists_parent hi (by omega) (by omega) (hk.symm ▸ hnone)
  rw [hk] at hp
  obtain ⟨-, w1, hdr1, L1, hsame1, hgrow1, hlost⟩ :=
    hruns ⟨(w.disk (p.ptr w.disk inode.sector (w.disk inode.sector))).word o + 1,
      Block.fill 512 0, 0⟩
  have hword := hlost hfull hnone
  rw [Use.ptr_of_parent hp, hgrow1.ptr _ _ hlive, hsame1.sectors _ _ hlive] at hword
  generalize (w.disk (p.ptr w.disk inode.sector (w.disk inode.sector))).word o = x at *
  dsimp only at hword
  omega

/-- **A growth fails cleanly** if and only if it can have its sectors or stops at once. -/
theorem failsClean_iff (h : FsOk n inodes w) (hi : inode.sector ∈ inodes) :
    FailsClean n depth inodes w inode ext ↔
      Obtainable w inode.sector ext ∨ StopsAtOnce w inode.sector ext := by
  constructor
  · intro hclean
    by_cases hnot : Obtainable w inode.sector ext
    · exact .inl hnot
    · exact .inr (h.stops_of_failsClean hi hclean hnot)
  · rintro (hcan | hstop)
    · exact fun hnot => absurd hcan hnot
    · exact h.failsClean_of_stops hi hstop

/-! ## Writing after it -/

variable {size offset : Int}

variable (depth) in
theorem exec_inodeWriteAt_refused (h : FsOk n inodes w) (hi : inode.sector ∈ inodes)
    (hdeny : inode.denyWriteCnt = 0)
    (hgrow : InodeDisk.length (w.disk inode.sector) < wrap32 (offset + size))
    (href : Refused (newSectors (InodeDisk.length (w.disk inode.sector))
        (writeExt (InodeDisk.length (w.disk inode.sector)) size offset))
      (blocks (w.disk inode.sector)) w.mem.freeMap.freeCnt) (u : Uninit) (buffer : Nat → UInt8) :
    ∃ w1, FsOk n inodes w1 ∧ w1.disk inode.sector = w.disk inode.sector ∧
      (inodeWriteAt u (depth + 2) inode buffer size offset).exec n w
        = (inodeWriteLoop u inode buffer size.toNat size offset 0).exec n w1 := by
  obtain ⟨m', d', hdr', L', hinv, hgrows, hres⟩ := h.exec_inodeExpand_cases inode hi u
    (allocates_freeMapAllocateAt u depth) trivial
    (writeExt (InodeDisk.length (w.disk inode.sector)) size offset) rfl rfl
  rcases hres with ⟨-, hexec, -⟩ | ⟨hrun, -⟩
  · obtain ⟨hok, -, hsame⟩ := extended_of_fail hinv hgrows hi
    exact ⟨⟨m', d'⟩, hok, hsame, h.exec_inodeWriteAt_of_expand hi hdeny hgrow hexec buffer⟩
  · exact absurd href hrun

theorem reads_back (h : FsOk n inodes w) (hi : inode.sector ∈ inodes) (u : Uninit)
    (buffer : Nat → UInt8) (size : Int) {o : Nat}
    (ho : (o : Int) ≤ InodeDisk.length (w.disk inode.sector)) :
    ∃ (r : Nat) (w' : FsWorld),
      (inodeWriteLoop u inode buffer size.toNat size o 0).exec n w = some ((r : Int), w') ∧
        ∀ j < r, (inodeReadAt u inode 1 ((o : Int) + j)).exec n w' = some ([buffer j], w') := by
  obtain ⟨t, d', ht, hexec, honly, hbytes⟩ := exec_inodeWriteLoop hi u buffer size.toNat size o 0 h
    le_rfl ho
  rw [Nat.zero_add] at hexec
  refine ⟨t, _, hexec, fun j hj => ?_⟩
  have hsame := h.inode_of_onlyData hi honly hi
  have hpos : o + j < (InodeDisk.length (w.disk inode.sector)).toNat := by omega
  have hread := (h.onlyData hi honly).exec_inodeReadAt inode hi u 1 (o := o + j)
    (by dsimp only; rw [hsame]; omega)
  dsimp only at hread
  rw [hsame, show min (1 : Int).toNat ((InodeDisk.length (w.disk inode.sector)).toNat - (o + j)) = 1
    by omega] at hread
  rw [← Int.natCast_add, hread]
  simp [hbytes _ hpos, show o + j < o + t by omega]

/-- **After a growth that stops at once**, `inode_write_at` reports what it stored, unless it is
to write past the end of the file, where it panics. -/
theorem reportsStored_iff (h : FsOk n inodes w) (hi : inode.sector ∈ inodes) (h0 : 0 ≤ offset)
    (h1 : offset < 2 ^ 31)
    (hstop : StopsAtOnce w inode.sector
      (writeExt (InodeDisk.length (w.disk inode.sector)) size offset)) :
    ReportsStored n depth w inode size offset ↔
      (inode.denyWriteCnt = 0 → InodeDisk.length (w.disk inode.sector) < wrap32 (offset + size) →
        ¬ Obtainable w inode.sector
          (writeExt (InodeDisk.length (w.disk inode.sector)) size offset) →
        size ≤ 0 ∨ offset ≤ InodeDisk.length (w.disk inode.sector)) := by
  refine forall_congr' fun hdeny => forall_congr' fun hgrow => forall_congr' fun hnot => ?_
  have hwrite := fun u buffer => h.exec_inodeWriteAt_refused depth hi hdeny hgrow
    (hstop.refused (newSectors_pos h hi hnot)) u buffer
  constructor
  · intro hstored
    by_contra hout
    rw [not_or, Int.not_le, Int.not_le] at hout
    obtain ⟨r, w', hexec, -⟩ := hstored ⟨0, Block.fill 512 0, 0⟩ fun _ => 0
    obtain ⟨w1, hok, hsame, hloop⟩ := hwrite ⟨0, Block.fill 512 0, 0⟩ fun _ => 0
    rw [hloop, show size.toNat = size.toNat - 1 + 1 by omega,
      (hok.indexes hi).exec_inodeWriteLoop_past _ _ _ _ hout.1 (hsame ▸ hout.2) h1] at hexec
    cases hexec
  · intro hin u buffer
    obtain ⟨w1, hok, hsame, hloop⟩ := hwrite u buffer
    rw [hloop]
    rcases hin with hnone | hin
    · rw [Int.toNat_of_nonpos hnone]
      exact ⟨0, w1, rfl, fun j hj => absurd hj (Nat.not_lt_zero j)⟩
    · obtain ⟨o, rfl⟩ := Int.eq_ofNat_of_zero_le h0
      exact hok.reads_back hi u buffer size (hsame ▸ hin)

end FsInv

/-- **When a failed growth changes nothing.**  `inode_expand` by any `extend_length` fails cleanly
if and only if the growth can have its sectors or stops at once.  For a write at any offset, also
what `inode_write_at` reports must be there to read; that holds if and only if moreover the write
does not start past the end of the file. -/
theorem failed_growth_iff (h : FsOk n inodes w) (hi : inode.sector ∈ inodes) :
    (∀ ext, FailsClean n depth inodes w inode ext ↔
      Obtainable w inode.sector ext ∨ StopsAtOnce w inode.sector ext) ∧
    ∀ size offset : Int, 0 ≤ offset → offset < 2 ^ 31 →
      (FailsClean n depth inodes w inode
          (FsInv.writeExt (InodeDisk.length (w.disk inode.sector)) size offset) ∧
        ReportsStored n depth w inode size offset ↔
      Obtainable w inode.sector
          (FsInv.writeExt (InodeDisk.length (w.disk inode.sector)) size offset) ∨
        StopsAtOnce w inode.sector
            (FsInv.writeExt (InodeDisk.length (w.disk inode.sector)) size offset) ∧
          (inode.denyWriteCnt ≠ 0 ∨
            wrap32 (offset + size) ≤ InodeDisk.length (w.disk inode.sector) ∨ size ≤ 0 ∨
            offset ≤ InodeDisk.length (w.disk inode.sector))) := by
  refine ⟨fun ext => h.failsClean_iff hi, fun size offset h0 h1 => ?_⟩
  rw [h.failsClean_iff hi]
  by_cases hcan : Obtainable w inode.sector
    (FsInv.writeExt (InodeDisk.length (w.disk inode.sector)) size offset)
  · exact ⟨fun _ => .inl hcan, fun _ => ⟨.inl hcan, fun _ _ hnot => absurd hcan hnot⟩⟩
  · simp only [hcan, false_or]
    refine and_congr_right fun hstop => ?_
    rw [h.reportsStored_iff hi h0 h1 hstop]
    by_cases hdeny : inode.denyWriteCnt = 0 <;>
      by_cases hgrow : InodeDisk.length (w.disk inode.sector) < wrap32 (offset + size) <;>
        simp [hdeny, hgrow, hcan, Int.not_lt.mp]

end

/-- No file can grow by 16 MiB. -/
theorem not_obtainable {n i : Nat} {inodes : List Nat} {w : FsWorld} (h : FsOk n inodes w)
    (hi : i ∈ inodes) : ¬ Obtainable w i 16777216 := by
  rintro ⟨hmax, -⟩
  obtain ⟨h0, h1⟩ := h.length i hi
  have hsnip := snipByte_mem h0
  have hblocks := blocks_add_newSectors h0 h1 16777216 (by decide) (by omega)
  have hcap := maxBlocks_eq
  omega

/-- The growth of the root directory of a fresh disk of eight sectors by 16 MiB does not fail
cleanly. -/
theorem failed_growth_iff_formatted :
    ∃ w, FsOk 8 [rootDirSector, freeMapSector] w ∧ ¬ Obtainable w rootDirSector 16777216 ∧
      (FailsClean 8 0 [rootDirSector, freeMapSector] w ⟨rootDirSector, 0⟩ 16777216 ↔ False) := by
  obtain ⟨w, -, hok, hfree⟩ := exists_formatted
  have hroot : Inode.sector ⟨rootDirSector, 0⟩ ∈ [rootDirSector, freeMapSector] := by decide
  have hnot := not_obtainable hok hroot
  refine ⟨w, hok, hnot, ((failed_growth_iff hok hroot).1 16777216).trans (iff_of_false ?_ id)⟩
  rintro (hcan | ⟨hfull, -⟩)
  · exact hnot hcan
  · omega

/-- **A failed growth leaves traces.**  On a fresh disk of eight sectors, of which four are free,
growing the root directory by 16 MiB cannot have its sectors, but takes the four. -/
theorem growth_fails_dirty :
    ∃ w, (filesysInit ⟨0, Block.fill 512 0, 0⟩ 1).exec 8
        ⟨freeMapInit 8, fun _ => Block.fill 512 0⟩ = some ((), w) ∧
      FsOk 8 [rootDirSector, freeMapSector] w ∧
      ¬ FailsClean 8 0 [rootDirSector, freeMapSector] w ⟨rootDirSector, 0⟩ 16777216 := by
  obtain ⟨w, hinit, hok, hfree⟩ := exists_formatted
  refine ⟨w, hinit, hok, fun hclean => ?_⟩
  rcases (hok.failsClean_iff (by decide)).mp hclean with hcan | ⟨hfull, -⟩
  · exact not_obtainable hok (by decide) hcan
  · omega

end Pintos
