import Pintos.Filesys.Blocks

/-!
# The file system invariant

What holds of the file system between the steps of `inode_expand` as well as between calls, and what
the routines that do not grow a file do under it.

* `FsInv n inodes w hdr L`: the uses `L` of the headers `hdr` are laid out (`Layout`), the headers
  on disk agree with them as far as they go, and the free-map file, if it is open, can hold the map.
  Between calls the headers are those on disk; while `inode_expand` runs, one of them is its copy.
* `FsInv.exec_byteToSector`: `byte_to_sector` finds the block of every position in the file.
* `FsInv.exec_inodeWriteLoop` and `FsInv.exec_inodeReadLoop`: the copy loops, from the file's bytes
  `fileByte` before them to those after.
* `FsInv.exec_freeMapAllocate`: an allocation marks a sector that was not marked, or there is none.
-/

namespace Pintos

open Bytes Prog

/-- The uses that the headers on disk have. -/
def OnDisk (inodes : List Nat) (d : Disk) : Nat → Use → Prop :=
  fun i u => i ∈ inodes ∧ u.Live (blocks (d i))

/-- The invariant of a file system with inodes in the sectors `inodes`, on a disk of `n`. -/
structure FsInv (n : Nat) (inodes : List Nat) (w : FsWorld) (hdr : Nat → Sector)
    (L : Nat → Use → Prop) : Prop where
  /-- The live uses are laid out, with every sector of them marked. -/
  layout : Layout n w.mem.freeMap.bits w.disk hdr L
  /-- The map has a bit for each sector. -/
  bitCnt : w.mem.freeMap.bitCnt = n
  /-- Sector numbers fit into a word. -/
  small : n ≤ 2 ^ 32
  inode : ∀ i, L i .inode ↔ i ∈ inodes
  /-- The headers on disk lead to live uses, and to the same sectors. -/
  disk : ∀ i ∈ inodes, ∀ u, u.Live (blocks (w.disk i)) →
    L i u ∧ u.ptr w.disk i (w.disk i) = u.ptr w.disk i (hdr i)
  /-- The lengths on disk are within what the index can hold. -/
  length : ∀ i ∈ inodes, 0 ≤ InodeDisk.length (w.disk i) ∧
    InodeDisk.length (w.disk i) ≤ maxLength
  /-- The free-map file can hold the map. -/
  map : ∀ file, w.mem.freeMapFile = some file → file = ⟨freeMapSector, 0⟩ ∧
    freeMapSector ∈ inodes ∧ InodeDisk.isDir (w.disk freeMapSector) = false ∧
    (w.mem.freeMap.fileSize : Int) ≤ InodeDisk.length (w.disk freeMapSector)

namespace FsInv

variable {n : Nat} {inodes : List Nat} {w : FsWorld} {m : FreeMap} {d d' : Disk}
  {hdr : Nat → Sector} {L : Nat → Use → Prop} {inode : Inode} {i : Nat}

section

variable (h : FsInv n inodes w hdr L)
include h

theorem sector_lt (hi : i ∈ inodes) : i < n := h.layout.lt i .inode ((h.inode i).mpr hi)

theorem blocks_le (hi : i ∈ inodes) : blocks (w.disk i) ≤ maxBlocks := by
  have := h.length i hi
  rw [maxLength_eq] at this
  rw [blocks, maxBlocks_eq]
  omega

theorem ptr_lt (hi : i ∈ inodes) {u : Use} (hu : u.Live (blocks (w.disk i))) :
    u.ptr w.disk i (w.disk i) < n := by
  obtain ⟨hL, heq⟩ := h.disk i hi u hu
  rw [heq]
  exact h.layout.lt i u hL

/-! ## Looking up a block -/

theorem indexes (hi : i ∈ inodes) : Indexes n w.disk i where
  lt := h.sector_lt hi
  nonneg := (h.length i hi).1
  index _ hv _ := h.ptr_lt hi (hv.mono (Nat.min_le_left _ _))

section

variable (hi : inode.sector ∈ inodes)
include hi

theorem exec_inodeLength :
    (inodeLength inode).exec n w = some (InodeDisk.length (w.disk inode.sector), w) :=
  (h.indexes hi).exec_inodeLength

theorem exec_byteToSector_end (u : Uninit) {pos : Int}
    (hpos : InodeDisk.length (w.disk inode.sector) ≤ pos) :
    (byteToSector u inode pos).exec n w = some (noSector, w) :=
  (h.indexes hi).exec_byteToSector_end u hpos

/-- **`byte_to_sector` finds the block** of every position in the file. -/
theorem exec_byteToSector (u : Uninit) {pos : Nat}
    (hpos : pos < InodeDisk.length (w.disk inode.sector)) :
    (byteToSector u inode pos).exec n w =
      some ((Use.data (pos / 512)).ptr w.disk inode.sector (w.disk inode.sector), w) := by
  have hblock : pos / 512 < blocks (w.disk inode.sector) := div_lt_blocks (by omega)
  rw [(h.indexes hi).exec_byteToSector u hpos,
    sectorOf_of_lt u _ _ (hblock.trans_le (h.blocks_le hi))]

end

/-! ## Changing the disk under the invariant -/

theorem onDisk : Layout n w.mem.freeMap.bits w.disk w.disk (OnDisk inodes w.disk) := by
  refine h.layout.transfer (fun i u hu => (h.disk i hu.1 u hu.2).1) (fun i u p k hu hp => ?_)
    (fun i u hu => (h.disk i hu.1 u hu.2).2) fun _ hs => hs
  obtain ⟨hlive, hk⟩ := hu.2.parent (h.blocks_le hu.1) hp
  exact ⟨⟨hu.1, hlive⟩, hk⟩

theorem restrict :
    FsInv n inodes w w.disk (OnDisk inodes w.disk) where
  layout := h.onDisk
  bitCnt := h.bitCnt
  small := h.small
  inode _ := ⟨fun hi => hi.1, fun hi => ⟨hi, trivial⟩⟩
  disk _ hi _ hu := ⟨⟨hi, hu⟩, rfl⟩
  length := h.length
  map := h.map

end

theorem sameWords_onDisk (h : FsInv n inodes ⟨m, d⟩ hdr L) (hw : Layout.SameWords hdr L d d') :
    Layout.SameWords d (OnDisk inodes d) d d' := by
  intro i u p k hu hp
  obtain ⟨hL, heq⟩ := h.disk i hu.1 p (hu.2.parent (h.blocks_le hu.1) hp).1
  rw [show p.ptr d i (d i) = p.ptr d i (hdr i) from heq]
  exact hw i u p k (h.disk i hu.1 u hu.2).1 hp

theorem change (h : FsInv n inodes ⟨m, d⟩ hdr L) (hw : Layout.SameWords hdr L d d')
    (hinode : ∀ i ∈ inodes, d' i = d i) : FsInv n inodes ⟨m, d'⟩ hdr L where
  layout := h.layout.sameWords hw
  bitCnt := h.bitCnt
  small := h.small
  inode := h.inode
  disk i hi u hu := by
    dsimp only at hu ⊢
    rw [hinode i hi] at hu ⊢
    obtain ⟨hL, heq⟩ := h.disk i hi u hu
    refine ⟨hL, ?_⟩
    rw [h.layout.ptr_eq hw i u hL]
    exact (h.onDisk.ptr_eq (h.sameWords_onDisk hw) i u ⟨hi, hu⟩).trans heq
  length i hi := by
    dsimp only
    rw [hinode i hi]
    exact h.length i hi
  map file hf := by
    obtain ⟨h1, h2, h3⟩ := h.map file hf
    dsimp only
    rw [hinode _ h2]
    exact ⟨h1, h2, h3⟩

end FsInv

/-- From `d` to `d'`, only data of the file in sector `i` changes. -/
def OnlyData (i : Nat) (d d' : Disk) : Prop :=
  ∀ s, d' s ≠ d s → ∃ k < blocks (d i), (Use.data k).ptr d i (d i) = s

namespace FsInv

variable {n : Nat} {inodes : List Nat} {w : FsWorld} {m : FreeMap} {d d' : Disk}
  {hdr : Nat → Sector} {L : Nat → Use → Prop} {inode : Inode} {i : Nat}

theorem sameWords_of_onlyData (h : FsInv n inodes ⟨m, d⟩ hdr L) (hi : i ∈ inodes)
    (ho : OnlyData i d d') : Layout.SameWords hdr L d d' := by
  refine h.layout.sameWords_of_leaves fun s hs => ?_
  obtain ⟨k, hk, rfl⟩ := ho s hs
  obtain ⟨hL, heq⟩ := h.disk i hi (.data k) hk
  exact ⟨i, .data k, hL, .inr ⟨k, rfl⟩, heq.symm⟩

variable {j : Nat} {u : Use}

section

variable (h : FsInv n inodes ⟨m, d⟩ hdr L) (hi : i ∈ inodes)
include h hi

section

variable (ho : OnlyData i d d')
include ho

theorem eq_of_onlyData (hu : L j u) (hne : j ≠ i ∨ ∀ k, u ≠ .data k) :
    d' (u.ptr d j (hdr j)) = d (u.ptr d j (hdr j)) := by
  by_contra hs
  obtain ⟨k, hk, hptr⟩ := ho _ hs
  obtain ⟨hL, heq⟩ := h.disk i hi (.data k) hk
  obtain ⟨rfl, rfl⟩ := h.layout.inj i j (.data k) u hL hu (heq.symm.trans hptr)
  rcases hne with hne | hne
  · exact hne rfl
  · exact hne k rfl

theorem inode_of_onlyData (hj : j ∈ inodes) : d' j = d j :=
  h.eq_of_onlyData hi ho ((h.inode j).mpr hj) (.inr fun _ => by simp)

theorem onlyData : FsInv n inodes ⟨m, d'⟩ hdr L :=
  h.change (h.sameWords_of_onlyData hi ho) fun _ hj => h.inode_of_onlyData hi ho hj

theorem ptr_of_onlyData (hj : j ∈ inodes) (hu : u.Live (blocks (d j))) :
    u.ptr d' j (d' j) = u.ptr d j (d j) := by
  rw [h.inode_of_onlyData hi ho hj]
  exact h.onDisk.ptr_eq (h.sameWords_onDisk (h.sameWords_of_onlyData hi ho)) j u ⟨hj, hu⟩

theorem fileByte_of_onlyData (hj : j ∈ inodes) (hji : j ≠ i) {pos : Nat}
    (hpos : pos < (InodeDisk.length (d j)).toNat) : fileByte d' j pos = fileByte d j pos := by
  have hlive := div_lt_blocks hpos
  rw [fileByte, fileByte, h.ptr_of_onlyData hi ho hj (u := .data _) hlive]
  obtain ⟨hL, heq⟩ := h.disk j hj (.data (pos / 512)) hlive
  rw [show (Use.data (pos / 512)).ptr d j (d j) = _ from heq, h.eq_of_onlyData hi ho hL (.inl hji)]

end

/-! ## The copy loops -/

theorem writable :
    Writable n d i (blocks (d i)) where
  toIndexes := h.indexes hi
  le := Nat.le_min.mpr ⟨le_rfl, h.blocks_le hi⟩
  data_lt _ hk := h.ptr_lt hi hk
  apart k hk v hv hdata heq :=
    hdata k (h.onDisk.inj i i v (.data k) ⟨hi, hv.mono (Nat.min_le_left _ _)⟩ ⟨hi, hk⟩ heq).2

theorem bytePlace_inj {p q : Nat} (hp : p / 512 < blocks (d i)) (hq : q / 512 < blocks (d i))
    (heq : bytePlace d i p = bytePlace d i q) : p = q := by
  rw [bytePlace, bytePlace, Prod.mk.injEq] at heq
  have hblock := Use.data.inj
    (h.onDisk.inj i i (.data (p / 512)) (.data (q / 512)) ⟨hi, hp⟩ ⟨hi, hq⟩ heq.1).2
  omega

end

/-- **The loop of `inode_write_at`** stores as many bytes as the file has room for from the offset
on, and changes nothing else. -/
theorem exec_inodeWriteLoop (hi : inode.sector ∈ inodes) (u : Uninit) (buffer : Nat → UInt8)
    (fuel : Nat) (size : Int) (o bw : Nat) (h : FsInv n inodes ⟨m, d⟩ hdr L)
    (hfuel : size.toNat ≤ fuel) (ho : (o : Int) ≤ InodeDisk.length (d inode.sector)) :
    ∃ t d', t = min size.toNat ((InodeDisk.length (d inode.sector)).toNat - o) ∧
      (inodeWriteLoop u inode buffer fuel size o bw).exec n ⟨m, d⟩
        = some (((bw + t : Nat) : Int), ⟨m, d'⟩) ∧
      OnlyData inode.sector d d' ∧
      ∀ pos < (InodeDisk.length (d inode.sector)).toNat, fileByte d' inode.sector pos
        = if o ≤ pos ∧ pos < o + t then buffer (bw + (pos - o))
          else fileByte d inode.sector pos := by
  have hlen := Int.toNat_of_nonneg (h.length _ hi).1
  generalize hl : (InodeDisk.length (d inode.sector)).toNat = len
  rw [hl] at hlen
  by_cases hsize : size ≤ 0
  · refine ⟨0, d, by omega, ?_, fun s hs => absurd rfl hs, fun pos _ => by rw [if_neg (by omega)]⟩
    cases fuel with
    | zero => rfl
    | succ fuel =>
      rw [inodeWriteLoop, if_pos hsize]
      rfl
  obtain ⟨size, rfl⟩ := Int.eq_ofNat_of_zero_le (Int.le_of_lt (Int.not_le.mp hsize))
  have hblocks : len ≤ 512 * blocks (d inode.sector) := by
    rw [blocks]
    omega
  obtain ⟨d', hexec, honly, hstores⟩ := (h.writable hi).exec_inodeWriteLoop u buffer fuel
    size o bw hfuel hlen.symm (by omega) (by omega)
  refine ⟨_, d', rfl, hexec, honly, fun pos hpos => ?_⟩
  have hpk : pos / 512 < blocks (d inode.sector) := div_lt_blocks (hl.symm ▸ hpos)
  rcases hstores pos (Nat.lt_min.mpr ⟨hpk, hpk.trans_le (h.blocks_le hi)⟩) with
    ⟨q, h1, h2, hq, hval⟩ | ⟨hnone, hval⟩
  · obtain rfl := h.bytePlace_inj hi (div_lt_blocks (by omega)) hpk hq
    rw [if_pos ⟨h1, h2⟩, hval]
  · rw [if_neg fun hin => hnone pos hin.1 hin.2 rfl, hval]

/-- **The loop of `inode_read_at`** delivers the bytes of the file from the offset on, as many as
there are, and changes nothing. -/
theorem exec_inodeReadLoop (h : FsInv n inodes w hdr L) (hi : inode.sector ∈ inodes) (u : Uninit)
    {len : Nat} (hlen : InodeDisk.length (w.disk inode.sector) = len) (fuel : Nat) :
    ∀ size o : Nat, size ≤ fuel → o ≤ len →
      (inodeReadLoop u inode fuel size o).exec n w = some
        ((List.range (min size (len - o))).map fun j => fileByte w.disk inode.sector (o + j),
          w) := by
  have hmax : len ≤ 8486912 := Int.ofNat_le.mp (hlen ▸ (h.length _ hi).2)
  induction fuel with
  | zero =>
    intro size o hfuel ho
    rw [show size = 0 by omega]
    rfl
  | succ fuel ih =>
    intro size o hfuel ho
    rw [inodeReadLoop]
    by_cases hnone : size = 0
    · rw [if_pos (by omega), hnone]
      rfl
    rw [if_neg (by omega)]
    by_cases hend : o = len
    · rw [exec_bind_of_eq (h.exec_byteToSector_end hi u (by omega)),
        exec_bind_of_eq (h.exec_inodeLength hi), hlen, chunkSize_eq size (by omega) ho,
        show min size (min (len - o) (512 - o % 512)) = 0 by omega,
        show min size (len - o) = 0 by omega]
      rfl
    · generalize hc : min size (min (len - o) (512 - o % 512)) = c
      have hk : o / 512 < blocks (w.disk inode.sector) := div_lt_blocks (by omega)
      -- the look-up for the read-ahead changes nothing, wherever it leads
      have hahead : ∃ a,
          (byteToSector u inode (wrap32 ((o : Int) + 512))).exec n w = some (a, w) := by
        rw [wrap32_of_mem (by omega) (by omega)]
        by_cases hin : o + 512 < len
        · exact ⟨_, h.exec_byteToSector hi u (show ((o + 512 : Nat) : Int) < _ by omega)⟩
        · exact ⟨_, h.exec_byteToSector_end hi u (by omega)⟩
      obtain ⟨a, ha⟩ := hahead
      have hrest := ih (size - c) (o + c) (by omega) (by omega)
      rw [exec_bind_of_eq (h.exec_byteToSector hi u (by omega)),
        exec_bind_of_eq (h.exec_inodeLength hi)]
      rw [hlen, chunkSize_eq size (by omega) ho, hc, if_neg (by omega), if_neg (by omega),
        Int.toNat_natCast, Int.toNat_natCast,
        exec_bind_of_eq (exec_cacheReadPinned (h.ptr_lt hi (u := .data _) hk)
          (show o % 512 + c ≤ 512 by omega)), exec_bind_of_eq ha,
        read_chunk w.disk inode.sector (by omega)]
      have htail : (do
          let rest ← inodeReadLoop u inode fuel ((size : Int) - c) (o + c)
          return (List.range c).map (fun j => fileByte w.disk inode.sector (o + j)) ++ rest
            : FsProg (List UInt8)).exec n w = some ((List.range (min size (len - o))).map
                fun j => fileByte w.disk inode.sector (o + j), w) := by
        rw [← Int.natCast_add, ← Int.ofNat_sub (by omega), exec_bind_of_eq hrest, exec_pure,
          show min size (len - o) = c + min (size - c) (len - (o + c)) by omega,
          List.range_add, List.map_append, List.map_map]
        simp only [Nat.add_assoc, Function.comp_def]
      split
      · exact (exec_bind_of_eq exec_findCache).trans htail
      · exact htail

/-- **`inode_read_at`** in a file. -/
theorem exec_inodeReadAt (h : FsInv n inodes w hdr L) (inode : Inode)
    (hi : inode.sector ∈ inodes) (u : Uninit) (size : Int) {o : Nat}
    (ho : (o : Int) ≤ InodeDisk.length (w.disk inode.sector)) :
    (inodeReadAt u inode size o).exec n w = some
      ((List.range (min size.toNat ((InodeDisk.length (w.disk inode.sector)).toNat - o))).map
        fun j => fileByte w.disk inode.sector (o + j), w) := by
  rw [inodeReadAt]
  rcases Int.lt_or_le size 0 with hneg | hsize
  · rw [Int.toNat_of_nonpos hneg.le, Nat.zero_min]
    rfl
  · obtain ⟨size, rfl⟩ := Int.eq_ofNat_of_zero_le hsize
    exact h.exec_inodeReadLoop hi u (Int.toNat_of_nonneg (h.length _ hi).1).symm size size o
      le_rfl (by omega)

/-- **`inode_write_at`** inside a file, which does not grow it. -/
theorem exec_inodeWriteAt_within (h : FsInv n inodes ⟨m, d⟩ hdr L) (inode : Inode)
    (hi : inode.sector ∈ inodes) (hdeny : inode.denyWriteCnt = 0) (u : Uninit) (depth : Nat)
    (buffer : Nat → UInt8) (size o : Nat)
    (hle : ((o + size : Nat) : Int) ≤ InodeDisk.length (d inode.sector)) :
    ∃ d', (inodeWriteAt u (depth + 1) inode buffer size o).exec n ⟨m, d⟩
        = some ((size : Int), ⟨m, d'⟩) ∧
      OnlyData inode.sector d d' ∧
      ∀ pos < (InodeDisk.length (d inode.sector)).toNat, fileByte d' inode.sector pos
        = if o ≤ pos ∧ pos < o + size then buffer (pos - o)
          else fileByte d inode.sector pos := by
  have hlen := h.length _ hi
  dsimp only at hlen
  rw [maxLength_eq] at hlen
  obtain ⟨t, d', ht, hexec, honly, hbytes⟩ := exec_inodeWriteLoop hi u buffer size size o 0
    h (by simp) (by omega)
  obtain rfl : t = size := by omega
  refine ⟨d', ?_, honly, fun pos hpos => by simpa using hbytes pos hpos⟩
  rw [inodeWriteAt, if_neg (by simpa using hdeny), exec_bind_of_eq (h.exec_inodeLength hi)]
  dsimp only
  rw [wrap32_of_mem (by omega) (by omega), if_neg (by omega), Int.toNat_natCast, hexec,
    Nat.zero_add]

/-! ## Allocating -/

theorem mark (h : FsInv n inodes ⟨m, d⟩ hdr L) (s : Nat) :
    FsInv n inodes ⟨{ m with freeMap := m.freeMap.mark s }, d⟩ hdr L where
  layout :=
    h.layout.transfer (fun _ _ hu => hu) h.layout.parent (fun _ _ _ => rfl) m.freeMap.bits_mark
  bitCnt := h.bitCnt
  small := h.small
  inode := h.inode
  disk := h.disk
  length := h.length
  map := h.map

/-- The free-map file holds the map. -/
def Stored (w : FsWorld) : Prop :=
  ∀ pos < w.mem.freeMap.fileSize, fileByte w.disk freeMapSector pos = w.mem.freeMap.byte pos

theorem exec_bitmapWrite (h : FsInv n inodes ⟨m, d⟩ hdr L)
    (hf : m.freeMapFile = some ⟨freeMapSector, 0⟩) (u : Uninit) (depth : Nat) :
    ∃ d', (bitmapWrite (inodeWriteAt u (depth + 1)) m.freeMap ⟨freeMapSector, 0⟩).exec n ⟨m, d⟩
        = some (true, ⟨m, d'⟩) ∧ OnlyData freeMapSector d d' ∧ Stored ⟨m, d'⟩ := by
  obtain ⟨-, hmem, hdir, hsize⟩ := h.map _ hf
  dsimp only at hdir hsize
  obtain ⟨d', hexec, honly, hbytes⟩ := h.exec_inodeWriteAt_within ⟨freeMapSector, 0⟩ hmem rfl u
    depth m.freeMap.byte m.freeMap.fileSize 0 (by simpa using hsize)
  refine ⟨d', ?_, honly, fun pos hpos => ?_⟩
  · have hcheck : (inodeDirCheck ⟨freeMapSector, 0⟩).exec n ⟨m, d⟩ = some (false, ⟨m, d⟩) := by
      rw [inodeDirCheck, exec_bind_of_eq (exec_readSector (h.sector_lt hmem)), exec_pure]
      simp only [hdir]
    have hwrite : (fileWriteAt (inodeWriteAt u (depth + 1)) ⟨freeMapSector, 0⟩ m.freeMap.byte
        m.freeMap.fileSize 0).exec n ⟨m, d⟩ = some ((m.freeMap.fileSize : Int), ⟨m, d'⟩) := by
      rw [fileWriteAt, exec_bind_of_eq hcheck]
      exact hexec
    rw [bitmapWrite, exec_bind_of_eq hwrite, exec_pure, beq_self_eq_true]
  · rw [hbytes pos (by dsimp only at hpos ⊢; omega), if_pos (by dsimp only at hpos; omega)]
    rfl

/-- A sector of data of the free-map file, if that is open. -/
def MapData (w : FsWorld) (s : Nat) : Prop :=
  w.mem.freeMapFile ≠ none ∧ ∃ k < blocks (w.disk freeMapSector),
    (Use.data k).ptr w.disk freeMapSector (w.disk freeMapSector) = s

/-- What is kept on disk while sectors are allocated: all but the data of the free-map file. -/
def Kept (j : Nat) (u : Use) : Prop := j ≠ freeMapSector ∨ ∀ k, u ≠ .data k

/-- What an allocation of sector `s`, which leaves the disk as `d'`, did. -/
structure Allocated (n : Nat) (inodes : List Nat) (m : FreeMap) (d : Disk) (hdr : Nat → Sector)
    (L : Nat → Use → Prop) (s : Nat) (d' : Disk) : Prop where
  lt : s < n
  free : m.freeMap.bits s = false
  first : m.freeMap.freeList.head? = some s
  /-- Only the free-map file is written. -/
  only : ∀ x, d' x ≠ d x → MapData ⟨m, d⟩ x
  /-- With the map as it was, the invariant holds. -/
  inv : FsInv n inodes ⟨m, d'⟩ hdr L
  ptr : ∀ j u, L j u → u.ptr d' j (hdr j) = u.ptr d j (hdr j)
  /-- So is all that is not data of the free-map file. -/
  kept : ∀ j u, L j u → Kept j u → d' (u.ptr d j (hdr j)) = d (u.ptr d j (hdr j))
  /-- The free-map file holds the new map. -/
  stored : m.freeMapFile ≠ none → Stored ⟨{ m with freeMap := m.freeMap.mark s }, d'⟩

section

variable (h : FsInv n inodes ⟨m, d⟩ hdr L)
include h

/-- **`free_map_allocate`** finds a sector that is not marked and marks it, or there is none and
nothing changes. -/
theorem exec_freeMapAllocate (u : Uninit) (depth : Nat) :
    ((freeMapAllocateAt u (depth + 1)).exec n ⟨m, d⟩ = some (none, ⟨m, d⟩) ∧
        m.freeMap.freeCnt = 0) ∨
      ∃ s d', (freeMapAllocateAt u (depth + 1)).exec n ⟨m, d⟩
          = some (some s, ⟨{ m with freeMap := m.freeMap.mark s }, d'⟩) ∧
        Allocated n inodes m d hdr L s d' := by
  have hexec : (freeMapAllocateAt u (depth + 1)).exec n ⟨m, d⟩ = _ := exec_bind_of_eq exec_getMem
  rcases m.freeMap.scanAndFlip_one with ⟨hnone, hfull⟩ | ⟨s, hs, hlt, hfree⟩
  · refine .inl ⟨?_, hfull⟩
    rw [hexec]
    simp only [hnone, exec_pure]
  · refine .inr ⟨s, ?_⟩
    simp only [hs] at hexec
    rw [exec_bind_of_eq (exec_setMem _)] at hexec
    rw [h.bitCnt] at hlt
    have hfirst : m.freeMap.freeList.head? = some s := by
      rw [← Bitmap.scan_one_eq_head]
      rw [Bitmap.scanAndFlip, Option.map_eq_some_iff] at hs
      obtain ⟨idx, hscan, heq⟩ := hs
      rw [hscan]
      exact congrArg (fun r => some r.1) heq
    rcases hf : m.freeMapFile with _ | file
    · refine ⟨d, ?_, hlt, hfree, hfirst, fun x hx => absurd rfl hx, h, fun _ _ _ => rfl,
        fun _ _ _ _ => rfl, by simp [hf]⟩
      rw [hexec]
      simp only [hf, exec_pure]
    · obtain ⟨rfl, hmem, -⟩ := h.map _ hf
      obtain ⟨d', hw, honly, hstored⟩ := (h.mark s).exec_bitmapWrite hf u depth
      refine ⟨d', ?_, hlt, hfree, hfirst, fun x hx => ⟨by simp [hf], honly x hx⟩,
        h.onlyData hmem honly,
        h.layout.ptr_eq (h.sameWords_of_onlyData hmem honly),
        fun j u hu hk => h.eq_of_onlyData hmem honly hu hk, fun _ => hstored⟩
      rw [hexec]
      simp only [hf] at hw ⊢
      rw [exec_bind_of_eq hw]
      rfl

theorem exec_freeMapAllocate_of_pos (u : Uninit) (depth : Nat) (hfree : 0 < m.freeMap.freeCnt) :
    ∃ s d', (freeMapAllocateAt u (depth + 1)).exec n ⟨m, d⟩
        = some (some s, ⟨{ m with freeMap := m.freeMap.mark s }, d'⟩) ∧
      Allocated n inodes m d hdr L s d' := by
  rcases h.exec_freeMapAllocate u depth with ⟨-, hfull⟩ | hsome
  · omega
  · exact hsome

theorem exec_freeMapAllocate_of_full (u : Uninit) (depth : Nat) (hfull : m.freeMap.freeCnt = 0) :
    (freeMapAllocateAt u (depth + 1)).exec n ⟨m, d⟩ = some (none, ⟨m, d⟩) := by
  rcases h.exec_freeMapAllocate u depth with ⟨hexec, -⟩ | ⟨s, d', -, ha⟩
  · exact hexec
  · have := Bitmap.freeCnt_mark (h.bitCnt.symm ▸ ha.lt) ha.free
    omega

/-! ## A sector joins an inode -/

section

variable (hq : Layout.Quiet hdr L d d')
include hq

theorem quiet : FsInv n inodes ⟨m, d'⟩ hdr L :=
  h.change hq.words fun i hi => hq.leaf i .inode ((h.inode i).mpr hi) (.inl rfl)

theorem fileByte_of_quiet (hi : i ∈ inodes) {pos : Nat}
    (hpos : pos < (InodeDisk.length (d i)).toNat) : fileByte d' i pos = fileByte d i pos := by
  have hlive := div_lt_blocks hpos
  obtain ⟨hL, heq⟩ := h.disk i hi (.data (pos / 512)) hlive
  have hinode : d' i = d i := hq.leaf i .inode ((h.inode i).mpr hi) (.inl rfl)
  have hptr := h.onDisk.ptr_eq (h.sameWords_onDisk hq.words) i (.data (pos / 512)) ⟨hi, hlive⟩
  rw [fileByte, fileByte, hinode, hptr, heq, hq.leaf i _ hL (.inr ⟨_, rfl⟩)]

/-- **An allocated sector joins an inode**, as the use `u0` that the header `h'` now leads to. -/
theorem join {i0 s : Nat} {u0 : Use} {h' : Sector} (hs : s < n)
    (hfree : m.freeMap.bits s = false) (hu0 : u0 ≠ .inode)
    (hroot : ∀ u, L i0 u → u.parent = none → u.ptr d i0 h' = u.ptr d i0 (hdr i0))
    (hpar : ∀ p k, u0.parent = some (p, k) → L i0 p ∧ k < 128) (hnew : u0.ptr d' i0 h' = s) :
    FsInv n inodes ⟨{ m with freeMap := m.freeMap.mark s }, d'⟩ (Function.update hdr i0 h')
        (Layout.Add L i0 u0) ∧
      ∀ i u, L i u → u.ptr d' i (Function.update hdr i0 h' i) = u.ptr d i (hdr i) := by
  have hinode : ∀ i ∈ inodes, d' i = d i := fun i hi =>
    hq.leaf i .inode ((h.inode i).mpr hi) (.inl rfl)
  have hptr : ∀ i u, L i u → u.ptr d' i (Function.update hdr i0 h' i) = u.ptr d i (hdr i) := by
    refine Layout.ptr_congr h.layout.parent hq.words fun i u hu hp => ?_
    by_cases hii : i = i0
    · subst hii
      rw [Function.update_self]
      exact hroot u hu hp
    · rw [Function.update_of_ne hii]
  refine ⟨⟨?_, h.bitCnt, h.small, fun i => ?_, fun i hi u hu => ?_, fun i hi => ?_,
    fun file hf => ?_⟩, hptr⟩
  · exact h.layout.add hs hfree hpar hptr (by rw [Function.update_self]; exact hnew)
      m.freeMap.bits_mark (by simp [Bitmap.mark])
  · refine ⟨?_, fun hi => .inl ((h.inode i).mpr hi)⟩
    rintro (hi | ⟨-, hu⟩)
    · exact (h.inode i).mp hi
    · exact absurd hu.symm hu0
  · dsimp only at hu ⊢
    rw [hinode i hi] at hu ⊢
    obtain ⟨hL, heq⟩ := h.disk i hi u hu
    refine ⟨.inl hL, ?_⟩
    rw [hptr i u hL, h.onDisk.ptr_eq (h.sameWords_onDisk hq.words) i u ⟨hi, hu⟩]
    exact heq
  · dsimp only
    rw [hinode i hi]
    exact h.length i hi
  · obtain ⟨h1, h2, h3⟩ := h.map file hf
    dsimp only
    rw [hinode _ h2]
    exact ⟨h1, h2, h3⟩

end

end

end FsInv

end Pintos
