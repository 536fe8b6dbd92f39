import Pintos.Filesys.Layout

/-!
# Reading and writing through the index

`byte_to_sector` and the copy loop of `inode_write_at`, for a file of which little is known: its
index blocks lie on the disk, and so do its first `g` blocks of data.  The other blocks may have
been given any number, since `inode_expand` does not look at the result of an allocation, and two
blocks may even share a sector.

* `Indexes n d i`: the index blocks of the file with its inode in sector `i` lie on the disk.  Then
  `byte_to_sector` finds whatever number the index holds (`Indexes.exec_byteToSector`).
* `Writable n d i g`: moreover its first `g` blocks lie on the disk, apart from the index.  Stores
  into them change no pointer (`Writable.ptr_eq`).
* `Writable.exec_inodeWriteLoop`: the loop of `inode_write_at` inside those blocks.  A position
  holds what was last written to its place, which is its own unless two blocks share a sector.
* `Writable.exec_inodeWriteLoop_bad`: the loop panics at a block that is off the disk.
-/

namespace Pintos

open Bytes Prog

/-- The number of blocks of a file, by its header. -/
def blocks (b : Sector) : Nat := ((InodeDisk.length b).toNat + 511) / 512

/-- The longest a file can be. -/
def maxLength : Nat := 8486912

theorem maxLength_eq : maxLength = 8486912 := rfl

/-- Byte `pos` of the file whose inode is in sector `i`. -/
def fileByte (d : Disk) (i pos : Nat) : UInt8 :=
  (d ((Use.data (pos / 512)).ptr d i (d i))).get (pos % 512)

theorem div_lt_blocks {b : Sector} {pos : Nat} (hpos : pos < (InodeDisk.length b).toNat) :
    pos / 512 < blocks b := by
  rw [blocks]
  omega

theorem length_lt (b : Sector) : InodeDisk.length b < 2147483648 := (wrap32_mem _).2

/-! ## Looking up a block -/

/-- The index blocks of the file with its inode in sector `i` lie on a disk of `n` sectors. -/
structure Indexes (n : Nat) (d : Disk) (i : Nat) : Prop where
  lt : i < n
  nonneg : 0 ≤ InodeDisk.length (d i)
  /-- The index blocks lie on the disk. -/
  index : ∀ v : Use, v.Live (min (blocks (d i)) maxBlocks) → (∀ k, v ≠ .data k) →
    v.ptr d i (d i) < n

/-- The sector that `byte_to_sector` gives for block `k`, which past the index is whatever
`return_sec` was. -/
def sectorOf (u : Uninit) (d : Disk) (i k : Nat) : Nat :=
  if k < maxBlocks then (Use.data k).ptr d i (d i) else u.returnSec

/-- Where a byte of a file is stored. -/
def bytePlace (d : Disk) (i pos : Nat) : Nat × Nat :=
  ((Use.data (pos / 512)).ptr d i (d i), pos % 512)

theorem sectorOf_of_lt (u : Uninit) (d : Disk) (i : Nat) {k : Nat} (hk : k < maxBlocks) :
    sectorOf u d i k = (Use.data k).ptr d i (d i) := if_pos hk

namespace Indexes

variable {n : Nat} {w : FsWorld} {inode : Inode} (h : Indexes n w.disk inode.sector)

include h

theorem exec_inodeLength :
    (inodeLength inode).exec n w = some (InodeDisk.length (w.disk inode.sector), w) := by
  rw [inodeLength, exec_bind_of_eq (exec_readWord h.lt (by decide))]
  rfl

theorem exec_byteToSector_end (u : Uninit) {pos : Int}
    (hpos : InodeDisk.length (w.disk inode.sector) ≤ pos) :
    (byteToSector u inode pos).exec n w = some (noSector, w) := by
  rw [byteToSector, exec_bind_of_eq h.exec_inodeLength, if_pos hpos, exec_pure]

theorem exec_lookupBlock (u : Uninit) {k : Nat} (hk : k < blocks (w.disk inode.sector)) :
    (lookupBlock u (w.disk inode.sector) k).exec n w
      = some (sectorOf u w.disk inode.sector k, w) := by
  have hcap := maxBlocks_eq
  by_cases hmax : k < maxBlocks
  swap
  · simp only [lookupBlock, directCnt, indirectCnt, doublyIndirectCnt]
    rw [if_neg (by omega), if_neg (by omega), if_neg (by omega), sectorOf, if_neg hmax, exec_pure]
  rw [sectorOf_of_lt _ _ _ hmax]
  simp only [lookupBlock, Use.ptr, directCnt, indirectCnt, doublyIndirectCnt]
  by_cases h64 : k < 64
  · rw [if_pos h64, if_pos h64, exec_pure]
  rw [if_neg h64, if_neg h64]
  by_cases h192 : k < 192
  · have hind : InodeDisk.indirect (w.disk inode.sector) < n :=
      h.index .indirect (show 64 < min _ _ by omega) fun _ => by simp
    rw [if_pos h192, if_pos h192, exec_readWord hind (by omega)]
  · have hdbl : InodeDisk.doublyIndirect (w.disk inode.sector) < n :=
      h.index .doubly (show 192 < min _ _ by omega) fun _ => by simp
    have hsnd : (w.disk (InodeDisk.doublyIndirect (w.disk inode.sector))).word ((k - 192) / 128)
        < n :=
      h.index (.second ((k - 192) / 128)) (show 192 + 128 * _ < min _ _ by omega) fun _ => by simp
    rw [if_neg h192, if_neg h192, if_pos (by omega), show k - 64 - 128 = k - 192 by omega,
      exec_bind_of_eq (exec_readWord hdbl (by omega)), exec_readWord hsnd (by omega)]

/-- **`byte_to_sector` finds what the index holds** for every position in the file. -/
theorem exec_byteToSector (u : Uninit) {pos : Nat}
    (hpos : pos < InodeDisk.length (w.disk inode.sector)) :
    (byteToSector u inode pos).exec n w
      = some (sectorOf u w.disk inode.sector (pos / 512), w) := by
  rw [byteToSector, exec_bind_of_eq h.exec_inodeLength, if_neg (by omega), if_neg (by omega),
    exec_bind_of_eq (exec_readSector h.lt), Int.toNat_natCast,
    h.exec_lookupBlock u (div_lt_blocks (by omega))]

end Indexes

/-! ## The chunks of the copy loops -/

theorem chunkSize_eq (size : Nat) {len o : Nat} (hlen : len < 2147483648) (ho : o ≤ len) :
    chunkSize len size o = ((min size (min (len - o) (512 - o % 512)) : Nat) : Int) := by
  have htmod : (o : Int).tmod 512 = ((o % 512 : Nat) : Int) := by
    rw [Int.tmod_eq_emod_of_nonneg (by omega)]
    omega
  rw [chunkSize, htmod, wrap32_of_mem (by omega) (by omega)]
  split <;> split <;> omega

theorem chunkSize_neg (size : Int) {length offset : Int} (h0 : 0 ≤ length)
    (hoff : length < offset) (hlt : offset < 2 ^ 31) : chunkSize length size offset < 0 := by
  rw [chunkSize, wrap32_of_mem (by omega) (by omega)]
  split <;> split <;> omega

/-- The disk after a chunk of `c` bytes, from byte `bw` of the buffer on, has been stored in a
sector for the position `o` of a file. -/
def storeChunk (buffer : Nat → UInt8) (sec o c bw : Nat) (d : Disk) : Disk :=
  Function.update d sec ((d sec).write (o % 512) ((List.range c).map fun j => buffer (bw + j)))

namespace Indexes

variable {n : Nat} {w : FsWorld} {inode : Inode} (h : Indexes n w.disk inode.sector)
  {size offset : Int}

include h

/-- **A read past the end panics**: the chunk is negative, and becomes a huge `size_t`. -/
theorem exec_inodeReadLoop_past (u : Uninit) (fuel : Nat) (hsize : 0 < size)
    (hoff : InodeDisk.length (w.disk inode.sector) < offset) (hlt : offset < 2 ^ 31) :
    (inodeReadLoop u inode (fuel + 1) size offset).exec n w = none := by
  have hchunk := chunkSize_neg size h.nonneg hoff hlt
  rw [inodeReadLoop, if_neg (Int.not_le.mpr hsize),
    exec_bind_of_eq (h.exec_byteToSector_end u hoff.le),
    exec_bind_of_eq h.exec_inodeLength]
  rw [if_neg (Int.ne_of_lt hchunk), if_pos hchunk, exec_fail]

theorem exec_inodeWriteLoop_past (u : Uninit) (buffer : Nat → UInt8) (fuel bw : Nat)
    (hsize : 0 < size) (hoff : InodeDisk.length (w.disk inode.sector) < offset)
    (hlt : offset < 2 ^ 31) :
    (inodeWriteLoop u inode buffer (fuel + 1) size offset bw).exec n w = none := by
  have hchunk := chunkSize_neg size h.nonneg hoff hlt
  rw [inodeWriteLoop, if_neg (Int.not_le.mpr hsize),
    exec_bind_of_eq (h.exec_byteToSector_end u hoff.le),
    exec_bind_of_eq h.exec_inodeLength]
  rw [if_neg (Int.ne_of_lt hchunk), if_pos hchunk, exec_fail]

/-- **A round of the loop of `inode_write_at`** stores a chunk, if the block is on the disk. -/
theorem exec_inodeWriteLoop_succ (u : Uninit) (buffer : Nat → UInt8) (fuel bw : Nat)
    {size o c len : Nat} (hlen : InodeDisk.length (w.disk inode.sector) = len) (hsize : 0 < size)
    (ho : o < len) (hc : min size (min (len - o) (512 - o % 512)) = c) :
    (inodeWriteLoop u inode buffer (fuel + 1) size o bw).exec n w
      = if sectorOf u w.disk inode.sector (o / 512) < n then
          (inodeWriteLoop u inode buffer fuel ((size - c : Nat) : Int) ((o + c : Nat) : Int)
            (bw + c)).exec n ⟨w.mem,
              storeChunk buffer (sectorOf u w.disk inode.sector (o / 512)) o c bw w.disk⟩
        else none := by
  have hsmall : len < 2147483648 := Int.ofNat_lt.mp (hlen ▸ length_lt (w.disk inode.sector))
  rw [inodeWriteLoop, if_neg (by omega), exec_bind_of_eq (h.exec_byteToSector u (by omega)),
    exec_bind_of_eq h.exec_inodeLength]
  rw [hlen, chunkSize_eq size hsmall ho.le, hc, if_neg (by omega), if_neg (by omega),
    Int.toNat_natCast, Int.toNat_natCast]
  split
  next hsec =>
    have hfit : o % 512 + ((List.range c).map fun j => buffer (bw + j)).length ≤ 512 := by
      rw [List.length_map, List.length_range]
      omega
    rw [exec_bind_of_eq (exec_cacheWritePinned hsec hfit), storeChunk, ← Int.natCast_add,
      ← Int.ofNat_sub (by omega)]
  next hsec =>
    rw [exec_bind, cacheWritePinned, Prog.exec, if_neg fun hc => hsec hc.1]
    rfl

theorem exec_inodeWriteLoop_off (u : Uninit) (buffer : Nat → UInt8) (fuel bw : Nat)
    {size o len : Nat} (hlen : InodeDisk.length (w.disk inode.sector) = len) (hsize : 0 < size)
    (ho : o < len) (hsec : n ≤ sectorOf u w.disk inode.sector (o / 512)) :
    (inodeWriteLoop u inode buffer (fuel + 1) size o bw).exec n w = none := by
  rw [h.exec_inodeWriteLoop_succ u buffer fuel bw hlen hsize ho rfl, if_neg (Nat.not_lt.mpr hsec)]

end Indexes

theorem read_chunk (d : Disk) (i : Nat) {o c : Nat} (hc : o % 512 + c ≤ 512) :
    (d ((Use.data (o / 512)).ptr d i (d i))).read (o % 512) c
      = (List.range c).map fun j => fileByte d i (o + j) := by
  rw [Block.read, List.map_inj_left]
  intro j hj
  rw [List.mem_range] at hj
  rw [fileByte, show (o + j) / 512 = o / 512 by omega, show (o + j) % 512 = o % 512 + j by omega]

/-- **Reading one byte** of a file, wherever the index says it is. -/
theorem Indexes.exec_inodeReadAt_one {n : Nat} {w : FsWorld} {inode : Inode}
    (h : Indexes n w.disk inode.sector) (u : Uninit) {pos : Nat}
    (hpos : pos < InodeDisk.length (w.disk inode.sector)) (hsmall : pos + 512 < 2 ^ 31) :
    (inodeReadAt u inode 1 pos).exec n w
      = if sectorOf u w.disk inode.sector (pos / 512) < n then
          some ([(w.disk (sectorOf u w.disk inode.sector (pos / 512))).get (pos % 512)], w)
        else none := by
  have hchunk : chunkSize (InodeDisk.length (w.disk inode.sector)) 1 pos = 1 := by
    have hlt := length_lt (w.disk inode.sector)
    have hone := chunkSize_eq 1 (o := pos)
      (show (InodeDisk.length (w.disk inode.sector)).toNat < 2147483648 by omega) (by omega)
    rw [Int.toNat_of_nonneg h.nonneg] at hone
    rw [show (1 : Int) = ((1 : Nat) : Int) from rfl]
    omega
  obtain ⟨a, ha⟩ : ∃ a, (byteToSector u inode (wrap32 ((pos : Int) + 512))).exec n w
      = some (a, w) := by
    rw [wrap32_of_mem (by omega) (by omega)]
    by_cases hin : (pos : Int) + 512 < InodeDisk.length (w.disk inode.sector)
    · exact ⟨_, h.exec_byteToSector u (show ((pos + 512 : Nat) : Int) < _ by push_cast; exact hin)⟩
    · exact ⟨_, h.exec_byteToSector_end u (by omega)⟩
  rw [inodeReadAt, show (1 : Int).toNat = 0 + 1 from rfl, inodeReadLoop, if_neg (by decide),
    exec_bind_of_eq (h.exec_byteToSector u hpos), exec_bind_of_eq h.exec_inodeLength]
  rw [hchunk, if_neg (by decide), if_neg (by decide), Int.toNat_natCast,
    show (1 : Int).toNat = 1 from rfl]
  split
  · rename_i hlt
    rw [exec_bind_of_eq (exec_cacheReadPinned hlt (show pos % 512 + 1 ≤ 512 by omega)),
      exec_bind_of_eq ha]
    split
    · rfl
    · rfl
  · rename_i hlt
    rw [exec_bind, cacheReadPinned, Prog.exec, if_neg fun hc => hlt hc.1]
    rfl

/-! ## Files that can be written -/

/-- Of the file with its inode in sector `i`, the first `g` blocks lie on the disk of `n` sectors,
apart from the index. -/
structure Writable (n : Nat) (d : Disk) (i g : Nat) : Prop extends Indexes n d i where
  le : g ≤ min (blocks (d i)) maxBlocks
  data_lt : ∀ k < g, (Use.data k).ptr d i (d i) < n
  apart : ∀ k < g, ∀ v : Use, v.Live (min (blocks (d i)) maxBlocks) → (∀ j, v ≠ .data j) →
    v.ptr d i (d i) ≠ (Use.data k).ptr d i (d i)

/-- From `d` to `d'`, only the first `g` blocks of the file in sector `i` change. -/
def OnlyBlocks (i g : Nat) (d d' : Disk) : Prop :=
  ∀ s, d' s ≠ d s → ∃ k < g, (Use.data k).ptr d i (d i) = s

theorem OnlyBlocks.refl (i g : Nat) (d : Disk) : OnlyBlocks i g d d := fun _ hs => absurd rfl hs

theorem onlyBlocks_storeChunk {i g o : Nat} (ho : o / 512 < g) (buffer : Nat → UInt8) (c bw : Nat)
    (d : Disk) :
    OnlyBlocks i g d (storeChunk buffer ((Use.data (o / 512)).ptr d i (d i)) o c bw d) := by
  intro s hs
  refine ⟨o / 512, ho, ?_⟩
  by_contra hne
  exact hs (Function.update_of_ne (Ne.symm hne) _ _)

namespace Writable

variable {n i g : Nat} {d d' d'' : Disk}

section

variable (h : Writable n d i g) (ho : OnlyBlocks i g d d') {v : Use} {k : Nat}
include h ho

theorem eq_of_index (hv : v.Live (min (blocks (d i)) maxBlocks))
    (hdata : ∀ j, v ≠ .data j) : d' (v.ptr d i (d i)) = d (v.ptr d i (d i)) := by
  by_contra hs
  obtain ⟨k, hk, heq⟩ := ho _ hs
  exact h.apart k hk v hv hdata heq.symm

theorem header_eq : d' i = d i := h.eq_of_index ho (v := .inode) trivial fun _ => by simp

/-- **Stores into the data change no pointer.** -/
theorem ptr_eq (hv : v.Live (min (blocks (d i)) maxBlocks)) :
    v.ptr d' i (d' i) = v.ptr d i (d i) := by
  rw [h.header_eq ho]
  have hpar : ∀ j u p k, j = i ∧ Use.Live (min (blocks (d i)) maxBlocks) u →
      u.parent = some (p, k) →
        (j = i ∧ Use.Live (min (blocks (d i)) maxBlocks) p) ∧ k < 128 := by
    rintro j u p k ⟨rfl, hu⟩ hp
    obtain ⟨h1, h2⟩ := hu.parent (Nat.min_le_right _ _) hp
    exact ⟨⟨rfl, h1⟩, h2⟩
  have hwords : Layout.SameWords (fun _ => d i)
      (fun j u => j = i ∧ Use.Live (min (blocks (d i)) maxBlocks) u) d d' := by
    rintro j u p k ⟨rfl, hu⟩ hp
    rw [h.eq_of_index ho (hu.parent (Nat.min_le_right _ _) hp).1 (Use.parent_ne_leaf hp).2]
  exact Layout.ptr_congr hpar hwords (fun _ _ _ _ => rfl) i v ⟨rfl, hv⟩

theorem data_eq (hk : k < min (blocks (d i)) maxBlocks) :
    (Use.data k).ptr d' i (d' i) = (Use.data k).ptr d i (d i) :=
  h.ptr_eq ho hk

theorem onlyBlocks : Writable n d' i g where
  lt := h.lt
  nonneg := by
    rw [h.header_eq ho]
    exact h.nonneg
  index v hv hdata := by
    rw [h.header_eq ho] at hv
    rw [h.ptr_eq ho hv]
    exact h.index v hv hdata
  le := by
    rw [h.header_eq ho]
    exact h.le
  data_lt k hk := by
    rw [h.data_eq ho (hk.trans_le h.le)]
    exact h.data_lt k hk
  apart k hk v hv hdata := by
    rw [h.header_eq ho] at hv
    rw [h.ptr_eq ho hv, h.data_eq ho (hk.trans_le h.le)]
    exact h.apart k hk v hv hdata

theorem onlyBlocks_trans (ho' : OnlyBlocks i g d' d'') : OnlyBlocks i g d d'' := by
  intro s hs
  by_cases hs' : d'' s = d' s
  · exact ho s (hs' ▸ hs)
  · obtain ⟨k, hk, hptr⟩ := ho' s hs'
    exact ⟨k, hk, (h.data_eq ho (hk.trans_le h.le)).symm.trans hptr⟩

theorem sectorOf_eq (u : Uninit) (hk : k < blocks (d i)) :
    sectorOf u d' i k = sectorOf u d i k := by
  rw [sectorOf, sectorOf]
  split
  · rename_i hmax
    exact h.data_eq ho (Nat.lt_min.mpr ⟨hk, hmax⟩)
  · rfl

theorem bytePlace_eq {pos : Nat} (hpos : pos / 512 < min (blocks (d i)) maxBlocks) :
    bytePlace d' i pos = bytePlace d i pos := by
  rw [bytePlace, bytePlace, h.data_eq ho hpos]

end

end Writable

/-! ## The loop of `inode_write_at` -/

/-- What a write of `t` bytes at `o`, from byte `bw` of the buffer on, leaves at each position of
the file: what it last wrote to the place, or what was there. -/
def Stores (i : Nat) (buffer : Nat → UInt8) (o t bw : Nat) (d d' : Disk) : Prop :=
  ∀ pos, pos / 512 < min (blocks (d i)) maxBlocks →
    (∃ q, o ≤ q ∧ q < o + t ∧ bytePlace d i q = bytePlace d i pos ∧
        fileByte d' i pos = buffer (bw + (q - o))) ∨
      (∀ q, o ≤ q → q < o + t → bytePlace d i q ≠ bytePlace d i pos) ∧
        fileByte d' i pos = fileByte d i pos

theorem Stores.nothing {i o bw : Nat} {buffer : Nat → UInt8} {d : Disk} :
    Stores i buffer o 0 bw d d :=
  fun _ _ => .inr ⟨fun _ h1 h2 => absurd h2 (Nat.not_lt.mpr h1), rfl⟩

namespace Writable

variable {n i g : Nat} {m : FreeMap} {d d' d1 : Disk} {inode : Inode} {o c bw : Nat}
  {buffer : Nat → UInt8}

/-- **What a chunk stores**, at every position of the file. -/
theorem stores_chunk (h : Writable n d i g) (ho : o / 512 < g) (hfit : o % 512 + c ≤ 512) :
    Stores i buffer o c bw d
      (storeChunk buffer ((Use.data (o / 512)).ptr d i (d i)) o c bw d) := by
  intro pos hpos
  -- the positions of the chunk are in the block of the first
  have hblock : ∀ q, o ≤ q → q < o + c → q / 512 = o / 512 := by
    intro q h1 h2
    omega
  rw [fileByte, h.data_eq (onlyBlocks_storeChunk ho buffer c bw d) hpos, storeChunk]
  by_cases hsame : (Use.data (pos / 512)).ptr d i (d i) = (Use.data (o / 512)).ptr d i (d i)
  · rw [hsame, Function.update_self, Block.get_write _ _ _ (Nat.mod_lt _ (by decide)),
      List.length_map, List.length_range]
    by_cases hin : o % 512 ≤ pos % 512 ∧ pos % 512 < o % 512 + c
    · refine .inl ⟨o + (pos % 512 - o % 512), by omega, by omega, ?_, ?_⟩
      · rw [bytePlace, bytePlace, hblock _ (by omega) (by omega), hsame]
        congr 1
        omega
      · rw [if_pos hin]
        simp [show pos % 512 - o % 512 < c by omega]
    · refine .inr ⟨fun q h1 h2 heq => ?_, by rw [if_neg hin, fileByte, hsame]⟩
      have hmod := congrArg Prod.snd heq
      simp only [bytePlace] at hmod
      omega
  · refine .inr ⟨fun q h1 h2 heq => ?_, by rw [Function.update_of_ne hsame, fileByte]⟩
    have hptr := congrArg Prod.fst heq
    simp only [bytePlace, hblock q h1 h2] at hptr
    exact hsame hptr.symm

theorem stores_trans (h : Writable n d i g) {t : Nat} (honly : OnlyBlocks i g d d1)
    (hfirst : Stores i buffer o c bw d d1) (hrest : Stores i buffer (o + c) t (bw + c) d1 d')
    (hlast : o + c + t ≤ 512 * g) : Stores i buffer o (c + t) bw d d' := by
  intro pos hpos
  have hplace : ∀ q, q / 512 < min (blocks (d i)) maxBlocks →
      bytePlace d1 i q = bytePlace d i q := fun q hq => h.bytePlace_eq honly hq
  have hle := h.le
  rcases hrest pos (by rwa [h.header_eq honly]) with ⟨q, h1, h2, hq, hval⟩ | ⟨hnone, hval⟩
  · refine .inl ⟨q, by omega, by omega, ?_, by rw [hval]; congr 1; omega⟩
    rwa [hplace q (by omega), hplace pos hpos] at hq
  · rcases hfirst pos hpos with ⟨q, h1, h2, hq, hsame⟩ | ⟨hout, hsame⟩
    · exact .inl ⟨q, h1, by omega, hq, hval.trans hsame⟩
    · refine .inr ⟨fun q h1 h2 => ?_, hval.trans hsame⟩
      by_cases hq : q < o + c
      · exact hout q h1 hq
      · rw [← hplace q (by omega), ← hplace pos hpos]
        exact hnone q (by omega) (by omega)

variable {size len : Nat}

/-- **A round of the loop** inside the blocks that can be written. -/
theorem exec_inodeWriteLoop_chunk (h : Writable n d inode.sector g) (u : Uninit)
    (buffer : Nat → UInt8) (fuel bw : Nat) (hlen : InodeDisk.length (d inode.sector) = len)
    (hsize : 0 < size) (ho : o < len) (hog : o / 512 < g)
    (hc : min size (min (len - o) (512 - o % 512)) = c) :
    ∃ d1, Writable n d1 inode.sector g ∧ InodeDisk.length (d1 inode.sector) = len ∧
      OnlyBlocks inode.sector g d d1 ∧ Stores inode.sector buffer o c bw d d1 ∧
      (inodeWriteLoop u inode buffer (fuel + 1) size o bw).exec n ⟨m, d⟩
        = (inodeWriteLoop u inode buffer fuel ((size - c : Nat) : Int) ((o + c : Nat) : Int)
            (bw + c)).exec n ⟨m, d1⟩ := by
  have honly := onlyBlocks_storeChunk (i := inode.sector) hog buffer c bw d
  have hmax : o / 512 < maxBlocks := hog.trans_le (h.le.trans (Nat.min_le_right _ _))
  refine ⟨_, h.onlyBlocks honly, by rw [h.header_eq honly, hlen], honly,
    h.stores_chunk hog (by omega), ?_⟩
  rw [h.toIndexes.exec_inodeWriteLoop_succ (w := ⟨m, d⟩) u buffer fuel bw hlen hsize ho hc,
    sectorOf_of_lt u _ _ hmax, if_pos (h.data_lt _ hog)]

/-- **The loop of `inode_write_at`**, inside the blocks that can be written, stores as many bytes as
the file has room for from the offset on. -/
theorem exec_inodeWriteLoop (u : Uninit) (buffer : Nat → UInt8) (fuel : Nat) :
    ∀ {d : Disk} {len : Nat} (size o bw : Nat), Writable n d inode.sector g → size ≤ fuel →
      InodeDisk.length (d inode.sector) = len → o ≤ len → o + min size (len - o) ≤ 512 * g →
      ∃ d', (inodeWriteLoop u inode buffer fuel size o bw).exec n ⟨m, d⟩
          = some (((bw + min size (len - o) : Nat) : Int), ⟨m, d'⟩) ∧
        OnlyBlocks inode.sector g d d' ∧
        Stores inode.sector buffer o (min size (len - o)) bw d d' := by
  induction fuel with
  | zero =>
    intro d len size o bw h hfuel hlen ho hfit
    rw [show min size (len - o) = 0 by omega]
    exact ⟨d, rfl, .refl _ _ d, .nothing⟩
  | succ fuel ih =>
    intro d len size o bw h hfuel hlen ho hfit
    by_cases hnone : size = 0
    · rw [show min size (len - o) = 0 by omega, inodeWriteLoop, if_pos (by omega)]
      exact ⟨d, rfl, .refl _ _ d, .nothing⟩
    by_cases hend : o = len
    · -- at the end of the file nothing is left to store into
      have hidx : Indexes n (World.disk ⟨m, d⟩) inode.sector := h.toIndexes
      have hsmall : len < 2147483648 := Int.ofNat_lt.mp (hlen ▸ length_lt (d inode.sector))
      rw [show min size (len - o) = 0 by omega]
      refine ⟨d, ?_, .refl _ _ d, .nothing⟩
      rw [inodeWriteLoop, if_neg (by omega),
        exec_bind_of_eq (hidx.exec_byteToSector_end u (by dsimp only; omega)),
        exec_bind_of_eq hidx.exec_inodeLength, hlen, chunkSize_eq size hsmall ho,
        show min size (min (len - o) (512 - o % 512)) = 0 by omega]
      rfl
    · generalize hc : min size (min (len - o) (512 - o % 512)) = c
      obtain ⟨d1, hw, hlen1, honly, hchunk, hround⟩ := h.exec_inodeWriteLoop_chunk u buffer
        fuel bw hlen (by omega) (by omega) (by omega) hc
      obtain ⟨d', hexec, honly', hstores⟩ := ih (size - c) (o + c) (bw + c) hw (by omega) hlen1
        (by omega) (by omega)
      rw [show min size (len - o) = c + min (size - c) (len - (o + c)) by omega]
      refine ⟨d', ?_, h.onlyBlocks_trans honly honly',
        h.stores_trans honly hchunk hstores (by omega)⟩
      rw [hround, hexec, Nat.add_assoc]

/-- **The loop comes to the first block that it may not be able to write.** -/
theorem exec_inodeWriteLoop_reach (u : Uninit) (buffer : Nat → UInt8) (fuel : Nat) :
    ∀ {d : Disk} {len : Nat} (size o bw : Nat), Writable n d inode.sector g → size ≤ fuel →
      InodeDisk.length (d inode.sector) = len → 0 < size → o < len → o < 512 * (g + 1) →
      512 * g < o + min size (len - o) →
      ∃ fuel' size' o' bw' d', Indexes n d' inode.sector ∧
        InodeDisk.length (d' inode.sector) = len ∧
        (o' / 512 = g ∧ o' < len ∧ 0 < size' ∧ o' + size' = o + size ∧ bw' + size' = bw + size) ∧
        sectorOf u d' inode.sector g = sectorOf u d inode.sector g ∧
        (inodeWriteLoop u inode buffer fuel size o bw).exec n ⟨m, d⟩
          = (inodeWriteLoop u inode buffer (fuel' + 1) size' o' bw').exec n ⟨m, d'⟩ := by
  induction fuel with
  | zero =>
    intro d len size o bw h hfuel hlen hsize
    omega
  | succ fuel ih =>
    intro d len size o bw h hfuel hlen hsize ho hog hbad
    by_cases hat : o / 512 = g
    · exact ⟨fuel, size, o, bw, d, h.toIndexes, hlen, ⟨hat, ho, hsize, rfl, rfl⟩, rfl, rfl⟩
    · generalize hc : min size (min (len - o) (512 - o % 512)) = c
      obtain ⟨d1, hw, hlen1, honly, -, hround⟩ := h.exec_inodeWriteLoop_chunk u buffer
        fuel bw hlen hsize ho (by omega) hc
      have hg : 512 * g / 512 < blocks (d inode.sector) := by
        refine div_lt_blocks ?_
        rw [hlen]
        omega
      have hcsize : c ≤ size := hc ▸ Nat.min_le_left _ _
      obtain ⟨fuel', size', o', bw', d', hidx, hlen', ⟨hat', ho', hsize', hend, hbw⟩, hsec,
          hexec⟩ := ih (size - c) (o + c) (bw + c) hw (by omega) hlen1 (by omega) (by omega)
        (by omega) (by omega)
      refine ⟨fuel', size', o', bw', d', hidx, hlen', ⟨hat', ho', hsize', ?_, ?_⟩,
        hsec.trans (h.sectorOf_eq honly u (by omega)), hround.trans hexec⟩
      · rw [hend, Nat.add_assoc, Nat.add_sub_cancel' hcsize]
      · rw [hbw, Nat.add_assoc, Nat.add_sub_cancel' hcsize]

section

variable (h : Writable n d inode.sector g)
include h

/-- **The loop panics** at a block that is off the disk. -/
theorem exec_inodeWriteLoop_bad (u : Uninit)
    (buffer : Nat → UInt8) (bw : Nat) (hlen : InodeDisk.length (d inode.sector) = len)
    (hsize : 0 < size) (ho : o < len) (hog : o < 512 * (g + 1))
    (hbad : 512 * g < o + min size (len - o))
    (hsec : n ≤ sectorOf u d inode.sector g) :
    (inodeWriteLoop u inode buffer size size o bw).exec n ⟨m, d⟩ = none := by
  obtain ⟨fuel, size', o', bw', d', hidx, hlen', ⟨hat, ho', hsize', -⟩, hsame, hexec⟩ :=
    exec_inodeWriteLoop_reach u buffer size size o bw h le_rfl hlen hsize ho hog hbad
  rw [hexec]
  exact hidx.exec_inodeWriteLoop_off u buffer fuel bw' hlen' hsize' ho'
    (by rw [hat, hsame]; exact hsec)

/-- **A last block that is on the disk** can be written, whatever else it is part of. -/
theorem exec_inodeWriteLoop_last (u : Uninit)
    (buffer : Nat → UInt8) (bw : Nat) (hlen : InodeDisk.length (d inode.sector) = len)
    (ho : o + size ≤ len) (hlast : 512 * g < o + size) (hfit : o + size ≤ 512 * (g + 1))
    (hsize : 0 < size) (hsec : sectorOf u d inode.sector g < n) :
    ∃ d', (inodeWriteLoop u inode buffer size size o bw).exec n ⟨m, d⟩
      = some (((bw + size : Nat) : Int), ⟨m, d'⟩) := by
  obtain ⟨fuel, size', o', bw', d', hidx, hlen', ⟨hat, ho', hpos, hend, hbw⟩, hsame, hexec⟩ :=
    exec_inodeWriteLoop_reach u buffer size size o bw h le_rfl hlen hsize
      (by omega) (by omega) (by omega)
  -- all that is left goes into the block
  rw [hexec, hidx.exec_inodeWriteLoop_succ (w := ⟨m, d'⟩) u buffer fuel bw' hlen' hpos ho'
    (show _ = size' by omega), hat, hsame, if_pos hsec, Nat.sub_self, hbw]
  cases fuel with
  | zero => exact ⟨_, rfl⟩
  | succ fuel =>
    exact ⟨_, rfl⟩

theorem exec_inodeWriteLoop_none {u : Uninit} (hlen : InodeDisk.length (d inode.sector) = len)
    (hbad : ∀ j, g ≤ j → j < (len + 511) / 512 → n ≤ sectorOf u d inode.sector j)
    (buffer : Nat → UInt8) (hsize : 0 < size) (ho : o < len)
    (hreach : 512 * g < o + min size (len - o)) :
    (inodeWriteLoop u inode buffer size size o 0).exec n ⟨m, d⟩ = none := by
  by_cases hlt : o / 512 < g
  · exact h.exec_inodeWriteLoop_bad u buffer 0 hlen hsize ho (by omega) hreach
      (hbad g (Nat.le_refl g) (by omega))
  · have hoff := h.toIndexes.exec_inodeWriteLoop_off (w := ⟨m, d⟩) u buffer (size - 1) 0 hlen hsize
      ho (hbad _ (Nat.not_lt.mp hlt) (by omega))
    rwa [Nat.sub_add_cancel hsize] at hoff

end

end Writable

end Pintos
