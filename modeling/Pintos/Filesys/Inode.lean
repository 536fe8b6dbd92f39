import Pintos.Filesys.Program
import Pintos.Kernel.Bitmap

/-!
# Inodes and the free map

`filesys/inode.c` and `filesys/free-map.c`, as programs over the buffer cache.  The two call each
other: growing a file allocates sectors, and an allocation writes the free map back to its own file,
by `inode_write_at`.  The recursion is cut by a `depth`, which the second call does not use up,
since the free-map file is long enough already.

* An on-disk inode is its sector.  `InodeDisk` has the fields of `struct inode_disk` at their
  offsets; writing a field writes its four bytes.
* `off_t` is `Int`, and `wrap32` stands where the C expression is an `int` that may overflow.
* What the source leaves uninitialised is a parameter: `Uninit` has the `alloc_sec` and `zeros` of
  `inode_expand` and the `return_sec` of `byte_to_sector`.
* `none`, the outcome of a panic, is also that of a negative offset or chunk, for which the source
  would index its arrays out of bounds.
-/

namespace Pintos

open Bytes Prog

/-! ## Machine integers -/

/-- The value of an `int` whose exact value would be `z`. -/
def wrap32 (z : Int) : Int := z.bmod (2 ^ 32)

/-- The bits of an `int`, read as an unsigned number. -/
def unsigned32 (z : Int) : Nat := (z % 2 ^ 32).toNat

theorem wrap32_of_mem {z : Int} (h0 : -2 ^ 31 ≤ z) (h1 : z < 2 ^ 31) : wrap32 z = z := by
  rw [wrap32, Int.bmod_eq_iff (by decide)]
  omega

theorem wrap32_mem (z : Int) : -2 ^ 31 ≤ wrap32 z ∧ wrap32 z < 2 ^ 31 := by
  rw [wrap32, Int.bmod_def]
  omega

theorem unsigned32_of_mem {z : Int} (h0 : 0 ≤ z) (h1 : z < 2 ^ 32) : unsigned32 z = z.toNat := by
  rw [unsigned32, Int.emod_eq_of_lt h0 h1]

theorem wrap32_unsigned32 (z : Int) : wrap32 (unsigned32 z) = wrap32 z := by
  rw [wrap32, wrap32, unsigned32, Int.toNat_of_nonneg (Int.emod_nonneg _ (by decide))]
  exact Int.emod_bmod z (2 ^ 32)

/-! ## The inode on disk -/

/-- `DIRECT_CNT`. -/
abbrev directCnt : Nat := 64

/-- `INDIRECT_CNT`. -/
abbrev indirectCnt : Nat := 128

/-- `DOUBLY_INDIRECT_CNT`. -/
abbrev doublyIndirectCnt : Nat := indirectCnt * indirectCnt

/-! The fields of `struct inode_disk`. -/

namespace InodeDisk

/-- `length`. -/
def length (b : Sector) : Int := wrap32 (b.word 1)

/-- `is_dir`. -/
def isDir (b : Sector) : Bool := b.get 12 != 0

/-- `parent`. -/
def parent (b : Sector) : Nat := b.word 4

/-- `direct[k]`. -/
def direct (b : Sector) (k : Nat) : Nat := b.word (5 + k)

/-- `indirect`. -/
def indirect (b : Sector) : Nat := b.word 69

/-- `doubly_indirect`. -/
def doublyIndirect (b : Sector) : Nat := b.word 70

/-- Store `length`. -/
def setLength (b : Sector) (len : Int) : Sector := b.write (4 * 1) (le32 (unsigned32 len))

/-- Store `direct[k]`. -/
def setDirect (b : Sector) (k v : Nat) : Sector := b.write (4 * (5 + k)) (le32 v)

/-- Store `indirect`. -/
def setIndirect (b : Sector) (v : Nat) : Sector := b.write (4 * 69) (le32 v)

/-- Store `doubly_indirect`. -/
def setDoublyIndirect (b : Sector) (v : Nat) : Sector := b.write (4 * 70) (le32 v)

/-- The inode that `inode_create` writes first: all zero but for `magic`, `is_dir` and `parent`. -/
def create (isDir : Bool) (parent : Nat) : Sector :=
  (((Block.fill 512 0).write 8 (le32 0x494e4f44)).write 12 [if isDir then 1 else 0]).write 16
    (le32 parent)

end InodeDisk

/-- `struct inode`, as far as reading and writing go. -/
structure Inode where
  /-- The sector of the on-disk inode. -/
  sector : Nat
  denyWriteCnt : Nat
deriving DecidableEq, Repr

/-- The variables of `free-map.c`. -/
structure FreeMap where
  freeMap : Bitmap
  /-- The inode of `free_map_file`, once that is open. -/
  freeMapFile : Option Inode

/-- What the source leaves uninitialised. -/
structure Uninit where
  allocSec : Nat
  zeros : Sector
  /-- `return_sec` of `byte_to_sector`. -/
  returnSec : Nat

/-- Routines of the file system. -/
abbrev FsProg := Prog FreeMap

/-- The state of the file system. -/
abbrev FsWorld := World FreeMap

/-- `inode_length`. -/
def inodeLength (inode : Inode) : FsProg Int := do
  let w ← readWord inode.sector 1
  return wrap32 w

/-- `inode_dir_check`. -/
def inodeDirCheck (inode : Inode) : FsProg Bool := do
  let diskInode ← readSector inode.sector
  return InodeDisk.isDir diskInode

/-- `inode_parent`. -/
def inodeParent (inode : Inode) : FsProg Nat := readWord inode.sector 4

/-- `bytes_to_sectors`, with the signed division of `DIV_ROUND_UP` and its result as a
`size_t`. -/
def bytesToSectors (size : Int) : Nat := unsigned32 ((wrap32 (size + 511)).tdiv 512)

/-- `(disk_sector_t) -1`. -/
def noSector : Nat := 0xffffffff

/-- The three levels of `byte_to_sector`, for block `secCnt`. -/
def lookupBlock (u : Uninit) (diskInode : Sector) (secCnt : Nat) : FsProg Nat :=
  if secCnt < directCnt then
    return InodeDisk.direct diskInode secCnt
  else if secCnt < directCnt + indirectCnt then
    readWord (InodeDisk.indirect diskInode) (secCnt - directCnt)
  else if secCnt < directCnt + indirectCnt + doublyIndirectCnt then do
    let sectorCnt := secCnt - directCnt - indirectCnt
    let indirectSecDi ← readWord (InodeDisk.doublyIndirect diskInode) (sectorCnt / indirectCnt)
    readWord indirectSecDi (sectorCnt % indirectCnt)
  else
    return u.returnSec

/-- `byte_to_sector`. -/
def byteToSector (u : Uninit) (inode : Inode) (pos : Int) : FsProg Nat := do
  let length ← inodeLength inode
  if pos ≥ length then
    return noSector
  else if pos < 0 then
    .fail
  else
    let diskInode ← readSector inode.sector
    lookupBlock u diskInode (pos.toNat / 512)

/-! ## Reading -/

/-- `chunk_size`, as the loops of `inode_read_at` and `inode_write_at` compute it, before it becomes
a `size_t`. -/
def chunkSize (length size offset : Int) : Int :=
  let sectorOfs := offset.tmod 512
  let inodeLeft := wrap32 (length - offset)
  let sectorLeft := 512 - sectorOfs
  let minLeft := if inodeLeft < sectorLeft then inodeLeft else sectorLeft
  if size < minLeft then size else minLeft

/-- `cache_read_ahead`, which looks the sector up and otherwise only queues it for
`read_ahead_manager`. -/
def cacheReadAhead (secNo : Nat) : FsProg Unit := findCache secNo

/-- The loop of `inode_read_at`. -/
def inodeReadLoop (u : Uninit) (inode : Inode) : Nat → Int → Int → FsProg (List UInt8)
  | 0, _, _ => return []
  | fuel + 1, size, offset =>
    if size ≤ 0 then return []
    else do
      let sectorIdx ← byteToSector u inode offset
      let length ← inodeLength inode
      let chunk := chunkSize length size offset
      if chunk = 0 then return []
      else if chunk < 0 then .fail
      else do
        let bs ← cacheReadPinned sectorIdx (offset.toNat % 512) chunk.toNat
        let aheadSector ← byteToSector u inode (wrap32 (offset + 512))
        if aheadSector ≠ noSector then cacheReadAhead aheadSector
        let rest ← inodeReadLoop u inode fuel (size - chunk) (offset + chunk)
        return bs ++ rest

/-- `inode_read_at`: the bytes it puts into the buffer, their number being its result. -/
def inodeReadAt (u : Uninit) (inode : Inode) (size offset : Int) : FsProg (List UInt8) :=
  inodeReadLoop u inode size.toNat size offset

/-! ## Allocating and growing -/

/-- The loop of `inode_write_at`. -/
def inodeWriteLoop (u : Uninit) (inode : Inode) (buffer : Nat → UInt8) :
    Nat → Int → Int → Nat → FsProg Int
  | 0, _, _, bytesWritten => return bytesWritten
  | fuel + 1, size, offset, bytesWritten =>
    if size ≤ 0 then return bytesWritten
    else do
      let sectorIdx ← byteToSector u inode offset
      let length ← inodeLength inode
      let chunk := chunkSize length size offset
      if chunk = 0 then return bytesWritten
      else if chunk < 0 then .fail
      else do
        cacheWritePinned sectorIdx (offset.toNat % 512)
          ((List.range chunk.toNat).map fun j => buffer (bytesWritten + j))
        inodeWriteLoop u inode buffer fuel (size - chunk) (offset + chunk)
          (bytesWritten + chunk.toNat)

section Allocate

-- the `inode_write_at` that the free map calls
variable (writeAt : Inode → (Nat → UInt8) → Int → Int → FsProg Int)

/-- `file_write_at`. -/
def fileWriteAt (inode : Inode) (buffer : Nat → UInt8) (size fileOfs : Int) : FsProg Int := do
  if ← inodeDirCheck inode then return -1
  else writeAt inode buffer size fileOfs

/-- `bitmap_write`. -/
def bitmapWrite (b : Bitmap) (file : Inode) : FsProg Bool := do
  let size : Int := b.fileSize
  let writeSize ← fileWriteAt writeAt file b.byte size 0
  return size == writeSize

/-- `free_map_allocate`, with `none` for false. -/
def freeMapAllocate (cnt : Nat) : FsProg (Option Nat) := do
  let m ← getMem
  match m.freeMap.scanAndFlip 0 cnt false with
  | none => return none
  | some (sector, freeMap) =>
    setMem { m with freeMap := freeMap }
    match m.freeMapFile with
    | none => return some sector
    | some file =>
      if ← bitmapWrite writeAt freeMap file then return some sector
      else
        let m ← getMem
        setMem { m with freeMap := m.freeMap.setMultiple sector cnt false }
        return none

end Allocate

section Expand

variable (u : Uninit) (allocate : FsProg (Option Nat))

/-- An index block of `inode_expand` with its pointer in the inode, allocated when the sector to add
is its first. -/
def expandRoot (first : Nat) (store : Sector → Nat → Sector) (currSector : Nat)
    (diskInode : Sector) : FsProg (Option Sector) :=
  if currSector = first then do
    match ← allocate with
    | none => return none
    | some sector =>
      writeSector sector u.zeros
      return some (store diskInode sector)
  else return some diskInode

/-- The indirect block. -/
def expandIndirect : Nat → Sector → FsProg (Option Sector) :=
  expandRoot u allocate directCnt InodeDisk.setIndirect

/-- The doubly indirect block. -/
def expandDoubly : Nat → Sector → FsProg (Option Sector) :=
  expandRoot u allocate (directCnt + indirectCnt) InodeDisk.setDoublyIndirect

/-- The indirect block in the doubly indirect one that sector `doubleCnt` needs, allocated when that
sector is its first.  Gives false if that fails. -/
def expandSecond (doubleCnt : Nat) (diskInode : Sector) : FsProg Bool :=
  if doubleCnt % indirectCnt = 0 then do
    match ← allocate with
    | none => return false
    | some newIndirectInDouble =>
      writeSector newIndirectInDouble u.zeros
      writeWord (InodeDisk.doublyIndirect diskInode) (doubleCnt / indirectCnt) newIndirectInDouble
      return true
  else return true

/-- The body of the loop of `inode_expand`, which adds sector `currSector` to the file.  It takes
and gives the copy of the on-disk inode and `alloc_sec`, which keeps its value when an allocation
fails.  The result is `none` where the source returns false. -/
def expandBody (currSector : Nat) (diskInode : Sector) (allocSec : Nat) :
    FsProg (Option (Sector × Nat)) :=
  if currSector < directCnt then do
    let allocSec := (← allocate).getD allocSec
    return some (InodeDisk.setDirect diskInode currSector allocSec, allocSec)
  else if currSector < directCnt + indirectCnt then do
    match ← expandIndirect u allocate currSector diskInode with
    | none => return none
    | some diskInode =>
      let allocSec := (← allocate).getD allocSec
      writeWord (InodeDisk.indirect diskInode) (currSector - directCnt) allocSec
      return some (diskInode, allocSec)
  else if currSector < directCnt + indirectCnt + doublyIndirectCnt then do
    let doubleCnt := currSector - directCnt - indirectCnt
    match ← expandDoubly u allocate currSector diskInode with
    | none => return none
    | some diskInode =>
      if ← expandSecond u allocate doubleCnt diskInode then
        let allocSec := (← allocate).getD allocSec
        let doubleIndirectSec ←
          readWord (InodeDisk.doublyIndirect diskInode) (doubleCnt / indirectCnt)
        writeWord doubleIndirectSec (doubleCnt % indirectCnt) allocSec
        return some (diskInode, allocSec)
      else return none
  else return some (diskInode, allocSec)

/-- The loop of `inode_expand`, with `remain` sectors to add. -/
def expandLoop : (remain currSector : Nat) → (diskInode : Sector) → (allocSec : Nat) →
    FsProg (Option Sector)
  | 0, _, diskInode, _ => return some diskInode
  | remain + 1, currSector, diskInode, allocSec => do
    match ← expandBody u allocate currSector diskInode allocSec with
    | none => return none
    | some (diskInode, allocSec) => expandLoop remain (currSector + 1) diskInode allocSec

/-- `snip_byte` of `inode_expand`: the bytes after the end of the file in its last sector. -/
def snipByte (length : Int) : Int :=
  wrap32 (unsigned32 (bytesToSectors length * 512 - length))

/-- `sectors` of `inode_expand`: the number of sectors to add. -/
def newSectors (length extendLength : Int) : Nat :=
  bytesToSectors (wrap32 (extendLength - snipByte length))

/-- `inode_expand`. -/
def inodeExpand (inode : Inode) (extendLength : Int) : FsProg Bool := do
  let diskInode ← readSector inode.sector
  let length ← inodeLength inode
  match ← expandLoop u allocate (newSectors length extendLength) (bytesToSectors length) diskInode
      u.allocSec with
  | none => return false
  | some diskInode =>
    writeSector inode.sector (InodeDisk.setLength diskInode
      (wrap32 (InodeDisk.length diskInode + extendLength)))
    return true

end Expand

/-- `inode_write_at`. -/
def inodeWriteAt (u : Uninit) : Nat → Inode → (Nat → UInt8) → Int → Int → FsProg Int
  | 0, _, _, _, _ => .fail
  | depth + 1, inode, buffer, size, offset =>
    if inode.denyWriteCnt ≠ 0 then return 0
    else do
      let existLength ← inodeLength inode
      if existLength < wrap32 (offset + size) then
        let _ ← inodeExpand u (freeMapAllocate (inodeWriteAt u depth) 1) inode
          (wrap32 (offset + size - existLength))
      inodeWriteLoop u inode buffer size.toNat size offset 0

/-- `free_map_allocate`, with the `inode_write_at` it calls cut at `depth`. -/
def freeMapAllocateAt (u : Uninit) (depth : Nat) : FsProg (Option Nat) :=
  freeMapAllocate (inodeWriteAt u depth) 1

/-- `inode_create`, called by a thread whose current directory has its inode in sector `cwd`. -/
def inodeCreate (u : Uninit) (depth cwd sector : Nat) (length : Int) (isDir : Bool) :
    FsProg Bool :=
  if length < 0 then .fail
  else do
    writeSector sector (InodeDisk.create isDir cwd)
    inodeExpand u (freeMapAllocateAt u depth) ⟨sector, 0⟩ length

/-! ## Formatting -/

/-- `FREE_MAP_SECTOR`. -/
def freeMapSector : Nat := 0

/-- `ROOT_DIR_SECTOR`. -/
def rootDirSector : Nat := 1

/-- `free_map_init`, on a disk of `capacity` sectors. -/
def freeMapInit (capacity : Nat) : FreeMap :=
  ⟨((Bitmap.create capacity).mark freeMapSector).mark rootDirSector, none⟩

/-- `free_map_create`. -/
def freeMapCreate (u : Uninit) (depth : Nat) : FsProg Unit := do
  let m ← getMem
  if ← inodeCreate u depth rootDirSector freeMapSector m.freeMap.fileSize false then
    let m ← getMem
    setMem { m with freeMapFile := some ⟨freeMapSector, 0⟩ }
    if ← bitmapWrite (inodeWriteAt u depth) m.freeMap ⟨freeMapSector, 0⟩ then return ()
    else .fail
  else .fail

/-- `sizeof (struct dir_entry)`. -/
def dirEntrySize : Nat := 20

/-- `dir_create`. -/
def dirCreate (u : Uninit) (depth cwd sector entryCnt : Nat) : FsProg Bool :=
  inodeCreate u depth cwd sector (entryCnt * dirEntrySize) true

/-- `do_format`, run by a thread whose current directory is the root. -/
def doFormat (u : Uninit) (depth : Nat) : FsProg Unit := do
  freeMapCreate u depth
  if ← dirCreate u depth rootDirSector rootDirSector 16 then return ()
  else .fail

/-- `free_map_open`: the free map is what its file holds. -/
def freeMapOpen (u : Uninit) : FsProg Unit := do
  let m ← getMem
  let size := m.freeMap.fileSize
  let bs ← inodeReadAt u ⟨freeMapSector, 0⟩ size 0
  if bs.length = size then
    setMem ⟨Bitmap.ofBytes m.freeMap.bitCnt fun i => bs.getD i 0, some ⟨freeMapSector, 0⟩⟩
  else .fail

/-- `filesys_init (true)`, after `free_map_init`. -/
def filesysInit (u : Uninit) (depth : Nat) : FsProg Unit := do
  doFormat u depth
  freeMapOpen u

/-! ## Routine by routine -/

namespace Prog

variable {P : ∀ α : Type, FsProg α → FsProg α → Prop} (u : Uninit)

section Reads

variable (hP : Lifts P) (inode : Inode)
include hP

theorem Lifts.inodeLength : P _ (Pintos.inodeLength inode) (Pintos.inodeLength inode) :=
  hP.bind (hP.readWord _ _) fun _ => hP.pure _

theorem Lifts.byteToSector (pos : Int) :
    P _ (Pintos.byteToSector u inode pos) (Pintos.byteToSector u inode pos) := by
  refine hP.bind (hP.inodeLength inode) fun length => ?_
  split
  · exact hP.pure _
  · split
    · exact hP.fail
    · refine hP.bind (hP.readSector _) fun diskInode => ?_
      rw [lookupBlock]
      split
      · exact hP.pure _
      · split
        · exact hP.readWord _ _
        · split
          · exact hP.bind (hP.readWord _ _) fun _ => hP.readWord _ _
          · exact hP.pure _

theorem Lifts.inodeReadLoop (fuel : Nat) (size offset : Int) :
    P _ (Pintos.inodeReadLoop u inode fuel size offset)
      (Pintos.inodeReadLoop u inode fuel size offset) := by
  induction fuel generalizing size offset with
  | zero => exact hP.pure _
  | succ fuel ih =>
    rw [Pintos.inodeReadLoop]
    split
    · exact hP.pure _
    · refine hP.bind (hP.byteToSector u inode _) fun sectorIdx => ?_
      refine hP.bind (hP.inodeLength inode) fun length => ?_
      dsimp only
      split
      · exact hP.pure _
      · split
        · exact hP.fail
        · refine hP.bind (hP.read _ _ _ _ (by omega)) fun bs => ?_
          refine hP.bind (hP.byteToSector u inode _) fun aheadSector => ?_
          have hrest := hP.bind (ih (size - chunkSize length size offset)
            (offset + chunkSize length size offset)) fun rest => hP.pure (bs ++ rest)
          split
          · exact hP.bind (hP.find _) fun _ => hrest
          · exact hrest

end Reads

theorem reads_inodeReadAt (inode : Inode) (size offset : Int) :
    (inodeReadAt u inode size offset).Reads := lifts_reads.inodeReadLoop u inode _ size offset

section Writes

variable (hP : LiftsWrites P)
include hP

theorem LiftsWrites.inodeWriteLoop (inode : Inode) (buffer : Nat → UInt8) (fuel : Nat)
    (size offset : Int) (bytesWritten : Nat) :
    P _ (Pintos.inodeWriteLoop u inode buffer fuel size offset bytesWritten)
      (Pintos.inodeWriteLoop u inode buffer fuel size offset bytesWritten) := by
  induction fuel generalizing size offset bytesWritten with
  | zero => exact hP.pure _
  | succ fuel ih =>
    rw [Pintos.inodeWriteLoop]
    split
    · exact hP.pure _
    · refine hP.bind (hP.byteToSector u inode _) fun sectorIdx => ?_
      refine hP.bind (hP.inodeLength inode) fun length => ?_
      dsimp only
      split
      · exact hP.pure _
      · split
        · exact hP.fail
        · refine hP.bind (hP.write _ _ _ _ ?_) fun _ => ih _ _ _
          rw [List.length_map, List.length_range]
          omega

-- two versions of `free_map_allocate`, for the two programs
variable {a b : FsProg (Option Nat)} (hA : P _ a b)
include hA

theorem LiftsWrites.expandRoot (first : Nat) (store : Sector → Nat → Sector) (currSector : Nat)
    (diskInode : Sector) : P _ (Pintos.expandRoot u a first store currSector diskInode)
      (Pintos.expandRoot u b first store currSector diskInode) := by
  rw [Pintos.expandRoot, Pintos.expandRoot]
  split
  · refine hP.bind hA fun r => ?_
    cases r with
    | none => exact hP.pure _
    | some sector => exact hP.bind (hP.writeSector _ _) fun _ => hP.pure _
  · exact hP.pure _

theorem LiftsWrites.expandSecond (doubleCnt : Nat) (diskInode : Sector) :
    P _ (Pintos.expandSecond u a doubleCnt diskInode)
      (Pintos.expandSecond u b doubleCnt diskInode) := by
  rw [Pintos.expandSecond, Pintos.expandSecond]
  split
  · refine hP.bind hA fun r => ?_
    cases r with
    | none => exact hP.pure _
    | some sector =>
      refine hP.bind (hP.writeSector _ _) fun _ => ?_
      exact hP.bind (hP.writeWord _ _ _) fun _ => hP.pure _
  · exact hP.pure _

theorem LiftsWrites.expandBody (currSector : Nat) (diskInode : Sector) (allocSec : Nat) :
    P _ (Pintos.expandBody u a currSector diskInode allocSec)
      (Pintos.expandBody u b currSector diskInode allocSec) := by
  rw [Pintos.expandBody, Pintos.expandBody]
  split
  · exact hP.bind hA fun _ => hP.pure _
  · split
    · refine hP.bind (hP.expandRoot u hA _ _ _ _) fun r => ?_
      cases r with
      | none => exact hP.pure _
      | some diskInode =>
        refine hP.bind hA fun s => ?_
        exact hP.bind (hP.writeWord _ _ _) fun _ => hP.pure _
    · split
      · refine hP.bind (hP.expandRoot u hA _ _ _ _) fun r => ?_
        cases r with
        | none => exact hP.pure _
        | some diskInode =>
          refine hP.bind (hP.expandSecond u hA _ _) fun r => ?_
          split
          · refine hP.bind hA fun s => ?_
            refine hP.bind (hP.readWord _ _) fun _ => ?_
            exact hP.bind (hP.writeWord _ _ _) fun _ => hP.pure _
          · exact hP.pure _
      · exact hP.pure _

theorem LiftsWrites.expandLoop (remain currSector : Nat) (diskInode : Sector) (allocSec : Nat) :
    P _ (Pintos.expandLoop u a remain currSector diskInode allocSec)
      (Pintos.expandLoop u b remain currSector diskInode allocSec) := by
  induction remain generalizing currSector diskInode allocSec with
  | zero => exact hP.pure _
  | succ remain ih =>
    refine hP.bind (hP.expandBody u hA currSector diskInode allocSec) fun r => ?_
    cases r with
    | none => exact hP.pure _
    | some r => exact ih _ _ _

theorem LiftsWrites.inodeExpand (inode : Inode) (extendLength : Int) :
    P _ (Pintos.inodeExpand u a inode extendLength)
      (Pintos.inodeExpand u b inode extendLength) := by
  refine hP.bind (hP.readSector _) fun diskInode => ?_
  refine hP.bind (hP.inodeLength inode) fun length => ?_
  refine hP.bind (hP.expandLoop u hA _ _ _ _) fun r => ?_
  cases r with
  | none => exact hP.pure _
  | some diskInode => exact hP.bind (hP.writeSector _ _) fun _ => hP.pure _

end Writes

end Prog

end Pintos
