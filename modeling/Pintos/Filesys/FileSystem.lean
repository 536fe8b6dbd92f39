import Pintos.Filesys.Files

/-!
# Runs of the file system

The file system as a machine: from a freshly formatted disk, files are created (a sector is
allocated and `inode_create` makes an inode of it) and written (`inode_write_at`), in any order and
with any arguments.

* `allocation_sound`: along every run whose calls `Fit`, each byte of each file has a sector on the
  disk that is marked used, and no sector serves two purposes.  A call fits if the growth it asks
  for stays inside the three levels of the index and no allocation of a *data* sector fails
  (`GrowFits`).
* `allocation_unsound_when_full`: without that, a file can be given a sector that is not on the disk
  at all, since `inode_expand` does not look at the result of `free_map_allocate`.
* `file_is_byteArray`: along such runs files are byte arrays.  A write with room for it returns its
  size, reads back as written, and changes nothing else.
-/

namespace Pintos

open Bytes Prog
open Function (update update_idem update_self)
open InodeDisk (setDirect setLength)
open Bytes.Block (fill)

/-! ## The machine -/

/-- The state of the file system, with the sectors that hold inodes. -/
structure FsState where
  world : FsWorld
  /-- The inodes that were created, the latest first. -/
  inodes : List Nat

/-- A call into the file system. -/
inductive FsCall where
  /-- Allocate a sector and `inode_create` an inode in it. -/
  | create (u : Uninit) (cwd : Nat) (length : Int) (isDir : Bool)
  /-- `inode_write_at`. -/
  | writeAt (u : Uninit) (inode : Inode) (buffer : Nat → UInt8) (size offset : Int)

/-- What a call returns. -/
inductive FsResult where
  /-- The sector allocated, if there was one, and the result of `inode_create`. -/
  | created (sector : Option Nat) (success : Bool)
  /-- The number of bytes written. -/
  | wrote (bytes : Int)
deriving DecidableEq

/-- `free_map_allocate` and `inode_create`, as in `filesys_create`. -/
def createInode (u : Uninit) (depth cwd : Nat) (length : Int) (isDir : Bool) :
    FsProg (Option Nat × Bool) := do
  match ← freeMapAllocateAt u depth with
  | none => return (none, false)
  | some sector =>
    let success ← inodeCreate u depth cwd sector length isDir
    return (some sector, success)

/-- The values of type `off_t`. -/
def IsOffT (z : Int) : Prop := -2 ^ 31 ≤ z ∧ z < 2 ^ 31

instance (z : Int) : Decidable (IsOffT z) :=
  inferInstanceAs (Decidable (-2 ^ 31 ≤ z ∧ z < 2 ^ 31))

/-- The file system on a disk of `n` sectors.  It takes only arguments of the right type and inodes
that exist. -/
def fsMachine (n depth : Nat) : Machine FsState FsCall FsResult where
  step st
    | .create u cwd length isDir =>
      if IsOffT length then
        ((createInode u (depth + 1) cwd length isDir).exec n st.world).map fun r =>
          (.created r.1.1 r.1.2, ⟨r.2, r.1.1.toList ++ st.inodes⟩)
      else none
    | .writeAt u inode buffer size offset =>
      if inode.sector ∈ st.inodes ∧ IsOffT size ∧ IsOffT offset then
        ((inodeWriteAt u (depth + 2) inode buffer size offset).exec n st.world).map fun r =>
          (.wrote r.1, ⟨r.2, st.inodes⟩)
      else none

/-- A disk that `do_format` has the sectors for, and whose free map a file can hold. -/
def Formattable (n : Nat) : Prop := 4 ≤ n ∧ n ≤ 4096 * maxBlocks

instance (n : Nat) : Decidable (Formattable n) :=
  inferInstanceAs (Decidable (4 ≤ n ∧ n ≤ 4096 * maxBlocks))

/-- The states that `filesys_init` leaves when it formats a disk, whatever was on it. -/
def Formatted (n depth : Nat) (st : FsState) : Prop :=
  ∃ u d, (filesysInit u (depth + 1)).exec n ⟨freeMapInit n, d⟩ = some ((), st.world) ∧
    st.inodes = [rootDirSector, freeMapSector]

/-- The growth that a call asks for fits. -/
def FsCall.Fits (st : FsState) : FsCall → Prop
  | .create _ _ length _ =>
    0 < st.world.mem.freeMap.freeCnt →
      GrowFits (newSectors 0 length) 0 (st.world.mem.freeMap.freeCnt - 1)
  | .writeAt _ inode _ size offset =>
    inode.denyWriteCnt = 0 →
      InodeDisk.length (st.world.disk inode.sector) < wrap32 (offset + size) →
      GrowFits (newSectors (InodeDisk.length (st.world.disk inode.sector))
          (FsInv.writeExt (InodeDisk.length (st.world.disk inode.sector)) size offset))
        (blocks (st.world.disk inode.sector)) st.world.mem.freeMap.freeCnt

/-! ## The invariant along runs -/

variable {n depth : Nat} {st st' : FsState}

theorem fsOk_of_formatted (hn : Formattable n) (h : Formatted n depth st) :
    FsOk n st.inodes st.world := by
  obtain ⟨u, d, hinit, hinodes⟩ := h
  obtain ⟨w, hw, hok, -⟩ := exec_filesysInit u depth hn.1 hn.2 d
  rw [hinit, Option.some_inj, Prod.mk.injEq] at hw
  rw [hinodes, hw.2]
  exact hok

variable {inodes : List Nat} {w : FsWorld}

theorem exec_createInode (h : FsOk n inodes w) (u : Uninit) (depth cwd : Nat) (length : Int)
    (h0 : 0 ≤ length) (h1 : length < 2 ^ 31) (isDir : Bool)
    (hfits : 0 < w.mem.freeMap.freeCnt →
      GrowFits (newSectors 0 length) 0 (w.mem.freeMap.freeCnt - 1)) :
    ∃ r w', (createInode u (depth + 1) cwd length isDir).exec n w = some (r, w') ∧
      FsOk n (r.1.toList ++ inodes) w' := by
  rcases Nat.eq_zero_or_pos w.mem.freeMap.freeCnt with hfull | hpos
  · exact ⟨(none, false), w, (exec_bind_of_eq
      (h.exec_freeMapAllocate_of_full u depth hfull)).trans (exec_pure _), h⟩
  · obtain ⟨s, w1, halloc, hcreate⟩ := h.exec_allocateCreate u depth hpos
    obtain ⟨r, w', hcreate, hok, -⟩ := hcreate cwd length isDir h0 h1 (hfits hpos)
    exact ⟨(some s, r), w', (exec_bind_of_eq halloc).trans ((exec_bind_of_eq hcreate).trans
      (exec_pure _)), hok⟩

theorem fsOk_step {call : FsCall} {r : FsResult} (h : FsOk n st.inodes st.world)
    (hfits : call.Fits st) (hstep : (fsMachine n depth).step st call = some (r, st')) :
    FsOk n st'.inodes st'.world := by
  cases call with
  | create u cwd length isDir =>
    simp only [fsMachine] at hstep
    split at hstep
    · rename_i hoff
      rw [Option.map_eq_some_iff] at hstep
      obtain ⟨⟨r', w'⟩, hexec, heq⟩ := hstep
      cases heq
      by_cases h0 : 0 ≤ length
      · obtain ⟨r, w, hexec', hok⟩ := exec_createInode h u depth cwd length h0 hoff.2 isDir hfits
        rw [hexec'] at hexec
        cases hexec
        exact hok
      · -- the assertion of `inode_create` fails, unless there was no sector for the inode
        rcases h.exec_freeMapAllocate u depth with ⟨hnone, -⟩ | ⟨s, d', halloc, -⟩
        · rw [createInode, exec_bind_of_eq hnone] at hexec
          cases hexec
          exact h
        · rw [createInode, exec_bind_of_eq halloc] at hexec
          rw [exec_bind, inodeCreate, if_pos (by omega)] at hexec
          cases hexec
    · cases hstep
  | writeAt u inode buffer size offset =>
    simp only [fsMachine] at hstep
    split at hstep
    · rename_i hok
      rw [Option.map_eq_some_iff] at hstep
      obtain ⟨⟨r', w'⟩, hexec, heq⟩ := hstep
      cases heq
      exact h.inodeWriteAt_ok hok.1 u depth buffer hok.2.2 hfits hexec
    · cases hstep

theorem fsOk_of_reach (hn : Formattable n)
    (h : (fsMachine n depth).Reach (Formatted n depth) (fun st call => call.Fits st) st) :
    FsOk n st.inodes st.world :=
  h.invariant (fun _ hst => fsOk_of_formatted hn hst)
    fun _ _ _ _ hok hfits hstep => fsOk_step hok hfits hstep

/-! ## Allocation -/

/-- The allocation of sectors is sound. -/
structure AllocationSound (n : Nat) (st : FsState) : Prop where
  /-- `byte_to_sector` gives every byte of every file a sector on the disk that is marked used. -/
  lookup : ∀ i ∈ st.inodes, ∀ (u : Uninit) (denyWriteCnt pos : Nat),
    (pos : Int) < InodeDisk.length (st.world.disk i) →
      ∃ s, (byteToSector u ⟨i, denyWriteCnt⟩ pos).exec n st.world = some (s, st.world) ∧ s < n ∧
        st.world.mem.freeMap.bits s = true
  noShare : ∀ i ∈ st.inodes, ∀ j ∈ st.inodes, ∀ v v' : Use,
    v.Live (blocks (st.world.disk i)) → v'.Live (blocks (st.world.disk j)) →
      v.ptr st.world.disk i (st.world.disk i) = v'.ptr st.world.disk j (st.world.disk j) →
        i = j ∧ v = v'

theorem allocationSound_of_fsOk (h : FsOk n st.inodes st.world) : AllocationSound n st where
  lookup i hi u denyWriteCnt pos hpos := by
    have hlive : (Use.data (pos / 512)).Live (blocks (st.world.disk i)) := by
      refine div_lt_blocks ?_
      omega
    exact ⟨_, h.exec_byteToSector hi u hpos, h.ptr_lt hi hlive, h.layout.used i _ ⟨hi, hlive⟩⟩
  noShare i hi j hj v v' hv hv' heq := h.layout.inj i j v v' ⟨hi, hv⟩ ⟨hj, hv'⟩ heq

/-- **Disk allocation.**  In every state reached from a formatted disk by calls that fit, every byte
of every file has a sector on the disk that is marked used, and no sector serves two purposes. -/
theorem allocation_sound (hn : Formattable n)
    (h : (fsMachine n depth).Reach (Formatted n depth) (fun st call => call.Fits st) st) :
    AllocationSound n st :=
  allocationSound_of_fsOk (fsOk_of_reach hn h)

/-- A file of three bytes can be created on a fresh disk of eight sectors. -/
theorem exists_created_file :
    ∃ st r st', Formatted 8 0 st ∧
      FsCall.Fits st (.create ⟨0, fill 512 0, 0⟩ rootDirSector 3 false) ∧
      (fsMachine 8 0).step st (.create ⟨0, fill 512 0, 0⟩ rootDirSector 3 false)
        = some (r, st') := by
  obtain ⟨w, hinit, hok, hfree⟩ := exists_formatted
  have hst : Formatted 8 0 ⟨w, [rootDirSector, freeMapSector]⟩ := ⟨_, _, hinit, rfl⟩
  have hfits : FsCall.Fits ⟨w, [rootDirSector, freeMapSector]⟩
      (.create ⟨0, fill 512 0, 0⟩ rootDirSector 3 false) := by
    intro _
    rw [show newSectors 0 3 = 1 from newSectors_zero 3 (by decide),
      show w.mem.freeMap.freeCnt - 1 = 3 by omega]
    decide
  obtain ⟨r, w', hexec, -⟩ := exec_createInode hok ⟨0, fill 512 0, 0⟩ 0 rootDirSector
    3 (by decide) (by decide) false hfits
  refine ⟨_, .created r.1 r.2, ⟨w', r.1.toList ++ [rootDirSector, freeMapSector]⟩, hst, hfits, ?_⟩
  simp only [fsMachine]
  rw [if_pos (by decide), hexec, Option.map_some]

theorem allocation_sound_created :
    ∃ st r st', Formatted 8 0 st ∧
      (fsMachine 8 0).step st (.create ⟨0, fill 512 0, 0⟩ rootDirSector 3 false)
        = some (r, st') ∧ AllocationSound 8 st' := by
  obtain ⟨st, r, st', hst, hfits, hstep⟩ := exists_created_file
  exact ⟨st, r, st', hst, hstep, allocation_sound (by decide) (.step (.init hst) hfits hstep)⟩

/-- `inode_expand` of an empty file by one byte on a full disk: the allocation fails, and the
uninitialised `alloc_sec` becomes the sector of the byte. -/
theorem exec_inodeExpand_of_full (h : FsOk n inodes w) (inode : Inode) (hi : inode.sector ∈ inodes)
    (u : Uninit) (depth : Nat) (hlen : InodeDisk.length (w.disk inode.sector) = 0)
    (hfull : w.mem.freeMap.freeCnt = 0) :
    (inodeExpand u (freeMapAllocateAt u (depth + 1)) inode 1).exec n w
      = some (true, ⟨w.mem, update w.disk inode.sector (setLength
          (setDirect (w.disk inode.sector) 0 u.allocSec) 1)⟩) := by
  have hbody : (expandBody u (freeMapAllocateAt u (depth + 1)) 0 (w.disk inode.sector)
      u.allocSec).exec n w = some (some (setDirect (w.disk inode.sector) 0 u.allocSec,
        u.allocSec), w) :=
    exec_bind_of_eq (h.exec_freeMapAllocate_of_full u depth hfull)
  have hloop : (expandLoop u (freeMapAllocateAt u (depth + 1)) 1 0 (w.disk inode.sector)
      u.allocSec).exec n w = some (some (setDirect (w.disk inode.sector) 0 u.allocSec), w) :=
    (exec_bind_of_eq hbody).trans (exec_pure _)
  have hmeta : InodeDisk.length (setDirect (w.disk inode.sector) 0 u.allocSec) = 0 :=
    (sameMeta_write (w.disk inode.sector) (by decide) u.allocSec).length.trans hlen
  have hnew : newSectors 0 1 = 1 := newSectors_zero 1 (by decide)
  rw [inodeExpand, exec_bind_of_eq (exec_readSector (h.sector_lt hi)),
    exec_bind_of_eq (h.exec_inodeLength hi), hlen, hnew, show bytesToSectors 0 = 0 from rfl,
    exec_bind_of_eq hloop]
  dsimp only
  rw [hmeta, exec_bind_of_eq (exec_writeSector (h.sector_lt hi) _), exec_pure,
    show wrap32 (0 + 1) = 1 from rfl]

/-- **A full disk breaks the allocation.**  On a fresh disk of five sectors, a file of one byte gets
the last sector for its inode and, with an uninitialised `alloc_sec` of 7, a data sector that is not
on the disk. -/
theorem allocation_unsound_when_full :
    ∃ st r st', Formatted 5 0 st ∧
      (fsMachine 5 0).step st (.create ⟨7, fill 512 0, 0⟩ rootDirSector 1 false)
        = some (r, st') ∧ ¬ AllocationSound 5 st' := by
  obtain ⟨⟨m, d⟩, hinit, hok, -, hfree⟩ := exec_filesysInit ⟨7, fill 512 0, 0⟩ 0 (n := 5)
    (by decide) (by decide) fun _ => fill 512 0
  rw [show sectorNeed (mapBlocks 5) 0 = 1 from rfl] at hfree
  dsimp only at hfree
  -- the last sector goes to the inode
  obtain ⟨s, d', halloc, ha⟩ := hok.exec_freeMapAllocate_of_pos ⟨7, fill 512 0, 0⟩ 0 (by omega)
  have hmark := Bitmap.freeCnt_mark (hok.bitCnt.symm ▸ ha.lt) ha.free
  obtain ⟨hok', -⟩ := (ha.inv.mark s).restrict.addInode (b := InodeDisk.create false rootDirSector)
    ha.lt (by simp [Bitmap.mark]) (fun j v hv => ha.inv.onDisk.ne_of_free ha.free hv)
    (FsInv.length_create _ _)
  have hexpand := exec_inodeExpand_of_full hok' ⟨s, 0⟩ (.head _)
    ⟨7, fill 512 0, 0⟩ 0 (by dsimp only; rw [update_self, FsInv.length_create])
    (by dsimp only; omega)
  dsimp only at hexpand
  rw [update_self, update_idem] at hexpand
  generalize hhdr : setLength (setDirect
    (InodeDisk.create false rootDirSector) 0 7) 1 = hdr at hexpand
  have hcreate : (createInode ⟨7, fill 512 0, 0⟩ 1 rootDirSector 1 false).exec 5 ⟨m, d⟩
      = some ((some s, true), ⟨{ m with freeMap := m.freeMap.mark s }, update d' s hdr⟩) := by
    refine (exec_bind_of_eq halloc).trans ((exec_bind_of_eq ?_).trans (exec_pure _))
    exact (exec_bind_of_eq (exec_writeSector ha.lt _)).trans hexpand
  refine ⟨⟨⟨m, d⟩, [rootDirSector, freeMapSector]⟩, .created (some s) true,
    ⟨⟨{ m with freeMap := m.freeMap.mark s }, update d' s hdr⟩,
      [s, rootDirSector, freeMapSector]⟩, ⟨_, _, hinit, rfl⟩, ?_, fun hsound => ?_⟩
  · simp only [fsMachine]
    rw [if_pos (by decide), hcreate]
    rfl
  · have hlen : InodeDisk.length (update d' s hdr s) = 1 := by
      rw [update_self, ← hhdr, length_setLength _ (by decide) (by decide)]
    have hdirect : InodeDisk.direct (update d' s hdr s) 0 = 7 := by
      rw [update_self, ← hhdr, InodeDisk.direct, setLength,
        Block.word_write_ne _ (by decide) (by decide), setDirect,
        Block.word_write_self _ (by decide) (by decide)]
    obtain ⟨x, hx, hlt, -⟩ := hsound.lookup s (.head _) ⟨7, fill 512 0, 0⟩ 0 0
      (by dsimp only; rw [hlen]; decide)
    have hlength : (inodeLength ⟨s, 0⟩).exec 5
        ⟨{ m with freeMap := m.freeMap.mark s }, update d' s hdr⟩
          = some (1, ⟨{ m with freeMap := m.freeMap.mark s }, update d' s hdr⟩) := by
      rw [inodeLength, exec_bind_of_eq (exec_readWord ha.lt (by decide)), exec_pure]
      rw [show wrap32 _ = _ from hlen]
    rw [byteToSector, exec_bind_of_eq hlength, if_neg (by decide), if_neg (by decide),
      exec_bind_of_eq (exec_readSector ha.lt)] at hx
    change (pure (InodeDisk.direct (update d' s hdr s) 0) : FsProg Nat).exec 5 _ = _ at hx
    rw [hdirect, exec_pure, Option.some_inj, Prod.mk.injEq] at hx
    omega

/-! ## Contents -/

/-- The file in sector `i` reads as `bs`: `inode_length` gives its length, and `inode_read_at` any
part of it, whatever thread calls it. -/
def ReadsAs (n : Nat) (st : FsState) (i : Nat) (bs : List UInt8) : Prop :=
  (∀ denyWriteCnt, (inodeLength ⟨i, denyWriteCnt⟩).exec n st.world
      = some ((bs.length : Int), st.world)) ∧
    ∀ (u : Uninit) (denyWriteCnt offset size : Nat), offset + size ≤ bs.length →
      (inodeReadAt u ⟨i, denyWriteCnt⟩ size offset).exec n st.world
        = some ((bs.drop offset).take size, st.world)

/-- The bytes of a file. -/
def fileBytes (d : Disk) (i : Nat) : List UInt8 :=
  (List.range (InodeDisk.length (d i)).toNat).map (fileByte d i)

theorem length_fileBytes (d : Disk) (i : Nat) :
    (fileBytes d i).length = (InodeDisk.length (d i)).toNat := by
  simp [fileBytes]

theorem getD_fileBytes {d : Disk} {i pos : Nat} (h : pos < (InodeDisk.length (d i)).toNat) :
    (fileBytes d i).getD pos 0 = fileByte d i pos := by
  simp [fileBytes, h]

theorem readsAs_fileBytes (st : FsState) (h : FsOk n st.inodes st.world) {i : Nat}
    (hi : i ∈ st.inodes) : ReadsAs n st i (fileBytes st.world.disk i) := by
  have hlen := (h.length i hi).1
  refine ⟨fun c => ?_, fun u c offset size hle => ?_⟩
  · rw [h.exec_inodeLength hi, length_fileBytes, Int.toNat_of_nonneg hlen]
  · rw [length_fileBytes] at hle
    rw [h.exec_inodeReadAt ⟨i, c⟩ hi u size
      (Int.le_trans (Int.ofNat_le.mpr (Nat.le_trans (Nat.le_add_right _ _) hle))
        (Int.le_of_eq (Int.toNat_of_nonneg hlen)))]
    refine congrArg (fun l => some (l, st.world)) (List.ext_getElem ?_ fun j h1 h2 => ?_)
    · simp only [List.length_map, List.length_range, Int.toNat_natCast, List.length_take,
        List.length_drop, length_fileBytes]
    · simp only [fileBytes, List.getElem_map, List.getElem_range, List.getElem_take,
        List.getElem_drop]

/-- **Files are byte arrays.**  In every state reached from a formatted disk by calls that fit, take
a write of `size` bytes at `offset` into any file but the free map, ending within the reach of the
index, and with enough free sectors for the blocks it adds.  It returns `size`.  The file then has
the greater of its old length and `offset + size`, and reads, at any offset and size inside it, as
the buffer where it was written and as before elsewhere.  Every other file but the free map reads as
before. -/
theorem file_is_byteArray (hn : Formattable n)
    (h : (fsMachine n depth).Reach (Formatted n depth) (fun st call => call.Fits st) st)
    (inode : Inode) (hi : inode.sector ∈ st.inodes) (hi0 : inode.sector ≠ freeMapSector)
    (hdeny : inode.denyWriteCnt = 0) (u : Uninit) (buffer : Nat → UInt8) (size offset : Nat)
    (hmax : offset + size ≤ (directCnt + indirectCnt + doublyIndirectCnt) * 512)
    (hroom : sectorNeed ((offset + size + 511) / 512 - blocks (st.world.disk inode.sector))
      (blocks (st.world.disk inode.sector)) ≤ st.world.mem.freeMap.freeCnt) :
    ∃ st' old new, (fsMachine n depth).step st (.writeAt u inode buffer size offset)
        = some (.wrote size, st') ∧ st'.inodes = st.inodes ∧
      ReadsAs n st inode.sector old ∧ ReadsAs n st' inode.sector new ∧
      new.length = max old.length (offset + size) ∧
      (∀ pos, offset ≤ pos → pos < offset + size → new.getD pos 0 = buffer (pos - offset)) ∧
      (∀ pos < old.length, ¬ (offset ≤ pos ∧ pos < offset + size) →
        new.getD pos 0 = old.getD pos 0) ∧
      ∀ j ∈ st.inodes, j ≠ inode.sector → j ≠ freeMapSector →
        ∃ bs, ReadsAs n st j bs ∧ ReadsAs n st' j bs := by
  have hok := fsOk_of_reach hn h
  have hbound : offset + size ≤ 8486912 := hmax
  obtain ⟨w', hexec, hok', hw⟩ := hok.exec_inodeWriteAt hi hi0 hdeny u depth buffer hbound hroom
  have hstep : (fsMachine n depth).step st (.writeAt u inode buffer size offset)
      = some (.wrote size, ⟨w', st.inodes⟩) := by
    have hargs : inode.sector ∈ st.inodes ∧ IsOffT size ∧ IsOffT offset :=
      ⟨hi, ⟨by omega, by omega⟩, by omega, by omega⟩
    simp only [fsMachine]
    rw [if_pos hargs, hexec, Option.map_some]
  have hlength := hw.length
  refine ⟨⟨w', st.inodes⟩, fileBytes st.world.disk inode.sector, fileBytes w'.disk inode.sector,
    hstep, rfl, readsAs_fileBytes st hok hi, readsAs_fileBytes ⟨w', st.inodes⟩ hok' hi, ?_,
    fun pos h1 h2 => ?_, fun pos hpos hout => ?_, fun j hj hji hj0 => ?_⟩
  · rw [length_fileBytes, length_fileBytes, hlength]
  · rw [getD_fileBytes (hlength ▸ h2.trans_le (Nat.le_max_right _ _)), hw.inside pos h1 h2]
  · rw [length_fileBytes] at hpos
    rw [getD_fileBytes (hlength ▸ hpos.trans_le (Nat.le_max_left _ _)),
      getD_fileBytes hpos, hw.outside pos hpos hout]
  · refine ⟨fileBytes st.world.disk j, readsAs_fileBytes st hok hj, ?_⟩
    have hsame : fileBytes st.world.disk j = fileBytes w'.disk j := by
      rw [fileBytes, fileBytes, hw.header j hj hji, List.map_inj_left]
      intro pos hpos
      exact (hw.bytes j hj hji hj0 pos (List.mem_range.mp hpos)).symm
    rw [hsame]
    exact readsAs_fileBytes ⟨w', st.inodes⟩ hok' hj

/-- On a fresh disk of eight sectors, a file is created and grows by a write of 600 bytes at offset
10, for which it gets two sectors. -/
theorem file_is_byteArray_grown :
    ∃ s st st' old new,
      (fsMachine 8 0).Reach (Formatted 8 0) (fun st call => call.Fits st) st ∧
      (fsMachine 8 0).step st (.writeAt ⟨0, fill 512 0, 0⟩ ⟨s, 0⟩ (fun _ => 5) 600 10)
        = some (.wrote 600, st') ∧
      ReadsAs 8 st s old ∧ ReadsAs 8 st' s new ∧ old.length = 0 ∧ new.length = 610 ∧
      new.getD 100 0 = 5 := by
  obtain ⟨w0, w1, w, s, hinit, halloc, hcreate, hok, hne, hzero, hfree⟩ := exists_emptyInode false
  have hexec : (createInode ⟨0, fill 512 0, 0⟩ 1 rootDirSector 0 false).exec 8 w0
      = some ((some s, true), w) :=
    (exec_bind_of_eq halloc).trans ((exec_bind_of_eq hcreate).trans (exec_pure _))
  have hcreated : (fsMachine 8 0).step ⟨w0, [rootDirSector, freeMapSector]⟩
      (.create ⟨0, fill 512 0, 0⟩ rootDirSector 0 false)
        = some (.created (some s) true, ⟨w, [s, rootDirSector, freeMapSector]⟩) := by
    simp only [fsMachine]
    rw [if_pos (by decide), hexec]
    rfl
  have hfits : FsCall.Fits ⟨w0, [rootDirSector, freeMapSector]⟩
      (.create ⟨0, fill 512 0, 0⟩ rootDirSector 0 false) := by
    intro _
    rw [show newSectors 0 0 = 0 from newSectors_zero 0 (by decide)]
    trivial
  have hreach : (fsMachine 8 0).Reach (Formatted 8 0) (fun st call => call.Fits st)
      ⟨w, [s, rootDirSector, freeMapSector]⟩ := .step (.init ⟨_, _, hinit, rfl⟩) hfits hcreated
  have hblocks : blocks (w.disk s) = 0 := by rw [blocks, hzero]; rfl
  obtain ⟨st', old, new, hstep, -, hold, hnew, hlen, hin, -⟩ := file_is_byteArray (by decide) hreach
    ⟨s, 0⟩ (.head _) hne rfl ⟨0, fill 512 0, 0⟩ (fun _ => 5) 600 10 (by decide)
    (by dsimp only; rw [hblocks, hfree]; decide)
  have hempty : old.length = 0 := by
    have heq := (hold.1 0).symm.trans (hok.exec_inodeLength (.head _))
    rw [hzero] at heq
    simpa using heq
  refine ⟨s, _, st', old, new, hreach, hstep, hold, hnew, hempty, ?_,
    hin 100 (by decide) (by decide)⟩
  rw [hlen, hempty]
  rfl

end Pintos
