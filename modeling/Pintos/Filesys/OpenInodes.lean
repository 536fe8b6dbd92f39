import Pintos.Filesys.MapStore

/-!
# Open inodes

The inodes in memory, which `filesys/inode.c` keeps in the list `open_inodes` and counts references
to.

* A structure in memory is named by its address.  An address is used once; one that is not in use,
  any more or yet, is not followed: a routine that would do so fails, as it does where an assertion
  of the source does.
* `calloc` may find no memory.  Which of its calls do is an input.
* What a routine does to the disk is a program of the layer below, which `OpenFs.run` runs.  That
  layer knows an inode by its sector and its `deny_write_cnt`.
-/

namespace Pintos

open Bytes Prog

/-! ## States -/

/-- `struct inode`. -/
structure InodeMem where
  /-- The sector of the on-disk inode. -/
  sector : Nat
  openCnt : Nat
  denyWriteCnt : Nat
  removed : Bool
deriving DecidableEq, Repr

/-- `struct file` or `struct dir`; `deny_write` is a field of the former only. -/
structure Handle where
  inode : Nat
  denyWrite : Bool
deriving DecidableEq, Repr

/-- The file system with its structures in memory. -/
structure OpenFs where
  world : FsWorld
  inode : Nat → InodeMem
  openInodes : List Nat
  /-- The files and directories in memory. -/
  handle : Nat → Option Handle
  next : Nat
  /-- Whether there is memory for a structure at an address. -/
  memory : Nat → Bool

/-- What a call finds around it. -/
structure FsEnv where
  /-- How far `inode_write_at` and `free_map_allocate` may call each other. -/
  depth : Nat
  /-- What is uninitialised in `inode.c`. -/
  u : Uninit
  /-- The uninitialised entry of `dir_add`. -/
  entry : List UInt8
  /-- The address of the copy of the on-disk inode in `inode_close`. -/
  copyAt : Nat

/-- A routine with the structures in memory. -/
abbrev OpenM := StateT OpenFs Option

namespace OpenFs

/-! ## Memory and disk -/

/-- The `deny_write_cnt` of the inode that is open for a sector. -/
def deny (st : OpenFs) (sector : Nat) : Nat :=
  ((st.openInodes.find? fun a => (st.inode a).sector = sector).map fun a =>
    (st.inode a).denyWriteCnt).getD 0

/-- The disk and the free map, whose file has its inode among those in memory. -/
def synced (st : OpenFs) : FsWorld :=
  ⟨{ st.world.mem with freeMapFile := st.world.mem.freeMapFile.map fun file =>
      ⟨file.sector, st.deny file.sector⟩ }, st.world.disk⟩

/-- Run a program on a disk of `n` sectors. -/
def run {α : Type} (n : Nat) (p : FsProg α) : OpenM α := fun st =>
  (p.exec n st.synced).map fun r => (r.1, { st with world := r.2 })

/-- `calloc` of a structure. -/
def calloc : OpenM (Option Nat) := fun st =>
  some (if st.memory st.next then some st.next else none, { st with next := st.next + 1 })

/-- Follow a pointer to an inode. -/
def getInode (a : Nat) : OpenM InodeMem := fun st =>
  if a ∈ st.openInodes then some (st.inode a, st) else none

/-- Store an inode. -/
def setInode (a : Nat) (v : InodeMem) : OpenM Unit := fun st =>
  some ((), { st with inode := Function.update st.inode a v })

/-! ## Inodes -/

/-- `inode_reopen`. -/
def inodeReopen (a : Nat) : OpenM Unit := do
  let inode ← getInode a
  setInode a { inode with openCnt := inode.openCnt + 1 }

/-- Put a new inode in front of `open_inodes`. -/
def pushInode (a sector : Nat) : OpenM Unit := fun st =>
  some ((), { st with
    inode := Function.update st.inode a ⟨sector, 1, 0, false⟩
    openInodes := a :: st.openInodes })

/-- `inode_open`. -/
def inodeOpen (sector : Nat) : OpenM (Option Nat) := fun st =>
  match st.openInodes.find? fun a => (st.inode a).sector = sector with
  | some a => (do inodeReopen a; return some a : OpenM (Option Nat)) st
  | none => (do
      match ← calloc with
      | none => return none
      | some a => pushInode a sector; return some a : OpenM (Option Nat)) st

/-- Take an inode out of `open_inodes`. -/
def dropInode (a : Nat) : OpenM Unit := fun st =>
  some ((), { st with openInodes := st.openInodes.erase a })

section Close

variable (n : Nat) (env : FsEnv)

/-- `free_map_release` of one sector. -/
def releaseOne (sector : Nat) : FsProg Unit :=
  freeMapRelease (inodeWriteAt env.u (env.depth + 1)) sector 1

/-- The loop over the doubly indirect block in `inode_close`, with `double_cnt` sectors to go.  It
reads at an offset that counts sectors as if they were bytes. -/
def releaseDoubly (diskInode : Sector) : (fuel doubleCnt : Nat) → FsProg Unit
  | 0, _ => .fail
  | fuel + 1, doubleCnt =>
    if doubleCnt = 0 then return ()
    else do
      let bs ← cacheRead (InodeDisk.doublyIndirect diskInode) (doubleCnt / indirectCnt) 512
      let doubleElement := (Block.fill 512 0).write 0 bs
      (List.range (doubleCnt % indirectCnt)).forM fun j =>
        releaseOne env (Block.word doubleElement j)
      releaseDoubly diskInode fuel (doubleCnt - doubleCnt % indirectCnt)

/-- The loops over an array of sector numbers in `inode_close`, from its entry `cnt` down to the one
after its first. -/
def releaseDown (table : Sector) : Nat → FsProg Unit
  | 0 => return ()
  | cnt + 1 =>
    if cnt + 1 < indirectCnt then do
      releaseOne env (Block.word table (cnt + 1))
      releaseDown table cnt
    else .fail

/-- The blocks above the direct ones, in `inode_close` of an inode that was removed. -/
def releaseIndirect (diskInode : Sector) (sectorCnt : Nat) : FsProg Unit := do
  if directCnt + indirectCnt < sectorCnt then
    let _ ← readSector (InodeDisk.doublyIndirect diskInode)
    releaseDoubly env diskInode sectorCnt (sectorCnt - directCnt - indirectCnt)
  if directCnt < sectorCnt then
    let table ← readSector (InodeDisk.indirect diskInode)
    releaseDown env table (min sectorCnt (directCnt + indirectCnt) - directCnt)

/-- `inode_close` of an inode that was removed.  The array of direct sectors is read from the sector
that has the *address* of the array for its number. -/
def releaseBlocks (sector : Nat) (diskInode : Sector) : FsProg Unit := do
  let sectorCnt := bytesToSectors (InodeDisk.length diskInode)
  releaseIndirect env diskInode sectorCnt
  let table ← readSector (env.copyAt + 20)
  releaseDown env table (min sectorCnt directCnt)
  releaseOne env sector
  findCache sector

/-- `inode_close`. -/
def inodeClose : Option Nat → OpenM Unit
  | none => return ()
  | some a => do
    let inode ← getInode a
    let diskInode ← run n (readSector inode.sector)
    setInode a { inode with openCnt := inode.openCnt - 1 }
    if inode.openCnt - 1 = 0 then
      dropInode a
      if inode.removed then run n (releaseBlocks env inode.sector diskInode)

end Close

/-! ## Sequences -/

variable {st st' : OpenFs}

theorem bind_eq_some {α β : Type} {m : OpenM α} {f : α → OpenM β} {b : β} :
    (m >>= f) st = some (b, st') ↔ ∃ a st1, m st = some (a, st1) ∧ f a st1 = some (b, st') := by
  show (m st).bind (fun r => f r.1 r.2) = some (b, st') ↔ _
  rw [Option.bind_eq_some_iff, Prod.exists]

theorem getInode_eq_some {a : Nat} {v : InodeMem} (h : getInode a st = some (v, st')) :
    a ∈ st.openInodes ∧ v = st.inode a ∧ st' = st := by
  rw [getInode, Option.ite_none_right_eq_some] at h
  obtain ⟨ha, heq⟩ := h
  cases heq
  exact ⟨ha, rfl, rfl⟩

end OpenFs

end Pintos
