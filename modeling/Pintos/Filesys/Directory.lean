import Pintos.Filesys.Invariant
import Pintos.Lib.Strings

/-!
# Directories

`filesys/directory.c`: a directory is a file of entries of twenty bytes, each the sector of an
inode, a name and the flag `in_use`.

* An open inode is what `inode_open` gives for its sector.  Its `deny_write_cnt`, which is kept with
  the open inodes, is a parameter: `deny s` is the count of the inode open at sector `s`.
* The loops over the entries of a directory end at its last one, which lies below `2 ^ 31`;
  `dirEntryCnt` is the number of rounds they have.  `exec_lookup` says that `lookup` is a search of
  the list of entries, so that the rounds are enough.
* `dir_remove` returns the inode that it marks as removed.  Its blocks are released when it is
  closed for the last time, which is not part of the routine.
-/

namespace Pintos

open Bytes Prog CString

/-! ## Entries -/

/-- `NAME_MAX`. -/
def nameMax : Nat := 14

/-- The byte `'/'`. -/
def slash : UInt8 := 47

/-- The name `"."`. -/
def dot : List UInt8 := [46]

/-- The name `".."`. -/
def dotDot : List UInt8 := [46, 46]

/-! The fields of `struct dir_entry`, an array of `dirEntrySize` bytes. -/

namespace DirEntry

/-- `inode_sector`. -/
def inodeSector (e : List UInt8) : Nat := ofLe (e.take 4)

/-- `in_use`. -/
def inUse (e : List UInt8) : Bool := e.getD 19 0 != 0

/-- Is the entry in use, with this name?  A name that fills its array has no end of its own, and
`strcmp` goes on to the byte of `in_use`. -/
def isNamed (name e : List UInt8) : Option Bool :=
  if inUse e then strEq name (e.drop 4) else some false

/-- The entry `e` as `dir_add` changes it: in use, for `name`, which `strlcpy` copies with its null
byte, and for `inodeSector`. -/
def set (e : List UInt8) (inodeSector : Nat) (name : List UInt8) : List UInt8 :=
  le32 inodeSector ++ (name ++ [0]) ++ (e.drop (4 + name.length + 1)).take (nameMax - name.length)
    ++ [1]

/-- The entry `e` with `in_use` false. -/
def unset (e : List UInt8) : List UInt8 := e.set 19 0

/-- The name that `dir_readdir` copies.  A name that has no end in its entry is read past it. -/
def copyName (e : List UInt8) : Option (List UInt8) :=
  if 0 ∈ e.drop 4 then some (((e.drop 4).takeWhile (· ≠ 0)).take nameMax) else none

end DirEntry

/-! ## The routines -/

/-- `inode_open`. -/
def inodeOpen (deny : Nat → Nat) (sector : Nat) : Inode := ⟨sector, deny sector⟩

/-- The rounds of a loop over the entries of a directory. -/
def dirEntryCnt : Nat := 2 ^ 31 / dirEntrySize + 1

section Routines

variable (u : Uninit) (deny : Nat → Nat)

/-- The loop of `lookup`, at offset `ofs`. -/
def lookupLoop (dir : Inode) (name : List UInt8) :
    (fuel ofs : Nat) → FsProg (Option (List UInt8 × Nat))
  | 0, _ => .fail
  | fuel + 1, ofs => do
    let e ← inodeReadAt u dir dirEntrySize ofs
    if e.length = dirEntrySize then
      match DirEntry.isNamed name e with
      | none => .fail
      | some true => return some (e, ofs)
      | some false => lookupLoop dir name fuel (ofs + dirEntrySize)
    else return none

/-- `lookup`: the entry with the name, and its offset. -/
def lookup (dir : Inode) (name : List UInt8) : FsProg (Option (List UInt8 × Nat)) :=
  lookupLoop u dir name dirEntryCnt 0

/-- `dir_lookup`, with `none` for a null inode. -/
def dirLookup (dir : Inode) (name : List UInt8) : FsProg (Option Inode) :=
  if name = dot then return some dir
  else if name = dotDot then do
    let parent ← inodeParent dir
    return some (inodeOpen deny parent)
  else do
    match ← lookup u dir name with
    | some (e, _) => return some (inodeOpen deny (DirEntry.inodeSector e))
    | none => return none

/-- The loop of `dir_add` that looks for a free slot, at offset `ofs` and with `e` in the buffer. -/
def freeSlotLoop (dir : Inode) : (fuel : Nat) → List UInt8 → (ofs : Nat) →
    FsProg (List UInt8 × Nat)
  | 0, _, _ => .fail
  | fuel + 1, e, ofs => do
    let bs ← inodeReadAt u dir dirEntrySize ofs
    let e := bs ++ e.drop bs.length
    if bs.length = dirEntrySize ∧ DirEntry.inUse e then
      freeSlotLoop dir fuel e (ofs + dirEntrySize)
    else return (e, ofs)

/-- `dir_add`, with `e` what its uninitialised entry holds. -/
def dirAdd (depth : Nat) (e : List UInt8) (dir : Inode) (name : List UInt8) (inodeSector : Nat) :
    FsProg Bool :=
  if name = [] ∨ nameMax < name.length then return false
  else do
    match ← lookup u dir name with
    | some _ => return false
    | none =>
      let (e, ofs) ← freeSlotLoop u dir dirEntryCnt e 0
      let written ← inodeWriteAt u depth dir
        (fun i => (DirEntry.set e inodeSector name).getD i 0) dirEntrySize ofs
      return written == dirEntrySize

/-- `dir_remove`: the inode that is removed, or `none` for false. -/
def dirRemove (depth : Nat) (dir : Inode) (name : List UInt8) : FsProg (Option Inode) := do
  match ← lookup u dir name with
  | none => return none
  | some (e, ofs) =>
    let written ← inodeWriteAt u depth dir (fun i => (DirEntry.unset e).getD i 0) dirEntrySize ofs
    if written = dirEntrySize then return some (inodeOpen deny (DirEntry.inodeSector e))
    else return none

/-- The loop of `dir_readdir`, at position `pos`: the name of an entry, if there is one, and the
position after it. -/
def readdirLoop (dir : Inode) : (fuel pos : Nat) → FsProg (Option (List UInt8) × Nat)
  | 0, _ => .fail
  | fuel + 1, pos => do
    let e ← inodeReadAt u dir dirEntrySize pos
    if e.length = dirEntrySize then
      if DirEntry.inUse e then
        match DirEntry.copyName e with
        | none => .fail
        | some name => return (some name, pos + dirEntrySize)
      else readdirLoop dir fuel (pos + dirEntrySize)
    else return (none, pos)

/-- `dir_readdir`. -/
def dirReaddir (dir : Inode) (pos : Nat) : FsProg (Option (List UInt8) × Nat) :=
  readdirLoop u dir dirEntryCnt pos

end Routines

/-! ## The entries of a directory -/

/-- Entry `k` of the directory with its inode at sector `i`. -/
def entryAt (d : Disk) (i k : Nat) : List UInt8 :=
  (List.range dirEntrySize).map fun j => fileByte d i (dirEntrySize * k + j)

/-- The entries of a directory from number `k` on. -/
def dirEntriesFrom (d : Disk) (i k : Nat) : List (List UInt8) :=
  (List.range' k ((InodeDisk.length (d i)).toNat / dirEntrySize - k)).map (entryAt d i)

/-- The first entry with the name, and its offset, in a list of entries that starts at `ofs`; `none`
if the search would read past an entry. -/
def findEntry (name : List UInt8) : List (List UInt8) → Nat → Option (Option (List UInt8 × Nat))
  | [], _ => some none
  | e :: es, ofs =>
    match DirEntry.isNamed name e with
    | none => none
    | some true => some (some (e, ofs))
    | some false => findEntry name es (ofs + dirEntrySize)

variable {d : Disk} {i k : Nat}

theorem dirEntriesFrom_of_lt (h : k < (InodeDisk.length (d i)).toNat / dirEntrySize) :
    dirEntriesFrom d i k = entryAt d i k :: dirEntriesFrom d i (k + 1) := by
  obtain ⟨c, hc⟩ := Nat.exists_eq_add_of_lt h
  rw [dirEntriesFrom, dirEntriesFrom, hc, show k + c + 1 - k = c + 1 by omega,
    show k + c + 1 - (k + 1) = c by omega, List.range'_succ, List.map_cons]

theorem dirEntriesFrom_of_le (h : (InodeDisk.length (d i)).toNat / dirEntrySize ≤ k) :
    dirEntriesFrom d i k = [] := by
  rw [dirEntriesFrom, Nat.sub_eq_zero_of_le h, List.range'_zero, List.map_nil]

namespace FsInv

variable {n : Nat} {inodes : List Nat} {w : FsWorld} {hdr : Nat → Sector} {L : Nat → Use → Prop}
  {dir : Inode}

section

variable (h : FsInv n inodes w hdr L) (hi : dir.sector ∈ inodes) (u : Uninit)
include h hi

theorem exec_readEntry {k : Nat}
    (hk : k ≤ (InodeDisk.length (w.disk dir.sector)).toNat / dirEntrySize) :
    ∃ e, (inodeReadAt u dir dirEntrySize ((dirEntrySize * k : Nat) : Int)).exec n w = some (e, w) ∧
      if k < (InodeDisk.length (w.disk dir.sector)).toNat / dirEntrySize then
        e = entryAt w.disk dir.sector k
      else e.length < dirEntrySize := by
  have hlen := (h.length _ hi).1
  have hle : dirEntrySize * k ≤ (InodeDisk.length (w.disk dir.sector)).toNat :=
    Nat.le_trans (Nat.mul_le_mul_left _ hk) (Nat.mul_div_le _ _)
  refine ⟨_, h.exec_inodeReadAt dir hi u dirEntrySize ?_, ?_⟩
  · rw [← Int.toNat_of_nonneg hlen]
    exact Int.ofNat_le.mpr hle
  · have hdiv := Nat.div_add_mod (InodeDisk.length (w.disk dir.sector)).toNat dirEntrySize
    generalize (InodeDisk.length (w.disk dir.sector)).toNat / dirEntrySize = cnt at *
    generalize (InodeDisk.length (w.disk dir.sector)).toNat = len at *
    rw [show dirEntrySize = 20 from rfl] at *
    split
    · rw [entryAt, Nat.min_eq_left (by omega)]
      rfl
    · rw [List.length_map, List.length_range]
      omega

theorem exec_lookupLoop (name : List UInt8) (fuel : Nat) :
    ∀ {k : Nat}, k ≤ (InodeDisk.length (w.disk dir.sector)).toNat / dirEntrySize →
      (InodeDisk.length (w.disk dir.sector)).toNat / dirEntrySize < k + fuel →
      (lookupLoop u dir name fuel (dirEntrySize * k)).exec n w
        = (findEntry name (dirEntriesFrom w.disk dir.sector k) (dirEntrySize * k)).map (·, w) := by
  induction fuel with
  | zero => intro k hk hfuel; omega
  | succ fuel ih =>
    intro k hk hfuel
    obtain ⟨e, hread, he⟩ := h.exec_readEntry hi u hk
    rw [lookupLoop, exec_bind_of_eq hread]
    split at he
    · rename_i hlt
      have hlen : e.length = dirEntrySize := by rw [he, entryAt, List.length_map, List.length_range]
      rw [if_pos hlen, dirEntriesFrom_of_lt hlt, findEntry, ← he]
      cases DirEntry.isNamed name e with
      | none => rfl
      | some b =>
        cases b with
        | true => rfl
        | false => exact ih hlt (by omega)
    · rw [if_neg (Nat.ne_of_lt he), dirEntriesFrom_of_le (by omega)]
      rfl

/-- **`lookup`** searches the entries of the directory. -/
theorem exec_lookup (name : List UInt8) : (lookup u dir name).exec n w
      = (findEntry name (dirEntriesFrom w.disk dir.sector 0) 0).map (·, w) := by
  have hlen : (InodeDisk.length (w.disk dir.sector)).toNat ≤ maxLength :=
    Int.toNat_le.mpr (h.length _ hi).2
  have hrounds : (InodeDisk.length (w.disk dir.sector)).toNat / dirEntrySize < 0 + dirEntryCnt :=
    Nat.lt_of_le_of_lt (Nat.div_le_div_right hlen) (by decide)
  have hloop := h.exec_lookupLoop hi u name dirEntryCnt (Nat.zero_le _) hrounds
  rwa [Nat.mul_zero] at hloop

end

end FsInv

end Pintos
