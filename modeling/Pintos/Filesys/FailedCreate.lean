import Pintos.Filesys.Entries
import Pintos.Filesys.MapStore
import Pintos.Filesys.NewBytes
import Pintos.Filesys.Path

/-!
# What a failed `filesys_create` leaves

`filesys_create` allocates a sector, has `inode_create` make the inode there, and enters the name in
the directory with `dir_add`.  It goes on to `dir_add` even if `inode_create` has failed, and when
one of the two fails it gives nothing back: no call of `free_map_release` is on this path.

* `CreateFailsClean`: if the call returns false, the free map and every allocated sector are as they
  were.
* `CreateComplete`: once it has allocated a sector, the call comes to its end.  The new file is not
  refused its index blocks, the name can be an entry, the directory may be written, and `CanAdd`
  says that it has room for one more entry or can have it.
* `failed_create_iff`: the call fails cleanly if and only if it fails before it allocates a sector
  or does not fail at all.

The paths are those that go through inodes of the file system (`WalksIn`); `path_parsing` would
follow the bytes of anything.
-/

namespace Pintos

open Bytes Prog CString
open Bytes.Block (fill)

/-- The state after the call is the one before it, as far as anything is allocated. -/
structure NoTrace (w w' : FsWorld) : Prop where
  freeMap : w'.mem.freeMap = w.mem.freeMap
  /-- What is in the sectors that are allocated: inodes, and the entries of directories. -/
  sectors : ∀ s, w.mem.freeMap.bits s = true → w'.disk s = w.disk s

theorem NoTrace.refl (w : FsWorld) : NoTrace w w := ⟨rfl, fun _ _ => rfl⟩

/-- If `filesys_create` returns false, it leaves no trace, whatever the variables hold that the
source does not initialise. -/
def CreateFailsClean (n depth : Nat) (w : FsWorld) (deny : Nat → Nat) (cwd : Nat)
    (name : List UInt8) (initialSize : Int) (isDir : Bool) : Prop :=
  ∀ (u : Uninit) (e : List UInt8) (w' : FsWorld), e.length = dirEntrySize →
    (filesysCreate u deny (depth + 2) e cwd name initialSize isDir).exec n w = some (false, w') →
    NoTrace w w'

/-- The directory has a free slot, or room at its end, or no room in its index, or the index blocks
of its next block can be had from `free` sectors. -/
def CanAdd (d : Disk) (i free : Nat) : Prop :=
  none ∈ slots d i ∨ (dirEntrySize * (slots d i).length + dirEntrySize + 511) / 512 ≤ blocks (d i) ∨
    blocks (d i) = maxBlocks ∨ indexNeed (blocks (d i)) ≤ free

/-- The name can be an entry, the directory may be written, and it can have one more entry. -/
def Addable (d : Disk) (dir : Inode) (name : List UInt8) (free : Nat) : Prop :=
  name ≠ [] ∧ name.length ≤ nameMax ∧ dir.denyWriteCnt = 0 ∧ CanAdd d dir.sector free

/-- The length that the new file has. -/
def createLength (initialSize : Int) (isDir : Bool) : Nat :=
  if isDir then 0 else initialSize.toNat

/-- With a sector for the inode, `filesys_create` comes to its end: or it panics, over a negative
length. -/
def CreateComplete (w : FsWorld) (dir : Inode) (name : List UInt8) (initialSize : Int)
    (isDir : Bool) : Prop :=
  isDir = false ∧ initialSize < 0 ∨
    ¬ Refused ((createLength initialSize isDir + 511) / 512) 0 (w.mem.freeMap.freeCnt - 1) ∧
      Addable w.disk dir name (w.mem.freeMap.freeCnt - 1
        - sectorNeed (min ((createLength initialSize isDir + 511) / 512) maxBlocks) 0)

/-- The path names the directory `dir`, and the last part of it is not there. -/
def NotThere (n : Nat) (w : FsWorld) (deny : Nat → Nat) (cwd : Nat) (path : List UInt8)
    (dir : Inode) : Prop :=
  ∀ u, (resolve u deny cwd (dirPart path)).exec n w = some (some dir, w) ∧
    (dirLookup u deny dir (lastPart path)).exec n w = some (none, w)

/-- The inodes that a path goes through from `dir` on are in `inodes`, and none is the free map's
file. -/
def WalksIn (n : Nat) (inodes : List Nat) (w : FsWorld) (deny : Nat → Nat) :
    Inode → List (List UInt8) → Prop
  | dir, [] => dir.sector ∈ inodes ∧ dir.sector ≠ freeMapSector
  | dir, name :: names => (dir.sector ∈ inodes ∧ dir.sector ≠ freeMapSector) ∧
    ∀ u inode, (dirLookup u deny dir name).exec n w = some (some inode, w) →
      WalksIn n inodes w deny inode names

/-! ## Finding the directory -/

theorem splitPath_eq (u : Uninit) (deny : Nat → Nat) (cwd : Nat) (name : List UInt8) :
    splitPath u deny cwd name = (do
      let dir ← resolve u deny cwd (dirPart name)
      return (dir, lastPart name)) := by
  rw [splitPath]
  split
  · rename_i hnone
    rw [dirPart, lastPart, hnone]
    rfl
  · rename_i pathLen hsome
    rw [dirPart, lastPart, hsome, pathParsing_eq_resolve]
    rfl

section

variable {n depth : Nat} {inodes : List Nat} {w : FsWorld} {dir : Inode} {name : List UInt8}
  {deny : Nat → Nat} {isDir : Bool}

/-- What `dir_lookup` finds, in terms of the disk. -/
def lookupOnDisk (d : Disk) (deny : Nat → Nat) (dir : Inode) (name : List UInt8) :
    Option (Option Inode) :=
  if name = dot then some (some dir)
  else if name = dotDot then some (some (inodeOpen deny (InodeDisk.parent (d dir.sector))))
  else (findEntry name (dirEntries d dir.sector) 0).map
    (Option.map fun r => inodeOpen deny (DirEntry.inodeSector r.1))

theorem FsInv.exec_dirLookup (h : FsOk n inodes w) (hi : dir.sector ∈ inodes) (u : Uninit)
    (deny : Nat → Nat) (name : List UInt8) :
    (dirLookup u deny dir name).exec n w = (lookupOnDisk w.disk deny dir name).map (·, w) := by
  rw [dirLookup, lookupOnDisk]
  split
  · rfl
  split
  · rw [inodeParent, exec_bind_of_eq (exec_readWord (h.sector_lt hi) (by decide))]
    rfl
  · rw [exec_bind, h.exec_lookup hi u name]
    rcases findEntry name (dirEntries w.disk dir.sector) 0 with _ | _ | ⟨e, ofs⟩
    · rfl
    · rfl
    · rfl

/-- A path that stays in the file system leads to the same directory, or to none, whatever the
uninitialised variables hold. -/
theorem FsInv.exec_follow (h : FsOk n inodes w) (deny : Nat → Nat) :
    ∀ {dir : Inode} {names : List (List UInt8)}, WalksIn n inodes w deny dir names →
      ∃ r : Option (Option Inode), (∀ u, (follow u deny dir names).exec n w = r.map (·, w)) ∧
        ∀ found, r = some (some found) →
          found.sector ∈ inodes ∧ found.sector ≠ freeMapSector := by
  intro dir names
  induction names generalizing dir with
  | nil =>
    intro hwalk
    refine ⟨some (some dir), fun u => rfl, fun found hfound => ?_⟩
    rw [Option.some_inj, Option.some_inj] at hfound
    exact hfound ▸ hwalk
  | cons name names ih =>
    rintro ⟨hdir, hwalk⟩
    have hlook : ∀ u, (dirLookup u deny dir name).exec n w = _ := fun u =>
      h.exec_dirLookup hdir.1 u deny name
    rcases hl : lookupOnDisk w.disk deny dir name with _ | _ | inode
    · refine ⟨none, fun u => ?_, by rintro _ ⟨⟩⟩
      rw [follow, exec_bind, hlook u, hl]
      rfl
    · refine ⟨some none, fun u => ?_, by rintro _ ⟨⟩⟩
      rw [follow, exec_bind, hlook u, hl]
      rfl
    · have hsome : ∀ u, (dirLookup u deny dir name).exec n w = some (some inode, w) := fun u => by
        rw [hlook u, hl]
        rfl
      obtain ⟨r, hr, hfound⟩ := ih (hwalk ⟨0, fill 512 0, 0⟩ inode (hsome _))
      refine ⟨r, fun u => ?_, hfound⟩
      rw [follow, exec_bind_of_eq (hsome u)]
      exact hr u

/-! ## Entering the name -/

variable {e : List UInt8}

variable (depth) in
/-- **`dir_add`** of a name that can be an entry and is none yet writes it to a free slot, or past
the last one. -/
theorem FsInv.exec_dirAdd_new (h : FsOk n inodes w) (hi : dir.sector ∈ inodes) (hempty : name ≠ [])
    (hlen : name.length ≤ nameMax)
    (hnone : findEntry name (dirEntries w.disk dir.sector) 0 = some none) (u : Uninit)
    (he : e.length = dirEntrySize) (s : Nat) :
    ∃ buffer k, (dirAdd u depth e dir name s).exec n w
        = ((inodeWriteAt u depth dir buffer dirEntrySize ((dirEntrySize * k : Nat) : Int)).exec n
            w).map (fun r => (r.1 == (dirEntrySize : Int), r.2)) ∧
      ((slots w.disk dir.sector)[k]? = some none ∨
        k = (slots w.disk dir.sector).length ∧ none ∉ slots w.disk dir.sector) := by
  obtain ⟨e', k, hloop, -, hk⟩ := exec_freeSlotLoop dir h hi u dirEntryCnt he
    (Nat.zero_le _) (by rw [Nat.zero_add]; exact h.length_slots_lt hi) nofun
  have hlook : (lookup u dir name).exec n w = some (none, w) := by
    rw [h.exec_lookup hi u name]
    rw [show dirEntriesFrom w.disk dir.sector 0 = dirEntries w.disk dir.sector from rfl, hnone]
    rfl
  rw [Nat.mul_zero] at hloop
  refine ⟨fun i => (DirEntry.set e' s name).getD i 0, k, ?_, hk⟩
  rw [dirAdd, if_neg (by rw [not_or, Nat.not_lt]; exact ⟨hempty, hlen⟩), exec_bind_of_eq hlook]
  rw [exec_bind_of_eq hloop, exec_bind]
  rcases (inodeWriteAt u depth dir (fun i => (DirEntry.set e' s name).getD i 0) dirEntrySize
    ((dirEntrySize * k : Nat) : Int)).exec n w with _ | r
  · rfl
  · rfl

/-- **The write of `dir_add`** stores the whole entry, or panics over a block for which there was no
sector, if the directory can have one more; if it cannot, only what fits is stored. -/
theorem FsInv.exec_writeSlot (h : FsOk n inodes w) (hi : dir.sector ∈ inodes)
    (hdeny : dir.denyWriteCnt = 0) {k : Nat}
    (hk : (slots w.disk dir.sector)[k]? = some none ∨
      k = (slots w.disk dir.sector).length ∧ none ∉ slots w.disk dir.sector) (u : Uninit)
    (buffer : Nat → UInt8) {run : Option (Int × FsWorld)}
    (hrun : (inodeWriteAt u (depth + 2) dir buffer dirEntrySize
      ((dirEntrySize * k : Nat) : Int)).exec n w = run) :
    CanAdd w.disk dir.sector w.mem.freeMap.freeCnt ∧
        ((∃ w', run = some ((dirEntrySize : Int), w')) ∨
          run = none ∧ ¬ (u.allocSec < n ∧ u.returnSec < n)) ∨
      ¬ CanAdd w.disk dir.sector w.mem.freeMap.freeCnt ∧
        ∃ (t : Nat) (w' : FsWorld), t < dirEntrySize ∧ run = some ((t : Int), w') := by
  obtain ⟨len, hlen⟩ := Int.eq_ofNat_of_zero_le (h.length _ hi).1
  have hcnt : (slots w.disk dir.sector).length = len / dirEntrySize := by
    rw [length_slots, length_dirEntries, hlen, Int.toNat_natCast]
  have hmax : len ≤ 8486912 := Int.ofNat_le.mp (hlen ▸ (h.length _ hi).2)
  rcases hk with hfree | ⟨rfl, hnone⟩
  · -- a slot inside the directory
    have hlt := (List.getElem?_eq_some_iff.mp hfree).1
    obtain ⟨d', hexec, -⟩ := exec_inodeWriteAt_within h dir hi
      hdeny u (depth + 1) buffer dirEntrySize (dirEntrySize * k) (by
        rw [hlen, show dirEntrySize = 20 from rfl] at *
        omega)
    exact .inl ⟨.inl (List.mem_of_getElem? hfree), .inl ⟨_, hrun.symm.trans hexec⟩⟩
  rw [hcnt] at hrun
  generalize ho : dirEntrySize * (len / dirEntrySize) = o at hrun
  have hfit : o ≤ len ∧ len < o + dirEntrySize ∧ o + dirEntrySize < 2147483648 := by
    rw [← ho, show dirEntrySize = 20 from rfl]
    omega
  have hone : (o + dirEntrySize + 511) / 512 ≤ blocks (w.disk dir.sector) + 1 := by
    rw [blocks, hlen]
    rw [show dirEntrySize = 20 from rfl] at hfit ⊢
    omega
  have hcan : CanAdd w.disk dir.sector w.mem.freeMap.freeCnt ↔
      (o + dirEntrySize + 511) / 512 ≤ blocks (w.disk dir.sector) ∨
        blocks (w.disk dir.sector) = maxBlocks ∨
        indexNeed (blocks (w.disk dir.sector)) ≤ w.mem.freeMap.freeCnt := by
    rw [CanAdd, hcnt, ho]
    exact or_iff_right hnone
  rw [hcan]
  exact h.exec_inodeWriteAt_next hi hlen hfit.2.1 hfit.2.2 hdeny rfl hfit.1 hone u buffer hrun

/-! ## The new inode -/

/-- Sector `s` is marked. -/
def Marked (s : Nat) (m : FreeMap) : Prop := m.freeMap.bits s = true

theorem keptByScan_marked (s : Nat) : KeptByScan (Marked s) := by
  intro m cnt idx hm hs
  obtain ⟨-, -, hfree⟩ := Bitmap.scan_eq_some hs
  have hout : ¬ (idx ≤ s ∧ s < idx + cnt) := by
    rintro ⟨h1, h2⟩
    have hbit := hfree (s - idx) (by omega)
    rw [Nat.add_sub_cancel' h1] at hbit
    exact absurd (hm.symm.trans hbit) Bool.noConfusion
  refine ⟨?_, fun m' hm' => ?_⟩
  · show (if idx ≤ s ∧ s < idx + cnt then true else m.freeMap.bits s) = true
    rw [if_neg hout]
    exact hm
  · show (if idx ≤ s ∧ s < idx + cnt then false else m'.freeMap.bits s) = true
    rw [if_neg hout]
    exact hm'

/-- From `w` to `w'` an inode came to be in sector `s`, whatever is in it, and the files that were
there are as they were. -/
structure Beside (n : Nat) (inodes : List Nat) (s : Nat) (w w' : FsWorld) : Prop where
  fresh : w.mem.freeMap.bits s = false
  mark : Marked s w'.mem
  /-- Without the new inode the file system is as it should be. -/
  ok : FsOk n inodes w'
  header : ∀ j ∈ inodes, w'.disk j = w.disk j
  /-- So are the bytes of the files, but for the free map. -/
  bytes : ∀ j ∈ inodes, j ≠ freeMapSector → ∀ pos < (InodeDisk.length (w.disk j)).toNat,
    fileByte w'.disk j pos = fileByte w.disk j pos

variable (depth) in
/-- **Allocating a sector and creating an inode in it**, on any disk with a free sector. -/
theorem FsInv.exec_create_beside (h : FsOk n inodes w) (hpos : 0 < w.mem.freeMap.freeCnt)
    (u : Uninit) (cwd : Nat) {length : Nat} (hlt : length < 2147483648) (isDir : Bool) :
    ∃ s w1 r w2, (freeMapAllocateAt u (depth + 1)).exec n w = some (some s, w1) ∧
      (inodeCreate u (depth + 1) cwd s length isDir).exec n w1 = some (r, w2) ∧
      Beside n inodes s w w2 ∧
      (r = true ↔ ¬ Refused ((length + 511) / 512) 0 (w.mem.freeMap.freeCnt - 1)) ∧
      w2.mem.freeMap.freeCnt = w.mem.freeMap.freeCnt - 1
        - sectorNeed (min ((length + 511) / 512) maxBlocks) 0 := by
  obtain ⟨m, d⟩ := w
  obtain ⟨s, d1, halloc, ha⟩ := h.exec_freeMapAllocate_of_pos u depth hpos
  have hcnt := Bitmap.freeCnt_mark (h.bitCnt.symm ▸ ha.lt) ha.free
  have hmark : (m.freeMap.mark s).bits s = true := by simp [Bitmap.mark]
  have hunused : ∀ j v, OnDisk inodes d1 j v → v.ptr d1 j (d1 j) ≠ s :=
    fun j v hv => ha.inv.onDisk.ne_of_free ha.free hv
  have hfresh : s ∉ inodes := fun hs => hunused s .inode ⟨hs, trivial⟩ rfl
  have hkept : ∀ j ∈ inodes, d1 j = d j := fun j hj =>
    ha.kept j .inode ⟨hj, trivial⟩ (.inr fun _ => by simp)
  have hok := (ha.inv.mark s).restrict
  obtain ⟨-, hheader1, -, hbytes1⟩ := hok.storeUnused hunused (InodeDisk.create isDir cwd)
  obtain ⟨-, -, remain, m2, d2, hdr', L', -, hinv, hgrow, hres⟩ :=
    hok.exec_inodeCreate_cases depth ha.lt hmark hunused cwd isDir hlt u rfl
  obtain ⟨hok2, hext, -⟩ := extended_of_fail hinv hgrow (.head _)
  have hin : FsOk n inodes ⟨m2, d2⟩ := hok2.of_cons fun hf => by
    rw [hgrow.file] at hf
    obtain ⟨file, hfile⟩ := Option.ne_none_iff_exists'.mp hf
    exact (hok.map file hfile).2.1
  have hunused2 : ∀ j v, OnDisk inodes d2 j v → v.ptr d2 j (d2 j) ≠ s := by
    rintro j v ⟨hj, hv⟩ heq
    have hjs := (hok2.layout.inj j s v .inode ⟨.tail _ hj, hv⟩ ⟨.head _, trivial⟩ heq).1
    exact hfresh (hjs ▸ hj)
  -- what is stored in the sector of the inode does not matter to the others
  have hbeside : ∀ b, Beside n inodes s ⟨m, d⟩ ⟨m2, Function.update d2 s b⟩ := by
    intro b
    obtain ⟨hok3, hheader3, -, hbytes3⟩ := hin.storeUnused hunused2 b
    have hsame : ∀ j ∈ inodes, d2 j = d j := fun j hj =>
      (hext.header j (.tail _ hj) fun hjs => hfresh (hjs ▸ hj)).trans
        ((hheader1 j hj).trans (hkept j hj))
    refine ⟨ha.free, hgrow.marks s hmark, hok3, fun j hj => (hheader3 j hj).trans (hsame j hj),
      fun j hj hj0 pos hpos => ?_⟩
    have hlive : OnDisk inodes d j (.data (pos / 512)) := ⟨hj, div_lt_blocks hpos⟩
    calc fileByte (Function.update d2 s b) j pos = fileByte d2 j pos :=
          hbytes3 j hj pos (by rwa [hsame j hj])
      _ = fileByte (Function.update d1 s (InodeDisk.create isDir cwd)) j pos :=
          hext.bytes j (.tail _ hj) hj0 pos (by
            dsimp only
            rwa [hheader1 j hj, hkept j hj])
      _ = fileByte d1 j pos := hbytes1 j hj pos (by rwa [hkept j hj])
      _ = fileByte d j pos := by
          rw [fileByte, fileByte, hkept j hj, ha.ptr j _ hlive, ha.kept j _ hlive (.inl hj0)]
  have hfree : m2.freeMap.freeCnt = m.freeMap.freeCnt - 1
      - sectorNeed (min ((length + 511) / 512) maxBlocks) 0 := by
    have hcnt2 := hgrow.free
    dsimp only at hcnt2 ⊢
    omega
  rw [show m.freeMap.freeCnt - 1 = (m.freeMap.mark s).freeCnt by omega] at *
  rcases hres with ⟨href, hexec⟩ | ⟨hnot, -, hexec⟩
  · have hsame := hbeside (d2 s)
    rw [Function.update_eq_self] at hsame
    exact ⟨s, _, false, _, halloc, hexec, hsame, by simpa using href, hfree⟩
  · exact ⟨s, _, true, _, halloc, hexec, hbeside _, by simpa using hnot, hfree⟩

variable {s : Nat} {w' : FsWorld}

theorem Beside.dirEntries_eq (h : Beside n inodes s w w') (hi : dir.sector ∈ inodes)
    (hi0 : dir.sector ≠ freeMapSector) :
    dirEntries w'.disk dir.sector = dirEntries w.disk dir.sector :=
  dirEntries_of_eq (h.header _ hi) (h.bytes _ hi hi0)

variable (depth) in
/-- **`dir_add`** of a name that is not there.  Nothing that is marked gets free. -/
theorem FsInv.exec_dirAdd_cases (h : FsOk n inodes w) (hi : dir.sector ∈ inodes)
    (hnone : findEntry name (dirEntries w.disk dir.sector) 0 = some none) (u : Uninit)
    (he : e.length = dirEntrySize) (s : Nat) :
    (dirAdd u (depth + 2) e dir name s).exec n w = none ∧
        Addable w.disk dir name w.mem.freeMap.freeCnt ∧ ¬ (u.allocSec < n ∧ u.returnSec < n) ∨
      ∃ b w', (dirAdd u (depth + 2) e dir name s).exec n w = some (b, w') ∧
        (b = true ↔ Addable w.disk dir name w.mem.freeMap.freeCnt) ∧
        ∀ t, Marked t w.mem → Marked t w'.mem := by
  by_cases hname : name = [] ∨ nameMax < name.length
  · refine .inr ⟨false, w, ?_, ?_, fun _ ht => ht⟩
    · rw [dirAdd, if_pos hname, exec_pure]
    · refine iff_of_false Bool.false_ne_true fun hadd => ?_
      rcases hname with hname | hname
      · exact absurd hname hadd.1
      · exact absurd hadd.2.1 (Nat.not_le.mpr hname)
  rw [not_or, Nat.not_lt] at hname
  obtain ⟨buffer, k, hexec, hk⟩ := h.exec_dirAdd_new (depth + 2) hi hname.1 hname.2 hnone u he s
  rw [hexec]
  have hkept : ∀ t r w', (inodeWriteAt u (depth + 2) dir buffer dirEntrySize
      ((dirEntrySize * k : Nat) : Int)).exec n w = some (r, w') → Marked t w.mem →
      Marked t w'.mem := fun t r w' hrun ht =>
    (refines_inodeWriteAt (keptByScan_marked t) u (depth + 2) dir buffer _ _ w (r, w') ht hrun).2
  by_cases hdeny : dir.denyWriteCnt = 0
  · rcases hrun : (inodeWriteAt u (depth + 2) dir buffer dirEntrySize
      ((dirEntrySize * k : Nat) : Int)).exec n w with _ | ⟨r, w'⟩
    · rcases h.exec_writeSlot hi hdeny hk u buffer hrun with
        ⟨hadd, ⟨w', hsome⟩ | ⟨-, hoff⟩⟩ | ⟨-, t, w', -, hsome⟩
      · cases hsome
      · exact .inl ⟨rfl, ⟨hname.1, hname.2, hdeny, hadd⟩, hoff⟩
      · cases hsome
    · refine .inr ⟨_, w', rfl, ?_, fun t => hkept t r w' hrun⟩
      rw [beq_iff_eq]
      rcases h.exec_writeSlot hi hdeny hk u buffer hrun with
        ⟨hadd, ⟨w'', hsome⟩ | ⟨hpanic, -⟩⟩ | ⟨hadd, t, w'', ht, hsome⟩
      · rw [Option.some_inj, Prod.mk.injEq] at hsome
        exact ⟨fun _ => ⟨hname.1, hname.2, hdeny, hadd⟩, fun _ => hsome.1⟩
      · cases hpanic
      · rw [Option.some_inj, Prod.mk.injEq] at hsome
        refine ⟨fun hr => ?_, fun hr => absurd hr.2.2.2 hadd⟩
        rw [hsome.1, Int.natCast_inj] at hr
        exact absurd hr ht.ne
  · refine .inr ⟨false, w, ?_, iff_of_false Bool.false_ne_true fun hadd => hdeny hadd.2.2.1,
      fun _ ht => ht⟩
    rw [inodeWriteAt, if_pos hdeny]
    rfl

/-! ## The whole call -/

variable {u : Uninit} {initialSize : Int}

variable (depth) in
/-- **`filesys_create` from the allocation on**, where nothing panics before `dir_add`. -/
theorem FsInv.exec_createIn (h : FsOk n inodes w)
    (hlook : (dirLookup u deny dir name).exec n w = some (none, w))
    (hpos : 0 < w.mem.freeMap.freeCnt) (hsize : isDir = true ∨ 0 ≤ initialSize)
    (hlt : initialSize < 2 ^ 31) (cwd : Nat) (e : List UInt8) :
    ∃ s r w2, Beside n inodes s w w2 ∧
      (r = true ↔ ¬ Refused ((createLength initialSize isDir + 511) / 512) 0
        (w.mem.freeMap.freeCnt - 1)) ∧
      w2.mem.freeMap.freeCnt = w.mem.freeMap.freeCnt - 1
        - sectorNeed (min ((createLength initialSize isDir + 511) / 512) maxBlocks) 0 ∧
      (createIn u deny (depth + 2) e cwd initialSize isDir (some dir, name)).exec n w
        = ((dirAdd u (depth + 2) e dir name s).exec n w2).map fun p => (r && p.1, p.2) := by
  have hlen : createLength initialSize isDir < 2147483648 := by
    rw [createLength]
    split <;> omega
  obtain ⟨s, w1, r, w2, halloc, hcreate, hbeside, href, hfree⟩ :=
    h.exec_create_beside (depth + 1) hpos u cwd hlen isDir
  refine ⟨s, r, w2, hbeside, href, hfree, ?_⟩
  have hadd : (do
      let added ← dirAdd u (depth + 2) e dir name s
      return r && added : FsProg Bool).exec n w2
        = ((dirAdd u (depth + 2) e dir name s).exec n w2).map fun p => (r && p.1, p.2) := by
    rw [exec_bind]
    rcases (dirAdd u (depth + 2) e dir name s).exec n w2 with _ | ⟨b, w'⟩
    · rfl
    · rfl
  rw [createIn, exec_bind_of_eq hlook]
  rw [exec_bind_of_eq halloc]
  dsimp only
  split
  · rename_i hdir
    subst hdir
    exact (exec_bind_of_eq hcreate).trans hadd
  · rename_i hdir
    rw [createLength, if_neg hdir, Int.toNat_of_nonneg (hsize.resolve_left hdir),
      Bool.eq_false_iff.mpr hdir] at hcreate
    exact (exec_bind_of_eq hcreate).trans hadd

variable {cwd : Nat} {b : Bool}

theorem FsInv.exec_createIn_early (h : FsOk n inodes w) {found : Option Inode}
    (hin : ∀ dir, found = some dir → dir.sector ∈ inodes)
    (hearly : w.mem.freeMap.freeCnt = 0 ∨
      ∀ dir, found = some dir → (dirLookup u deny dir name).exec n w ≠ some (none, w))
    (hexec : (createIn u deny (depth + 2) e cwd initialSize isDir (found, name)).exec n w
      = some (b, w')) : w' = w := by
  cases found with
  | none =>
    rw [createIn, exec_pure, Option.some_inj, Prod.mk.injEq] at hexec
    exact hexec.2.symm
  | some dir =>
    have hlook := h.exec_dirLookup (hin dir rfl) u deny name
    rw [createIn, exec_bind, hlook] at hexec
    rcases hl : lookupOnDisk w.disk deny dir name with _ | _ | inode
    · rw [hl] at hexec
      cases hexec
    · rw [hl] at hexec hlook
      have hfull := hearly.resolve_right fun hne => hne dir rfl hlook
      have halloc : (freeMapAllocateAt u (depth + 2)).exec n w = some (none, w) := by
        rcases exec_freeMapAllocate h u (depth + 1) with
          ⟨hnone, -⟩ | ⟨s, d', -, ha⟩
        · exact hnone
        · have hcnt := Bitmap.freeCnt_mark (h.bitCnt.symm ▸ ha.lt) ha.free
          omega
      have hrun := (exec_bind_of_eq halloc).symm.trans hexec
      rw [exec_pure, Option.some_inj, Prod.mk.injEq] at hrun
      exact hrun.2.symm
    · rw [hl] at hexec
      cases hexec
      rfl

theorem FsInv.findEntry_of_dirLookup (h : FsOk n inodes w) (hi : dir.sector ∈ inodes)
    (hlook : (dirLookup u deny dir name).exec n w = some (none, w)) :
    findEntry name (dirEntries w.disk dir.sector) 0 = some none := by
  rw [h.exec_dirLookup hi, lookupOnDisk] at hlook
  split at hlook
  · cases hlook
  split at hlook
  · cases hlook
  · rcases hf : findEntry name (dirEntries w.disk dir.sector) 0 with _ | _ | r
    · rw [hf] at hlook
      cases hlook
    · rfl
    · rw [hf] at hlook
      cases hlook

theorem Beside.addable_iff (h : Beside n inodes s w w') (hi : dir.sector ∈ inodes)
    (hi0 : dir.sector ≠ freeMapSector) (free : Nat) :
    Addable w'.disk dir name free ↔ Addable w.disk dir name free := by
  rw [Addable, Addable, CanAdd, CanAdd, slots, slots, h.dirEntries_eq hi hi0, h.header _ hi]

/-- **A creation that comes to its end** returns true. -/
theorem FsInv.createIn_of_complete (h : FsOk n inodes w) (hi : dir.sector ∈ inodes)
    (hi0 : dir.sector ≠ freeMapSector)
    (hlook : (dirLookup u deny dir name).exec n w = some (none, w))
    (hpos : 0 < w.mem.freeMap.freeCnt) (hlt : initialSize < 2 ^ 31)
    (hcomplete : CreateComplete w dir name initialSize isDir) (he : e.length = dirEntrySize)
    (hexec : (createIn u deny (depth + 2) e cwd initialSize isDir (some dir, name)).exec n w
      = some (b, w')) : b = true := by
  by_cases hsize : isDir = true ∨ 0 ≤ initialSize
  · obtain ⟨s, r, w2, hbeside, href, hfree, hrun⟩ :=
      h.exec_createIn depth hlook hpos hsize hlt cwd e
    obtain ⟨hnot, hadd⟩ := hcomplete.resolve_left fun hneg => by
      rcases hsize with hdir | h0
      · exact absurd (hneg.1.symm.trans hdir) Bool.noConfusion
      · omega
    rw [hrun] at hexec
    have hnone := h.findEntry_of_dirLookup hi hlook
    rw [← hbeside.dirEntries_eq hi hi0] at hnone
    rcases hbeside.ok.exec_dirAdd_cases depth hi hnone u he s with
      ⟨hpanic, -⟩ | ⟨b', w'', hsome, hb, -⟩
    · rw [hpanic] at hexec
      cases hexec
    · rw [hfree, hbeside.addable_iff hi hi0] at hb
      rw [hsome, href.mpr hnot, hb.mpr hadd] at hexec
      cases hexec
      rfl
  · -- the length is negative
    rw [not_or, Bool.not_eq_true, Int.not_le] at hsize
    obtain ⟨s, d', halloc, -⟩ := exec_freeMapAllocate_of_pos h u (depth + 1) hpos
    rw [createIn, exec_bind_of_eq hlook] at hexec
    rw [exec_bind_of_eq halloc] at hexec
    dsimp only at hexec
    rw [hsize.1, if_neg Bool.noConfusion, exec_bind, inodeCreate, if_pos hsize.2] at hexec
    cases hexec

variable (depth) in
/-- **Any other creation** fails and leaves the sector that was allocated marked. -/
theorem FsInv.createIn_of_not_complete (h : FsOk n inodes w) (hi : dir.sector ∈ inodes)
    (hi0 : dir.sector ≠ freeMapSector)
    (hlook : (dirLookup ⟨0, fill 512 0, 0⟩ deny dir name).exec n w = some (none, w))
    (hpos : 0 < w.mem.freeMap.freeCnt) (hlt : initialSize < 2 ^ 31)
    (hbad : ¬ CreateComplete w dir name initialSize isDir) (cwd : Nat)
    (he : e.length = dirEntrySize) :
    ∃ w', (createIn ⟨0, fill 512 0, 0⟩ deny (depth + 2) e cwd initialSize isDir
        (some dir, name)).exec n w = some (false, w') ∧ w'.mem.freeMap ≠ w.mem.freeMap := by
  rw [CreateComplete, not_or, not_and_or, Bool.not_eq_false, Int.not_lt] at hbad
  obtain ⟨hsize, hbad⟩ := hbad
  obtain ⟨s, r, w2, hbeside, href, hfree, hrun⟩ := h.exec_createIn depth hlook hpos hsize hlt cwd e
  have hnone := h.findEntry_of_dirLookup hi hlook
  rw [← hbeside.dirEntries_eq hi hi0] at hnone
  have hzero : 0 < n := Nat.zero_lt_of_lt (h.sector_lt hi)
  rcases hbeside.ok.exec_dirAdd_cases depth hi hnone ⟨0, fill 512 0, 0⟩ he s with
    ⟨-, -, hoff⟩ | ⟨b, w', hsome, hb, hmarks⟩
  · exact absurd ⟨hzero, hzero⟩ hoff
  · rw [hfree, hbeside.addable_iff hi hi0] at hb
    have hfalse : (r && b) = false := by
      rw [← Bool.not_eq_true, Bool.and_eq_true, href, hb]
      exact hbad
    refine ⟨w', ?_, fun hsame => ?_⟩
    · rw [hrun, hsome, Option.map_some, hfalse]
    · have hmark := hmarks s hbeside.mark
      rw [Marked, hsame, hbeside.fresh] at hmark
      cases hmark

end

/-- **What a failed `filesys_create` leaves.**  On a path that stays in the file system, it leaves
no trace, if and only if the path is empty or the disk is full, or, for the directory that the path
names and in which the name is not there, the creation comes to its end. -/
theorem failed_create_iff {n depth : Nat} {inodes : List Nat} {w : FsWorld} (h : FsOk n inodes w)
    {deny : Nat → Nat} {cwd : Nat} {name : List UInt8}
    (hwalk : WalksIn n inodes w deny (startDir deny cwd (dirPart name))
      (pieces [slash] (dirPart name))) {initialSize : Int} (hlt : initialSize < 2 ^ 31)
    (isDir : Bool) :
    CreateFailsClean n depth w deny cwd name initialSize isDir ↔
      name = [] ∨ w.mem.freeMap.freeCnt = 0 ∨
        ∀ dir, NotThere n w deny cwd name dir →
          CreateComplete w dir (lastPart name) initialSize isDir := by
  obtain ⟨r, hr, hfound⟩ := h.exec_follow deny hwalk
  have hres : ∀ u, (resolve u deny cwd (dirPart name)).exec n w = r.map (·, w) := hr
  have hsplit : ∀ u e, name ≠ [] →
      (filesysCreate u deny (depth + 2) e cwd name initialSize isDir).exec n w = r.bind fun found =>
        (createIn u deny (depth + 2) e cwd initialSize isDir (found, lastPart name)).exec n w := by
    intro u e hname
    rw [filesysCreate, if_neg hname, splitPath_eq, exec_bind, exec_bind, hres u]
    cases r with
    | none => rfl
    | some found => rfl
  constructor
  · intro hclean
    by_contra hbad
    rw [not_or, not_or, not_forall] at hbad
    obtain ⟨hname, hfree, dir, hbad⟩ := hbad
    rw [Classical.not_imp] at hbad
    obtain ⟨hthere, hbad⟩ := hbad
    obtain ⟨hdir, hlook⟩ := hthere ⟨0, fill 512 0, 0⟩
    rw [hres, Option.map_eq_some_iff] at hdir
    obtain ⟨found, hr, heq⟩ := hdir
    obtain ⟨rfl, -⟩ := Prod.mk.injEq _ _ _ _ ▸ heq
    obtain ⟨hi, hi0⟩ := hfound dir hr
    obtain ⟨w', hexec, hne⟩ := h.createIn_of_not_complete depth hi hi0 hlook
      (Nat.pos_of_ne_zero hfree) hlt hbad cwd (List.length_replicate)
    refine hne (hclean ⟨0, fill 512 0, 0⟩ (List.replicate dirEntrySize 0) w'
      List.length_replicate ?_).freeMap
    rw [hsplit _ _ hname, hr]
    exact hexec
  · intro hcond u e w' he hexec
    by_cases hname : name = []
    · rw [filesysCreate, if_pos hname] at hexec
      cases hexec
      exact .refl w
    rw [hsplit u e hname, Option.bind_eq_some_iff] at hexec
    obtain ⟨found, hr, hexec⟩ := hexec
    have hin : ∀ dir, found = some dir → dir.sector ∈ inodes ∧ dir.sector ≠ freeMapSector :=
      fun dir hdir => hfound dir (hdir ▸ hr)
    by_cases hearly : w.mem.freeMap.freeCnt = 0 ∨ ∀ dir, found = some dir →
        (dirLookup u deny dir (lastPart name)).exec n w ≠ some (none, w)
    · rw [h.exec_createIn_early (fun dir hdir => (hin dir hdir).1) hearly hexec]
      exact .refl w
    · exfalso
      rw [not_or, not_forall] at hearly
      obtain ⟨hfree, dir, hearly⟩ := hearly
      rw [Classical.not_imp, not_not] at hearly
      obtain ⟨rfl, hlook⟩ := hearly
      obtain ⟨hi, hi0⟩ := hin dir rfl
      have hthere : NotThere n w deny cwd name dir := by
        intro u'
        rw [hres u', hr, h.exec_dirLookup hi, ← h.exec_dirLookup hi u]
        exact ⟨rfl, hlook⟩
      have hcomplete := (hcond.resolve_left hname).resolve_left hfree dir hthere
      exact absurd (h.createIn_of_complete hi hi0 hlook (Nat.pos_of_ne_zero hfree) hlt hcomplete he
        hexec) Bool.noConfusion

/-- A file of no length, in the root directory of a fresh disk of eight sectors. -/
theorem failed_create_iff_formatted :
    ∃ w, FsOk 8 [rootDirSector, freeMapSector] w ∧
      WalksIn 8 [rootDirSector, freeMapSector] w (fun _ => 0)
        (startDir (fun _ => 0) rootDirSector (dirPart [97])) (pieces [slash] (dirPart [97])) ∧
      (CreateFailsClean 8 0 w (fun _ => 0) rootDirSector [97] 0 false ↔
        [97] = ([] : List UInt8) ∨ w.mem.freeMap.freeCnt = 0 ∨
          ∀ dir, NotThere 8 w (fun _ => 0) rootDirSector [97] dir →
            CreateComplete w dir (lastPart [97]) 0 false) := by
  obtain ⟨w, -, hok, -⟩ := exists_formatted
  have hwalk : WalksIn 8 [rootDirSector, freeMapSector] w (fun _ => 0)
      (startDir (fun _ => 0) rootDirSector (dirPart [97])) (pieces [slash] (dirPart [97])) := by
    exact ⟨by decide, by decide⟩
  exact ⟨w, hok, hwalk, failed_create_iff hok hwalk (by decide) false⟩

/-- **A failed creation leaves traces.**  A thread in an empty directory, on a disk of eight sectors
of which three are free, creates a file of 40000 bytes.  The call returns false, and the sector of
the inode stays marked. -/
theorem create_fails_dirty :
    ∃ w₀ w cwd, (filesysInit ⟨0, fill 512 0, 0⟩ 1).exec 8
        ⟨freeMapInit 8, fun _ => fill 512 0⟩ = some ((), w₀) ∧
      (createInode ⟨0, fill 512 0, 0⟩ 1 rootDirSector 0 true).exec 8 w₀
        = some ((some cwd, true), w) ∧
      (∃ w', (filesysCreate ⟨0, fill 512 0, 0⟩ (fun _ => 0) 2 (List.replicate dirEntrySize 0)
          cwd [97] 40000 false).exec 8 w = some (false, w') ∧ w'.mem.freeMap ≠ w.mem.freeMap) ∧
      ¬ CreateFailsClean 8 0 w (fun _ => 0) cwd [97] 40000 false := by
  obtain ⟨w₀, w1, w, cwd, hinit, halloc, hexec, hok, hne, hlen, hthree⟩ := exists_emptyInode true
  have hlook : (dirLookup ⟨0, fill 512 0, 0⟩ (fun _ => 0) ⟨cwd, 0⟩ [97]).exec 8 w
      = some (none, w) := by
    have hempty : dirEntries w.disk cwd = [] := by
      rw [dirEntries, dirEntriesFrom, hlen]
      rfl
    rw [hok.exec_dirLookup (.head _), lookupOnDisk, if_neg (by decide)]
    rw [hempty]
    rfl
  have hbad : ¬ CreateComplete w ⟨cwd, 0⟩ [97] 40000 false := by
    rintro (⟨-, hneg⟩ | ⟨hnot, -⟩)
    · exact absurd hneg (by decide)
    · refine hnot ?_
      rw [hthree]
      exact ⟨64, by decide, by decide, by decide, by decide⟩
  obtain ⟨w', hrun, hdiff⟩ := hok.createIn_of_not_complete 0 (.head _) hne hlook
    (by omega) (by decide) hbad cwd (List.length_replicate)
  have hfail : (filesysCreate ⟨0, fill 512 0, 0⟩ (fun _ => 0) 2
      (List.replicate dirEntrySize 0) cwd [97] 40000 false).exec 8 w = some (false, w') := by
    have hsplit : (splitPath ⟨0, fill 512 0, 0⟩ (fun _ => 0) cwd [97]).exec 8 w
        = some ((some ⟨cwd, 0⟩, [97]), w) := rfl
    rw [filesysCreate, if_neg (by decide), exec_bind_of_eq hsplit]
    exact hrun
  refine ⟨w₀, w, cwd, hinit, ?_, ⟨w', hfail, hdiff⟩, fun hclean => hdiff ?_⟩
  · rw [createInode, exec_bind_of_eq halloc]
    exact (exec_bind_of_eq hexec).trans (exec_pure _)
  · exact (hclean _ _ w' List.length_replicate hfail).freeMap

end Pintos
