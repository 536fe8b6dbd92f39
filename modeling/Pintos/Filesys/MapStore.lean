import Pintos.Filesys.FileSystem

/-!
# The stored free map

`free-map.c` keeps the map of free sectors twice: as a bitmap in memory, and in the free-map file,
which `free_map_allocate` and `free_map_release` write after every change.  The file is written
through the inode layer, whose allocations the map records.

* `watched` is a call of one of the two with a check after it: the bits changed as they should, and
  `bitmap_read` of the file gives the map in memory.  `freeMapMachine` runs the file system either
  as it is or with every such call watched, those in the middle of `inode_expand` included.
* `free_map_never_lags`: along every run whose calls `Fit`, watching makes no difference, so every
  check succeeds, and a reboot after `filesys_done` finds the same map.
* `free_map_lags_when_full`: without that, a file can be given a sector of the free-map file, and
  writing the file writes over the map.

`Prog.Refines` compares the two machines, routine by routine.
-/

namespace Pintos

open Bytes Prog
open Bytes.Block (fill)

/-! ## The calls -/

/-- `free_map_release`. -/
def freeMapRelease (writeAt : Inode → (Nat → UInt8) → Int → Int → FsProg Int) (sector cnt : Nat) :
    FsProg Unit := do
  let m ← getMem
  if sector + cnt ≤ m.freeMap.bitCnt ∧ m.freeMap.all sector cnt then
    let freeMap := m.freeMap.setMultiple sector cnt false
    setMem { m with freeMap := freeMap }
    match m.freeMapFile with
    | none => .fail
    | some file =>
      let _ ← bitmapWrite writeAt freeMap file
      return ()
  else .fail

/-- `bitmap_read` of the free-map file into a bitmap like `free_map`. -/
def bitmapRead (u : Uninit) : FsProg Bitmap := do
  let m ← getMem
  let bs ← inodeReadAt u ⟨freeMapSector, 0⟩ m.freeMap.fileSize 0
  if bs.length = m.freeMap.fileSize then
    return Bitmap.ofBytes m.freeMap.bitCnt fun i => bs.getD i 0
  else .fail

namespace Bitmap

/-- The bitmaps have the same bits. -/
def Same (b c : Bitmap) : Prop := b.bitCnt = c.bitCnt ∧ ∀ i < c.bitCnt, b.bits i = c.bits i

instance (b c : Bitmap) : Decidable (b.Same c) :=
  inferInstanceAs (Decidable (b.bitCnt = c.bitCnt ∧ ∀ i < c.bitCnt, b.bits i = c.bits i))

theorem Same.refl (b : Bitmap) : b.Same b := ⟨rfl, fun _ _ => rfl⟩

/-- An allocation of `cnt` sectors, with its result, turned the first bitmap into the second: `cnt`
consecutive bits were clear and are set, or all bits are as they were. -/
def Took (cnt : Nat) (r : Option Nat) (b c : Bitmap) : Prop :=
  match r with
  | none => c.Same b
  | some sector => sector + cnt ≤ b.bitCnt ∧ (∀ i < cnt, b.bits (sector + i) = false) ∧
      c.Same (b.setMultiple sector cnt true)

instance (cnt : Nat) (r : Option Nat) (b c : Bitmap) : Decidable (Took cnt r b c) :=
  match r with
  | none => inferInstanceAs (Decidable (c.Same b))
  | some sector => inferInstanceAs (Decidable (sector + cnt ≤ b.bitCnt ∧
      (∀ i < cnt, b.bits (sector + i) = false) ∧ c.Same (b.setMultiple sector cnt true)))

/-- A release of `cnt` sectors turned the first bitmap into the second. -/
def Gave (sector cnt : Nat) (_ : Unit) (b c : Bitmap) : Prop :=
  c.Same (b.setMultiple sector cnt false)

instance (sector cnt : Nat) (r : Unit) (b c : Bitmap) : Decidable (Gave sector cnt r b c) :=
  inferInstanceAs (Decidable (c.Same (b.setMultiple sector cnt false)))

end Bitmap

/-- A call, and then the check that it changed the map as `Change` says and that the free-map file
holds the map. -/
def watched {α : Type} (u : Uninit) (Change : α → Bitmap → Bitmap → Prop)
    [∀ r b c, Decidable (Change r b c)] (call : FsProg α) : FsProg α := do
  let m ← getMem
  let r ← call
  let m' ← getMem
  let stored ← bitmapRead u
  if Change r m.freeMap m'.freeMap ∧ stored.Same m'.freeMap then return r else .fail

/-- `free_map_allocate`, watched or not. -/
def allocateCall (watch : Bool) (u : Uninit) (depth cnt : Nat) : FsProg (Option Nat) :=
  if watch then watched u (Bitmap.Took cnt) (freeMapAllocate (inodeWriteAt u depth) cnt)
  else freeMapAllocate (inodeWriteAt u depth) cnt

/-- `free_map_release`, watched or not. -/
def releaseCall (watch : Bool) (u : Uninit) (depth sector cnt : Nat) : FsProg Unit :=
  if watch then
    watched u (Bitmap.Gave sector cnt) (freeMapRelease (inodeWriteAt u depth) sector cnt)
  else freeMapRelease (inodeWriteAt u depth) sector cnt

section Via

variable (u : Uninit) (allocate : FsProg (Option Nat))

/-- `inode_write_at`, with the `free_map_allocate` it calls. -/
def inodeWriteVia (inode : Inode) (buffer : Nat → UInt8) (size offset : Int) : FsProg Int :=
  if inode.denyWriteCnt ≠ 0 then return 0
  else do
    let existLength ← inodeLength inode
    if existLength < wrap32 (offset + size) then
      let _ ← inodeExpand u allocate inode (wrap32 (offset + size - existLength))
    inodeWriteLoop u inode buffer size.toNat size offset 0

/-- `inode_create`, with the `free_map_allocate` it calls. -/
def inodeCreateVia (cwd sector : Nat) (length : Int) (isDir : Bool) : FsProg Bool :=
  if length < 0 then .fail
  else do
    writeSector sector (InodeDisk.create isDir cwd)
    inodeExpand u allocate ⟨sector, 0⟩ length

/-- `free_map_allocate` and `inode_create`, as in `filesys_create`. -/
def createVia (cwd : Nat) (length : Int) (isDir : Bool) : FsProg (Option Nat × Bool) := do
  match ← allocate with
  | none => return (none, false)
  | some sector =>
    let success ← inodeCreateVia u allocate cwd sector length isDir
    return (some sector, success)

end Via

/-! ## The machine -/

/-- A call into the file system, or directly into the free map. -/
inductive MapCall where
  /-- Allocate a sector and `inode_create` an inode in it. -/
  | create (u : Uninit) (cwd : Nat) (length : Int) (isDir : Bool)
  /-- `inode_write_at`. -/
  | writeAt (u : Uninit) (inode : Inode) (buffer : Nat → UInt8) (size offset : Int)
  /-- `free_map_allocate`. -/
  | allocate (u : Uninit) (cnt : Nat)
  /-- `free_map_release`. -/
  | release (u : Uninit) (sector cnt : Nat)

/-- What a call returns. -/
inductive MapResult where
  /-- The sector allocated, if there was one, and the result of `inode_create`. -/
  | created (sector : Option Nat) (success : Bool)
  /-- The number of bytes written. -/
  | wrote (bytes : Int)
  /-- The first of the sectors allocated. -/
  | allocated (sector : Option Nat)
  /-- Nothing. -/
  | released
deriving DecidableEq

/-- The file system on a disk of `n` sectors, with the calls of `free_map_allocate` and
`free_map_release` watched or not.  It takes only arguments of the right type and inodes that
exist. -/
def freeMapMachine (n depth : Nat) (watch : Bool) : Machine FsState MapCall MapResult where
  step st
    | .create u cwd length isDir =>
      if IsOffT length then
        ((createVia u (allocateCall watch u (depth + 1) 1) cwd length isDir).exec n st.world).map
          fun r => (.created r.1.1 r.1.2, ⟨r.2, r.1.1.toList ++ st.inodes⟩)
      else none
    | .writeAt u inode buffer size offset =>
      if inode.sector ∈ st.inodes ∧ IsOffT size ∧ IsOffT offset then
        ((inodeWriteVia u (allocateCall watch u (depth + 1) 1) inode buffer size offset).exec n
          st.world).map fun r => (.wrote r.1, ⟨r.2, st.inodes⟩)
      else none
    | .allocate u cnt =>
      ((allocateCall watch u (depth + 1) cnt).exec n st.world).map fun r =>
        (.allocated r.1, ⟨r.2, st.inodes⟩)
    | .release u sector cnt =>
      ((releaseCall watch u (depth + 1) sector cnt).exec n st.world).map fun r =>
        (.released, ⟨r.2, st.inodes⟩)

/-- The call asks for a growth that fits, it does not write the free-map file, and it releases no
sector of a file. -/
def MapCall.Fits (st : FsState) : MapCall → Prop
  | .create u cwd length isDir => FsCall.Fits st (.create u cwd length isDir)
  | .writeAt u inode buffer size offset =>
    inode.sector ≠ freeMapSector ∧ FsCall.Fits st (.writeAt u inode buffer size offset)
  | .allocate _ _ => True
  | .release _ sector cnt => ∀ i ∈ st.inodes, ∀ v : Use, v.Live (blocks (st.world.disk i)) →
      ¬ (sector ≤ v.ptr st.world.disk i (st.world.disk i) ∧
        v.ptr st.world.disk i (st.world.disk i) < sector + cnt)

/-- A call of `fsMachine`, here. -/
def FsCall.toMap : FsCall → MapCall
  | .create u cwd length isDir => .create u cwd length isDir
  | .writeAt u inode buffer size offset => .writeAt u inode buffer size offset

/-- What it returns. -/
def FsResult.toMap : FsResult → MapResult
  | .created sector success => .created sector success
  | .wrote bytes => .wrote bytes

/-- **The machine that is not watched is the file system**, with the free map's own calls added. -/
theorem freeMapMachine_step_toMap (n depth : Nat) (st : FsState) (call : FsCall) :
    (freeMapMachine n depth false).step st call.toMap
      = ((fsMachine n depth).step st call).map fun r => (r.1.toMap, r.2) := by
  cases call with
  | create u cwd length isDir =>
    have hcreate : createInode u (depth + 1) cwd length isDir
        = createVia u (allocateCall false u (depth + 1) 1) cwd length isDir := rfl
    simp only [freeMapMachine, fsMachine, FsCall.toMap]
    split
    · rw [Option.map_map]
      rfl
    · rfl
  | writeAt u inode buffer size offset =>
    have hwrite : inodeWriteAt u (depth + 2) inode buffer size offset
        = inodeWriteVia u (allocateCall false u (depth + 1) 1) inode buffer size offset := rfl
    simp only [freeMapMachine, fsMachine, FsCall.toMap]
    split
    · rw [Option.map_map]
      rfl
    · rfl

/-! ## Routine by routine -/

section Refines

variable {n : Nat} {I : FreeMap → Prop} (u : Uninit) {a b : FsProg (Option Nat)}
  (hA : Refines n I a b)

include hA

theorem refines_inodeWriteVia (inode : Inode) (buffer : Nat → UInt8) (size offset : Int) :
    Refines n I (inodeWriteVia u a inode buffer size offset)
      (inodeWriteVia u b inode buffer size offset) := by
  rw [inodeWriteVia, inodeWriteVia]
  split
  · exact .pure _
  · refine Refines.bind ((lifts_refines n I).inodeLength inode) fun length => ?_
    have hloop := (lifts_refines n I).inodeWriteLoop u inode buffer size.toNat size offset 0
    split
    · exact ((lifts_refines n I).inodeExpand u hA inode _).bind fun _ => hloop
    · exact hloop

theorem refines_inodeCreateVia (cwd sector : Nat) (length : Int) (isDir : Bool) :
    Refines n I (inodeCreateVia u a cwd sector length isDir)
      (inodeCreateVia u b cwd sector length isDir) := by
  rw [inodeCreateVia, inodeCreateVia]
  split
  · exact .fail _
  · exact Refines.bind (Silent.refines trivial) fun _ =>
      (lifts_refines n I).inodeExpand u hA _ _

theorem refines_createVia (cwd : Nat) (length : Int) (isDir : Bool) :
    Refines n I (createVia u a cwd length isDir) (createVia u b cwd length isDir) := by
  refine hA.bind fun r => ?_
  cases r with
  | none => exact .pure _
  | some sector => exact (refines_inodeCreateVia u hA cwd sector length isDir).bind fun _ => .pure _

end Refines

theorem refines_watched {α : Type} {n : Nat} {I : FreeMap → Prop} (u : Uninit)
    (Change : α → Bitmap → Bitmap → Prop) [∀ r b c, Decidable (Change r b c)] {call : FsProg α}
    (hcall : Refines n I call call) : Refines n I (watched u Change call) call := by
  intro w r hw h
  obtain ⟨m, w0, hm, h⟩ := exec_bind_eq_some h
  cases hm
  obtain ⟨r', w1, hcall', h⟩ := exec_bind_eq_some h
  obtain ⟨m', w2, hm, h⟩ := exec_bind_eq_some h
  cases hm
  obtain ⟨stored, w3, hread, h⟩ := exec_bind_eq_some h
  obtain ⟨m', w2, hm, hread⟩ := exec_bind_eq_some hread
  cases hm
  obtain ⟨bs, w4, hbs, hread⟩ := exec_bind_eq_some hread
  -- reading the file changes nothing
  obtain rfl := (reads_inodeReadAt u _ _ _).exec hbs
  split at hread
  · cases hread
    split at h
    · cases h
      exact hcall w _ hw hcall'
    · cases h
  · cases hread

/-! ## Bits past the end -/

/-- No bit past the end of the free map is set. -/
def PastClear (m : FreeMap) : Prop := ∀ i, m.freeMap.bitCnt ≤ i → m.freeMap.bits i = false

theorem pastClear_setMultiple {m : FreeMap} (h : PastClear m) {start cnt : Nat} {value : Bool}
    (hle : value = true → start + cnt ≤ m.freeMap.bitCnt) :
    PastClear { m with freeMap := m.freeMap.setMultiple start cnt value } := by
  intro i hi
  have hi' : m.freeMap.bitCnt ≤ i := hi
  show (if start ≤ i ∧ i < start + cnt then value else m.freeMap.bits i) = false
  split
  · rw [← Bool.not_eq_true]
    intro hv
    have := hle hv
    omega
  · exact h i hi'

section PastClear

variable {n : Nat} {writeAt : Inode → (Nat → UInt8) → Int → Int → FsProg Int} {I : FreeMap → Prop}

theorem refines_bitmapWrite
    (hw : ∀ inode buffer size offset, Refines n I
      (writeAt inode buffer size offset) (writeAt inode buffer size offset)) (b : Bitmap)
    (file : Inode) : Refines n I (bitmapWrite writeAt b file) (bitmapWrite writeAt b file) := by
  refine Refines.bind ?_ fun _ => .pure _
  refine Refines.bind (((lifts_refines n I).readSector _).bind fun _ => .pure _) fun dir => ?_
  split
  · exact .pure _
  · exact hw _ _ _ _

/-- Setting the bits of sectors that were found free keeps `I`, and so does clearing them again. -/
def KeptByScan (I : FreeMap → Prop) : Prop :=
  ∀ m cnt idx, I m → m.freeMap.scan 0 cnt false = some idx →
    I { m with freeMap := m.freeMap.setMultiple idx cnt true } ∧
      ∀ m', I m' → I { m' with freeMap := m'.freeMap.setMultiple idx cnt false }

theorem refines_freeMapAllocate (hI : KeptByScan I)
    (hw : ∀ inode buffer size offset, Refines n I (writeAt inode buffer size offset)
      (writeAt inode buffer size offset)) (cnt : Nat) :
    Refines n I (freeMapAllocate writeAt cnt) (freeMapAllocate writeAt cnt) := by
  refine Refines.getMem_bind fun m hm => ?_
  rcases hs : m.freeMap.scan 0 cnt false with _ | idx
  · simp only [Bitmap.scanAndFlip, hs]
    exact .pure _
  · simp only [Bitmap.scanAndFlip, hs]
    obtain ⟨hset, hclear⟩ := hI m cnt idx hm hs
    refine Refines.bind (.setMem hset) fun _ => ?_
    split
    · exact .pure _
    · refine (refines_bitmapWrite hw _ _).bind fun ok => ?_
      split
      · exact .pure _
      · refine Refines.getMem_bind fun m' hm' => ?_
        exact Refines.bind (.setMem (hclear m' hm')) fun _ => .pure _

theorem refines_inodeWriteAt (hI : KeptByScan I) (u : Uninit) (depth : Nat) (inode : Inode)
    (buffer : Nat → UInt8) (size offset : Int) :
    Refines n I (inodeWriteAt u depth inode buffer size offset)
      (inodeWriteAt u depth inode buffer size offset) := by
  induction depth generalizing inode buffer size offset with
  | zero => exact .fail _
  | succ depth ih =>
    exact refines_inodeWriteVia u (refines_freeMapAllocate hI ih 1) inode buffer size offset

theorem keptByScan_pastClear : KeptByScan PastClear := by
  intro m cnt idx hm hs
  obtain ⟨-, hle, -⟩ := Bitmap.scan_eq_some hs
  exact ⟨pastClear_setMultiple hm fun _ => hle,
    fun m' hm' => pastClear_setMultiple hm' fun h => by cases h⟩

theorem pastClear_freeMapRelease (hw : ∀ inode buffer size offset, Refines n PastClear
      (writeAt inode buffer size offset) (writeAt inode buffer size offset)) (sector cnt : Nat) :
    Refines n PastClear (freeMapRelease writeAt sector cnt)
      (freeMapRelease writeAt sector cnt) := by
  refine Refines.getMem_bind fun m hm => ?_
  split
  · refine Refines.bind (.setMem (pastClear_setMultiple hm fun h => by cases h)) fun _ => ?_
    split
    · exact .fail _
    · exact (refines_bitmapWrite hw _ _).bind fun _ => .pure _
  · exact .fail _

section

variable (u : Uninit)
include u

theorem pastClear_inodeWriteAt (depth : Nat) (inode : Inode) (buffer : Nat → UInt8)
    (size offset : Int) : Refines n PastClear (inodeWriteAt u depth inode buffer size offset)
      (inodeWriteAt u depth inode buffer size offset) :=
  refines_inodeWriteAt keptByScan_pastClear u depth inode buffer size offset

theorem pastClear_allocate (depth cnt : Nat) :
    Refines n PastClear (freeMapAllocate (inodeWriteAt u depth) cnt)
      (freeMapAllocate (inodeWriteAt u depth) cnt) :=
  refines_freeMapAllocate keptByScan_pastClear (pastClear_inodeWriteAt u depth) cnt

theorem pastClear_release (depth sector cnt : Nat) :
    Refines n PastClear (freeMapRelease (inodeWriteAt u depth) sector cnt)
      (freeMapRelease (inodeWriteAt u depth) sector cnt) :=
  pastClear_freeMapRelease (pastClear_inodeWriteAt u depth) sector cnt

theorem refines_allocateCall (depth cnt : Nat) :
    Refines n PastClear (allocateCall true u depth cnt) (allocateCall false u depth cnt) :=
  refines_watched u _ (pastClear_allocate u depth cnt)

theorem refines_releaseCall (depth sector cnt : Nat) :
    Refines n PastClear (releaseCall true u depth sector cnt)
      (releaseCall false u depth sector cnt) :=
  refines_watched u _ (pastClear_release u depth sector cnt)

theorem pastClear_inodeCreate (depth cwd sector : Nat) (length : Int) (isDir : Bool) :
    Refines n PastClear (inodeCreate u depth cwd sector length isDir)
      (inodeCreate u depth cwd sector length isDir) :=
  refines_inodeCreateVia u (pastClear_allocate u depth 1) cwd sector length isDir

theorem pastClear_doFormat (depth : Nat) :
    Refines n PastClear (doFormat u depth) (doFormat u depth) := by
  refine Refines.bind ?_ fun _ => ?_
  · refine Refines.getMem_bind fun m _ => ?_
    refine (pastClear_inodeCreate u depth _ _ _ _).bind fun ok => ?_
    split
    · refine Refines.getMem_bind fun m' hm' => ?_
      refine Refines.bind (.setMem hm') fun _ => ?_
      refine (refines_bitmapWrite (pastClear_inodeWriteAt u depth) _ _).bind fun ok => ?_
      split
      · exact .pure _
      · exact .fail _
    · exact .fail _
  · refine (pastClear_inodeCreate u depth _ _ _ _).bind fun ok => ?_
    split
    · exact .pure _
    · exact .fail _

end

end PastClear

theorem pastClear_freeMapInit {n : Nat} (hn : 2 ≤ n) : PastClear (freeMapInit n) := by
  intro i hi
  have hi' : n ≤ i := hi
  show Function.update (Function.update (fun _ => false) 0 true) 1 true i = false
  rw [Function.update_of_ne (by omega), Function.update_of_ne (by omega)]

/-! ## The checks succeed -/

/-- The free-map file is open and holds the map. -/
def MapOpen (w : FsWorld) : Prop :=
  w.mem.freeMapFile = some ⟨freeMapSector, 0⟩ ∧ FsInv.Stored w

section Checks

variable {n : Nat} {inodes : List Nat} {w w' : FsWorld} {m : FreeMap} {d : Disk}

theorem exec_bitmapRead (u : Uninit) (h : FsOk n inodes w) (hmap : MapOpen w) :
    ∃ b : Bitmap, (bitmapRead u).exec n w = some (b, w) ∧ b.bitCnt = n ∧
      ∀ i, b.bits i = (decide (i < n) && w.mem.freeMap.bits i) := by
  obtain ⟨bs, hread, hlen, hbits⟩ := exec_readMap u h hmap.1 hmap.2 w.mem h.bitCnt
  refine ⟨Bitmap.ofBytes w.mem.freeMap.bitCnt fun i => bs.getD i 0, ?_, h.bitCnt, hbits⟩
  refine (exec_bind_of_eq exec_getMem).trans ((exec_bind_of_eq hread).trans ?_)
  rw [if_pos hlen, exec_pure]

variable {b : Bitmap}

theorem eq_freeMap_of_read (hcnt : m.freeMap.bitCnt = n) (hpast : PastClear m) (hb : b.bitCnt = n)
    (hbits : ∀ i, b.bits i = (decide (i < n) && m.freeMap.bits i)) : b = m.freeMap := by
  have hsame : b.bits = m.freeMap.bits := by
    funext i
    rw [hbits]
    by_cases hi : i < n
    · rw [decide_eq_true hi, Bool.true_and]
    · rw [decide_eq_false hi, Bool.false_and, hpast i (by omega)]
  obtain ⟨c, bits⟩ := b
  dsimp only at hb hsame
  rw [hb, hsame, ← hcnt]

/-- **A check succeeds** after a call that changed the map as it should and stored it. -/
theorem exec_watched {α : Type} (u : Uninit) (Change : α → Bitmap → Bitmap → Prop)
    [∀ r b c, Decidable (Change r b c)] {call : FsProg α} {r : α}
    (hcall : call.exec n w = some (r, w')) (hchange : Change r w.mem.freeMap w'.mem.freeMap)
    (h : FsOk n inodes w') (hmap : MapOpen w') :
    (watched u Change call).exec n w = some (r, w') := by
  obtain ⟨b, hread, hcnt, hbits⟩ := exec_bitmapRead u h hmap
  have hsame : b.Same w'.mem.freeMap := by
    refine ⟨hcnt.trans h.bitCnt.symm, fun i hi => ?_⟩
    rw [hbits, decide_eq_true (h.bitCnt ▸ hi), Bool.true_and]
  refine (exec_bind_of_eq exec_getMem).trans ((exec_bind_of_eq hcall).trans ?_)
  refine (exec_bind_of_eq exec_getMem).trans ((exec_bind_of_eq hread).trans ?_)
  rw [if_pos ⟨hchange, hsame⟩, exec_pure]

theorem allocates_allocateCall (u : Uninit) (depth : Nat) :
    FsInv.Allocates n inodes (allocateCall true u (depth + 1) 1) MapOpen where
  full h hmap hfull := exec_watched u _ (h.exec_freeMapAllocate_of_full u depth hfull)
    (Bitmap.Same.refl _) h.restrict hmap
  pos {m d hdr L} h hmap hpos := by
    obtain ⟨s, d', halloc, ha⟩ := h.exec_freeMapAllocate_of_pos u depth hpos
    refine ⟨s, d', ?_, ha⟩
    refine exec_watched u _ halloc ⟨?_, fun i hi => ?_, ?_⟩ (ha.inv.mark s).restrict
      ⟨hmap.1, ha.stored fun hnone => ?_⟩
    · exact h.bitCnt.symm ▸ ha.lt
    · rw [show s + i = s by omega]
      exact ha.free
    · rw [Bitmap.setMultiple_one]
      exact Bitmap.Same.refl _
    · rw [show m.freeMapFile = _ from hmap.1] at hnone
      cases hnone
  grows hgrow hmap := by
    refine ⟨hgrow.file.trans hmap.1, hgrow.stored ?_ hmap.2⟩
    rw [hmap.1]
    nofun

theorem FsInv.remap {hdr : Nat → Sector} {L : Nat → Use → Prop} (h : FsInv n inodes ⟨m, d⟩ hdr L)
    (hcnt : b.bitCnt = m.freeMap.bitCnt)
    (hused : ∀ j v, L j v → b.bits (v.ptr d j (hdr j)) = true) :
    FsInv n inodes ⟨{ m with freeMap := b }, d⟩ hdr L where
  layout := ⟨h.layout.parent, h.layout.lt, hused, h.layout.inj⟩
  bitCnt := hcnt.trans h.bitCnt
  small := h.small
  inode := h.inode
  disk := h.disk
  length := h.length
  map file hf := by
    have hsize : b.fileSize = m.freeMap.fileSize := by rw [Bitmap.fileSize, hcnt, Bitmap.fileSize]
    rw [hsize]
    exact h.map file hf

theorem exec_bitmapWrite_remap (h : FsOk n inodes ⟨m, d⟩)
    (hfile : m.freeMapFile = some ⟨freeMapSector, 0⟩) (hcnt : b.bitCnt = m.freeMap.bitCnt)
    (hused : ∀ j v, OnDisk inodes d j v → b.bits (v.ptr d j (d j)) = true) (u : Uninit)
    (depth : Nat) :
    ∃ d', (bitmapWrite (inodeWriteAt u (depth + 1)) b ⟨freeMapSector, 0⟩).exec n
        ⟨{ m with freeMap := b }, d⟩ = some (true, ⟨{ m with freeMap := b }, d'⟩) ∧
      FsOk n inodes ⟨{ m with freeMap := b }, d'⟩ ∧ MapOpen ⟨{ m with freeMap := b }, d'⟩ := by
  have hinv := h.remap hcnt hused
  obtain ⟨-, hmem, -⟩ := h.map _ hfile
  obtain ⟨d', hwrite, honly, hstored⟩ := hinv.exec_bitmapWrite hfile u depth
  exact ⟨d', hwrite, (hinv.onlyData hmem honly).restrict, hfile, hstored⟩

/-- **`free_map_allocate`** of any number of sectors. -/
theorem exec_allocateCall (h : FsOk n inodes w) (hmap : MapOpen w) (u : Uninit) (depth cnt : Nat) :
    ∃ r w', (allocateCall true u (depth + 1) cnt).exec n w = some (r, w') ∧ FsOk n inodes w' ∧
      MapOpen w' := by
  obtain ⟨⟨freeMap, file⟩, d⟩ := w
  obtain rfl : file = some ⟨freeMapSector, 0⟩ := hmap.1
  have hexec : (freeMapAllocate (inodeWriteAt u (depth + 1)) cnt).exec n
      ⟨⟨freeMap, some ⟨freeMapSector, 0⟩⟩, d⟩ = _ := exec_bind_of_eq exec_getMem
  rcases hs : freeMap.scan 0 cnt false with _ | idx
  · simp only [Bitmap.scanAndFlip, hs] at hexec
    exact ⟨none, _, exec_watched u _ hexec (Bitmap.Same.refl _) h hmap, h, hmap⟩
  · obtain ⟨-, hle, hfree⟩ := Bitmap.scan_eq_some hs
    obtain ⟨d', hwrite, hok', hmap'⟩ := exec_bitmapWrite_remap h rfl
      (b := freeMap.setMultiple idx cnt true) rfl (fun j v hv => by
        show (if _ then true else freeMap.bits _) = true
        rw [show freeMap.bits _ = true from h.layout.used j v hv, ite_self]) u depth
    simp only [Bitmap.scanAndFlip, hs, Option.map_some, Bool.not_false] at hexec
    rw [exec_bind_of_eq (exec_setMem _), exec_bind_of_eq hwrite, if_pos rfl] at hexec
    exact ⟨some idx, _, exec_watched u _ hexec ⟨hle, hfree, Bitmap.Same.refl _⟩ hok' hmap', hok',
      hmap'⟩

/-- **`free_map_release`** of sectors that no file has, unless its assertion fails. -/
theorem exec_releaseCall (h : FsOk n inodes w) (hmap : MapOpen w) (u : Uninit)
    (depth sector cnt : Nat) (hfree : ∀ j v, OnDisk inodes w.disk j v →
      ¬ (sector ≤ v.ptr w.disk j (w.disk j) ∧ v.ptr w.disk j (w.disk j) < sector + cnt)) :
    ((releaseCall true u (depth + 1) sector cnt).exec n w = none ∧
        (releaseCall false u (depth + 1) sector cnt).exec n w = none) ∨
      ∃ w', (releaseCall true u (depth + 1) sector cnt).exec n w = some ((), w') ∧
        FsOk n inodes w' ∧ MapOpen w' := by
  obtain ⟨⟨freeMap, file⟩, d⟩ := w
  obtain rfl : file = some ⟨freeMapSector, 0⟩ := hmap.1
  have hexec : (freeMapRelease (inodeWriteAt u (depth + 1)) sector cnt).exec n
      ⟨⟨freeMap, some ⟨freeMapSector, 0⟩⟩, d⟩ = _ := exec_bind_of_eq exec_getMem
  by_cases hassert : sector + cnt ≤ freeMap.bitCnt ∧ freeMap.all sector cnt = true
  · obtain ⟨d', hwrite, hok', hmap'⟩ := exec_bitmapWrite_remap h rfl
      (b := freeMap.setMultiple sector cnt false) rfl (fun j v hv => by
        show (if _ then false else freeMap.bits _) = true
        rw [if_neg (hfree j v hv)]
        exact h.layout.used j v hv) u depth
    rw [if_pos hassert, exec_bind_of_eq (exec_setMem _)] at hexec
    rw [exec_bind_of_eq hwrite] at hexec
    exact .inr ⟨_, exec_watched u _ hexec (Bitmap.Same.refl _) hok' hmap', hok', hmap'⟩
  · rw [if_neg hassert, exec_fail] at hexec
    refine .inl ⟨?_, hexec⟩
    refine (exec_bind_of_eq exec_getMem).trans ?_
    rw [exec_bind, hexec, Option.bind_none]

theorem MapOpen.ne_none (h : MapOpen w) : w.mem.freeMapFile ≠ none := by
  rw [h.1]
  nofun

theorem MapOpen.extended {i : Nat} (h : MapOpen w) (hext : Extended inodes i w w') : MapOpen w' :=
  ⟨hext.file.trans h.1, hext.stored h.ne_none h.2⟩

theorem MapOpen.of_bytes {d' : Disk} (h : FsOk n inodes ⟨m, d⟩) (hmap : MapOpen ⟨m, d⟩)
    (hbytes : ∀ pos < (InodeDisk.length (d freeMapSector)).toNat,
      fileByte d' freeMapSector pos = fileByte d freeMapSector pos) : MapOpen ⟨m, d'⟩ := by
  refine ⟨hmap.1, fun pos hpos => ?_⟩
  obtain ⟨-, -, -, hsize⟩ := h.map _ hmap.1
  rw [← hmap.2 pos hpos]
  exact hbytes pos (Int.lt_toNat.mpr (Int.lt_of_lt_of_le (Int.ofNat_lt.mpr hpos) hsize))

end Checks

/-! ## The invariant along runs -/

/-- The invariant of the file system, with the map stored. -/
structure MapInv (n : Nat) (inodes : List Nat) (w : FsWorld) : Prop where
  ok : FsOk n inodes w
  map : MapOpen w
  past : PastClear w.mem

section Runs

variable {n depth : Nat} {inodes : List Nat} {w : FsWorld}

/-- **`inode_expand`**, watched, by a growth that fits. -/
theorem agree_inodeExpand (h : MapInv n inodes w) (inode : Inode) (hi : inode.sector ∈ inodes)
    (u : Uninit) (depth : Nat) (ext : Int) (h0 : 0 ≤ ext) (h1 : ext < 2 ^ 31)
    (hfits : GrowFits (newSectors (InodeDisk.length (w.disk inode.sector)) ext)
      (blocks (w.disk inode.sector)) w.mem.freeMap.freeCnt) :
    Agree n (inodeExpand u (allocateCall true u (depth + 1) 1) inode ext)
      (inodeExpand u (allocateCall false u (depth + 1) 1) inode ext) w
      fun _ w' => MapInv n inodes w' := by
  obtain ⟨r, w', hexec, hexp⟩ := h.ok.exec_inodeExpand_of_allocates inode hi u
    (allocates_allocateCall u depth) h.map ext h0 h1 hfits
  exact ((lifts_refines n _).inodeExpand u (refines_allocateCall u _ _) inode ext).agree h.past
    hexec fun hpast => ⟨hexp.ok, h.map.extended hexp.extended, hpast⟩

/-- **Creating an inode**, watched, with a length that fits. -/
theorem agree_createVia (h : MapInv n inodes w) (u : Uninit) (depth cwd : Nat) {length : Int}
    (h1 : length < 2 ^ 31) (isDir : Bool) (hfits : 0 < w.mem.freeMap.freeCnt →
      GrowFits (newSectors 0 length) 0 (w.mem.freeMap.freeCnt - 1)) :
    Agree n (createVia u (allocateCall true u (depth + 1) 1) cwd length isDir)
      (createVia u (allocateCall false u (depth + 1) 1) cwd length isDir) w
      fun r w' => MapInv n (r.1.toList ++ inodes) w' := by
  have hrefines := refines_allocateCall (n := n) u (depth + 1) 1
  obtain ⟨m, d⟩ := w
  rcases Nat.eq_zero_or_pos m.freeMap.freeCnt with hfull | hpos
  · have hexec : (createVia u (allocateCall true u (depth + 1) 1) cwd length isDir).exec n ⟨m, d⟩
        = some ((none, false), ⟨m, d⟩) :=
      exec_bind_of_eq ((allocates_allocateCall u depth).full h.ok h.map hfull)
    exact (refines_createVia u hrefines cwd length isDir).agree h.past hexec fun _ => h
  · obtain ⟨s, d', halloc, ha⟩ := (allocates_allocateCall u depth).pos h.ok h.map hpos
    refine Agree.bind (P := fun r w' => r = some s ∧
        w' = ⟨{ m with freeMap := m.freeMap.mark s }, d'⟩ ∧ PastClear w'.mem)
      (hrefines.agree h.past halloc fun hpast => ⟨rfl, rfl, hpast⟩) ?_
    rintro _ _ ⟨rfl, rfl, hpast⟩
    refine Agree.bind (P := fun _ w' => MapInv n (s :: inodes) w') ?_ fun _ w' hw' =>
      ⟨rfl, fun r w'' hr => ?_⟩
    · rw [inodeCreateVia, inodeCreateVia]
      split
      · exact .fail
      · -- the new inode is empty, and the free-map file does not notice it
        have hmark : (m.freeMap.mark s).bits s = true := by simp [Bitmap.mark]
        obtain ⟨hok, -, -, hbytes⟩ := (ha.inv.mark s).restrict.addInode ha.lt hmark
          (fun j v hv => ha.inv.onDisk.ne_of_free ha.free hv) (FsInv.length_create _ _)
        obtain ⟨-, hmem, -⟩ := h.ok.map _ h.map.1
        have hmap := MapOpen.of_bytes (ha.inv.mark s).restrict ⟨h.map.1, ha.stored h.map.ne_none⟩
          (hbytes _ hmem)
        have hcnt := Bitmap.freeCnt_mark (h.ok.bitCnt.symm ▸ ha.lt) ha.free
        refine Agree.bind (P := fun _ w' => MapInv n (s :: inodes) w' ∧
            InodeDisk.length (w'.disk s) = 0 ∧ w'.mem.freeMap.freeCnt + 1 = m.freeMap.freeCnt)
          ⟨rfl, fun _ w' hw' => ?_⟩ ?_
        · rw [exec_writeSector ha.lt, Option.some_inj, Prod.mk.injEq] at hw'
          rw [← hw'.2]
          refine ⟨⟨hok, hmap, hpast⟩, ?_, hcnt⟩
          dsimp only
          rw [Function.update_self, FsInv.length_create]
        · rintro _ w' ⟨hinv, hlen, hfree⟩
          refine agree_inodeExpand hinv ⟨s, 0⟩ (.head _) u depth length (by omega) h1 ?_
          rw [blocks, hlen, show w'.mem.freeMap.freeCnt = m.freeMap.freeCnt - 1 by omega]
          exact hfits hpos
    · rw [exec_pure, Option.some_inj, Prod.mk.injEq] at hr
      rw [← hr.1, ← hr.2]
      exact hw'

/-- **`inode_write_at`**, watched, with a growth that fits, of any file but the free map's. -/
theorem agree_inodeWriteVia (h : MapInv n inodes w) {inode : Inode} (hi : inode.sector ∈ inodes)
    (hi0 : inode.sector ≠ freeMapSector) (u : Uninit) (depth : Nat) (buffer : Nat → UInt8)
    {size offset : Int} (hoff : IsOffT offset)
    (hfits : inode.denyWriteCnt = 0 →
      InodeDisk.length (w.disk inode.sector) < wrap32 (offset + size) →
      GrowFits (newSectors (InodeDisk.length (w.disk inode.sector))
          (FsInv.writeExt (InodeDisk.length (w.disk inode.sector)) size offset))
        (blocks (w.disk inode.sector)) w.mem.freeMap.freeCnt) :
    Agree n (inodeWriteVia u (allocateCall true u (depth + 1) 1) inode buffer size offset)
      (inodeWriteVia u (allocateCall false u (depth + 1) 1) inode buffer size offset) w
      fun _ w' => MapInv n inodes w' := by
  -- the loop after the growth
  have hloop : ∀ w1, MapInv n inodes w1 →
      Agree n (inodeWriteLoop u inode buffer size.toNat size offset 0)
        (inodeWriteLoop u inode buffer size.toNat size offset 0) w1
        fun _ w' => MapInv n inodes w' := by
    intro w1 h1
    refine ⟨rfl, fun r w' hexec => ?_⟩
    obtain ⟨d', rfl, honly⟩ := h1.ok.inodeWriteLoop_onlyData hi u buffer hoff hexec
    obtain ⟨-, hmem, -⟩ := h1.ok.map _ h1.map.1
    exact ⟨(h1.ok.onlyData hi honly).restrict, h1.map.of_bytes h1.ok fun pos hpos =>
      h1.ok.fileByte_of_onlyData hi honly hmem hi0.symm hpos, h1.past⟩
  rw [inodeWriteVia, inodeWriteVia]
  by_cases hdeny : inode.denyWriteCnt = 0
  · have hopen : ¬ inode.denyWriteCnt ≠ 0 := by simpa using hdeny
    rw [if_neg hopen, if_neg hopen]
    refine Agree.bind
      (P := fun length w' => length = InodeDisk.length (w.disk inode.sector) ∧ w' = w)
      ⟨rfl, fun length w' hlen => ?_⟩ ?_
    · rw [h.ok.exec_inodeLength hi, Option.some_inj, Prod.mk.injEq] at hlen
      exact ⟨hlen.1.symm, hlen.2.symm⟩
    · intro length w' hlength
      rw [hlength.1, hlength.2]
      split
      · rename_i hgrow
        have hmem := wrap32_mem (offset + size)
        have hext := FsInv.writeExt_eq (h.ok.length _ hi).1 hgrow
        have hlen := (h.ok.length _ hi).1
        have hexpand := agree_inodeExpand h inode hi u depth (FsInv.writeExt _ size offset)
          (by omega) (by omega) (hfits hdeny hgrow)
        exact hexpand.bind fun _ w1 h1 => hloop w1 h1
      · exact hloop _ h
  · rw [if_pos hdeny, if_pos hdeny]
    refine ⟨rfl, fun r w' hr => ?_⟩
    rw [exec_pure, Option.some_inj, Prod.mk.injEq] at hr
    rw [← hr.2]
    exact h

variable {st st' : FsState}

theorem Prog.Agree.step {α : Type} {p q : FsProg α} {inodes : α → List Nat}
    (h : Agree n p q w fun a w' => MapInv n (inodes a) w') (f : α → MapResult) :
    (p.exec n w).map (fun r => (f r.1, (⟨r.2, inodes r.1⟩ : FsState)))
        = (q.exec n w).map (fun r => (f r.1, (⟨r.2, inodes r.1⟩ : FsState))) ∧
      ∀ r (st' : FsState), (q.exec n w).map (fun r => (f r.1, (⟨r.2, inodes r.1⟩ : FsState)))
        = some (r, st') → MapInv n st'.inodes st'.world := by
  refine ⟨by rw [h.1], fun r st' hstep => ?_⟩
  obtain ⟨⟨a, w'⟩, hexec, heq⟩ := Option.map_eq_some_iff.mp hstep
  rw [Prod.mk.injEq] at heq
  rw [← heq.2]
  exact h.2 a w' hexec

/-- **Watching makes no difference**, for a call that fits, and the invariant stays. -/
theorem mapInv_step {call : MapCall} (h : MapInv n st.inodes st.world) (hfits : call.Fits st) :
    (freeMapMachine n depth true).step st call = (freeMapMachine n depth false).step st call ∧
      ∀ r st', (freeMapMachine n depth false).step st call = some (r, st') →
        MapInv n st'.inodes st'.world := by
  cases call with
  | create u cwd length isDir =>
    simp only [freeMapMachine]
    split
    · rename_i hoff
      exact (agree_createVia h u depth cwd hoff.2 isDir hfits).step fun r => .created r.1 r.2
    · exact ⟨rfl, fun _ _ hstep => nomatch hstep⟩
  | writeAt u inode buffer size offset =>
    simp only [freeMapMachine]
    split
    · rename_i hargs
      exact (agree_inodeWriteVia h hargs.1 hfits.1 u depth buffer hargs.2.2 hfits.2).step .wrote
    · exact ⟨rfl, fun _ _ hstep => nomatch hstep⟩
  | allocate u cnt =>
    obtain ⟨r, w', hexec, hok, hmap⟩ := exec_allocateCall h.ok h.map u depth cnt
    have hagree := (refines_allocateCall u (depth + 1) cnt).agree
      (Q := fun _ w' => MapInv n st.inodes w') h.past hexec fun hpast => ⟨hok, hmap, hpast⟩
    exact hagree.step .allocated
  | release u sector cnt =>
    rcases exec_releaseCall h.ok h.map u depth sector cnt
      (fun j v hv => hfits j hv.1 v hv.2) with ⟨htrue, hfalse⟩ | ⟨w', hexec, hok, hmap⟩
    · have hagree : Agree n (releaseCall true u (depth + 1) sector cnt)
          (releaseCall false u (depth + 1) sector cnt) st.world
          fun _ w' => MapInv n st.inodes w' :=
        ⟨htrue.trans hfalse.symm, fun _ _ hexec => nomatch hfalse.symm.trans hexec⟩
      exact hagree.step fun _ => .released
    · have hagree := (refines_releaseCall u (depth + 1) sector cnt).agree
        (Q := fun _ w' => MapInv n st.inodes w') h.past hexec fun hpast => ⟨hok, hmap, hpast⟩
      exact hagree.step fun _ => .released

theorem mapInv_of_formatted (hn : Formattable n) (h : Formatted n depth st) :
    MapInv n st.inodes st.world := by
  have hok := fsOk_of_formatted hn h
  obtain ⟨u, d, hinit, hinodes⟩ := h
  obtain ⟨⟨m, d'⟩, hformat, hok', hfile, hstored, -⟩ := exec_doFormat u depth hn.1 hn.2 d
  obtain ⟨b, hopen, hcnt, hbits⟩ := exec_freeMapOpen u hok' hfile hstored m hok'.bitCnt
  have hblank : PastClear (freeMapInit n) := pastClear_freeMapInit (Nat.le_trans (by decide) hn.1)
  have hpast : PastClear m := (pastClear_doFormat u (depth + 1) _ _ hblank hformat).2
  obtain rfl : b = m.freeMap := eq_freeMap_of_read hok'.bitCnt hpast hcnt hbits
  have hworld : st.world = ⟨⟨m.freeMap, some ⟨freeMapSector, 0⟩⟩, d'⟩ := by
    have := hinit.symm.trans ((exec_bind_of_eq hformat).trans hopen)
    rw [Option.some_inj, Prod.mk.injEq] at this
    exact this.2
  rw [hworld] at hok ⊢
  exact ⟨hok, ⟨rfl, hstored⟩, hpast⟩

theorem mapInv_of_reach (hn : Formattable n)
    (h : (freeMapMachine n depth false).Reach (Formatted n depth) (fun st call => call.Fits st)
      st) :
    MapInv n st.inodes st.world :=
  h.invariant (fun _ hst => mapInv_of_formatted hn hst)
    fun _ _ _ _ hinv hfits hstep => (mapInv_step hinv hfits).2 _ _ hstep

end Runs

/-! ## The map does not lag -/

section Lag

variable {n depth : Nat} {st : FsState}

/-- The free-map file keeps up with the free map. -/
structure NeverLags (n depth : Nat) (st : FsState) : Prop where
  /-- Every call does the same with and without a check after each `free_map_allocate` and
  `free_map_release` that it makes. -/
  watched : ∀ call, MapCall.Fits st call →
    (freeMapMachine n depth true).step st call = (freeMapMachine n depth false).step st call
  /-- Through any cache that stands for the disk, `bitmap_read` of the file gives the map. -/
  read : ∀ (u : Uninit) (fresh : Nat → Sector) (c : CacheState), c.Sim st.world.disk →
    ∃ c', (bitmapRead u).execCached fresh n ⟨st.world.mem, c⟩
      = some (st.world.mem.freeMap, ⟨st.world.mem, c'⟩)
  /-- After `filesys_done`, which flushes the cache, a reboot restores the map. -/
  restored : ∀ (u : Uninit) (fresh : Nat → Sector) (c : CacheState), c.Sim st.world.disk →
    ∃ c', (freeMapOpen u).execCached fresh n
        ⟨freeMapInit n, CacheState.cacheInit c.destroyCacheList.disk⟩
      = some ((), ⟨st.world.mem, c'⟩)

theorem execCached_of_exec {α : Type} {p : FsProg α} {m m' : FreeMap} {d d' : Disk} {a : α}
    (fresh : Nat → Sector) {c : CacheState} (hc : c.Sim d)
    (h : p.exec n ⟨m, d⟩ = some (a, ⟨m', d'⟩)) :
    ∃ c', p.execCached fresh n ⟨m, c⟩ = some (a, ⟨m', c'⟩) := by
  have hsim := execCached_sim fresh n p m hc
  rw [h] at hsim
  rcases hp : p.execCached fresh n ⟨m, c⟩ with _ | ⟨a', m'', c'⟩
  · rw [hp] at hsim
    cases hsim
  · rw [hp] at hsim
    cases hsim with
    | some hr =>
      dsimp only at hr
      rw [hr.1, hr.2.1]
      exact ⟨c', rfl⟩

theorem neverLags_of_mapInv (h : MapInv n st.inodes st.world) : NeverLags n depth st where
  watched _ hfits := (mapInv_step h hfits).1
  read u fresh c hc := by
    obtain ⟨b, hread, hcnt, hbits⟩ := exec_bitmapRead u h.ok h.map
    rw [eq_freeMap_of_read h.ok.bitCnt h.past hcnt hbits] at hread
    exact execCached_of_exec fresh hc hread
  restored u fresh c hc := by
    obtain ⟨b, hopen, hcnt, hbits⟩ := exec_freeMapOpen u h.ok h.map.1 h.map.2 (freeMapInit n) rfl
    rw [eq_freeMap_of_read h.ok.bitCnt h.past hcnt hbits, ← h.map.1] at hopen
    refine execCached_of_exec fresh ?_ hopen
    rw [CacheState.destroyCacheList_sim hc]
    exact CacheState.sim_cacheInit _

/-- **The stored free map never lags.**  In every state reached from a formatted disk by calls that
fit, the free-map file holds the free map, after every call and after each allocation and release
inside one; an allocation sets just the bits of the sectors it reports or none, and a reboot finds
the same map. -/
theorem free_map_never_lags (hn : Formattable n)
    (h : (freeMapMachine n depth false).Reach (Formatted n depth) (fun st call => call.Fits st)
      st) :
    NeverLags n depth st :=
  neverLags_of_mapInv (mapInv_of_reach hn h)

theorem free_map_never_lags_created :
    ∃ st r st', Formatted 8 0 st ∧
      (freeMapMachine 8 0 false).step st (.create ⟨0, fill 512 0, 0⟩ rootDirSector 3 false)
        = some (r, st') ∧ NeverLags 8 0 st' := by
  obtain ⟨st, r, st', hst, hfits, hstep⟩ := exists_created_file
  have hstep' := freeMapMachine_step_toMap 8 0 st (.create ⟨0, fill 512 0, 0⟩ rootDirSector 3 false)
  rw [hstep] at hstep'
  have hfits' : MapCall.Fits st (.create ⟨0, fill 512 0, 0⟩ rootDirSector 3 false) := hfits
  exact ⟨st, _, st', hst, hstep', free_map_never_lags (by decide) (.step (.init hst) hfits' hstep')⟩

/-- **A full disk breaks the stored map.**  On a fresh disk of five sectors the free-map file has
its byte in sector 2, and a file of one byte gets the last sector for its inode and, with an
uninitialised `alloc_sec` of 2, that same sector for its byte.  The file is written, an allocation
fails, and the free-map file does not hold the map. -/
theorem free_map_lags_when_full :
    ∃ st st' b w, Formatted 5 0 st ∧
      (freeMapMachine 5 0 false).run st
          [.create ⟨2, fill 512 0, 0⟩ rootDirSector 1 false,
            .writeAt ⟨2, fill 512 0, 0⟩ ⟨4, 0⟩ (fun _ => 0) 1 0,
            .allocate ⟨2, fill 512 0, 0⟩ 1]
        = some ([.created (some 4) true, .wrote 1, .allocated none], st') ∧
      (bitmapRead ⟨2, fill 512 0, 0⟩).exec 5 st'.world = some (b, w) ∧
      ¬ b.Same st'.world.mem.freeMap := by
  have hrun : (((filesysInit ⟨2, fill 512 0, 0⟩ 1).exec 5
        ⟨freeMapInit 5, fun _ => fill 512 0⟩).bind fun r =>
      ((freeMapMachine 5 0 false).run ⟨r.2, [rootDirSector, freeMapSector]⟩
        [.create ⟨2, fill 512 0, 0⟩ rootDirSector 1 false,
          .writeAt ⟨2, fill 512 0, 0⟩ ⟨4, 0⟩ (fun _ => 0) 1 0,
          .allocate ⟨2, fill 512 0, 0⟩ 1]).bind fun q =>
      ((bitmapRead ⟨2, fill 512 0, 0⟩).exec 5 q.2.world).map fun z =>
        decide (q.1 = [.created (some 4) true, .wrote 1, .allocated none] ∧
          ¬ z.1.Same q.2.world.mem.freeMap)) = some true := by
    decide +kernel
  obtain ⟨⟨_, w0⟩, hinit, hrest⟩ := Option.bind_eq_some_iff.mp hrun
  obtain ⟨⟨outs, st'⟩, hcalls, hread⟩ := Option.bind_eq_some_iff.mp hrest
  obtain ⟨⟨b, w⟩, hread, hres⟩ := Option.map_eq_some_iff.mp hread
  obtain ⟨rfl, hdiff⟩ := of_decide_eq_true hres
  exact ⟨_, st', b, w, ⟨_, _, hinit, rfl⟩, hcalls, hread, hdiff⟩

end Lag

end Pintos
