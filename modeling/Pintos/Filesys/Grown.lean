import Pintos.Filesys.Expand

/-!
# The file after a growth

`inode_expand` stores the header even when it has run out of sectors, as long as the index blocks
could be had.  This module says what the file is then.

* `grownSector w i j`: the sector that block `j` has after the growth, in terms of the disk and the
  free map before it.  A block for which no sector was left has that of the block before it.
* `FsInv.writable_of_looped`: as far as the blocks have sectors, the file can be written.
* `FsInv.grown_blocks`: if the first new block has a sector and the index has room for all, every
  block has the sector `grownSector`, with the contents that this had before.
* `FsInv.bad_blocks`: otherwise, with uninitialised variables that name no sector of the disk, there
  is a block from which on none is on the disk.
-/

namespace Pintos

open Bytes Prog
open Function (update update_of_ne update_self)

/-! ## The sectors of the new blocks -/

variable {free : List Nat} {k : Nat}

theorem newSector_congr (hfirst : indexNeed k < free.length)
    (a a' j : Nat) : newSector free a k j = newSector free a' k j := by
  induction j with
  | zero =>
    rw [newSector, newSector, List.getD_eq_getElem _ _ hfirst, List.getD_eq_getElem _ _ hfirst]
  | succ j ih => rw [newSector, newSector, ih]

theorem newSector_mem (hfirst : indexNeed k < free.length)
    (a j : Nat) : newSector free a k j ∈ free := by
  induction j with
  | zero =>
    rw [newSector, List.getD_eq_getElem _ _ hfirst]
    exact List.getElem_mem hfirst
  | succ j ih =>
    rw [newSector]
    by_cases hlt : sectorNeed (j + 1) k + indexNeed (k + (j + 1)) < free.length
    · rw [List.getD_eq_getElem _ _ hlt]
      exact List.getElem_mem hlt
    · rw [List.getD_eq_default _ _ (Nat.not_lt.mp hlt)]
      exact ih

theorem newSector_of_short (hshort : free.length ≤ indexNeed k)
    (a j : Nat) : newSector free a k j = a := by
  induction j with
  | zero => rw [newSector, List.getD_eq_default _ _ hshort]
  | succ j ih =>
    have hlt := sectorNeed_lt (k := k) (show 0 < j + 1 by omega)
    rw [Nat.add_zero] at hlt
    rw [newSector, ih, List.getD_eq_default _ _ (by omega)]

/-- The sector of block `j` of the file in sector `i`, after a growth. -/
def grownSector (w : FsWorld) (i j : Nat) : Nat :=
  if j < blocks (w.disk i) then (Use.data j).ptr w.disk i (w.disk i)
  else newSector w.mem.freeMap.freeList 0 (blocks (w.disk i)) (j - blocks (w.disk i))

namespace FsInv

variable {n : Nat} {inodes : List Nat} {w w' : FsWorld} {m : FreeMap} {d : Disk}
  {hdr hdr' : Nat → Sector} {L L' : Nat → Use → Prop}
  {i0 c k remain allocSec b' : Nat} {free : List Nat} {len : Nat} {d' : Disk} {v : Use}

/-- The sectors that the loop put into the index are those of blocks that have their own, if the
first one has. -/
theorem exists_own_of_looped
    (h : Looped i0 k k remain allocSec free w' hdr' L' b') {j : Nat} (hj : j < k + remain)
    (hmax : j < maxBlocks) (hfirst : k ≤ j → indexNeed k < free.length) :
    ∃ j', L' i0 (.data j') ∧ (Use.data j).ptr w'.disk i0 (hdr' i0)
      = (Use.data j').ptr w'.disk i0 (hdr' i0) := by
  have hlive : ∀ j < b', j < min (k + remain) maxBlocks → L' i0 (.data j) := by
    intro j hb hj
    refine (h.live _).mpr ⟨hj, fun j' heq => ?_⟩
    rwa [← Use.data.inj heq]
  have hle := h.le
  rcases Nat.lt_or_ge j k with hlt | hge
  · exact ⟨j, hlive j (by omega) (by omega), rfl⟩
  obtain ⟨t, rfl⟩ := Nat.exists_eq_add_of_le hge
  induction t with
  | zero =>
    refine ⟨k + 0, hlive _ ((h.own 0 (by omega)).mpr ?_) (by omega), rfl⟩
    rw [sectorNeed, Nat.zero_add]
    exact hfirst hge
  | succ t ih =>
    by_cases hown : sectorNeed (t + 1) k + indexNeed (k + (t + 1)) < free.length
    · exact ⟨_, hlive _ ((h.own (t + 1) (by omega)).mpr hown) (by omega), rfl⟩
    · obtain ⟨j', hj', hptr⟩ := ih (by omega) (by omega) (fun _ => hfirst hge) (by omega)
      refine ⟨j', hj', ?_⟩
      rw [← hptr, h.ptr (t + 1) (by omega), h.ptr t (by omega), newSector, List.getD_eq_default]
      exact Nat.not_lt.mp hown

theorem live_index_of_looped (h : Looped i0 k k remain allocSec free w' hdr' L' b')
    (hv : v.Live (min (k + remain) maxBlocks)) (hdata : ∀ j, v ≠ .data j) : L' i0 v :=
  (h.live v).mpr ⟨hv, fun j heq => absurd heq (hdata j)⟩

theorem ptr_of_looped (h : FsInv n inodes ⟨m, d⟩ hdr L) (hi : i0 ∈ inodes)
    (hloop : Looped i0 k k remain allocSec free ⟨m, d⟩ hdr L b') (len : Int)
    (hv : v.Live (min (k + remain) maxBlocks)) :
    v.ptr (update d i0 (InodeDisk.setLength (hdr i0) len)) i0
      (update d i0 (InodeDisk.setLength (hdr i0) len) i0) = v.ptr d i0 (hdr i0) := by
  generalize hb : min (k + remain) maxBlocks = b at hv
  have hbmax : b ≤ maxBlocks := hb ▸ Nat.min_le_right _ _
  have hpar : ∀ i u p w, i = i0 ∧ Use.Live b u → u.parent = some (p, w) →
      (i = i0 ∧ Use.Live b p) ∧ w < 128 := by
    rintro i u p w ⟨rfl, hu⟩ hp
    exact ⟨⟨rfl, (hu.parent hbmax hp).1⟩, (hu.parent hbmax hp).2⟩
  have hwords : Layout.SameWords hdr (fun i u => i = i0 ∧ Use.Live b u) d
      (update d i0 (InodeDisk.setLength (hdr i0) len)) := by
    rintro i u p w ⟨rfl, hu⟩ hp
    obtain ⟨hnode, hdata⟩ := Use.parent_ne_leaf hp
    have hlive : L i p := live_index_of_looped hloop (hb ▸ (hu.parent hbmax hp).1) hdata
    rw [update_of_ne fun heq => hnode ?_]
    exact (h.layout.inj i i p .inode hlive ((h.inode i).mpr hi) heq).2
  have hroot : ∀ i u, i = i0 ∧ Use.Live b u → u.parent = none →
      u.ptr d i (update hdr i0 (InodeDisk.setLength (hdr i0) len) i)
        = u.ptr d i (hdr i) := by
    rintro i u ⟨rfl, -⟩ hp
    rw [update_self, Use.ptr_setLength hp]
  have hptr := Layout.ptr_congr hpar hwords hroot i0 v ⟨rfl, hv⟩
  rw [update_self] at hptr ⊢
  exact hptr

/-- The file after a loop that came to its end can be written, as far as its blocks lead to sectors
of data. -/
theorem writable_of_looped {g len : Nat} (h : FsInv n inodes ⟨m, d⟩ hdr' L') (hi : i0 ∈ inodes)
    (hloop : Looped i0 k k remain allocSec free ⟨m, d⟩ hdr' L' b') (hlen : len < 2147483648)
    (hblocks : min ((len + 511) / 512) maxBlocks = min (k + remain) maxBlocks)
    (hg : g ≤ min (k + remain) maxBlocks)
    (hdata : ∀ j < g, ∃ j', L' i0 (.data j') ∧
      (Use.data j).ptr d i0 (hdr' i0) = (Use.data j').ptr d i0 (hdr' i0)) :
    Writable n (update d i0 (InodeDisk.setLength (hdr' i0) len)) i0 g := by
  have hlength := length_setLength (hdr' i0) (Int.natCast_nonneg len) (by omega)
  have hnew : min (blocks (update d i0 (InodeDisk.setLength (hdr' i0) len) i0)) maxBlocks
      = min (k + remain) maxBlocks := by
    rw [update_self, blocks, hlength, Int.toNat_natCast, hblocks]
  have hptr := fun v hv => h.ptr_of_looped hi hloop len (v := v) hv
  refine ⟨⟨h.sector_lt hi, ?_, fun v hv hnot => ?_⟩, ?_, fun j hj => ?_, fun j hj v hv hnot => ?_⟩
  · rw [update_self, hlength]
    exact Int.natCast_nonneg len
  · rw [hnew] at hv
    rw [hptr v hv]
    exact h.layout.lt i0 v (live_index_of_looped hloop hv hnot)
  · rw [hnew]
    exact hg
  · obtain ⟨j', hj', heq⟩ := hdata j hj
    rw [hptr (.data j) (hj.trans_le hg), heq]
    exact h.layout.lt i0 _ hj'
  · obtain ⟨j', hj', heq⟩ := hdata j hj
    rw [hnew] at hv
    rw [hptr v hv, hptr (.data j) (hj.trans_le hg), heq]
    exact fun hsame => hnot j'
      (h.layout.inj i0 i0 v (.data j') (live_index_of_looped hloop hv hnot) hj' hsame).2

/-! ## If the first new block has a sector -/

theorem disk_eq_of_data (h0 : FsOk n inodes w) (h : FsInv n inodes ⟨m, d⟩ hdr' L')
    (hgrow : Grows i0 c w w.disk (OnDisk inodes w.disk) ⟨m, d⟩ hdr' L') (hi : i0 ∈ inodes)
    (hmap : w.mem.freeMapFile ≠ none → i0 ≠ freeMapSector) {j : Nat} (hj : L' i0 (.data j))
    (b : Sector) :
    update d i0 b ((Use.data j).ptr d i0 (hdr' i0))
      = w.disk ((Use.data j).ptr d i0 (hdr' i0)) := by
  rw [update_of_ne fun heq => ?_]
  · by_contra hne
    rcases hgrow.writes _ hne with ⟨-, hfile, j', hj', hptr⟩ | ⟨v, hv, hleaf, hptr⟩
    · -- the data of the free-map file is another file's
      obtain ⟨file, hf⟩ := Option.ne_none_iff_exists'.mp hfile
      obtain ⟨-, hmem, -⟩ := h0.map file hf
      have hlive : OnDisk inodes w.disk freeMapSector (.data j') := ⟨hmem, hj'⟩
      refine hmap hfile (h.layout.inj i0 freeMapSector (.data j) (.data j') hj
        (hgrow.live _ _ hlive) ?_).1
      rw [hgrow.ptr _ _ hlive, hptr]
    · have heq := (h.layout.inj i0 i0 v (.data j) hv hj hptr).2
      exact hleaf (.inr ⟨j, heq⟩)
  · have hinode := (h.layout.inj i0 i0 (.data j) .inode hj ((h.inode i0).mpr hi) heq).2
    cases hinode

theorem ptr_eq_grownSector {j : Nat} (h0 : FsOk n inodes w)
    (hgrow : Grows i0 c w w.disk (OnDisk inodes w.disk) ⟨m, d⟩ hdr' L') (hi : i0 ∈ inodes)
    (hk : blocks (w.disk i0) = k)
    (hloop : Looped i0 k k remain allocSec w.mem.freeMap.freeList ⟨m, d⟩ hdr' L' b')
    (hj : j < min (k + remain) maxBlocks) (hfirst : k ≤ j → indexNeed k < w.mem.freeMap.freeCnt) :
    (Use.data j).ptr d i0 (hdr' i0) = grownSector w i0 j := by
  rw [grownSector, hk]
  split
  · rename_i hlt
    exact hgrow.ptr i0 (.data j) ⟨hi, hk.symm ▸ hlt⟩
  · rename_i hge
    have hshort : indexNeed k < w.mem.freeMap.freeList.length := by
      rw [Bitmap.length_freeList]
      exact hfirst (by omega)
    have hnew := hloop.ptr (j - k) (by omega)
    rw [Nat.add_sub_cancel' (Nat.not_lt.mp hge), newSector_congr hshort _ 0] at hnew
    have hmem := newSector_mem hshort 0 (j - k)
    rw [Bitmap.mem_freeList, h0.bitCnt] at hmem
    rwa [Nat.mod_eq_of_lt (hmem.1.trans_le h0.small)] at hnew

/-- **If the first new block has a sector** and the index has room for all, every block has the
sector `grownSector`, and that the contents it had. -/
theorem grown_blocks (h0 : FsOk n inodes w) (h : FsInv n inodes ⟨m, d⟩ hdr' L')
    (hgrow : Grows i0 c w w.disk (OnDisk inodes w.disk) ⟨m, d⟩ hdr' L') (hi : i0 ∈ inodes)
    (hmap : w.mem.freeMapFile ≠ none → i0 ≠ freeMapSector) (hk : blocks (w.disk i0) = k)
    (hloop : Looped i0 k k remain allocSec w.mem.freeMap.freeList ⟨m, d⟩ hdr' L' b')
    (hlen : len < 2147483648)
    (hblocks : min (k + remain) maxBlocks = min ((len + 511) / 512) maxBlocks)
    (hmax : (len + 511) / 512 ≤ maxBlocks)
    (hfirst : k < (len + 511) / 512 → indexNeed k < w.mem.freeMap.freeCnt)
    (hd' : d' = update d i0 (InodeDisk.setLength (hdr' i0) len)) :
    Writable n d' i0 ((len + 511) / 512) ∧ ∀ j < (len + 511) / 512,
      (Use.data j).ptr d' i0 (d' i0) = grownSector w i0 j ∧
        d' (grownSector w i0 j) = w.disk (grownSector w i0 j) := by
  have hlast : min (k + remain) maxBlocks = (len + 511) / 512 :=
    hblocks.trans (Nat.min_eq_left hmax)
  have hown : ∀ j < (len + 511) / 512, ∃ j', L' i0 (.data j') ∧
      (Use.data j).ptr d i0 (hdr' i0) = (Use.data j').ptr d i0 (hdr' i0) := fun j hj =>
    exists_own_of_looped hloop (by omega) (by omega) fun hkj => by
      rw [Bitmap.length_freeList]
      exact hfirst (hkj.trans_lt hj)
  subst hd'
  refine ⟨writable_of_looped h hi hloop hlen hblocks.symm (Nat.le_of_eq hlast.symm) hown,
    fun j hj => ?_⟩
  have hptr := ptr_eq_grownSector h0 hgrow hi hk hloop (hlast ▸ hj) fun hkj => hfirst (by omega)
  rw [h.ptr_of_looped hi hloop len (show j < _ by omega), hptr]
  refine ⟨rfl, ?_⟩
  obtain ⟨j', hj', heq⟩ := hown j hj
  rw [← hptr, heq]
  exact disk_eq_of_data h0 h hgrow hi hmap hj' _

/-! ## If it has none -/

/-- **Otherwise**, with uninitialised variables that name no sector of the disk, there is a block
from which on none is on the disk. -/
theorem bad_blocks (h : FsInv n inodes ⟨m, d⟩ hdr' L') (hn : n < 2 ^ 32) (hi : i0 ∈ inodes)
    (hloop : Looped i0 k k remain noSector free ⟨m, d⟩ hdr' L' b') (hlen : len < 2147483648)
    (hblocks : min (k + remain) maxBlocks = min ((len + 511) / 512) maxBlocks)
    (hkmax : k ≤ maxBlocks) (hnew : k < (len + 511) / 512)
    (hbad : maxBlocks < (len + 511) / 512 ∨ free.length ≤ indexNeed k) {u : Uninit}
    (hu : u.returnSec = noSector)
    (hd' : d' = update d i0 (InodeDisk.setLength (hdr' i0) len)) :
    ∃ g, k ≤ g ∧ g < (len + 511) / 512 ∧ Writable n d' i0 g ∧
      ∀ j, g ≤ j → j < (len + 511) / 512 → n ≤ sectorOf u d' i0 j := by
  have hno : n ≤ noSector := Nat.le_of_lt_succ hn
  subst hd'
  by_cases hfirst : k < maxBlocks ∧ free.length ≤ indexNeed k
  · -- the first new block has no sector
    refine ⟨k, Nat.le_refl k, hnew, writable_of_looped h hi hloop hlen hblocks.symm (by omega)
      fun j hj => exists_own_of_looped hloop (by omega) (by omega) fun hkj =>
        absurd hj (Nat.not_lt.mpr hkj), fun j hkj hj => ?_⟩
    rw [sectorOf]
    split
    · have hptr := hloop.ptr (j - k) (by omega)
      rw [Nat.add_sub_cancel' hkj, newSector_of_short hfirst.2] at hptr
      rw [h.ptr_of_looped hi hloop _ (show j < _ by omega), hptr]
      exact hno
    · exact hu ▸ hno
  · -- the blocks past the index have none
    have hover : maxBlocks < (len + 511) / 512 := by omega
    refine ⟨maxBlocks, hkmax, hover, writable_of_looped h hi hloop hlen hblocks.symm (by omega)
      fun j hj => exists_own_of_looped hloop (by omega) hj fun hkj =>
        Nat.not_le.mp fun hle => hfirst ⟨hkj.trans_lt hj, hle⟩, fun j hmax _ => ?_⟩
    rw [sectorOf, if_neg (Nat.not_lt.mpr hmax)]
    exact hu ▸ hno

end FsInv

end Pintos
