import Pintos.Filesys.Expand

/-!
# Creating and writing files

`inode_create`, `inode_write_at` and the formatting of a disk, under the invariant of
`Filesys/Invariant.lean`.

* `FsInv.addInode`: a marked sector that nothing lives in becomes an inode.
* `FsInv.exec_inodeCreate` and `FsInv.exec_inodeWriteAt`: what the two calls do, when the growth
  they ask for fits.
* `exec_filesysInit`: a disk of 4 sectors or more, up to as many as the free-map file can have bits
  for, is formatted into a state that meets the invariant.
-/

namespace Pintos

open Bytes Prog
open Function (update update_self)

namespace FsInv

variable {n : Nat} {inodes : List Nat} {w w' : FsWorld} {m : FreeMap} {d : Disk}
  {inode : Inode}

/-! ## A new inode -/

theorem length_create (isDir : Bool) (parent : Nat) :
    InodeDisk.length (InodeDisk.create isDir parent) = 0 := by
  have hword : (InodeDisk.create isDir parent).word 1 = 0 := by
    have hread : (InodeDisk.create isDir parent).read (4 * 1) 4 = [0, 0, 0, 0] := by
      simp only [InodeDisk.create]
      rfl
    rfl
  rw [InodeDisk.length, hword]
  rfl

theorem isDir_create (isDir : Bool) (parent : Nat) :
    InodeDisk.isDir (InodeDisk.create isDir parent) = isDir := by
  simp only [InodeDisk.create]
  cases isDir <;> rfl

theorem live_zero {v : Use} : v.Live 0 ↔ v = .inode := by
  cases v <;> simp [Use.Live]

variable {s : Nat}

theorem layout_unused (h : FsOk n inodes ⟨m, d⟩)
    (hunused : ∀ j v, OnDisk inodes d j v → v.ptr d j (d j) ≠ s) :
    Layout n (fun x => m.freeMap.bits x && decide (x ≠ s)) d d (OnDisk inodes d) where
  parent := h.layout.parent
  lt := h.layout.lt
  used j v hv := by simpa using ⟨h.layout.used j v hv, hunused j v hv⟩
  inj := h.layout.inj

theorem storeUnused (h : FsOk n inodes ⟨m, d⟩)
    (hunused : ∀ j v, OnDisk inodes d j v → v.ptr d j (d j) ≠ s) (b : Sector) :
    FsOk n inodes ⟨m, update d s b⟩ ∧ (∀ j ∈ inodes, update d s b j = d j) ∧
      (∀ j v, OnDisk inodes d j v → v.ptr (update d s b) j (update d s b j) = v.ptr d j (d j)) ∧
      ∀ j ∈ inodes, ∀ pos < (InodeDisk.length (d j)).toNat,
        fileByte (update d s b) j pos = fileByte d j pos := by
  have hq := (h.layout_unused hunused).quiet_of_free (s := s) (by simp) b
  have hheader : ∀ j ∈ inodes, update d s b j = d j := fun j hj =>
    hq.leaf j .inode ⟨hj, trivial⟩ (.inl rfl)
  have hptr : ∀ j v, OnDisk inodes d j v →
      v.ptr (update d s b) j (update d s b j) = v.ptr d j (d j) := by
    intro j v hv
    rw [hheader j hv.1]
    exact h.layout.ptr_eq hq.words j v hv
  refine ⟨(h.change hq.words hheader).restrict, hheader, hptr, fun j hj pos hpos => ?_⟩
  have hlive : OnDisk inodes d j (.data (pos / 512)) := ⟨hj, div_lt_blocks hpos⟩
  rw [fileByte, fileByte, hptr j _ hlive, hq.leaf j _ hlive (.inr ⟨_, rfl⟩)]

theorem of_cons (h : FsOk n (s :: inodes) w)
    (hmap : w.mem.freeMapFile ≠ none → freeMapSector ∈ inodes) : FsOk n inodes w where
  layout := by
    refine h.layout.transfer (fun _ _ hu => ⟨.tail _ hu.1, hu.2⟩)
      (fun i u p k hu hp => ?_) (fun _ _ _ => rfl) fun _ hs => hs
    obtain ⟨hlive, hk⟩ := h.layout.parent i u p k ⟨.tail _ hu.1, hu.2⟩ hp
    exact ⟨⟨hu.1, hlive.2⟩, hk⟩
  bitCnt := h.bitCnt
  small := h.small
  inode _ := ⟨fun hi => hi.1, fun hi => ⟨hi, trivial⟩⟩
  disk _ hi _ hu := ⟨⟨hi, hu⟩, rfl⟩
  length i hi := h.length i (.tail _ hi)
  map file hf := by
    obtain ⟨hfile, -, hrest⟩ := h.map file hf
    exact ⟨hfile, hmap (by rw [hf]; nofun), hrest⟩

/-- **A sector becomes an inode**: one that is marked, and that no file uses. -/
theorem addInode (h : FsOk n inodes ⟨m, d⟩) {b : Sector} (hs : s < n)
    (hmark : m.freeMap.bits s = true) (hunused : ∀ j v, OnDisk inodes d j v → v.ptr d j (d j) ≠ s)
    (hb : InodeDisk.length b = 0) :
    FsOk n (s :: inodes) ⟨m, update d s b⟩ ∧ (∀ j ∈ inodes, update d s b j = d j) ∧
      (∀ j v, OnDisk inodes d j v → v.ptr (update d s b) j (update d s b j) = v.ptr d j (d j)) ∧
      ∀ j ∈ inodes, ∀ pos < (InodeDisk.length (d j)).toNat,
        fileByte (update d s b) j pos = fileByte d j pos := by
  obtain ⟨-, hheader, hptr, hbytes⟩ := h.storeUnused hunused b
  have hnew : ∀ v : Use, v.Live (blocks b) ↔ v = .inode := by
    intro v
    rw [blocks, hb]
    exact live_zero
  have hlive : OnDisk (s :: inodes) (update d s b)
      = Layout.Add (OnDisk inodes d) s .inode := by
    funext j v
    refine propext ⟨?_, ?_⟩
    · rintro ⟨hj, hv⟩
      by_cases hjs : j = s
      · subst hjs
        rw [update_self, hnew] at hv
        exact .inr ⟨rfl, hv⟩
      · have hj' : j ∈ inodes := (List.mem_cons.mp hj).resolve_left hjs
        rw [hheader j hj'] at hv
        exact .inl ⟨hj', hv⟩
    · rintro (⟨hj, hv⟩ | ⟨rfl, rfl⟩)
      · exact ⟨.tail _ hj, by rwa [hheader j hj]⟩
      · exact ⟨.head _, trivial⟩
  refine ⟨⟨?_, h.bitCnt, h.small, fun i => ⟨fun hi => hi.1, fun hi => ⟨hi, trivial⟩⟩,
    fun _ hj _ hv => ⟨⟨hj, hv⟩, rfl⟩, fun j hj => ?_, fun file hf => ?_⟩, hheader, hptr, hbytes⟩
  · rw [hlive]
    exact (h.layout_unused hunused).add hs (by simp) (fun p k hp => by cases hp) hptr rfl
      (fun x hx => (Bool.and_eq_true _ _ ▸ hx).1) hmark
  · dsimp only
    by_cases hjs : j = s
    · rw [hjs, update_self, hb]
      exact ⟨le_rfl, by decide⟩
    · have hj' : j ∈ inodes := (List.mem_cons.mp hj).resolve_left hjs
      rw [hheader j hj']
      exact h.length j hj'
  · obtain ⟨h1, h2, h3⟩ := h.map file hf
    dsimp only
    rw [hheader _ h2]
    exact ⟨h1, .tail _ h2, h3⟩

/-- **`inode_create`**, on a marked sector that no file uses and with a length that fits. -/
theorem exec_inodeCreate (h : FsOk n inodes ⟨m, d⟩) (hs : s < n) (hmark : m.freeMap.bits s = true)
    (hunused : ∀ j v, OnDisk inodes d j v → v.ptr d j (d j) ≠ s) (u : Uninit) (depth cwd : Nat)
    (length : Int) (h0 : 0 ≤ length) (h1 : length < 2 ^ 31) (isDir : Bool)
    (hfits : GrowFits (newSectors 0 length) 0 m.freeMap.freeCnt) :
    ∃ r w', (inodeCreate u (depth + 1) cwd s length isDir).exec n ⟨m, d⟩ = some (r, w') ∧
      FsOk n (s :: inodes) w' ∧
      Extended (s :: inodes) s ⟨m, update d s (InodeDisk.create isDir cwd)⟩ w' ∧
      (r = false ∧ m.freeMap.freeCnt < sectorNeed (newSectors 0 length) 0 ∨
        r = true ∧ InodeDisk.length (w'.disk s) = length ∧
          w'.mem.freeMap.freeCnt + sectorNeed (newSectors 0 length) 0 = m.freeMap.freeCnt) := by
  obtain ⟨hok, -⟩ := h.addInode hs hmark hunused (length_create isDir cwd)
  have hlen : InodeDisk.length (update d s (InodeDisk.create isDir cwd) s) = 0 := by
    rw [update_self, length_create]
  have hblocks : blocks (update d s (InodeDisk.create isDir cwd) s) = 0 := by
    rw [blocks, hlen]
    rfl
  obtain ⟨r, w', hexec, hok', hext, hres⟩ := hok.exec_inodeExpand ⟨s, 0⟩
    List.mem_cons_self u depth length h0 h1 (by dsimp only; rw [hlen, hblocks]; exact hfits)
  rw [hlen, hblocks, Int.zero_add] at hres
  refine ⟨r, w', ?_, hok', hext, ?_⟩
  · rw [inodeCreate, if_neg (by omega), exec_bind_of_eq (exec_writeSector hs _)]
    exact hexec
  · rcases hres with ⟨h1, -, h2⟩ | hres
    · exact .inl ⟨h1, h2⟩
    · exact .inr hres

/-- **Allocating a sector and creating an inode in it**, with a length that fits. -/
theorem exec_allocateCreate (h : FsOk n inodes w) (u : Uninit) (depth : Nat)
    (hpos : 0 < w.mem.freeMap.freeCnt) :
    ∃ s w1, (freeMapAllocateAt u (depth + 1)).exec n w = some (some s, w1) ∧
      ∀ (cwd : Nat) (length : Int) (isDir : Bool), 0 ≤ length → length < 2 ^ 31 →
        GrowFits (newSectors 0 length) 0 (w.mem.freeMap.freeCnt - 1) →
        ∃ r w', (inodeCreate u (depth + 1) cwd s length isDir).exec n w1 = some (r, w') ∧
          FsOk n (s :: inodes) w' ∧ s ∉ inodes ∧
          (r = false ∧ w.mem.freeMap.freeCnt < sectorNeed (newSectors 0 length) 0 + 1 ∨
            r = true ∧ InodeDisk.length (w'.disk s) = length ∧
              w'.mem.freeMap.freeCnt + sectorNeed (newSectors 0 length) 0 + 1
                = w.mem.freeMap.freeCnt) := by
  obtain ⟨m, d⟩ := w
  obtain ⟨s, d', halloc, ha⟩ := h.exec_freeMapAllocate_of_pos u depth hpos
  have hfree := Bitmap.freeCnt_mark (h.bitCnt.symm ▸ ha.lt) ha.free
  have hmark : (m.freeMap.mark s).bits s = true := by simp [Bitmap.mark]
  have hunused : ∀ j v, OnDisk inodes d' j v → v.ptr d' j (d' j) ≠ s :=
    fun j v hv => ha.inv.onDisk.ne_of_free ha.free hv
  refine ⟨s, _, halloc, fun cwd length isDir h0 h1 hfits => ?_⟩
  rw [show m.freeMap.freeCnt - 1 = (m.freeMap.mark s).freeCnt by omega] at hfits
  obtain ⟨r, w', hcreate, hok, -, hres⟩ := (ha.inv.mark s).restrict.exec_inodeCreate ha.lt hmark
    hunused u depth cwd length h0 h1 isDir hfits
  refine ⟨r, w', hcreate, hok, fun hs => hunused s .inode ⟨hs, trivial⟩ rfl, ?_⟩
  dsimp only at hres ⊢
  rcases hres with ⟨hr, hlt⟩ | ⟨hr, hlen, hcnt⟩
  · exact .inl ⟨hr, by omega⟩
  · exact .inr ⟨hr, hlen, by omega⟩

/-! ## Writing -/

variable {size offset r : Int}

theorem inodeWriteLoop_onlyData (h : FsOk n inodes w) (hi : inode.sector ∈ inodes) (u : Uninit)
    (buffer : Nat → UInt8) (hoff : -2 ^ 31 ≤ offset ∧ offset < 2 ^ 31)
    (hexec : (inodeWriteLoop u inode buffer size.toNat size offset 0).exec n w = some (r, w')) :
    ∃ d', w' = ⟨w.mem, d'⟩ ∧ OnlyData inode.sector w.disk d' := by
  have hlen := h.length _ hi
  by_cases hin : 0 ≤ offset ∧ offset ≤ InodeDisk.length (w.disk inode.sector)
  · obtain ⟨o, rfl⟩ := Int.eq_ofNat_of_zero_le hin.1
    obtain ⟨t, d', -, hrun, honly, -⟩ := exec_inodeWriteLoop hi u buffer size.toNat size o 0 h
      le_rfl hin.2
    rw [hrun] at hexec
    cases hexec
    exact ⟨d', rfl, honly⟩
  · rcases hf : size.toNat with _ | fuel
    · rw [hf, inodeWriteLoop, exec_pure, Option.some_inj, Prod.mk.injEq] at hexec
      exact ⟨w.disk, hexec.2.symm, fun s hs => absurd rfl hs⟩
    · -- outside the file the first chunk panics
      exfalso
      by_cases hneg : offset < 0
      · rw [hf, inodeWriteLoop, if_neg (by omega)] at hexec
        have hfail : (byteToSector u inode offset).exec n w = none := by
          rw [byteToSector, exec_bind_of_eq (h.exec_inodeLength hi), if_neg (by omega), if_pos hneg,
            exec_fail]
        rw [exec_bind, hfail] at hexec
        cases hexec
      · rw [hf, (h.indexes hi).exec_inodeWriteLoop_past u buffer fuel 0 (by omega) (by omega)
          hoff.2] at hexec
        cases hexec

theorem inodeWriteLoop_ok (h : FsOk n inodes w) (hi : inode.sector ∈ inodes) (u : Uninit)
    (buffer : Nat → UInt8) (hoff : -2 ^ 31 ≤ offset ∧ offset < 2 ^ 31)
    (hexec : (inodeWriteLoop u inode buffer size.toNat size offset 0).exec n w = some (r, w')) :
    FsOk n inodes w' := by
  obtain ⟨d', rfl, honly⟩ := h.inodeWriteLoop_onlyData hi u buffer hoff hexec
  exact (h.onlyData hi honly).restrict

/-- The growth that `inode_write_at` asks for. -/
def writeExt (length size offset : Int) : Int := wrap32 (offset + size - length)

theorem writeExt_eq {length : Int} (h0 : 0 ≤ length) (hlt : length < wrap32 (offset + size)) :
    writeExt length size offset = wrap32 (offset + size) - length := by
  simp only [writeExt, wrap32, Int.bmod_def] at hlt ⊢
  omega

theorem exec_inodeWriteAt_of_le (h : FsOk n inodes w) (hi : inode.sector ∈ inodes)
    (hdeny : inode.denyWriteCnt = 0)
    (hle : wrap32 (offset + size) ≤ InodeDisk.length (w.disk inode.sector)) (u : Uninit)
    (depth : Nat) (buffer : Nat → UInt8) :
    (inodeWriteAt u (depth + 1) inode buffer size offset).exec n w
      = (inodeWriteLoop u inode buffer size.toNat size offset 0).exec n w := by
  rw [inodeWriteAt, if_neg (by simpa using hdeny), exec_bind_of_eq (h.exec_inodeLength hi),
    if_neg (Int.not_lt.mpr hle)]

theorem exec_inodeWriteAt_of_expand (h : FsOk n inodes w) (hi : inode.sector ∈ inodes)
    (hdeny : inode.denyWriteCnt = 0)
    (hgrow : InodeDisk.length (w.disk inode.sector) < wrap32 (offset + size)) {u : Uninit}
    {depth : Nat} {r : Bool}
    (hexpand : (inodeExpand u (freeMapAllocateAt u (depth + 1)) inode
      (writeExt (InodeDisk.length (w.disk inode.sector)) size offset)).exec n w = some (r, w'))
    (buffer : Nat → UInt8) :
    (inodeWriteAt u (depth + 2) inode buffer size offset).exec n w
      = (inodeWriteLoop u inode buffer size.toNat size offset 0).exec n w' := by
  rw [inodeWriteAt, if_neg (by simpa using hdeny), exec_bind_of_eq (h.exec_inodeLength hi),
    if_pos hgrow]
  exact exec_bind_of_eq hexpand

/-- **A write keeps the invariant**, if the growth it asks for fits. -/
theorem inodeWriteAt_ok (h : FsOk n inodes w) (hi : inode.sector ∈ inodes) (u : Uninit)
    (depth : Nat) (buffer : Nat → UInt8) (hoff : -2 ^ 31 ≤ offset ∧ offset < 2 ^ 31)
    (hfits : inode.denyWriteCnt = 0 →
      InodeDisk.length (w.disk inode.sector) < wrap32 (offset + size) →
      GrowFits (newSectors (InodeDisk.length (w.disk inode.sector))
          (writeExt (InodeDisk.length (w.disk inode.sector)) size offset))
        (blocks (w.disk inode.sector)) w.mem.freeMap.freeCnt)
    (hexec : (inodeWriteAt u (depth + 2) inode buffer size offset).exec n w = some (r, w')) :
    FsOk n inodes w' := by
  have hlen := h.length _ hi
  by_cases hdeny : inode.denyWriteCnt = 0
  · by_cases hgrow : InodeDisk.length (w.disk inode.sector) < wrap32 (offset + size)
    · have hext := writeExt_eq hlen.1 hgrow
      have hmem := wrap32_mem (offset + size)
      obtain ⟨b, w1, hexpand, hok, -⟩ := h.exec_inodeExpand inode hi u depth
        (writeExt (InodeDisk.length (w.disk inode.sector)) size offset) (by omega) (by omega)
        (hfits hdeny hgrow)
      rw [h.exec_inodeWriteAt_of_expand hi hdeny hgrow hexpand] at hexec
      exact hok.inodeWriteLoop_ok hi u buffer hoff hexec
    · rw [h.exec_inodeWriteAt_of_le hi hdeny (Int.not_lt.mp hgrow)] at hexec
      exact h.inodeWriteLoop_ok hi u buffer hoff hexec
  · rw [inodeWriteAt, if_pos hdeny, exec_pure, Option.some_inj, Prod.mk.injEq] at hexec
    rw [← hexec.2]
    exact h

/-- The state after a write at `o` of `size` bytes of `buffer` into the file in sector `i`. -/
structure Wrote (inodes : List Nat) (i : Nat) (buffer : Nat → UInt8) (o size : Nat)
    (w w' : FsWorld) : Prop where
  /-- The file ends where it did or where the write ended. -/
  length : (InodeDisk.length (w'.disk i)).toNat
    = max (InodeDisk.length (w.disk i)).toNat (o + size)
  inside : ∀ pos, o ≤ pos → pos < o + size → fileByte w'.disk i pos = buffer (pos - o)
  /-- What was there and not written over is there. -/
  outside : ∀ pos < (InodeDisk.length (w.disk i)).toNat, ¬ (o ≤ pos ∧ pos < o + size) →
    fileByte w'.disk i pos = fileByte w.disk i pos
  header : ∀ j ∈ inodes, j ≠ i → w'.disk j = w.disk j
  /-- So are the bytes of the other files, but for the free map. -/
  bytes : ∀ j ∈ inodes, j ≠ i → j ≠ freeMapSector →
    ∀ pos < (InodeDisk.length (w.disk j)).toNat, fileByte w'.disk j pos = fileByte w.disk j pos

theorem exec_inodeWriteAt_grow (h : FsOk n inodes w) (hi : inode.sector ∈ inodes)
    (hi0 : inode.sector ≠ freeMapSector) (hdeny : inode.denyWriteCnt = 0) (u : Uninit)
    (depth : Nat) (buffer : Nat → UInt8) {size o : Nat} (hmax : o + size ≤ maxLength)
    (hgrow : InodeDisk.length (w.disk inode.sector) < ((o + size : Nat) : Int))
    (hfree : sectorNeed ((o + size + 511) / 512 - blocks (w.disk inode.sector))
      (blocks (w.disk inode.sector)) ≤ w.mem.freeMap.freeCnt) :
    ∃ w', (inodeWriteAt u (depth + 2) inode buffer size o).exec n w = some ((size : Int), w') ∧
      FsOk n inodes w' ∧ Wrote inodes inode.sector buffer o size w w' := by
  obtain ⟨hlen0, hlen1⟩ := h.length _ hi
  have hcap := maxLength_eq
  have hwrap : wrap32 ((o : Int) + (size : Int)) = ((o + size : Nat) : Int) := by
    rw [wrap32_of_mem (by omega) (by omega)]
    omega
  have hext : writeExt (InodeDisk.length (w.disk inode.sector)) size o
      = ((o + size : Nat) : Int) - InodeDisk.length (w.disk inode.sector) := by
    rw [writeExt_eq hlen0 (by omega), hwrap]
  have hneed := newSectors_eq hlen0 hlen1 (o + size) hgrow.le hmax
  rw [← hext] at hneed
  have hblocks : blocks (w.disk inode.sector)
      + ((o + size + 511) / 512 - blocks (w.disk inode.sector)) ≤ maxBlocks := by
    have := h.blocks_le hi
    rw [maxBlocks_eq] at this ⊢
    omega
  obtain ⟨r, w1, hexpand, hok, hextd, hres⟩ := h.exec_inodeExpand inode hi u depth
    (writeExt (InodeDisk.length (w.disk inode.sector)) size o) (by omega) (by omega)
    (by rw [hneed]; exact growFits_of_need hblocks hfree)
  rw [hneed] at hres
  rcases hres with ⟨-, -, hlt⟩ | ⟨-, hlen', -⟩
  · omega
  have hlen₁ : InodeDisk.length (w1.disk inode.sector) = ((o + size : Nat) : Int) := by
    rw [hlen', hext, Int.add_comm, Int.sub_add_cancel]
  -- the loop runs inside the file as it is now
  obtain ⟨t, d', ht, hloop, honly, hbytes⟩ := exec_inodeWriteLoop hi u buffer size size o 0 hok
    (by simp) (by rw [hlen₁]; omega)
  rw [hlen₁, Int.toNat_natCast] at ht hbytes
  obtain rfl : t = size := by
    rw [ht, Int.toNat_natCast, Nat.add_sub_cancel_left, Nat.min_self]
  have hinode : ∀ j ∈ inodes, d' j = w1.disk j := fun j hj => hok.inode_of_onlyData hi honly hj
  refine ⟨⟨w1.mem, d'⟩, ?_, (hok.onlyData hi honly).restrict, ?_, fun pos hp1 hp2 => ?_,
    fun pos hpos hout => ?_, fun j hj hji => ?_, fun j hj hji hj0 pos hpos => ?_⟩
  · rw [h.exec_inodeWriteAt_of_expand hi hdeny (by rw [hwrap]; exact hgrow) hexpand,
      Int.toNat_natCast, hloop, Nat.zero_add]
  · dsimp only
    rw [hinode _ hi, hlen₁, Int.toNat_natCast, Nat.max_eq_right]
    exact Int.toNat_le.mpr hgrow.le
  · rw [hbytes pos hp2, if_pos ⟨hp1, hp2⟩, Nat.zero_add]
  · rw [hbytes pos (Nat.lt_of_lt_of_le hpos (Int.toNat_le.mpr (Int.le_of_lt hgrow))),
      if_neg hout, hextd.bytes _ hi hi0 pos hpos]
  · exact (hinode j hj).trans (hextd.header j hj hji)
  · rw [← hextd.bytes j hj hj0 pos hpos]
    exact hok.fileByte_of_onlyData hi honly hj hji (by rwa [hextd.header j hj hji])

/-- **`inode_write_at`** stores its buffer, growing the file if it has to and the disk has room. -/
theorem exec_inodeWriteAt (h : FsOk n inodes w) (hi : inode.sector ∈ inodes)
    (hi0 : inode.sector ≠ freeMapSector) (hdeny : inode.denyWriteCnt = 0) (u : Uninit)
    (depth : Nat) (buffer : Nat → UInt8) {size o : Nat} (hmax : o + size ≤ maxLength)
    (hfree : sectorNeed ((o + size + 511) / 512 - blocks (w.disk inode.sector))
      (blocks (w.disk inode.sector)) ≤ w.mem.freeMap.freeCnt) :
    ∃ w', (inodeWriteAt u (depth + 2) inode buffer size o).exec n w = some ((size : Int), w') ∧
      FsOk n inodes w' ∧ Wrote inodes inode.sector buffer o size w w' := by
  by_cases hin : ((o + size : Nat) : Int) ≤ InodeDisk.length (w.disk inode.sector)
  · obtain ⟨d', hexec, honly, hbytes⟩ := h.exec_inodeWriteAt_within inode hi hdeny u (depth + 1)
      buffer size o hin
    have hinode : ∀ j ∈ inodes, d' j = w.disk j := fun j hj => h.inode_of_onlyData hi honly hj
    refine ⟨_, hexec, (h.onlyData hi honly).restrict, ?_, fun pos h1 h2 => ?_,
      fun pos hpos hout => ?_, fun j hj _ => hinode j hj, fun j hj hji _ pos hpos =>
        h.fileByte_of_onlyData hi honly hj hji hpos⟩
    · dsimp only
      rw [hinode _ hi]
      omega
    · rw [hbytes pos (by omega), if_pos ⟨h1, h2⟩]
    · rw [hbytes pos hpos, if_neg hout]
  · exact h.exec_inodeWriteAt_grow hi hi0 hdeny u depth buffer hmax (by omega) hfree

end FsInv

/-! ## Formatting -/

theorem newSectors_zero (len : Nat) (hlen : len ≤ maxLength) :
    newSectors 0 len = (len + 511) / 512 := by
  have hcreate := FsInv.length_create false 0
  have h := newSectors_eq (by rw [hcreate]) (by rw [hcreate]; decide) len
    (by rw [hcreate]; omega) hlen
  rwa [hcreate, Int.sub_zero, blocks] at h

theorem sectorNeed_le (remain k : Nat) : sectorNeed remain k ≤ 3 * remain := by
  induction remain generalizing k with
  | zero => rfl
  | succ remain ih =>
    have := ih (k + 1)
    have := indexNeed_le k
    rw [sectorNeed]
    omega

theorem sectorNeed_direct {remain k : Nat} (h : k + remain ≤ 64) :
    sectorNeed remain k = remain := by
  induction remain generalizing k with
  | zero => rfl
  | succ remain ih =>
    rw [sectorNeed, ih (by omega), indexNeed, if_pos (by omega)]
    omega

variable {n : Nat}

theorem freeCnt_freeMapInit (hn : 2 ≤ n) : (freeMapInit n).freeMap.freeCnt = n - 2 := by
  have hcreate : (Bitmap.create n).freeCnt = n := by
    simp [Bitmap.freeCnt, Bitmap.create]
  have h0 := Bitmap.freeCnt_mark (show freeMapSector < (Bitmap.create n).bitCnt from
    (show 0 < n by omega)) rfl
  have h1 := Bitmap.freeCnt_mark (show rootDirSector <
    ((Bitmap.create n).mark freeMapSector).bitCnt from (show 1 < n by omega)) rfl
  show (((Bitmap.create n).mark freeMapSector).mark rootDirSector).freeCnt = n - 2
  omega

/-- The blocks of the free-map file of a disk of `n` sectors. -/
def mapBlocks (n : Nat) : Nat := (4 * ((n + 31) / 32) + 511) / 512

theorem sectorNeed_mapBlocks (h4 : 4 ≤ n) : sectorNeed (mapBlocks n) 0 + 3 ≤ n := by
  by_cases hsmall : mapBlocks n ≤ 64
  · rw [sectorNeed_direct (by omega)]
    rw [mapBlocks] at *
    omega
  · have := sectorNeed_le (mapBlocks n) 0
    rw [mapBlocks] at *
    omega

theorem fsOk_init (hn : n ≤ 2 ^ 32) (d : Disk) : FsOk n [] ⟨freeMapInit n, d⟩ where
  layout := ⟨fun _ _ _ _ h => absurd h.1 List.not_mem_nil, fun _ _ h => absurd h.1 List.not_mem_nil,
    fun _ _ h => absurd h.1 List.not_mem_nil, fun _ _ _ _ h => absurd h.1 List.not_mem_nil⟩
  bitCnt := rfl
  small := hn
  inode _ := ⟨fun h => h.1, fun h => ⟨h, trivial⟩⟩
  disk _ h := absurd h List.not_mem_nil
  length _ h := absurd h List.not_mem_nil
  map _ h := by cases h

section Format

variable {n : Nat} (u : Uninit) (depth : Nat)

/-- **`free_map_create`** on a blank disk. -/
theorem exec_freeMapCreate (h4 : 4 ≤ n) (hn : n ≤ 4096 * maxBlocks) (d : Disk) :
    ∃ w, (freeMapCreate u (depth + 1)).exec n ⟨freeMapInit n, d⟩ = some ((), w) ∧
      FsOk n [freeMapSector] w ∧ w.mem.freeMapFile = some ⟨freeMapSector, 0⟩ ∧ FsInv.Stored w ∧
      w.mem.freeMap.bits rootDirSector = true ∧
      (∀ j v, OnDisk [freeMapSector] w.disk j v → v.ptr w.disk j (w.disk j) ≠ rootDirSector) ∧
      InodeDisk.length (w.disk freeMapSector) = (w.mem.freeMap.fileSize : Int) ∧
      w.mem.freeMap.freeCnt + sectorNeed (mapBlocks n) 0 + 2 = n := by
  rw [maxBlocks_eq] at hn
  have hblank := fsOk_init (n := n) (by omega) d
  have hcnt := freeCnt_freeMapInit (n := n) (by omega)
  have hroom := sectorNeed_mapBlocks h4
  have hsize : (freeMapInit n).freeMap.fileSize = 4 * ((n + 31) / 32) := rfl
  have hnew : newSectors 0 ((freeMapInit n).freeMap.fileSize : Int) = mapBlocks n := by
    rw [newSectors_zero _ (by rw [hsize, maxLength_eq]; omega), hsize, mapBlocks]
  obtain ⟨r, ⟨m1, d1⟩, hcreate, hok, hext, hres⟩ := hblank.exec_inodeCreate (s := freeMapSector)
    (show 0 < n by omega) rfl
    (fun _ _ h => absurd h.1 List.not_mem_nil) u depth rootDirSector
    (freeMapInit n).freeMap.fileSize (by omega) (by rw [hsize]; omega) false
    (by rw [hnew]
        refine growFits_of_need ?_ (by omega)
        rw [maxBlocks_eq, mapBlocks]
        omega)
  rw [hnew] at hres
  obtain ⟨rfl, hlen, hfree⟩ := hres.resolve_left (by omega)
  have hbits : m1.freeMap.bitCnt = n := hok.bitCnt
  have hfile : m1.freeMap.fileSize = (freeMapInit n).freeMap.fileSize := by
    rw [Bitmap.fileSize, hbits]
    rfl
  dsimp only at hlen hfree
  -- sector 1 was marked from the start, so the free map did not get it
  have hroot : (freeMapInit n).freeMap.bits rootDirSector = true := by
    simp [freeMapInit, Bitmap.mark]
  have hunused : ∀ j v, OnDisk [freeMapSector] d1 j v → v.ptr d1 j (d1 j) ≠ rootDirSector := by
    intro j v hv heq
    rcases hext.fresh j v hv with ⟨⟨hj, hlive⟩, hptr⟩ | hfresh
    · obtain rfl : j = freeMapSector := by simpa using hj
      dsimp only at hlive
      rw [update_self, blocks] at hlive
      rw [FsInv.live_zero.mp hlive] at heq
      exact absurd (show freeMapSector = rootDirSector from heq) (by decide)
    · rw [heq, hroot] at hfresh
      cases hfresh
  have hopen : FsOk n [freeMapSector] ⟨{ m1 with freeMapFile := some ⟨freeMapSector, 0⟩ }, d1⟩ := by
    refine ⟨hok.layout, hok.bitCnt, hok.small, hok.inode, hok.disk, hok.length, fun file hf => ?_⟩
    cases hf
    refine ⟨rfl, List.mem_singleton_self _, ?_, ?_⟩
    · refine hext.isDir.trans ?_
      dsimp only
      rw [update_self, FsInv.isDir_create]
    · rw [hlen, hfile]
  obtain ⟨d2, hwrite, honly, hstored⟩ := hopen.exec_bitmapWrite rfl u depth
  have hmem : freeMapSector ∈ [freeMapSector] := List.mem_singleton_self _
  have hinode : d2 freeMapSector = d1 freeMapSector := hopen.inode_of_onlyData hmem honly hmem
  refine ⟨_, ?_, (hopen.onlyData hmem honly).restrict, rfl, hstored, hext.marks _ hroot, ?_, ?_, ?_⟩
  · refine (exec_bind_of_eq exec_getMem).trans ((exec_bind_of_eq hcreate).trans ?_)
    refine (exec_bind_of_eq exec_getMem).trans ((exec_bind_of_eq (exec_setMem _)).trans ?_)
    exact (exec_bind_of_eq hwrite).trans (exec_pure _)
  · rintro j v ⟨hj, hv⟩
    obtain rfl : j = freeMapSector := by simpa using hj
    dsimp only at hv ⊢
    rw [hinode] at hv
    rw [hopen.ptr_of_onlyData hmem honly hmem hv]
    exact hunused _ v ⟨hj, hv⟩
  · dsimp only
    rw [hinode, hlen, hfile]
  · dsimp only
    omega

/-- **`do_format`** on a blank disk of at least 4 sectors, if its free map fits into a file. -/
theorem exec_doFormat (h4 : 4 ≤ n) (hn : n ≤ 4096 * maxBlocks) (d : Disk) :
    ∃ w, (doFormat u (depth + 1)).exec n ⟨freeMapInit n, d⟩ = some ((), w) ∧
      FsOk n [rootDirSector, freeMapSector] w ∧
      w.mem.freeMapFile = some ⟨freeMapSector, 0⟩ ∧ FsInv.Stored w ∧
      w.mem.freeMap.freeCnt + sectorNeed (mapBlocks n) 0 + 3 = n := by
  obtain ⟨⟨m1, d1⟩, hmap, hok, hfile, hstored, hmark, hunused, hlen, hfree⟩ :=
    exec_freeMapCreate u depth h4 hn d
  dsimp only at hfile hmark hlen hfree
  have hroom := sectorNeed_mapBlocks h4
  -- the root directory
  have hnew : newSectors 0 ((16 * dirEntrySize : Nat) : Int) = 1 :=
    newSectors_zero (16 * dirEntrySize) (by decide)
  have hmem : freeMapSector ∈ [freeMapSector] := List.mem_singleton_self _
  obtain ⟨-, hheader, -, hbytes⟩ := hok.addInode (show 1 < n by omega) hmark hunused
    (FsInv.length_create _ _)
  obtain ⟨r, ⟨m2, d2⟩, hroot, hok2, hext, hres⟩ := hok.exec_inodeCreate
    (show 1 < n by omega) hmark hunused u depth rootDirSector
    ((16 * dirEntrySize : Nat) : Int) (by decide) (by decide) true
    (by rw [hnew]; exact growFits_of_need (by decide) (show 1 ≤ m1.freeMap.freeCnt by omega))
  rw [hnew, show sectorNeed 1 0 = 1 from rfl] at hres
  obtain ⟨rfl, -, hfree2⟩ := hres.resolve_left (by omega)
  dsimp only at hfree2
  have hstored2 : FsInv.Stored ⟨m2, d2⟩ := by
    refine hext.stored (by rw [hfile]; simp) fun pos hpos => ?_
    rw [← hstored pos hpos]
    refine hbytes _ hmem pos ?_
    rw [hlen]
    exact hpos
  refine ⟨⟨m2, d2⟩, ?_, hok2, hext.file.trans hfile, hstored2, by dsimp only; omega⟩
  exact (exec_bind_of_eq hmap).trans ((exec_bind_of_eq hroot).trans (exec_pure _))

variable {inodes : List Nat} {m : FreeMap} {d : Disk}

theorem exec_readMap (h : FsOk n inodes ⟨m, d⟩) (hfile : m.freeMapFile = some ⟨freeMapSector, 0⟩)
    (hstored : FsInv.Stored ⟨m, d⟩) (m' : FreeMap) (hcnt : m'.freeMap.bitCnt = n) :
    ∃ bs, (inodeReadAt u ⟨freeMapSector, 0⟩ m'.freeMap.fileSize 0).exec n ⟨m', d⟩
        = some (bs, ⟨m', d⟩) ∧ bs.length = m'.freeMap.fileSize ∧
      ∀ i, (Bitmap.ofBytes m'.freeMap.bitCnt fun j => bs.getD j 0).bits i
        = (decide (i < n) && m.freeMap.bits i) := by
  obtain ⟨-, hmem, -, hsize⟩ := h.map _ hfile
  have hread := h.exec_inodeReadAt ⟨freeMapSector, 0⟩ hmem u m.freeMap.fileSize
    (Int.le_trans (Int.ofNat_le.mpr (Nat.zero_le _)) hsize)
  dsimp only at hread hsize
  rw [Nat.sub_zero, Int.toNat_natCast, Nat.min_eq_left (by omega)] at hread
  generalize hbs : (List.range m.freeMap.fileSize).map
    (fun j => fileByte d freeMapSector (0 + j)) = bs at hread
  have hagree : ∀ i < m.freeMap.fileSize, bs.getD i 0 = m.freeMap.byte i := by
    intro i hi
    rw [← hstored i hi, ← hbs]
    simp [hi]
  have hbits : m.freeMap.bitCnt = n := h.bitCnt
  have hsame : m'.freeMap.fileSize = m.freeMap.fileSize := by
    rw [Bitmap.fileSize, hcnt, ← hbits, Bitmap.fileSize]
  rw [hsame]
  refine ⟨bs, ?_, by rw [← hbs, List.length_map, List.length_range], fun i => ?_⟩
  · exact ((reads_inodeReadAt u _ _ _).silent.exec n m m' d).trans (congrArg (Option.map _) hread)
  · rw [hcnt]
    by_cases hi : i < n
    · rw [decide_eq_true hi, Bool.true_and, ← hbits]
      exact Bitmap.ofBytes_byte hagree (hbits.symm ▸ hi)
    · rw [decide_eq_false hi, Bool.false_and, Bitmap.ofBytes]
      dsimp only
      rw [decide_eq_false hi, Bool.false_and]

/-- **`free_map_open`** makes the map of what its file holds, whatever it was before. -/
theorem exec_freeMapOpen (h : FsOk n inodes ⟨m, d⟩)
    (hfile : m.freeMapFile = some ⟨freeMapSector, 0⟩) (hstored : FsInv.Stored ⟨m, d⟩) (m' : FreeMap)
    (hcnt : m'.freeMap.bitCnt = n) :
    ∃ b : Bitmap, (freeMapOpen u).exec n ⟨m', d⟩ = some ((), ⟨⟨b, some ⟨freeMapSector, 0⟩⟩, d⟩) ∧
      b.bitCnt = n ∧ ∀ i, b.bits i = (decide (i < n) && m.freeMap.bits i) := by
  obtain ⟨bs, hread, hlen, hbits⟩ := exec_readMap u h hfile hstored m' hcnt
  refine ⟨Bitmap.ofBytes m'.freeMap.bitCnt fun i => bs.getD i 0, ?_, hcnt, hbits⟩
  refine (exec_bind_of_eq exec_getMem).trans ((exec_bind_of_eq hread).trans ?_)
  rw [if_pos hlen, exec_setMem]

/-- **`filesys_init` formats a disk** of at least 4 sectors, if its free map fits into a file. -/
theorem exec_filesysInit (h4 : 4 ≤ n) (hn : n ≤ 4096 * maxBlocks) (d : Disk) :
    ∃ w, (filesysInit u (depth + 1)).exec n ⟨freeMapInit n, d⟩ = some ((), w) ∧
      FsOk n [rootDirSector, freeMapSector] w ∧
      w.mem.freeMapFile = some ⟨freeMapSector, 0⟩ ∧
      w.mem.freeMap.freeCnt + sectorNeed (mapBlocks n) 0 + 3 = n := by
  obtain ⟨⟨m, d'⟩, hformat, hok, hfile, hstored, hfree⟩ := exec_doFormat u depth h4 hn d
  obtain ⟨b, hopen, hcnt, hbits⟩ := exec_freeMapOpen u hok hfile hstored m hok.bitCnt
  have hsame : ∀ i < n, b.bits i = m.freeMap.bits i := fun i hi => by
    rw [hbits, decide_eq_true hi, Bool.true_and]
  refine ⟨_, (exec_bind_of_eq hformat).trans hopen,
    ⟨⟨hok.layout.parent, hok.layout.lt, fun j v hv => ?_, hok.layout.inj⟩, hcnt, hok.small,
      hok.inode, hok.disk, hok.length, fun file hf => ?_⟩, rfl, ?_⟩
  · rw [hsame _ (hok.layout.lt j v hv)]
    exact hok.layout.used j v hv
  · obtain ⟨h1, h2, h3, h4⟩ := hok.map file (hfile.trans hf)
    refine ⟨h1, h2, h3, ?_⟩
    rw [Bitmap.fileSize, hcnt, ← hok.bitCnt]
    exact h4
  · have hcount := Bitmap.freeCnt_congr (hcnt.trans hok.bitCnt.symm) fun i hi =>
      hsame i (hok.bitCnt ▸ hi)
    rw [hcount]
    exact hfree

end Format

/-- A fresh disk of eight sectors, of which four are free. -/
theorem exists_formatted : ∃ w, (filesysInit ⟨0, Block.fill 512 0, 0⟩ 1).exec 8
      ⟨freeMapInit 8, fun _ => Block.fill 512 0⟩ = some ((), w) ∧
    FsOk 8 [rootDirSector, freeMapSector] w ∧ w.mem.freeMap.freeCnt = 4 := by
  obtain ⟨w, hinit, hok, -, hfree⟩ := exec_filesysInit ⟨0, Block.fill 512 0, 0⟩ 0 (n := 8)
    (by decide) (by decide) fun _ => Block.fill 512 0
  rw [show sectorNeed (mapBlocks 8) 0 = 1 from rfl] at hfree
  exact ⟨w, hinit, hok, by omega⟩

/-- An empty file or directory on it. -/
theorem exists_emptyInode (isDir : Bool) : ∃ w0 w1 w s,
    (filesysInit ⟨0, Block.fill 512 0, 0⟩ 1).exec 8 ⟨freeMapInit 8, fun _ => Block.fill 512 0⟩
      = some ((), w0) ∧
    (freeMapAllocateAt ⟨0, Block.fill 512 0, 0⟩ 1).exec 8 w0 = some (some s, w1) ∧
    (inodeCreate ⟨0, Block.fill 512 0, 0⟩ 1 rootDirSector s 0 isDir).exec 8 w1 = some (true, w) ∧
    FsOk 8 [s, rootDirSector, freeMapSector] w ∧ s ≠ freeMapSector ∧
    InodeDisk.length (w.disk s) = 0 ∧ w.mem.freeMap.freeCnt = 3 := by
  obtain ⟨w0, hinit, hok, hfree⟩ := exists_formatted
  obtain ⟨s, w1, halloc, hcreate⟩ := hok.exec_allocateCreate ⟨0, Block.fill 512 0, 0⟩ 0 (by omega)
  obtain ⟨r, w, hexec, hok, hfresh, hres⟩ := hcreate rootDirSector 0 isDir le_rfl (by decide)
    (newSectors_zero 0 (by decide) ▸ trivial)
  rw [show newSectors 0 0 = 0 from newSectors_zero 0 (by decide), sectorNeed] at hres
  obtain ⟨rfl, hlen, hcnt⟩ := hres.resolve_left (by omega)
  refine ⟨w0, w1, w, s, hinit, halloc, hexec, hok, ?_, hlen, by omega⟩
  rintro rfl
  exact hfresh (by simp)

end Pintos
