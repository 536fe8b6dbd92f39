import Pintos.Filesys.Growth

/-!
# Growing a file

`inode_expand` around its loop: how many sectors it asks for, and what storing the header makes of
what the loop has done.

* `blocks_add_newSectors`: the blocks there are and the new ones make the blocks there will be.
* `FsInv.commit`: the header that is stored leads to what the loop has built.
* `FsInv.exec_inodeExpand_cases`: `inode_expand` on any disk.
* `FsInv.exec_inodeExpand`: on a growth that fits, the file grows, or the files are as they were.
-/

namespace Pintos

open Bytes Prog
open Function (update update_of_ne update_self)

/-! ## The number of blocks -/

theorem bytesToSectors_of_mem {z : Int} (h0 : -511 ≤ z) (h1 : z + 511 < 2 ^ 31) :
    bytesToSectors z = (z + 511).toNat / 512 := by
  rw [bytesToSectors, wrap32_of_mem (by omega) h1, Int.tdiv_eq_ediv_of_nonneg (by omega),
    unsigned32_of_mem (by omega) (by omega)]
  omega

section

variable {b : Sector} (h0 : 0 ≤ InodeDisk.length b)
include h0

theorem snipByte_mem :
    0 ≤ blocks b * 512 - InodeDisk.length b ∧ blocks b * 512 - InodeDisk.length b ≤ 511 := by
  rw [blocks]
  omega

variable (h1 : InodeDisk.length b ≤ maxLength)
include h1

theorem bytesToSectors_length : bytesToSectors (InodeDisk.length b) = blocks b := by
  rw [maxLength_eq] at h1
  rw [bytesToSectors_of_mem (by omega) (by omega), blocks]
  omega

theorem snipByte_eq : snipByte (InodeDisk.length b) = blocks b * 512 - InodeDisk.length b := by
  have hlt := h1
  rw [snipByte, wrap32_unsigned32, bytesToSectors_length h0 h1, wrap32_of_mem] <;>
    rw [blocks] <;> omega

/-- The blocks there are and the new sectors make the blocks there will be, unless the sum in
`DIV_ROUND_UP` overflows. -/
theorem blocks_add_newSectors (ext : Int) (he0 : 0 ≤ ext)
    (he1 : ext - (blocks b * 512 - InodeDisk.length b) + 511 < 2 ^ 31) :
    blocks b + newSectors (InodeDisk.length b) ext
      = ((InodeDisk.length b).toNat + ext.toNat + 511) / 512 := by
  have hsnip := snipByte_mem h0
  rw [newSectors, snipByte_eq h0 h1, wrap32_of_mem (by omega) (by omega),
    bytesToSectors_of_mem (by omega) he1]
  omega

theorem newSectors_eq (len : Nat) (hle : InodeDisk.length b ≤ len) (hlen : len ≤ maxLength) :
    newSectors (InodeDisk.length b) (len - InodeDisk.length b)
      = (len + 511) / 512 - blocks b := by
  rw [maxLength_eq] at hlen
  have hsum : (InodeDisk.length b).toNat + ((len : Int) - InodeDisk.length b).toNat = len := by
    omega
  have hnew := blocks_add_newSectors h0 h1 (len - InodeDisk.length b) (by omega) (by omega)
  rw [hsum, Nat.add_comm] at hnew
  exact Nat.eq_sub_of_add_eq hnew

theorem maxBlocks_lt_newSectors {ext : Int} (he0 : ext < 2 ^ 31)
    (he1 : ¬ ext - (blocks b * 512 - InodeDisk.length b) + 511 < 2 ^ 31) :
    maxBlocks < newSectors (InodeDisk.length b) ext := by
  have hsnip := snipByte_mem h0
  rw [newSectors, snipByte_eq h0 h1, wrap32_of_mem (by omega) (by omega), maxBlocks_eq,
    bytesToSectors]
  have hz : ext - (blocks b * 512 - InodeDisk.length b) + 511 < 2 ^ 31 + 511 := by omega
  generalize ext - (blocks b * 512 - InodeDisk.length b) + 511 = z at *
  -- the sum wraps to a negative number, and its quotient to a huge one
  have hwrap : wrap32 z = z - 2 ^ 32 := by
    rw [wrap32, Int.bmod_def]
    omega
  have hdiv : -4194304 ≤ (z - 2 ^ 32).tdiv 512 ∧ (z - 2 ^ 32).tdiv 512 < 0 := by
    have hneg := Int.tdiv_eq_ediv_of_nonneg (a := -(z - 2 ^ 32)) (b := 512) (by omega)
    rw [Int.neg_tdiv] at hneg
    omega
  rw [hwrap, unsigned32]
  omega

end

/-! ## The whole of `inode_expand` -/

theorem length_setLength (b : Sector) {len : Int} (h0 : 0 ≤ len) (h1 : len < 2 ^ 31) :
    InodeDisk.length (InodeDisk.setLength b len) = len := by
  rw [InodeDisk.length, InodeDisk.setLength, unsigned32_of_mem h0 (by omega),
    Block.word_write_self _ (by decide) (by omega), wrap32_of_mem] <;> omega

theorem isDir_setLength (b : Sector) (len : Int) :
    InodeDisk.isDir (InodeDisk.setLength b len) = InodeDisk.isDir b := by
  rw [InodeDisk.isDir, InodeDisk.setLength, Block.get_write _ _ _ (by decide), if_neg (by simp),
    InodeDisk.isDir]

theorem Use.ptr_setLength {v : Use} (hv : v.parent = none) (d : Disk) (i : Nat) (b : Sector)
    (len : Int) : v.ptr d i (InodeDisk.setLength b len) = v.ptr d i b := by
  refine ptr_write_of_ne hv ?_ _
  cases v with
  | inode => exact .inl rfl
  | data k => exact .inr (by simp only [slot]; omega)
  | second j => simp [parent] at hv
  | _ => simp [slot]

/-- The invariant between calls. -/
abbrev FsOk (n : Nat) (inodes : List Nat) (w : FsWorld) : Prop :=
  FsInv n inodes w w.disk (OnDisk inodes w.disk)

/-- What `inode_expand` leaves alone, on the way from `w` to `w'`. -/
structure Extended (inodes : List Nat) (i₀ : Nat) (w w' : FsWorld) : Prop where
  header : ∀ j ∈ inodes, j ≠ i₀ → w'.disk j = w.disk j
  /-- Whether the inode is a directory. -/
  isDir : InodeDisk.isDir (w'.disk i₀) = InodeDisk.isDir (w.disk i₀)
  /-- The bytes there were in any file but the free map's. -/
  bytes : ∀ j ∈ inodes, j ≠ freeMapSector → ∀ pos < (InodeDisk.length (w.disk j)).toNat,
    fileByte w'.disk j pos = fileByte w.disk j pos
  file : w'.mem.freeMapFile = w.mem.freeMapFile
  /-- That it holds the map, if it does. -/
  stored : w.mem.freeMapFile ≠ none → FsInv.Stored w → FsInv.Stored w'
  marks : ∀ s, w.mem.freeMap.bits s = true → w'.mem.freeMap.bits s = true
  /-- The sectors that were marked: what is newly live was not. -/
  fresh : ∀ j v, OnDisk inodes w'.disk j v →
    OnDisk inodes w.disk j v ∧ v.ptr w'.disk j (w'.disk j) = v.ptr w.disk j (w.disk j) ∨
      w.mem.freeMap.bits (v.ptr w'.disk j (w'.disk j)) = false

namespace FsInv

variable {n : Nat} {inodes : List Nat} {w w' : FsWorld} {m : FreeMap} {d : Disk}
  {hdr hdr' : Nat → Sector} {L L' : Nat → Use → Prop} {inode : Inode} {i₀ c : Nat}

theorem commit (h : FsInv n inodes ⟨m, d⟩ hdr L) (hi : i₀ ∈ inodes) (h' : Sector)
    (hlive : ∀ v, L i₀ v ↔ v.Live (blocks h'))
    (hroot : ∀ v : Use, v.parent = none → v.ptr d i₀ h' = v.ptr d i₀ (hdr i₀))
    (hlen : InodeDisk.length (d i₀) ≤ InodeDisk.length h' ∧ InodeDisk.length h' ≤ maxLength)
    (hdir : InodeDisk.isDir h' = InodeDisk.isDir (d i₀)) :
    FsOk n inodes ⟨m, update d i₀ h'⟩ ∧
      ∀ j v, OnDisk inodes (update d i₀ h') j v →
        L j v ∧ v.ptr (update d i₀ h') j (update d i₀ h' j)
          = v.ptr d j (hdr j) := by
  have hinode : L i₀ .inode := (h.inode i₀).mpr hi
  have hwords : Layout.SameWords hdr L d (update d i₀ h') := by
    refine h.layout.sameWords_of_leaves fun s hs => ⟨i₀, .inode, hinode, .inl rfl, ?_⟩
    by_contra hne
    exact hs (update_of_ne (Ne.symm hne) _ _)
  have hptr : ∀ j v, OnDisk inodes (update d i₀ h') j v → L j v ∧
      v.ptr (update d i₀ h') j (update d i₀ h' j) = v.ptr d j (hdr j) := by
    rintro j v ⟨hj, hv⟩
    by_cases hji : j = i₀
    · subst hji
      rw [update_self] at hv ⊢
      have hL := (hlive v).mpr hv
      have hroots : ∀ i u, L i u → u.parent = none →
          u.ptr d i (update hdr j h' i) = u.ptr d i (hdr i) := by
        intro i u _ hp
        by_cases hij : i = j
        · subst hij
          rw [update_self]
          exact hroot u hp
        · rw [update_of_ne hij]
      have hcongr := Layout.ptr_congr h.layout.parent hwords hroots j v hL
      rw [update_self] at hcongr
      exact ⟨hL, hcongr⟩
    · rw [update_of_ne hji] at hv ⊢
      obtain ⟨hL, heq⟩ := h.disk j hj v hv
      exact ⟨hL, (h.onDisk.ptr_eq (h.sameWords_onDisk hwords) j v ⟨hj, hv⟩).trans heq⟩
  have hlength : ∀ j ∈ inodes, InodeDisk.length (d j)
      ≤ InodeDisk.length (update d i₀ h' j) ∧
        InodeDisk.length (update d i₀ h' j) ≤ maxLength := by
    intro j hj
    by_cases hji : j = i₀
    · rw [hji, update_self]
      exact hlen
    · rw [update_of_ne hji]
      exact ⟨le_rfl, (h.length j hj).2⟩
  have hblocks : ∀ j ∈ inodes, blocks (update d i₀ h' j) ≤ maxBlocks := by
    intro j hj
    have := (hlength j hj).2
    rw [maxLength_eq] at this
    rw [blocks, maxBlocks_eq]
    omega
  refine ⟨⟨?_, h.bitCnt, h.small, fun i => ⟨fun hi => hi.1, fun hi => ⟨hi, trivial⟩⟩,
    fun _ hj _ hv => ⟨⟨hj, hv⟩, rfl⟩, fun j hj => ?_, fun file hf => ?_⟩, hptr⟩
  · refine h.layout.transfer (fun j v hv => (hptr j v hv).1) (fun j v p k hv hp => ?_)
      (fun j v hv => (hptr j v hv).2) fun _ hs => hs
    obtain ⟨hp1, hp2⟩ := hv.2.parent (hblocks j hv.1) hp
    exact ⟨⟨hv.1, hp1⟩, hp2⟩
  · exact ⟨Int.le_trans (h.length j hj).1 (hlength j hj).1, (hlength j hj).2⟩
  · obtain ⟨h1, h2, h3, h4⟩ := h.map file hf
    refine ⟨h1, h2, ?_, h4.trans (hlength _ h2).1⟩
    dsimp only at h3 ⊢
    by_cases hji : freeMapSector = i₀
    · rw [hji, update_self, hdir, ← hji, h3]
    · rw [update_of_ne hji, h3]

theorem fileByte_of_grows (hgrow : Grows i₀ c w w.disk (OnDisk inodes w.disk) w' hdr' L')
    {j pos : Nat} (hj : j ∈ inodes) (hj0 : j ≠ freeMapSector)
    (hpos : pos < (InodeDisk.length (w.disk j)).toNat)
    (hptr : (Use.data (pos / 512)).ptr d j (d j) = (Use.data (pos / 512)).ptr w'.disk j (hdr' j))
    (hsec : d ((Use.data (pos / 512)).ptr w'.disk j (hdr' j))
      = w'.disk ((Use.data (pos / 512)).ptr w'.disk j (hdr' j))) :
    fileByte d j pos = fileByte w.disk j pos := by
  have hlive : OnDisk inodes w.disk j (.data (pos / 512)) := ⟨hj, div_lt_blocks hpos⟩
  rw [fileByte, fileByte, hptr, hsec, hgrow.ptr j _ hlive,
    hgrow.kept j _ hlive (.inr ⟨_, rfl⟩) (.inl hj0)]

theorem extended_of_fail (h : FsInv n inodes w' hdr' L')
    (hgrow : Grows i₀ c w w.disk (OnDisk inodes w.disk) w' hdr' L') (hi : i₀ ∈ inodes) :
    FsOk n inodes w' ∧ Extended inodes i₀ w w' ∧ w'.disk i₀ = w.disk i₀ := by
  have hheader : ∀ j ∈ inodes, w'.disk j = w.disk j := fun j hj =>
    hgrow.kept j .inode ⟨hj, trivial⟩ (.inl rfl) (.inr fun _ => by simp)
  refine ⟨h.restrict, ⟨fun j hj _ => hheader j hj, by rw [hheader i₀ hi],
    fun j hj hj0 pos hpos => ?_, hgrow.file, hgrow.stored, hgrow.marks, ?_⟩, hheader i₀ hi⟩
  · have hlive := div_lt_blocks hpos
    refine fileByte_of_grows hgrow hj hj0 hpos ?_ rfl
    rw [← hheader j hj] at hlive
    exact (h.disk j hj (.data (pos / 512)) hlive).2
  · rintro j v ⟨hj, hv⟩
    have hold : OnDisk inodes w.disk j v := ⟨hj, hheader j hj ▸ hv⟩
    exact .inl ⟨hold, (h.disk j hj v hv).2.trans (hgrow.ptr j v hold)⟩

theorem extended_of_commit (h : FsInv n inodes ⟨m, d⟩ hdr' L')
    (hgrow : Grows i₀ c w w.disk (OnDisk inodes w.disk) ⟨m, d⟩ hdr' L') (hi : i₀ ∈ inodes)
    {len : Int} (hlive : ∀ v, L' i₀ v ↔ v.Live ((len.toNat + 511) / 512))
    (hlen : InodeDisk.length (w.disk i₀) ≤ len ∧ len ≤ maxLength) (h0 : 0 ≤ len) :
    FsOk n inodes ⟨m, update d i₀ (InodeDisk.setLength (hdr' i₀) len)⟩ ∧
      Extended inodes i₀ w ⟨m, update d i₀ (InodeDisk.setLength (hdr' i₀) len)⟩ := by
  have hlength := length_setLength (hdr' i₀) h0 (Int.lt_of_le_of_lt hlen.2 (by decide))
  have hheader : ∀ j ∈ inodes, d j = w.disk j := fun j hj =>
    hgrow.kept j .inode ⟨hj, trivial⟩ (.inl rfl) (.inr fun _ => by simp)
  have hdir :
      InodeDisk.isDir (InodeDisk.setLength (hdr' i₀) len) = InodeDisk.isDir (w.disk i₀) := by
    rw [isDir_setLength, hgrow.header.isDir]
  obtain ⟨hok, hptr⟩ := h.commit hi (InodeDisk.setLength (hdr' i₀) len)
    (by rw [blocks, hlength]; exact hlive) (fun v hv => Use.ptr_setLength hv _ _ _ _)
    (by rw [hlength, hheader i₀ hi]; exact hlen) (by rw [hdir, hheader i₀ hi])
  generalize InodeDisk.setLength (hdr' i₀) len = h' at *
  -- the sectors of the data are not that of the inode
  have hdata : ∀ j ∈ inodes, ∀ pos, pos < (InodeDisk.length (w.disk j)).toNat →
      (Use.data (pos / 512)).ptr (update d i₀ h') j (update d i₀ h' j)
          = (Use.data (pos / 512)).ptr d j (hdr' j) ∧
        update d i₀ h' ((Use.data (pos / 512)).ptr d j (hdr' j))
          = d ((Use.data (pos / 512)).ptr d j (hdr' j)) := by
    intro j hj pos hpos
    have hblock : pos / 512 < blocks (update d i₀ h' j) := by
      refine div_lt_blocks ?_
      by_cases hji : j = i₀
      · subst hji
        rw [update_self]
        omega
      · rw [update_of_ne hji, hheader j hj]
        exact hpos
    obtain ⟨hL, heq⟩ := hptr j (.data (pos / 512)) ⟨hj, hblock⟩
    refine ⟨heq, update_of_ne (fun hs => ?_) _ _⟩
    have := (h.layout.inj j i₀ (.data (pos / 512)) .inode hL ((h.inode i₀).mpr hi) hs).2
    cases this
  refine ⟨hok, fun j hj hji => ?_, ?_, fun j hj hj0 pos hpos => ?_, hgrow.file,
    fun hf hs => ?_, hgrow.marks, fun j v hv => ?_⟩
  · dsimp only
    rw [update_of_ne hji, hheader j hj]
  · dsimp only
    rw [update_self, hdir]
  · obtain ⟨h1, h2⟩ := hdata j hj pos hpos
    exact fileByte_of_grows hgrow hj hj0 hpos h1 h2
  · intro pos hpos
    have hs' := hgrow.stored hf hs pos hpos
    rcases hfile : m.freeMapFile with _ | file
    · exact absurd (hgrow.file.symm.trans hfile) hf
    · obtain ⟨-, hmem, -, hsize⟩ := h.map file hfile
      dsimp only at hpos hs' hsize ⊢
      rw [hheader _ hmem] at hsize
      have hin : pos < (InodeDisk.length (w.disk freeMapSector)).toNat :=
        Int.lt_toNat.mpr (Int.lt_of_lt_of_le (Int.ofNat_lt.mpr hpos) hsize)
      obtain ⟨h1, h2⟩ := hdata _ hmem pos hin
      rw [← hs', fileByte, h1, h2, fileByte]
      have hblock : pos / 512 < blocks (d freeMapSector) :=
        div_lt_blocks (by rw [hheader _ hmem]; exact hin)
      rw [show (Use.data (pos / 512)).ptr d freeMapSector (d freeMapSector) = _ from
        (h.disk _ hmem (.data (pos / 512)) hblock).2]
  · obtain ⟨hL, heq⟩ := hptr j v hv
    rw [heq]
    rcases hgrow.fresh j v hL with hold | hfree
    · exact .inl ⟨hold, hgrow.ptr j v hold⟩
    · exact .inr hfree

/-- What `inode_expand` of a file by `ext` bytes leads to: the file grows, or the disk has not the
sectors for it, and the files are as they were. -/
structure Expanded (n : Nat) (inodes : List Nat) (i : Nat) (ext : Int) (w : FsWorld) (r : Bool)
    (w' : FsWorld) : Prop where
  ok : FsOk n inodes w'
  extended : Extended inodes i w w'
  result : r = false ∧ w'.disk i = w.disk i ∧ w.mem.freeMap.freeCnt
      < sectorNeed (newSectors (InodeDisk.length (w.disk i)) ext) (blocks (w.disk i)) ∨
    r = true ∧ InodeDisk.length (w'.disk i) = InodeDisk.length (w.disk i) + ext ∧
      w'.mem.freeMap.freeCnt + sectorNeed (newSectors (InodeDisk.length (w.disk i)) ext)
        (blocks (w.disk i)) = w.mem.freeMap.freeCnt

variable {k remain : Nat}

theorem live_of_looped {allocSec b' : Nat} {free : List Nat}
    (h : Looped i₀ k k remain allocSec free w' hdr' L' b')
    (hfree : sectorNeed remain k ≤ free.length) (hmax : k + remain ≤ maxBlocks) (v : Use) :
    L' i₀ v ↔ v.Live (k + remain) := by
  rw [h.live, Nat.min_eq_left hmax]
  refine ⟨fun hv => hv.1, fun hv => ⟨hv, ?_⟩⟩
  rintro j rfl
  have hj : j < k + remain := hv
  have hle := h.le
  rcases Nat.lt_or_ge j k with hlt | hge
  · omega
  · have hown := (h.own (j - k) (by omega)).mpr
      (Nat.lt_of_lt_of_le (sectorNeed_lt (by omega)) hfree)
    omega

variable {allocate : FsProg (Option Nat)} {P : FsWorld → Prop}

section

variable (h : FsOk n inodes w) (inode : Inode) (hi : inode.sector ∈ inodes) (u : Uninit)
include h hi

/-- **`inode_expand`** on any disk, with anything for `free_map_allocate` that does what that does.
It returns false if the allocation of an index block fails, and otherwise stores the header with
whatever came to be in it. -/
theorem exec_inodeExpand_cases (hA : Allocates n inodes allocate P) (hP : P w) (ext : Int)
    (hk : blocks (w.disk inode.sector) = k)
    (hr : newSectors (InodeDisk.length (w.disk inode.sector)) ext = remain) :
    ∃ m' d' hdr' L', FsInv n inodes ⟨m', d'⟩ hdr' L' ∧
      Grows inode.sector
        (min w.mem.freeMap.freeCnt (sectorNeed (min remain (maxBlocks - k)) k)) w w.disk
        (OnDisk inodes w.disk) ⟨m', d'⟩ hdr' L' ∧
      (Refused remain k w.mem.freeMap.freeCnt ∧
          (inodeExpand u allocate inode ext).exec n w = some (false, ⟨m', d'⟩) ∧
          (w.mem.freeMap.freeCnt = 0 → 0 < indexNeed k → (⟨m', d'⟩ : FsWorld) = w) ∧
          (w.mem.freeMap.freeCnt = 0 → indexNeed k = 0 →
            (Use.data k).ptr d' inode.sector (hdr' inode.sector) = u.allocSec % 2 ^ 32) ∨
        ¬ Refused remain k w.mem.freeMap.freeCnt ∧
          (∃ b', Looped inode.sector k k remain u.allocSec w.mem.freeMap.freeList ⟨m', d'⟩ hdr' L'
            b') ∧
          (inodeExpand u allocate inode ext).exec n w = some (true, ⟨m', update d'
            inode.sector (InodeDisk.setLength (hdr' inode.sector)
              (wrap32 (InodeDisk.length (w.disk inode.sector) + ext)))⟩)) := by
  obtain ⟨hlen0, hlen1⟩ := h.length _ hi
  obtain ⟨r, ⟨m', d'⟩, hdr', L', hloop, hinv, hgrow, -, hres⟩ := exec_expandLoop u hA remain
    u.allocSec h hP (hk ▸ h.blocks_le hi)
    (fun v => by
      rw [has_self, ← hk]
      exact ⟨fun hv => hv.2, fun hv => ⟨hi, hv⟩⟩) le_rfl (.inl rfl)
  have hexec : (inodeExpand u allocate inode ext).exec n w = _ :=
    (exec_bind_of_eq (exec_readSector (h.sector_lt hi))).trans
      (exec_bind_of_eq (h.exec_inodeLength hi))
  rw [hr, bytesToSectors_length hlen0 hlen1, hk, exec_bind_of_eq hloop] at hexec
  refine ⟨m', d', hdr', L', hinv, hgrow, ?_⟩
  rcases hres with ⟨rfl, href, hfull⟩ | ⟨rfl, hnot, hlooped⟩
  · exact .inl ⟨href, hexec.trans (exec_pure _), hfull⟩
  · refine .inr ⟨hnot, hlooped, ?_⟩
    rw [hexec]
    dsimp only
    rw [hgrow.header.length, exec_bind_of_eq (exec_writeSector (h.sector_lt hi) _), exec_pure]

/-- **`inode_expand`**, on a growth that fits, with anything for `free_map_allocate` that does what
that does. -/
theorem exec_inodeExpand_of_allocates (hA : Allocates n inodes allocate P) (hP : P w) (ext : Int)
    (h0 : 0 ≤ ext) (h1 : ext < 2 ^ 31)
    (hfits : GrowFits (newSectors (InodeDisk.length (w.disk inode.sector)) ext)
      (blocks (w.disk inode.sector)) w.mem.freeMap.freeCnt) :
    ∃ r w', (inodeExpand u allocate inode ext).exec n w = some (r, w') ∧
      Expanded n inodes inode.sector ext w r w' := by
  obtain ⟨hlen0, hlen1⟩ := h.length _ hi
  have hkmax := h.blocks_le hi
  generalize hk : blocks (w.disk inode.sector) = k at *
  generalize hr : newSectors (InodeDisk.length (w.disk inode.sector)) ext = remain at *
  obtain ⟨m', d', hdr', L', hinv, hgrow, hres⟩ :=
    h.exec_inodeExpand_cases inode hi u hA hP ext hk hr
  rcases hres with ⟨href, hexec, -⟩ | ⟨hnot, ⟨b', hloop⟩, hexec⟩
  · obtain ⟨hok, hext, hsame⟩ := extended_of_fail hinv hgrow hi
    refine ⟨false, _, hexec, hok, hext, .inl ⟨rfl, hsame, ?_⟩⟩
    rw [hk, hr]
    exact href.lt
  · obtain ⟨hfree, hmax⟩ := (growFits_cases hkmax hfits).resolve_left hnot
    have hlive := live_of_looped hloop (by rwa [Bitmap.length_freeList]) hmax
    have hblocks :
        k + remain = ((InodeDisk.length (w.disk inode.sector) + ext).toNat + 511) / 512 := by
      rw [Int.toNat_add hlen0 h0, ← hk, ← hr]
      refine blocks_add_newSectors hlen0 hlen1 ext h0 ?_
      by_contra hover
      have hlt := maxBlocks_lt_newSectors hlen0 hlen1 h1 hover
      rw [hr] at hlt
      exact absurd (Nat.le_trans (Nat.le_add_left _ _) hmax) (Nat.not_le.mpr hlt)
    have hsum : InodeDisk.length (w.disk inode.sector) + ext ≤ maxLength := by
      rw [hblocks, maxBlocks_eq] at hmax
      have hle := Int.self_le_toNat (InodeDisk.length (w.disk inode.sector) + ext)
      generalize (InodeDisk.length (w.disk inode.sector) + ext).toNat = len at *
      refine hle.trans (Int.ofNat_le.mpr ?_)
      rw [maxLength_eq]
      omega
    rw [hblocks] at hlive
    have hnonneg := Int.add_nonneg hlen0 h0
    obtain ⟨hok, hext⟩ := extended_of_commit hinv hgrow hi hlive
      ⟨Int.le_add_of_nonneg_right h0, hsum⟩ hnonneg
    rw [wrap32_of_mem (Int.le_trans (by decide) hnonneg)
      (Int.lt_of_le_of_lt hsum (by decide))] at hexec
    refine ⟨true, _, hexec, hok, hext, .inr ⟨rfl, ?_, ?_⟩⟩
    · dsimp only
      rw [update_self, length_setLength _ hnonneg (Int.lt_of_le_of_lt hsum (by decide))]
    · rw [hk, hr]
      have hcnt := hgrow.free
      rwa [show min remain (maxBlocks - k) = remain by omega, Nat.min_eq_right hfree] at hcnt

/-- **`inode_expand`**, on a growth that fits: the file grows, or the disk has not the sectors for
it, and the files are as they were. -/
theorem exec_inodeExpand (depth : Nat) (ext : Int) (h0 : 0 ≤ ext) (h1 : ext < 2 ^ 31)
    (hfits : GrowFits (newSectors (InodeDisk.length (w.disk inode.sector)) ext)
      (blocks (w.disk inode.sector)) w.mem.freeMap.freeCnt) :
    ∃ r w', (inodeExpand u (freeMapAllocateAt u (depth + 1)) inode ext).exec n w = some (r, w') ∧
      Expanded n inodes inode.sector ext w r w' :=
  h.exec_inodeExpand_of_allocates inode hi u (allocates_freeMapAllocateAt u depth) trivial ext h0
    h1 hfits

end

end FsInv

end Pintos
