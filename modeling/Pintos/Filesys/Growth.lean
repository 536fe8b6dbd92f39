import Pintos.Filesys.Invariant

/-!
# The loop of `inode_expand`

`inode_expand` adds the blocks of a file one at a time, each with the index blocks it is the first
to need.  Two things can go wrong: the allocation of a data sector is not checked, and nothing
stops the loop at the end of the third level.  What the loop does is worked out here for every disk,
full or not.

* `sectorNeed`, `Refused` and `newSector` say it in numbers: the sectors that some blocks need,
  whether the allocation of an index block among them fails, which the source does check, and what
  number goes into the index for each block.  `GrowFits` is the condition under which the first
  allocation to fail, if any does, is that of an index block.
* `Grows` is what one step and a whole run of the loop have in common: the uses that were live stay
  where they are, and inodes and data (of other files than the free map) keep their contents.
* `FsInv.place` has a sector join the file, and `FsInv.relabel` is the step of a block that gets
  none.
* `FsInv.exec_expandBody` and `FsInv.exec_expandLoop`: one block, and all of them.
-/

namespace Pintos

open Bytes Prog
open Function (update update_eq_self update_of_ne update_self)

/-! ## What a growth needs -/

/-- The index blocks that block `k` of a file is the first to need. -/
def indexNeed (k : Nat) : Nat :=
  if k < 64 then 0
  else if k < 192 then (if k = 64 then 1 else 0)
  else (if k = 192 then 1 else 0) + (if (k - 192) % 128 = 0 then 1 else 0)

/-- The sectors that the blocks from `k` on need, `remain` of them. -/
def sectorNeed : (remain k : Nat) → Nat
  | 0, _ => 0
  | remain + 1, k => indexNeed k + 1 + sectorNeed remain (k + 1)

/-- With `free` sectors left, the blocks from `k` on, `remain` of them, lie within the index, and
the first allocation to fail, if any does, is that of an index block. -/
def GrowFits : (remain k free : Nat) → Prop
  | 0, _, _ => True
  | remain + 1, k, free => k < maxBlocks ∧
    (free < indexNeed k ∨ indexNeed k < free ∧ GrowFits remain (k + 1) (free - indexNeed k - 1))

instance decidableGrowFits : (remain k free : Nat) → Decidable (GrowFits remain k free)
  | 0, _, _ => inferInstanceAs (Decidable True)
  | remain + 1, k, free =>
    have := decidableGrowFits remain (k + 1) (free - indexNeed k - 1)
    inferInstanceAs (Decidable (k < maxBlocks ∧ (free < indexNeed k ∨
      indexNeed k < free ∧ GrowFits remain (k + 1) (free - indexNeed k - 1))))

variable {remain k : Nat} {free : Nat}

theorem growFits_of_need (hk : k + remain ≤ maxBlocks)
    (hfree : sectorNeed remain k ≤ free) : GrowFits remain k free := by
  induction remain generalizing k free with
  | zero => trivial
  | succ remain ih =>
    rw [sectorNeed] at hfree
    exact ⟨by omega, .inr ⟨by omega, ih (by omega) (by omega)⟩⟩

theorem indexNeed_le (k : Nat) : indexNeed k ≤ 2 := by
  simp only [indexNeed]
  grind

/-- With `free` sectors left, the allocation of some index block fails, of those that the blocks
from `k` on need, `remain` of them. -/
def Refused (remain k free : Nat) : Prop :=
  ∃ j < remain, k + j < maxBlocks ∧ 0 < indexNeed (k + j) ∧
    free < sectorNeed j k + indexNeed (k + j)

theorem refused_succ (hk : k < maxBlocks) :
    Refused (remain + 1) k free ↔
      free < indexNeed k ∨ Refused remain (k + 1) (free - (indexNeed k + 1)) := by
  constructor
  · rintro ⟨j, hj, hmax, hpos, hlt⟩
    cases j with
    | zero => exact .inl (by simpa [sectorNeed] using hlt)
    | succ j =>
      rw [sectorNeed] at hlt
      rw [show k + (j + 1) = k + 1 + j by omega] at hmax hpos hlt
      exact .inr ⟨j, by omega, hmax, hpos, by omega⟩
  · rintro (hlt | ⟨j, hj, hmax, hpos, hlt⟩)
    · exact ⟨0, by omega, hk, by simp only [Nat.add_zero]; omega, by simpa [sectorNeed] using hlt⟩
    · refine ⟨j + 1, by omega, by omega, ?_, ?_⟩ <;> rw [show k + (j + 1) = k + 1 + j by omega]
      · exact hpos
      · rw [sectorNeed]
        omega

theorem sectorNeed_last (remain k : Nat) :
    sectorNeed (remain + 1) k = sectorNeed remain k + indexNeed (k + remain) + 1 := by
  induction remain generalizing k with
  | zero => simp [sectorNeed]
  | succ remain ih =>
    rw [sectorNeed, ih, sectorNeed, show k + 1 + remain = k + (remain + 1) by omega]
    omega

theorem sectorNeed_mono (k : Nat) {r r' : Nat} (h : r ≤ r') : sectorNeed r k ≤ sectorNeed r' k := by
  induction h with
  | refl => exact le_rfl
  | step _ ih =>
    rw [sectorNeed_last]
    omega

theorem sectorNeed_lt {j : Nat} (h : j < remain) :
    sectorNeed j k + indexNeed (k + j) < sectorNeed remain k := by
  have hle := sectorNeed_mono k h
  rw [sectorNeed_last] at hle
  omega

theorem Refused.lt (h : Refused remain k free) : free < sectorNeed remain k := by
  obtain ⟨j, hj, -, -, hlt⟩ := h
  exact hlt.trans (sectorNeed_lt hj)

theorem growFits_cases (hk : k ≤ maxBlocks) (h : GrowFits remain k free) :
    Refused remain k free ∨ sectorNeed remain k ≤ free ∧ k + remain ≤ maxBlocks := by
  induction remain generalizing k free with
  | zero => exact .inr ⟨Nat.zero_le _, hk⟩
  | succ remain ih =>
    obtain ⟨hmax, hlt | ⟨hlt, hrest⟩⟩ := h
    · exact .inl ((refused_succ hmax).mpr (.inl hlt))
    · rcases ih (show k + 1 ≤ maxBlocks from hmax) hrest with href | ⟨hfree, hle⟩
      · exact .inl ((refused_succ hmax).mpr (.inr href))
      · refine .inr ⟨?_, by omega⟩
        rw [sectorNeed]
        omega

theorem not_refused_zero (k free : Nat) : ¬ Refused 0 k free := by
  rintro ⟨j, hj, -⟩
  exact absurd hj (Nat.not_lt_zero j)

theorem not_refused_of_le (hk : maxBlocks ≤ k) : ¬ Refused remain k free := by
  rintro ⟨j, -, hmax, -⟩
  omega

/-- The sector that goes into the index for block `k + j`, when the blocks from `k` on are added and
the sectors `free` are left: its own, or `alloc_sec` as the block before it left that. -/
def newSector (free : List Nat) (allocSec k : Nat) : Nat → Nat
  | 0 => free.getD (indexNeed k) allocSec
  | j + 1 => free.getD (sectorNeed (j + 1) k + indexNeed (k + (j + 1)))
      (newSector free allocSec k j)

theorem newSector_succ (free : List Nat) (allocSec k j : Nat) :
    newSector free allocSec k (j + 1)
      = newSector (free.drop (indexNeed k + 1)) (free.getD (indexNeed k) allocSec) (k + 1) j := by
  have hdrop : ∀ i a,
      (free.drop (indexNeed k + 1)).getD i a = free.getD (indexNeed k + 1 + i) a := by
    intro i a
    simp
  induction j with
  | zero =>
    rw [newSector, newSector, newSector, hdrop]
    rfl
  | succ j ih =>
    rw [newSector, ih, newSector, hdrop, sectorNeed]
    congr 1
    rw [show k + (j + 1 + 1) = k + 1 + (j + 1) by omega]
    omega

/-! ## The header -/

/-- The fields of the header before the pointers are the same. -/
def SameMeta (b b' : Sector) : Prop := ∀ j < 20, b'.get j = b.get j

variable {b b' : Sector}

theorem SameMeta.word (h : SameMeta b b') (hk : k < 5) : b'.word k = b.word k := by
  rw [Block.word, Block.word, Block.read_congr fun j _ hj => h j (by omega)]

theorem SameMeta.length (h : SameMeta b b') : InodeDisk.length b' = InodeDisk.length b := by
  rw [InodeDisk.length, h.word (by decide), InodeDisk.length]

theorem SameMeta.isDir (h : SameMeta b b') : InodeDisk.isDir b' = InodeDisk.isDir b := by
  rw [InodeDisk.isDir, h 12 (by decide), InodeDisk.isDir]

theorem sameMeta_write (b : Sector) (hk : 5 ≤ k) (v : Nat) :
    SameMeta b (b.write (4 * k) (le32 v)) := by
  intro j hj
  rw [Block.get_write _ _ _ (by omega), if_neg (by omega)]

namespace Use

/-- The word of the header that holds the pointer to a use below no index block. -/
def slot : Use → Nat
  | data k => 5 + k
  | indirect => 69
  | doubly => 70
  | _ => 0

variable {d : Disk} {i : Nat} {h : Sector} {u : Use}

theorem data_lt_of_root {k : Nat} (hp : (data k).parent = none) : k < 64 := by
  simp only [parent] at hp
  split at hp
  · assumption
  · split at hp <;> simp at hp

section

variable (hp : u.parent = none)
include hp

theorem ptr_eq_slot (hu : u ≠ .inode) : u.ptr d i h = h.word u.slot := by
  cases u with
  | data k => simp [ptr, slot, InodeDisk.direct, data_lt_of_root hp]
  | inode => exact absurd rfl hu
  | second j => simp [parent] at hp
  | _ => rfl

theorem slot_lt : u.slot < 128 := by
  cases u with
  | data k =>
    have := data_lt_of_root hp
    simp only [slot]
    omega
  | _ => simp [slot]

theorem slot_inj {v : Use} (hu : u ≠ .inode) (hv : v.parent = none)
    (hv' : v ≠ .inode) (heq : u.slot = v.slot) : u = v := by
  cases u <;> cases v <;> simp only [slot] at heq <;> grind [parent]

theorem ptr_write_of_ne {k : Nat} (hk : u = .inode ∨ u.slot ≠ k) (v : Nat) :
    u.ptr d i (h.write (4 * k) (le32 v)) = u.ptr d i h := by
  by_cases hu : u = .inode
  · rw [hu]
    rfl
  · have := slot_lt hp
    rw [ptr_eq_slot hp hu, ptr_eq_slot hp hu, Block.word_write_ne _ (by omega)]
    exact hk.resolve_left hu

end

end Use

/-! ## What growing keeps -/

/-- From `w` to `w'`, sectors joined the inode in `i₀`, `c` of them in all. -/
structure Grows (i₀ c : Nat) (w : FsWorld) (hdr : Nat → Sector) (L : Nat → Use → Prop)
    (w' : FsWorld) (hdr' : Nat → Sector) (L' : Nat → Use → Prop) : Prop where
  live : ∀ j u, L j u → L' j u
  ptr : ∀ j u, L j u → u.ptr w'.disk j (hdr' j) = u.ptr w.disk j (hdr j)
  /-- Inodes and data keep their contents. -/
  kept : ∀ j u, L j u → Layout.Leaf u → FsInv.Kept j u →
    w'.disk (u.ptr w.disk j (hdr j)) = w.disk (u.ptr w.disk j (hdr j))
  /-- The header keeps its other fields. -/
  header : SameMeta (hdr i₀) (hdr' i₀)
  file : w'.mem.freeMapFile = w.mem.freeMapFile
  stored : w.mem.freeMapFile ≠ none → FsInv.Stored w → FsInv.Stored w'
  /-- The sectors come out of those that were free. -/
  free : w'.mem.freeMap.freeCnt + c = w.mem.freeMap.freeCnt
  taken : w'.mem.freeMap.freeList = w.mem.freeMap.freeList.drop c
  same : c = 0 → w'.mem = w.mem
  marks : ∀ s, w.mem.freeMap.bits s = true → w'.mem.freeMap.bits s = true
  /-- What is newly live was not marked. -/
  fresh : ∀ j u, L' j u → L j u ∨ w.mem.freeMap.bits (u.ptr w'.disk j (hdr' j)) = false
  /-- Only the free-map file is written, if the map changes, and index blocks of the inode. -/
  writes : ∀ x, w'.disk x ≠ w.disk x → (0 < c ∧ FsInv.MapData w x) ∨
    ∃ v, L' i₀ v ∧ ¬ Layout.Leaf v ∧ v.ptr w'.disk i₀ (hdr' i₀) = x

namespace Grows

variable {n : Nat} {inodes : List Nat} {i₀ c c' : Nat} {w w' w'' : FsWorld}
  {hdr hdr' hdr'' : Nat → Sector} {L L' L'' : Nat → Use → Prop}

theorem refl : Grows i₀ 0 w hdr L w hdr L :=
  ⟨fun _ _ h => h, fun _ _ _ => rfl, fun _ _ _ _ _ => rfl, fun _ _ => rfl, rfl, fun _ h => h, rfl,
    rfl, fun _ => rfl, fun _ h => h, fun _ _ h => .inl h, fun _ hx => absurd rfl hx⟩

section

variable (h0 : FsInv n inodes w hdr L)
include h0

theorem inode_eq (h : Grows i₀ c w hdr L w' hdr' L') {i : Nat}
    (hi : i ∈ inodes) : w'.disk i = w.disk i :=
  h.kept i .inode ((h0.inode i).mpr hi) (.inl rfl) (.inr fun _ => by simp)

theorem mapData (h1 : FsInv n inodes w' hdr' L')
    (h : Grows i₀ c w hdr L w' hdr' L') {x : Nat} (hx : FsInv.MapData w' x) :
    FsInv.MapData w x := by
  obtain ⟨hf, k, hk, hptr⟩ := hx
  rw [h.file] at hf
  obtain ⟨file, hfile⟩ := Option.ne_none_iff_exists'.mp hf
  obtain ⟨-, hmem, -⟩ := h0.map file hfile
  have hdisk := h1.disk _ hmem (.data k) hk
  rw [h.inode_eq h0 hmem] at hk
  have hold := h0.disk _ hmem (.data k) hk
  exact ⟨hf, k, hk, by rw [hold.2, ← h.ptr _ _ hold.1, ← hdisk.2, hptr]⟩

theorem trans (h₁ : FsInv n inodes w' hdr' L')
    (h : Grows i₀ c w hdr L w' hdr' L') (h' : Grows i₀ c' w' hdr' L' w'' hdr'' L'') :
    Grows i₀ (c + c') w hdr L w'' hdr'' L'' where
  live j u hu := h'.live j u (h.live j u hu)
  ptr j u hu := (h'.ptr j u (h.live j u hu)).trans (h.ptr j u hu)
  kept j u hu hl hk := by
    rw [← h.ptr j u hu, h'.kept j u (h.live j u hu) hl hk, h.ptr j u hu, h.kept j u hu hl hk]
  header j hj := (h'.header j hj).trans (h.header j hj)
  file := h'.file.trans h.file
  stored hf hs := h'.stored (h.file ▸ hf) (h.stored hf hs)
  free := by
    have h1 := h.free
    have h2 := h'.free
    omega
  taken := by rw [h'.taken, h.taken, List.drop_drop]
  same hc := (h'.same (Nat.eq_zero_of_add_eq_zero_left hc)).trans
    (h.same (Nat.eq_zero_of_add_eq_zero_right hc))
  marks s hs := h'.marks s (h.marks s hs)
  fresh j u hu := by
    rcases h'.fresh j u hu with hu | hfree
    · rw [h'.ptr j u hu]
      exact h.fresh j u hu
    · refine .inr (Bool.eq_false_iff.mpr fun hs => ?_)
      rw [h.marks _ hs] at hfree
      cases hfree
  writes x hx := by
    by_cases hlast : w''.disk x = w'.disk x
    · rcases h.writes x (hlast ▸ hx) with ⟨hc, hmap⟩ | ⟨v, hv, hl, hptr⟩
      · exact .inl ⟨Nat.add_pos_left hc _, hmap⟩
      · exact .inr ⟨v, h'.live _ v hv, hl, (h'.ptr _ v hv).trans hptr⟩
    · rcases h'.writes x hlast with ⟨hc, hmap⟩ | hindex
      · exact .inl ⟨Nat.add_pos_right _ hc, h.mapData h0 h₁ hmap⟩
      · exact .inr hindex

end

end Grows

namespace FsInv

variable {n : Nat} {inodes : List Nat} {m : FreeMap} {d d1 d' : Disk} {hdr : Nat → Sector}
  {L : Nat → Use → Prop} {i₀ s : Nat} {u₀ : Use}

theorem stored_of_quiet (h : FsInv n inodes ⟨m, d⟩ hdr L) (hq : Layout.Quiet hdr L d d')
    (hf : m.freeMapFile ≠ none) {b : Bitmap} (hsize : b.fileSize = m.freeMap.fileSize)
    (hs : ∀ pos < b.fileSize, fileByte d freeMapSector pos = b.byte pos) :
    ∀ pos < b.fileSize, fileByte d' freeMapSector pos = b.byte pos := by
  intro pos hpos
  obtain ⟨file, hfile⟩ := Option.ne_none_iff_exists'.mp hf
  obtain ⟨-, hmem, -, hlen⟩ := h.map file hfile
  rw [← hs pos hpos]
  refine h.fileByte_of_quiet hq hmem ?_
  dsimp only at hlen
  omega

/-- Sector `s` has joined the inode in `i₀` as `u₀`. -/
structure Joined (n : Nat) (inodes : List Nat) (i₀ : Nat) (u₀ : Use) (s : Nat) (w : FsWorld)
    (hdr : Nat → Sector) (L : Nat → Use → Prop) (w' : FsWorld) (hdr' : Nat → Sector) : Prop where
  inv : FsInv n inodes w' hdr' (Layout.Add L i₀ u₀)
  grows : Grows i₀ 1 w hdr L w' hdr' (Layout.Add L i₀ u₀)
  ptr : u₀.ptr w'.disk i₀ (hdr' i₀) = s

/-- **An allocated sector joins the inode** after quiet writes to index blocks. -/
theorem place (h : FsInv n inodes ⟨m, d⟩ hdr L) (ha : Allocated n inodes m d hdr L s d1)
    (hq : Layout.Quiet hdr L d1 d') (h' : Sector) (hu0 : u₀ ≠ .inode)
    (hmeta : SameMeta (hdr i₀) h')
    (hroot : ∀ u, L i₀ u → u.parent = none → u.ptr d1 i₀ h' = u.ptr d1 i₀ (hdr i₀))
    (hpar : ∀ p k, u₀.parent = some (p, k) → L i₀ p ∧ k < 128) (hnew : u₀.ptr d' i₀ h' = s)
    (hw : ∀ x, d' x ≠ d1 x → ∃ v, Layout.Add L i₀ u₀ i₀ v ∧ ¬ Layout.Leaf v ∧ v.ptr d' i₀ h' = x) :
    Joined n inodes i₀ u₀ s ⟨m, d⟩ hdr L ⟨{ m with freeMap := m.freeMap.mark s }, d'⟩
      (update hdr i₀ h') := by
  obtain ⟨hinv, hptr⟩ := ha.inv.join hq ha.lt ha.free hu0 hroot hpar hnew
  obtain ⟨rest, hrest⟩ := List.head?_eq_some_iff.mp ha.first
  refine ⟨hinv, ⟨fun _ _ hu => .inl hu, fun j u hu => (hptr j u hu).trans (ha.ptr j u hu),
    fun j u hu hl hk => ?_, by rw [update_self]; exact hmeta, rfl, fun hf _ => ?_,
    Bitmap.freeCnt_mark (h.bitCnt.symm ▸ ha.lt) ha.free, ?_, fun hc => absurd hc (by decide),
    m.freeMap.bits_mark, ?_, fun x hx => ?_⟩, by rw [update_self]; exact hnew⟩
  · dsimp only
    rw [← ha.kept j u hu hk, ← ha.ptr j u hu]
    exact hq.leaf j u hu hl
  · exact ha.inv.stored_of_quiet hq hf rfl (ha.stored hf)
  · rw [Bitmap.freeList_mark hrest, hrest]
    rfl
  · rintro j u (hu | ⟨rfl, rfl⟩)
    · exact .inl hu
    · refine .inr ?_
      rw [update_self, hnew]
      exact ha.free
  · by_cases hlast : d' x = d1 x
    · exact .inl ⟨Nat.zero_lt_one, ha.only x (hlast ▸ hx)⟩
    · rw [update_self]
      exact .inr (hw x hlast)

theorem place_header (h : FsInv n inodes ⟨m, d⟩ hdr L) (ha : Allocated n inodes m d hdr L s d1)
    (hq : Layout.Quiet hdr L d1 d') (hw : ∀ x, d' x ≠ d1 x → x = s ∧ ¬ Layout.Leaf u₀) (i₀ : Nat)
    (hu0 : u₀ ≠ .inode) (hp : u₀.parent = none) (hnot : ¬ L i₀ u₀) (hslot : 5 ≤ u₀.slot) :
    Joined n inodes i₀ u₀ s ⟨m, d⟩ hdr L ⟨{ m with freeMap := m.freeMap.mark s }, d'⟩
      (update hdr i₀ ((hdr i₀).write (4 * u₀.slot) (le32 s))) := by
  have hlt := Use.slot_lt hp
  have hnew : u₀.ptr d' i₀ ((hdr i₀).write (4 * u₀.slot) (le32 s)) = s := by
    rw [Use.ptr_eq_slot hp hu0, Block.word_write_self _ (by omega)
      (ha.lt.trans_le h.small)]
  refine h.place ha hq _ hu0 (sameMeta_write _ hslot s) (fun u hu hup => ?_)
    (fun p k hpk => by rw [hp] at hpk; cases hpk) hnew fun x hx => ?_
  · refine Use.ptr_write_of_ne hup ?_ s
    by_contra hne
    rw [not_or, not_not] at hne
    exact hnot (Use.slot_inj hup hne.1 hp hu0 hne.2 ▸ hu)
  · obtain ⟨rfl, hl⟩ := hw x hx
    exact ⟨u₀, .inr ⟨rfl, rfl⟩, hl, hnew⟩

variable {p0 : Use} {k0 : Nat}

theorem place_word (h : FsInv n inodes ⟨m, d⟩ hdr L) (ha : Allocated n inodes m d hdr L s d1)
    (hq : Layout.Quiet hdr L d1 d') (hw : ∀ x, d' x ≠ d1 x → x = s ∧ ¬ Layout.Leaf u₀) (i₀ : Nat)
    (hp : u₀.parent = some (p0, k0)) (hp0 : L i₀ p0) (hk0 : k0 < 128) (hnot : ¬ L i₀ u₀) :
    Joined n inodes i₀ u₀ s ⟨m, d⟩ hdr L ⟨{ m with freeMap := m.freeMap.mark s },
      update d' (p0.ptr d' i₀ (hdr i₀))
        ((d' (p0.ptr d' i₀ (hdr i₀))).write (4 * k0) (le32 s))⟩ hdr := by
  have hinv := ha.inv.quiet hq
  have hq' := hinv.layout.quiet_of_word hp0 hnot hp s
  have hu0 : u₀ ≠ .inode := by rintro rfl; simp [Use.parent] at hp
  have hparent := hinv.layout.ptr_eq hq'.words i₀ p0 hp0
  have hnew : u₀.ptr (update d' (p0.ptr d' i₀ (hdr i₀))
      ((d' (p0.ptr d' i₀ (hdr i₀))).write (4 * k0) (le32 s))) i₀ (hdr i₀) = s := by
    rw [Use.ptr_of_parent hp, hparent, update_self,
      Block.word_write_self _ (by omega) (ha.lt.trans_le h.small)]
  have hjoin := h.place ha (Layout.Quiet.trans ha.inv.layout hq hq') (hdr i₀) hu0
    (fun _ _ => rfl) (fun _ _ _ => rfl)
    (fun p k hpk => by
      rw [hp] at hpk
      cases hpk
      exact ⟨hp0, hk0⟩) hnew fun x hx => ?_
  · rwa [update_eq_self] at hjoin
  · by_cases hxp : x = p0.ptr d' i₀ (hdr i₀)
    · exact ⟨p0, .inl hp0, Layout.not_leaf_of_parent hp, hparent.trans hxp.symm⟩
    · rw [update_of_ne hxp] at hx
      obtain ⟨rfl, hl⟩ := hw x hx
      exact ⟨u₀, .inr ⟨rfl, rfl⟩, hl, hnew⟩

/-! ## A block without a sector -/

section

variable (h : FsInv n inodes ⟨m, d⟩ hdr L)
include h

theorem relabel (hq : Layout.Quiet hdr L d d') (i₀ : Nat)
    (h' : Sector) (hmeta : SameMeta (hdr i₀) h')
    (hroot : ∀ u, L i₀ u → u.parent = none → u.ptr d i₀ h' = u.ptr d i₀ (hdr i₀))
    (hw : ∀ x, d' x ≠ d x → ∃ v, L i₀ v ∧ ¬ Layout.Leaf v ∧ v.ptr d' i₀ h' = x) :
    FsInv n inodes ⟨m, d'⟩ (update hdr i₀ h') L ∧
      Grows i₀ 0 ⟨m, d⟩ hdr L ⟨m, d'⟩ (update hdr i₀ h') L := by
  have hinv := h.quiet hq
  have hptr : ∀ i u, L i u → u.ptr d' i (update hdr i₀ h' i) = u.ptr d i (hdr i) := by
    refine Layout.ptr_congr h.layout.parent hq.words fun i u hu hp => ?_
    by_cases hii : i = i₀
    · subst hii
      rw [update_self]
      exact hroot u hu hp
    · rw [update_of_ne hii]
  have hsame : ∀ i u, L i u → u.ptr d' i (update hdr i₀ h' i) = u.ptr d' i (hdr i) :=
    fun i u hu => (hptr i u hu).trans (h.layout.ptr_eq hq.words i u hu).symm
  refine ⟨⟨?_, hinv.bitCnt, hinv.small, hinv.inode, fun i hi u hu => ?_, hinv.length, hinv.map⟩,
    fun _ _ hu => hu, hptr, fun j u hu hl _ => hq.leaf j u hu hl,
    by rw [update_self]; exact hmeta, rfl,
    fun hf hs => h.stored_of_quiet hq hf rfl hs, rfl, rfl, fun _ => rfl, fun _ hs => hs,
    fun _ _ hu => .inl hu, fun x hx => .inr (by rw [update_self]; exact hw x hx)⟩
  · exact hinv.layout.transfer (fun _ _ hu => hu) hinv.layout.parent hsame fun _ hs => hs
  · obtain ⟨hL, heq⟩ := hinv.disk i hi u hu
    exact ⟨hL, heq.trans (hsame i u hL).symm⟩

theorem lose_header (i₀ : Nat) (hu0 : u₀ ≠ .inode)
    (hp : u₀.parent = none) (hnot : ¬ L i₀ u₀) (hslot : 5 ≤ u₀.slot) (v : Nat) :
    FsInv n inodes ⟨m, d⟩ (update hdr i₀ ((hdr i₀).write (4 * u₀.slot) (le32 v))) L ∧
      Grows i₀ 0 ⟨m, d⟩ hdr L ⟨m, d⟩ (update hdr i₀ ((hdr i₀).write (4 * u₀.slot) (le32 v))) L ∧
      u₀.ptr d i₀ ((hdr i₀).write (4 * u₀.slot) (le32 v)) = v % 2 ^ 32 ∧
      ∀ x, x ≠ u₀ → x.parent = none →
        x.ptr d i₀ ((hdr i₀).write (4 * u₀.slot) (le32 v)) = x.ptr d i₀ (hdr i₀) := by
  have hlt := Use.slot_lt hp
  have hother : ∀ x, x ≠ u₀ → x.parent = none →
      x.ptr d i₀ ((hdr i₀).write (4 * u₀.slot) (le32 v)) = x.ptr d i₀ (hdr i₀) := by
    intro x hx hxp
    refine Use.ptr_write_of_ne hxp ?_ v
    by_contra hne
    rw [not_or, not_not] at hne
    exact hx (Use.slot_inj hxp hne.1 hp hu0 hne.2)
  obtain ⟨hinv, hgrow⟩ := h.relabel Layout.Quiet.refl i₀ _ (sameMeta_write _ hslot v)
    (fun u hu hup => hother u (fun heq => hnot (heq ▸ hu)) hup) fun x hx => absurd rfl hx
  refine ⟨hinv, hgrow, ?_, hother⟩
  rw [Use.ptr_eq_slot hp hu0, Block.word_write_mod _ (by omega)]

theorem lose_word (i₀ : Nat) (hp : u₀.parent = some (p0, k0))
    (hp0 : L i₀ p0) (hk0 : k0 < 128) (hnot : ¬ L i₀ u₀) (v : Nat)
    (hd' : d' = update d (p0.ptr d i₀ (hdr i₀))
      ((d (p0.ptr d i₀ (hdr i₀))).write (4 * k0) (le32 v))) :
    FsInv n inodes ⟨m, d'⟩ hdr L ∧ Grows i₀ 0 ⟨m, d⟩ hdr L ⟨m, d'⟩ hdr L ∧
      u₀.ptr d' i₀ (hdr i₀) = v % 2 ^ 32 ∧
      ∀ x, x ≠ u₀ → (∀ p k, x.parent = some (p, k) → L i₀ p ∧ k < 128) →
        x.ptr d' i₀ (hdr i₀) = x.ptr d i₀ (hdr i₀) := by
  have hq := h.layout.quiet_of_word hp0 hnot hp v
  rw [← hd'] at hq
  have hparent := h.layout.ptr_eq hq.words i₀ p0 hp0
  have hrel := h.relabel hq i₀ (hdr i₀) (fun _ _ => rfl) (fun _ _ _ => rfl) fun x hx =>
    ⟨p0, hp0, Layout.not_leaf_of_parent hp, hparent.trans (by
      by_contra hxp
      exact hx (by rw [hd', update_of_ne (Ne.symm hxp)]))⟩
  rw [update_eq_self] at hrel
  refine ⟨hrel.1, hrel.2, ?_, fun x hx hxp => ?_⟩
  · rw [Use.ptr_of_parent hp, hparent, hd', update_self, Block.word_write_mod _ (by omega)]
  · rcases hpar : x.parent with _ | ⟨p, k⟩
    · exact Use.ptr_of_root hpar
    · obtain ⟨hpL, hk128⟩ := hxp p k hpar
      rw [Use.ptr_of_parent hpar, Use.ptr_of_parent hpar, h.layout.ptr_eq hq.words i₀ p hpL, hd']
      by_cases hsame : p.ptr d i₀ (hdr i₀) = p0.ptr d i₀ (hdr i₀)
      · obtain ⟨-, rfl⟩ := h.layout.inj i₀ i₀ p p0 hpL hp0 hsame
        have hk : k ≠ k0 := fun hk => hx (Use.parent_inj hpar (hk ▸ hp))
        rw [update_self, Block.word_write_ne _ (by omega) hk]
      · rw [update_of_ne hsame]

end

/-! ## The steps of the loop -/

/-- What is used of `free_map_allocate`, from states that meet `P`. -/
structure Allocates (n : Nat) (inodes : List Nat) (allocate : FsProg (Option Nat))
    (P : FsWorld → Prop) : Prop where
  /-- It fails on a full disk, and changes nothing. -/
  full : ∀ {m d hdr L}, FsInv n inodes ⟨m, d⟩ hdr L → P ⟨m, d⟩ → m.freeMap.freeCnt = 0 →
    allocate.exec n ⟨m, d⟩ = some (none, ⟨m, d⟩)
  /-- Otherwise it allocates a sector. -/
  pos : ∀ {m d hdr L}, FsInv n inodes ⟨m, d⟩ hdr L → P ⟨m, d⟩ → 0 < m.freeMap.freeCnt →
    ∃ s d', allocate.exec n ⟨m, d⟩ = some (some s, ⟨{ m with freeMap := m.freeMap.mark s }, d'⟩) ∧
      Allocated n inodes m d hdr L s d'
  grows : ∀ {i₀ c w hdr L w' hdr' L'}, Grows i₀ c w hdr L w' hdr' L' → P w → P w'

theorem allocates_freeMapAllocateAt (u : Uninit) (depth : Nat) :
    Allocates n inodes (freeMapAllocateAt u (depth + 1)) fun _ => True where
  full h _ hfull := h.exec_freeMapAllocate_of_full u depth hfull
  pos h _ hpos := h.exec_freeMapAllocate_of_pos u depth hpos
  grows _ _ := trivial

/-- The uses of a file of `k` blocks, of which the first `b` have sectors of their own. -/
def Has (b k : Nat) (u : Use) : Prop := u.Live k ∧ ∀ j, u = .data j → j < b

variable {k : Nat}

theorem has_self (u : Use) : Has k k u ↔ u.Live k := by
  refine ⟨fun h => h.1, fun h => ⟨h, ?_⟩⟩
  rintro j rfl
  exact h

variable {b : Nat}

theorem not_has_data {k' : Nat} (hb : b ≤ k) : ¬ Has b k' (.data k) :=
  fun h => Nat.not_lt.mpr hb (h.2 k rfl)

theorem has_succ_iff (u : Use) : Has (k + 1) (k + 1) u ↔ Has k (k + 1) u ∨ u = .data k := by
  cases u <;> simp [Has, Use.Live]
  omega

theorem has_of_none (hk : indexNeed k = 0) (hb : b ≤ k) (u : Use) :
    Has b (k + 1) u ↔ Has b k u := by
  simp only [indexNeed] at hk
  cases u <;> simp only [Has, Use.Live] <;> grind

theorem getD_head_drop (l : List Nat) (i a : Nat) : (l.drop i).head?.getD a = l.getD i a := by
  rw [List.head?_drop, List.getD]

variable (u : Uninit) {allocate : FsProg (Option Nat)} {P : FsWorld → Prop}
  (hA : Allocates n inodes allocate P)

include hA

section

variable (h : FsInv n inodes ⟨m, d⟩ hdr L)
include h

/-- An index block with its pointer in the header joins when block `k` is its first, or its
allocation fails. -/
theorem exec_expandRoot (hP : P ⟨m, d⟩) (i₀ : Nat) (u₀ : Use)
    (first : Nat) (store : Sector → Nat → Sector)
    (hstore : ∀ b v, store b v = b.write (4 * u₀.slot) (le32 v)) (hleaf : ¬ Layout.Leaf u₀)
    (hp : u₀.parent = none) (hslot : 5 ≤ u₀.slot) (hnot : k = first → ¬ L i₀ u₀) :
    ((expandRoot u allocate first store k (hdr i₀)).exec n ⟨m, d⟩
        = some (none, ⟨m, d⟩) ∧ k = first ∧ m.freeMap.freeCnt = 0) ∨
      ∃ w' hdr' L',
        (expandRoot u allocate first store k (hdr i₀)).exec n ⟨m, d⟩
          = some (some (hdr' i₀), w') ∧ FsInv n inodes w' hdr' L' ∧
        Grows i₀ (if k = first then 1 else 0) ⟨m, d⟩ hdr L w' hdr' L' ∧
        (∀ v, L' i₀ v ↔ L i₀ v ∨ (v = u₀ ∧ k = first)) ∧
        (k = first ∨ w' = ⟨m, d⟩ ∧ hdr' = hdr) := by
  by_cases hk : k = first
  · rw [if_pos hk, expandRoot, if_pos hk]
    rcases Nat.eq_zero_or_pos m.freeMap.freeCnt with hfull | hpos
    · refine .inl ⟨?_, hk, hfull⟩
      rw [exec_bind_of_eq (hA.full h hP hfull), exec_pure]
    · obtain ⟨s, d1, halloc, ha⟩ := hA.pos h hP hpos
      have hq := ha.inv.layout.quiet_of_free ha.free u.zeros
      have hnew : ∀ x, update d1 s u.zeros x ≠ d1 x → x = s ∧ ¬ Layout.Leaf u₀ :=
        fun x hx => ⟨by by_contra hxs; exact hx (update_of_ne hxs _ _), hleaf⟩
      have hjoin := h.place_header ha hq hnew i₀ (fun hi => hleaf (.inl hi)) hp (hnot hk) hslot
      refine .inr ⟨_, _, _, ?_, hjoin.inv, hjoin.grows, fun v => by simp [Layout.Add, hk], .inl hk⟩
      rw [exec_bind_of_eq halloc]
      rw [exec_bind_of_eq (exec_writeSector ha.lt _), exec_pure, update_self, hstore]
  · rw [if_neg hk, expandRoot, if_neg hk]
    exact .inr ⟨⟨m, d⟩, hdr, L, exec_pure _, h, Grows.refl, fun v => by simp [hk], .inr ⟨rfl, rfl⟩⟩

theorem exec_expandSecond (hP : P ⟨m, d⟩) (h192 : 192 ≤ k)
    (hmax : k < maxBlocks) (hdoubly : L i₀ .doubly)
    (hnot : (k - 192) % 128 = 0 → ¬ L i₀ (.second ((k - 192) / 128))) :
    ((expandSecond u allocate (k - 192) (hdr i₀)).exec n ⟨m, d⟩
        = some (false, ⟨m, d⟩) ∧ (k - 192) % 128 = 0 ∧ m.freeMap.freeCnt = 0) ∨
      ∃ w' L', (expandSecond u allocate (k - 192) (hdr i₀)).exec n ⟨m, d⟩
          = some (true, w') ∧ FsInv n inodes w' hdr L' ∧
        Grows i₀ (if (k - 192) % 128 = 0 then 1 else 0) ⟨m, d⟩ hdr L w' hdr L' ∧
        (∀ v, L' i₀ v ↔ L i₀ v ∨ (v = .second ((k - 192) / 128) ∧ (k - 192) % 128 = 0)) ∧
        ((k - 192) % 128 = 0 ∨ w' = ⟨m, d⟩) := by
  rw [maxBlocks_eq] at hmax
  by_cases hk : (k - 192) % 128 = 0
  · rw [if_pos hk, expandSecond, if_pos hk]
    rcases Nat.eq_zero_or_pos m.freeMap.freeCnt with hfull | hpos
    · refine .inl ⟨?_, hk, hfull⟩
      rw [exec_bind_of_eq (hA.full h hP hfull), exec_pure]
    · obtain ⟨s, d1, halloc, ha⟩ := hA.pos h hP hpos
      have hq := ha.inv.layout.quiet_of_free ha.free u.zeros
      have hdbl : InodeDisk.doublyIndirect (hdr i₀) < n := ha.inv.layout.lt i₀ .doubly hdoubly
      have hnew : ∀ x, update d1 s u.zeros x ≠ d1 x →
          x = s ∧ ¬ Layout.Leaf (.second ((k - 192) / 128)) :=
        fun x hx => ⟨by by_contra hxs; exact hx (update_of_ne hxs _ _), by
          simp [Layout.Leaf]⟩
      have hjoin := h.place_word ha hq hnew i₀ rfl hdoubly (by omega) (hnot hk)
      refine .inr ⟨_, _, ?_, hjoin.inv, hjoin.grows, fun v => by simp [Layout.Add, hk], .inl hk⟩
      rw [exec_bind_of_eq halloc]
      rw [exec_bind_of_eq (exec_writeSector ha.lt _),
        exec_bind_of_eq (exec_writeWord hdbl (show (k - 192) / 128 < 128 by omega) _)]
      rfl
  · rw [if_neg hk, expandSecond, if_neg hk]
    exact .inr ⟨⟨m, d⟩, L, exec_pure _, h, Grows.refl, fun v => by simp [hk], .inr rfl⟩

theorem exec_expandData (hP : P ⟨m, d⟩)
    (hp : (Use.data k).parent = some (p0, k0)) (hlive : ∀ v, L i₀ v ↔ Has b (k + 1) v) (hb : b ≤ k)
    (hbk : b = k ∨ m.freeMap.freeCnt = 0) (hmax : k < maxBlocks) (allocSec : Nat) :
    ∃ m' d1 d' L', allocate.exec n ⟨m, d⟩ = some (m.freeMap.freeList.head?, ⟨m', d1⟩) ∧
      FsInv n inodes ⟨m', d1⟩ hdr L ∧ L i₀ p0 ∧ k0 < 128 ∧
      (writeWord (p0.ptr d1 i₀ (hdr i₀)) k0 (m.freeMap.freeList.head?.getD allocSec) :
        FsProg Unit).exec n ⟨m', d1⟩ = some ((), ⟨m', d'⟩) ∧
      FsInv n inodes ⟨m', d'⟩ hdr L' ∧
      Grows i₀ (min m.freeMap.freeCnt 1) ⟨m, d⟩ hdr L ⟨m', d'⟩ hdr L' ∧
      (∀ v, L' i₀ v ↔ Has (if 0 < m.freeMap.freeCnt then k + 1 else b) (k + 1) v) ∧
      (Use.data k).ptr d' i₀ (hdr i₀) = m.freeMap.freeList.head?.getD allocSec % 2 ^ 32 ∧
      (m.freeMap.freeCnt = 0 → ∀ j < k,
        (Use.data j).ptr d' i₀ (hdr i₀) = (Use.data j).ptr d i₀ (hdr i₀)) := by
  obtain ⟨hplive, hk0⟩ := Use.Live.parent hmax
    (show (Use.data k).Live (k + 1) from Nat.lt_succ_self k) hp
  have hp0 : L i₀ p0 := (hlive p0).mpr ⟨hplive, fun j hj => absurd hj ((Use.parent_ne_leaf hp).2 j)⟩
  have hnot : ¬ L i₀ (.data k) := fun hL => not_has_data hb ((hlive _).mp hL)
  rcases Nat.eq_zero_or_pos m.freeMap.freeCnt with hfull | hpos
  · have hnil : m.freeMap.freeList = [] :=
      List.eq_nil_of_length_eq_zero (m.freeMap.length_freeList.trans hfull)
    rw [hnil, hfull]
    obtain ⟨hinv, hgrow, hptr, hother⟩ := h.lose_word i₀ hp hp0 hk0 hnot allocSec rfl
    refine ⟨m, d, _, L, hA.full h hP hfull, h, hp0, hk0,
      exec_writeWord (h.layout.lt i₀ p0 hp0) hk0 _, hinv, hgrow, hlive, hptr, fun _ j hj => ?_⟩
    refine hother (.data j) (fun heq => Nat.ne_of_lt hj (Use.data.inj heq)) fun p i hpar => ?_
    obtain ⟨hpl, hi⟩ := Use.Live.parent hmax
      (show (Use.data j).Live (k + 1) from Nat.lt_succ_of_lt hj) hpar
    exact ⟨(hlive p).mpr ⟨hpl, fun j' hj' => absurd hj' ((Use.parent_ne_leaf hpar).2 j')⟩, hi⟩
  · obtain ⟨s, d1, halloc, ha⟩ := hA.pos h hP hpos
    obtain rfl : b = k := hbk.resolve_right hpos.ne'
    have hjoin := h.place_word ha Layout.Quiet.refl (fun x hx => absurd rfl hx) i₀ hp hp0 hk0 hnot
    rw [ha.first, if_pos hpos, Nat.min_eq_right hpos, Option.getD_some,
      Nat.mod_eq_of_lt (ha.lt.trans_le h.small)]
    refine ⟨_, d1, _, _, halloc, ha.inv.mark s, hp0, hk0,
      exec_writeWord (ha.inv.layout.lt i₀ p0 hp0) hk0 s, hjoin.inv, hjoin.grows, fun v => ?_,
      hjoin.ptr, fun hfull => absurd hfull hpos.ne'⟩
    rw [has_succ_iff, ← hlive]
    simp [Layout.Add]

end

omit hA in
/-- The result of adding block `k` to a file of which the first `b` blocks have sectors of their
own: the allocation of an index block fails, or the file has the block, with a sector of its own or
with `alloc_sec` as it was. -/
def BodyResult (n : Nat) (inodes : List Nat) (i₀ b k allocSec : Nat) (w : FsWorld)
    (hdr : Nat → Sector) (L : Nat → Use → Prop) (r : Option (Sector × Nat)) (w' : FsWorld) : Prop :=
  ∃ hdr' L', FsInv n inodes w' hdr' L' ∧
    Grows i₀ (min w.mem.freeMap.freeCnt (indexNeed k + 1)) w hdr L w' hdr' L' ∧
    (w.mem.freeMap.freeCnt = 0 → ∀ j < k,
      (Use.data j).ptr w'.disk i₀ (hdr' i₀) = (Use.data j).ptr w.disk i₀ (hdr i₀)) ∧
    (r = none ∧ w.mem.freeMap.freeCnt < indexNeed k ∧ (w.mem.freeMap.freeCnt = 0 → w' = w) ∨
      r = some (hdr' i₀, w.mem.freeMap.freeList.getD (indexNeed k) allocSec) ∧
        indexNeed k ≤ w.mem.freeMap.freeCnt ∧
        (∀ v, L' i₀ v ↔ Has (if indexNeed k < w.mem.freeMap.freeCnt then k + 1 else b) (k + 1) v) ∧
        (Use.data k).ptr w'.disk i₀ (hdr' i₀)
          = w.mem.freeMap.freeList.getD (indexNeed k) allocSec % 2 ^ 32)

variable {w : FsWorld} {hdr1 : Nat → Sector} {L1 : Nat → Use → Prop} {allocSec : Nat}

omit hA in
theorem bodyResult {w2 : FsWorld} {m1 : FreeMap} {hdr2 : Nat → Sector} {L2 : Nat → Use → Prop}
    (h : FsInv n inodes w hdr L) (h1 : FsInv n inodes ⟨m1, d1⟩ hdr1 L1)
    (hgrow : Grows i₀ (indexNeed k) w hdr L ⟨m1, d1⟩ hdr1 L1) (h2 : FsInv n inodes w2 hdr2 L2)
    (hgrow2 : Grows i₀ (min m1.freeMap.freeCnt 1) ⟨m1, d1⟩ hdr1 L1 w2 hdr2 L2)
    (hlive : ∀ v, L2 i₀ v ↔ Has (if 0 < m1.freeMap.freeCnt then k + 1 else b) (k + 1) v)
    (hptr : (Use.data k).ptr w2.disk i₀ (hdr2 i₀)
      = m1.freeMap.freeList.head?.getD allocSec % 2 ^ 32)
    (hsame : w.mem.freeMap.freeCnt = 0 → ∀ j < k,
      (Use.data j).ptr w2.disk i₀ (hdr2 i₀) = (Use.data j).ptr w.disk i₀ (hdr i₀)) :
    BodyResult n inodes i₀ b k allocSec w hdr L
      (some (hdr2 i₀, m1.freeMap.freeList.head?.getD allocSec)) w2 := by
  have hcnt : m1.freeMap.freeCnt + indexNeed k = w.mem.freeMap.freeCnt := hgrow.free
  have hsec : m1.freeMap.freeList.head?.getD allocSec
      = w.mem.freeMap.freeList.getD (indexNeed k) allocSec := by
    rw [show m1.freeMap.freeList = _ from hgrow.taken, getD_head_drop]
  rw [hsec] at hptr ⊢
  refine ⟨hdr2, L2, h2, ?_, hsame, .inr ⟨rfl, by omega, fun v => ?_, hptr⟩⟩
  · have htrans := Grows.trans h h1 hgrow hgrow2
    rwa [show indexNeed k + min m1.freeMap.freeCnt 1
      = min w.mem.freeMap.freeCnt (indexNeed k + 1) by omega] at htrans
  · rw [hlive]
    by_cases hpos : 0 < m1.freeMap.freeCnt
    · rw [if_pos hpos, if_pos (by omega)]
    · rw [if_neg hpos, if_neg (by omega)]

section

variable (h : FsInv n inodes ⟨m, d⟩ hdr L) (hP : P ⟨m, d⟩) (allocSec : Nat)
  (hlive : ∀ v, L i₀ v ↔ Has b k v) (hb : b ≤ k) (hbk : b = k ∨ m.freeMap.freeCnt = 0)
include h hP hlive hb hbk

theorem exec_expandBody_direct (h64 : k < 64) :
    ∃ r w', (expandBody u allocate k (hdr i₀) allocSec).exec n ⟨m, d⟩
        = some (r, w') ∧ BodyResult n inodes i₀ b k allocSec ⟨m, d⟩ hdr L r w' := by
  have hneed : indexNeed k = 0 := by rw [indexNeed, if_pos h64]
  have hroot : (Use.data k).parent = none := by simp [Use.parent, h64]
  have hnot : ¬ L i₀ (.data k) := fun hL => not_has_data hb ((hlive _).mp hL)
  have hgrow : Grows i₀ (indexNeed k) ⟨m, d⟩ hdr L ⟨m, d⟩ hdr L := hneed ▸ Grows.refl
  have hexec : ∀ {s w'}, allocate.exec n ⟨m, d⟩ = some (s, w') →
      (expandBody u allocate k (hdr i₀) allocSec).exec n ⟨m, d⟩
        = some (some ((hdr i₀).write (4 * (Use.data k).slot) (le32 (s.getD allocSec)),
            s.getD allocSec), w') := by
    intro s w' hs
    rw [expandBody, if_pos h64, exec_bind_of_eq hs]
    rfl
  rcases Nat.eq_zero_or_pos m.freeMap.freeCnt with hfull | hpos
  · have hnil : m.freeMap.freeList = [] :=
      List.eq_nil_of_length_eq_zero (m.freeMap.length_freeList.trans hfull)
    obtain ⟨hinv, hgrow2, hptr, hother⟩ := h.lose_header i₀ Use.noConfusion hroot hnot
      (by simp [Use.slot]) allocSec
    refine ⟨_, _, hexec (hA.full h hP hfull), ?_⟩
    have hres := bodyResult h h hgrow hinv (by rw [hfull]; exact hgrow2)
      (fun v => by
        rw [hfull, if_neg (Nat.lt_irrefl 0), has_of_none hneed hb]
        exact hlive v)
      (by rw [update_self, hnil]; exact hptr)
      (fun _ j hj => by
        rw [update_self]
        exact hother (.data j) (fun heq => Nat.ne_of_lt hj (Use.data.inj heq))
          (by simp [Use.parent, hj.trans h64]))
    rwa [update_self, hnil] at hres
  · obtain ⟨s, d1, halloc, ha⟩ := hA.pos h hP hpos
    obtain rfl : b = k := hbk.resolve_right hpos.ne'
    have hjoin := h.place_header ha Layout.Quiet.refl (fun x hx => absurd rfl hx) i₀ (by simp)
      hroot hnot (by simp [Use.slot])
    refine ⟨_, _, hexec halloc, ?_⟩
    have hres : BodyResult n inodes i₀ b b allocSec ⟨m, d⟩ hdr L _ _ :=
      h.bodyResult h hgrow hjoin.inv (by rw [Nat.min_eq_right hpos]; exact hjoin.grows)
      (fun v => by
        rw [if_pos hpos, has_succ_iff, has_of_none hneed le_rfl, ← hlive]
        simp [Layout.Add])
      (by rw [hjoin.ptr, ha.first, Option.getD_some, Nat.mod_eq_of_lt (ha.lt.trans_le h.small)])
      (fun hfull => absurd hfull hpos.ne')
    rwa [update_self, ha.first] at hres

theorem exec_expandBody_indirect (h64 : ¬ k < 64) (h192 : k < 192) :
    ∃ r w', (expandBody u allocate k (hdr i₀) allocSec).exec n ⟨m, d⟩
        = some (r, w') ∧ BodyResult n inodes i₀ b k allocSec ⟨m, d⟩ hdr L r w' := by
  have hneed : indexNeed k = if k = 64 then 1 else 0 := by rw [indexNeed, if_neg h64, if_pos h192]
  rw [expandBody, if_neg h64, if_pos (show k < directCnt + indirectCnt from h192)]
  rcases h.exec_expandRoot u hA hP i₀ .indirect 64 InodeDisk.setIndirect (k := k)
      (fun _ _ => rfl) (by simp [Layout.Leaf]) rfl (by decide)
      (fun hk => by rw [hlive, hk]; simp [Has, Use.Live]) with
    ⟨hexec, hk, hfull⟩ | ⟨⟨m1, d1⟩, hdr1, L1, hexec, hinv, hgrow, hlive1, hsame⟩
  · refine ⟨_, _, (exec_bind_of_eq hexec).trans (exec_pure _), hdr, L, h, ?_, fun _ _ _ => rfl,
      .inl ⟨rfl, ?_, fun _ => rfl⟩⟩
    · rw [hfull]
      exact Grows.refl
    · rw [hneed, if_pos hk]
      exact hfull ▸ Nat.zero_lt_one
  · have hindexed : ∀ v, L1 i₀ v ↔ Has b (k + 1) v := by
      intro v
      rw [hlive1, hlive]
      cases v <;> simp [Has, Use.Live] <;> omega
    have hcnt : m1.freeMap.freeCnt + (if k = 64 then 1 else 0) = m.freeMap.freeCnt := hgrow.free
    obtain ⟨m2, d2, d', L', halloc, -, -, -, hwrite, hinv', hgrow', hlive', hptr, hpast⟩ :=
      hinv.exec_expandData hA (hA.grows hgrow hP)
        (show (Use.data k).parent = some (.indirect, k - 64) by simp [Use.parent, h64, h192])
        hindexed hb (hbk.imp_right fun hzero => by omega) (by rw [maxBlocks_eq]; omega) allocSec
    refine ⟨_, _, ?_, bodyResult h hinv (hneed ▸ hgrow) hinv' hgrow' hlive' hptr
      fun hfull j hj => ?_⟩
    swap
    · -- on a full disk no index block has joined
      dsimp only at hfull
      have hk : k ≠ 64 := fun hk => by rw [if_pos hk] at hcnt; omega
      obtain ⟨hw, rfl⟩ := hsame.resolve_left hk
      cases hw
      exact hpast hfull j hj
    refine (exec_bind_of_eq hexec).trans ?_
    rw [exec_bind_of_eq halloc]
    exact (exec_bind_of_eq hwrite).trans (exec_pure _)

theorem exec_expandBody_doubly (h192 : ¬ k < 192) (hmax : k < maxBlocks) :
    ∃ r w', (expandBody u allocate k (hdr i₀) allocSec).exec n ⟨m, d⟩
        = some (r, w') ∧ BodyResult n inodes i₀ b k allocSec ⟨m, d⟩ hdr L r w' := by
  have h64 : ¬ k < 64 := by omega
  have hneed : indexNeed k
      = (if k = 192 then 1 else 0) + (if (k - 192) % 128 = 0 then 1 else 0) := by
    rw [indexNeed, if_neg h64, if_neg h192]
  have hsub : k - directCnt - indirectCnt = k - 192 := by
    show k - 64 - 128 = k - 192
    omega
  rw [expandBody, if_neg h64, if_neg (show ¬ k < directCnt + indirectCnt from h192),
    if_pos (show k < directCnt + indirectCnt + doublyIndirectCnt from hmax), hsub]
  rcases h.exec_expandRoot u hA hP i₀ .doubly 192 InodeDisk.setDoublyIndirect (k := k)
      (fun _ _ => rfl) (by simp [Layout.Leaf]) rfl (by decide)
      (fun hk => by rw [hlive, hk]; simp [Has, Use.Live]) with
    ⟨hexec, hk, hfull⟩ | ⟨⟨m1, d1⟩, hdr1, L1, hexec, hinv, hgrow, hlive1, hsame1⟩
  · refine ⟨_, _, (exec_bind_of_eq hexec).trans (exec_pure _), hdr, L, h, ?_, fun _ _ _ => rfl,
      .inl ⟨rfl, ?_, fun _ => rfl⟩⟩
    · rw [hfull]
      exact Grows.refl
    · rw [hneed, if_pos hk]
      dsimp only
      omega
  have hdoubly : L1 i₀ .doubly := by
    rw [hlive1, hlive]
    simp [Has, Use.Live]
    omega
  have hcnt : m1.freeMap.freeCnt + (if k = 192 then 1 else 0) = m.freeMap.freeCnt := hgrow.free
  rcases hinv.exec_expandSecond u hA (hA.grows hgrow hP) (by omega) hmax hdoubly
      (fun hk => by
        rw [hlive1, hlive]
        simp [Has, Use.Live]
        omega) with ⟨hexec2, hk, hfull⟩ |
    ⟨⟨m2, d2⟩, L2, hexec2, hinv2, hgrow2, hlive2, hsame2⟩
  · -- the doubly indirect block may have joined already
    have hlt : m.freeMap.freeCnt < indexNeed k := by
      rw [hneed, if_pos hk]
      omega
    have hsame : m.freeMap.freeCnt = 0 → (⟨m1, d1⟩ : FsWorld) = ⟨m, d⟩ ∧ hdr1 = hdr := by
      intro hzero
      refine hsame1.resolve_left fun hk => ?_
      rw [if_pos hk] at hcnt
      omega
    refine ⟨none, ⟨m1, d1⟩, ?_, hdr1, L1, hinv, ?_, fun hzero j _ => ?_,
      .inl ⟨rfl, hlt, fun hzero => (hsame hzero).1⟩⟩
    rotate_right
    · obtain ⟨hw, rfl⟩ := hsame hzero
      cases hw
      rfl
    · exact (exec_bind_of_eq hexec).trans ((exec_bind_of_eq hexec2).trans (exec_pure _))
    · rwa [show min m.freeMap.freeCnt (indexNeed k + 1) = if k = 192 then 1 else 0 by omega]
  · have hindexed : ∀ v, L2 i₀ v ↔ Has b (k + 1) v := by
      intro v
      rw [hlive2, hlive1, hlive]
      cases v <;> simp [Has, Use.Live] <;> omega
    have hcnt2 : m2.freeMap.freeCnt + (if (k - 192) % 128 = 0 then 1 else 0)
        = m1.freeMap.freeCnt := hgrow2.free
    have hgrow12 := Grows.trans h hinv hgrow hgrow2
    obtain ⟨m3, d3, d', L', halloc, hinv3, hp0, -, hwrite, hinv', hgrow', hlive', hptr, hpast⟩ :=
      hinv2.exec_expandData hA (hA.grows hgrow12 hP)
        (show (Use.data k).parent = some (.second ((k - 192) / 128), (k - 192) % 128) by
          simp [Use.parent, h64, h192]) hindexed hb (hbk.imp_right fun hzero => by omega) hmax
        allocSec
    have hread : (readWord (InodeDisk.doublyIndirect (hdr1 i₀)) ((k - 192) / 128) :
        FsProg Nat).exec n ⟨m3, d3⟩
          = some ((Use.second ((k - 192) / 128)).ptr d3 i₀ (hdr1 i₀), ⟨m3, d3⟩) := by
      have hparent := hinv3.layout.parent i₀ _ .doubly ((k - 192) / 128) hp0 rfl
      exact exec_readWord (hinv3.layout.lt i₀ .doubly hparent.1) hparent.2
    refine ⟨_, _, ?_, bodyResult h hinv2 (hneed ▸ hgrow12) hinv' hgrow' hlive' hptr
      fun hfull j hj => ?_⟩
    swap
    · -- on a full disk no index block has joined
      dsimp only at hfull
      have hk1 : k ≠ 192 := fun hk => by rw [if_pos hk] at hcnt; omega
      have hk2 : (k - 192) % 128 ≠ 0 := fun hk => by rw [if_pos hk] at hcnt2; omega
      obtain ⟨hw1, rfl⟩ := hsame1.resolve_left hk1
      have hw2 := hsame2.resolve_left hk2
      cases hw1
      cases hw2
      exact hpast hfull j hj
    refine (exec_bind_of_eq hexec).trans ((exec_bind_of_eq hexec2).trans ?_)
    refine (exec_bind_of_eq halloc).trans ((exec_bind_of_eq hread).trans ?_)
    exact (exec_bind_of_eq hwrite).trans (exec_pure _)

/-- **One block is added**, of whatever level. -/
theorem exec_expandBody (hmax : k < maxBlocks) :
    ∃ r w', (expandBody u allocate k (hdr i₀) allocSec).exec n ⟨m, d⟩
        = some (r, w') ∧ BodyResult n inodes i₀ b k allocSec ⟨m, d⟩ hdr L r w' := by
  by_cases h64 : k < 64
  · exact h.exec_expandBody_direct u hA hP allocSec hlive hb hbk h64
  · by_cases h192 : k < 192
    · exact h.exec_expandBody_indirect u hA hP allocSec hlive hb hbk h64 h192
    · exact h.exec_expandBody_doubly u hA hP allocSec hlive hb hbk h192 hmax

end

omit hA in
theorem expandLoop_past (remain : Nat) : ∀ {k : Nat} (diskInode : Sector) (allocSec : Nat)
      (w : FsWorld), maxBlocks ≤ k →
      (expandLoop u allocate remain k diskInode allocSec).exec n w = some (some diskInode, w) := by
  induction remain with
  | zero => exact fun _ _ _ _ => rfl
  | succ remain ih =>
    intro k diskInode allocSec w hk
    have hbody : (expandBody u allocate k diskInode allocSec).exec n w
        = some (some (diskInode, allocSec), w) := by
      rw [maxBlocks_eq] at hk
      rw [expandBody, if_neg (by show ¬ k < 64; omega), if_neg (by show ¬ k < 192; omega),
        if_neg (by show ¬ k < 16576; omega), exec_pure]
    rw [expandLoop, exec_bind_of_eq hbody]
    exact ih diskInode allocSec w (by omega)

omit hA in
/-- The file after a loop of `inode_expand` that came to its end: it had `k` blocks, the first `b`
of them with sectors of their own, and the sectors `free` were left.  Now the first `b'` have. -/
structure Looped (i₀ b k remain allocSec : Nat) (free : List Nat) (w' : FsWorld)
    (hdr' : Nat → Sector) (L' : Nat → Use → Prop) (b' : Nat) : Prop where
  le : b ≤ b'
  short : b < k → b' = b
  live : ∀ v, L' i₀ v ↔ Has b' (min (k + remain) maxBlocks) v
  /-- A block has a sector of its own if there was one left. -/
  own : ∀ j < min remain (maxBlocks - k),
    (k + j < b' ↔ sectorNeed j k + indexNeed (k + j) < free.length)
  ptr : ∀ j < min remain (maxBlocks - k),
    (Use.data (k + j)).ptr w'.disk i₀ (hdr' i₀) = newSector free allocSec k j % 2 ^ 32

omit hA in
theorem Looped.cons {b1 b' remain : Nat} {free : List Nat} {w' : FsWorld} {hdr' : Nat → Sector}
    {L' : Nat → Use → Prop} (hmax : k < maxBlocks) (hb : b ≤ k) (hbk : b = k ∨ free.length = 0)
    (hb1 : b1 = if indexNeed k < free.length then k + 1 else b)
    (hlive : ∀ v, L1 i₀ v ↔ Has b1 (k + 1) v)
    (hptr : (Use.data k).ptr w.disk i₀ (hdr1 i₀) = free.getD (indexNeed k) allocSec % 2 ^ 32)
    (hkeep : ∀ v, L1 i₀ v → v.ptr w'.disk i₀ (hdr' i₀) = v.ptr w.disk i₀ (hdr1 i₀))
    (hlost : free.length ≤ indexNeed k →
      (Use.data k).ptr w'.disk i₀ (hdr' i₀) = (Use.data k).ptr w.disk i₀ (hdr1 i₀))
    (h : Looped i₀ b1 (k + 1) remain (free.getD (indexNeed k) allocSec)
      (free.drop (indexNeed k + 1)) w' hdr' L' b') :
    Looped i₀ b k (remain + 1) allocSec free w' hdr' L' b' := by
  have hle := h.le
  have hshort := h.short
  refine ⟨?_, fun hlt => ?_, fun v => ?_, fun j hj => ?_, fun j hj => ?_⟩
  · split at hb1 <;> omega
  · rw [if_neg (by omega)] at hb1
    rw [hshort (by omega), hb1]
  · rw [h.live, show k + 1 + remain = k + (remain + 1) by omega]
  · cases j with
    | zero =>
      simp only [sectorNeed, Nat.zero_add]
      split at hb1 <;> rename_i hlt
      · exact ⟨fun _ => hlt, fun _ => by omega⟩
      · exact ⟨fun _ => by omega, fun hc => absurd hc hlt⟩
    | succ j =>
      have hown := h.own j (by omega)
      rw [List.length_drop] at hown
      rw [show k + (j + 1) = k + 1 + j by omega, hown, sectorNeed]
      omega
  · cases j with
    | zero =>
      rw [Nat.add_zero, newSector, ← hptr]
      by_cases hlt : indexNeed k < free.length
      · refine hkeep (.data k) ((hlive _).mpr ?_)
        rw [hb1, if_pos hlt, has_self]
        exact Nat.lt_succ_self k
      · exact hlost (Nat.not_lt.mp hlt)
    | succ j =>
      rw [show k + (j + 1) = k + 1 + j by omega, h.ptr j (by omega), newSector_succ]

/-- **The loop of `inode_expand`**, from a file of `k` blocks of which the first `b` have sectors of
their own, which is all of them unless the disk is full. -/
theorem exec_expandLoop (remain : Nat) : ∀ {b k : Nat} (allocSec : Nat) {m : FreeMap} {d : Disk}
      {hdr : Nat → Sector} {L : Nat → Use → Prop}, FsInv n inodes ⟨m, d⟩ hdr L → P ⟨m, d⟩ →
      k ≤ maxBlocks → (∀ v, L i₀ v ↔ Has b k v) → b ≤ k → (b = k ∨ m.freeMap.freeCnt = 0) →
      ∃ r w' hdr' L', (expandLoop u allocate remain k (hdr i₀) allocSec).exec n
          ⟨m, d⟩ = some (r, w') ∧ FsInv n inodes w' hdr' L' ∧
        Grows i₀ (min m.freeMap.freeCnt (sectorNeed (min remain (maxBlocks - k)) k)) ⟨m, d⟩ hdr L
          w' hdr' L' ∧
        (m.freeMap.freeCnt = 0 → ∀ j < k,
          (Use.data j).ptr w'.disk i₀ (hdr' i₀) = (Use.data j).ptr d i₀ (hdr i₀)) ∧
        (r = none ∧ Refused remain k m.freeMap.freeCnt ∧
            (m.freeMap.freeCnt = 0 → 0 < indexNeed k → w' = ⟨m, d⟩) ∧
            (m.freeMap.freeCnt = 0 → indexNeed k = 0 →
              (Use.data k).ptr w'.disk i₀ (hdr' i₀) = allocSec % 2 ^ 32) ∨
          r = some (hdr' i₀) ∧ ¬ Refused remain k m.freeMap.freeCnt ∧
            ∃ b', Looped i₀ b k remain allocSec m.freeMap.freeList w' hdr' L' b') := by
  induction remain with
  | zero =>
    intro b k allocSec m d hdr L h _ hmax hlive _ _
    refine ⟨_, _, hdr, L, exec_pure _, h, ?_, fun _ _ _ => rfl,
      .inr ⟨rfl, not_refused_zero k _, b, ?_⟩⟩
    · rw [Nat.zero_min, sectorNeed, Nat.min_zero]
      exact Grows.refl
    · refine ⟨le_rfl, fun _ => rfl, fun v => ?_, fun j hj => ?_, fun j hj => ?_⟩
      · rw [Nat.add_zero, Nat.min_eq_left hmax]
        exact hlive v
      · omega
      · omega
  | succ remain ih =>
    intro b k allocSec m d hdr L h hP hmax hlive hb hbk
    rcases Nat.lt_or_ge k maxBlocks with hk | hk
    swap
    · -- the index is full
      refine ⟨_, _, hdr, L, expandLoop_past u (remain + 1) _ _ _ hk, h, ?_, fun _ _ _ => rfl,
        .inr ⟨rfl, not_refused_of_le hk, b, ?_⟩⟩
      · rw [Nat.sub_eq_zero_of_le hk, Nat.min_zero, sectorNeed, Nat.min_zero]
        exact Grows.refl
      · refine ⟨le_rfl, fun _ => rfl, fun v => ?_, fun j hj => ?_, fun j hj => ?_⟩
        · rw [Nat.min_eq_right (by omega), ← Nat.le_antisymm hmax hk]
          exact hlive v
        · omega
        · omega
    obtain ⟨r, ⟨m1, d1⟩, hbody, hdr1, L1, hinv, hgrow, hpast, hr⟩ :=
      h.exec_expandBody u hA hP allocSec hlive hb hbk hk
    have hcnt : m1.freeMap.freeCnt + min m.freeMap.freeCnt (indexNeed k + 1) = m.freeMap.freeCnt :=
      hgrow.free
    have hneed : sectorNeed (min (remain + 1) (maxBlocks - k)) k
        = indexNeed k + 1 + sectorNeed (min remain (maxBlocks - (k + 1))) (k + 1) := by
      rw [show min (remain + 1) (maxBlocks - k) = min remain (maxBlocks - (k + 1)) + 1 by omega,
        sectorNeed]
    generalize hN : sectorNeed (min remain (maxBlocks - (k + 1))) (k + 1) = N at hneed
    rw [expandLoop, exec_bind_of_eq hbody, hneed]
    dsimp only at hgrow hpast hr
    rcases hr with ⟨rfl, hlt, hsame⟩ | ⟨rfl, hle, hlive1, hptr⟩
    · refine ⟨none, _, hdr1, L1, exec_pure _, hinv, ?_, hpast,
        .inl ⟨rfl, (refused_succ hk).mpr (.inl hlt), fun hzero _ => hsame hzero, by omega⟩⟩
      rwa [show min m.freeMap.freeCnt (indexNeed k + 1 + N) = min m.freeMap.freeCnt
        (indexNeed k + 1) by omega]
    · have hlen := m.freeMap.length_freeList
      have hsub : m1.freeMap.freeCnt = m.freeMap.freeCnt - (indexNeed k + 1) := by omega
      have hlist : m1.freeMap.freeList = m.freeMap.freeList.drop (indexNeed k + 1) := by
        have htaken : m1.freeMap.freeList
            = m.freeMap.freeList.drop (min m.freeMap.freeCnt (indexNeed k + 1)) := hgrow.taken
        rw [htaken]
        rcases Nat.lt_or_ge (indexNeed k) m.freeMap.freeCnt with hpos | hshort
        · rw [Nat.min_eq_right hpos]
        · rw [List.drop_of_length_le (by omega), List.drop_of_length_le (by omega)]
      obtain ⟨r, w', hdr', L', hrest, hinv', hgrow', hpast', hr⟩ :=
        ih (m.freeMap.freeList.getD (indexNeed k) allocSec) hinv (hA.grows hgrow hP) hk hlive1
          (by split <;> omega) (by split <;> omega)
      refine ⟨r, w', hdr', L', hrest, hinv', ?_, fun hfull j hj => ?_, ?_⟩
      · have htrans := Grows.trans h hinv hgrow hgrow'
        rwa [hN, show min m.freeMap.freeCnt (indexNeed k + 1) + min m1.freeMap.freeCnt N
          = min m.freeMap.freeCnt (indexNeed k + 1 + N) by omega] at htrans
      · exact (hpast' (by omega) j (Nat.lt_succ_of_lt hj)).trans (hpast hfull j hj)
      · rw [refused_succ hk, ← hsub]
        rcases hr with ⟨rfl, href, -⟩ | ⟨rfl, hnot, b', hloop⟩
        · refine .inl ⟨rfl, .inr href, by omega, fun hfull hnone => ?_⟩
          rw [hpast' (by omega) k (Nat.lt_succ_self k), hptr,
            List.eq_nil_of_length_eq_zero (hlen.trans hfull)]
          rfl
        · refine .inr ⟨rfl, not_or.mpr ⟨Nat.not_lt.mpr hle, hnot⟩, b', ?_⟩
          rw [hlist] at hloop
          refine Looped.cons (w := ⟨m1, d1⟩) hk hb (hlen.symm ▸ hbk) (by rw [hlen]) hlive1 hptr
            (fun v hv => hgrow'.ptr i₀ v hv) (fun hshort => ?_) hloop
          exact hpast' (by omega) k (Nat.lt_succ_self k)

end FsInv

end Pintos
