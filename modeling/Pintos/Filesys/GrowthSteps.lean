import Mathlib.Algebra.Order.BigOperators.Group.List
import Mathlib.Data.Set.Card
import Pintos.Filesys.Files
import Pintos.Filesys.Grown

/-!
# Growing a file step by step

`inode_expand` works out what is left of the last sector, and starts an index block when its counter
of blocks comes to the first one that needs it.  So it does not matter in how many steps a file
grows, as long as no allocation fails.

* `Grew` is what a growth leaves, in terms of the disk and the free map before it: the pointers
  there were, sectors for the new ones that were free, and for the blocks of data those of
  `grownSector`, which are taken from the free sectors in order.  It is transitive.
* `Grew.ncard_takenFor`: the number of sectors taken for data or for index blocks of either level
  depends only on the number of blocks before and after.
* `growth_by_steps`: the calls of `inode_expand` one after another and a single one by the sum.
-/

namespace Pintos

open Bytes Prog

/-- What `inode_expand` allocates sectors for. -/
inductive SectorKind where
  | data
  | indirect
  | doublyIndirect
  /-- The blocks that the doubly indirect one points to. -/
  | secondLevel
deriving DecidableEq, Repr

def Use.kind : Use → Option SectorKind
  | inode => none
  | data _ => some .data
  | indirect => some .indirect
  | doubly => some .doublyIndirect
  | second _ => some .secondLevel

/-- The sectors of the file in sector `i` that are for that. -/
def sectorsFor (kind : SectorKind) (i : Nat) (w : FsWorld) : Set Nat :=
  {s | ∃ v : Use, v.kind = some kind ∧ v.Live (blocks (w.disk i)) ∧ v.ptr w.disk i (w.disk i) = s}

/-- Those of them that were free in `w`. -/
def takenFor (kind : SectorKind) (i : Nat) (w w' : FsWorld) : Set Nat :=
  {s ∈ sectorsFor kind i w' | w.mem.freeMap.bits s = false}

/-- Calls of `inode_expand` one after another, as long as they succeed. -/
def expandEach (depth : Nat) (inode : Inode) : List (Uninit × Int) → FsProg Bool
  | [] => return true
  | (u, extendLength) :: calls => do
    if ← inodeExpand u (freeMapAllocateAt u depth) inode extendLength then
      expandEach depth inode calls
    else return false

theorem sectorNeed_add (r r' k : Nat) :
    sectorNeed (r + r') k = sectorNeed r k + sectorNeed r' (k + r) := by
  induction r generalizing k with
  | zero => simp [sectorNeed]
  | succ r ih =>
    rw [Nat.add_right_comm, sectorNeed, ih, sectorNeed, Nat.add_right_comm k, ← Nat.add_assoc,
      ← Nat.add_assoc]

theorem newSector_add (free : List Nat) (a k r j : Nat) : ∃ a',
    newSector free a k (r + j) = newSector (free.drop (sectorNeed r k)) a' (k + r) j := by
  induction r generalizing free a k with
  | zero => exact ⟨a, by simp [sectorNeed]⟩
  | succ r ih =>
    obtain ⟨a', ha⟩ := ih (free.drop (indexNeed k + 1)) (free.getD (indexNeed k) a) (k + 1)
    refine ⟨a', ?_⟩
    rw [Nat.add_right_comm, newSector_succ, ha, List.drop_drop, sectorNeed, Nat.add_right_comm k,
      Nat.add_assoc k]

theorem exists_first_blocks {len ext rest : Int} {k r : Nat} (hext : 0 ≤ ext) (hrest : 0 ≤ rest)
    (hk : (len.toNat + 511) / 512 = k) (hr : k + r = ((len + ext + rest).toNat + 511) / 512) :
    ∃ r1 r2, r = r1 + r2 ∧ k + r1 = ((len + ext).toNat + 511) / 512 :=
  ⟨((len + ext).toNat + 511) / 512 - k, ((len + ext + rest).toNat + 511) / 512
    - ((len + ext).toNat + 511) / 512, by omega, by omega⟩

/-- What a growth of the file in sector `i` from `k` blocks by `r` has left. -/
structure Grew (n : Nat) (inodes : List Nat) (i k r : Nat) (w w' : FsWorld) : Prop where
  ok : FsOk n inodes w'
  before : blocks (w.disk i) = k
  after : blocks (w'.disk i) = k + r
  room : sectorNeed r k ≤ w.mem.freeMap.freeList.length
  /-- The sectors were taken from the front. -/
  list : w'.mem.freeMap.freeList = w.mem.freeMap.freeList.drop (sectorNeed r k)
  marks : ∀ s, w.mem.freeMap.bits s = true → w'.mem.freeMap.bits s = true
  kept : ∀ v : Use, v.Live k → v.ptr w'.disk i (w'.disk i) = v.ptr w.disk i (w.disk i)
  fresh : ∀ v : Use, v.Live (k + r) → ¬ v.Live k →
    w.mem.freeMap.bits (v.ptr w'.disk i (w'.disk i)) = false
  data : ∀ b < k + r, (Use.data b).ptr w'.disk i (w'.disk i) = grownSector w i b

variable {n i k r r' : Nat} {inodes : List Nat} {w w' w'' : FsWorld}

theorem Grew.refl (h : FsOk n inodes w) (hk : blocks (w.disk i) = k) : Grew n inodes i k 0 w w where
  ok := h
  before := hk
  after := hk
  room := Nat.zero_le _
  list := rfl
  marks _ := id
  kept _ _ := rfl
  fresh v hv hno := absurd hv hno
  data b hb := by rw [grownSector, if_pos (hk ▸ hb)]

theorem Grew.trans (h : Grew n inodes i k r w w') (h' : Grew n inodes i (k + r) r' w' w'') :
    Grew n inodes i k (r + r') w w'' := by
  have hroom := h.room
  have hroom' := h'.room
  have hneed := sectorNeed_add r r' k
  rw [h.list, List.length_drop] at hroom'
  refine ⟨h'.ok, h.before, by rw [h'.after, Nat.add_assoc], by omega, ?_,
    fun s hs => h'.marks s (h.marks s hs), fun v hv => ?_, fun v hv hno => ?_, fun b hb => ?_⟩
  · rw [h'.list, h.list, List.drop_drop, hneed]
  · rw [h'.kept v (hv.mono (Nat.le_add_right ..)), h.kept v hv]
  · by_cases hmid : v.Live (k + r)
    · rw [h'.kept v hmid]
      exact h.fresh v hmid hno
    · rw [← Nat.add_assoc] at hv
      rw [← Bool.not_eq_true]
      exact fun hs => nomatch (h'.fresh v hv hmid).symm.trans (h.marks _ hs)
  · rw [← Nat.add_assoc] at hb
    rw [h'.data b hb, grownSector, h'.before]
    split
    next hmid => exact h.data b hmid
    next hmid =>
      -- what is left of the list starts where the first growth ended
      obtain ⟨a, ha⟩ := newSector_add w.mem.freeMap.freeList 0 k r (b - (k + r))
      have hlt := sectorNeed_lt (k := k + r) (show 0 < r' by omega)
      rw [sectorNeed, Nat.add_zero] at hlt
      rw [grownSector, h.before, if_neg (by omega), show b - k = r + (b - (k + r)) by omega, ha,
        ← h.list]
      refine newSector_congr ?_ ..
      rw [h.list, List.length_drop]
      omega

variable {inode : Inode} {calls : List (Uninit × Int)}

/-- **A call of `inode_expand`** within the index, with sectors enough. -/
theorem Grew.of_expand (h : FsOk n inodes w) (hi : inode.sector ∈ inodes) (u : Uninit) (depth : Nat)
    {ext len : Int} (h0 : 0 ≤ ext) (hlen : InodeDisk.length (w.disk inode.sector) + ext = len)
    (hmax : len ≤ maxLength) (hk : blocks (w.disk inode.sector) = k)
    (hr : k + r = (len.toNat + 511) / 512) (hroom : sectorNeed r k ≤ w.mem.freeMap.freeCnt) :
    ∃ w', (inodeExpand u (freeMapAllocateAt u (depth + 1)) inode ext).exec n w = some (true, w') ∧
      Grew n inodes inode.sector k r w w' ∧ InodeDisk.length (w'.disk inode.sector) = len := by
  obtain ⟨hlen0, hlen1⟩ := h.length _ hi
  have hmaxLength := maxLength_eq
  have hnew : newSectors (InodeDisk.length (w.disk inode.sector)) ext = r := by
    have hsum := blocks_add_newSectors hlen0 hlen1 ext h0 (by omega)
    rw [← Int.toNat_add hlen0 h0, hlen, ← hr, hk] at hsum
    exact Nat.add_left_cancel hsum
  have hblocks : k + r ≤ maxBlocks := by
    rw [hr, maxBlocks_eq]
    omega
  obtain ⟨res, w', hexec, hok, -, hres⟩ := h.exec_inodeExpand inode hi u depth ext h0 (by omega)
    (by rw [hnew, hk]; exact growFits_of_need hblocks hroom)
  obtain ⟨m, d, hdr, L, hinv, hgrow, hcases⟩ := h.exec_inodeExpand_cases inode hi u
    (FsInv.allocates_freeMapAllocateAt u depth) trivial ext hk hnew
  rw [hnew, hk, hlen] at hres
  obtain ⟨rfl, hlen', -⟩ := hres.resolve_left (by omega)
  rw [hexec] at hcases
  rcases hcases with ⟨-, hfalse, -⟩ | ⟨-, ⟨b', hloop⟩, htrue⟩
  · cases hfalse
  · cases htrue
    have hlive := FsInv.live_of_looped hloop (by rwa [Bitmap.length_freeList]) hblocks
    have hptr : ∀ v : Use, v.Live (k + r) → _ := fun v hv =>
      hinv.ptr_of_looped hi hloop (wrap32 (InodeDisk.length (w.disk inode.sector) + ext))
        (by rwa [Nat.min_eq_left hblocks])
    have htaken := hgrow.taken
    rw [show min r (maxBlocks - k) = r by omega, Nat.min_eq_right hroom] at htaken
    refine ⟨_, hexec, ⟨hok, hk, by rw [blocks, hlen', hr], by rwa [Bitmap.length_freeList], htaken,
      hgrow.marks, fun v hv => ?_, fun v hv hno => ?_, fun b hb => ?_⟩, hlen'⟩
    · rw [hptr v (hv.mono (Nat.le_add_right ..))]
      exact hgrow.ptr _ v ⟨hi, hk.symm ▸ hv⟩
    · rw [hptr v hv]
      exact (hgrow.fresh _ v ((hlive v).mpr hv)).resolve_left fun hold => hno (hk ▸ hold.2)
    · have hfirst : 0 < r → indexNeed k < sectorNeed r k := fun hpos => by
        simpa [sectorNeed] using sectorNeed_lt hpos
      rw [hptr (.data b) hb]
      exact FsInv.ptr_eq_grownSector h hgrow hi hk hloop (by omega) fun hkb => by omega

theorem sum_nonneg (h0 : ∀ call ∈ calls, 0 ≤ call.2) : 0 ≤ (calls.map Prod.snd).sum :=
  List.sum_nonneg (List.forall_mem_map.mpr h0)

/-- **Calls of `inode_expand` one after another.** -/
theorem Grew.of_expandEach (h : FsOk n inodes w) (hi : inode.sector ∈ inodes) (depth : Nat)
    {len : Int} (h0 : ∀ call ∈ calls, 0 ≤ call.2)
    (hlen : InodeDisk.length (w.disk inode.sector) + (calls.map Prod.snd).sum = len)
    (hmax : len ≤ maxLength) (hk : blocks (w.disk inode.sector) = k)
    (hr : k + r = (len.toNat + 511) / 512) (hroom : sectorNeed r k ≤ w.mem.freeMap.freeCnt) :
    ∃ w', (expandEach (depth + 1) inode calls).exec n w = some (true, w') ∧
      Grew n inodes inode.sector k r w w' ∧ InodeDisk.length (w'.disk inode.sector) = len := by
  induction calls generalizing w k r with
  | nil =>
    rw [List.map_nil, List.sum_nil, Int.add_zero] at hlen
    rw [← hlen, ← blocks, hk, Nat.add_eq_left] at hr
    exact ⟨w, rfl, hr ▸ .refl h hk, hlen⟩
  | cons call calls ih =>
    obtain ⟨u, ext⟩ := call
    obtain ⟨hext, hrest⟩ := List.forall_mem_cons.mp h0
    have hsum := sum_nonneg hrest
    rw [List.map_cons, List.sum_cons, ← Int.add_assoc] at hlen
    subst hlen
    obtain ⟨r1, r2, rfl, hr1⟩ := exists_first_blocks hext hsum hk hr
    rw [sectorNeed_add] at hroom
    obtain ⟨w1, hexec, hgrew, hlen1⟩ :=
      Grew.of_expand h hi u depth hext rfl (by omega) hk hr1 (by omega)
    have hroom1 : sectorNeed r2 (k + r1) ≤ w1.mem.freeMap.freeCnt := by
      rw [← Bitmap.length_freeList, hgrew.list, List.length_drop, Bitmap.length_freeList]
      omega
    obtain ⟨w2, hexec2, hgrew2, hlen2⟩ :=
      ih hgrew.ok hrest (by rw [hlen1]) hgrew.after (by omega) hroom1
    exact ⟨w2, (exec_bind_of_eq hexec).trans hexec2, hgrew.trans hgrew2, hlen2⟩

/-! ## The sectors of each kind -/

theorem Grew.ncard_takenFor (h : FsOk n inodes w) (hi : i ∈ inodes) (hg : Grew n inodes i k r w w')
    (kind : SectorKind) : (takenFor kind i w w').ncard
      = {v : Use | v.kind = some kind ∧ v.Live (k + r) ∧ ¬ v.Live k}.ncard := by
  have himage : takenFor kind i w w' = (fun v : Use => v.ptr w'.disk i (w'.disk i)) ''
      {v : Use | v.kind = some kind ∧ v.Live (k + r) ∧ ¬ v.Live k} := by
    ext s
    rw [takenFor, sectorsFor, hg.after]
    constructor
    · rintro ⟨⟨v, hkind, hlive, rfl⟩, hfree⟩
      refine ⟨v, ⟨hkind, hlive, fun hold => ?_⟩, rfl⟩
      have hused := h.layout.used i v ⟨hi, hg.before.symm ▸ hold⟩
      rw [hg.kept v hold, hused] at hfree
      cases hfree
    · rintro ⟨v, ⟨hkind, hlive, hnew⟩, rfl⟩
      exact ⟨⟨v, hkind, hlive, rfl⟩, hg.fresh v hlive hnew⟩
  rw [himage]
  refine Set.InjOn.ncard_image fun v hv v' hv' heq => ?_
  exact (hg.ok.layout.inj i i v v' ⟨hi, hg.after.symm ▸ hv.2.1⟩ ⟨hi, hg.after.symm ▸ hv'.2.1⟩ heq).2

theorem ncard_sectorsFor_data (h : FsOk n inodes w) (hi : i ∈ inodes) :
    (sectorsFor .data i w).ncard = blocks (w.disk i) := by
  have himage : sectorsFor .data i w
      = (fun b => (Use.data b).ptr w.disk i (w.disk i)) '' Finset.range (blocks (w.disk i)) := by
    ext s
    constructor
    · rintro ⟨v, hkind, hlive, rfl⟩
      cases v with
      | data b => exact ⟨b, Finset.mem_coe.mpr (Finset.mem_range.mpr hlive), rfl⟩
      | _ => cases hkind
    · rintro ⟨b, hb, rfl⟩
      exact ⟨.data b, rfl, Finset.mem_range.mp (Finset.mem_coe.mp hb), rfl⟩
  rw [himage, Set.InjOn.ncard_image, Set.ncard_coe_finset, Finset.card_range]
  intro b hb b' hb' heq
  have hsame := (h.layout.inj i i (.data b) (.data b') ⟨hi, Finset.mem_range.mp hb⟩
    ⟨hi, Finset.mem_range.mp hb'⟩ heq).2
  exact Use.data.inj hsame

/-- **The growth of a file does not depend on its steps.**  Extend any file by lengths that are not
negative, one after another, within the reach of the index and with sectors enough on the disk.  All
calls succeed, as does one by the sum.  The one way takes as many sectors as the other for data, for
the indirect, the doubly indirect and the second-level blocks, and as many in all.  The file then
has a sector of data for each 512 bytes or part of them, and `byte_to_sector` gives the one that the
block had, or the one that came out of the free map for it. -/
theorem growth_by_steps (n : Nat) (inodes : List Nat) (w : FsWorld) (h : FsOk n inodes w)
    (inode : Inode) (hi : inode.sector ∈ inodes) (depth : Nat) (u : Uninit)
    (calls : List (Uninit × Int)) (h0 : ∀ call ∈ calls, 0 ≤ call.2)
    (hmax : InodeDisk.length (w.disk inode.sector) + (calls.map Prod.snd).sum ≤ maxLength)
    (hroom : sectorNeed (((InodeDisk.length (w.disk inode.sector)
        + (calls.map Prod.snd).sum).toNat + 511) / 512 - blocks (w.disk inode.sector))
      (blocks (w.disk inode.sector)) ≤ w.mem.freeMap.freeCnt) :
    ∃ w₁ w₂, (expandEach (depth + 1) inode calls).exec n w = some (true, w₁) ∧
      (inodeExpand u (freeMapAllocateAt u (depth + 1)) inode (calls.map Prod.snd).sum).exec n w
        = some (true, w₂) ∧
      (∀ kind, (takenFor kind inode.sector w w₁).ncard
        = (takenFor kind inode.sector w w₂).ncard) ∧
      w₁.mem.freeMap.freeCnt = w₂.mem.freeMap.freeCnt ∧
      InodeDisk.length (w₁.disk inode.sector)
        = InodeDisk.length (w.disk inode.sector) + (calls.map Prod.snd).sum ∧
      (sectorsFor .data inode.sector w₁).ncard
        = ((InodeDisk.length (w₁.disk inode.sector)).toNat + 511) / 512 ∧
      ∀ (u : Uninit) (pos : Nat), pos < InodeDisk.length (w₁.disk inode.sector) →
        (byteToSector u inode pos).exec n w₁
          = some (grownSector w inode.sector (pos / 512), w₁) := by
  have hle : blocks (w.disk inode.sector)
      ≤ ((InodeDisk.length (w.disk inode.sector) + (calls.map Prod.snd).sum).toNat + 511) / 512 :=
    Nat.div_le_div_right (Nat.add_le_add_right (Int.toNat_le_toNat
      (Int.le_add_of_nonneg_right (sum_nonneg h0))) 511)
  have hr := Nat.add_sub_cancel' hle
  obtain ⟨w₁, hexec1, hgrew1, hlen1⟩ := Grew.of_expandEach h hi depth h0 rfl hmax rfl hr hroom
  obtain ⟨w₂, hexec2, hgrew2, -⟩ :=
    Grew.of_expand h hi u depth (sum_nonneg h0) rfl hmax rfl hr hroom
  refine ⟨w₁, w₂, hexec1, hexec2, fun kind => ?_, ?_, hlen1, ncard_sectorsFor_data hgrew1.ok hi,
    fun u pos hpos => ?_⟩
  · rw [hgrew1.ncard_takenFor h hi, hgrew2.ncard_takenFor h hi]
  · rw [← Bitmap.length_freeList, hgrew1.list, ← hgrew2.list, Bitmap.length_freeList]
  · have hblock := div_lt_blocks (Int.lt_toNat.mpr hpos)
    rw [hgrew1.ok.exec_byteToSector hi u hpos, hgrew1.data _ (hgrew1.after ▸ hblock)]

/-- 100 and then 500 bytes, of an empty file on a fresh disk of eight sectors. -/
theorem growth_by_steps_twice : ∃ inodes w i w₁, FsOk 8 inodes w ∧ i ∈ inodes ∧
    (expandEach 1 ⟨i, 0⟩ [(⟨0, .fill 512 0, 0⟩, 100), (⟨1, .fill 512 1, 1⟩, 500)]).exec 8 w
      = some (true, w₁) ∧ (sectorsFor .data i w₁).ncard = 2 := by
  obtain ⟨-, -, w, s, -, -, -, hok, -, hlen, hfree⟩ := exists_emptyInode false
  obtain ⟨w₁, -, hexec, -, -, -, hlen1, hdata, -⟩ := growth_by_steps 8 _ w hok ⟨s, 0⟩
    List.mem_cons_self 0 ⟨0, .fill 512 0, 0⟩
    [(⟨0, .fill 512 0, 0⟩, 100), (⟨1, .fill 512 1, 1⟩, 500)]
    (by decide) (by rw [hlen]; decide) (by rw [blocks, hlen, hfree]; decide)
  refine ⟨_, w, s, w₁, hok, .head _, hexec, hdata.trans ?_⟩
  rw [hlen1, hlen]
  rfl

end Pintos
