import Pintos.Lib.Bytes
import Pintos.Lib.Machine

/-!
# The buffer cache

`filesys/cache.c` keeps up to 64 sectors of the file system disk in a list of entries, ordered by
last use: `find_cache` moves the entry it finds to the back, and `make_cache` evicts the one at the
front.  This file models it and proves that nothing can be seen of it.

* `CacheState` is the list together with the disk behind it.  The code works on an entry through
  the pointer that `find_cache` or `make_cache` returned; in both cases that entry is the last one
  of the list, so storing through the pointer is `CacheState.setBack`.
* `CacheState.Sim s ref` relates a cache to a plain array of sectors `ref`: a cached sector has its
  contents in its entry, any other on the disk, and a clean entry agrees with the disk.
* `cacheRead_sim`, `cacheWrite_sim`, `findCache_sim`, `writeBehindAll_sim` are the four operations,
  and `destroyCacheList_sim` the flush at shutdown.  `cacheMachine_simulates` puts the operations
  together, and `cacheMachine_transparent` reads the result off over whole runs.

Storage obtained from `malloc` is not cleared, so the buffer of a new entry starts out with
arbitrary bytes: `fresh k` stands for those of the `k`-th entry ever allocated.
-/

namespace Pintos

open Bytes
open Function (update update_of_ne update_self)

/-- A sector of `DISK_SECTOR_SIZE` bytes. -/
abbrev Sector := Block 512

/-- A disk: an array of sectors. -/
abbrev Disk := Nat → Sector

/-! ## The model -/

/-- `struct cache`, without the per-entry lock, which nothing takes. -/
structure Cache where
  buffer : Sector
  sectorIdx : Nat
  /-- Has the entry been written since it was last on the disk? -/
  dirty : Bool
  openCnt : Int

/-- `cache_list`, and `filesys_disk` behind it. -/
structure CacheState where
  /-- The entries, least recently used first. -/
  cacheList : List Cache
  disk : Disk
  /-- How many entries have been allocated so far. -/
  mallocCnt : Nat

/-- `CACHE_MAX_SECTOR_NO`. -/
def cacheMaxSectorNo : Nat := 64

namespace CacheState

/-- `cache_init`, with the disk as it is found. -/
def cacheInit (d : Disk) : CacheState := ⟨[], d, 0⟩

/-- Store an entry through the pointer to it, the entry being the last of the list. -/
def setBack (s : CacheState) (c : Cache) : CacheState :=
  { s with cacheList := s.cacheList.dropLast ++ [c] }

/-- The first entry of a sector, and the list without it. -/
def extract (secNo : Nat) : List Cache → Option (Cache × List Cache)
  | [] => none
  | c :: cs =>
    if c.sectorIdx = secNo then some (c, cs)
    else (extract secNo cs).map fun r => (r.1, c :: r.2)

/-- `find_cache`: the entry of a sector, which moves to the back of the list. -/
def findCache (s : CacheState) (secNo : Nat) : Option (Cache × CacheState) :=
  (extract secNo s.cacheList).map fun r => (r.1, { s with cacheList := r.2 ++ [r.1] })

/-- `write_behind`: a dirty entry is written to the disk and becomes clean. -/
def writeBehind (d : Disk) (c : Cache) : Cache × Disk :=
  if c.dirty then ({ c with dirty := false }, update d c.sectorIdx c.buffer) else (c, d)

/-- `evict_cache`: the entry at the front is written behind and dropped. -/
def evictCache (s : CacheState) : CacheState :=
  match s.cacheList with
  | [] => s
  | c :: cs => { s with cacheList := cs, disk := (writeBehind s.disk c).2 }

/-- The first half of `make_cache`: an eviction, if the list is full. -/
def makeRoom (s : CacheState) : CacheState :=
  if s.cacheList.length ≥ cacheMaxSectorNo then evictCache s else s

/-- `make_cache`: a new entry at the back, after an eviction if the list is full. -/
def makeCache (fresh : Nat → Sector) (s : CacheState) (secNo : Nat) (dirty : Bool) :
    Cache × CacheState :=
  let s := makeRoom s
  let c : Cache := ⟨fresh s.mallocCnt, secNo, dirty, 0⟩
  (c, { s with cacheList := s.cacheList ++ [c], mallocCnt := s.mallocCnt + 1 })

/-- `cache_read`. -/
def cacheRead (fresh : Nat → Sector) (s : CacheState) (secNo ofs size : Nat) :
    List UInt8 × CacheState :=
  let r := match findCache s secNo with
    | some r => r
    | none =>
      let r := makeCache fresh s secNo false
      let c := { r.1 with buffer := r.2.disk secNo }
      (c, r.2.setBack c)
  let c := { r.1 with openCnt := r.1.openCnt + 1 }
  (c.buffer.read ofs size, r.2.setBack c)

/-- `cache_write`.  A miss reads the sector in first, unless all of it is about to be
overwritten. -/
def cacheWrite (fresh : Nat → Sector) (s : CacheState) (secNo ofs : Nat) (data : List UInt8) :
    CacheState :=
  let r := match findCache s secNo with
    | some r => r
    | none =>
      let r := makeCache fresh s secNo true
      if ofs > 0 ∨ data.length < 512 then
        let c := { r.1 with buffer := r.2.disk secNo }
        (c, r.2.setBack c)
      else r
  let c := { r.1 with
    dirty := true, buffer := r.1.buffer.write ofs data, openCnt := r.1.openCnt + 1 }
  r.2.setBack c

/-- The loop of `thread_function_wb_frequently` over the list. -/
def writeBehindList : List Cache → Disk → List Cache × Disk
  | [], d => ([], d)
  | c :: cs, d =>
    let r := writeBehind d c
    let q := writeBehindList cs r.2
    (r.1 :: q.1, q.2)

/-- One pass of `thread_function_wb_frequently` over `cache_list`. -/
def writeBehindAll (s : CacheState) : CacheState :=
  let r := writeBehindList s.cacheList s.disk
  { s with cacheList := r.1, disk := r.2 }

/-- The loop of `destroy_cache_list`: write behind and drop the front until nothing is left. -/
def destroyList : List Cache → Disk → Disk
  | [], d => d
  | c :: cs, d => destroyList cs (writeBehind d c).2

/-- `destroy_cache_list`, as `filesys_done` runs it. -/
def destroyCacheList (s : CacheState) : CacheState :=
  { s with cacheList := [], disk := destroyList s.cacheList s.disk }

/-! ## A cache stands for an array of sectors -/

/-- The cache `s` stands for the array `ref`. -/
structure Sim (s : CacheState) (ref : Disk) : Prop where
  nodup : (s.cacheList.map Cache.sectorIdx).Nodup
  /-- A cached sector has its contents in its entry. -/
  hit : ∀ c ∈ s.cacheList, c.buffer = ref c.sectorIdx
  /-- Any other has them on the disk. -/
  miss : ∀ sec, sec ∉ s.cacheList.map Cache.sectorIdx → s.disk sec = ref sec
  /-- A clean entry agrees with the disk. -/
  clean : ∀ c ∈ s.cacheList, c.dirty = false → s.disk c.sectorIdx = ref c.sectorIdx

variable {s : CacheState} {ref : Disk} {secNo : Nat}

theorem sim_cacheInit (d : Disk) : (cacheInit d).Sim d := by
  constructor <;> simp [cacheInit]

variable {l : List Cache}

theorem Sim.perm (h : s.Sim ref) (hl : l.Perm s.cacheList) :
    ({ s with cacheList := l } : CacheState).Sim ref where
  nodup := (hl.map _).nodup_iff.mpr h.nodup
  hit c hc := h.hit c (hl.mem_iff.mp hc)
  miss sec hsec := h.miss sec fun hm => hsec ((hl.map _).mem_iff.mpr hm)
  clean c hc := h.clean c (hl.mem_iff.mp hc)

variable {c : Cache} {ref' : Disk}

theorem Sim.push (h : s.Sim ref) (hc : c.sectorIdx ∉ s.cacheList.map Cache.sectorIdx)
    (hbuf : c.buffer = ref' c.sectorIdx)
    (hclean : c.dirty = false → s.disk c.sectorIdx = ref' c.sectorIdx)
    (href : ∀ sec, sec ≠ c.sectorIdx → ref' sec = ref sec) (k : Nat) :
    (⟨s.cacheList ++ [c], s.disk, k⟩ : CacheState).Sim ref' := by
  have hne : ∀ e ∈ s.cacheList, e.sectorIdx ≠ c.sectorIdx := fun e he heq =>
    hc (heq ▸ List.mem_map_of_mem he)
  refine ⟨?_, fun e he => ?_, fun sec hsec => ?_, fun e he hd => ?_⟩
  · rw [List.map_append, List.map_singleton]
    exact List.nodup_append.mpr ⟨h.nodup, List.nodup_singleton _, fun a ha b hb hab =>
      hc (by rw [List.mem_singleton] at hb; exact hb ▸ hab ▸ ha)⟩
  · rcases List.mem_append.mp he with he | he
    · rw [h.hit e he, href _ (hne e he)]
    · rw [List.mem_singleton.mp he]
      exact hbuf
  · simp only [List.map_append, List.mem_append, List.map_singleton, List.mem_singleton,
      not_or] at hsec
    rw [h.miss sec hsec.1, href _ hsec.2]
  · rcases List.mem_append.mp he with he | he
    · rw [href _ (hne e he)]
      exact h.clean e he hd
    · rw [List.mem_singleton.mp he] at hd ⊢
      exact hclean hd

variable {cs : List Cache} {d : Disk} {k : Nat}

theorem Sim.drop (h : (⟨c :: cs, d, k⟩ : CacheState).Sim ref) :
    (⟨cs, (writeBehind d c).2, k⟩ : CacheState).Sim ref := by
  obtain ⟨hnd, hhit, hmiss, hclean⟩ := h
  simp only [List.map_cons, List.nodup_cons] at hnd
  -- `write_behind` leaves the sector of `c` right on the disk, whether `c` was dirty or not
  have hd : ∀ sec, (writeBehind d c).2 sec
      = if sec = c.sectorIdx then ref c.sectorIdx else d sec := by
    intro sec
    rw [writeBehind]
    split
    · dsimp only
      by_cases hsec : sec = c.sectorIdx
      · rw [hsec, update_self, if_pos rfl, hhit c (by simp)]
      · rw [update_of_ne hsec, if_neg hsec]
    · rename_i hdirty
      by_cases hsec : sec = c.sectorIdx
      · rw [hsec, if_pos rfl]
        exact hclean c (by simp) (by simpa using hdirty)
      · rw [if_neg hsec]
  refine ⟨hnd.2, fun e he => hhit e (by simp [he]), fun sec hsec => ?_, fun e he hdirty => ?_⟩
  · dsimp only at hsec ⊢
    rw [hd]
    split
    · rename_i h; rw [h]
    · rename_i h
      exact hmiss sec (by simp [h, hsec])
  · have hne : e.sectorIdx ≠ c.sectorIdx := fun heq => hnd.1 (heq ▸ List.mem_map_of_mem he)
    dsimp only
    rw [hd, if_neg hne]
    exact hclean e (by simp [he]) hdirty

/-! ### Finding and making an entry -/

theorem extract_eq_none (h : extract secNo l = none) : secNo ∉ l.map Cache.sectorIdx := by
  induction l with
  | nil => simp
  | cons c cs ih =>
    rw [extract] at h
    split at h
    · simp at h
    · rename_i hc
      rw [Option.map_eq_none_iff] at h
      rw [List.map_cons, List.mem_cons, not_or]
      exact ⟨fun heq => hc heq.symm, ih h⟩

theorem extract_eq_some (h : extract secNo l = some (c, cs)) :
    c.sectorIdx = secNo ∧ (c :: cs).Perm l := by
  induction l generalizing cs with
  | nil => simp [extract] at h
  | cons e es ih =>
    rw [extract] at h
    split at h
    · rename_i he
      cases h
      exact ⟨he, List.Perm.refl _⟩
    · rw [Option.map_eq_some_iff] at h
      obtain ⟨⟨c', cs'⟩, hr, heq⟩ := h
      cases heq
      obtain ⟨hsec, hperm⟩ := ih hr
      exact ⟨hsec, (List.Perm.swap e c' cs').trans (hperm.cons e)⟩

/-- What a hit leaves: the entry found, at the back of entries that stand for the array except at
its sector. -/
theorem findCache_eq_some (h : s.Sim ref) {s' : CacheState}
    (hf : findCache s secNo = some (c, s')) :
    ∃ rest, s' = { s with cacheList := rest ++ [c] } ∧ c.sectorIdx = secNo ∧
      c.buffer = ref secNo ∧ s'.Sim ref := by
  rw [findCache, Option.map_eq_some_iff] at hf
  obtain ⟨⟨c', cs⟩, hx, heq⟩ := hf
  cases heq
  obtain ⟨hsec, hperm⟩ := extract_eq_some hx
  refine ⟨cs, rfl, hsec, ?_, h.perm ((List.perm_append_singleton c' cs).trans hperm)⟩
  rw [← hsec]
  exact h.hit c' (hperm.mem_iff.mp (by simp))

theorem findCache_eq_none (hf : findCache s secNo = none) :
    secNo ∉ s.cacheList.map Cache.sectorIdx := by
  rw [findCache, Option.map_eq_none_iff] at hf
  exact extract_eq_none hf

theorem Sim.evictCache (h : s.Sim ref) : s.evictCache.Sim ref := by
  obtain ⟨l, d, k⟩ := s
  cases l with
  | nil => exact h
  | cons c cs => exact h.drop

theorem Sim.makeRoom (h : s.Sim ref) : s.makeRoom.Sim ref := by
  rw [CacheState.makeRoom]
  split
  · exact h.evictCache
  · exact h

theorem not_mem_makeRoom (h : secNo ∉ s.cacheList.map Cache.sectorIdx) :
    secNo ∉ (makeRoom s).cacheList.map Cache.sectorIdx := by
  rw [makeRoom]
  split
  · obtain ⟨l, d, k⟩ := s
    cases l with
    | nil => exact h
    | cons c cs => exact fun hm => h (.tail _ hm)
  · exact h

theorem Sim.pushMade (fresh : Nat → Sector) (h : s.Sim ref) {dirty : Bool}
    (hsec : secNo ∉ s.makeRoom.cacheList.map Cache.sectorIdx) (hcs : c.sectorIdx = secNo)
    (hbuf : c.buffer = ref' secNo) (hclean : c.dirty = false → ref secNo = ref' secNo)
    (href : ∀ sec, sec ≠ secNo → ref' sec = ref sec) :
    ((makeCache fresh s secNo dirty).2.setBack c).Sim ref' := by
  have hr := h.makeRoom
  rw [makeCache, setBack, List.dropLast_concat]
  refine hr.push (hcs.symm ▸ hsec) (hcs.symm ▸ hbuf) (fun hd => ?_) (hcs.symm ▸ href) _
  rw [hcs, hr.miss secNo hsec, hclean hd]

theorem makeCache_disk (fresh : Nat → Sector) (h : s.Sim ref) (dirty : Bool)
    (hsec : secNo ∉ s.makeRoom.cacheList.map Cache.sectorIdx) :
    (makeCache fresh s secNo dirty).2.disk secNo = ref secNo :=
  h.makeRoom.miss secNo hsec

@[simp] theorem setBack_append (l : List Cache) (c c' : Cache) (d : Disk) (k : Nat) :
    (⟨l ++ [c], d, k⟩ : CacheState).setBack c' = ⟨l ++ [c'], d, k⟩ := by
  simp [setBack]

@[simp] theorem setBack_setBack (s : CacheState) (c c' : Cache) :
    (s.setBack c).setBack c' = s.setBack c' := by
  simp [setBack]

theorem Sim.replace {c' : Cache} (h : (⟨l ++ [c], d, k⟩ : CacheState).Sim ref)
    (hsec : c'.sectorIdx = c.sectorIdx) (hbuf : c'.buffer = ref' c.sectorIdx)
    (hclean : c'.dirty = false → d c.sectorIdx = ref' c.sectorIdx)
    (href : ∀ sec, sec ≠ c.sectorIdx → ref' sec = ref sec) :
    (⟨l ++ [c'], d, k⟩ : CacheState).Sim ref' := by
  have hnd := h.nodup
  simp only [List.map_append] at hnd
  obtain ⟨hl, -, hdisj⟩ := List.nodup_append.mp hnd
  -- without the entry at the back, the rest stands for the array with its sector as the disk has it
  have hrest : (⟨l, d, k⟩ : CacheState).Sim (update ref c.sectorIdx (d c.sectorIdx)) := by
    have hne : ∀ e ∈ l, e.sectorIdx ≠ c.sectorIdx := fun e he heq =>
      hdisj _ (List.mem_map_of_mem he) _ (List.mem_singleton.mpr rfl) heq
    refine ⟨hl, fun e he => ?_, fun sec hs => ?_, fun e he hd => ?_⟩
    · rw [update_of_ne (hne e he)]
      exact h.hit e (by simp [he])
    · by_cases hc : sec = c.sectorIdx
      · rw [hc, update_self]
      · rw [update_of_ne hc]
        exact h.miss sec (by simpa [hc] using hs)
    · rw [update_of_ne (hne e he)]
      exact h.clean e (by simp [he]) hd
  refine hrest.push (fun hm => ?_) (hsec ▸ hbuf) (hsec ▸ hclean) (fun sec hs => ?_) k
  · exact hdisj _ hm _ (List.mem_singleton.mpr rfl) hsec
  · rw [hsec] at hs
    rw [href sec hs, update_of_ne hs]

/-! ### The operations -/

theorem findCache_sim (h : s.Sim ref) (secNo : Nat) :
    ((findCache s secNo).elim s Prod.snd).Sim ref := by
  rcases hf : findCache s secNo with _ | ⟨c, s'⟩
  · exact h
  · obtain ⟨_, -, -, -, h'⟩ := findCache_eq_some h hf
    exact h'

/-- **`cache_read` delivers the bytes of the array.** -/
theorem cacheRead_sim (fresh : Nat → Sector) (h : s.Sim ref) (secNo ofs size : Nat) :
    (cacheRead fresh s secNo ofs size).1 = (ref secNo).read ofs size ∧
      (cacheRead fresh s secNo ofs size).2.Sim ref := by
  rw [cacheRead]
  rcases hf : findCache s secNo with _ | ⟨c, s'⟩
  · -- a miss: the new entry is filled from the disk, which is right at a sector not cached
    have hsec := not_mem_makeRoom (findCache_eq_none hf)
    have hdisk := makeCache_disk fresh h false hsec
    simp only [setBack_setBack]
    exact ⟨by rw [hdisk], h.pushMade fresh hsec rfl hdisk (fun _ => rfl) fun _ _ => rfl⟩
  · obtain ⟨rest, rfl, hcs, hbuf, h'⟩ := findCache_eq_some h hf
    simp only [setBack_append]
    refine ⟨by rw [hbuf], h'.replace rfl ?_ (h'.clean c (by simp)) fun _ _ => rfl⟩
    exact hcs.symm ▸ hbuf

/-- **`cache_write` stores into the array.** -/
theorem cacheWrite_sim (fresh : Nat → Sector) (h : s.Sim ref) (secNo : Nat) {ofs : Nat}
    {data : List UInt8} (hlen : ofs + data.length ≤ 512) :
    (cacheWrite fresh s secNo ofs data).Sim
      (update ref secNo ((ref secNo).write ofs data)) := by
  have href : ∀ sec, sec ≠ secNo → update ref secNo ((ref secNo).write ofs data) sec = ref sec :=
    fun sec hs => update_of_ne hs _ _
  rw [cacheWrite]
  rcases hf : findCache s secNo with _ | ⟨c, s'⟩
  · have hsec := not_mem_makeRoom (findCache_eq_none hf)
    have hdisk := makeCache_disk fresh h true hsec
    dsimp only
    split
    · -- part of the sector stays, and is read in
      simp only [setBack_setBack]
      refine h.pushMade fresh hsec rfl ?_ (fun hd => absurd hd (by simp)) href
      rw [update_self, hdisk]
    · -- all of the sector is overwritten, so what the new buffer held does not matter
      have hofs : ofs = 0 := by omega
      refine h.pushMade fresh hsec rfl ?_ (fun hd => absurd hd (by simp)) href
      rw [update_self, hofs]
      exact Block.write_full _ _ (by omega)
  · obtain ⟨rest, rfl, hcs, hbuf, h'⟩ := findCache_eq_some h hf
    simp only [setBack_append]
    refine h'.replace rfl ?_ (fun hd => absurd hd (by simp)) (hcs.symm ▸ href)
    rw [hcs, update_self, hbuf]

theorem writeBehindList_sim :
    ∀ {l : List Cache} {d ref : Disk}, (⟨l, d, k⟩ : CacheState).Sim ref →
      (⟨(writeBehindList l d).1, (writeBehindList l d).2, k⟩ : CacheState).Sim ref
  | [], _, _, h => h
  | c :: cs, d, ref, h => by
    have ih := writeBehindList_sim h.drop
    have hc : (writeBehind d c).1.sectorIdx = c.sectorIdx ∧
        (writeBehind d c).1.buffer = c.buffer := by
      rw [writeBehind]; split <;> exact ⟨rfl, rfl⟩
    have hnot : c.sectorIdx ∉ cs.map Cache.sectorIdx := by
      have hnd := h.nodup
      rw [List.map_cons, List.nodup_cons] at hnd
      exact hnd.1
    have hsecs : ∀ (l : List Cache) (d : Disk),
        (writeBehindList l d).1.map Cache.sectorIdx = l.map Cache.sectorIdx := by
      intro l
      induction l with
      | nil => intro _; rfl
      | cons e es ih =>
        intro d
        simp only [writeBehindList, List.map_cons, ih]
        rw [writeBehind]; split <;> rfl
    have hbuf := h.hit c (by simp)
    refine Sim.perm (s := ⟨(writeBehindList cs (writeBehind d c).2).1 ++ [(writeBehind d c).1],
      (writeBehindList cs (writeBehind d c).2).2, k⟩) ?_ (List.perm_append_singleton _ _).symm
    refine ih.push ?_ ?_ (fun _ => ?_) (fun _ _ => rfl) k
    · rw [hc.1, hsecs]
      exact hnot
    · rw [hc.1, hc.2, hbuf]
    · rw [hc.1]
      exact ih.miss _ (by rw [hsecs]; exact hnot)

theorem writeBehindAll_sim (h : s.Sim ref) : (writeBehindAll s).Sim ref := writeBehindList_sim h

theorem destroyList_sim :
    ∀ {l : List Cache} {d ref : Disk}, (⟨l, d, k⟩ : CacheState).Sim ref → destroyList l d = ref
  | [], _, _, h => funext fun sec => h.miss sec (by simp)
  | c :: cs, d, _, h => by
    rw [destroyList]
    exact destroyList_sim h.drop

/-- **The flush leaves the array on the disk**, whatever was dirty. -/
theorem destroyCacheList_sim (h : s.Sim ref) : (destroyCacheList s).disk = ref := destroyList_sim h

end CacheState

/-! ## Runs -/

/-- An access to the cache. -/
inductive CacheOp where
  /-- A `cache_read` of `size` bytes at `ofs`. -/
  | cacheRead (secNo ofs size : Nat)
  /-- A `cache_write` of `data` at `ofs`. -/
  | cacheWrite (secNo ofs : Nat) (data : List UInt8)
  /-- A `find_cache` on its own. -/
  | findCache (secNo : Nat)
  /-- A pass of the write-behind thread. -/
  | writeBehindAll

/-- The access stays inside a disk of `capacity` sectors, and inside its sector. -/
def CacheOp.Ok (capacity : Nat) : CacheOp → Prop
  | .cacheRead secNo ofs size => secNo < capacity ∧ ofs + size ≤ 512
  | .cacheWrite secNo ofs data => secNo < capacity ∧ ofs + data.length ≤ 512
  | .findCache secNo => secNo < capacity
  | .writeBehindAll => True

instance (capacity : Nat) : (op : CacheOp) → Decidable (op.Ok capacity)
  | .cacheRead secNo ofs size => inferInstanceAs (Decidable (secNo < capacity ∧ ofs + size ≤ 512))
  | .cacheWrite secNo ofs data =>
    inferInstanceAs (Decidable (secNo < capacity ∧ ofs + data.length ≤ 512))
  | .findCache secNo => inferInstanceAs (Decidable (secNo < capacity))
  | .writeBehindAll => inferInstanceAs (Decidable True)

/-- The cache, driven by accesses.  Reads give the bytes they deliver. -/
def cacheMachine (fresh : Nat → Sector) : Machine CacheState CacheOp (List UInt8) where
  step s
    | .cacheRead secNo ofs size => some (CacheState.cacheRead fresh s secNo ofs size)
    | .cacheWrite secNo ofs data => some ([], CacheState.cacheWrite fresh s secNo ofs data)
    | .findCache secNo => some ([], (CacheState.findCache s secNo).elim s Prod.snd)
    | .writeBehindAll => some ([], CacheState.writeBehindAll s)

/-- The reference: an array of sectors, read and written directly. -/
def refMachine : Machine Disk CacheOp (List UInt8) where
  step ref
    | .cacheRead secNo ofs size => some ((ref secNo).read ofs size, ref)
    | .cacheWrite secNo ofs data =>
      some ([], update ref secNo ((ref secNo).write ofs data))
    | .findCache _ => some ([], ref)
    | .writeBehindAll => some ([], ref)

theorem cacheMachine_simulates (fresh : Nat → Sector) (capacity : Nat) :
    (cacheMachine fresh).Simulates refMachine (fun _ op => op.Ok capacity) CacheState.Sim := by
  intro s ref op o s' hsim hok hstep
  cases op with
  | cacheRead secNo ofs size =>
    have h := CacheState.cacheRead_sim fresh hsim secNo ofs size
    rw [cacheMachine, Option.some_inj] at hstep
    rw [hstep] at h
    obtain ⟨rfl, h⟩ := h
    exact ⟨ref, rfl, h⟩
  | cacheWrite secNo ofs data =>
    cases hstep
    exact ⟨_, rfl, CacheState.cacheWrite_sim fresh hsim secNo hok.2⟩
  | findCache secNo =>
    cases hstep
    exact ⟨ref, rfl, CacheState.findCache_sim hsim secNo⟩
  | writeBehindAll =>
    cases hstep
    exact ⟨ref, rfl, CacheState.writeBehindAll_sim hsim⟩

theorem cacheMachine_run_isSome (fresh : Nat → Sector) (ops : List CacheOp) :
    ∀ s, ∃ r, (cacheMachine fresh).run s ops = some r := by
  induction ops with
  | nil => exact fun s => ⟨([], s), rfl⟩
  | cons op ops ih =>
    intro s
    obtain ⟨⟨o, t⟩, hstep⟩ : ∃ r, (cacheMachine fresh).step s op = some r := by
      cases op <;> exact ⟨_, rfl⟩
    obtain ⟨⟨os, s'⟩, hrun⟩ := ih t
    exact ⟨_, Machine.run_cons_of_step hstep hrun⟩

/-- **The buffer cache is transparent.**  From an empty cache, any sequence of accesses inside the
disk delivers the bytes that the plain array of sectors delivers, and the flush at shutdown then
leaves exactly that array on the disk. -/
theorem cacheMachine_transparent (fresh : Nat → Sector) (capacity : Nat) (d : Disk)
    (ops : List CacheOp) (hok : ∀ op ∈ ops, op.Ok capacity) :
    ∃ outs s ref, (cacheMachine fresh).run (CacheState.cacheInit d) ops = some (outs, s) ∧
      refMachine.run d ops = some (outs, ref) ∧ s.destroyCacheList.disk = ref := by
  obtain ⟨⟨outs, s⟩, hrun⟩ := cacheMachine_run_isSome fresh ops (CacheState.cacheInit d)
  obtain ⟨ref, href, hsim⟩ := (cacheMachine_simulates fresh capacity).run
    (CacheState.sim_cacheInit d) (Machine.Along.of_forall (fun op hop _ => hok op hop) _) hrun
  exact ⟨outs, s, ref, hrun, href, CacheState.destroyCacheList_sim hsim⟩

/-- A partial write, its write-behind and a read across it, on a disk of 8 sectors. -/
theorem cacheMachine_transparent_partialWrite :
    (∀ op ∈ [CacheOp.cacheWrite 3 1 [7], .writeBehindAll, .findCache 2, .cacheRead 3 0 2],
        op.Ok 8) ∧
      ∃ outs s ref, (cacheMachine fun _ => Block.fill 512 0xcc).run
          (CacheState.cacheInit fun _ => Block.fill 512 0)
          [.cacheWrite 3 1 [7], .writeBehindAll, .findCache 2, .cacheRead 3 0 2] = some (outs, s) ∧
        refMachine.run (fun _ => Block.fill 512 0)
          [.cacheWrite 3 1 [7], .writeBehindAll, .findCache 2, .cacheRead 3 0 2]
            = some (outs, ref) ∧
        s.destroyCacheList.disk = ref :=
  ⟨by decide, cacheMachine_transparent _ 8 _ _ (by decide)⟩

end Pintos
