import Pintos.Filesys.OpenInodes

/-!
# Removing a file

When the last reference to an inode that was removed is closed, `inode_close` gives its sectors
back to the free map, level by level of the index, from the doubly indirect block down.  It has
counters of its own for that, and none of the three levels comes out right.

* The loop over the doubly indirect block takes off the remainder of `double_cnt` by 128, and so
  makes no progress at a multiple of 128.  `doublyRounds` is the loop without what it does to the
  disk, and `exec_releaseDoubly` says that the two run alike.  `doublyRounds_eq_some` is when it
  ends.
* In a round it takes the sectors to release out of the doubly indirect block itself, at an offset
  that counts entries as bytes, and not out of the block that the entry points to.
  `doubly_release_iff` puts the two together.
* The direct sectors are read from the sector whose number is the *address* of the array that holds
  them.  No disk is that large: `removal_releases_iff` says that `inode_close` never gets past it.
-/

namespace Pintos

open Bytes Prog OpenFs
open Bytes.Block (fill word)

/-! ## The loop over the doubly indirect block -/

/-- The rounds of the loop from `double_cnt` on, each with its `double_indirect_off` and its
`double_off`, if there are fewer than `fuel`. -/
def doublyRounds : (fuel doubleCnt : Nat) → Option (List (Nat × Nat))
  | 0, _ => none
  | fuel + 1, doubleCnt =>
    if doubleCnt = 0 then some []
    else (doublyRounds fuel (doubleCnt - doubleCnt % indirectCnt)).map
      ((doubleCnt / indirectCnt, doubleCnt % indirectCnt) :: ·)

/-- `double_element` in a round. -/
def doubleElement (bs : List UInt8) : Sector := (fill 512 0).write 0 bs

/-- What a round does. -/
def releaseRound (env : FsEnv) (diskInode : Sector) (round : Nat × Nat) : FsProg Unit := do
  let bs ← cacheRead (InodeDisk.doublyIndirect diskInode) round.1 512
  (List.range round.2).forM fun j => releaseOne env (word (doubleElement bs) j)

/-- **The loop of `inode_close` runs through the rounds**, and does not end if they do not. -/
theorem exec_releaseDoubly (n : Nat) (env : FsEnv) (diskInode : Sector) (fuel : Nat) :
    ∀ (doubleCnt : Nat) (w : FsWorld), (releaseDoubly env diskInode fuel doubleCnt).exec n w
      = (doublyRounds fuel doubleCnt).bind fun rounds =>
          (rounds.forM (releaseRound env diskInode)).exec n w := by
  induction fuel with
  | zero => exact fun _ _ => rfl
  | succ fuel ih =>
    intro doubleCnt w
    rw [releaseDoubly, doublyRounds]
    split
    · rfl
    · have hround : (do
          let bs ← cacheRead (InodeDisk.doublyIndirect diskInode) (doubleCnt / indirectCnt) 512
          let doubleElement := (fill 512 0).write 0 bs
          (List.range (doubleCnt % indirectCnt)).forM fun j =>
            releaseOne env (word doubleElement j)
          releaseDoubly env diskInode fuel (doubleCnt - doubleCnt % indirectCnt) :
            FsProg Unit).exec n w
          = ((releaseRound env diskInode (doubleCnt / indirectCnt, doubleCnt % indirectCnt)).exec n
              w).bind fun r => (releaseDoubly env diskInode fuel
                (doubleCnt - doubleCnt % indirectCnt)).exec n r.2 := by
        rw [releaseRound, exec_bind, exec_bind, Option.bind_assoc]
        refine congrArg _ (funext fun r => ?_)
        rw [exec_bind]
        rfl
      rw [hround]
      rcases hrest : doublyRounds fuel (doubleCnt - doubleCnt % indirectCnt) with _ | rounds
      · simp only [ih, hrest, Option.bind_none, Option.map_none, Option.bind_fun_none]
      · simp only [ih, hrest]
        exact (exec_bind (releaseRound env diskInode
          (doubleCnt / indirectCnt, doubleCnt % indirectCnt)) fun _ => _).symm

variable {doubleCnt : Nat} {env : FsEnv} {n : Nat}

theorem doublyRounds_stuck (hpos : 0 < doubleCnt) (hmod : doubleCnt % indirectCnt = 0)
    (fuel : Nat) : doublyRounds fuel doubleCnt = none := by
  induction fuel with
  | zero => rfl
  | succ fuel ih =>
    rw [doublyRounds, if_neg hpos.ne', hmod, Nat.sub_zero, ih]
    rfl

/-- **It ends below 128 only**, after one round. -/
theorem doublyRounds_eq_some {fuel : Nat} (hpos : 0 < doubleCnt) {rounds : List (Nat × Nat)}
    (h : doublyRounds fuel doubleCnt = some rounds) :
    doubleCnt < indirectCnt ∧ rounds = [(0, doubleCnt)] := by
  cases fuel with
  | zero => cases h
  | succ fuel =>
    rw [doublyRounds, if_neg hpos.ne', Option.map_eq_some_iff] at h
    obtain ⟨rest, hrest, rfl⟩ := h
    have hlt : doubleCnt < indirectCnt := by
      by_contra hge
      rw [doublyRounds_stuck] at hrest
      · cases hrest
      · rw [indirectCnt] at hge ⊢
        omega
      · rw [indirectCnt]
        omega
    refine ⟨hlt, ?_⟩
    rw [Nat.mod_eq_of_lt hlt, Nat.sub_self] at hrest
    rw [Nat.mod_eq_of_lt hlt, Nat.div_eq_of_lt hlt]
    cases fuel with
    | zero => cases hrest
    | succ fuel =>
      rw [doublyRounds, if_pos rfl, Option.some_inj] at hrest
      rw [← hrest]

theorem doublyRounds_of_lt (hpos : 0 < doubleCnt) (hlt : doubleCnt < indirectCnt) :
    doublyRounds 2 doubleCnt = some [(0, doubleCnt)] := by
  rw [doublyRounds, if_neg hpos.ne', Nat.mod_eq_of_lt hlt, Nat.div_eq_of_lt hlt, Nat.sub_self]
  rfl

/-- As far as its counters say, the loop for a file of `sectorCnt` blocks ends, and takes the blocks
of the doubly indirect level once each: a round takes `double_off` elements of the table with number
`double_indirect_off`. -/
def EndsCounting (sectorCnt : Nat) : Prop :=
  ∃ fuel rounds, doublyRounds fuel (sectorCnt - directCnt - indirectCnt) = some rounds ∧
    (rounds.flatMap fun r => (List.range r.2).map (indirectCnt * r.1 + ·)).Perm
      (List.range (sectorCnt - directCnt - indirectCnt))

/-- The sectors that the rounds release. -/
def roundSectors (table : Sector) (rounds : List (Nat × Nat)) : List Nat :=
  rounds.flatMap fun r =>
    (List.range r.2).map fun j => word (doubleElement (table.read r.1 512)) j

/-- The loop for the file in sector `i` ends, and releases the sector of each block of the doubly
indirect level once. -/
def EndsReleasing (d : Disk) (i : Nat) : Prop :=
  ∃ fuel rounds, doublyRounds fuel (blocks (d i) - directCnt - indirectCnt) = some rounds ∧
    ∀ k, directCnt + indirectCnt ≤ k → k < blocks (d i) →
      (roundSectors (d (InodeDisk.doublyIndirect (d i))) rounds).count
        ((Use.data k).ptr d i (d i)) = 1

theorem endsCounting_iff {sectorCnt : Nat} (hbig : directCnt + indirectCnt < sectorCnt) :
    EndsCounting sectorCnt ↔ sectorCnt < 320 := by
  have hlevels : directCnt + indirectCnt = 192 ∧ indirectCnt = 128 := ⟨rfl, rfl⟩
  have hpos : 0 < sectorCnt - directCnt - indirectCnt := by omega
  constructor
  · rintro ⟨fuel, rounds, hrounds, -⟩
    have hlt := (doublyRounds_eq_some hpos hrounds).1
    omega
  · intro hlt
    refine ⟨2, _, doublyRounds_of_lt hpos (by omega), ?_⟩
    rw [List.flatMap_singleton, Nat.mul_zero]
    simp only [Nat.zero_add, List.map_id', List.Perm.refl]

/-- **The loop never releases the blocks.**  It releases as many sectors as there are blocks, and
the first is a block of the index. -/
theorem not_endsReleasing {n i : Nat} {inodes : List Nat} {w : FsWorld} (h : FsOk n inodes w)
    (hi : i ∈ inodes) (hbig : directCnt + indirectCnt < blocks (w.disk i)) :
    ¬ EndsReleasing w.disk i := by
  have hlevels : directCnt + indirectCnt = 192 ∧ indirectCnt = 128 := ⟨rfl, rfl⟩
  rintro ⟨fuel, rounds, hrounds, hvisit⟩
  obtain ⟨hlt, rfl⟩ := doublyRounds_eq_some (by omega) hrounds
  obtain ⟨c, hc⟩ : ∃ c, blocks (w.disk i) - directCnt - indirectCnt = c + 1 :=
    Nat.exists_eq_succ_of_ne_zero (by omega)
  have hvisited : roundSectors (w.disk (InodeDisk.doublyIndirect (w.disk i)))
      [(0, blocks (w.disk i) - directCnt - indirectCnt)]
        = (Use.second 0).ptr w.disk i (w.disk i) :: (List.range c).map fun j =>
            (w.disk (InodeDisk.doublyIndirect (w.disk i))).word (j + 1) := by
    rw [roundSectors, List.flatMap_singleton, doubleElement, Block.write_read_full, hc,
      List.range_succ_eq_map, List.map_cons, List.map_map]
    rfl
  have hlive : ∀ k ≤ c, OnDisk inodes w.disk i (.data (192 + k)) := fun k hk =>
    ⟨hi, show 192 + k < _ by omega⟩
  -- the sectors of the blocks are distinct, and all among those after the first
  have hnodup : ((List.range (c + 1)).map fun k =>
      (Use.data (192 + k)).ptr w.disk i (w.disk i)).Nodup := by
    refine List.Nodup.map_on (fun k hk j hj heq => ?_) List.nodup_range
    rw [List.mem_range] at hk hj
    have hsum := Use.data.inj (h.layout.inj i i _ _ (hlive k (by omega)) (hlive j (by omega)) heq).2
    omega
  have hsub : ((List.range (c + 1)).map fun k => (Use.data (192 + k)).ptr w.disk i (w.disk i)) ⊆
      (List.range c).map fun j => (w.disk (InodeDisk.doublyIndirect (w.disk i))).word (j + 1) := by
    intro x hx
    obtain ⟨k, hk, rfl⟩ := List.mem_map.mp hx
    rw [List.mem_range] at hk
    have hcount := hvisit (192 + k) (by omega) (by omega)
    have hmem := List.count_pos_iff.mp (hcount.symm ▸ Nat.one_pos)
    rw [hvisited, List.mem_cons] at hmem
    refine hmem.resolve_left fun heq => ?_
    have hsecond : OnDisk inodes w.disk i (.second 0) := ⟨hi, show 192 + 128 * 0 < _ by omega⟩
    cases (h.layout.inj i i _ _ (hlive k (by omega)) hsecond heq).2
  have hle := (List.subperm_of_subset hnodup hsub).length_le
  rw [List.length_map, List.length_range, List.length_map, List.length_range] at hle
  omega

/-- **Releasing the doubly indirect blocks.**  As far as the counters of the loop say, it ends after
each block once if and only if the file has fewer than 320 blocks; and the sectors that it releases
are those of the blocks for no file. -/
theorem doubly_release_iff (n : Nat) (inodes : List Nat) (w : FsWorld) (h : FsOk n inodes w)
    (i : Nat) (hi : i ∈ inodes) (hbig : directCnt + indirectCnt < blocks (w.disk i)) :
    (EndsCounting (blocks (w.disk i)) ↔ blocks (w.disk i) < 320) ∧
      (EndsReleasing w.disk i ↔ False) :=
  ⟨endsCounting_iff hbig, iff_false_intro (not_endsReleasing h hi hbig)⟩

theorem doubly_release_iff_first :
    ∃ inodes w i, FsOk 256 inodes w ∧ i ∈ inodes ∧ blocks (w.disk i) = 193 ∧
      (EndsCounting (blocks (w.disk i)) ↔ blocks (w.disk i) < 320) ∧
      (EndsReleasing w.disk i ↔ False) := by
  obtain ⟨w, -, hok, -, hfree⟩ := exec_filesysInit ⟨0, fill 512 0, 0⟩ 0 (n := 256)
    (by decide) (by decide) fun _ => fill 512 0
  rw [show sectorNeed (mapBlocks 256) 0 = 1 from rfl] at hfree
  have hnew : newSectors 0 (98816 : Nat) = 193 := newSectors_zero 98816 (by decide)
  have hneed : sectorNeed 193 0 = 196 := by decide +kernel
  obtain ⟨s, w1, -, hcreate⟩ := hok.exec_allocateCreate ⟨0, fill 512 0, 0⟩ 0 (by omega)
  have hfits : GrowFits (newSectors 0 (98816 : Nat)) 0 (w.mem.freeMap.freeCnt - 1) := by
    rw [hnew, show w.mem.freeMap.freeCnt - 1 = 251 by omega]
    decide +kernel
  obtain ⟨r, w', -, hok', -, hres⟩ :=
    hcreate rootDirSector (98816 : Nat) false (by decide) (by decide) hfits
  rw [hnew] at hres
  obtain ⟨-, hlen, -⟩ := hres.resolve_left (by omega)
  have hblocks : blocks (w'.disk s) = 193 := by
    rw [blocks, hlen]
    rfl
  refine ⟨_, w', s, hok', .head _, hblocks, doubly_release_iff 256 _ w' hok' s
    List.mem_cons_self ?_⟩
  rw [hblocks]
  decide

/-- **The loop does not end** for a file of 320 blocks, whatever is on the disk. -/
theorem doubly_release_stuck :
    (∀ n env diskInode fuel w, (releaseDoubly env diskInode fuel
        (320 - directCnt - indirectCnt)).exec n w = none) ∧
      ¬ EndsCounting 320 := by
  have hstuck : ∀ fuel, doublyRounds fuel (320 - directCnt - indirectCnt) = none :=
    doublyRounds_stuck (by decide) (by decide)
  refine ⟨fun n env diskInode fuel w => ?_, fun hends => ?_⟩
  · rw [exec_releaseDoubly, hstuck]
    rfl
  · exact absurd ((endsCounting_iff (by decide)).mp hends) (by decide)

/-! ## The last close -/

/-- `inode_remove`. -/
def inodeRemove (a : Nat) : OpenM Unit := do
  let inode ← getInode a
  setInode a { inode with removed := true }

/-- `inode_close` returns, and has cleared in the free map the bits of the inode's own sector and of
all sectors of its file, and no others. -/
def ReleasesExactly (n : Nat) (env : FsEnv) (st : OpenFs) (a : Nat) : Prop :=
  ∃ st', inodeClose n env (some a) st = some ((), st') ∧
    ∀ x, st'.world.mem.freeMap.bits x = true ↔ st.world.mem.freeMap.bits x = true ∧
      ∀ v : Use, v.Live (blocks (st.world.disk (st.inode a).sector)) →
        v.ptr st.world.disk (st.inode a).sector (st.world.disk (st.inode a).sector) ≠ x

theorem exec_releaseBlocks (hoff : n ≤ env.copyAt + 20) (sector : Nat)
    (diskInode : Sector) (w : FsWorld) : (releaseBlocks env sector diskInode).exec n w = none := by
  rw [releaseBlocks, exec_bind]
  rcases (releaseIndirect env diskInode (bytesToSectors (InodeDisk.length diskInode))).exec n w with
    _ | r
  · rfl
  · rw [Option.bind_some, exec_bind, readSector, exec_bind, cacheRead, Prog.exec,
      if_neg fun hc => Nat.not_lt.mpr hoff hc.1]
    rfl

/-- **The last close of an inode that was removed never returns.** -/
theorem inodeClose_removed (hoff : n ≤ env.copyAt + 20) {st : OpenFs}
    {a : Nat} (hlast : (st.inode a).openCnt = 1) (hremoved : (st.inode a).removed = true) :
    inodeClose n env (some a) st = none := by
  refine Option.eq_none_iff_forall_ne_some.mpr ?_
  rintro ⟨⟨⟩, st'⟩ hclose
  obtain ⟨inode, st1, hget, hclose⟩ := bind_eq_some.mp hclose
  obtain ⟨-, rfl, rfl⟩ := getInode_eq_some hget
  obtain ⟨diskInode, st2, -, hclose⟩ := bind_eq_some.mp hclose
  obtain ⟨⟨⟩, st3, -, hclose⟩ := bind_eq_some.mp hclose
  rw [hlast] at hclose
  obtain ⟨⟨⟩, st4, -, hclose⟩ := bind_eq_some.mp hclose
  rw [if_pos hremoved, OpenFs.run, exec_releaseBlocks hoff] at hclose
  cases hclose

/-- The state with nothing open, as at the start of a boot. -/
def nothingOpen (w : FsWorld) : OpenFs :=
  ⟨w, fun _ => ⟨0, 0, 0, false⟩, [], fun _ => none, 0, fun _ => true⟩

theorem exists_removed :
    ∃ w0 w s st, (filesysInit ⟨0, fill 512 0, 0⟩ 1).exec 8
        ⟨freeMapInit 8, fun _ => fill 512 0⟩ = some ((), w0) ∧
      (createInode ⟨0, fill 512 0, 0⟩ 1 rootDirSector 0 false).exec 8 w0
        = some ((some s, true), w) ∧
      (do let _ ← OpenFs.inodeOpen s; inodeRemove 0 : OpenM Unit) (nothingOpen w) = some ((), st) ∧
      (st.inode 0).openCnt = 1 ∧ (st.inode 0).removed = true := by
  obtain ⟨w0, w1, w, s, hinit, halloc, hexec, -⟩ := exists_emptyInode false
  refine ⟨w0, w, s, _, hinit, ?_, rfl, rfl, rfl⟩
  rw [createInode, exec_bind_of_eq halloc]
  exact (exec_bind_of_eq hexec).trans (exec_pure _)

/-- **Deleting a file.**  With the kernel's memory above `PHYS_BASE`, and a disk that its controller
can address, the last close of a removed inode gives back its sectors for no inode. -/
theorem removal_releases_iff {n : Nat} {env : FsEnv} (hdisk : n ≤ 2 ^ 28)
    (hkernel : 0xc0000000 ≤ env.copyAt) {st : OpenFs} {a : Nat}
    (hlast : (st.inode a).openCnt = 1) (hremoved : (st.inode a).removed = true) :
    ReleasesExactly n env st a ↔ False := by
  refine iff_false_intro ?_
  rintro ⟨st', hclose, -⟩
  rw [inodeClose_removed (by omega) hlast hremoved] at hclose
  cases hclose

theorem removal_releases_iff_empty :
    ∃ st : OpenFs, (st.inode 0).openCnt = 1 ∧ (st.inode 0).removed = true ∧
      (ReleasesExactly 8 ⟨0, ⟨0, fill 512 0, 0⟩, [], 0xc0100000⟩ st 0 ↔ False) := by
  obtain ⟨w0, w, s, st, -, -, -, hlast, hremoved⟩ := exists_removed
  exact ⟨st, hlast, hremoved, removal_releases_iff (by decide) (by decide) hlast hremoved⟩

/-- **An empty file cannot be deleted.**  It was created in an earlier boot: `inode_create` never
closes the inode that it opens. -/
theorem delete_empty_file :
    ∃ w₀ w s st, (filesysInit ⟨0, fill 512 0, 0⟩ 1).exec 8
        ⟨freeMapInit 8, fun _ => fill 512 0⟩ = some ((), w₀) ∧
      (createInode ⟨0, fill 512 0, 0⟩ 1 rootDirSector 0 false).exec 8 w₀
        = some ((some s, true), w) ∧
      (do let _ ← OpenFs.inodeOpen s; inodeRemove 0 : OpenM Unit) (nothingOpen w) = some ((), st) ∧
      inodeClose 8 ⟨0, ⟨0, fill 512 0, 0⟩, [], 0xc0100000⟩ (some 0) st = none ∧
      ¬ ReleasesExactly 8 ⟨0, ⟨0, fill 512 0, 0⟩, [], 0xc0100000⟩ st 0 := by
  obtain ⟨w₀, w, s, st, hinit, hcreate, hopen, hlast, hremoved⟩ := exists_removed
  have hclose : inodeClose 8 ⟨0, ⟨0, fill 512 0, 0⟩, [], 0xc0100000⟩ (some 0) st = none :=
    inodeClose_removed (by decide) hlast hremoved
  refine ⟨w₀, w, s, st, hinit, hcreate, hopen, hclose, ?_⟩
  rintro ⟨st', hsome, -⟩
  rw [hclose] at hsome
  cases hsome

end Pintos
