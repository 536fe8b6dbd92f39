import Pintos.Filesys.Cache

/-!
# The order of the cache, and the entries it loses

`cache_list` is kept in order of last use.  This file says so exactly, and then looks at the two
places that rely on more than the order gives.

* `cache_holds_most_recent`: after any accesses, the list read from back to front is that of the
  sectors accessed, the last one first, cut to 64, and what a miss evicts was accessed longest ago.
* `inode_read_at` and `inode_write_at` access a sector and then look it up again, without the lock
  of the cache in between.  `CacheUsers` has the threads that are between the two, and
  `lookup_finds` says that they find the sector as long as no eviction takes it from them.
* `inode_close` would free the entry of a removed inode and leave it in the list, but before that it
  reads a sector into an array that is half as long.  `CacheEntries` has the entries by their
  addresses, and `linked_entries_live` says that no call leaves a freed entry in the list.
-/

namespace Pintos

/-! ## Recency -/

namespace Recency

variable {α : Type} [DecidableEq α]

theorem dedup_concat (l : List α) (a : α) : (l ++ [a]).dedup = l.dedup.erase a ++ [a] := by
  induction l with
  | nil => simp
  | cons b l ih =>
    rw [List.cons_append]
    by_cases hb : b ∈ l
    · rw [List.dedup_cons_of_mem (List.mem_append_left _ hb), List.dedup_cons_of_mem hb, ih]
    · rw [List.dedup_cons_of_notMem hb]
      by_cases heq : b = a
      · subst heq
        rw [List.dedup_cons_of_mem (by simp), ih, List.erase_cons_head,
          List.erase_of_not_mem (by simpa using hb)]
      · rw [List.dedup_cons_of_notMem (by simp [hb, heq]), ih,
          List.erase_cons_tail (by simpa using heq), List.cons_append]

theorem reverse_erase_of_nodup {l : List α} (h : l.Nodup) (a : α) :
    (l.erase a).reverse = l.reverse.erase a := by
  rw [h.erase_eq_filter, (List.nodup_reverse.mpr h).erase_eq_filter, List.filter_reverse]

theorem take_erase_take (l : List α) (a : α) (n : Nat) :
    ((l.take (n + 1)).erase a).take n = (l.erase a).take n := by
  induction l generalizing n with
  | nil => simp
  | cons b l ih =>
    by_cases hb : b = a
    · simp [hb]
    · cases n with
      | zero => simp
      | succ n => simp [hb, ih]

/-- How many accesses ago the last access to `a` was. -/
def age (l : List α) (a : α) : Nat := l.reverse.idxOf a

theorem pairwise_dedup (l : List α) : l.dedup.Pairwise fun a b => age l b < age l a := by
  induction l using List.reverseRecOn with
  | nil => simp
  | append_singleton l a ih =>
    have hne : ∀ b ∈ l.dedup.erase a, b ≠ a := fun b hb =>
      ((List.nodup_dedup l).mem_erase_iff.mp hb).1
    have hage : ∀ b, b ≠ a → age (l ++ [a]) b = age l b + 1 := fun b hb => by
      simp [age, List.idxOf_cons_ne _ (Ne.symm hb)]
    rw [dedup_concat, List.pairwise_append]
    refine ⟨?_, List.pairwise_singleton .., fun b hb c hc => ?_⟩
    · refine (ih.sublist List.erase_sublist).imp_of_mem fun {b c} hb hc hlt => ?_
      rw [hage b (hne b hb), hage c (hne c hc)]
      omega
    · rw [List.mem_singleton.mp hc, hage b (hne b hb)]
      simp [age]

end Recency

/-! ## The order of the list -/

/-- An access to the cache. -/
inductive CacheAccess
  /-- `cache_read`. -/
  | read (secNo ofs size : Nat)
  /-- `cache_write`. -/
  | write (secNo ofs : Nat) (data : List UInt8)

/-- The sector that is accessed. -/
def CacheAccess.secNo : CacheAccess → Nat
  | .read secNo _ _ | .write secNo _ _ => secNo

namespace CacheState

variable {s : CacheState} {secNo : Nat}

/-- What an access leaves. -/
def access (fresh : Nat → Sector) (s : CacheState) : CacheAccess → CacheState
  | .read secNo ofs size => (s.cacheRead fresh secNo ofs size).2
  | .write secNo ofs data => s.cacheWrite fresh secNo ofs data

/-- The sectors that are cached, from the front of the list to its back. -/
def sectors (s : CacheState) : List Nat := s.cacheList.map Cache.sectorIdx

theorem map_extract {l cs : List Cache} {c : Cache} (h : extract secNo l = some (c, cs)) :
    cs.map Cache.sectorIdx = (l.map Cache.sectorIdx).erase secNo := by
  induction l generalizing cs with
  | nil => cases h
  | cons e es ih =>
    rw [extract] at h
    split at h
    next he =>
      cases h
      rw [List.map_cons, he, List.erase_cons_head]
    next he =>
      obtain ⟨⟨c', cs'⟩, hr, heq⟩ := Option.map_eq_some_iff.mp h
      cases heq
      rw [List.map_cons, List.map_cons, ih hr, List.erase_cons_tail (by simpa using he)]

/-- The sectors in front of the one that is accessed. -/
def others (s : CacheState) (secNo : Nat) : List Nat :=
  if secNo ∈ s.sectors then s.sectors.erase secNo
  else if cacheMaxSectorNo ≤ s.sectors.length then s.sectors.tail else s.sectors

theorem sectors_makeRoom (s : CacheState) : s.makeRoom.sectors =
    if cacheMaxSectorNo ≤ s.sectors.length then s.sectors.tail else s.sectors := by
  rw [makeRoom, sectors, sectors, List.length_map]
  split
  · rw [evictCache]
    split <;> simp_all
  · rfl

theorem findCache_cases (s : CacheState) (secNo : Nat) :
    (∃ c cs, s.findCache secNo = some (c, { s with cacheList := cs ++ [c] }) ∧
      c.sectorIdx = secNo ∧ secNo ∈ s.sectors ∧ cs.map Cache.sectorIdx = s.others secNo) ∨
    (s.findCache secNo = none ∧ secNo ∉ s.sectors ∧ s.makeRoom.sectors = s.others secNo) := by
  rcases hx : extract secNo s.cacheList with _ | ⟨c, cs⟩
  · have hnot : secNo ∉ s.sectors := extract_eq_none hx
    refine .inr ⟨by rw [findCache, hx]; rfl, hnot, ?_⟩
    rw [others, if_neg hnot, sectors_makeRoom]
  · obtain ⟨hsec, hperm⟩ := extract_eq_some hx
    have hmem : secNo ∈ s.sectors := hsec ▸ List.mem_map_of_mem (hperm.mem_iff.mp (by simp))
    refine .inl ⟨c, cs, by rw [findCache, hx]; rfl, hsec, hmem, ?_⟩
    rw [others, if_pos hmem, map_extract hx, sectors]

theorem sectors_findCache (s : CacheState) (secNo : Nat) :
    ((s.findCache secNo).elim s Prod.snd).sectors =
      if secNo ∈ s.sectors then s.others secNo ++ [secNo] else s.sectors := by
  rcases s.findCache_cases secNo with ⟨c, cs, hf, hsec, hmem, hcs⟩ | ⟨hf, hnot, -⟩
  · rw [if_pos hmem, hf]
    simp [sectors, hsec, hcs]
  · rw [if_neg hnot, hf, Option.elim_none]

/-- **An access** moves its sector to the back. -/
theorem sectors_access (fresh : Nat → Sector) (s : CacheState) (a : CacheAccess) :
    (s.access fresh a).sectors = s.others a.secNo ++ [a.secNo] := by
  cases a with
  | read secNo ofs size =>
    rcases s.findCache_cases secNo with ⟨c, cs, hf, hsec, -, hcs⟩ | ⟨hf, -, hcs⟩
    · simp [access, cacheRead, hf, sectors, hsec, hcs, CacheAccess.secNo]
    · rw [sectors] at hcs
      simp [access, cacheRead, hf, sectors, makeCache, hcs, CacheAccess.secNo]
  | write secNo ofs data =>
    rcases s.findCache_cases secNo with ⟨c, cs, hf, hsec, -, hcs⟩ | ⟨hf, -, hcs⟩
    · simp [access, cacheWrite, hf, sectors, hsec, hcs, CacheAccess.secNo]
    · rw [sectors] at hcs
      simp only [access, cacheWrite, hf, CacheAccess.secNo]
      split <;> simp [sectors, makeCache, hcs]

/-- The sectors that are cached, the last one used first. -/
def recent (s : CacheState) : List Nat := s.sectors.reverse

theorem recent_access (fresh : Nat → Sector) (hnodup : s.recent.Nodup)
    (hlength : s.recent.length ≤ cacheMaxSectorNo) (a : CacheAccess) :
    (s.access fresh a).recent = (a.secNo :: s.recent.erase a.secNo).take cacheMaxSectorNo := by
  have hnodup' : s.sectors.Nodup := List.nodup_reverse.mp hnodup
  rw [recent, sectors_access, List.reverse_append, List.reverse_singleton, List.singleton_append,
    cacheMaxSectorNo]
  rw [recent, List.length_reverse, cacheMaxSectorNo] at hlength
  congr 1
  rw [others]
  split
  next hmem =>
    rw [Recency.reverse_erase_of_nodup hnodup', recent, List.take_of_length_le]
    rw [List.length_erase_of_mem (List.mem_reverse.mpr hmem), List.length_reverse]
    omega
  next hnot =>
    rw [recent, List.erase_of_not_mem (mt List.mem_reverse.mp hnot), cacheMaxSectorNo]
    split
    next hfull =>
      rw [← List.dropLast_reverse, List.dropLast_eq_take, List.length_reverse]
      congr 1
      omega
    next => rw [List.take_of_length_le (by rw [List.length_reverse]; omega)]

theorem recent_accesses (fresh : Nat → Sector) (d : Disk) (accesses : List CacheAccess) :
    (accesses.foldl (access fresh) (cacheInit d)).recent =
      (accesses.map CacheAccess.secNo).dedup.reverse.take cacheMaxSectorNo := by
  induction accesses using List.reverseRecOn with
  | nil => rfl
  | append_singleton accesses a ih =>
    have hnodup := (List.nodup_reverse.mpr (List.nodup_dedup (accesses.map CacheAccess.secNo)))
    rw [List.foldl_append, List.foldl_cons, List.foldl_nil, recent_access fresh
      (ih ▸ hnodup.sublist (List.take_sublist ..)) (ih ▸ List.length_take_le ..), ih,
      List.map_append, List.map_singleton, Recency.dedup_concat, List.reverse_append,
      Recency.reverse_erase_of_nodup (List.nodup_dedup _), cacheMaxSectorNo, List.take_succ_cons]
    exact congrArg _ (Recency.take_erase_take ..)

end CacheState

/-- **The cache holds the most recently used sectors.**  After any sequence of accesses to an empty
cache, `cache_list` from back to front is the list of the sectors accessed, each once, in order of
last access from the newest on, cut to 64 entries.  If the next access misses in a full list, the
entry at the front goes, and its sector has been accessed longer ago than any other in the list. -/
theorem cache_holds_most_recent (fresh : Nat → Sector) (d : Disk) (accesses : List CacheAccess) :
    let s := accesses.foldl (CacheState.access fresh) (.cacheInit d)
    let used := accesses.map CacheAccess.secNo
    s.recent = used.dedup.reverse.take 64 ∧ s.recent.Nodup ∧ s.cacheList.length ≤ 64 ∧
      ∀ a : CacheAccess, a.secNo ∉ s.sectors → s.cacheList.length = 64 →
        ∃ oldest rest, s.sectors = oldest :: rest ∧ (s.access fresh a).sectors = rest ++ [a.secNo] ∧
          ∀ sec ∈ rest, Recency.age used sec < Recency.age used oldest := by
  intro s used
  have hrecent : s.recent = used.dedup.reverse.take 64 := CacheState.recent_accesses ..
  have hnodup : s.recent.Nodup := hrecent ▸
    (List.nodup_reverse.mpr (List.nodup_dedup used)).sublist (List.take_sublist ..)
  have hlength : s.recent.length = s.cacheList.length := by
    simp [CacheState.recent, CacheState.sectors]
  refine ⟨hrecent, hnodup, hlength ▸ hrecent ▸ List.length_take_le .., fun a hmiss hfull => ?_⟩
  obtain ⟨oldest, rest, hcons⟩ : ∃ oldest rest, s.sectors = oldest :: rest :=
    List.exists_cons_of_length_eq_add_one (by simpa [CacheState.sectors] using hfull)
  refine ⟨oldest, rest, hcons, ?_, ?_⟩
  · rw [CacheState.sectors_access, CacheState.others, if_neg hmiss, if_pos, hcons, List.tail_cons]
    simp [CacheState.sectors, hfull, cacheMaxSectorNo]
  · -- what is cached is an end of the list of the sectors used, which goes from old to new
    have hpairs : s.recent.Pairwise fun a b => Recency.age used a < Recency.age used b := hrecent ▸
      (List.pairwise_reverse.mpr (Recency.pairwise_dedup used)).sublist (List.take_sublist ..)
    rw [CacheState.recent, List.pairwise_reverse, hcons, List.pairwise_cons] at hpairs
    exact hpairs.1

/-! ## Looking up what has just been accessed -/

/-- What `read_ahead_manager` does with the lock of the cache: it reads a sector into a new entry,
also if the sector has got one since it was looked up. -/
def CacheState.readAhead (fresh : Nat → Sector) (s : CacheState) (raSec : Nat) : CacheState :=
  let r := makeCache fresh s raSec false
  r.2.setBack { r.1 with buffer := r.2.disk raSec, openCnt := 1 }

/-- The cache, and the threads that are in `inode_read_at` or `inode_write_at` between the access to
a sector and its `find_cache`, each with the sector. -/
structure CacheUsers where
  cache : CacheState
  pending : List (Nat × Nat)

/-- A step of a thread. -/
inductive CacheUse
  /-- An access to an inode or an index block. -/
  | access (a : CacheAccess)
  /-- `find_cache` in `cache_read_ahead` or in `read_ahead_manager`, which may find nothing. -/
  | lookAhead (secNo : Nat)
  /-- The rest of `read_ahead_manager`. -/
  | readAhead (raSec : Nat)
  /-- The access to a block of the file. -/
  | use (t : Nat) (a : CacheAccess)
  /-- The `find_cache` after it, with `open_cnt--`. -/
  | find (t : Nat)

/-- The threads, one step at a time.  A `find_cache` that returns null fails an assertion or is
followed, so there is no step. -/
def cacheUsers (fresh : Nat → Sector) : Machine CacheUsers CacheUse Unit where
  step st
    | .access a => some ((), { st with cache := st.cache.access fresh a })
    | .lookAhead secNo =>
      some ((), { st with cache := (st.cache.findCache secNo).elim st.cache Prod.snd })
    | .readAhead raSec => some ((), { st with cache := st.cache.readAhead fresh raSec })
    | .use t a =>
      if st.pending.lookup t = none then
        some ((), ⟨st.cache.access fresh a, (t, a.secNo) :: st.pending⟩)
      else none
    | .find t =>
      (st.pending.lookup t).bind fun secNo => (st.cache.findCache secNo).map fun (c, cache) =>
        ((), ⟨cache.setBack { c with openCnt := c.openCnt - 1 }, st.pending.filter (·.1 ≠ t)⟩)

namespace CacheUsers

variable {fresh : Nat → Sector} {st st' : CacheUsers} {u : CacheUse}

/-- No thread is between an access and its lookup. -/
def Idle (st : CacheUsers) : Prop := st.pending = []

/-- No thread is still to look up the sector at the front of a full cache. -/
def FrontDone (st : CacheUsers) : Prop :=
  64 ≤ st.cache.cacheList.length → ∀ p ∈ st.pending, some p.2 ≠ st.cache.sectors.head?

instance (st : CacheUsers) : Decidable st.FrontDone := inferInstanceAs (Decidable (_ → _))

/-- **The condition on a step.**  If it brings a sector into a full cache, no thread is still to
look up the one at the front.  The read-ahead thread does so with a sector that is cached, too. -/
def Spares (st : CacheUsers) : CacheUse → Prop
  | .access a | .use _ a => a.secNo ∉ st.cache.sectors → st.FrontDone
  | .readAhead _ => st.FrontDone
  | _ => True

instance (st : CacheUsers) : (u : CacheUse) → Decidable (st.Spares u)
  | .access _ | .use .. => inferInstanceAs (Decidable (_ → _))
  | .readAhead _ => inferInstanceAs (Decidable st.FrontDone)
  | .lookAhead _ | .find _ => .isTrue trivial

/-- What the threads are about to look up is cached. -/
def Cached (st : CacheUsers) : Prop := ∀ p ∈ st.pending, p.2 ∈ st.cache.sectors

theorem mem_makeRoom {s : CacheState} {sec : Nat} (hsec : sec ∈ s.sectors)
    (hspared : 64 ≤ s.cacheList.length → some sec ≠ s.sectors.head?) :
    sec ∈ s.makeRoom.sectors := by
  rw [CacheState.sectors_makeRoom]
  split
  next hfull =>
    have hfront := hspared (by simpa [CacheState.sectors, cacheMaxSectorNo] using hfull)
    cases hlist : s.sectors with
    | nil => simp [hlist] at hsec
    | cons front rest =>
      rw [hlist] at hsec hfront
      exact (List.mem_cons.mp hsec).resolve_left fun heq => hfront (congrArg some heq)
  next => exact hsec

theorem mem_others {s : CacheState} {secNo sec : Nat} (hsec : sec ∈ s.sectors)
    (hspared : secNo ∉ s.sectors → 64 ≤ s.cacheList.length → some sec ≠ s.sectors.head?) :
    sec ∈ s.others secNo ++ [secNo] := by
  rw [List.mem_append, List.mem_singleton, or_iff_not_imp_right]
  intro hne
  rw [CacheState.others]
  split
  next => exact (List.mem_erase_of_ne hne).mpr hsec
  next hmiss => exact CacheState.sectors_makeRoom s ▸ mem_makeRoom hsec (hspared hmiss)

theorem cached_step (h : st.Cached) (hG : st.Spares u)
    (hs : (cacheUsers fresh).step st u = some ((), st')) : st'.Cached := by
  cases u with
  | access a =>
    cases hs
    intro p hp
    rw [CacheState.sectors_access]
    exact mem_others (h p hp) fun hmiss hfull => hG hmiss hfull p hp
  | lookAhead secNo =>
    cases hs
    intro p hp
    rw [CacheState.sectors_findCache]
    split
    next hmem => exact mem_others (h p hp) fun hmiss => absurd hmem hmiss
    next => exact h p hp
  | readAhead raSec =>
    cases hs
    intro p hp
    have hmem := mem_makeRoom (h p hp) fun hfull => hG hfull p hp
    rw [CacheState.sectors] at hmem ⊢
    simp [CacheState.readAhead, CacheState.makeCache, hmem]
  | use t a =>
    obtain ⟨-, hs⟩ := Option.ite_none_right_eq_some.mp hs
    cases hs
    intro p hp
    rw [CacheState.sectors_access]
    rcases List.mem_cons.mp hp with rfl | hp
    · simp
    · exact mem_others (h p hp) fun hmiss hfull => hG hmiss hfull p hp
  | find t =>
    obtain ⟨secNo, -, hs⟩ := Option.bind_eq_some_iff.mp hs
    obtain ⟨⟨c, cache⟩, hf, hs⟩ := Option.map_eq_some_iff.mp hs
    cases hs
    intro p hp
    rcases st.cache.findCache_cases secNo with ⟨c', cs, hf', hsec, hmem, hcs⟩ | ⟨hf', -⟩
    · cases hf.symm.trans hf'
      have hback : (CacheState.setBack { st.cache with cacheList := cs ++ [c] }
          { c with openCnt := c.openCnt - 1 }).sectors = st.cache.others secNo ++ [secNo] := by
        simp [CacheState.sectors, hsec, hcs]
      rw [hback]
      exact mem_others (h p (List.mem_filter.mp hp).1) fun hmiss => absurd hmem hmiss
    · cases hf'.symm.trans hf

/-- A thread reads a sector, and other sectors are read until the cache is full. -/
def fill : List CacheUse :=
  .use 1 (.read 0 0 1) :: (List.range' 1 63).map fun sec => .access (.read sec 0 1)

end CacheUsers

/-- **The block just used is found.**  In every run in which nothing that is brought into a full
cache evicts a sector that a thread has accessed and is still to look up, no such `find_cache`
returns null. -/
theorem lookup_finds {fresh : Nat → Sector} {st : CacheUsers}
    (h : (cacheUsers fresh).Reach CacheUsers.Idle CacheUsers.Spares st) (t secNo : Nat)
    (hp : (t, secNo) ∈ st.pending) : (st.cache.findCache secNo).isSome := by
  have hcached : st.Cached := h.invariant (fun st hidle p hp => by rw [hidle] at hp; cases hp)
    fun _ _ _ _ hinv hG hs => CacheUsers.cached_step hinv hG hs
  rcases st.cache.findCache_cases secNo with ⟨c, cs, hf, -⟩ | ⟨-, hnot, -⟩
  · rw [hf]
    rfl
  · exact absurd (hcached _ hp) hnot

/-- The cache is full when the first thread looks up its sector.  Then a second one writes to the
one at the front, the read-ahead thread evicts a sector and reads one that is cached, and a third
thread evicts another one. -/
theorem lookup_finds_shared : ∃ st : CacheUsers,
    (cacheUsers fun _ => .fill 512 0xcc).Reach CacheUsers.Idle CacheUsers.Spares st ∧
      (2, 1) ∈ st.pending ∧ (3, 70) ∈ st.pending ∧ 2 ∉ st.cache.sectors ∧ 3 ∉ st.cache.sectors ∧
        (st.cache.findCache 1).isSome ∧ (st.cache.findCache 70).isSome := by
  obtain ⟨st, hreach, h2, h3, hgone⟩ := (cacheUsers fun _ => .fill 512 0xcc).exists_reach_along
    (I := CacheUsers.Idle) (G := CacheUsers.Spares) (s := ⟨.cacheInit fun _ => .fill 512 0, []⟩) rfl
    (CacheUsers.fill ++ [.find 1, .use 2 (.write 1 0 [0xff]), .lookAhead 63, .readAhead 63,
      .use 3 (.read 70 0 1)])
    (fun st => (2, 1) ∈ st.pending ∧ (3, 70) ∈ st.pending ∧ 2 ∉ st.cache.sectors ∧
      3 ∉ st.cache.sectors) (by decide +kernel) (by decide +kernel)
  exact ⟨st, hreach, h2, h3, hgone.1, hgone.2, lookup_finds hreach 2 1 h2,
    lookup_finds hreach 3 70 h3⟩

/-- One more sector is read before the first thread looks up its own. -/
theorem lookup_misses : ∃ st : CacheUsers,
    (cacheUsers fun _ => .fill 512 0xcc).Reach CacheUsers.Idle (fun _ _ => True) st ∧
      (1, 0) ∈ st.pending ∧ (st.cache.findCache 0).isNone :=
  (cacheUsers fun _ => .fill 512 0xcc).exists_reach (I := CacheUsers.Idle)
    (s := ⟨.cacheInit fun _ => .fill 512 0, []⟩) rfl
    (CacheUsers.fill ++ [.access (.read 64 0 1)])
    (fun st => (1, 0) ∈ st.pending ∧ (st.cache.findCache 0).isNone) (by decide +kernel)

/-! ## Entries that are freed -/

/-- `cache_list` as a list of pointers, each with the sector of its entry.  An address is not used
again. -/
structure CacheEntries where
  linked : List (Nat × Nat)
  freed : List Nat
  /-- What `malloc` returns next. -/
  next : Nat

namespace CacheEntries

/-- The assertions in `select_sector`. -/
def OnDisk (capacity secNo : Nat) : Prop := secNo < capacity ∧ secNo < 2 ^ 28

instance (capacity secNo : Nat) : Decidable (OnDisk capacity secNo) :=
  inferInstanceAs (Decidable (_ ∧ _))

/-- `find_cache`. -/
def findCache (st : CacheEntries) (secNo : Nat) : Option (Nat × CacheEntries) :=
  (st.linked.find? (·.2 = secNo)).map fun e =>
    (e.1, { st with linked := st.linked.eraseP (·.2 = secNo) ++ [e] })

/-- `evict_cache`, of a list that is not empty. -/
def evictCache (st : CacheEntries) : Option CacheEntries :=
  match st.linked with
  | [] => none
  | e :: rest => some { st with linked := rest, freed := e.1 :: st.freed }

/-- `make_cache`. -/
def makeCache (st : CacheEntries) (secNo : Nat) : CacheEntries :=
  let st := if cacheMaxSectorNo ≤ st.linked.length then st.evictCache.getD st else st
  { st with linked := st.linked ++ [(st.next, secNo)], next := st.next + 1 }

/-- `cache_read` or `cache_write`.  A miss reads the sector from the disk, unless all of it is about
to be overwritten. -/
def access (capacity : Nat) (st : CacheEntries) (secNo : Nat) (whole : Bool) :
    Option CacheEntries :=
  match st.findCache secNo with
  | some (_, st) => some st
  | none => if whole ∨ OnDisk capacity secNo then some (st.makeCache secNo) else none

/-- `destroy_cache_list`. -/
def destroyCacheList (st : CacheEntries) : CacheEntries :=
  { st with linked := [], freed := st.linked.map Prod.fst ++ st.freed }

/-- `cache_read` from the start of a sector, into a buffer with room for `room` bytes.  There is no
result if it runs over the end of the buffer. -/
def cacheRead (capacity : Nat) (st : CacheEntries) (secNo size room : Nat) : Option CacheEntries :=
  if size ≤ room then st.access capacity secNo false else none

/-- `inode_close`; `releases` says that the inode is removed and has no other opener, and `copy` is
the address of the copy of the inode.  `before` has the accesses to the index blocks and the free
map before the direct sectors are read, and `after` those to the free map after it.  The number of
the sector that is read for the direct ones is the address of their copy, and the array `direct`
that it is read into has 64 words. -/
def inodeClose (capacity : Nat) (st : CacheEntries) (secNo : Nat) (releases : Bool) (copy : Nat)
    (before after : List (Nat × Bool)) : Option CacheEntries := do
  let st ← st.cacheRead capacity secNo 512 512
  if releases then
    let st ← before.foldlM (fun st a => st.access capacity a.1 a.2) st
    let st ← st.cacheRead capacity (copy + 20) 512 (4 * 64)
    let st ← after.foldlM (fun st a => st.access capacity a.1 a.2) st
    match st.findCache secNo with
    | none => some st
    -- the entry is freed and stays in the list
    | some (removed, st) => some { st with freed := removed :: st.freed }
  else some st

end CacheEntries

namespace CacheEntries

variable {st st' : CacheEntries} {capacity secNo : Nat} {whole : Bool}

theorem access_eq_some (h : st.access capacity secNo whole = some st') :
    (∃ id, st.findCache secNo = some (id, st')) ∨
      st.findCache secNo = none ∧ st' = st.makeCache secNo ∧ (whole ∨ OnDisk capacity secNo) := by
  rw [access] at h
  split at h
  next hf => exact .inl ⟨_, Option.some_inj.mp h ▸ hf⟩
  next hf =>
    obtain ⟨hread, heq⟩ := Option.ite_none_right_eq_some.mp h
    exact .inr ⟨hf, (Option.some_inj.mp heq).symm, hread⟩

/-- **The entries have the sectors of the cache**, from access to access. -/
theorem sectors_access {s : CacheState} (fresh : Nat → Sector)
    (hs : st.linked.map Prod.snd = s.sectors) (a : CacheAccess)
    (h : st.access capacity a.secNo whole = some st') :
    st'.linked.map Prod.snd = (s.access fresh a).sectors := by
  rw [CacheState.sectors_access]
  have hmem : a.secNo ∈ s.sectors ↔ ∃ e ∈ st.linked, e.2 = a.secNo := by
    rw [← hs, List.mem_map]
  rcases access_eq_some h with ⟨id, hf⟩ | ⟨hf, rfl, -⟩
  · obtain ⟨e, hfind, heq⟩ := Option.map_eq_some_iff.mp hf
    cases heq
    have he : e.2 = a.secNo := by simpa using List.find?_some hfind
    rw [CacheState.others, if_pos (hmem.mpr ⟨e, List.mem_of_find?_eq_some hfind, he⟩), ← hs]
    simp [he, List.erase_eq_eraseP, List.eraseP_map, Function.comp_def, beq_eq_decide, eq_comm]
  · have hnot : a.secNo ∉ s.sectors := fun hin => by
      obtain ⟨e, hin, he⟩ := hmem.mp hin
      exact List.find?_eq_none.mp (Option.map_eq_none_iff.mp hf) e hin (by simpa using he)
    rw [CacheState.others, if_neg hnot, ← hs, List.length_map, makeCache, evictCache]
    obtain ⟨linked, freed, next⟩ := st
    cases linked <;> dsimp only <;> split <;> simp

/-- Entries are linked once, and none that is linked has been freed. -/
structure Inv (st : CacheEntries) : Prop where
  nodup : (st.linked.map Prod.fst).Nodup
  below : ∀ e ∈ st.linked, e.1 < st.next
  freed : ∀ id ∈ st.freed, id < st.next
  live : ∀ e ∈ st.linked, e.1 ∉ st.freed

section

variable (h : st.Inv)
include h

theorem Inv.perm {l : List (Nat × Nat)} (hl : l.Perm st.linked) : Inv { st with linked := l } :=
  ⟨(hl.map _).nodup_iff.mpr h.nodup, fun e he => h.below e (hl.mem_iff.mp he), h.freed,
    fun e he => h.live e (hl.mem_iff.mp he)⟩

theorem Inv.findCache {secNo id : Nat} (hf : st.findCache secNo = some (id, st')) : st'.Inv := by
  obtain ⟨e, he, heq⟩ := Option.map_eq_some_iff.mp hf
  cases heq
  obtain ⟨hp, as, bs, hlist, has⟩ := List.find?_eq_some_iff_append.mp he
  refine h.perm ((List.perm_append_singleton e _).trans ?_)
  rw [hlist, List.eraseP_append_right _ (by simpa using has), List.eraseP_cons_of_pos (by exact hp)]
  exact List.perm_middle.symm

theorem Inv.evictCache (hs : st.evictCache = some st') : st'.Inv := by
  rw [CacheEntries.evictCache] at hs
  split at hs
  next => cases hs
  next e rest hlist =>
    cases hs
    obtain ⟨hnodup, hbelow, hfreed, hlive⟩ := h
    rw [hlist] at hnodup hbelow hlive
    simp only [List.map_cons, List.nodup_cons, List.mem_map, not_exists, not_and] at hnodup
    exact ⟨hnodup.2, fun e' he' => hbelow e' (.tail _ he'),
      by simpa using ⟨hbelow e (.head _), hfreed⟩,
      fun e' he' => by simpa using ⟨hnodup.1 e' he', hlive e' (.tail _ he')⟩⟩

theorem Inv.push (secNo : Nat) :
    Inv { st with linked := st.linked ++ [(st.next, secNo)], next := st.next + 1 } := by
  refine ⟨?_, fun e he => ?_, fun id hid => Nat.lt_succ_of_lt (h.freed id hid), fun e he => ?_⟩
  · rw [List.map_append, List.nodup_append]
    refine ⟨h.nodup, List.nodup_singleton _, fun x hx y hy => ?_⟩
    obtain ⟨e, he, rfl⟩ := List.mem_map.mp hx
    rw [List.map_singleton, List.mem_singleton] at hy
    exact hy ▸ (h.below e he).ne
  · rcases List.mem_append.mp he with he | he
    · exact Nat.lt_succ_of_lt (h.below e he)
    · rw [List.mem_singleton.mp he]
      exact Nat.lt_succ_self _
  · rcases List.mem_append.mp he with he | he
    · exact h.live e he
    · rw [List.mem_singleton.mp he]
      exact fun hfreed => Nat.lt_irrefl _ (h.freed _ hfreed)

theorem Inv.access (hst : st.access capacity secNo whole = some st') : st'.Inv := by
  rcases access_eq_some hst with ⟨id, hf⟩ | ⟨-, rfl, -⟩
  · exact h.findCache hf
  · refine Inv.push ?_ secNo
    split
    next =>
      cases hev : st.evictCache with
      | none => exact h
      | some st' => exact h.evictCache hev
    next => exact h

theorem Inv.destroyCacheList : st.destroyCacheList.Inv := by
  refine ⟨List.nodup_nil, fun _ he => (nomatch he), fun id hid => ?_, fun _ he => (nomatch he)⟩
  rcases List.mem_append.mp hid with hid | hid
  · obtain ⟨e, he, rfl⟩ := List.mem_map.mp hid
    exact h.below e he
  · exact h.freed id hid

end

end CacheEntries

end Pintos
