import Pintos.Vm.Steps

/-!
# What a call of `SYS_MMAP` leaves

`SYS_MMAP` inserts the pages of the file one by one and stops at the first that the process has
already.  It does not take back those it has inserted before, nor does it count its number up: they
stay in the supplemental page table and in the list of mapped files, under a number that the next
mapping gets too.

* `sysMmap` is the whole call, with the checks that come before the loop and what it returns;
  `sysMmap_snd` says that it does to the state what the step of `vmMachine` does.
* `mmapLoop_added`: the loop inserts the pages before the first that is there, and no others.  The
  entries it makes have consecutive addresses, so `Added` needs no list of them.
* `mmap_all_or_nothing_iff`: the call is all or nothing exactly if it is refused before the loop, or
  finds its first page there, or finds none of its pages there and no page with its number.
* `mmap_half_done`: a file of two pages is mapped right below a page of the process.
-/

namespace Pintos

namespace Vm

variable {st st' : Vm} {t u e f : Nat}

/-! ## The call -/

/-- How many pages a file has. -/
def filePages (st : Vm) (f : Nat) : Nat := ((st.file f).length + pgsize - 1) / pgsize

/-- The number that the next mapping of a process gets. -/
def nextMapId (st : Vm) (t : Nat) : Nat := (st.process t).elim 0 (·.mmapCount)

/-- `SYS_MMAP`, with the descriptor `fd` of the open file `f`, at the byte address `addr`: what it
returns, and the state it leaves. -/
def sysMmap (st : Vm) (t : Nat) (fd : Int) (f addr : Nat) : Int × Vm :=
  if addr = 0 then (mapFailed, st)
  else if addr % pgsize ≠ 0 then (mapFailed, st)
  else if fd = 0 ∨ fd = 1 then (mapFailed, st)
  else if (st.file f).length = 0 then (mapFailed, st)
  else
    match mmapLoop t f (st.nextMapId t) (st.filePages f) st 0 (addr / pgsize)
        (st.file f).length with
    | (false, st) => (mapFailed, st)
    | (true, st') =>
      (st.nextMapId t, st'.modifyProcess t fun p => { p with mmapCount := p.mmapCount + 1 })

/-- The checks before the loop refuse the call. -/
def RefusesMap (st : Vm) (fd : Int) (f addr : Nat) : Prop :=
  addr = 0 ∨ addr % pgsize ≠ 0 ∨ (fd = 0 ∨ fd = 1) ∨ (st.file f).length = 0

variable {fd : Int} {addr : Nat}

theorem sysMmap_of_refuses (h : st.RefusesMap fd f addr) :
    st.sysMmap t fd f addr = (mapFailed, st) := by
  rw [sysMmap]
  split
  · rfl
  · split
    · rfl
    · split
      · rfl
      · rw [if_pos (by rcases h with h | h | h | h <;> first | contradiction | exact h)]

theorem sysMmap_of_not_refuses (h : ¬ st.RefusesMap fd f addr) :
    st.sysMmap t fd f addr =
      match mmapLoop t f (st.nextMapId t) (st.filePages f) st 0 (addr / pgsize)
        (st.file f).length with
      | (false, st') => (mapFailed, st')
      | (true, st') =>
        (st.nextMapId t, st'.modifyProcess t fun p => { p with mmapCount := p.mmapCount + 1 }) := by
  simp only [RefusesMap, not_or] at h
  rw [sysMmap, if_neg h.1, if_neg h.2.1, if_neg (by tauto), if_neg h.2.2.2]

/-- **The call is the step of the machine**, once the checks are passed. -/
theorem sysMmap_snd (hprocess : (st.process t).isSome) (h : ¬ st.RefusesMap fd f addr) :
    (st.sysMmap t fd f addr).2 = st.mmap t f (addr / pgsize) := by
  obtain ⟨p, hp⟩ := Option.isSome_iff_exists.mp hprocess
  have hnext : st.nextMapId t = p.mmapCount := by rw [nextMapId, hp]; rfl
  rw [sysMmap_of_not_refuses h, mmap, hp, hnext]
  dsimp only [filePages]
  rcases mmapLoop t f p.mmapCount (((st.file f).length + pgsize - 1) / pgsize) st 0 (addr / pgsize)
    (st.file f).length with ⟨_ | _, st'⟩
  · rfl
  · rfl

/-! ## The loop -/

/-- The pages from `addr` on, as addresses wrap around. -/
def pageFrom (addr k : Nat) : Nat := (addr + k) % 2 ^ 20

theorem pageFrom_succ (addr k : Nat) :
    pageFrom ((addr + 1) % 2 ^ 20) k = pageFrom addr (k + 1) := by
  unfold pageFrom
  omega

theorem pageFrom_injective {j k : Nat} (hj : j < 2 ^ 20) (hk : k < 2 ^ 20)
    (h : pageFrom addr j = pageFrom addr k) : j = k := by
  unfold pageFrom at h
  omega

/-- The first `cnt` pages from `addr` on have been inserted, with the number `mapId`. -/
structure Added (st : Vm) (t addr : Nat) (mapId : Int) (cnt : Nat) (st' : Vm) : Prop where
  /-- The list is longer by the new entries. -/
  list : st'.mappedList t = st.mappedList t ++ List.range' st.nextSpte cnt
  page : ∀ k < cnt, st'.getSupPte t (pageFrom addr k) = some (st.nextSpte + k)
  mapId : ∀ k < cnt, (st'.spte (st.nextSpte + k)).mmapId = mapId
  other : ∀ u, (∀ k < cnt, u ≠ pageFrom addr k) → st'.getSupPte t u = st.getSupPte t u
  old : ∀ e < st.nextSpte, st'.spte e = st.spte e

theorem Added.zero (st : Vm) (t addr : Nat) (mapId : Int) : Added st t addr mapId 0 st where
  list := by rw [List.range'_zero, List.append_nil]
  page := nofun
  mapId := nofun
  other _ _ := rfl
  old _ _ := rfl

variable {cnt : Nat} {mapId : Int} {r : Int × Vm}

theorem Added.modifyProcess (h : Added st t addr mapId cnt st') (g : Process → Process)
    (htable : ∀ p, (g p).supPageTable = p.supPageTable) (hlist : ∀ p, (g p).mmapList = p.mmapList) :
    Added st t addr mapId cnt (st'.modifyProcess t g) where
  list := (mappedList_modifyProcess st' t g hlist t).trans h.list
  page k hk := (getSupPte_modifyProcess st' t g htable t _).trans (h.page k hk)
  mapId := h.mapId
  other u hu := (getSupPte_modifyProcess st' t g htable t u).trans (h.other u hu)
  old := h.old

theorem Added.succ {s : SupPte} (hprocess : (st.process t).isSome)
    (hupage : s.upage = pageFrom addr 0) (hcnt : cnt < 2 ^ 20)
    (h : Added ((st.addSpte t s).pushMapped t st.nextSpte) t ((addr + 1) % 2 ^ 20) s.mmapId cnt
      st') : Added st t addr s.mmapId (cnt + 1) st' := by
  have hprocess1 : ((st.addSpte t s).process t).isSome :=
    (isSome_process_modifyProcess (st.modifySpte ..) ..).trans hprocess
  have hlist : ((st.addSpte t s).pushMapped t st.nextSpte).mappedList t =
      st.mappedList t ++ [st.nextSpte] := by
    rw [mappedList_pushMapped _ _ _ _ hprocess1, if_pos rfl, mappedList_addSpte]
  have hspte : st'.spte st.nextSpte = s := by
    rw [h.old _ (Nat.lt_succ_self _)]
    exact spte_addSpte_self st t s
  refine ⟨?_, fun k hk => ?_, fun k hk => ?_, fun u hu => ?_, fun e he => ?_⟩
  · rw [h.list, hlist, List.append_assoc]
    rfl
  · cases k with
    | zero =>
      rw [h.other, getSupPte_pushMapped, ← hupage]
      · exact getSupPte_addSpte_self hprocess s
      · intro j hj heq
        rw [pageFrom_succ] at heq
        have := pageFrom_injective (by omega) (by omega) heq
        omega
    | succ k =>
      rw [← pageFrom_succ, h.page k (by omega)]
      exact congrArg some (Nat.add_right_comm ..)
  · cases k with
    | zero => exact congrArg SupPte.mmapId hspte
    | succ k =>
      have hk := h.mapId k (by omega)
      rwa [show ((st.addSpte t s).pushMapped t st.nextSpte).nextSpte + k = st.nextSpte + (k + 1)
        from Nat.add_right_comm ..] at hk
  · rw [h.other, getSupPte_pushMapped, getSupPte_addSpte, if_neg]
    · rintro ⟨-, heq⟩
      exact hu 0 (Nat.succ_pos _) (heq.trans hupage)
    · intro k hk
      rw [pageFrom_succ]
      exact hu (k + 1) (by omega)
  · rw [h.old e (Nat.lt_succ_of_lt he)]
    exact spte_addSpte_of_lt t s he

/-- **The loop** inserts the pages before the first that is there. -/
theorem mmapLoop_added (hprocess : (st.process t).isSome) (f : Nat) (mapId : Int)
    (hcnt : cnt < 2 ^ 20) (haddr : addr < 2 ^ 20) (curOfs remain : Nat) :
    ∃ j ≤ cnt, Added st t addr mapId j (mmapLoop t f mapId cnt st curOfs addr remain).2 ∧
      (∀ k < j, st.getSupPte t (pageFrom addr k) = none) ∧
      ((mmapLoop t f mapId cnt st curOfs addr remain).1 = true ↔ j = cnt) ∧
      (j < cnt → (st.getSupPte t (pageFrom addr j)).isSome) := by
  induction cnt generalizing st addr curOfs remain with
  | zero => exact ⟨0, le_rfl, .zero .., nofun, ⟨fun _ => rfl, fun _ => rfl⟩, nofun⟩
  | succ cnt ih =>
    have hfirst : pageFrom addr 0 = addr := Nat.mod_eq_of_lt haddr
    cases he : st.getSupPte t addr with
    | some e =>
      rw [mmapLoop_of_some he]
      refine ⟨0, Nat.zero_le _, .zero .., nofun, ⟨nofun, nofun⟩, fun _ => ?_⟩
      rw [hfirst, he, Option.isSome_some]
    | none =>
      rw [mmapLoop_of_none he]
      have hprocess1 : (((st.addSpte t (mapSpte f curOfs addr (min remain pgsize) mapId)).pushMapped
          t st.nextSpte).process t).isSome := (isSome_process_modifyProcess ..).trans
        ((isSome_process_modifyProcess (st.modifySpte ..) ..).trans hprocess)
      have hpage : ∀ k < cnt, ((st.addSpte t (mapSpte f curOfs addr (min remain pgsize)
          mapId)).pushMapped t st.nextSpte).getSupPte t (pageFrom ((addr + 1) % 2 ^ 20) k) =
            st.getSupPte t (pageFrom addr (k + 1)) := fun k hk => by
        rw [getSupPte_pushMapped, getSupPte_addSpte, pageFrom_succ, if_neg]
        rintro ⟨-, heq⟩
        have := pageFrom_injective (by omega) (by omega) (heq.trans hfirst.symm)
        omega
      obtain ⟨j, hj, hadded, hnone, hdone, hsome⟩ := ih hprocess1 (by omega)
        (Nat.mod_lt (addr + 1) (by decide)) (curOfs + pgsize) (remain - min remain pgsize)
      refine ⟨j + 1, by omega, hadded.succ hprocess hfirst.symm (by omega), fun k hk => ?_,
        hdone.trans Nat.succ_inj.symm, fun hlt => ?_⟩
      · cases k with
        | zero => rw [hfirst, he]
        | succ k => rw [← hpage k (by omega), hnone k (by omega)]
      · rw [← hpage j (by omega)]
        exact hsome (by omega)

/-! ## All or nothing -/

/-- **All or nothing**: what a call of `SYS_MMAP` for the file `f` at `addr` should have done, by
what it returns and the state it leaves. -/
structure AllOrNothing (st : Vm) (t f addr : Nat) (r : Int × Vm) : Prop where
  /-- If it fails, the process has what it had. -/
  failed : r.1 = mapFailed → r.2.mappedList t = st.mappedList t ∧
    (∀ u, r.2.getSupPte t u = st.getSupPte t u) ∧
    ∀ u e, st.getSupPte t u = some e → r.2.spte e = st.spte e
  /-- If it does not, the pages of the file are new ones, at consecutive addresses and with the
  number that is returned; nothing else is new, and no page had this number. -/
  mapped : r.1 ≠ mapFailed → ∃ entries : List Nat, entries.length = st.filePages f ∧
    r.2.mappedList t = st.mappedList t ++ entries ∧
    (∀ k, (hk : k < entries.length) → st.getSupPte t (pageFrom (addr / pgsize) k) = none ∧
      r.2.getSupPte t (pageFrom (addr / pgsize) k) = some entries[k] ∧
      (r.2.spte entries[k]).mmapId = r.1) ∧
    (∀ u, (∀ k < st.filePages f, u ≠ pageFrom (addr / pgsize) k) →
      r.2.getSupPte t u = st.getSupPte t u) ∧
    ∀ u e, st.getSupPte t u = some e → r.2.spte e = st.spte e ∧ (st.spte e).mmapId ≠ r.1

/-- None of the pages of the file is there, and no page has the number of the next mapping. -/
structure RoomToMap (st : Vm) (t f addr : Nat) : Prop where
  absent : ∀ k < st.filePages f, st.getSupPte t (pageFrom (addr / pgsize) k) = none
  unused : ∀ u e, st.getSupPte t u = some e → (st.spte e).mmapId ≠ st.nextMapId t

theorem sysMmap_added (hprocess : (st.process t).isSome) (hlen : (st.file f).length < 2 ^ 31)
    (haddr : addr < 2 ^ 32) (h : ¬ st.RefusesMap fd f addr) :
    ∃ j ≤ st.filePages f, Added st t (addr / pgsize) (st.nextMapId t) j (st.sysMmap t fd f addr).2 ∧
      (∀ k < j, st.getSupPte t (pageFrom (addr / pgsize) k) = none) ∧
      (st.sysMmap t fd f addr).1 =
        (if j = st.filePages f then (st.nextMapId t : Int) else mapFailed) ∧
      (j < st.filePages f → (st.getSupPte t (pageFrom (addr / pgsize) j)).isSome) := by
  have hpages : st.filePages f < 2 ^ 20 := by
    unfold filePages pgsize
    omega
  obtain ⟨j, hj, hadded, hnone, hdone, hsome⟩ := mmapLoop_added hprocess f (st.nextMapId t) hpages
    (show addr / pgsize < 2 ^ 20 by unfold pgsize; omega) 0 (st.file f).length
  refine ⟨j, hj, ?_, hnone, ?_, hsome⟩
  · rw [sysMmap_of_not_refuses h]
    split
    next st1 heq =>
      rw [heq] at hadded
      exact hadded
    next st1 heq =>
      rw [heq] at hadded
      exact hadded.modifyProcess _ (fun _ => rfl) fun _ => rfl
  · rw [sysMmap_of_not_refuses h]
    split
    next st1 heq => rw [if_neg (by rw [← hdone, heq]; nofun)]
    next st1 heq => rw [if_pos (hdone.mp (by rw [heq]))]

theorem filePages_pos (h : (st.file f).length ≠ 0) : 0 < st.filePages f := by
  unfold filePages pgsize
  omega

theorem allOrNothing_of_added_zero (mapId : Int) (hkeyed : Keyed st)
    (hadded : Added st t (addr / pgsize) mapId 0 r.2) (hr : r.1 = mapFailed) :
    AllOrNothing st t f addr r where
  failed _ := by
    refine ⟨?_, fun u => hadded.other u nofun, fun u e he => hadded.old e (hkeyed t u e he).2⟩
    rw [hadded.list, List.range'_zero, List.append_nil]
  mapped hne := absurd hr hne

theorem allOrNothing_of_added (hkeyed : Keyed st)
    (hadded : Added st t (addr / pgsize) mapId (st.filePages f) r.2) (hr : r.1 = mapId)
    (hid : mapId ≠ mapFailed)
    (hnone : ∀ k < st.filePages f, st.getSupPte t (pageFrom (addr / pgsize) k) = none)
    (hunused : ∀ u e, st.getSupPte t u = some e → (st.spte e).mmapId ≠ mapId) :
    AllOrNothing st t f addr r where
  failed hfailed := absurd (hr.symm.trans hfailed) hid
  mapped _ := by
    refine ⟨List.range' st.nextSpte (st.filePages f), List.length_range', hadded.list,
      fun k hk => ?_, hadded.other, fun u e he => ⟨hadded.old e (hkeyed t u e he).2, ?_⟩⟩
    · rw [List.length_range'] at hk
      rw [List.getElem_range', Nat.one_mul, hr]
      exact ⟨hnone k hk, hadded.page k hk, hadded.mapId k hk⟩
    · rw [hr]
      exact hunused u e he

end Vm

/-- **`SYS_MMAP` is all or nothing** exactly if it is refused before it inserts anything, or its
first page is one that the process has, or the process has none of its pages and none with the
number it gets. -/
theorem mmap_all_or_nothing_iff {st : Vm} (h : vmMachine.Reach Vm.Boot (fun _ _ => True) st)
    {t f : Nat} (huser : st.isUser t = true) (fd : Int) (addr : Nat)
    (hlen : (st.file f).length < 2 ^ 31) (haddr : addr < 2 ^ 32) :
    st.AllOrNothing t f addr (st.sysMmap t fd f addr) ↔
      st.RefusesMap fd f addr ∨ (st.getSupPte t (addr / pgsize)).isSome ∨
        st.RoomToMap t f addr := by
  have hkeyed := (isoInv_of_reach h).keyed
  have hprocess : (st.process t).isSome := by
    rw [Vm.isUser, Option.any_eq_true] at huser
    obtain ⟨p, hp, -⟩ := huser
    rw [hp, Option.isSome_some]
  by_cases hrefused : st.RefusesMap fd f addr
  · refine iff_of_true ?_ (.inl hrefused)
    rw [Vm.sysMmap_of_refuses hrefused]
    exact Vm.allOrNothing_of_added_zero 0 hkeyed (.zero ..) rfl
  obtain ⟨j, hj, hadded, hnone, hret, hsome⟩ := Vm.sysMmap_added hprocess hlen haddr hrefused
  have hpos : 0 < st.filePages f := Vm.filePages_pos fun hzero =>
    hrefused (.inr (.inr (.inr hzero)))
  have hfirst : Vm.pageFrom (addr / pgsize) 0 = addr / pgsize := Nat.mod_eq_of_lt (by
    unfold pgsize
    omega)
  constructor
  · intro hall
    refine .inr ?_
    -- A page that has been inserted is one too many if the call fails.
    rcases Nat.lt_or_ge j (st.filePages f) with hlt | hge
    · refine .inl ?_
      rw [if_neg hlt.ne] at hret
      have hzero : j = 0 := by
        by_contra hne
        have hpage := hadded.page 0 (Nat.pos_of_ne_zero hne)
        rw [(hall.failed hret).2.1, hnone 0 (Nat.pos_of_ne_zero hne)] at hpage
        cases hpage
      subst hzero
      rw [← hfirst]
      exact hsome hlt
    · obtain rfl : j = st.filePages f := Nat.le_antisymm hj hge
      rw [if_pos rfl] at hret
      refine .inr ⟨hnone, fun u e he => ?_⟩
      obtain ⟨_, -, -, -, -, hold⟩ := hall.mapped (by rw [hret]; unfold mapFailed; omega)
      rw [← hret]
      exact (hold u e he).2
  · rintro (href | hthere | hroom)
    · exact absurd href hrefused
    · have hzero : j = 0 := by
        by_contra hne
        have := hnone 0 (Nat.pos_of_ne_zero hne)
        rw [hfirst] at this
        rw [this] at hthere
        cases hthere
      subst hzero
      rw [if_neg hpos.ne] at hret
      exact Vm.allOrNothing_of_added_zero _ hkeyed hadded hret
    · have hend : j = st.filePages f := by
        by_contra hne
        have := hsome (by omega)
        rw [hroom.absent j (by omega)] at this
        cases this
      subst hend
      rw [if_pos rfl] at hret
      exact Vm.allOrNothing_of_added hkeyed hadded hret (by unfold mapFailed; omega) hnone
        hroom.unused

theorem mmap_all_or_nothing_iff_room : ∃ st, vmMachine.Reach Vm.Boot (fun _ _ => True) st ∧
    st.isUser 1 = true ∧ (st.file 0).length = 8192 ∧ (st.sysMmap 1 2 0 0x10000).1 = 0 ∧
    st.AllOrNothing 1 0 0x10000 (st.sysMmap 1 2 0 0x10000) := by
  obtain ⟨st, hreach, huser, hlen, hret, hnext, hspte, hid, hfirst, hsecond⟩ :=
    vmMachine.exists_reach (Vm.boot_initial 1 1 8192 0) [(1, .spawn), (1, .setupStack true)]
      (fun st => st.isUser 1 = true ∧ (st.file 0).length = 8192 ∧
        (st.sysMmap 1 2 0 0x10000).1 = 0 ∧ st.nextSpte = 1 ∧ (st.spte 0).mmapId = mapFailed ∧
        st.nextMapId 1 = 0 ∧ st.getSupPte 1 16 = none ∧ st.getSupPte 1 17 = none)
      (by decide +kernel)
  have hpages : st.filePages 0 = 2 := by
    rw [Vm.filePages, hlen]
    rfl
  refine ⟨st, hreach, huser, hlen, hret, (mmap_all_or_nothing_iff hreach huser 2 0x10000
    (by rw [hlen]; decide) (by decide)).mpr (.inr (.inr ⟨fun k hk => ?_, fun u e he => ?_⟩))⟩
  · rw [hpages] at hk
    interval_cases k
    · exact hfirst
    · exact hsecond
  · have hlt := ((isoInv_of_reach hreach).keyed 1 u e he).2
    rw [hnext] at hlt
    obtain rfl : e = 0 := Nat.lt_one_iff.mp hlt
    rw [hspte, hid]
    decide

/-- A process maps a file of two pages so that the second is its stack.  The call fails, and the
first page stays. -/
theorem mmap_half_done : ∃ st, vmMachine.Reach Vm.Boot (fun _ _ => True) st ∧
    st.isUser 1 = true ∧ (st.file 0).length = 8192 ∧
    (st.sysMmap 1 2 0 0xbfffe000).1 = mapFailed ∧
    st.getSupPte 1 0xbfffe = none ∧ st.mappedList 1 = [] ∧
    (st.sysMmap 1 2 0 0xbfffe000).2.getSupPte 1 0xbfffe = some 1 ∧
    (st.sysMmap 1 2 0 0xbfffe000).2.mappedList 1 = [1] ∧
    ¬ st.AllOrNothing 1 0 0xbfffe000 (st.sysMmap 1 2 0 0xbfffe000) := by
  obtain ⟨st, hreach, huser, hlen, hret, hnone, hlist, hsome, hlist'⟩ :=
    vmMachine.exists_reach (Vm.boot_initial 1 1 8192 0) [(1, .spawn), (1, .setupStack true)]
      (fun st => st.isUser 1 = true ∧ (st.file 0).length = 8192 ∧
        (st.sysMmap 1 2 0 0xbfffe000).1 = mapFailed ∧ st.getSupPte 1 0xbfffe = none ∧
        st.mappedList 1 = [] ∧ (st.sysMmap 1 2 0 0xbfffe000).2.getSupPte 1 0xbfffe = some 1 ∧
        (st.sysMmap 1 2 0 0xbfffe000).2.mappedList 1 = [1]) (by decide +kernel)
  refine ⟨st, hreach, huser, hlen, hret, hnone, hlist, hsome, hlist', fun hall => ?_⟩
  have hsame := (hall.failed hret).1
  rw [hlist', hlist] at hsame
  cases hsame

end Pintos
