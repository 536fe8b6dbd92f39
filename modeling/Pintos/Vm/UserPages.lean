import Pintos.Vm.Steps

/-!
# The pages that are tracked

A page that a process has a supplemental page table entry for is given to `pagedir_get_page` and
`pagedir_clear_page` when the process unmaps it, when its frame is evicted and when the process
exits, and both assert that it is a user page.  The entries come from the loader, which has checked
the segments, from page faults, which are at user addresses, and from `SYS_MMAP`, which checks that
its address is not null and that it is aligned, but neither that it is one of a user page nor that
the whole file fits below `PHYS_BASE`.

Pages are numbers here, so that every page that is tracked is aligned; what is left to show is that
it is below `physBase`.

* `AddsNone` is what all code but the three places that make entries does: nothing comes to be
  tracked but frames of user pages.
* `UserInv` is the invariant, and `UserInv.exec` that every step keeps it whose mapping, if it is a
  `SYS_MMAP`, ends below `PHYS_BASE`.
* `user_pages_tracked`: in the states that are reached by such steps only user pages are tracked,
  and each round of `SYS_MUNMAP` and of `page_table_remove`, and each eviction, is for a user page.
* `user_pages_untracked`: a file is mapped at `PHYS_BASE`, and `SYS_MUNMAP` fails the assertion.
-/

namespace Pintos

namespace Vm

open Outcome (bind_eq_ok foldlM_invariant)

variable {st st' : Vm} {t u k e : Nat} {dirty : Bool}

/-! ## What makes no entry -/

/-- Nothing comes to be tracked, but for the frames of user pages. -/
structure AddsNone (st st' : Vm) : Prop where
  table : ∀ t u, (st'.getSupPte t u).isSome → (st.getSupPte t u).isSome
  list : ∀ t, ∀ e ∈ st'.mappedList t, e ∈ st.mappedList t
  upage : ∀ e, (st'.spte e).upage = (st.spte e).upage
  nextSpte : st'.nextSpte = st.nextSpte
  frames : ∀ fte ∈ st'.frameTable, fte ∈ st.frameTable ∨ fte.upage < physBase

theorem AddsNone.refl (st : Vm) : AddsNone st st :=
  ⟨fun _ _ h => h, fun _ _ h => h, fun _ => rfl, rfl, fun _ => .inl⟩

theorem AddsNone.trans {st1 st2 st3 : Vm} (h : AddsNone st1 st2) (h' : AddsNone st2 st3) :
    AddsNone st1 st3 :=
  ⟨fun t u hsome => h.table t u (h'.table t u hsome),
    fun t e he => h.list t e (h'.list t e he), fun e => (h'.upage e).trans (h.upage e),
    h'.nextSpte.trans h.nextSpte,
    fun fte hfte => (h'.frames fte hfte).elim (h.frames fte) .inr⟩

theorem AddsNone.of_process (h : st'.process = st.process)
    (hupage : ∀ e, (st'.spte e).upage = (st.spte e).upage) (hnext : st'.nextSpte = st.nextSpte)
    (hframes : ∀ fte ∈ st'.frameTable, fte ∈ st.frameTable ∨ fte.upage < physBase) :
    AddsNone st st' := by
  refine ⟨fun t u hsome => ?_, fun t e he => ?_, hupage, hnext, hframes⟩
  · rwa [getSupPte, h] at hsome
  · rwa [mappedList, h] at he

theorem addsNone_modifySpte (st : Vm) (e : Nat) (f : SupPte → SupPte)
    (hf : ∀ s, (f s).upage = s.upage) : AddsNone st (st.modifySpte e f) :=
  .of_process rfl (upage_modifySpte st e f hf) rfl fun _ => .inl

theorem addsNone_modifyProcess (st : Vm) (t : Nat) (f : Process → Process)
    (htable : ∀ p, (f p).supPageTable = p.supPageTable) (hlist : ∀ p, (f p).mmapList = p.mmapList) :
    AddsNone st (st.modifyProcess t f) := by
  refine ⟨fun t' u' hsome => ?_, fun t' e' he' => ?_, fun _ => rfl, rfl, fun _ => .inl⟩
  · rwa [getSupPte_modifyProcess st t f htable] at hsome
  · rwa [mappedList_modifyProcess st t f hlist] at he'

theorem addsNone_modifyPte (st : Vm) (t u : Nat) (f : Pte → Pte) :
    AddsNone st (st.modifyPte t u f) :=
  addsNone_modifyProcess st t _ (fun _ => rfl) fun _ => rfl

theorem addsNone_mapPage (st : Vm) (t u k : Nat) (writable : Bool) :
    AddsNone st (st.mapPage t u k writable) :=
  addsNone_modifyProcess st t _ (fun _ => rfl) fun _ => rfl

theorem addsNone_pageRemove (st : Vm) (t u : Nat) : AddsNone st (st.pageRemove t u) := by
  refine ⟨fun t' u' hsome => ?_, fun t' e' he' => ?_, fun _ => rfl, rfl, fun _ => .inl⟩
  · rw [getSupPte_pageRemove] at hsome
    split at hsome
    · cases hsome
    · exact hsome
  · rwa [mappedList_pageRemove] at he'

theorem addsNone_dropMapped (st : Vm) (t e : Nat) : AddsNone st (st.dropMapped t e) := by
  refine ⟨fun t' u' hsome => ?_, fun t' e' he' => ?_, fun _ => rfl, rfl, fun _ => .inl⟩
  · rwa [getSupPte_dropMapped] at hsome
  · rw [mappedList_dropMapped] at he'
    split at he'
    next heq => exact heq ▸ List.mem_of_mem_erase he'
    next => exact he'

theorem addsNone_setProcess (st : Vm) (t : Nat) {p : Option Process} (hp : NoTables p)
    (hlist : p.elim [] (·.mmapList) = []) : AddsNone st (st.setProcess t p) := by
  refine ⟨fun t' u' hsome => ?_, fun t' e' he' => ?_, fun _ => rfl, rfl, fun _ => .inl⟩
  · rw [getSupPte_setProcess hp] at hsome
    split at hsome
    · cases hsome
    · exact hsome
  · rw [mappedList, process_setProcess] at he'
    split at he'
    · rw [hlist] at he'
      cases he'
    · exact he'

theorem addsNone_frameFree (hst : st.frameFree k = .ok st') : AddsNone st st' := by
  rcases frameFree_eq_ok hst with ⟨-, rfl⟩ | ⟨-, rfl⟩
  · exact .refl _
  · exact .of_process rfl (fun _ => rfl) rfl fun _ hfte => .inl (List.mem_of_mem_eraseP hfte)

theorem addsNone_writeBackIf (h : st.writeBackIf t e dirty = .ok st') : AddsNone st st' := by
  obtain ⟨hprocess, hspte, hnext, hframes, -⟩ := sameTables_writeBackIf h
  exact .of_process hprocess (fun e => by rw [hspte]) hnext fun _ hfte => .inl (hframes ▸ hfte)

theorem Evicted.addsNone (h : Evicted st t e k dirty st') : AddsNone st st' := by
  obtain ⟨hunmaps, hframes⟩ := h.unmaps
  exact .of_process (process_evicted h) hunmaps.upage hunmaps.nextSpte
    fun _ hfte => .inl (hframes.frameTable ▸ hfte)

theorem addsNone_frameEvict (hst : st.frameEvict t = .ok st') : AddsNone st st' := by
  obtain ⟨fte, rest, e, st1, hcons, -, hcontents, rfl⟩ := frameEvict_eq_ok hst
  obtain ⟨htable, hlist, hupage, hnext, -⟩ := hcontents.addsNone.trans
    (addsNone_modifyPte st1 fte.originThread fte.upage _)
  exact ⟨htable, hlist, hupage, hnext, fun _ hfte => .inl (hcons ▸ .tail _ hfte)⟩

theorem addsNone_frameAlloc {zero : Bool} (hu : u < physBase)
    (hst : st.frameAlloc t u zero = .ok (k, st')) : AddsNone st st' := by
  obtain ⟨st1, st2, hevict, hget, rfl⟩ := frameAlloc_eq_ok hst
  have h1 : AddsNone st st1 := by
    rcases hevict with rfl | ⟨-, hevict⟩
    · exact .refl _
    · exact addsNone_frameEvict hevict
  obtain ⟨idx, -, -, -, rfl⟩ := pallocGetPage_eq_some hget
  refine h1.trans (.of_process rfl (fun _ => rfl) rfl fun fte hfte => ?_)
  rcases List.mem_append.mp hfte with hfte | hfte
  · exact .inl hfte
  · exact .inr (List.mem_singleton.mp hfte ▸ hu)

theorem addsNone_writeMem (st : Vm) (k ofs : Nat) (src : List UInt8) :
    AddsNone st (st.writeMem k ofs src) :=
  .of_process rfl (fun _ => rfl) rfl fun _ => .inl

/-! ## Page faults -/

variable {ptFree : Bool}

theorem addsNone_swapFault (hu : u < physBase) (hst : st.swapFault t u e ptFree = .ok st') :
    AddsNone st st' := by
  obtain ⟨k, st1, halloc, -, hst⟩ := swapFault_eq_ok hst
  refine (addsNone_frameAlloc hu halloc).trans ?_
  have hin : AddsNone st1 (st1.swapIn (st1.spte e).swapIndex k) :=
    .of_process rfl (fun _ => rfl) rfl fun _ => .inl
  rcases hst with rfl | ⟨-, hfree⟩
  · exact (hin.trans (addsNone_mapPage _ t u k true)).trans
      ((addsNone_modifyPte _ t u _).trans (addsNone_modifySpte _ e _ fun _ => rfl))
  · exact hin.trans (addsNone_frameFree hfree)

theorem addsNone_installLoaded {remove : Bool}
    (hst : st.installLoaded t u e k remove ptFree = .ok st') : AddsNone st st' := by
  obtain ⟨-, rfl | ⟨-, st1, hfree, rfl⟩⟩ := installLoaded_eq_ok hst
  · exact (addsNone_mapPage ..).trans (addsNone_modifySpte _ e _ fun _ => rfl)
  · refine (addsNone_frameFree hfree).trans ?_
    split
    · exact addsNone_pageRemove ..
    · exact .refl _

theorem addsNone_lazyLoad (hu : u < physBase) (hst : st.lazyLoad t u e ptFree = .ok st') :
    AddsNone st st' := by
  cases lazyLoad_eq_ok hst with
  | zeroed _ halloc hinstall =>
    exact (addsNone_frameAlloc hu halloc).trans (addsNone_installLoaded hinstall)
  | short _ halloc _ hfree =>
    exact (addsNone_frameAlloc hu halloc).trans
      ((addsNone_writeMem ..).trans (addsNone_frameFree hfree))
  | filled _ _ halloc _ hinstall =>
    exact (addsNone_frameAlloc hu halloc).trans
      ((addsNone_writeMem ..).trans
        ((addsNone_writeMem ..).trans (addsNone_installLoaded hinstall)))

/-! ## Unmapping -/

theorem addsNone_munmapEntry {id : Int} (hst : munmapEntry t id st e = .ok st') :
    AddsNone st st' := by
  rcases munmapEntry_eq_ok hst with ⟨-, rfl⟩ | ⟨-, ⟨-, rfl⟩ | ⟨k, st1, -, hback, hfree⟩⟩
  · exact .refl _
  · exact (addsNone_dropMapped ..).trans (addsNone_pageRemove ..)
  · have hclear : AddsNone st1
        ((st1.clearPage t (st.spte e).upage).pageRemove t (st.spte e).upage) :=
      (addsNone_modifyPte ..).trans (addsNone_pageRemove ..)
    exact (addsNone_dropMapped ..).trans
      ((addsNone_writeBackIf hback).trans (hclear.trans (addsNone_frameFree hfree)))

theorem addsNone_closeMapping (hst : st.closeMapping t e = .ok st') : AddsNone st st' := by
  rcases closeMapping_eq_ok hst with ⟨-, rfl⟩ | ⟨-, st1, hback, rfl⟩
  · exact .refl _
  · exact (addsNone_writeBackIf hback).trans (addsNone_dropMapped ..)

theorem addsNone_freeSlot (hst : st.freeSlot e = .ok st') : AddsNone st st' := by
  rcases freeSlot_eq_ok hst with ⟨-, rfl⟩ | ⟨-, -, rfl⟩
  · exact .refl _
  · exact .of_process rfl (fun _ => rfl) rfl fun _ => .inl

theorem addsNone_pageTableFree (hst : pageTableFree t st u = .ok st') : AddsNone st st' := by
  obtain ⟨e, -, ⟨-, hslot⟩ | ⟨k, st1, st2, -, hclose, hfree, hslot⟩⟩ := pageTableFree_eq_ok hst
  · exact addsNone_freeSlot hslot
  · exact (addsNone_closeMapping hclose).trans
      ((addsNone_modifyPte ..).trans ((addsNone_frameFree hfree).trans (addsNone_freeSlot hslot)))

theorem addsNone_foldlM {α : Type} {f : Vm → α → Except Stop Vm}
    (hf : ∀ a s s', f s a = .ok s' → AddsNone s s') {l : List α} (hst : l.foldlM f st = .ok st') :
    AddsNone st st' :=
  foldlM_invariant (fun a _ s s' hs hround => hs.trans (hf a s s' hround))
    (.refl st) hst

theorem addsNone_pagedirDestroy (hst : st.pagedirDestroy t = .ok st') : AddsNone st st' := by
  rw [pagedirDestroy] at hst
  split at hst
  next =>
    cases hst
    exact .refl _
  next p _ =>
    obtain ⟨st1, hfrees, heq⟩ := bind_eq_ok.mp hst
    cases heq
    refine (addsNone_foldlM (fun x s s' hfree => ?_) hfrees).trans
      (addsNone_setProcess st1 t (fun _ hx => by cases hx) rfl)
    obtain ⟨-, rfl⟩ := pallocFreePage_eq_ok.mp hfree
    exact .of_process rfl (fun _ => rfl) rfl fun _ => .inl

/-! ## The invariant -/

/-- **The invariant**: what is tracked are user pages. -/
structure UserInv (st : Vm) : Prop where
  table : ∀ t u, (st.getSupPte t u).isSome → u < physBase
  list : ∀ t, ∀ e ∈ st.mappedList t, e < st.nextSpte ∧ (st.spte e).upage < physBase
  frames : ∀ fte ∈ st.frameTable, fte.upage < physBase

section

variable (h : UserInv st)
include h

theorem UserInv.addsNone (hk : AddsNone st st') : UserInv st' where
  table t u hsome := h.table t u (hk.table t u hsome)
  list t e he := by
    rw [hk.upage, hk.nextSpte]
    exact h.list t e (hk.list t e he)
  frames fte hfte := (hk.frames fte hfte).elim (h.frames fte) id

theorem UserInv.addSpte (t : Nat) {s : SupPte} (hs : s.upage < physBase) :
    UserInv (st.addSpte t s) where
  table t' u' hsome := by
    rw [getSupPte_addSpte] at hsome
    split at hsome
    next heq => exact heq.2 ▸ hs
    next => exact h.table t' u' hsome
  list t' e' he' := by
    rw [mappedList_addSpte] at he'
    obtain ⟨hlt, hupage⟩ := h.list t' e' he'
    rw [spte_addSpte_of_lt t s hlt]
    exact ⟨Nat.lt_succ_of_lt hlt, hupage⟩
  frames := h.frames

theorem UserInv.pageInsert (t : Nat) (hu : u < physBase) (file : Option Nat)
    (fileOfs readBytes zeroBytes : Nat) (writable : Bool) :
    UserInv (st.pageInsert t file fileOfs u readBytes zeroBytes writable).2 := by
  cases he : st.getSupPte t u with
  | some e => rwa [pageInsert_of_some he]
  | none =>
    rw [pageInsert_of_none he]
    exact h.addSpte t hu

theorem UserInv.pushMapped (hprocess : (st.process t).isSome) (he : e < st.nextSpte)
    (hupage : (st.spte e).upage < physBase) :
    UserInv (st.pushMapped t e) where
  table t' u' hsome := by
    rw [getSupPte_pushMapped] at hsome
    exact h.table t' u' hsome
  list t' e' he' := by
    rw [mappedList_pushMapped st t e t' hprocess] at he'
    split at he'
    next heq =>
      rcases List.mem_append.mp he' with he' | he'
      · exact h.list t e' he'
      · obtain rfl := List.mem_singleton.mp he'
        exact ⟨he, hupage⟩
    next => exact h.list t' e' he'
  frames := h.frames

theorem UserInv.growStack (hu : u < physBase) (hst : st.growStack t u ptFree = .ok st') :
    UserInv st' := by
  obtain ⟨k, st1, halloc, -, hst⟩ := growStack_eq_ok hst
  have h1 := h.addsNone (addsNone_frameAlloc hu halloc)
  rcases hst with rfl | hfree
  · exact (h1.addsNone (addsNone_mapPage ..)).pageInsert t hu ..
  · exact h1.addsNone (addsNone_frameFree hfree)

theorem UserInv.pageFault (hu : u < physBase) {growth : Bool}
    (hst : st.pageFault t u growth ptFree = .ok st') : UserInv st' := by
  rw [Vm.pageFault] at hst
  split at hst
  next =>
    split at hst
    · exact h.growStack hu hst
    · cases hst
      exact h
  next e _ =>
    split at hst
    · exact h.addsNone (addsNone_swapFault hu hst)
    · split at hst
      · cases hst
        exact h
      · exact h.addsNone (addsNone_lazyLoad hu hst)

theorem UserInv.loadPage (hu : u < physBase) {f fileOfs readBytes : Nat} {writable : Bool}
    (hst : st.loadPage t f fileOfs u readBytes writable = .ok st') : UserInv st' := by
  simp only [Vm.loadPage] at hst
  split at hst
  · cases hst
  · cases hst
    exact (h.pageInsert t hu ..).addsNone (addsNone_modifySpte _ _ _ fun _ => rfl)

theorem UserInv.setupStack (hst : st.setupStack t ptFree = .ok st') : UserInv st' := by
  have hu : stackPage < physBase := by decide
  obtain ⟨⟨k, st1⟩, halloc, hst⟩ := bind_eq_ok.mp hst
  have h1 := h.addsNone (addsNone_frameAlloc hu halloc)
  simp only at hst
  split at hst
  next => exact h1.addsNone (addsNone_frameFree hst)
  next =>
    obtain ⟨⟨success, st2⟩, hset, hst⟩ := bind_eq_ok.mp hst
    obtain ⟨-, -, rfl⟩ := setPage_eq_ok.mp hset
    cases success with
    | true =>
      cases hst
      exact ((h1.addsNone (addsNone_mapPage ..)).pageInsert t hu ..).addsNone
        (addsNone_modifyProcess _ t _ (fun _ => rfl) fun _ => rfl)
    | false => exact h1.addsNone (addsNone_frameFree hst)

theorem UserInv.mmapLoop (hprocess : (st.process t).isSome) (f : Nat) (mapId : Int) {cnt addr : Nat}
    (hfits : addr + cnt ≤ physBase) (curOfs remain : Nat) :
    UserInv (Vm.mmapLoop t f mapId cnt st curOfs addr remain).2 := by
  induction cnt generalizing st addr curOfs remain with
  | zero => exact h
  | succ cnt ih =>
    cases he : st.getSupPte t addr with
    | some e =>
      rw [mmapLoop_of_some he]
      exact h
    | none =>
      rw [mmapLoop_of_none he]
      have hupage : (mapSpte f curOfs addr (min remain pgsize) mapId).upage < physBase := by
        show addr < physBase
        omega
      have hprocess' : ((st.addSpte t (mapSpte f curOfs addr (min remain pgsize) mapId)).process
          t).isSome := (isSome_process_modifyProcess (st.modifySpte ..) ..).trans hprocess
      refine ih ((h.addSpte t hupage).pushMapped hprocess' (Nat.lt_succ_self _) ?_) ?_ ?_ _ _
      · rw [spte_addSpte_self]
        exact hupage
      · exact (isSome_process_modifyProcess ..).trans hprocess'
      · omega

end

/-- The mapping, if the step is a `SYS_MMAP`, ends at or below `PHYS_BASE`. -/
def mapsBelow (st : Vm) : Nat × VmOp → Bool
  | (_, .mmap f addr) => addr + ((st.file f).length + pgsize - 1) / pgsize ≤ physBase
  | _ => true

theorem UserInv.mmap (h : UserInv st) {f addr : Nat}
    (hfits : addr + ((st.file f).length + pgsize - 1) / pgsize ≤ physBase) :
    UserInv (st.mmap t f addr) := by
  rw [Vm.mmap]
  split
  · exact h
  next p hprocess =>
    have hloop := h.mmapLoop (by rw [hprocess, Option.isSome_some]) f p.mmapCount hfits 0
      (st.file f).length
    dsimp only
    split
    next heq =>
      rw [heq] at hloop
      exact hloop
    next heq =>
      rw [heq] at hloop
      exact hloop.addsNone (addsNone_modifyProcess _ t _ (fun _ => rfl) fun _ => rfl)

/-- **Every step keeps the invariant**, if its mapping ends below `PHYS_BASE`. -/
theorem UserInv.exec (h : UserInv st) {op : VmOp} (henabled : st.enabled t op = true)
    (hguard : st.mapsBelow (t, op) = true) (hst : st.exec t op = .ok st') : UserInv st' := by
  cases op with
  | spawn =>
    cases hst
    refine h.addsNone (addsNone_setProcess st t (fun x hx => ?_) rfl)
    cases hx
    exact ⟨rfl, rfl⟩
  | loadPage f fileOfs upage readBytes writable =>
    simp only [enabled, Bool.and_eq_true, decide_eq_true_eq] at henabled
    exact h.loadPage henabled.1.2 hst
  | setupStack ptFree => exact h.setupStack hst
  | fault upage growth ptFree =>
    simp only [enabled, Bool.and_eq_true, decide_eq_true_eq] at henabled
    exact h.pageFault henabled.1.2 hst
  | store upage i v =>
    obtain ⟨k, -, rfl⟩ := store_eq_ok hst
    have hdirty : AddsNone (st.writeMem k i [v]) ((st.writeMem k i [v]).setDirty t upage) :=
      addsNone_modifyPte ..
    exact (h.addsNone ((addsNone_writeMem st k i [v]).trans hdirty)).addsNone
      (.of_process rfl (fun _ => rfl) rfl fun _ => .inl)
  | mmap f addr =>
    cases hst
    exact h.mmap (of_decide_eq_true hguard)
  | munmap id =>
    rw [Vm.exec, munmap] at hst
    split at hst
    next => cases hst
    next =>
      split at hst
      next => cases hst
      next => exact h.addsNone (addsNone_foldlM (fun _ _ _ => addsNone_munmapEntry) hst)
  | exit order =>
    obtain ⟨st1, hremove, hdestroy⟩ := bind_eq_ok.mp hst
    exact h.addsNone ((addsNone_foldlM (fun _ _ _ => addsNone_pageTableFree) hremove).trans
      (addsNone_pagedirDestroy hdestroy))
  | write f fileOfs src =>
    obtain ⟨hprocess, hspte, hnext, hframes, -⟩ := sameTables_write hst
    exact h.addsNone (.of_process hprocess (fun e => by rw [hspte]) hnext
      fun _ hfte => .inl (hframes ▸ hfte))
  | deny f cnt =>
    cases hst
    exact h.addsNone (.of_process rfl (fun _ => rfl) rfl fun _ => .inl)

theorem UserInv.of_boot (h : st.Boot) : UserInv st where
  table t u hsome := by
    rw [getSupPte, h.process] at hsome
    cases hsome
  list t e he := by
    rw [mappedList, h.process] at he
    cases he
  frames fte hfte := by
    rw [h.frameTable] at hfte
    cases hfte

/-! ## The assertions -/

/-- **Only user pages are tracked**, and none other is given to `pagedir_get_page` or
`pagedir_clear_page`. -/
structure TracksUserPages (st : Vm) : Prop where
  /-- The entries of the supplemental page tables are for user pages. -/
  table : ∀ t u e, st.getSupPte t u = some e → (st.spte e).upage = u ∧ u < physBase
  /-- Each round of `SYS_MUNMAP` that is come to is for a user page. -/
  munmap : ∀ t id done e rest st₁, st.mappedList t = done ++ e :: rest →
    done.foldlM (munmapEntry t id) st = .ok st₁ → (st₁.spte e).upage < physBase
  /-- Each round of `page_table_remove` that is come to is for a user page. -/
  exit : ∀ t done u rest st₁ e, st.enabled t (.exit (done ++ u :: rest)) = true →
    done.foldlM (pageTableFree t) st = .ok st₁ → st₁.getSupPte t u = some e →
    (st₁.spte e).upage < physBase
  evict : ∀ fte ∈ st.frameTable, fte.upage < physBase

theorem UserInv.tracks (h : UserInv st) (hiso : IsoInv st) : TracksUserPages st where
  table t u e he := ⟨(hiso.keyed t u e he).1, h.table t u (Option.isSome_of_mem he)⟩
  munmap t id done e rest st1 hlist hdone := by
    rw [(addsNone_foldlM (fun _ _ _ => addsNone_munmapEntry) hdone).upage]
    refine (h.list t e ?_).2
    rw [hlist]
    exact List.mem_append_right _ (.head _)
  exit t done u rest st1 e henabled hdone he := by
    have hnone := addsNone_foldlM (fun _ _ _ => addsNone_pageTableFree) hdone
    have hiso1 : IsoInv st1 :=
      foldlM_invariant (fun _ _ _ _ hs hfree => (IsoInv.pageTableFree hs hfree).1) hiso hdone
    rw [(hiso1.keyed t u e he).1]
    exact h.table t u (hnone.table t u (Option.isSome_of_mem he))
  evict := h.frames

end Vm

open Outcome (stopOf stopOf_eq_some)

/-- **Only user pages are tracked**, in every state that is reached by steps whose mappings end at
or below `PHYS_BASE`. -/
theorem user_pages_tracked {st : Vm}
    (h : vmMachine.Reach Vm.Boot (fun st i => st.mapsBelow i = true) st) : st.TracksUserPages := by
  have hinv : st.UserInv := h.invariant (fun _ => .of_boot) fun _ _ _ _ hinv hguard hstep =>
    hinv.exec (vmMachine_step hstep).1 hguard (vmMachine_step hstep).2
  exact hinv.tracks (isoInv_of_reach h)

/-- A file of two pages is mapped at the last pages below the stack, and tracked there. -/
theorem user_pages_tracked_mapped : ∃ st,
    vmMachine.Reach Vm.Boot (fun st i => st.mapsBelow i = true) st ∧
      st.getSupPte 1 (physBase - 2) = some 2 ∧
      st.TracksUserPages := by
  obtain ⟨st, hreach, heq⟩ := vmMachine.exists_reach_along (Vm.boot_initial 1 1 8192 0)
    [(1, .spawn), (1, .setupStack true), (1, .mmap 0 (physBase - 3))]
    (fun st => st.getSupPte 1 (physBase - 2) = some 2)
    (by decide +kernel : vmMachine.Along (fun st i => st.mapsBelow i = true) ..) (by decide +kernel)
  exact ⟨st, hreach, heq, user_pages_tracked hreach⟩

/-- A file is mapped at `PHYS_BASE` itself.  The page is tracked, and both `SYS_MUNMAP` and the end
of the process fail an assertion. -/
theorem user_pages_untracked : ∃ st,
    vmMachine.Reach Vm.Boot (fun _ _ => True) st ∧ st.getSupPte 1 physBase = some 1 ∧
      ¬ st.TracksUserPages ∧ st.enabled 1 (.munmap 0) = true ∧
      st.exec 1 (.munmap 0) = .error .assertion ∧
      st.enabled 1 (.exit [physBase, Vm.stackPage]) = true ∧
      st.exec 1 (.exit [physBase, Vm.stackPage]) = .error .assertion := by
  obtain ⟨st, hreach, hentry, henabled, hmunmap, henabled', hexit⟩ :=
    vmMachine.exists_reach (Vm.boot_initial 1 1 1 0)
      [(1, .spawn), (1, .setupStack true), (1, .mmap 0 physBase)]
      (fun st => st.getSupPte 1 physBase = some 1 ∧ st.enabled 1 (.munmap 0) = true ∧
        stopOf (st.exec 1 (.munmap 0)) = some .assertion ∧
        st.enabled 1 (.exit [physBase, Vm.stackPage]) = true ∧
        stopOf (st.exec 1 (.exit [physBase, Vm.stackPage])) = some .assertion) (by decide +kernel)
  exact ⟨st, hreach, hentry, fun h => absurd (h.table 1 physBase 1 hentry).2 (Nat.lt_irrefl _),
    henabled, stopOf_eq_some.mp hmunmap, henabled', stopOf_eq_some.mp hexit⟩

end Pintos
