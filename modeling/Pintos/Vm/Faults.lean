import Pintos.Vm.Changes

/-!
# Page faults and loading, as changes

What `page_fault`, `load_segment` and `setup_stack` do, as sequences of the changes of `Changes`.
All of them begin by allocating a frame, which may evict a page first; `Settled` is what that leaves
as it was, among it everything about the page that the frame is for.

Lazy loading may fail.  `frame_free` is then called with the user page, which it does not find, and
the entry of the frame table stays behind without a page.  `loadsWork` is the condition that this
does not happen; it looks at the page table and at the length of the file.

* `PageInv.frameAlloc`: an allocation.
* `swapFault_changes`, `lazyLoad_changes`, `pageFault_changes`: page faults.
* `setupStack_changes`: the last thing that `load` does.
-/

namespace Pintos

open Function (update update_eq_self update_idem update_of_ne update_self)

namespace Vm

open Outcome (bind_eq_ok)

variable {st st0 st' : Vm} {t u k e : Nat} {op : VmOp}

/-! ## Allocation -/

/-- What an allocation leaves as it was, also if it has to evict a page. -/
structure Settled (st st' : Vm) : Prop where
  process : ∀ t, (st'.process t).isSome = (st.process t).isSome
  isLoading : ∀ t, st'.isLoading t = st.isLoading t
  pte : ∀ t u, (st'.pte t u).isSome = (st.pte t u).isSome
  getSupPte : ∀ t u, st'.getSupPte t u = st.getSupPte t u
  /-- The page that is evicted is one that was present. -/
  spte : ∀ t u e, st.getSupPte t u = some e → st.getPage t u = none → st'.spte e = st.spte e
  saved : ∀ t u e, st.getSupPte t u = some e → st.getPage t u = none → st'.saved e = st.saved e
  mmapId : ∀ e, (st'.spte e).mmapId = (st.spte e).mmapId
  length : ∀ f, (st.file f).length ≤ (st'.file f).length

theorem Settled.refl (st : Vm) : Settled st st :=
  ⟨fun _ => rfl, fun _ => rfl, fun _ _ => rfl, fun _ _ => rfl, fun _ _ _ _ _ => rfl,
    fun _ _ _ _ _ => rfl, fun _ => rfl, fun _ => le_rfl⟩

theorem length_putBytes (st : Vm) (f : Nat) (src : List UInt8) (fileOfs f' : Nat) :
    (st.file f').length ≤ ((st.putBytes f src fileOfs).file f').length := by
  show _ ≤ (update st.file f _ f').length
  by_cases hf : f' = f
  · subst hf
    rw [update_self]
    exact Nat.le_max_left ..
  · rw [update_of_ne hf]

variable {dirty : Bool} {zero : Bool} {st1 : Vm}

theorem length_writeBackIf (h : st.writeBackIf t e dirty = .ok st') (f : Nat) :
    (st.file f).length ≤ (st'.file f).length := by
  rcases writeBackIf_eq_ok h with rfl | ⟨-, hback⟩
  · exact le_rfl
  · obtain ⟨f', -, ⟨-, rfl⟩ | ⟨-, k', -, rfl⟩⟩ := writeBack_eq_ok hback
    · exact le_rfl
    · exact length_putBytes ..

theorem Evicted.length (h : Evicted st t e k dirty st') (f : Nat) :
    (st.file f).length ≤ (st'.file f).length := by
  cases h with
  | swapped _ _ _ hout =>
    rw [swapOut] at hout
    split at hout
    · cases hout
    · cases hout
      exact le_rfl
  | dropped => exact le_rfl
  | toFile _ hback => exact length_writeBackIf hback f

theorem Evicted.saved (h : Evicted st t e k dirty st') {e' : Nat} (hne : e' ≠ e) :
    st'.saved e' = st.saved e' := by
  cases h with
  | swapped _ _ _ hout =>
    rw [swapOut] at hout
    split at hout
    · cases hout
    · cases hout
      exact update_of_ne hne ..
  | dropped => rfl
  | toFile _ hback =>
    obtain ⟨file, rfl⟩ := file_writeBackIf hback
    rfl

theorem PageInv.settled (h : PageInv st) {fte : Fte} {rest : List Fte}
    (hev : Evicts st t fte rest e st1 st') : Settled st st' := by
  obtain ⟨s, hs, -, hmmap, -⟩ := hev.contents.entry
  have hun := h.unmapped_of_evicts hev hs
  have hprocess := process_evicted hev.contents
  have hlength := hev.contents.length
  have hspte : ∀ e', e' ≠ e → st'.spte e' = st.spte e' := fun e' hne => by
    rw [hun.spte, update_of_ne hne]
  have hpresent : ∀ t' u' e', st.getSupPte t' u' = some e' → st.getPage t' u' = none → e' ≠ e := by
    rintro t' u' e' he' habsent rfl
    obtain ⟨rfl, rfl⟩ := h.key_eq hev.entry he'
    rw [hev.page] at habsent
    cases habsent
  refine ⟨fun t' => ?_, fun t' => ?_, fun t' u' => ?_, hun.getSupPte,
    fun t' u' e' he' habsent => hspte e' (hpresent t' u' e' he' habsent),
    fun t' u' e' he' habsent => ?_, fun e' => ?_, fun f => hev.result ▸ hlength f⟩
  · rw [hev.result]
    exact (isSome_process_modifyProcess st1 _ _ t').trans (by rw [hprocess])
  · rw [hev.result]
    refine (isLoading_modifyPte st1 _ _ _ t').trans ?_
    rw [isLoading, hprocess, isLoading]
  · rw [hun.pte, clearPage, pte_modifyPte]
    split
    next heq => rw [Option.isSome_map, heq.1, heq.2]
    next => rfl
  · rw [hev.result]
    exact hev.contents.saved (hpresent t' u' e' he' habsent)
  · by_cases heq : e' = e
    · rw [heq, hun.spte, update_self, hmmap]
    · rw [hspte e' heq]

/-- **Allocation** evicts a page, if it has to, and then takes a free frame. -/
theorem PageInv.frameAlloc (h : PageInv st) (hop : op.allocates = true)
    (hst : st.frameAlloc t u zero = .ok (k, st')) :
    ∃ st1 st2, Changes st t op st st1 ∧ Settled st st1 ∧ st1.pallocGetPage zero = some (k, st2) ∧
      st' = st2.enter t u k := by
  obtain ⟨st1, st2, rfl | ⟨hnone, hevict⟩, hget, rfl⟩ := frameAlloc_eq_ok hst
  · exact ⟨st1, st2, .refl, .refl st1, hget, rfl⟩
  · obtain ⟨fte, rest, e, st3, hev⟩ := h.evicts hevict
    have hfull : st.poolFull = true := by
      rw [pallocGetPage, Option.map_eq_none_iff] at hnone
      rw [poolFull, hnone, Option.isNone_none]
    exact ⟨st1, st2, .single (.evict hev hevict hop hfull), h.settled hev, hget, rfl⟩

variable {st2 : Vm}

theorem getPage_of_pallocGetPage (hget : st.pallocGetPage zero = some (k, st2)) (t u t' u' : Nat) :
    (st2.enter t u k).getPage t' u' = st.getPage t' u' ∧
      (st2.enter t u k).getSupPte t' u' = st.getSupPte t' u' ∧
      (st2.enter t u k).hasPageTable t' u' = st.hasPageTable t' u' ∧
      (st2.enter t u k).spte = st.spte ∧ (st2.enter t u k).file = st.file := by
  obtain ⟨idx, -, -, -, rfl⟩ := pallocGetPage_eq_some hget
  exact ⟨rfl, rfl, rfl, rfl, rfl⟩

theorem hasPageTable_eq_true :
    st.hasPageTable t u = true ↔ ∃ u', u' / 1024 = u / 1024 ∧ (st.pte t u').isSome := by
  rw [hasPageTable, Option.any_eq_true]
  constructor
  · rintro ⟨p, hp, hany⟩
    obtain ⟨u', hmem, heq⟩ := List.any_eq_true.mp hany
    refine ⟨u', of_decide_eq_true heq, ?_⟩
    rw [pte, hp, Option.bind_some, AList.lookup_isSome]
    exact AList.mem_keys.mpr hmem
  · rintro ⟨u', heq, hsome⟩
    obtain ⟨x, hx⟩ := Option.isSome_iff_exists.mp hsome
    obtain ⟨p, hp, hlookup⟩ := Option.bind_eq_some_iff.mp hx
    refine ⟨p, hp, List.any_eq_true.mpr ⟨u', ?_, decide_eq_true heq⟩⟩
    exact AList.mem_keys.mp (AList.lookup_isSome.mp (by rw [hlookup, Option.isSome_some]))

theorem Settled.hasPageTable (h : Settled st st') (t u : Nat) :
    st'.hasPageTable t u = st.hasPageTable t u := by
  rw [Bool.eq_iff_iff, hasPageTable_eq_true, hasPageTable_eq_true]
  simp only [h.pte]

/-! ## Page faults -/

theorem addSpte_mapPage (st : Vm) (t u k : Nat) (writable : Bool) (s : SupPte) :
    (st.mapPage t u k writable).addSpte t s = (st.addSpte t s).mapPage t u k writable := by
  simp only [addSpte, mapPage, modifyProcess, modifySpte, update_self, update_idem, Option.map_map]
  rfl

/-- **A page of the stack**: its entry is made, if there is none, and a page of zeros is mapped. -/
theorem stackPage_changes (hprocess : (st.process t).isSome)
    (hget : st.pallocGetPage true = some (k, st2)) (habsent : st.getPage t u = none)
    (hentry : ∀ e, st.getSupPte t u = some e →
      (st.spte e).swapped = false ∧ (st.spte e).mmapId = mapFailed) :
    Changes st0 t op st
      (((st2.enter t u k).mapPage t u k true).pageInsert t none 0 u 0 0 true).2 := by
  obtain ⟨-, hsup, -⟩ := getPage_of_pallocGetPage hget t u t u
  cases he : st.getSupPte t u with
  | some e =>
    obtain ⟨hhome, hid⟩ := hentry e he
    rw [pageInsert_of_some (by rw [getSupPte_mapPage, hsup, he])]
    exact .single (.stack hget habsent he hhome hid)
  | none =>
    rw [pageInsert_of_none (by rw [getSupPte_mapPage, hsup, he]), addSpte_mapPage]
    have hself := spte_addSpte_self st t (newSpte none 0 u 0 0 true)
    have hget' := pallocGetPage_congr (st.addSpte t (newSpte none 0 u 0 0 true)) hget rfl rfl rfl
    have hstack : Change st0 t op (st.addSpte t (newSpte none 0 u 0 0 true)) _ :=
      .stack hget' ((getPage_congr (pte_addSpte ..)).trans habsent)
        (getSupPte_addSpte_self hprocess _) (by rw [hself]; rfl) (by rw [hself]; rfl)
    obtain ⟨idx, -, -, -, rfl⟩ := pallocGetPage_eq_some hget
    exact .tail (.single (.entry hprocess he rfl rfl)) hstack

variable {ptFree : Bool}

theorem growStack_changes (h : PageInv st) (hop : op.allocates = true)
    (hprocess : (st.process t).isSome) (hnone : st.getSupPte t u = none)
    (hst : st.growStack t u ptFree = .ok st') : Changes st t op st st' := by
  obtain ⟨k, st1, halloc, habsent, hst⟩ := growStack_eq_ok hst
  obtain ⟨st1, st2, hchanges, hsettled, hget, rfl⟩ := h.frameAlloc hop halloc
  obtain ⟨hpage, -⟩ := getPage_of_pallocGetPage hget t u t u
  rcases hst with rfl | hfree
  · refine hchanges.trans (stackPage_changes ?_ hget (hpage ▸ habsent) ?_)
    · rw [hsettled.process, hprocess]
    · intro e he
      rw [hsettled.getSupPte, hnone] at he
      cases he
  · exact hchanges.tail (.unused hget hfree)

theorem swapFault_changes (op : VmOp) (h : PageInv st) (hop : op.allocates = true)
    (hentry : st.getSupPte t u = some e) (haway : (st.spte e).swapped = true)
    (hst : st.swapFault t u e ptFree = .ok st') :
    ∃ k st1 st2, Changes st t op st st1 ∧ Settled st st1 ∧ st1.pallocGetPage true = some (k, st2) ∧
      st1.spte e = st.spte e ∧ st' = (st2.enter t u k).swappedIn t u e k := by
  obtain ⟨-, -, habsent, htable⟩ := h.away t u e hentry haway
  obtain ⟨k, st1, halloc, -, hst⟩ := swapFault_eq_ok hst
  obtain ⟨st1, st2, hchanges, hsettled, hget, rfl⟩ := h.frameAlloc hop halloc
  obtain ⟨-, -, hpageTable, -⟩ := getPage_of_pallocGetPage hget t u t u
  refine ⟨k, st1, st2, hchanges, hsettled, hget, hsettled.spte t u e hentry habsent, ?_⟩
  rcases hst with hst | ⟨hno, -⟩
  · exact hst
  · rw [hpageTable, hsettled.hasPageTable, hasPageTable_eq_true.mpr ⟨u, rfl, htable⟩] at hno
    cases hno

/-- The condition that **lazy loading succeeds**: there is a page table, or one can be had, and the
file still has the bytes of the page. -/
def loadsWork (st : Vm) : Nat × VmOp → Bool
  | (t, .fault upage _ ptFree) =>
    (st.getSupPte t upage).all fun e =>
      (st.spte e).loaded || ((st.hasPageTable t upage || ptFree) &&
        (st.spte e).file.all fun f => (st.spte e).readBytes = 0 ||
          (st.spte e).fileOfs + (st.spte e).readBytes ≤ (st.file f).length)
  | _ => true

theorem installLoaded_changes {zero remove : Bool} {page : Page}
    (hget : st1.pallocGetPage zero = some (k, st2)) (hentry : st1.getSupPte t u = some e)
    (hunloaded : (st1.spte e).loaded = false) (htable : (st1.hasPageTable t u || ptFree) = true)
    (hread : ∀ f, (st1.spte e).file = some f → ∀ i < (st1.spte e).readBytes,
      page.get i = (st1.file f).bytes ((st1.spte e).fileOfs + i))
    (hst : { st2.enter t u k with mem := update st2.mem k page }.installLoaded t u e k
      remove ptFree = .ok st') : Change st0 t op st1 st' := by
  obtain ⟨hpage, -, hpageTable, hspte, -⟩ := getPage_of_pallocGetPage hget t u t u
  obtain ⟨habsent, rfl | ⟨hno, -⟩⟩ := installLoaded_eq_ok hst
  · have hload : Change st0 t op st1 _ := .load hget (hpage ▸ habsent) hentry hunloaded hread
    rw [← hspte] at hload
    exact hload
  · have hno : ((st2.enter t u k).hasPageTable t u || ptFree) = false := hno
    rw [hpageTable, htable] at hno
    cases hno

variable {f fileOfs i : Nat}

theorem getD_fileReadAt (st : Vm) {size : Nat} (hi : i < size)
    (hlength : (st.fileReadAt f size fileOfs).length = size) :
    (st.fileReadAt f size fileOfs).getD i 0 = (st.file f).bytes (fileOfs + i) := by
  rw [fileReadAt, List.length_map] at hlength
  simp [fileReadAt, hlength, hi]

theorem get_filled (page : Page) {data src : List UInt8} {n : Nat} (hn : data.length = n)
    (hi : i < n) (hsize : n ≤ pgsize) :
    ((page.write 0 data).write n src).get i = data.getD i 0 := by
  have hlt : i < pgsize := hi.trans_le hsize
  rw [Bytes.Block.get_write _ _ _ hlt, if_neg (by omega), Bytes.Block.get_write _ _ _ hlt,
    if_pos (by omega), Nat.sub_zero]

theorem writeMem_writeMem (st : Vm) (k ofs ofs' : Nat) (src src' : List UInt8) :
    (st.writeMem k ofs src).writeMem k ofs' src' =
      { st with mem := update st.mem k (((st.mem k).write ofs src).write ofs' src') } := by
  simp only [writeMem, update_self, update_idem]

theorem lazyLoad_changes (h : PageInv st) (hop : op.allocates = true)
    (hentry : st.getSupPte t u = some e) (habsent : st.getPage t u = none)
    (hunloaded : (st.spte e).loaded = false) (htable : (st.hasPageTable t u || ptFree) = true)
    (hlong : ∀ f, (st.spte e).file = some f → (st.spte e).readBytes = 0 ∨
      (st.spte e).fileOfs + (st.spte e).readBytes ≤ (st.file f).length)
    (hst : st.lazyLoad t u e ptFree = .ok st') : Changes st t op st st' := by
  cases lazyLoad_eq_ok hst with
  | @zeroed k _ _ hzero halloc hinstall =>
    obtain ⟨st1, st2, hchanges, hsettled, hget, rfl⟩ := h.frameAlloc hop halloc
    have hspte := hsettled.spte t u e hentry habsent
    have hmem : st2.enter t u k =
        { st2.enter t u k with mem := update st2.mem k (st2.mem k) } := by
      rw [update_eq_self]
      rfl
    rw [hmem] at hinstall
    refine hchanges.tail (installLoaded_changes hget (by rw [hsettled.getSupPte, hentry])
      (by rw [hspte, hunloaded]) (by rw [hsettled.hasPageTable, htable]) ?_ hinstall)
    intro f _ i hi
    rw [hspte, hzero] at hi
    cases hi
  | @short f k _ _ hfile halloc hshort _ =>
    obtain ⟨st1, st2, hchanges, hsettled, hget, rfl⟩ := h.frameAlloc hop halloc
    obtain ⟨-, -, -, -, hfiles⟩ := getPage_of_pallocGetPage hget t u t u
    refine absurd ?_ hshort
    have hlonger := hsettled.length f
    rw [fileReadAt, List.length_map, List.length_range, hfiles]
    rcases hlong f hfile with hzero | hle
    · rw [hzero, Nat.zero_min]
    · exact Nat.min_eq_left (by omega)
  | @filled f k _ _ hfile hsize halloc hfull hinstall =>
    obtain ⟨st1, st2, hchanges, hsettled, hget, rfl⟩ := h.frameAlloc hop halloc
    obtain ⟨-, -, -, -, hfiles⟩ := getPage_of_pallocGetPage hget t u t u
    have hspte := hsettled.spte t u e hentry habsent
    rw [writeMem_writeMem] at hinstall
    refine hchanges.tail (installLoaded_changes hget (by rw [hsettled.getSupPte, hentry])
      (by rw [hspte, hunloaded]) (by rw [hsettled.hasPageTable, htable]) ?_ hinstall)
    intro f' hf' i hi
    rw [hspte] at hf' hi ⊢
    obtain rfl := Option.mem_unique hfile hf'
    rw [← hfiles, ← getD_fileReadAt (st2.enter t u k) hi hfull]
    exact get_filled _ hfull hi (by omega)

theorem pageFault_changes (h : PageInv st) (hprocess : (st.process t).isSome)
    (habsent : st.getPage t u = none) {growth : Bool}
    (hwork : st.loadsWork (t, .fault u growth ptFree) = true)
    (hst : st.pageFault t u growth ptFree = .ok st') :
    Changes st t (.fault u growth ptFree) st st' := by
  rw [pageFault] at hst
  split at hst
  next hnone =>
    split at hst
    · exact growStack_changes h rfl hprocess hnone hst
    · cases hst
      exact .refl
  next e hentry =>
    split at hst
    next hswap =>
      obtain ⟨k, st1, st2, hchanges, hsettled, hget, hspte, rfl⟩ :=
        swapFault_changes (.fault u growth ptFree) h rfl hentry hswap.1 hst
      exact hchanges.tail (.swapIn hget (by rw [hsettled.getSupPte, hentry])
        (by rw [hspte, hswap.1]))
    next =>
      split at hst
      next =>
        cases hst
        exact .refl
      next hunloaded =>
        simp only [Bool.not_eq_true] at hunloaded
        simp only [loadsWork, hentry, Option.all_some, hunloaded, Bool.false_or, Bool.and_eq_true,
          Option.all_eq_true, Bool.or_eq_true, decide_eq_true_eq] at hwork
        exact lazyLoad_changes h rfl hentry habsent hunloaded (Bool.or_eq_true_iff.mpr hwork.1)
          hwork.2 hst

/-! ## Loading -/

/-- The process has no page and no mapped file. -/
structure Fresh (st : Vm) (t : Nat) : Prop where
  pte : ∀ u, st.pte t u = none
  mmapId : ∀ u e, st.getSupPte t u = some e → (st.spte e).mmapId = mapFailed

/-- A process that is in `load` has no page yet. -/
def Unloaded (st : Vm) : Prop := ∀ t, st.isLoading t = true → Fresh st t

section

variable (h : Fresh st t)
include h

theorem Fresh.getPage (u : Nat) : st.getPage t u = none := by
  rw [Vm.getPage, h.pte, Option.bind_none]

theorem Fresh.home (hinv : PageInv st) (hentry : st.getSupPte t u = some e) :
    (st.spte e).swapped = false := by
  cases hswapped : (st.spte e).swapped with
  | false => rfl
  | true =>
    have htable := (hinv.away t u e hentry hswapped).table
    rw [h.pte] at htable
    cases htable

theorem Fresh.of_settled (hs : Settled st st') : Fresh st' t := by
  refine ⟨fun u => ?_, fun u e he => ?_⟩
  · have hpte := hs.pte t u
    rw [h.pte] at hpte
    exact Option.not_isSome_iff_eq_none.mp (by rw [hpte]; exact Bool.false_ne_true)
  · rw [hs.getSupPte] at he
    rw [hs.mmapId, h.mmapId u e he]

theorem Fresh.modifySpte (e : Nat) (f : SupPte → SupPte)
    (hf : ∀ s, (f s).mmapId = s.mmapId) : Fresh (st.modifySpte e f) t :=
  ⟨h.pte, fun u e' he' => (field_modifySpte SupPte.mmapId st e f hf e').trans (h.mmapId u e' he')⟩

theorem Fresh.addSpte (hkeyed : Keyed st) {s : SupPte}
    (hid : s.mmapId = mapFailed) : Fresh (st.addSpte t s) t := by
  refine ⟨fun u => (pte_addSpte ..).trans (h.pte u), fun u e he => ?_⟩
  rw [getSupPte_addSpte] at he
  split at he
  next =>
    obtain ⟨-, -, rfl⟩ := Option.map_eq_some_iff.mp he
    rw [spte_addSpte_self, hid]
  next =>
    rw [spte_addSpte_of_lt _ _ (hkeyed t u e he).2]
    exact h.mmapId u e he

end

theorem loadPage_changes (h : PageInv st) (hprocess : (st.process t).isSome) (hfresh : Fresh st t)
    {readBytes : Nat} {writable : Bool}
    (hst : st.loadPage t f fileOfs u readBytes writable = .ok st') :
    Changes st t op st st' ∧ Fresh st' t := by
  simp only [loadPage] at hst
  cases he : st.getSupPte t u with
  | some e =>
    rw [pageInsert_of_some he, he] at hst
    cases hst
    refine ⟨.single (.unload he (hfresh.home h he)), hfresh.modifySpte _ _ ?_⟩
    exact fun _ => rfl
  | none =>
    rw [pageInsert_of_none he] at hst
    have hself := getSupPte_addSpte_self hprocess
      (newSpte (some f) fileOfs u readBytes (pgsize - readBytes) writable)
    rw [show (st.addSpte t _).getSupPte t u = _ from hself] at hst
    cases hst
    refine ⟨.tail (.single (.entry hprocess he rfl rfl)) (.unload hself ?_),
      (hfresh.addSpte h.keyed rfl).modifySpte _ _ ?_⟩
    · rw [spte_addSpte_self]
      rfl
    · exact fun _ => rfl

/-- `setup_stack` either makes the page of the stack, with which the process is loaded, or leaves
the tables of the process as they are. -/
theorem setupStack_changes (op : VmOp) (h : PageInv st) (hop : op.allocates = true)
    (hprocess : (st.process t).isSome) (hfresh : Fresh st t)
    (hst : st.setupStack t ptFree = .ok st') :
    Changes st t op st st' ∧ (st'.isLoading t = true → Fresh st' t) := by
  obtain ⟨⟨k, st1⟩, halloc, hst⟩ := bind_eq_ok.mp hst
  obtain ⟨st1, st2, hchanges, hsettled, hget, rfl⟩ := h.frameAlloc hop halloc
  have hfresh1 := hfresh.of_settled hsettled
  have h1 := h.changes hchanges
  -- The two ways to fail.
  have hfailed : (st2.enter t stackPage k).frameFree k = .ok st' →
      Changes st t op st st' ∧ (st'.isLoading t = true → Fresh st' t) := fun hfree => by
    obtain ⟨-, hprocess, hspte, -⟩ := h1.unused hget hfree
    refine ⟨hchanges.tail (.unused hget hfree), fun _ => ⟨fun u => ?_, fun u e he => ?_⟩⟩
    · rw [pte, hprocess]
      exact hfresh1.pte u
    · rw [getSupPte, hprocess] at he
      rw [hspte]
      exact hfresh1.mmapId u e he
  simp only at hst
  split at hst
  next => exact hfailed hst
  next =>
    obtain ⟨⟨success, st3⟩, hset, hst⟩ := bind_eq_ok.mp hst
    obtain ⟨-, -, rfl⟩ := setPage_eq_ok.mp hset
    cases success with
    | false => exact hfailed hst
    | true =>
      cases hst
      have hstack : Changes st t op st1
          (((st2.enter t stackPage k).mapPage t stackPage k true).pageInsert t none 0
            stackPage 0 0 true).2 :=
        stackPage_changes (by rw [hsettled.process, hprocess]) hget (hfresh1.getPage _)
          fun e he => ⟨hfresh1.home h1 he, hfresh1.mmapId _ e he⟩
      refine ⟨(hchanges.trans hstack).tail (.adjust _ (fun _ => rfl) (fun _ => rfl) (fun _ => rfl)
        fun _ hl => by cases hl), fun hl => ?_⟩
      rw [isLoading, process_modifyProcess, if_pos rfl, Option.any_map, Option.any_eq_true] at hl
      obtain ⟨p, -, hl⟩ := hl
      cases hl

end Vm

end Pintos
