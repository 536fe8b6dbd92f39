import Pintos.Vm.Faults

/-!
# Steps, as changes

What the system calls and the end of a process do, as sequences of the changes of `Changes`, and
with it what every step of virtual memory is.

* `mmapLoop_changes`, `munmap_changes`: the system calls.
* `PageInv.pageTableFree`: a round of the loop that empties the table of a process that exits.
* `PageInv.stepped`: a step is a sequence of changes, the birth of a process or its end.
* `pageInv_of_reach`: the invariant of `Pages`, in every state that is reached by steps whose lazy
  loading succeeds.
-/

namespace Pintos

namespace Vm

open Outcome (bind_eq_ok foldlM_invariant foldlM_induction)

variable {st st0 st' st1 : Vm} {t t' u k e : Nat} {op : VmOp} {id : Int} {order : List Nat}
  {p : Option Process} {rest : List Nat} {addr : Nat} {op : VmOp}

/-! ## System calls -/

theorem modifySpte_addSpte (st : Vm) (t : Nat) (s : SupPte) (f : SupPte → SupPte)
    (hf : (f s).upage = s.upage) :
    (st.addSpte t s).modifySpte st.nextSpte f = st.addSpte t (f s) := by
  simp only [addSpte, modifySpte, modifyProcess, Function.update_self, Function.update_idem, hf]

/-- The entry of a page of a mapped file. -/
def mapSpte (f fileOfs upage readBytes : Nat) (mapId : Int) : SupPte :=
  ⟨some f, upage, readBytes, pgsize - readBytes, true, fileOfs, false, false, 0, mapId⟩

theorem mmap_round {cnt remain curOfs length : Nat}
    (hcnt : cnt + 1 = (remain + pgsize - 1) / pgsize)
    (hrange : remain = 0 ∨ curOfs + remain = length) :
    curOfs + min remain pgsize ≤ length ∧ cnt = (remain - min remain pgsize + pgsize - 1) / pgsize ∧
      (remain - min remain pgsize = 0 ∨
        curOfs + pgsize + (remain - min remain pgsize) = length) := by
  unfold pgsize at *
  omega

theorem mmapLoop_of_some (he : st.getSupPte t addr = some e) (f : Nat) (mapId : Int)
    (cnt curOfs remain : Nat) :
    mmapLoop t f mapId (cnt + 1) st curOfs addr remain = (false, st) := by
  rw [mmapLoop, pageInsert_of_some he]

theorem mmapLoop_of_none (he : st.getSupPte t addr = none) (f : Nat) (mapId : Int)
    (cnt curOfs remain : Nat) :
    mmapLoop t f mapId (cnt + 1) st curOfs addr remain =
      mmapLoop t f mapId cnt
        ((st.addSpte t (mapSpte f curOfs addr (min remain pgsize) mapId)).pushMapped t st.nextSpte)
        (curOfs + pgsize) ((addr + 1) % 2 ^ 20) (remain - min remain pgsize) := by
  rw [mmapLoop, pageInsert_of_none he]
  dsimp only
  rw [modifySpte_addSpte _ _ _ _ rfl]
  rfl

/-- **The loop of `SYS_MMAP`.**  The entries it makes come one behind the other. -/
theorem mmapLoop_changes {f addr0 : Nat} (hop : op = .mmap f addr0) {mapId : Int}
    (hid : mapId ≠ mapFailed) :
    ∀ {cnt : Nat} {st : Vm} {curOfs addr remain : Nat}, PageInv st → (st.process t).isSome →
      st.file f = st0.file f → cnt = (remain + pgsize - 1) / pgsize →
      (remain = 0 ∨ curOfs + remain = (st.file f).length) →
      (∀ t' u' e', st.getSupPte t' u' = some e' → (st.spte e').mmapId ≠ mapFailed →
        (st.spte e').file = some f → (st0.getSupPte t' u' = some e' ∧ st0.spte e' = st.spte e') ∨
          (st.spte e').fileOfs + (st.spte e').readBytes ≤ curOfs) →
      Changes st0 t op st (mmapLoop t f mapId cnt st curOfs addr remain).2
  | 0, _, _, _, _, _, _, _, _, _, _ => .refl
  | cnt + 1, st, curOfs, addr, remain, h, hprocess, hfile, hcnt, hrange, hold => by
    obtain ⟨hinside, hcnt', hrange'⟩ := mmap_round hcnt hrange
    cases he : st.getSupPte t addr with
    | some e => rw [mmapLoop_of_some he]
    | none =>
      rw [mmapLoop_of_none he]
      have hchange : Change st0 t op st
          ((st.addSpte t (mapSpte f curOfs addr (min remain pgsize) mapId)).pushMapped t
            st.nextSpte) :=
        .mapEntry hprocess he rfl hid rfl (Nat.add_sub_of_le (Nat.min_le_right ..))
          hinside hfile hop hold
      refine .head hchange (mmapLoop_changes hop hid (h.change hchange) ?_ hfile hcnt' hrange'
        fun t' u' e' he' hid' hf' => ?_)
      · refine (isSome_process_modifyProcess ..).trans ?_
        exact (isSome_process_modifyProcess (st.modifySpte ..) ..).trans hprocess
      · rw [getSupPte_pushMapped, getSupPte_addSpte] at he'
        split at he'
        next heq =>
          obtain ⟨-, -, rfl⟩ := Option.map_eq_some_iff.mp he'
          refine .inr ?_
          have hself := spte_addSpte_self st t (mapSpte f curOfs addr (min remain pgsize) mapId)
          rw [show ((st.addSpte t _).pushMapped t st.nextSpte).spte st.nextSpte = _ from hself]
          exact Nat.add_le_add_left (Nat.min_le_right ..) _
        next =>
          have hlt := (h.keyed t' u' e' he').2
          have hspte : ∀ s, ((st.addSpte t s).pushMapped t st.nextSpte).spte e' = st.spte e' :=
            fun s => spte_addSpte_of_lt t s hlt
          rw [hspte] at hid' hf' ⊢
          exact (hold t' u' e' he' hid' hf').imp_right (Nat.le_add_right_of_le ·)

theorem mmap_changes (h : PageInv st) (t f addr : Nat) :
    Changes st t (.mmap f addr) st (st.mmap t f addr) := by
  rw [mmap]
  split
  next => exact .refl
  next p hprocess =>
    have hloop : Changes st t (.mmap f addr) st (mmapLoop t f p.mmapCount
        (((st.file f).length + pgsize - 1) / pgsize) st 0 addr (st.file f).length).2 :=
      mmapLoop_changes rfl (by unfold mapFailed; omega) h (by rw [hprocess, Option.isSome_some])
        rfl rfl (.inr (Nat.zero_add _)) fun t' u' e' he' _ _ => .inl ⟨he', rfl⟩
    dsimp only
    split
    next heq =>
      rw [heq] at hloop
      exact hloop
    next heq =>
      rw [heq] at hloop
      exact hloop.tail (.adjust _ (fun _ => rfl) (fun _ => rfl) (fun _ => rfl) fun _ hl => hl)

theorem writeBackIf_dropMapped (st : Vm) (t e : Nat) (dirty : Bool) :
    (st.dropMapped t e).writeBackIf t e dirty =
      (st.writeBackIf t e dirty).map (·.dropMapped t e) := by
  have hpage : (st.dropMapped t e).getPage t (st.spte e).upage = st.getPage t (st.spte e).upage :=
    getPage_congr (pte_dropMapped ..)
  rw [writeBackIf, writeBackIf]
  split
  next =>
    simp only [writeBack, show (st.dropMapped t e).spte = st.spte from rfl, hpage]
    cases (st.spte e).file with
    | none => rfl
    | some f =>
      simp only [show (st.dropMapped t e).refuses f = st.refuses f from rfl]
      cases st.refuses f with
      | true => rfl
      | false => cases st.getPage t (st.spte e).upage <;> rfl
  next => rfl

theorem frameFree_pageRemove (hst : (st.pageRemove t u).frameFree k = .ok st') :
    ∃ st1, st.frameFree k = .ok st1 ∧ st' = st1.pageRemove t u := by
  rw [frameFree] at hst ⊢
  rw [show (st.pageRemove t u).frameTable = st.frameTable from rfl] at hst
  split at hst
  next hnone =>
    cases hst
    exact ⟨st, rfl, rfl⟩
  next fte hsome =>
    obtain ⟨st1, hfree, heq⟩ := bind_eq_ok.mp hst
    cases heq
    obtain ⟨hbit, rfl⟩ := pallocFreePage_eq_ok.mp hfree
    refine ⟨_, bind_eq_ok.mpr ⟨_, pallocFreePage_eq_ok.mpr ⟨hbit, rfl⟩, rfl⟩, rfl⟩

/-- `SYS_MUNMAP` writes a page that is present back and frees its frame, as exit does, and then
removes the entry. -/
theorem munmapEntry_present (hst : munmapEntry t id st e = .ok st')
    (hid : (st.spte e).mmapId = id) (hmapped : (st.spte e).mmapId ≠ mapFailed)
    (hk : st.getPage t (st.spte e).upage = some k) :
    ∃ st1 st2, st.closeMapping t e = .ok st1 ∧
      (st1.clearPage t (st.spte e).upage).frameFree k = .ok st2 ∧
      st' = st2.pageRemove t (st.spte e).upage := by
  rcases munmapEntry_eq_ok hst with ⟨hne, -⟩ | ⟨-, ⟨hnone, -⟩ | ⟨k', st1, hk', hback, hfree⟩⟩
  · exact absurd hid hne
  · rw [hk] at hnone
    cases hnone
  · obtain rfl := Option.mem_unique hk hk'
    rw [writeBackIf_dropMapped] at hback
    obtain ⟨st2, hfreed, rfl⟩ := frameFree_pageRemove hfree
    cases hwritten : st.writeBackIf t e (st.isDirty t (st.spte e).upage) with
    | error stop =>
      rw [hwritten] at hback
      cases hback
    | ok st3 =>
      rw [hwritten] at hback
      cases hback
      refine ⟨_, st2, ?_, hfreed, rfl⟩
      rw [closeMapping, if_neg hmapped]
      exact bind_eq_ok.mpr ⟨st3, hwritten, rfl⟩

theorem PageInv.close (h : PageInv st) (hentry : st.getSupPte t u = some e)
    (hk : st.getPage t u = some k) (hclose : st.closeMapping t e = .ok st1)
    (hfree : (st1.clearPage t u).frameFree k = .ok st') :
    Unmapped st1 t u k e (st.spte e) st' ∧ st'.spte = st.spte ∧
      st' = { (st1.clearPage t u).freedPage k with
        frameTable := st1.frameTable.eraseP (·.kpage = k) } := by
  have hspte := spte_closeMapping hclose
  obtain ⟨-, hun, rfl⟩ := (h.closeMapping hclose).release
    ((getSupPte_closeMapping hclose ..).trans hentry) ((getPage_closeMapping hclose ..).trans hk)
    hfree
  exact ⟨hspte ▸ hun, hspte, rfl⟩

/-- An entry is in neither the table nor the list any more. -/
structure EntryGone (st : Vm) (t e : Nat) (st' : Vm) : Prop where
  getSupPte : ∀ t' u', st'.getSupPte t' u' =
    if t' = t ∧ u' = (st.spte e).upage then none else st.getSupPte t' u'
  mappedList : ∀ t', st'.mappedList t' =
    if t' = t then (st.mappedList t).erase e else st.mappedList t'
  spte : st'.spte = st.spte

theorem mappedList_close (h : PageInv st) (hentry : st.getSupPte t u = some e)
    (hk : st.getPage t u = some k) (hmapped : (st.spte e).mmapId ≠ mapFailed)
    (hclose : st.closeMapping t e = .ok st1) (hfree : (st1.clearPage t u).frameFree k = .ok st')
    (t' : Nat) : st'.mappedList t' =
      if t' = t then (st.mappedList t).erase e else st.mappedList t' := by
  obtain ⟨-, -, rfl⟩ := h.close hentry hk hclose hfree
  rcases closeMapping_eq_ok hclose with ⟨hfailed, -⟩ | ⟨-, st2, hback, rfl⟩
  · exact absurd hfailed hmapped
  · refine (mappedList_modifyPte _ t _ _ t').trans ?_
    have hlist : ∀ t', st2.mappedList t' = st.mappedList t' := fun t' => by
      rw [mappedList, (sameTables_writeBackIf hback).process, mappedList]
    rw [mappedList_dropMapped, hlist, hlist]

theorem munmapEntry_changes (st0 : Vm) (h : PageInv st) (hlisted : e ∈ st.mappedList t)
    (hop : op.closes = true) (hst : munmapEntry t id st e = .ok st') :
    Changes st0 t op st st' ∧
      (((st.spte e).mmapId ≠ id ∧ st' = st) ∨
        ((st.spte e).mmapId = id ∧ EntryGone st t e st')) := by
  obtain ⟨hentry, hmapped⟩ := h.listed t e hlisted
  have hhome : (st.spte e).swapped = false := by
    cases hswapped : (st.spte e).swapped with
    | false => rfl
    | true => exact absurd (h.away t _ e hentry hswapped).mmapId hmapped
  -- The entries that stay in the list have other pages.
  have hothers : ∀ e' ∈ (st.mappedList t).erase e, (st.spte e').upage ≠ (st.spte e).upage :=
    fun e' he' heq => by
      have hentry' := (h.listed t e' (List.mem_of_mem_erase he')).1
      rw [heq, hentry] at hentry'
      exact ((h.listNodup t).mem_erase_iff.mp he').1 (Option.some_inj.mp hentry').symm
  by_cases hid : (st.spte e).mmapId = id
  · cases hk : st.getPage t (st.spte e).upage with
    | none =>
      rcases munmapEntry_eq_ok hst with ⟨hne, -⟩ | ⟨-, ⟨-, rfl⟩ | ⟨k, st1, hk', -⟩⟩
      · exact absurd hid hne
      · refine ⟨.tail (.single (.drop e hop)) (.remove ((getSupPte_dropMapped ..).trans hentry)
          ((getPage_congr (pte_dropMapped ..)).trans hk) hhome ?_ hop),
          .inr ⟨hid, fun t' u' => ?_, fun t' => ?_, rfl⟩⟩
        · rw [mappedList_dropMapped, if_pos rfl]
          exact hothers
        · rw [getSupPte_pageRemove, getSupPte_dropMapped]
        · rw [mappedList_pageRemove, mappedList_dropMapped]
      · rw [hk] at hk'
        cases hk'
    | some k =>
      obtain ⟨st1, st2, hclose, hfree, rfl⟩ := munmapEntry_present hst hid hmapped hk
      obtain ⟨hun, hspte, -⟩ := h.close hentry hk hclose hfree
      have hlist := mappedList_close h hentry hk hmapped hclose hfree
      refine ⟨.tail (.single (.close hentry hk hclose hfree hop))
        (.remove (e := e) ?_ ?_ ?_ ?_ hop), .inr ⟨hid, fun t' u' => ?_, fun t' => ?_, hspte⟩⟩
      · rw [hun.getSupPte, getSupPte_closeMapping hclose, hentry]
      · rw [hun.getPage, if_pos ⟨rfl, rfl⟩]
      · rw [hspte, hhome]
      · rw [hlist, if_pos rfl, hspte]
        exact hothers
      · rw [getSupPte_pageRemove, hun.getSupPte, getSupPte_closeMapping hclose]
      · rw [mappedList_pageRemove, hlist]
  · rcases munmapEntry_eq_ok hst with ⟨hne, rfl⟩ | ⟨heq, -⟩
    · exact ⟨.refl, .inl ⟨hne, rfl⟩⟩
    · exact absurd heq hid

/-- What the loop of `SYS_MUNMAP` has done, with the entries `rest` still to come. -/
structure Closes (st : Vm) (t : Nat) (id : Int) (rest : List Nat) (st' : Vm) : Prop where
  spte : st'.spte = st.spte
  getSupPte : ∀ t' u' e', st'.getSupPte t' u' = some e' → st.getSupPte t' u' = some e'
  mappedList : ∀ t' u' e', st'.getSupPte t' u' = some e' → e' ∈ st.mappedList t' →
    e' ∈ st'.mappedList t'
  gone : ∀ u' e', st'.getSupPte t u' = some e' → e' ∈ st.mappedList t → (st.spte e').mmapId = id →
    e' ∈ rest

theorem Closes.pass (h : Closes st0 t id (e :: rest) st)
    (hne : (st.spte e).mmapId ≠ id) : Closes st0 t id rest st := by
  refine ⟨h.spte, h.getSupPte, h.mappedList, fun u' e' he' hlist hid => ?_⟩
  refine (List.mem_cons.mp (h.gone u' e' he' hlist hid)).resolve_left ?_
  rintro rfl
  exact hne (h.spte ▸ hid)

theorem Closes.entry (h : Closes st0 t id (e :: rest) st)
    (hinv : PageInv st) (hentry : st.getSupPte t (st.spte e).upage = some e)
    (hgone : EntryGone st t e st') : Closes st0 t id rest st' := by
  have hold : ∀ {t' u' e'}, st'.getSupPte t' u' = some e' → st.getSupPte t' u' = some e' ∧ e' ≠ e :=
    fun {t' u' e'} he' => by
      rw [hgone.getSupPte] at he'
      split at he'
      next => cases he'
      next hne =>
        refine ⟨he', ?_⟩
        rintro rfl
        obtain ⟨rfl, rfl⟩ := hinv.key_eq hentry he'
        exact hne ⟨rfl, rfl⟩
  refine ⟨hgone.spte.trans h.spte, fun t' u' e' he' => h.getSupPte t' u' e' (hold he').1,
    fun t' u' e' he' hlist => ?_, fun u' e' he' hlist hid => ?_⟩
  · have hmem := h.mappedList t' u' e' (hold he').1 hlist
    rw [hgone.mappedList]
    split
    next heq => exact (List.mem_erase_of_ne (hold he').2).mpr (heq ▸ hmem)
    next => exact hmem
  · exact (List.mem_cons.mp (h.gone u' e' (hold he').1 hlist hid)).resolve_left (hold he').2

/-- **`SYS_MUNMAP`.** -/
theorem munmap_changes (h : PageInv st) (hop : op.closes = true)
    (hst : st.munmap t id = .ok st') : Changes st t op st st' ∧ Closes st t id [] st' := by
  rw [munmap] at hst
  split at hst
  next => cases hst
  next p hprocess =>
    split at hst
    next => cases hst
    next =>
      have hlist : st.mappedList t = p.mmapList := by rw [mappedList, hprocess]; rfl
      -- The entries that are still to come are in the list, which has none of them twice.
      have hloop := foldlM_induction
        (P := fun rest s => (Changes st t op st s ∧ rest.Nodup) ∧
          (∀ e ∈ rest, e ∈ s.mappedList t) ∧ Closes st t id rest s)
        (fun e rest s s' hs hentry => by
          obtain ⟨⟨hchanges, hnodup⟩, hmem, hcloses⟩ := hs
          have hinv := h.changes hchanges
          have he := hmem e (.head _)
          rw [List.nodup_cons] at hnodup
          obtain ⟨hround, hgone⟩ := munmapEntry_changes st hinv he hop hentry
          refine ⟨⟨hchanges.trans hround, hnodup.2⟩, ?_⟩
          rcases hgone with ⟨hne, rfl⟩ | ⟨-, hgone⟩
          · exact ⟨fun e' he' => hmem e' (.tail _ he'), hcloses.pass hne⟩
          · refine ⟨fun e' he' => ?_, hcloses.entry hinv (hinv.listed t e he).1 hgone⟩
            have hne : e' ≠ e := fun heq => hnodup.1 (heq ▸ he')
            rw [hgone.mappedList, if_pos rfl]
            exact (List.mem_erase_of_ne hne).mpr (hmem e' (.tail _ he')))
        ⟨⟨.refl, hlist ▸ h.listNodup t⟩, fun e he => hlist ▸ he, rfl, fun _ _ _ he => he,
          fun _ _ _ _ hmem => hmem, fun _ _ _ hmem _ => hlist ▸ hmem⟩ hst
      exact ⟨hloop.1.1, hloop.2.2⟩

/-! ## Exit -/

/-- The swap disk and its table are the same, and so is the history. -/
structure SameSwap (st st' : Vm) : Prop where
  swapTable : st'.swapTable = st.swapTable
  swapDisk : st'.swapDisk = st.swapDisk
  saved : st'.saved = st.saved

theorem sameSwap_writeBackIf {dirty : Bool} (h : st.writeBackIf t e dirty = .ok st') :
    SameSwap st st' := by
  obtain ⟨file, rfl⟩ := file_writeBackIf h
  exact ⟨rfl, rfl, rfl⟩

theorem sameSwap_closeMapping (h : st.closeMapping t e = .ok st') : SameSwap st st' := by
  rcases closeMapping_eq_ok h with ⟨-, rfl⟩ | ⟨-, st1, hback, rfl⟩
  · exact ⟨rfl, rfl, rfl⟩
  · obtain ⟨htable, hdisk, hsaved⟩ := sameSwap_writeBackIf hback
    exact ⟨htable, hdisk, hsaved⟩

theorem PageInv.sameSwap_close (h : PageInv st) (hentry : st.getSupPte t u = some e)
    (hk : st.getPage t u = some k) (hclose : st.closeMapping t e = .ok st1)
    (hfree : (st1.clearPage t u).frameFree k = .ok st') : SameSwap st st' := by
  obtain ⟨-, -, rfl⟩ := h.close hentry hk hclose hfree
  obtain ⟨htable, hdisk, hsaved⟩ := sameSwap_closeMapping hclose
  exact ⟨htable, hdisk, hsaved⟩

theorem process_modifyProcess_of_ne (hne : t' ≠ t) (st : Vm) (f : Process → Process) :
    (st.modifyProcess t f).process t' = st.process t' := Function.update_of_ne hne ..

theorem process_closeMapping_of_ne (hne : t' ≠ t) (h : st.closeMapping t e = .ok st') :
    st'.process t' = st.process t' := by
  rcases closeMapping_eq_ok h with ⟨-, rfl⟩ | ⟨-, st1, hback, rfl⟩
  · rfl
  · exact (process_modifyProcess_of_ne hne ..).trans
      (congrFun (sameTables_writeBackIf hback).process t')

/-- **A round of `page_table_remove`**: the page is closed, if it is present, and then its slot on
the swap disk is given back. -/
theorem PageInv.pageTableFree (st0 : Vm) (op : VmOp) (h : PageInv st) (hop : op.closes = true)
    (hst : Vm.pageTableFree t st u = .ok st') :
    ∃ e st1, st.getSupPte t u = some e ∧ Changes st0 t op st st1 ∧ st1.freeSlot e = .ok st' ∧
      st1.spte = st.spte ∧ (∀ t' u', st1.getSupPte t' u' = st.getSupPte t' u') ∧
      SameSwap st st1 ∧ ∀ t', t' ≠ t → st1.process t' = st.process t' := by
  obtain ⟨e, he, hst⟩ := pageTableFree_eq_ok hst
  rw [(h.keyed t u e he).1] at hst
  rcases hst with ⟨hnone, hslot⟩ | ⟨k, st1, st2, hk, hclose, hfree, hslot⟩
  · exact ⟨e, st, he, .refl, hslot, rfl, fun _ _ => rfl, ⟨rfl, rfl, rfl⟩, fun _ _ => rfl⟩
  · obtain ⟨hun, hspte, hresult⟩ := h.close he hk hclose hfree
    refine ⟨e, st2, he, .single (.close he hk hclose hfree hop), hslot, hspte,
      fun t' u' => (hun.getSupPte t' u').trans (getSupPte_closeMapping hclose t' u'),
      h.sameSwap_close he hk hclose hfree, fun t' hne => ?_⟩
    subst hresult
    exact (process_modifyProcess_of_ne hne ..).trans (process_closeMapping_of_ne hne hclose)

theorem sameTables_freeSlot (h : st.freeSlot e = .ok st') : SameTables st st' := by
  rcases freeSlot_eq_ok h with ⟨-, rfl⟩ | ⟨-, -, rfl⟩ <;> exact ⟨rfl, rfl, rfl, rfl, rfl, rfl⟩

theorem SameTables.pte (h : SameTables st st') (t u : Nat) : st'.pte t u = st.pte t u := by
  rw [Vm.pte, h.process, Vm.pte]

theorem SameTables.getSupPte (h : SameTables st st') (t u : Nat) :
    st'.getSupPte t u = st.getSupPte t u := by
  rw [Vm.getSupPte, h.process, Vm.getSupPte]

theorem mem_order (h : PageInv st) {p : Process}
    (hprocess : st.process t = some p) (horder : order.Perm p.supPageTable.keys) :
    (∀ u, u ∈ order ↔ (st.getSupPte t u).isSome) ∧ order.Nodup ∧
      ∀ u, (st.getPage t u).isSome → u ∈ order := by
  have hmem : ∀ u, u ∈ order ↔ (st.getSupPte t u).isSome := fun u => by
    rw [getSupPte, hprocess, Option.bind_some, AList.lookup_isSome]
    exact horder.mem_iff.trans AList.mem_keys.symm
  exact ⟨hmem, horder.nodup_iff.mpr p.supPageTable.nodupKeys,
    fun u hsome => (hmem u).mpr (h.covered t u hsome)⟩

theorem PageInv.setProcess (h : PageInv st) (hp : NoTables p)
    (hnone : ∀ u, st.getPage t u = none) (hlist : ∀ x, p = some x → x.mmapList = []) :
    PageInv (st.setProcess t p) := by
  have hsup := getSupPte_setProcess hp st t
  have hpage : ∀ t' u', t' ≠ t → (st.setProcess t p).getPage t' u' = st.getPage t' u' :=
    fun t' u' hne => getPage_congr (by rw [pte_setProcess hp, if_neg hne])
  have hmapped : ∀ t', (st.setProcess t p).mappedList t' =
      if t' = t then [] else st.mappedList t' := fun t' => by
    rw [mappedList, process_setProcess]
    split
    next =>
      cases p with
      | none => rfl
      | some x => exact hlist x rfl
    next => rfl
  refine ⟨h.toIsoInv.setProcess t hp, fun fte hfte => ?_, fun t1 u1 t2 u2 e h1 h2 => ?_,
    fun t' u' e he hsw => ?_, fun t' => ?_, fun t' e he => ?_⟩
  · have hold := h.entries fte hfte
    rw [hpage]
    · exact hold
    · rintro rfl
      rw [hnone] at hold
      cases hold
  · rw [hsup, Option.ite_none_left_eq_some] at h1 h2
    exact h.owner t1 u1 t2 u2 e h1.2 h2.2
  · rw [hsup, Option.ite_none_left_eq_some] at he
    obtain ⟨hloaded, hid, habsent, htable⟩ := h.away t' u' e he.2 hsw
    refine ⟨hloaded, hid, by rwa [hpage _ _ he.1], ?_⟩
    rwa [pte_setProcess hp, if_neg he.1]
  · rw [hmapped]
    split
    · exact List.nodup_nil
    · exact h.listNodup t'
  · rw [hmapped] at he
    split at he
    next => cases he
    next hne =>
      rw [hsup, if_neg hne]
      exact h.listed t' e he

/-! ## Other processes -/

section

variable (h : PageInv st)
include h

section

variable (hc : Change st0 t op st st')
include hc

theorem PageInv.process_of_ne (hne : t' ≠ t) : Settled st st' ∨ st'.process t' = st.process t' := by
  cases hc with
  | evict hev => exact .inl (h.settled hev)
  | stack hget =>
    obtain ⟨idx, -, -, -, rfl⟩ := pallocGetPage_eq_some hget
    exact .inr (process_modifyProcess_of_ne hne ..)
  | unused hget hfree => exact .inr (congrFun (h.unused hget hfree).2.1 t')
  | swapIn hget =>
    obtain ⟨idx, -, -, -, rfl⟩ := pallocGetPage_eq_some hget
    exact .inr ((process_modifyProcess_of_ne hne ..).trans (process_modifyProcess_of_ne hne ..))
  | load hget =>
    obtain ⟨idx, -, -, -, rfl⟩ := pallocGetPage_eq_some hget
    exact .inr (process_modifyProcess_of_ne hne ..)
  | entry => exact .inr (process_modifyProcess_of_ne hne ..)
  | unload => exact .inr rfl
  | mapEntry =>
    exact .inr ((process_modifyProcess_of_ne hne ..).trans (process_modifyProcess_of_ne hne ..))
  | adjust => exact .inr (process_modifyProcess_of_ne hne ..)
  | close hentry hk hclose hfree =>
    obtain ⟨-, -, rfl⟩ := h.close hentry hk hclose hfree
    exact .inr ((process_modifyProcess_of_ne hne ..).trans (process_closeMapping_of_ne hne hclose))
  | drop => exact .inr (process_modifyProcess_of_ne hne ..)
  | remove => exact .inr (process_modifyProcess_of_ne hne ..)
  | store _ hst =>
    obtain ⟨k, -, rfl⟩ := store_eq_ok hst
    exact .inr (process_modifyProcess_of_ne hne ..)
  | write _ hst => exact .inr (congrFun (sameTables_write hst).process t')
  | deny _ hst =>
    cases hst
    exact .inr rfl

theorem PageInv.mmapId_change (he : e < st.nextSpte) :
    (st'.spte e).mmapId = (st.spte e).mmapId := by
  cases hc with
  | evict hev => exact (h.settled hev).mmapId e
  | stack hget =>
    obtain ⟨idx, -, -, -, rfl⟩ := pallocGetPage_eq_some hget
    rfl
  | unused hget hfree => rw [(h.unused hget hfree).2.2.1]
  | swapIn hget =>
    obtain ⟨idx, -, -, -, rfl⟩ := pallocGetPage_eq_some hget
    refine field_modifySpte SupPte.mmapId _ _ _ ?_ e
    exact fun _ => rfl
  | load hget =>
    obtain ⟨idx, -, -, -, rfl⟩ := pallocGetPage_eq_some hget
    refine field_modifySpte SupPte.mmapId _ _ _ ?_ e
    exact fun _ => rfl
  | entry => rw [spte_addSpte_of_lt _ _ he]
  | unload =>
    refine field_modifySpte SupPte.mmapId _ _ _ ?_ e
    exact fun _ => rfl
  | mapEntry => exact congrArg SupPte.mmapId (spte_addSpte_of_lt t _ he)
  | adjust => rfl
  | close hentry hk hclose hfree => rw [(h.close hentry hk hclose hfree).2.1]
  | drop => rfl
  | remove => rfl
  | store _ hst =>
    obtain ⟨k, -, rfl⟩ := store_eq_ok hst
    rfl
  | write _ hst => rw [(sameTables_write hst).spte]
  | deny _ hst =>
    cases hst
    rfl

theorem PageInv.fresh_change (hne : t' ≠ t) (hfresh : Fresh st t') : Fresh st' t' := by
  rcases h.process_of_ne hc hne with hsettled | hprocess
  · exact hfresh.of_settled hsettled
  · refine ⟨fun u => ?_, fun u e he => ?_⟩
    · rw [pte, hprocess]
      exact hfresh.pte u
    · rw [getSupPte, hprocess] at he
      rw [h.mmapId_change hc (h.keyed t' u e he).2]
      exact hfresh.mmapId u e he

theorem PageInv.isLoading_change (hl : st'.isLoading t' = true) : st.isLoading t' = true := by
  by_cases hne : t' = t
  · subst hne
    cases hc with
    | evict hev => rwa [(h.settled hev).isLoading] at hl
    | stack hget =>
      obtain ⟨idx, -, -, -, rfl⟩ := pallocGetPage_eq_some hget
      rwa [isLoading_mapPage] at hl
    | unused hget hfree => rwa [isLoading, (h.unused hget hfree).2.1] at hl
    | swapIn hget =>
      obtain ⟨idx, -, -, -, rfl⟩ := pallocGetPage_eq_some hget
      exact ((isLoading_modifyPte ..).trans (isLoading_mapPage ..)).symm.trans hl
    | load hget =>
      obtain ⟨idx, -, -, -, rfl⟩ := pallocGetPage_eq_some hget
      exact (isLoading_mapPage ..).symm.trans hl
    | entry => rwa [isLoading_addSpte] at hl
    | unload => exact hl
    | mapEntry => rwa [isLoading_pushMapped, isLoading_addSpte] at hl
    | adjust f _ _ _ hloading =>
      rw [isLoading, process_modifyProcess, if_pos rfl, Option.any_map, Option.any_eq_true] at hl
      obtain ⟨p, hp, hl⟩ := hl
      rw [isLoading, hp]
      exact hloading p hl
    | close hentry hk hclose hfree =>
      obtain ⟨-, -, rfl⟩ := h.close hentry hk hclose hfree
      have hl := (isLoading_modifyPte _ _ _ _ _).symm.trans hl
      rcases closeMapping_eq_ok hclose with ⟨-, rfl⟩ | ⟨-, st1, hback, rfl⟩
      · exact hl
      · rwa [isLoading_dropMapped, isLoading, (sameTables_writeBackIf hback).process] at hl
    | drop => rwa [isLoading_dropMapped] at hl
    | remove => rwa [isLoading_pageRemove] at hl
    | store _ hst =>
      obtain ⟨k, -, rfl⟩ := store_eq_ok hst
      exact (isLoading_modifyPte _ _ _ _ _).symm.trans hl
    | write _ hst => rwa [isLoading, (sameTables_write hst).process] at hl
    | deny _ hst =>
      cases hst
      exact hl
  · rcases h.process_of_ne hc hne with hsettled | hprocess
    · rwa [hsettled.isLoading] at hl
    · rwa [isLoading, hprocess] at hl

end

theorem PageInv.fresh_changes (hc : Changes st0 t op st st') :
    (∀ t', st'.isLoading t' = true → st.isLoading t' = true) ∧
      ∀ t', t' ≠ t → Fresh st t' → Fresh st' t' := by
  have hall : PageInv st' ∧ (∀ t', st'.isLoading t' = true → st.isLoading t' = true) ∧
      ∀ t', t' ≠ t → Fresh st t' → Fresh st' t' := by
    induction hc with
    | refl => exact ⟨h, fun _ hl => hl, fun _ _ hf => hf⟩
    | tail _ hlast ih =>
      obtain ⟨hinv, hloading, hfresh⟩ := ih
      exact ⟨hinv.change hlast, fun t' hl => hloading t' (hinv.isLoading_change hlast hl),
        fun t' hne hf => hinv.fresh_change hlast hne (hfresh t' hne hf)⟩
  exact hall.2

end

theorem Fresh.of_sameTables (h : Fresh st t) (hs : SameTables st st') : Fresh st' t := by
  refine ⟨fun u => (hs.pte t u).trans (h.pte u), fun u e he => ?_⟩
  rw [hs.getSupPte] at he
  rw [hs.spte]
  exact h.mmapId u e he

/-! ## Steps -/

/-- **The end of a process**: a round for each of its entries, after which none of its pages is
present. -/
structure Exits (st : Vm) (t : Nat) (order : List Nat) (st₁ st' : Vm) : Prop where
  mem_order : ∀ u, u ∈ order ↔ (st.getSupPte t u).isSome
  nodup : order.Nodup
  rounds : order.foldlM (Vm.pageTableFree t) st = .ok st₁
  absent : ∀ u, st₁.getPage t u = none
  result : st' = st₁.setProcess t none

theorem PageInv.exits (h : PageInv st) (henabled : st.enabled t (.exit order))
    (hst : st.exec t (.exit order) = .ok st') : ∃ st1, Exits st t order st1 st' := by
  rw [enabled, Option.any_eq_true] at henabled
  obtain ⟨p, hprocess, hperm⟩ := henabled
  obtain ⟨hmem, hnodup, hpresent⟩ := mem_order h hprocess (List.isPerm_iff.mp hperm)
  obtain ⟨st1, hremove, hdestroy⟩ := bind_eq_ok.mp hst
  have habsent := (h.toIsoInv.pageTableRemove hpresent hremove).2
  exact ⟨st1, hmem, hnodup, hremove, habsent, pagedirDestroy_of_none habsent hdestroy⟩

/-- What a step is: a sequence of changes, the birth of a process or its end. -/
inductive Stepped (st : Vm) (t : Nat) : VmOp → Vm → Prop
  | changes {op : VmOp} {st' : Vm} (hc : Changes st t op st st')
      (hfresh : st'.isLoading t = true → Fresh st' t) : Stepped st t op st'
  | spawned (hprocess : st.process t = none) :
      Stepped st t .spawn (st.setProcess t (some ⟨∅, ∅, [], 0, true⟩))
  | exited {order : List Nat} {st₁ st' : Vm} (hexits : Exits st t order st₁ st') :
      Stepped st t (.exit order) st'

theorem process_of_isUser (h : st.isUser t = true) :
    (st.process t).isSome ∧ st.isLoading t = false := by
  rw [isUser, Option.any_eq_true] at h
  obtain ⟨p, hp, hloading⟩ := h
  rw [isLoading, hp]
  exact ⟨rfl, by simpa using hloading⟩

theorem process_of_isLoading (h : st.isLoading t = true) : (st.process t).isSome := by
  rw [isLoading, Option.any_eq_true] at h
  obtain ⟨p, hp, -⟩ := h
  rw [hp, Option.isSome_some]

/-- **What a step is made of.** -/
theorem PageInv.stepped (h : PageInv st) (hun : Unloaded st)
    (henabled : st.enabled t op = true) (hwork : st.loadsWork (t, op) = true)
    (hst : st.exec t op = .ok st') : Stepped st t op st' := by
  -- A process that is not in `load` does not come back to it.
  have huser : Changes st t op st st' → st.isUser t = true → Stepped st t op st' := fun hc hu => by
    refine .changes hc fun hl => ?_
    have hold := (h.fresh_changes hc).1 t hl
    rw [(process_of_isUser hu).2] at hold
    cases hold
  cases op with
  | spawn =>
    cases hst
    exact .spawned (Option.isNone_iff_eq_none.mp henabled)
  | loadPage f fileOfs upage readBytes writable =>
    simp only [enabled, Bool.and_eq_true] at henabled
    have hl : st.isLoading t = true := henabled.1.1
    obtain ⟨hc, hfresh⟩ := loadPage_changes h (process_of_isLoading hl) (hun t hl) hst
    exact .changes hc fun _ => hfresh
  | setupStack ptFree =>
    have hl : st.isLoading t = true := henabled
    obtain ⟨hc, hfresh⟩ := setupStack_changes (.setupStack ptFree) h rfl
      (process_of_isLoading hl) (hun t hl) hst
    exact .changes hc hfresh
  | fault upage growth ptFree =>
    simp only [enabled, Bool.and_eq_true, Option.isNone_iff_eq_none] at henabled
    exact huser (pageFault_changes h (process_of_isUser henabled.1.1).1 henabled.2 hwork hst)
      henabled.1.1
  | store upage i v =>
    simp only [enabled, Bool.and_eq_true, decide_eq_true_eq] at henabled
    exact huser (.single (.store henabled.1.2 hst rfl)) henabled.1.1
  | mmap f addr =>
    simp only [enabled, Bool.and_eq_true] at henabled
    cases hst
    exact huser (mmap_changes h t f addr) henabled.1.1.1
  | munmap id => exact huser ((munmap_changes h rfl hst).1) henabled
  | exit order =>
    obtain ⟨st1, hexits⟩ := h.exits henabled hst
    exact .exited hexits
  | write f fileOfs src =>
    have hc : Changes st t (.write f fileOfs src) st st' := .single (.write rfl hst)
    exact .changes hc fun hl =>
      (hun t ((h.fresh_changes hc).1 t hl)).of_sameTables (sameTables_write hst)
  | deny f cnt =>
    have hc : Changes st t (.deny f cnt) st st' := .single (.deny rfl hst)
    cases hst
    exact .changes hc fun hl => (hun t hl).of_sameTables ⟨rfl, rfl, rfl, rfl, rfl, rfl⟩

theorem isLoading_of_sameTables (h : SameTables st st') (t : Nat) :
    st'.isLoading t = st.isLoading t := by rw [isLoading, h.process, isLoading]

/-- **The rounds** at the end of a process keep the invariant. -/
theorem PageInv.rounds (h : PageInv st) (hst : order.foldlM (Vm.pageTableFree t) st = .ok st') :
    PageInv st' ∧ (∀ t', st'.isLoading t' = true → st.isLoading t' = true) ∧
      ∀ t', t' ≠ t → Fresh st t' → Fresh st' t' := by
  refine foldlM_invariant (P := fun s => PageInv s ∧
    (∀ t', s.isLoading t' = true → st.isLoading t' = true) ∧
      ∀ t', t' ≠ t → Fresh st t' → Fresh s t') (fun u _ s s' hs hround => ?_)
    ⟨h, fun _ hl => hl, fun _ _ hf => hf⟩ hst
  obtain ⟨hinv, hloading, hfresh⟩ := hs
  obtain ⟨e, s1, -, hc, hslot, -⟩ := hinv.pageTableFree s (.exit order) rfl hround
  have hsame := sameTables_freeSlot hslot
  obtain ⟨hloading', hfresh'⟩ := hinv.fresh_changes hc
  refine ⟨(hinv.changes hc).of_sameTables hsame, fun t' hl => ?_, fun t' hne hf => ?_⟩
  · rw [isLoading_of_sameTables hsame] at hl
    exact hloading t' (hloading' t' hl)
  · exact (hfresh' t' hne (hfresh t' hne hf)).of_sameTables hsame

theorem Unloaded.setProcess (hp : NoTables p)
    (h : ∀ t', t' ≠ t → st.isLoading t' = true → Fresh st t') : Unloaded (st.setProcess t p) := by
  intro t' hl
  refine ⟨fun u => ?_, fun u e he => ?_⟩
  · rw [pte_setProcess hp]
    split
    next => rfl
    next hne =>
      rw [isLoading, process_setProcess, if_neg hne] at hl
      exact (h t' hne hl).pte u
  · rw [getSupPte_setProcess hp, Option.ite_none_left_eq_some] at he
    rw [isLoading, process_setProcess, if_neg he.1] at hl
    exact (h t' he.1 hl).mmapId u e he.2

theorem noTables_none : NoTables none := fun _ h => nomatch h

theorem noTables_empty : NoTables (some ⟨∅, ∅, [], 0, true⟩) := fun _ h => by
  cases h
  exact ⟨rfl, rfl⟩

/-- **Every step whose lazy loading succeeds keeps the invariant.** -/
theorem PageInv.exec (h : PageInv st) (hun : Unloaded st)
    (hst : Stepped st t op st') : PageInv st' ∧ Unloaded st' := by
  cases hst with
  | changes hc hfresh =>
    obtain ⟨hloading, hothers⟩ := h.fresh_changes hc
    refine ⟨h.changes hc, fun t' hl => ?_⟩
    by_cases hne : t' = t
    · exact hne ▸ hfresh (hne ▸ hl)
    · exact hothers t' hne (hun t' (hloading t' hl))
  | spawned hprocess =>
    refine ⟨h.setProcess noTables_empty (fun u => ?_) fun x hx => ?_,
      .setProcess noTables_empty fun t' _ hl => hun t' hl⟩
    · rw [getPage, pte, hprocess]
      rfl
    · cases hx
      rfl
  | exited hexits =>
    obtain ⟨-, -, hrounds, habsent, rfl⟩ := hexits
    obtain ⟨h1, hloading, hothers⟩ := h.rounds hrounds
    exact ⟨h1.setProcess noTables_none habsent (by rintro _ ⟨⟩), .setProcess noTables_none
      fun t' hne hl => hothers t' hne (hun t' (hloading t' hl))⟩

theorem PageInv.of_boot (h : st.Boot) : PageInv st ∧ Unloaded st := by
  have hsup : ∀ t u, st.getSupPte t u = none := fun t u => by rw [getSupPte, h.process]; rfl
  have hlist : ∀ t, st.mappedList t = [] := fun t => by rw [mappedList, h.process]; rfl
  refine ⟨⟨.of_boot h, fun fte hfte => ?_, fun t u t' u' e he => ?_, fun t u e he => ?_,
    fun t => ?_, fun t e he => ?_⟩, fun t hl => ?_⟩
  · rw [h.frameTable] at hfte
    cases hfte
  · rw [hsup] at he
    cases he
  · rw [hsup] at he
    cases he
  · rw [hlist]
    exact List.nodup_nil
  · rw [hlist] at he
    cases he
  · rw [isLoading, h.process] at hl
    cases hl

end Vm

theorem pageInv_of_reach {st : Vm} {G : Vm → Nat × VmOp → Prop}
    (hG : ∀ st i, G st i → st.loadsWork i = true) (h : vmMachine.Reach Vm.Boot G st) :
    st.PageInv ∧ st.Unloaded :=
  h.invariant (fun _ => Vm.PageInv.of_boot) fun _ _ _ _ hinv hg hstep =>
    hinv.1.exec hinv.2 (hinv.1.stepped hinv.2 (vmMachine_step hstep).1 (hG _ _ hg)
      (vmMachine_step hstep).2)

end Pintos
