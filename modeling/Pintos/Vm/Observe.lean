import Pintos.Lib.Outcome
import Pintos.Vm.Model

/-!
# What a step of virtual memory shows

The invariants of virtual memory are about what a state shows: the page table entry of a page
(`Vm.pte`), the frame it is mapped to (`Vm.getPage`), its supplemental page table entry
(`Vm.getSupPte`), and the tables themselves.  Here is what each small change of the state does to
them, and what the calls that may stop have done if they return.

* `pte_modifyPte`, `pte_mapPage`: the two ways in which a page table entry changes.
* `setPage_eq_ok`, `pallocGetPage_eq_some`, `frameFree_eq_ok`, `frameEvict_eq_ok`: the cases of the
  functions that may stop.
-/

namespace Pintos

namespace Vm

open Outcome (bind_eq_ok)

variable {st st' : Vm} {t u k e : Nat} {p : Option Process}

/-! ## Processes -/

section

variable (st : Vm) (t : Nat) (f : Process → Process)

theorem process_modifyProcess (t' : Nat) :
    (st.modifyProcess t f).process t' = if t' = t then (st.process t).map f else st.process t' :=
  Function.update_apply ..

theorem isSome_process_modifyProcess (t' : Nat) :
    ((st.modifyProcess t f).process t').isSome = (st.process t').isSome := by
  rw [process_modifyProcess]
  split
  next h => rw [Option.isSome_map, h]
  next => rfl

theorem pte_modifyProcess (hf : ∀ p, (f p).pagedir = p.pagedir) (t' u' : Nat) :
    (st.modifyProcess t f).pte t' u' = st.pte t' u' := by
  rw [pte, process_modifyProcess]
  split
  next h =>
    rw [Option.bind_map, pte, h]
    exact congrArg _ (funext fun p => congrArg (AList.lookup u') (hf p))
  next => rfl

theorem getSupPte_modifyProcess (hf : ∀ p, (f p).supPageTable = p.supPageTable) (t' u' : Nat) :
    (st.modifyProcess t f).getSupPte t' u' = st.getSupPte t' u' := by
  rw [getSupPte, process_modifyProcess]
  split
  next h =>
    rw [Option.bind_map, getSupPte, h]
    exact congrArg _ (funext fun p => congrArg (AList.lookup u') (hf p))
  next => rfl

end

/-- The list of mapped files of a process. -/
def mappedList (st : Vm) (t : Nat) : List Nat := (st.process t).elim [] (·.mmapList)

/-- The process is in `load`. -/
def isLoading (st : Vm) (t : Nat) : Bool := (st.process t).any (·.loading)

theorem mappedList_modifyProcess (st : Vm) (t : Nat) (f : Process → Process)
    (hf : ∀ p, (f p).mmapList = p.mmapList) (t' : Nat) :
    (st.modifyProcess t f).mappedList t' = st.mappedList t' := by
  rw [mappedList, process_modifyProcess]
  split
  next h =>
    rw [mappedList, h]
    cases st.process t with
    | none => rfl
    | some p => exact hf p
  next => rfl

theorem isLoading_modifyProcess (st : Vm) (t : Nat) (f : Process → Process)
    (hf : ∀ p, (f p).loading = p.loading) (t' : Nat) :
    (st.modifyProcess t f).isLoading t' = st.isLoading t' := by
  rw [isLoading, process_modifyProcess]
  split
  next h =>
    rw [isLoading, h]
    cases st.process t with
    | none => rfl
    | some p => exact hf p
  next => rfl

/-- A process is made, or is gone. -/
def setProcess (st : Vm) (t : Nat) (p : Option Process) : Vm :=
  { st with process := Function.update st.process t p }

theorem process_setProcess (st : Vm) (t : Nat) (p : Option Process) (t' : Nat) :
    (st.setProcess t p).process t' = if t' = t then p else st.process t' :=
  Function.update_apply ..

/-- The tables of a process without pages. -/
def NoTables (p : Option Process) : Prop :=
  ∀ x, p = some x → x.pagedir = ∅ ∧ x.supPageTable = ∅

theorem pte_setProcess (hp : NoTables p) (st : Vm) (t t' u' : Nat) :
    (st.setProcess t p).pte t' u' = if t' = t then none else st.pte t' u' := by
  rw [pte, process_setProcess]
  split
  next =>
    refine Option.bind_eq_none_iff.mpr fun x hx => ?_
    rw [(hp x hx).1, AList.lookup_empty]
  next => rfl

theorem getSupPte_setProcess (hp : NoTables p) (st : Vm) (t t' u' : Nat) :
    (st.setProcess t p).getSupPte t' u' = if t' = t then none else st.getSupPte t' u' := by
  rw [getSupPte, process_setProcess]
  split
  next =>
    refine Option.bind_eq_none_iff.mpr fun x hx => ?_
    rw [(hp x hx).2, AList.lookup_empty]
  next => rfl

/-! ## Page table entries -/

theorem pte_insert (st : Vm) (t u : Nat) (x : Pte) (t' u' : Nat) :
    (st.modifyProcess t fun p => { p with pagedir := p.pagedir.insert u x }).pte t' u' =
      if t' = t ∧ u' = u then (st.process t).map fun _ => x else st.pte t' u' := by
  rw [pte, process_modifyProcess]
  by_cases ht : t' = t
  · subst ht
    rw [if_pos rfl, pte]
    cases st.process t' with
    | none => simp
    | some p =>
      by_cases hu : u' = u
      · subst hu
        simp
      · simp [hu]
  · rw [if_neg ht, if_neg fun h => ht h.1]
    rfl

theorem isSome_process_of_pte {x : Pte} (h : st.pte t u = some x) : (st.process t).isSome := by
  obtain ⟨p, hp, -⟩ := Option.bind_eq_some_iff.mp h
  rw [hp, Option.isSome_some]

theorem pte_modifyPte (st : Vm) (t u : Nat) (f : Pte → Pte) (t' u' : Nat) :
    (st.modifyPte t u f).pte t' u' =
      if t' = t ∧ u' = u then (st.pte t u).map f else st.pte t' u' := by
  rw [pte, modifyPte, process_modifyProcess]
  by_cases ht : t' = t
  · subst ht
    rw [if_pos rfl, pte, pte]
    cases st.process t' with
    | none => simp
    | some p =>
      simp only [Option.map_some, Option.bind_some, true_and]
      by_cases hu : u' = u
      · subst hu
        rw [if_pos rfl]
        cases hlookup : p.pagedir.lookup u' with
        | none => exact hlookup
        | some x => exact AList.lookup_insert _
      · rw [if_neg hu]
        cases p.pagedir.lookup u with
        | none => rfl
        | some x => exact AList.lookup_insert_ne hu
  · rw [if_neg ht, if_neg fun h => ht h.1]
    rfl

theorem getSupPte_modifyPte (st : Vm) (t u : Nat) (f : Pte → Pte) (t' u' : Nat) :
    (st.modifyPte t u f).getSupPte t' u' = st.getSupPte t' u' := by
  refine getSupPte_modifyProcess st t _ ?_ t' u'
  exact fun _ => rfl

theorem mappedList_modifyPte (st : Vm) (t u : Nat) (f : Pte → Pte) (t' : Nat) :
    (st.modifyPte t u f).mappedList t' = st.mappedList t' := by
  refine mappedList_modifyProcess st t _ ?_ t'
  exact fun _ => rfl

theorem isLoading_modifyPte (st : Vm) (t u : Nat) (f : Pte → Pte) (t' : Nat) :
    (st.modifyPte t u f).isLoading t' = st.isLoading t' := by
  refine isLoading_modifyProcess st t _ ?_ t'
  exact fun _ => rfl

theorem getPage_eq_some :
    st.getPage t u = some k ↔ ∃ x, st.pte t u = some x ∧ x.present = true ∧ x.kpage = k := by
  simp only [getPage, Option.bind_eq_some_iff, Option.ite_none_right_eq_some, Option.some_inj]

theorem getPage_congr (h : st'.pte t u = st.pte t u) : st'.getPage t u = st.getPage t u := by
  rw [getPage, getPage, h]

theorem getPage_clearPage (st : Vm) (t u t' u' : Nat) :
    (st.clearPage t u).getPage t' u' = if t' = t ∧ u' = u then none else st.getPage t' u' := by
  rw [getPage, clearPage, pte_modifyPte]
  split
  next =>
    rw [Option.bind_map]
    exact Option.bind_eq_none_iff.mpr fun _ _ => rfl
  next => rfl

theorem getPage_setDirty (st : Vm) (t u t' u' : Nat) :
    (st.setDirty t u).getPage t' u' = st.getPage t' u' := by
  rw [getPage, setDirty, pte_modifyPte]
  split
  next h =>
    rw [h.1, h.2, Option.bind_map]
    rfl
  next => rfl

/-- The mapping that `pagedir_set_page` makes. -/
def mapPage (st : Vm) (t u k : Nat) (writable : Bool) : Vm :=
  st.modifyProcess t fun p => { p with pagedir := p.pagedir.insert u ⟨k, writable, true, false⟩ }

section

variable (st : Vm) (t u k : Nat) (writable : Bool)

theorem pte_mapPage (t' u' : Nat) :
    (st.mapPage t u k writable).pte t' u' =
      if t' = t ∧ u' = u then (st.process t).map fun _ => ⟨k, writable, true, false⟩
      else st.pte t' u' :=
  pte_insert ..

theorem getPage_mapPage (t' u' : Nat) :
    (st.mapPage t u k writable).getPage t' u' =
      if t' = t ∧ u' = u then (st.process t).map fun _ => k else st.getPage t' u' := by
  rw [getPage, pte_mapPage]
  split
  next => cases st.process t <;> rfl
  next => rfl

theorem getSupPte_mapPage (t' u' : Nat) :
    (st.mapPage t u k writable).getSupPte t' u' = st.getSupPte t' u' := by
  refine getSupPte_modifyProcess st t _ ?_ t' u'
  exact fun _ => rfl

theorem mappedList_mapPage (t' : Nat) :
    (st.mapPage t u k writable).mappedList t' = st.mappedList t' := by
  refine mappedList_modifyProcess st t _ ?_ t'
  exact fun _ => rfl

theorem isLoading_mapPage (t' : Nat) :
    (st.mapPage t u k writable).isLoading t' = st.isLoading t' := by
  refine isLoading_modifyProcess st t _ ?_ t'
  exact fun _ => rfl

end

variable {ptFree : Bool} {zero : Bool}

/-- **`pagedir_set_page`** either maps a page that was not present or has no page table. -/
theorem setPage_eq_ok {writable b : Bool} :
    st.setPage t u k writable ptFree = .ok (b, st') ↔
      st.getPage t u = none ∧ b = (st.hasPageTable t u || ptFree) ∧
        st' = if b then st.mapPage t u k writable else st := by
  rw [setPage]
  cases hpage : st.getPage t u with
  | some k' => simp
  | none =>
    cases (st.hasPageTable t u || ptFree) <;> cases b <;>
      simp [mapPage, eq_comm]

/-! ## Supplemental page tables -/

theorem getSupPte_pageRemove (st : Vm) (t u t' u' : Nat) :
    (st.pageRemove t u).getSupPte t' u' =
      if t' = t ∧ u' = u then none else st.getSupPte t' u' := by
  rw [getSupPte, pageRemove, process_modifyProcess]
  by_cases ht : t' = t
  · subst ht
    rw [if_pos rfl, Option.bind_map]
    by_cases hu : u' = u
    · subst hu
      rw [if_pos ⟨rfl, rfl⟩]
      exact Option.bind_eq_none_iff.mpr fun p _ => AList.lookup_erase ..
    · rw [if_neg fun h => hu h.2]
      exact congrArg _ (funext fun p => AList.lookup_erase_ne hu)
  · rw [if_neg ht, if_neg fun h => ht h.1]
    rfl

theorem pte_pageRemove (st : Vm) (t u t' u' : Nat) :
    (st.pageRemove t u).pte t' u' = st.pte t' u' := by
  refine pte_modifyProcess st t _ ?_ t' u'
  exact fun _ => rfl

theorem mappedList_pageRemove (st : Vm) (t u t' : Nat) :
    (st.pageRemove t u).mappedList t' = st.mappedList t' := by
  refine mappedList_modifyProcess st t _ ?_ t'
  exact fun _ => rfl

theorem isLoading_pageRemove (st : Vm) (t u t' : Nat) :
    (st.pageRemove t u).isLoading t' = st.isLoading t' := by
  refine isLoading_modifyProcess st t _ ?_ t'
  exact fun _ => rfl

theorem spte_modifySpte_self (st : Vm) (e : Nat) (f : SupPte → SupPte) :
    (st.modifySpte e f).spte e = f (st.spte e) := Function.update_self ..

theorem spte_modifySpte_of_ne {e' : Nat} (h : e' ≠ e) (st : Vm) (f : SupPte → SupPte) :
    (st.modifySpte e f).spte e' = st.spte e' := Function.update_of_ne h ..

theorem field_modifySpte {α : Type} (g : SupPte → α) (st : Vm) (e : Nat) (f : SupPte → SupPte)
    (hf : ∀ s, g (f s) = g s) (e' : Nat) : g ((st.modifySpte e f).spte e') = g (st.spte e') := by
  by_cases he : e' = e
  · rw [he, spte_modifySpte_self, hf]
  · rw [spte_modifySpte_of_ne he]

/-- The entry that `page_insert` makes. -/
def newSpte (file : Option Nat) (fileOfs upage readBytes zeroBytes : Nat) (writable : Bool) :
    SupPte :=
  ⟨file, upage, readBytes, zeroBytes, writable, fileOfs, false, true, 0, mapFailed⟩

/-- Enter a new entry into the supplemental page table. -/
def addSpte (st : Vm) (t : Nat) (s : SupPte) : Vm :=
  { (st.modifySpte st.nextSpte fun _ => s).modifyProcess t fun p =>
      { p with supPageTable := p.supPageTable.insert s.upage st.nextSpte } with
    nextSpte := st.nextSpte + 1 }

theorem pageInsert_of_some (h : st.getSupPte t u = some e) (file : Option Nat)
    (fileOfs readBytes zeroBytes : Nat) (writable : Bool) :
    st.pageInsert t file fileOfs u readBytes zeroBytes writable = (false, st) := by
  rw [pageInsert, h]

theorem pageInsert_of_none (h : st.getSupPte t u = none) (file : Option Nat)
    (fileOfs readBytes zeroBytes : Nat) (writable : Bool) :
    st.pageInsert t file fileOfs u readBytes zeroBytes writable =
      (true, st.addSpte t (newSpte file fileOfs u readBytes zeroBytes writable)) := by
  rw [pageInsert, h]
  rfl

theorem pte_addSpte (st : Vm) (t : Nat) (s : SupPte) (t' u' : Nat) :
    (st.addSpte t s).pte t' u' = st.pte t' u' := by
  refine pte_modifyProcess (st.modifySpte st.nextSpte fun _ => s) t _ ?_ t' u'
  exact fun _ => rfl

theorem mappedList_addSpte (st : Vm) (t : Nat) (s : SupPte) (t' : Nat) :
    (st.addSpte t s).mappedList t' = st.mappedList t' := by
  refine mappedList_modifyProcess (st.modifySpte st.nextSpte fun _ => s) t _ ?_ t'
  exact fun _ => rfl

theorem isLoading_addSpte (st : Vm) (t : Nat) (s : SupPte) (t' : Nat) :
    (st.addSpte t s).isLoading t' = st.isLoading t' := by
  refine isLoading_modifyProcess (st.modifySpte st.nextSpte fun _ => s) t _ ?_ t'
  exact fun _ => rfl

theorem getSupPte_addSpte (st : Vm) (t : Nat) (s : SupPte) (t' u' : Nat) :
    (st.addSpte t s).getSupPte t' u' =
      if t' = t ∧ u' = s.upage then (st.process t).map fun _ => st.nextSpte
      else st.getSupPte t' u' := by
  have hprocess : (st.addSpte t s).process t' = if t' = t then (st.process t).map fun p =>
      { p with supPageTable := p.supPageTable.insert s.upage st.nextSpte } else st.process t' :=
    process_modifyProcess ..
  rw [getSupPte, hprocess]
  by_cases ht : t' = t
  · subst ht
    rw [if_pos rfl, getSupPte]
    cases st.process t' with
    | none => simp
    | some p =>
      by_cases hu : u' = s.upage
      · subst hu
        simp
      · simp [hu]
  · rw [if_neg ht, if_neg fun h => ht h.1]
    rfl

/-! ## Frames -/

/-- **`palloc_get_page`** takes a page that was free. -/
theorem pallocGetPage_eq_some (h : st.pallocGetPage zero = some (k, st')) :
    ∃ idx, k = st.poolBase + idx ∧ idx < st.userPool.bitCnt ∧ st.userPool.bits idx = false ∧
      st' = { st with
        userPool := st.userPool.mark idx
        mem := if zero then Function.update st.mem k (.fill pgsize 0) else st.mem } := by
  rw [pallocGetPage, Option.map_eq_some_iff] at h
  obtain ⟨⟨idx, usedMap⟩, hscan, heq⟩ := h
  rcases st.userPool.scanAndFlip_one with ⟨hnone, -⟩ | ⟨idx', hsome, hlt, hbit⟩
  · rw [hnone] at hscan
    cases hscan
  · rw [hsome] at hscan
    cases hscan
    cases heq
    exact ⟨idx, rfl, hlt, hbit, rfl⟩

/-- What `palloc_free_page` leaves. -/
def freedPage (st : Vm) (k : Nat) : Vm :=
  { st with
    userPool := st.userPool.setMultiple (k - st.poolBase) 1 false
    mem := Function.update st.mem k (.fill pgsize 0xcc) }

theorem pallocFreePage_eq_ok :
    st.pallocFreePage k = .ok st' ↔
      (st.poolBase ≤ k ∧ st.userPool.bits (k - st.poolBase)) ∧ st' = st.freedPage k := by
  rw [pallocFreePage]
  split
  next h => exact ⟨fun heq => by cases heq; exact ⟨h, rfl⟩, fun heq => by rw [heq.2]; rfl⟩
  next h => exact ⟨nofun, fun heq => absurd heq.1 h⟩

/-- **`frame_free`** either finds no such frame, or frees it and drops its entry. -/
theorem frameFree_eq_ok (h : st.frameFree k = .ok st') :
    ((∀ fte ∈ st.frameTable, fte.kpage ≠ k) ∧ st' = st) ∨
      ((∃ fte ∈ st.frameTable, fte.kpage = k) ∧
        st' = { st.freedPage k with frameTable := st.frameTable.eraseP (·.kpage = k) }) := by
  rw [frameFree] at h
  split at h
  next hnone =>
    cases h
    rw [List.find?_eq_none] at hnone
    exact .inl ⟨fun fte hfte hk => hnone fte hfte (by simpa using hk), rfl⟩
  next fte hsome =>
    obtain ⟨st1, hfree, heq⟩ := bind_eq_ok.mp h
    have hk : fte.kpage = k := by simpa using List.find?_some hsome
    rw [hk, pallocFreePage_eq_ok] at hfree
    obtain ⟨-, rfl⟩ := hfree
    cases heq
    exact .inr ⟨⟨fte, List.mem_of_find?_eq_some hsome, hk⟩, rfl⟩

theorem writeBack_eq_ok (h : st.writeBack t e = .ok st') :
    ∃ f, (st.spte e).file = some f ∧ ((st.refuses f = true ∧ st' = st) ∨
      (st.refuses f = false ∧ ∃ k, st.getPage t (st.spte e).upage = some k ∧
        st' = st.putBytes f ((st.mem k).read 0 (st.spte e).readBytes) (st.spte e).fileOfs)) := by
  simp only [writeBack] at h
  split at h
  next => cases h
  next f hf =>
    refine ⟨f, hf, ?_⟩
    split at h
    next hrefuses =>
      cases h
      exact .inl ⟨hrefuses, rfl⟩
    next hrefuses =>
      split at h
      next => cases h
      next k hk =>
        cases h
        exact .inr ⟨by simpa using hrefuses, k, hk, rfl⟩

variable {dirty : Bool}

theorem writeBackIf_eq_ok (h : st.writeBackIf t e dirty = .ok st') :
    st' = st ∨ (dirty = true ∧ st.writeBack t e = .ok st') := by
  rw [writeBackIf] at h
  split at h
  next hdirty => exact .inr ⟨hdirty, h⟩
  next =>
    cases h
    exact .inl rfl

theorem file_writeBackIf (h : st.writeBackIf t e dirty = .ok st') :
    ∃ file, st' = { st with file := file } := by
  rcases writeBackIf_eq_ok h with rfl | ⟨-, hback⟩
  · exact ⟨_, rfl⟩
  · obtain ⟨f, -, ⟨-, rfl⟩ | ⟨-, k', -, rfl⟩⟩ := writeBack_eq_ok hback <;> exact ⟨_, rfl⟩

/-- What `frame_evict` does with the contents of a page: it writes them to the swap disk, drops
them, or leaves them to the file. -/
inductive Evicted (st : Vm) (t e k : Nat) (dirty : Bool) : Vm → Prop
  /-- The page is not one of a mapped file, and it is dirty. -/
  | swapped (hmmap : (st.spte e).mmapId = mapFailed) (hdirty : dirty = true)
      (hloaded : (st.spte e).loaded = true) {idx : Nat} {st₁ : Vm}
      (hout : st.swapOut k = .ok (idx, st₁)) :
      Evicted st t e k dirty
        ({ st₁ with saved := Function.update st₁.saved e (st₁.mem k) }.modifySpte e
          fun s => { s with swapped := true, swapIndex := idx })
  /-- It is not one of a mapped file, and it is clean. -/
  | dropped (hmmap : (st.spte e).mmapId = mapFailed) (hclean : dirty = false) :
      Evicted st t e k dirty (st.modifySpte e fun s => { s with loaded := false })
  /-- It is one of a mapped file. -/
  | toFile (hmmap : (st.spte e).mmapId ≠ mapFailed) {st₁ : Vm}
      (hback : st.writeBackIf t e dirty = .ok st₁) :
      Evicted st t e k dirty (st₁.modifySpte e fun s => { s with loaded := false })

theorem evictContents_eq_ok (h : st.evictContents t e k dirty = .ok st') :
    Evicted st t e k dirty st' := by
  rw [evictContents] at h
  split at h
  next hmmap =>
    split at h
    next hdirty =>
      split at h
      next hloaded =>
        obtain ⟨⟨idx, st1⟩, hout, h⟩ := bind_eq_ok.mp h
        cases h
        exact .swapped hmmap hdirty hloaded hout
      next => cases h
    next hclean =>
      cases h
      exact .dropped hmmap (by simpa using hclean)
  next hmmap =>
    obtain ⟨st1, hback, h⟩ := bind_eq_ok.mp h
    cases h
    exact .toFile hmmap hback

/-- **What an eviction may change**: one entry, the swap disk with its history, and files. -/
theorem Evicted.eq (h : Evicted st t e k dirty st') :
    ∃ table disk file saved swapped loaded swapIndex, st' = { st with
      swapTable := table
      swapDisk := disk
      file := file
      saved := saved
      spte := Function.update st.spte e { st.spte e with
        swapped := swapped, loaded := loaded, swapIndex := swapIndex } } := by
  cases h with
  | swapped _ _ _ hout =>
    rw [swapOut] at hout
    split at hout
    · cases hout
    · cases hout
      exact ⟨_, _, _, _, _, _, _, rfl⟩
  | dropped => exact ⟨_, _, _, _, _, _, _, rfl⟩
  | toFile _ hback =>
    obtain ⟨file, rfl⟩ := file_writeBackIf hback
    exact ⟨_, _, _, _, _, _, _, rfl⟩

/-- **`frame_evict`** takes the first entry of the frame table. -/
theorem frameEvict_eq_ok (h : st.frameEvict t = .ok st') :
    ∃ fte rest e st1, st.frameTable = fte :: rest ∧
      st.getSupPte fte.originThread fte.upage = some e ∧
      Evicted st t e fte.kpage (st.isDirty fte.originThread fte.upage) st1 ∧
      st' = { (st1.clearPage fte.originThread fte.upage).freedPage fte.kpage with
        frameTable := rest } := by
  rw [frameEvict] at h
  split at h
  next => cases h
  next fte rest hcons =>
    split at h
    next => cases h
    next e he =>
      obtain ⟨st1, hcontents, h⟩ := bind_eq_ok.mp h
      obtain ⟨st2, hfree, h⟩ := bind_eq_ok.mp h
      obtain ⟨-, rfl⟩ := pallocFreePage_eq_ok.mp hfree
      cases h
      exact ⟨fte, rest, e, st1, hcons, he, evictContents_eq_ok hcontents, rfl⟩

/-- **`frame_alloc`** takes a free page, after an eviction if there was none, and enters it. -/
theorem frameAlloc_eq_ok (h : st.frameAlloc t u zero = .ok (k, st')) :
    ∃ st1 st2, (st1 = st ∨ (st.pallocGetPage zero = none ∧ st.frameEvict t = .ok st1)) ∧
      st1.pallocGetPage zero = some (k, st2) ∧
      st' = st2.enter t u k := by
  rw [frameAlloc] at h
  split at h
  next k' st2 hget =>
    cases h
    exact ⟨st, st2, .inl rfl, hget, rfl⟩
  next hnone =>
    obtain ⟨st1, hevict, h⟩ := bind_eq_ok.mp h
    split at h
    next k' st2 hget =>
      cases h
      exact ⟨st1, st2, .inr ⟨hnone, hevict⟩, hget, rfl⟩
    next => cases h

/-! ## Page faults -/

theorem growStack_eq_ok (h : st.growStack t u ptFree = .ok st') :
    ∃ k st1, st.frameAlloc t u true = .ok (k, st1) ∧ st1.getPage t u = none ∧
      (st' = ((st1.mapPage t u k true).pageInsert t none 0 u 0 0 true).2 ∨
        st1.frameFree k = .ok st') := by
  obtain ⟨⟨k, st1⟩, halloc, h⟩ := bind_eq_ok.mp h
  obtain ⟨⟨stackSet, st2⟩, hset, h⟩ := bind_eq_ok.mp h
  obtain ⟨hnone, -, rfl⟩ := setPage_eq_ok.mp hset
  refine ⟨k, st1, halloc, hnone, ?_⟩
  cases stackSet with
  | true =>
    cases h
    exact .inl rfl
  | false => exact .inr h

/-- What `page_fault` does with a page that is swapped out, once it has a frame. -/
def swappedIn (st : Vm) (t u e k : Nat) : Vm :=
  (((st.swapIn (st.spte e).swapIndex k).mapPage t u k true).setDirty t u).modifySpte e
    fun s => { s with swapped := false }

theorem getSupPte_swappedIn (st : Vm) (t u e k t' u' : Nat) :
    (st.swappedIn t u e k).getSupPte t' u' = st.getSupPte t' u' :=
  (getSupPte_modifyPte ..).trans (getSupPte_mapPage ..)

theorem swapFault_eq_ok (h : st.swapFault t u e ptFree = .ok st') :
    ∃ k st1, st.frameAlloc t u true = .ok (k, st1) ∧ st1.getPage t u = none ∧
      (st' = st1.swappedIn t u e k ∨
        (st1.hasPageTable t u = false ∧
          (st1.swapIn (st1.spte e).swapIndex k).frameFree k = .ok st')) := by
  obtain ⟨⟨k, st1⟩, halloc, h⟩ := bind_eq_ok.mp h
  obtain ⟨⟨swapSet, st2⟩, hset, h⟩ := bind_eq_ok.mp h
  obtain ⟨hnone, htable, rfl⟩ := setPage_eq_ok.mp hset
  refine ⟨k, st1, halloc, hnone, ?_⟩
  cases swapSet with
  | true =>
    simp only [if_true] at h
    split at h
    next =>
      cases h
      exact .inl rfl
    next => cases h
  | false => exact .inr ⟨(Bool.or_eq_false_iff.mp htable.symm).1, h⟩

theorem installLoaded_eq_ok {remove : Bool} (h : st.installLoaded t u e k remove ptFree = .ok st') :
    st.getPage t u = none ∧
      (st' = (st.mapPage t u k (st.spte e).writable).modifySpte e
          (fun s => { s with loaded := true }) ∨
        ((st.hasPageTable t u || ptFree) = false ∧ ∃ st1, st.frameFree u = .ok st1 ∧
          st' = if remove then st1.pageRemove t u else st1)) := by
  obtain ⟨⟨setSuccess, st1⟩, hset, h⟩ := bind_eq_ok.mp h
  obtain ⟨hnone, htable, rfl⟩ := setPage_eq_ok.mp hset
  refine ⟨hnone, ?_⟩
  cases setSuccess with
  | true =>
    cases h
    exact .inl rfl
  | false =>
    obtain ⟨st2, hfree, h⟩ := bind_eq_ok.mp h
    cases h
    exact .inr ⟨htable.symm, st2, hfree, rfl⟩

/-- How lazy loading goes: the page is one of zeros, the file is too short, or the page is read from
the file. -/
inductive LazyLoaded (st : Vm) (t u e : Nat) (ptFree : Bool) : Vm → Prop
  /-- The page is one of zeros. -/
  | zeroed {k : Nat} {st₁ st' : Vm} (hzero : (st.spte e).readBytes = 0)
      (halloc : st.frameAlloc t u true = .ok (k, st₁))
      (hinstall : st₁.installLoaded t u e k true ptFree = .ok st') : LazyLoaded st t u e ptFree st'
  /-- The file is too short. -/
  | short {f k : Nat} {st₁ st' : Vm} (hfile : (st.spte e).file = some f)
      (halloc : st.frameAlloc t u false = .ok (k, st₁))
      (hshort : (st₁.fileReadAt f (st.spte e).readBytes (st.spte e).fileOfs).length ≠
        (st.spte e).readBytes)
      (hfree : (st₁.writeMem k 0
        (st₁.fileReadAt f (st.spte e).readBytes (st.spte e).fileOfs)).frameFree u = .ok st') :
      LazyLoaded st t u e ptFree st'
  /-- The page is read from the file, and filled up with zeros. -/
  | filled {f k : Nat} {st₁ st' : Vm} (hfile : (st.spte e).file = some f)
      (hsize : (st.spte e).readBytes + (st.spte e).zeroBytes = pgsize)
      (halloc : st.frameAlloc t u false = .ok (k, st₁))
      (hfull : (st₁.fileReadAt f (st.spte e).readBytes (st.spte e).fileOfs).length =
        (st.spte e).readBytes)
      (hinstall : ((st₁.writeMem k 0
        (st₁.fileReadAt f (st.spte e).readBytes (st.spte e).fileOfs)).writeMem k
          (st.spte e).readBytes (List.replicate (st.spte e).zeroBytes 0)).installLoaded t u e k
            ((st.spte e).readBytes = pgsize) ptFree = .ok st') :
      LazyLoaded st t u e ptFree st'

theorem lazyLoad_eq_ok (h : st.lazyLoad t u e ptFree = .ok st') :
    LazyLoaded st t u e ptFree st' := by
  simp only [lazyLoad] at h
  split at h
  next => cases h
  next hsize =>
    split at h
    next hzero =>
      obtain ⟨⟨k, st1⟩, halloc, hinstall⟩ := bind_eq_ok.mp h
      exact .zeroed (by omega) halloc hinstall
    next =>
      split at h
      next => cases h
      next f hfile =>
        obtain ⟨⟨k, st1⟩, halloc, h⟩ := bind_eq_ok.mp h
        split at h
        next => cases h
        next =>
          split at h
          next hshort => exact .short hfile halloc hshort h
          next hfull => exact .filled hfile (not_not.mp hsize) halloc (not_not.mp hfull) h

/-! ## Unmapping -/

/-- Take an entry out of the list of mapped files. -/
def dropMapped (st : Vm) (t e : Nat) : Vm :=
  st.modifyProcess t fun p => { p with mmapList := p.mmapList.erase e }

theorem pte_dropMapped (st : Vm) (t e t' u' : Nat) :
    (st.dropMapped t e).pte t' u' = st.pte t' u' := by
  refine pte_modifyProcess st t _ ?_ t' u'
  exact fun _ => rfl

theorem getSupPte_dropMapped (st : Vm) (t e t' u' : Nat) :
    (st.dropMapped t e).getSupPte t' u' = st.getSupPte t' u' := by
  refine getSupPte_modifyProcess st t _ ?_ t' u'
  exact fun _ => rfl

theorem isLoading_dropMapped (st : Vm) (t e t' : Nat) :
    (st.dropMapped t e).isLoading t' = st.isLoading t' := by
  refine isLoading_modifyProcess st t _ ?_ t'
  exact fun _ => rfl

theorem munmapEntry_eq_ok {id : Int} (h : munmapEntry t id st e = .ok st') :
    ((st.spte e).mmapId ≠ id ∧ st' = st) ∨
      ((st.spte e).mmapId = id ∧
        ((st.getPage t (st.spte e).upage = none ∧
            st' = (st.dropMapped t e).pageRemove t (st.spte e).upage) ∨
          ∃ k st1, st.getPage t (st.spte e).upage = some k ∧
            (st.dropMapped t e).writeBackIf t e (st.isDirty t (st.spte e).upage) = .ok st1 ∧
            ((st1.clearPage t (st.spte e).upage).pageRemove t (st.spte e).upage).frameFree k =
              .ok st')) := by
  have hpte := pte_dropMapped st t e t (st.spte e).upage
  have hpage := getPage_congr hpte
  have hdirty : (st.dropMapped t e).isDirty t (st.spte e).upage =
      st.isDirty t (st.spte e).upage := by rw [isDirty, hpte, isDirty]
  simp only [munmapEntry] at h
  split at h
  next hid =>
    cases h
    exact .inl ⟨hid, rfl⟩
  next hid =>
    refine .inr ⟨not_not.mp hid, ?_⟩
    split at h
    next => cases h
    next =>
      split at h
      next hnone =>
        cases h
        exact .inl ⟨hpage.symm.trans hnone, rfl⟩
      next k hk =>
        split at h
        next =>
          obtain ⟨st1, hback, hfree⟩ := bind_eq_ok.mp h
          exact .inr ⟨k, st1, hpage.symm.trans hk, hdirty ▸ hback, hfree⟩
        next => cases h

theorem closeMapping_eq_ok (h : st.closeMapping t e = .ok st') :
    ((st.spte e).mmapId = mapFailed ∧ st' = st) ∨
      ((st.spte e).mmapId ≠ mapFailed ∧ ∃ st1,
        st.writeBackIf t e (st.isDirty t (st.spte e).upage) = .ok st1 ∧
        st' = st1.dropMapped t e) := by
  rw [closeMapping] at h
  split at h
  next hid =>
    cases h
    exact .inl ⟨hid, rfl⟩
  next hid =>
    obtain ⟨st1, hback, h⟩ := bind_eq_ok.mp h
    cases h
    exact .inr ⟨hid, st1, hback, rfl⟩

theorem spte_closeMapping (h : st.closeMapping t e = .ok st') : st'.spte = st.spte := by
  rcases closeMapping_eq_ok h with ⟨-, rfl⟩ | ⟨-, st1, hback, rfl⟩
  · rfl
  · obtain ⟨file, rfl⟩ := file_writeBackIf hback
    rfl

theorem pageTableFree_eq_ok (h : pageTableFree t st u = .ok st') :
    ∃ e, st.getSupPte t u = some e ∧
      ((st.getPage t (st.spte e).upage = none ∧ st.freeSlot e = .ok st') ∨
        ∃ k st1 st2, st.getPage t (st.spte e).upage = some k ∧ st.closeMapping t e = .ok st1 ∧
          (st1.clearPage t (st.spte e).upage).frameFree k = .ok st2 ∧
          st2.freeSlot e = .ok st') := by
  rw [pageTableFree] at h
  split at h
  next => cases h
  next e he =>
    refine ⟨e, he, ?_⟩
    split at h
    next => cases h
    next =>
      split at h
      next hnone => exact .inl ⟨hnone, h⟩
      next k hk =>
        obtain ⟨st2, hpresent, hslot⟩ := bind_eq_ok.mp h
        rw [freePresent] at hpresent
        split at hpresent
        next =>
          obtain ⟨st1, hclose, hfree⟩ := bind_eq_ok.mp hpresent
          rw [spte_closeMapping hclose] at hfree
          exact .inr ⟨k, st1, st2, hk, hclose, hfree, hslot⟩
        next => cases hpresent

theorem freeSlot_eq_ok (h : st.freeSlot e = .ok st') :
    ((st.spte e).swapped = false ∧ st' = st) ∨
      ((st.spte e).swapped = true ∧ st.swapTable.bits (st.spte e).swapIndex = true ∧
        st' = { st with
          swapTable := st.swapTable.setMultiple (st.spte e).swapIndex 1 false }) := by
  rw [freeSlot] at h
  split at h
  next hswapped =>
    rw [swapSet] at h
    split at h
    next hbit =>
      cases h
      exact .inr ⟨hswapped, hbit, rfl⟩
    next => cases h
  next hswapped =>
    cases h
    exact .inl ⟨by simpa using hswapped, rfl⟩

end Vm

end Pintos
