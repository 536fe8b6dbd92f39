import Pintos.Vm.Observe

/-!
# Memory isolation

No frame is mapped by two pages, and the frame table has the owner of every frame that is mapped.

The invariant is in two parts.  `FrameInv` says that the entries of the frame table have different
frames, which are all in use, and that every page that is present has its entry; an entry without a
page is allowed, since the failure branches of lazy loading leave such entries behind.  `Covered`
says that every page that is present has a supplemental page table entry.  It is what makes
`page_table_remove` find every page that is present, so that none is left for `pagedir_destroy`,
which frees frames without looking at the frame table.

* `FrameInv.frameEvict`: an eviction unmaps the page of the entry it drops, whichever frame that
  page is mapped to by then.
* `memory_isolation`: both parts of the property, in every state that is reached.
-/

namespace Pintos

open Function (update update_eq_self update_of_ne update_self)

namespace Vm

open Outcome (bind_eq_ok foldlM_invariant foldlM_induction)

variable {st st' : Vm} {t u k e : Nat} {zero : Bool}

/-- The entries of the frame table have frames of their own, and the pages that are present have
entries. -/
structure FrameInv (st : Vm) : Prop where
  /-- The user pool is kernel memory. -/
  base : physBase ≤ st.poolBase
  /-- No two entries have the same frame. -/
  nodup : (st.frameTable.map (·.kpage)).Nodup
  used : ∀ fte ∈ st.frameTable, st.poolBase ≤ fte.kpage ∧
    st.userPool.bits (fte.kpage - st.poolBase) = true
  /-- A page that is present has its entry. -/
  mapped : ∀ t u k, st.getPage t u = some k → ⟨t, u, k⟩ ∈ st.frameTable

/-- A page that is present has a supplemental page table entry. -/
def Covered (st : Vm) : Prop := ∀ t u, (st.getPage t u).isSome → (st.getSupPte t u).isSome

/-- The supplemental page table entries have the pages they are found under. -/
def Keyed (st : Vm) : Prop :=
  ∀ t u e, st.getSupPte t u = some e → (st.spte e).upage = u ∧ e < st.nextSpte

/-- **The invariant.** -/
structure IsoInv (st : Vm) : Prop extends FrameInv st where
  /-- The pages that are present have supplemental page table entries. -/
  covered : Covered st
  /-- These have the pages they are found under. -/
  keyed : Keyed st

theorem FrameInv.eq_of_kpage (h : FrameInv st) {a b : Fte} (ha : a ∈ st.frameTable)
    (hb : b ∈ st.frameTable) (hk : a.kpage = b.kpage) : a = b :=
  List.inj_on_of_nodup_map h.nodup ha hb hk

variable {t' u' : Nat} {l : List Fte}

theorem FrameInv.injective (h : FrameInv st) (h1 : st.getPage t u = some k)
    (h2 : st.getPage t' u' = some k) : t = t' ∧ u = u' := by
  have heq := h.eq_of_kpage (h.mapped t u k h1) (h.mapped t' u' k h2) rfl
  rw [Fte.mk.injEq] at heq
  exact ⟨heq.1, heq.2.1⟩

theorem filter_kpage (h : (l.map (·.kpage)).Nodup) {a : Fte} (ha : a ∈ l) :
    l.filter (·.kpage = a.kpage) = [a] := by
  induction l with
  | nil => cases ha
  | cons b l ih =>
    rw [List.map_cons, List.nodup_cons] at h
    rcases List.mem_cons.mp ha with rfl | ha
    · have hrest : l.filter (·.kpage = a.kpage) = [] := by
        rw [List.filter_eq_nil_iff]
        intro c hc hkpage
        exact h.1 (List.mem_map.mpr ⟨c, hc, of_decide_eq_true hkpage⟩)
      rw [List.filter_cons_of_pos (by simp), hrest]
    · have hne : b.kpage ≠ a.kpage := fun heq => h.1 (List.mem_map.mpr ⟨a, ha, heq.symm⟩)
      rw [List.filter_cons_of_neg (by simpa using hne), ih h.2 ha]

/-! ## Changes that map nothing -/

/-- No page is mapped anew, and the supplemental page tables are the same. -/
structure Unmaps (st st' : Vm) : Prop where
  getPage : ∀ t u k, st'.getPage t u = some k → st.getPage t u = some k
  getSupPte : ∀ t u, st'.getSupPte t u = st.getSupPte t u
  upage : ∀ e, (st'.spte e).upage = (st.spte e).upage
  nextSpte : st'.nextSpte = st.nextSpte

theorem Unmaps.refl (st : Vm) : Unmaps st st :=
  ⟨fun _ _ _ h => h, fun _ _ => rfl, fun _ => rfl, rfl⟩

variable {st1 st2 st3 : Vm}

theorem Unmaps.trans (h : Unmaps st1 st2) (h' : Unmaps st2 st3) : Unmaps st1 st3 :=
  ⟨fun t u k hk => h.getPage t u k (h'.getPage t u k hk),
    fun t u => (h'.getSupPte t u).trans (h.getSupPte t u),
    fun e => (h'.upage e).trans (h.upage e), h'.nextSpte.trans h.nextSpte⟩

theorem Unmaps.of_process (h : st'.process = st.process)
    (hupage : ∀ e, (st'.spte e).upage = (st.spte e).upage) (hnext : st'.nextSpte = st.nextSpte) :
    Unmaps st st' := by
  refine ⟨fun t u k hk => ?_, fun t u => ?_, hupage, hnext⟩
  · rwa [Vm.getPage, pte, h] at hk
  · rw [Vm.getSupPte, h, Vm.getSupPte]

theorem unmaps_modifyProcess (st : Vm) (t : Nat) (f : Process → Process)
    (hdir : ∀ p, (f p).pagedir = p.pagedir) (htable : ∀ p, (f p).supPageTable = p.supPageTable) :
    Unmaps st (st.modifyProcess t f) := by
  refine ⟨fun t' u' k hk => ?_, getSupPte_modifyProcess st t f htable, fun _ => rfl, rfl⟩
  rwa [getPage_congr (pte_modifyProcess st t f hdir t' u')] at hk

theorem upage_modifySpte (st : Vm) (e : Nat) (f : SupPte → SupPte) (hf : ∀ s, (f s).upage = s.upage)
    (e' : Nat) : ((st.modifySpte e f).spte e').upage = (st.spte e').upage := by
  by_cases he : e' = e
  · subst he
    exact (congrArg SupPte.upage (update_self ..)).trans (hf _)
  · exact congrArg SupPte.upage (update_of_ne he ..)

theorem unmaps_modifySpte (st : Vm) (e : Nat) (f : SupPte → SupPte)
    (hf : ∀ s, (f s).upage = s.upage) : Unmaps st (st.modifySpte e f) :=
  .of_process rfl (upage_modifySpte st e f hf) rfl

theorem unmaps_modifyPte (st : Vm) (t u : Nat) (f : Pte → Pte)
    (hf : ∀ x, (f x).present = true → x.present = true ∧ (f x).kpage = x.kpage) :
    Unmaps st (st.modifyPte t u f) := by
  refine ⟨fun t' u' k hk => ?_, getSupPte_modifyPte st t u f, fun _ => rfl, rfl⟩
  obtain ⟨x, hx, hpresent, hkpage⟩ := getPage_eq_some.mp hk
  rw [pte_modifyPte] at hx
  split at hx
  next heq =>
    obtain ⟨y, hy, rfl⟩ := Option.map_eq_some_iff.mp hx
    obtain ⟨hpresent', hkpage'⟩ := hf y hpresent
    rw [heq.1, heq.2]
    exact getPage_eq_some.mpr ⟨y, hy, hpresent', hkpage'.symm.trans hkpage⟩
  next => exact getPage_eq_some.mpr ⟨x, hx, hpresent, hkpage⟩

theorem unmaps_clearPage (st : Vm) (t u : Nat) : Unmaps st (st.clearPage t u) :=
  unmaps_modifyPte st t u _ fun _ h => nomatch h

theorem unmaps_setDirty (st : Vm) (t u : Nat) : Unmaps st (st.setDirty t u) :=
  unmaps_modifyPte st t u _ fun _ h => ⟨h, rfl⟩

theorem Unmaps.covered (h : Unmaps st st') (hc : Covered st) : Covered st' := fun t u hpage => by
  obtain ⟨k, hk⟩ := Option.isSome_iff_exists.mp hpage
  rw [h.getSupPte]
  exact hc t u (Option.isSome_of_mem (h.getPage t u k hk))

theorem Unmaps.keyed (h : Unmaps st st') (hkeyed : Keyed st) : Keyed st' := fun t u e he => by
  rw [h.getSupPte] at he
  rw [h.upage, h.nextSpte]
  exact hkeyed t u e he

/-- The same frame table and the same pool. -/
structure SameFrames (st st' : Vm) : Prop where
  frameTable : st'.frameTable = st.frameTable
  userPool : st'.userPool = st.userPool
  poolBase : st'.poolBase = st.poolBase

theorem SameFrames.refl (st : Vm) : SameFrames st st := ⟨rfl, rfl, rfl⟩

theorem SameFrames.trans (h : SameFrames st1 st2) (h' : SameFrames st2 st3) : SameFrames st1 st3 :=
  ⟨h'.frameTable.trans h.frameTable, h'.userPool.trans h.userPool, h'.poolBase.trans h.poolBase⟩

theorem FrameInv.of_unmaps (h : FrameInv st) (hf : SameFrames st st') (hu : Unmaps st st') :
    FrameInv st' where
  base := hf.poolBase ▸ h.base
  nodup := by rw [hf.frameTable]; exact h.nodup
  used fte hfte := by
    rw [hf.poolBase, hf.userPool]
    exact h.used fte (hf.frameTable ▸ hfte)
  mapped t u k hk := by
    rw [hf.frameTable]
    exact h.mapped t u k (hu.getPage t u k hk)

theorem IsoInv.of_unmaps (h : IsoInv st) (hf : SameFrames st st') (hu : Unmaps st st') :
    IsoInv st' :=
  ⟨h.toFrameInv.of_unmaps hf hu, hu.covered h.covered, hu.keyed h.keyed⟩

/-! ## Allocating and freeing frames -/

theorem FrameInv.drop (h : FrameInv st) (hbase : st.poolBase ≤ k) {rest : List Fte}
    (hrest : rest.Sublist st.frameTable) (hk : ∀ fte ∈ rest, fte.kpage ≠ k)
    (hmapped : ∀ t u k', st.getPage t u = some k' → ⟨t, u, k'⟩ ∈ rest) :
    FrameInv { st.freedPage k with frameTable := rest } where
  base := h.base
  nodup := h.nodup.sublist (hrest.map _)
  used fte hfte := by
    obtain ⟨hfte', hbit⟩ := h.used fte (hrest.mem hfte)
    have hne : fte.kpage - st.poolBase ≠ k - st.poolBase := fun heq => hk fte hfte (by omega)
    refine ⟨hfte', ?_⟩
    show (st.userPool.setMultiple (k - st.poolBase) 1 false).bits (fte.kpage - st.poolBase) = true
    rw [Bitmap.setMultiple_one]
    exact (update_of_ne hne _ _).trans hbit
  mapped := hmapped

theorem kpage_ne_of_mem_eraseP (h : (l.map (·.kpage)).Nodup) {b : Fte}
    (hb : b ∈ l.eraseP (·.kpage = k)) : b.kpage ≠ k := by
  induction l with
  | nil => cases hb
  | cons a l ih =>
    rw [List.map_cons, List.nodup_cons] at h
    by_cases ha : a.kpage = k
    · rw [List.eraseP_cons_of_pos (by simpa using ha)] at hb
      exact fun hbk => h.1 (List.mem_map.mpr ⟨b, hb, hbk.trans ha.symm⟩)
    · rw [List.eraseP_cons_of_neg (by simpa using ha)] at hb
      rcases List.mem_cons.mp hb with rfl | hb
      · exact ha
      · exact ih h.2 hb

theorem FrameInv.frameFree (h : FrameInv st) (hk : ∀ t u, st.getPage t u ≠ some k)
    (hst : st.frameFree k = .ok st') : FrameInv st' := by
  rcases frameFree_eq_ok hst with ⟨-, rfl⟩ | ⟨⟨fte, hfte, rfl⟩, rfl⟩
  · exact h
  · refine h.drop (h.used fte hfte).1 List.eraseP_sublist
      (fun b hb => kpage_ne_of_mem_eraseP h.nodup hb) fun t u k' hk' => ?_
    have hne : k' ≠ fte.kpage := fun heq => hk t u (heq ▸ hk')
    exact (List.mem_eraseP_of_neg (by simpa using hne)).mpr (h.mapped t u k' hk')

theorem unmaps_frameFree (hst : st.frameFree k = .ok st') : Unmaps st st' := by
  rcases frameFree_eq_ok hst with ⟨-, rfl⟩ | ⟨-, rfl⟩
  · exact .refl _
  · exact .of_process rfl (fun _ => rfl) rfl

theorem FrameInv.frameFree_user (h : FrameInv st) (hu : u < physBase)
    (hst : st.frameFree u = .ok st') : st' = st := by
  rcases frameFree_eq_ok hst with ⟨-, rfl⟩ | ⟨⟨fte, hfte, rfl⟩, -⟩
  · rfl
  · exact absurd (h.base.trans (h.used fte hfte).1) (Nat.not_le.mpr hu)

variable {dirty : Bool}

theorem unmaps_writeBackIf (h : st.writeBackIf t e dirty = .ok st') :
    Unmaps st st' ∧ SameFrames st st' := by
  obtain ⟨file, rfl⟩ := file_writeBackIf h
  exact ⟨.of_process rfl (fun _ => rfl) rfl, rfl, rfl, rfl⟩

theorem Evicted.unmaps (h : Evicted st t e k dirty st') : Unmaps st st' ∧ SameFrames st st' := by
  obtain ⟨table, disk, file, saved, swapped, loaded, swapIndex, rfl⟩ := h.eq
  refine ⟨.of_process rfl ?_ rfl, rfl, rfl, rfl⟩
  exact upage_modifySpte st e (fun s => { s with
    swapped := swapped, loaded := loaded, swapIndex := swapIndex }) fun _ => rfl

/-- **Evictions keep the invariant.**  The page of the entry that goes is unmapped. -/
theorem FrameInv.frameEvict (h : FrameInv st) (hst : st.frameEvict t = .ok st') :
    FrameInv st' ∧ Unmaps st st' := by
  obtain ⟨fte, rest, e, st1, hcons, -, hcontents, rfl⟩ := frameEvict_eq_ok hst
  obtain ⟨hcontents, hframes⟩ := hcontents.unmaps
  have hunmaps : Unmaps st (st1.clearPage fte.originThread fte.upage) :=
    hcontents.trans (unmaps_clearPage ..)
  have hsame : SameFrames st (st1.clearPage fte.originThread fte.upage) :=
    hframes.trans ⟨rfl, rfl, rfl⟩
  have hinv := h.of_unmaps hsame hunmaps
  have hfte : fte ∈ st.frameTable := hcons ▸ .head _
  have hnodup := h.nodup
  rw [hcons, List.map_cons, List.nodup_cons] at hnodup
  refine ⟨hinv.drop (hsame.poolBase ▸ (h.used fte hfte).1) ?_ (fun b hb hk => ?_)
    fun t' u' k' hk' => ?_, hunmaps.trans (.of_process rfl (fun _ => rfl) rfl)⟩
  · rw [hsame.frameTable, hcons]
    exact List.sublist_cons_self ..
  · exact hnodup.1 (List.mem_map.mpr ⟨b, hb, hk⟩)
  · have hmem := h.mapped t' u' k' (hunmaps.getPage t' u' k' hk')
    rw [hcons] at hmem
    refine (List.mem_cons.mp hmem).resolve_left fun heq => ?_
    rw [← heq, getPage_clearPage, if_pos ⟨rfl, rfl⟩] at hk'
    cases hk'

theorem FrameInv.fresh (h : FrameInv st) (hget : st.pallocGetPage zero = some (k, st')) :
    ∀ fte ∈ st.frameTable, fte.kpage ≠ k := fun fte hfte heq => by
  obtain ⟨idx, rfl, -, hbit, -⟩ := pallocGetPage_eq_some hget
  have hused := (h.used fte hfte).2
  rw [heq, Nat.add_sub_cancel_left, hbit] at hused
  cases hused

theorem FrameInv.enter (h : FrameInv st) (hget : st.pallocGetPage zero = some (k, st'))
    (t u : Nat) : FrameInv (st'.enter t u k) := by
  have hfree := h.fresh hget
  obtain ⟨idx, rfl, -, hbit, rfl⟩ := pallocGetPage_eq_some hget
  refine ⟨h.base, ?_, fun fte hfte => ?_, fun t' u' k' hk' => ?_⟩
  · rw [enter, List.map_append, List.nodup_append]
    refine ⟨h.nodup, List.nodup_singleton _, fun a ha b hb hab => ?_⟩
    obtain ⟨fte, hfte, rfl⟩ := List.mem_map.mp ha
    rw [List.map_singleton, List.mem_singleton] at hb
    exact hfree fte hfte (hab.trans hb)
  · rcases List.mem_append.mp hfte with hfte | hfte
    · exact ⟨(h.used fte hfte).1, Bitmap.bits_mark _ _ (h.used fte hfte).2⟩
    · rw [List.mem_singleton.mp hfte]
      refine ⟨Nat.le_add_right .., ?_⟩
      show (st.userPool.mark idx).bits (st.poolBase + idx - st.poolBase) = true
      rw [Nat.add_sub_cancel_left]
      exact update_self ..
  · exact List.mem_append_left _ (h.mapped t' u' k' hk')

theorem unmaps_enter (hget : st.pallocGetPage zero = some (k, st')) (t u : Nat) :
    Unmaps st (st'.enter t u k) := by
  obtain ⟨idx, -, -, -, rfl⟩ := pallocGetPage_eq_some hget
  exact .of_process rfl (fun _ => rfl) rfl

/-- **Allocation** enters a frame that no entry had, so that no page is mapped to it. -/
theorem FrameInv.frameAlloc (h : FrameInv st) (hst : st.frameAlloc t u zero = .ok (k, st')) :
    FrameInv st' ∧ Unmaps st st' ∧ ⟨t, u, k⟩ ∈ st'.frameTable ∧
      ∀ t' u', st'.getPage t' u' ≠ some k := by
  obtain ⟨st1, st2, hevict, hget, rfl⟩ := frameAlloc_eq_ok hst
  have h1 : FrameInv st1 ∧ Unmaps st st1 := by
    rcases hevict with rfl | ⟨-, hevict⟩
    · exact ⟨h, .refl st1⟩
    · exact h.frameEvict hevict
  have henter := unmaps_enter hget t u
  refine ⟨h1.1.enter hget t u, h1.2.trans henter, List.mem_append_right _ (.head _),
    fun t' u' hk => ?_⟩
  exact h1.1.fresh hget _ (h1.1.mapped t' u' k (henter.getPage t' u' k hk)) rfl

theorem IsoInv.frameAlloc (h : IsoInv st) (hst : st.frameAlloc t u zero = .ok (k, st')) :
    IsoInv st' ∧ Unmaps st st' ∧ ⟨t, u, k⟩ ∈ st'.frameTable ∧
      ∀ t' u', st'.getPage t' u' ≠ some k := by
  obtain ⟨hframes, hunmaps, hmem⟩ := h.toFrameInv.frameAlloc hst
  exact ⟨⟨hframes, hunmaps.covered h.covered, hunmaps.keyed h.keyed⟩, hunmaps, hmem⟩

theorem IsoInv.frameFree (h : IsoInv st) (hk : ∀ t u, st.getPage t u ≠ some k)
    (hst : st.frameFree k = .ok st') : IsoInv st' :=
  ⟨h.toFrameInv.frameFree hk hst, (unmaps_frameFree hst).covered h.covered,
    (unmaps_frameFree hst).keyed h.keyed⟩

/-! ## Mapping pages -/

theorem FrameInv.mapPage (h : FrameInv st) (hmem : ⟨t, u, k⟩ ∈ st.frameTable) (writable : Bool) :
    FrameInv (st.mapPage t u k writable) := by
  refine ⟨h.base, h.nodup, h.used, fun t' u' k' hk => ?_⟩
  rw [getPage_mapPage] at hk
  split at hk
  next heq =>
    obtain ⟨-, -, rfl⟩ := Option.map_eq_some_iff.mp hk
    rw [heq.1, heq.2]
    exact hmem
  next => exact h.mapped t' u' k' hk

theorem keyed_mapPage (h : Keyed st) (t u k : Nat) (writable : Bool) :
    Keyed (st.mapPage t u k writable) := fun t' u' e he => by
  rw [getSupPte_mapPage] at he
  exact h t' u' e he

theorem IsoInv.mapPage (h : IsoInv st) (hmem : ⟨t, u, k⟩ ∈ st.frameTable)
    (hentry : (st.getSupPte t u).isSome) (writable : Bool) :
    IsoInv (st.mapPage t u k writable) := by
  refine ⟨h.toFrameInv.mapPage hmem writable, fun t' u' hpage => ?_,
    keyed_mapPage h.keyed t u k writable⟩
  rw [getPage_mapPage] at hpage
  rw [getSupPte_mapPage]
  split at hpage
  next heq => rwa [heq.1, heq.2]
  next => exact h.covered t' u' hpage

theorem FrameInv.addSpte (h : FrameInv st) (hkeyed : Keyed st) {s : SupPte}
    (hcovered : ∀ t' u', ¬ (t' = t ∧ u' = s.upage) → (st.getPage t' u').isSome →
      (st.getSupPte t' u').isSome) : IsoInv (st.addSpte t s) := by
  have hpage : ∀ t' u', (st.addSpte t s).getPage t' u' = st.getPage t' u' := fun t' u' =>
    getPage_congr (pte_addSpte st t s t' u')
  refine ⟨⟨h.base, h.nodup, h.used, fun t' u' k hk => ?_⟩, fun t' u' hsome => ?_,
    fun t' u' e he => ?_⟩
  · rw [hpage] at hk
    exact h.mapped t' u' k hk
  · rw [hpage] at hsome
    rw [getSupPte_addSpte]
    split
    next heq =>
      obtain ⟨k, hk⟩ := Option.isSome_iff_exists.mp hsome
      obtain ⟨x, hx, -⟩ := getPage_eq_some.mp hk
      rw [Option.isSome_map, ← heq.1]
      exact isSome_process_of_pte hx
    next hne => exact hcovered t' u' hne hsome
  · rw [getSupPte_addSpte] at he
    show (update st.spte st.nextSpte s e).upage = u' ∧ e < st.nextSpte + 1
    split at he
    next heq =>
      obtain ⟨-, -, rfl⟩ := Option.map_eq_some_iff.mp he
      rw [update_self]
      exact ⟨heq.2.symm, Nat.lt_succ_self _⟩
    next =>
      obtain ⟨hupage, hlt⟩ := hkeyed t' u' e he
      rw [update_of_ne hlt.ne]
      exact ⟨hupage, Nat.lt_succ_of_lt hlt⟩

theorem IsoInv.pageInsert (h : IsoInv st) (t u : Nat) (file : Option Nat)
    (fileOfs readBytes zeroBytes : Nat) (writable : Bool) :
    IsoInv (st.pageInsert t file fileOfs u readBytes zeroBytes writable).2 := by
  cases hentry : st.getSupPte t u with
  | some e => rwa [pageInsert_of_some hentry]
  | none =>
    rw [pageInsert_of_none hentry]
    exact h.toFrameInv.addSpte h.keyed fun t' u' _ hpage => h.covered t' u' hpage

/-- The two ways in which a page of the stack is made: the mapping comes first, the supplemental
page table entry second. -/
theorem IsoInv.mapStack (h : IsoInv st) (hmem : ⟨t, u, k⟩ ∈ st.frameTable) :
    IsoInv ((st.mapPage t u k true).pageInsert t none 0 u 0 0 true).2 := by
  cases hentry : st.getSupPte t u with
  | some e =>
    rw [pageInsert_of_some (by rwa [getSupPte_mapPage])]
    exact h.mapPage hmem (by rw [hentry, Option.isSome_some]) true
  | none =>
    rw [pageInsert_of_none (by rwa [getSupPte_mapPage])]
    refine (h.toFrameInv.mapPage hmem true).addSpte (keyed_mapPage h.keyed t u k true)
      fun t' u' hne hpage => ?_
    rw [getPage_mapPage, if_neg (show ¬ (t' = t ∧ u' = u) from hne)] at hpage
    rw [getSupPte_mapPage]
    exact h.covered t' u' hpage

/-! ## Page faults -/

variable {ptFree : Bool}

section

variable (h : IsoInv st)
include h

theorem IsoInv.growStack (hst : st.growStack t u ptFree = .ok st') : IsoInv st' := by
  obtain ⟨k, st1, halloc, -, hst⟩ := growStack_eq_ok hst
  obtain ⟨h1, -, hmem, hfresh⟩ := h.frameAlloc halloc
  rcases hst with rfl | hfree
  · exact h1.mapStack hmem
  · exact h1.frameFree hfresh hfree

theorem IsoInv.swapFault (hentry : st.getSupPte t u = some e)
    (hst : st.swapFault t u e ptFree = .ok st') : IsoInv st' := by
  obtain ⟨k, st1, halloc, -, hst⟩ := swapFault_eq_ok hst
  obtain ⟨h1, hunmaps, hmem, hfresh⟩ := h.frameAlloc halloc
  have h2 : IsoInv (st1.swapIn (st1.spte e).swapIndex k) :=
    h1.of_unmaps ⟨rfl, rfl, rfl⟩ (.of_process rfl (fun _ => rfl) rfl)
  have hentry1 : st1.getSupPte t u = some e := (hunmaps.getSupPte t u).trans hentry
  rcases hst with rfl | ⟨-, hfree⟩
  · have hmapped := h2.mapPage hmem (Option.isSome_of_mem hentry1) true
    exact hmapped.of_unmaps ⟨rfl, rfl, rfl⟩
      ((unmaps_setDirty ..).trans (unmaps_modifySpte _ e _ fun _ => rfl))
  · exact h2.frameFree hfresh hfree

theorem IsoInv.pageRemove (hnone : st.getPage t u = none) : IsoInv (st.pageRemove t u) := by
  have hpage : ∀ t' u', (st.pageRemove t u).getPage t' u' = st.getPage t' u' := fun t' u' =>
    getPage_congr (pte_pageRemove st t u t' u')
  refine ⟨⟨h.base, h.nodup, h.used, fun t' u' k hk => ?_⟩, fun t' u' hsome => ?_,
    fun t' u' e he => ?_⟩
  · rw [hpage] at hk
    exact h.mapped t' u' k hk
  · rw [hpage] at hsome
    rw [getSupPte_pageRemove, if_neg]
    · exact h.covered t' u' hsome
    · rintro ⟨rfl, rfl⟩
      rw [hnone] at hsome
      cases hsome
  · rw [getSupPte_pageRemove] at he
    split at he
    · cases he
    · exact h.keyed t' u' e he

theorem IsoInv.installLoaded (hu : u < physBase) {remove : Bool} (hmem : ⟨t, u, k⟩ ∈ st.frameTable)
    (hentry : st.getSupPte t u = some e) (hst : st.installLoaded t u e k remove ptFree = .ok st') :
    IsoInv st' := by
  obtain ⟨hnone, rfl | ⟨-, st1, hfree, rfl⟩⟩ := installLoaded_eq_ok hst
  · have hmapped := h.mapPage hmem (Option.isSome_of_mem hentry) (st.spte e).writable
    exact hmapped.of_unmaps ⟨rfl, rfl, rfl⟩ (unmaps_modifySpte _ e _ fun _ => rfl)
  · obtain rfl := h.frameFree_user hu hfree
    split
    · exact h.pageRemove hnone
    · exact h

theorem IsoInv.writeMem (k ofs : Nat) (src : List UInt8) : IsoInv (st.writeMem k ofs src) :=
  h.of_unmaps ⟨rfl, rfl, rfl⟩ (.of_process rfl (fun _ => rfl) rfl)

theorem IsoInv.lazyLoad (hu : u < physBase) (hentry : st.getSupPte t u = some e)
    (hst : st.lazyLoad t u e ptFree = .ok st') : IsoInv st' := by
  cases lazyLoad_eq_ok hst with
  | zeroed _ halloc hinstall =>
    obtain ⟨h1, hunmaps, hmem, -⟩ := h.frameAlloc halloc
    exact h1.installLoaded hu hmem ((hunmaps.getSupPte t u).trans hentry) hinstall
  | short _ halloc _ hfree =>
    have h1 := (h.frameAlloc halloc).1
    obtain rfl := (h1.writeMem _ _ _).frameFree_user hu hfree
    exact h1.writeMem _ _ _
  | filled _ _ halloc _ hinstall =>
    obtain ⟨h1, hunmaps, hmem, -⟩ := h.frameAlloc halloc
    exact ((h1.writeMem _ _ _).writeMem _ _ _).installLoaded hu hmem
      ((hunmaps.getSupPte t u).trans hentry) hinstall

theorem IsoInv.pageFault (hu : u < physBase) {growth : Bool}
    (hst : st.pageFault t u growth ptFree = .ok st') : IsoInv st' := by
  rw [Vm.pageFault] at hst
  split at hst
  next =>
    split at hst
    · exact h.growStack hst
    · cases hst
      exact h
  next e hentry =>
    split at hst
    · exact h.swapFault hentry hst
    · split at hst
      · cases hst
        exact h
      · exact h.lazyLoad hu hentry hst

/-! ## Loading and system calls -/

theorem IsoInv.modifySpte (e : Nat) (f : SupPte → SupPte) (hf : ∀ s, (f s).upage = s.upage) :
    IsoInv (st.modifySpte e f) :=
  h.of_unmaps ⟨rfl, rfl, rfl⟩ (unmaps_modifySpte st e f hf)

theorem IsoInv.modifyProcess (t : Nat) (f : Process → Process)
    (hdir : ∀ p, (f p).pagedir = p.pagedir) (htable : ∀ p, (f p).supPageTable = p.supPageTable) :
    IsoInv (st.modifyProcess t f) :=
  h.of_unmaps ⟨rfl, rfl, rfl⟩ (unmaps_modifyProcess st t f hdir htable)

theorem IsoInv.loadPage {f fileOfs readBytes : Nat} {writable : Bool}
    (hst : st.loadPage t f fileOfs u readBytes writable = .ok st') : IsoInv st' := by
  simp only [Vm.loadPage] at hst
  split at hst
  · cases hst
  · cases hst
    exact (h.pageInsert t u _ _ _ _ _).modifySpte _ _ fun _ => rfl

theorem IsoInv.setupStack (hst : st.setupStack t ptFree = .ok st') : IsoInv st' := by
  obtain ⟨⟨k, st1⟩, halloc, hst⟩ := bind_eq_ok.mp hst
  obtain ⟨h1, -, hmem, hfresh⟩ := h.frameAlloc halloc
  simp only at hst
  split at hst
  next => exact h1.frameFree hfresh hst
  next =>
    obtain ⟨⟨success, st2⟩, hset, hst⟩ := bind_eq_ok.mp hst
    obtain ⟨-, -, rfl⟩ := setPage_eq_ok.mp hset
    cases success with
    | true =>
      cases hst
      exact (h1.mapStack hmem).modifyProcess t (fun p => { p with loading := false })
        (fun _ => rfl) fun _ => rfl
    | false => exact h1.frameFree hfresh hst

theorem IsoInv.mmapLoop (t f : Nat) (mapId : Int) (cnt curOfs addr remain : Nat) :
    IsoInv (Vm.mmapLoop t f mapId cnt st curOfs addr remain).2 := by
  induction cnt generalizing st curOfs addr remain with
  | zero => exact h
  | succ cnt ih =>
    have hinsert := h.pageInsert t addr (some f) curOfs (min remain pgsize)
      (pgsize - min remain pgsize) true
    rw [mmapLoop]
    split
    next st1 heq =>
      rw [heq] at hinsert
      exact hinsert
    next st1 heq =>
      rw [heq] at hinsert
      have hspte := hinsert.modifySpte st.nextSpte
        (fun s => { s with mmapId := mapId, loaded := false }) fun _ => rfl
      exact ih (hspte.modifyProcess t (fun p => { p with mmapList := p.mmapList ++ [st.nextSpte] })
        (fun _ => rfl) fun _ => rfl) _ _ _

theorem IsoInv.mmap (t f addr : Nat) : IsoInv (st.mmap t f addr) := by
  rw [Vm.mmap]
  split
  · exact h
  next p _ =>
    have hloop := h.mmapLoop t f p.mmapCount (((st.file f).length + pgsize - 1) / pgsize) 0 addr
      (st.file f).length
    dsimp only
    split
    next heq =>
      rw [heq] at hloop
      exact hloop
    next heq =>
      rw [heq] at hloop
      exact hloop.modifyProcess t (fun p => { p with mmapCount := p.mmapCount + 1 })
        (fun _ => rfl) fun _ => rfl

theorem IsoInv.clear (hk : st.getPage t u = some k) :
    IsoInv (st.clearPage t u) ∧ ∀ t' u', (st.clearPage t u).getPage t' u' ≠ some k := by
  refine ⟨h.of_unmaps ⟨rfl, rfl, rfl⟩ (unmaps_clearPage ..), fun t' u' hk' => ?_⟩
  rw [getPage_clearPage] at hk'
  split at hk'
  next => cases hk'
  next hne =>
    obtain ⟨rfl, rfl⟩ := h.injective hk hk'
    exact hne ⟨rfl, rfl⟩

theorem IsoInv.writeBackIf (hst : st.writeBackIf t e dirty = .ok st') : IsoInv st' :=
  h.of_unmaps (unmaps_writeBackIf hst).2 (unmaps_writeBackIf hst).1

end

theorem getPage_writeBackIf (h : st.writeBackIf t e dirty = .ok st') :
    st'.getPage t' u' = st.getPage t' u' := by
  obtain ⟨file, rfl⟩ := file_writeBackIf h
  rfl

theorem IsoInv.dropMapped (h : IsoInv st) (t e : Nat) : IsoInv (st.dropMapped t e) :=
  h.modifyProcess t (fun p => { p with mmapList := p.mmapList.erase e }) (fun _ => rfl) fun _ => rfl

theorem IsoInv.munmapEntry (h : IsoInv st) {id : Int}
    (hst : Vm.munmapEntry t id st e = .ok st') : IsoInv st' := by
  have hdropped := h.dropMapped t e
  rcases munmapEntry_eq_ok hst with ⟨-, rfl⟩ | ⟨-, ⟨hnone, rfl⟩ | ⟨k, st1, hk, hback, hfree⟩⟩
  · exact h
  · exact hdropped.pageRemove (by rwa [getPage_congr (pte_dropMapped ..)])
  · have hpage : st1.getPage t (st.spte e).upage = some k := by
      rw [getPage_writeBackIf hback, getPage_congr (pte_dropMapped ..), hk]
    obtain ⟨hcleared, hunmapped⟩ := (hdropped.writeBackIf hback).clear hpage
    have hnone : (st1.clearPage t (st.spte e).upage).getPage t (st.spte e).upage = none := by
      rw [getPage_clearPage, if_pos ⟨rfl, rfl⟩]
    refine (hcleared.pageRemove hnone).frameFree (fun t' u' hk' => ?_) hfree
    rw [getPage_congr (pte_pageRemove ..)] at hk'
    exact hunmapped t' u' hk'

/-! ## Exit -/

theorem IsoInv.closeMapping (h : IsoInv st) (hst : st.closeMapping t e = .ok st') : IsoInv st' := by
  rcases closeMapping_eq_ok hst with ⟨-, rfl⟩ | ⟨-, st1, hback, rfl⟩
  · exact h
  · exact (h.writeBackIf hback).dropMapped t e

theorem getPage_closeMapping (h : st.closeMapping t e = .ok st') (t' u' : Nat) :
    st'.getPage t' u' = st.getPage t' u' := by
  rcases closeMapping_eq_ok h with ⟨-, rfl⟩ | ⟨-, st1, hback, rfl⟩
  · rfl
  · rw [getPage_congr (pte_dropMapped ..), getPage_writeBackIf hback]

theorem unmaps_freeSlot (h : st.freeSlot e = .ok st') : Unmaps st st' ∧ SameFrames st st' := by
  rcases freeSlot_eq_ok h with ⟨-, rfl⟩ | ⟨-, -, rfl⟩
  · exact ⟨.refl _, .refl _⟩
  · exact ⟨.of_process rfl (fun _ => rfl) rfl, rfl, rfl, rfl⟩

theorem IsoInv.pageTableFree (h : IsoInv st) (hst : Vm.pageTableFree t st u = .ok st') :
    IsoInv st' ∧ ∀ u', (st'.getPage t u').isSome → u' ≠ u ∧ (st.getPage t u').isSome := by
  obtain ⟨e, he, hst⟩ := pageTableFree_eq_ok hst
  have hupage := (h.keyed t u e he).1
  rw [hupage] at hst
  rcases hst with ⟨hnone, hslot⟩ | ⟨k, st1, st2, hk, hclose, hfree, hslot⟩
  · obtain ⟨hunmaps, hframes⟩ := unmaps_freeSlot hslot
    refine ⟨h.of_unmaps hframes hunmaps, fun u' hsome => ?_⟩
    obtain ⟨k', hk'⟩ := Option.isSome_iff_exists.mp hsome
    have hold := hunmaps.getPage t u' k' hk'
    refine ⟨?_, Option.isSome_of_mem hold⟩
    rintro rfl
    rw [hnone] at hold
    cases hold
  · obtain ⟨hunmaps, hframes⟩ := unmaps_freeSlot hslot
    have hpage : st1.getPage t u = some k := (getPage_closeMapping hclose t u).trans hk
    obtain ⟨hcleared, hunmapped⟩ := (h.closeMapping hclose).clear hpage
    refine ⟨(hcleared.frameFree hunmapped hfree).of_unmaps hframes hunmaps, fun u' hsome => ?_⟩
    obtain ⟨k', hk'⟩ := Option.isSome_iff_exists.mp hsome
    have hold := (unmaps_frameFree hfree).getPage t u' k' (hunmaps.getPage t u' k' hk')
    rw [getPage_clearPage] at hold
    split at hold
    next => cases hold
    next hne =>
      rw [getPage_closeMapping hclose] at hold
      exact ⟨fun heq => hne ⟨rfl, heq⟩, Option.isSome_of_mem hold⟩

variable {order : List Nat} {p : Process}

theorem IsoInv.pageTableRemove (h : IsoInv st) (horder : ∀ u, (st.getPage t u).isSome → u ∈ order)
    (hst : st.pageTableRemove t order = .ok st') : IsoInv st' ∧ ∀ u, st'.getPage t u = none := by
  have hloop := foldlM_induction
    (P := fun rest st => IsoInv st ∧ ∀ u, (st.getPage t u).isSome → u ∈ rest)
    (fun u rest s s' hs hfree => by
      obtain ⟨hinv, hleft⟩ := hs.1.pageTableFree hfree
      refine ⟨hinv, fun u' hsome => ?_⟩
      obtain ⟨hne, hold⟩ := hleft u' hsome
      exact (List.mem_cons.mp (hs.2 u' hold)).resolve_left hne) ⟨h, horder⟩ hst
  refine ⟨hloop.1, fun u => ?_⟩
  cases hpage : st'.getPage t u with
  | none => rfl
  | some k => exact absurd (hloop.2 u (by rw [hpage, Option.isSome_some])) List.not_mem_nil

theorem pagedirDestroy_of_none (hnone : ∀ u, st.getPage t u = none)
    (hst : st.pagedirDestroy t = .ok st') :
    st' = { st with process := update st.process t none } := by
  rw [pagedirDestroy] at hst
  split at hst
  next hprocess =>
    cases hst
    rw [← hprocess, update_eq_self]
  next p hprocess =>
    have hpresent : (p.pagedir.entries.map (·.2)).filter (·.present) = [] := by
      rw [List.filter_eq_nil_iff]
      intro x hx hpresent
      obtain ⟨⟨u, y⟩, hmem, rfl⟩ := List.mem_map.mp hx
      have hlookup : p.pagedir.lookup u = some y := AList.mem_lookup_iff.mpr hmem
      have hpte : st.pte t u = some y := by rw [pte, hprocess, Option.bind_some, hlookup]
      have := getPage_eq_some.mpr ⟨y, hpte, hpresent, rfl⟩
      rw [hnone] at this
      cases this
    rw [hpresent] at hst
    cases hst
    rfl

theorem IsoInv.setProcess (h : IsoInv st) (t : Nat) {p : Option Process} (hp : NoTables p) :
    IsoInv (st.setProcess t p) := by
  have hpage : ∀ t' u', (st.setProcess t p).getPage t' u' =
      if t' = t then none else st.getPage t' u' := fun t' u' => by
    rw [getPage, pte_setProcess hp]
    split <;> rfl
  refine ⟨⟨h.base, h.nodup, h.used, fun t' u' k hk => ?_⟩, fun t' u' hsome => ?_,
    fun t' u' e he => ?_⟩
  · rw [hpage, Option.ite_none_left_eq_some] at hk
    exact h.mapped t' u' k hk.2
  · rw [hpage] at hsome
    rw [getSupPte_setProcess hp]
    split at hsome
    next => cases hsome
    next hne =>
      rw [if_neg hne]
      exact h.covered t' u' hsome
  · rw [getSupPte_setProcess hp, Option.ite_none_left_eq_some] at he
    exact h.keyed t' u' e he.2

theorem IsoInv.mem_order (h : IsoInv st) (hprocess : st.process t = some p)
    (horder : order.Perm p.supPageTable.keys) (hsome : (st.getPage t u).isSome) : u ∈ order := by
  have hentry := h.covered t u hsome
  rw [getSupPte, hprocess, Option.bind_some, AList.lookup_isSome] at hentry
  exact horder.mem_iff.mpr (AList.mem_keys.mp hentry)

theorem IsoInv.processExit (h : IsoInv st) (hprocess : st.process t = some p)
    (horder : order.Perm p.supPageTable.keys) (hst : st.processExit t order = .ok st') :
    IsoInv st' := by
  obtain ⟨st1, hremove, hdestroy⟩ := bind_eq_ok.mp hst
  obtain ⟨h1, hnone⟩ := h.pageTableRemove (fun _ => h.mem_order hprocess horder) hremove
  rw [pagedirDestroy_of_none hnone hdestroy]
  exact h1.setProcess t fun _ hx => nomatch hx

/-! ## Steps -/

theorem IsoInv.store (h : IsoInv st) {i : Nat} {v : UInt8} (hst : st.store t u i v = .ok st') :
    IsoInv st' := by
  rw [Vm.store] at hst
  split at hst
  next => cases hst
  next k _ =>
    cases hst
    exact (h.writeMem k i [v]).of_unmaps ⟨rfl, rfl, rfl⟩ (unmaps_setDirty ..)

theorem IsoInv.exec (h : IsoInv st) {op : VmOp} (henabled : st.enabled t op = true)
    (hst : st.exec t op = .ok st') : IsoInv st' := by
  cases op with
  | spawn =>
    cases hst
    refine h.setProcess t fun x hx => ?_
    cases hx
    exact ⟨rfl, rfl⟩
  | loadPage f fileOfs upage readBytes writable => exact h.loadPage hst
  | setupStack ptFree => exact h.setupStack hst
  | fault upage growth ptFree =>
    simp only [enabled, Bool.and_eq_true, decide_eq_true_eq] at henabled
    exact h.pageFault henabled.1.2 hst
  | store upage i v => exact h.store hst
  | mmap f addr =>
    cases hst
    exact h.mmap t f addr
  | munmap id =>
    rw [Vm.exec, munmap] at hst
    split at hst
    next => cases hst
    next =>
      split at hst
      next => cases hst
      next =>
        exact foldlM_invariant (fun e _ s s' hs hentry => IsoInv.munmapEntry hs hentry) h hst
  | exit order =>
    rw [enabled, Option.any_eq_true] at henabled
    obtain ⟨p, hprocess, hperm⟩ := henabled
    exact h.processExit hprocess (List.isPerm_iff.mp hperm) hst
  | write f fileOfs src =>
    simp only [Vm.exec] at hst
    split at hst
    · cases hst
      exact h
    · cases hst
      exact h.of_unmaps ⟨rfl, rfl, rfl⟩ (.of_process rfl (fun _ => rfl) rfl)
  | deny f cnt =>
    cases hst
    exact h.of_unmaps ⟨rfl, rfl, rfl⟩ (.of_process rfl (fun _ => rfl) rfl)

theorem IsoInv.of_boot (h : st.Boot) : IsoInv st where
  base := h.poolBase
  nodup := by
    rw [h.frameTable]
    exact List.nodup_nil
  used fte hfte := by
    rw [h.frameTable] at hfte
    cases hfte
  mapped t u k hk := by
    rw [getPage, pte, h.process] at hk
    cases hk
  covered t u hsome := by
    rw [getPage, pte, h.process] at hsome
    cases hsome
  keyed t u e he := by
    rw [getSupPte, h.process] at he
    cases he

end Vm

theorem vmMachine_step {st st' : Vm} {i : Nat × VmOp} {o : Unit}
    (h : vmMachine.step st i = some (o, st')) :
    st.enabled i.1 i.2 = true ∧ st.exec i.1 i.2 = .ok st' := by
  obtain ⟨henabled, h⟩ := Option.ite_none_right_eq_some.mp h
  obtain ⟨st'', hst, heq⟩ := Option.map_eq_some_iff.mp h
  cases heq
  exact ⟨henabled, Outcome.toOption_eq_some.mp hst⟩

theorem isoInv_of_reach {G : Vm → Nat × VmOp → Prop} {st : Vm} (h : vmMachine.Reach Vm.Boot G st) :
    st.IsoInv :=
  h.invariant (fun _ => .of_boot) fun _ _ _ _ hinv _ hstep =>
    hinv.exec (vmMachine_step hstep).1 (vmMachine_step hstep).2

/-- What every process can rely on. -/
structure Isolated (st : Vm) : Prop where
  /-- No frame is mapped by two pages. -/
  disjoint : ∀ t u t' u' k, st.getPage t u = some k → st.getPage t' u' = some k → t = t' ∧ u = u'
  /-- The frame of a page that is present has exactly one entry in the frame table, which names the
  process and the page. -/
  entry : ∀ t u k, st.getPage t u = some k →
    st.frameTable.filter (·.kpage = k) = [⟨t, u, k⟩]

/-- **Memory isolation.**  In every state that is reached, by any number of processes and any
sequence of steps, no frame is mapped by two pages, and every page that is present has exactly one
entry in the frame table, with its process, its page and its frame. -/
theorem memory_isolation {st : Vm} (h : vmMachine.Reach Vm.Boot (fun _ _ => True) st) :
    Isolated st := by
  have hinv := isoInv_of_reach h
  refine ⟨fun t u t' u' k h1 h2 => hinv.injective h1 h2, fun t u k hk => ?_⟩
  exact Vm.filter_kpage hinv.nodup (hinv.mapped t u k hk)

/-- With one frame, the stack of a second process takes the frame of the first. -/
theorem memory_isolation_shared : ∃ st,
    vmMachine.Reach Vm.Boot (fun _ _ => True) st ∧ st.getPage 1 Vm.stackPage = none ∧
      st.getPage 2 Vm.stackPage = some physBase ∧ Isolated st := by
  obtain ⟨st, hreach, hfirst, hsecond⟩ := vmMachine.exists_reach (Vm.boot_initial 1 1 0 0)
    [(1, .spawn), (1, .setupStack true), (2, .spawn), (2, .setupStack true)]
    (fun st => st.getPage 1 Vm.stackPage = none ∧ st.getPage 2 Vm.stackPage = some physBase)
    (by decide +kernel)
  exact ⟨st, hreach, hfirst, hsecond, memory_isolation hreach⟩

end Pintos
