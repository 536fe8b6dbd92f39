import Pintos.Vm.Isolation

/-!
# Pages, their entries and their frames

As long as lazy loading succeeds, the structures of virtual memory fit together more closely than
isolation needs.  `PageInv` says how: every entry of the frame table is that of a page that is
present, a supplemental page table entry belongs to one process, an entry that is swapped out is
loaded, is not one of a mapped file, and its page is not present but has a page table, and the list
of mapped files of a process holds entries of its table.

* `PageInv.of_sameViews` and `PageInv.of_unmapped` are the two ways in which the invariant is
  carried over: to a state that shows the same, and to one in which a page has been unmapped.
* `PageInv.frameEvict`, `PageInv.install`, `PageInv.release` and the lemmas beside them are about
  the pieces that the steps are made of.
-/

namespace Pintos

open Function (update update_eq_self update_of_ne update_self)

namespace Vm

variable {st st' : Vm} {t u k e : Nat}

/-! ## The invariant -/

/-- An entry that is swapped out is loaded, is not one of a mapped file, and its page is not present
but has a page table. -/
structure AwayAt (st : Vm) (t u e : Nat) : Prop where
  loaded : (st.spte e).loaded = true
  mmapId : (st.spte e).mmapId = mapFailed
  absent : st.getPage t u = none
  table : (st.pte t u).isSome

/-- **The invariant.** -/
structure PageInv (st : Vm) : Prop extends IsoInv st where
  /-- Every entry of the frame table is that of a page that is present. -/
  entries : ∀ fte ∈ st.frameTable, st.getPage fte.originThread fte.upage = some fte.kpage
  /-- A supplemental page table entry belongs to one process. -/
  owner : ∀ t u t' u' e, st.getSupPte t u = some e → st.getSupPte t' u' = some e → t = t'
  /-- Where an entry that is swapped out is. -/
  away : ∀ t u e, st.getSupPte t u = some e → (st.spte e).swapped = true → AwayAt st t u e
  /-- No entry is twice in the list of mapped files. -/
  listNodup : ∀ t, (st.mappedList t).Nodup
  /-- The list holds entries of the table that are those of mapped files. -/
  listed : ∀ t, ∀ e ∈ st.mappedList t,
    st.getSupPte t (st.spte e).upage = some e ∧ (st.spte e).mmapId ≠ mapFailed

theorem PageInv.not_swapped (h : PageInv st) (he : st.getSupPte t u = some e)
    (hk : st.getPage t u = some k) : (st.spte e).swapped = false := by
  cases hswapped : (st.spte e).swapped with
  | false => rfl
  | true =>
    have := (h.away t u e he hswapped).absent
    rw [hk] at this
    cases this

theorem PageInv.key_eq (h : PageInv st) {t' u' : Nat} (he : st.getSupPte t u = some e)
    (he' : st.getSupPte t' u' = some e) : t' = t ∧ u' = u :=
  ⟨h.owner t' u' t u e he' he, (h.keyed t' u' e he').1.symm.trans (h.keyed t u e he).1⟩

/-- What the invariant speaks of, apart from the list of mapped files. -/
structure SameViews (st st' : Vm) : Prop where
  frameTable : st'.frameTable = st.frameTable
  getPage : ∀ t u, st'.getPage t u = st.getPage t u
  table : ∀ t u, (st.pte t u).isSome → (st'.pte t u).isSome
  getSupPte : ∀ t u, st'.getSupPte t u = st.getSupPte t u
  spte : st'.spte = st.spte

theorem PageInv.of_sameViews (h : PageInv st) (hs : SameViews st st') (hiso : IsoInv st')
    (hnodup : ∀ t, (st'.mappedList t).Nodup)
    (hlisted : ∀ t, ∀ e ∈ st'.mappedList t,
      st.getSupPte t (st.spte e).upage = some e ∧ (st.spte e).mmapId ≠ mapFailed) :
    PageInv st' := by
  refine ⟨hiso, fun fte hfte => ?_, fun t1 u1 t2 u2 e h1 h2 => ?_, fun t u e he hsw => ?_, hnodup,
    fun t e he => ?_⟩
  · rw [hs.getPage]
    exact h.entries fte (hs.frameTable ▸ hfte)
  · rw [hs.getSupPte] at h1 h2
    exact h.owner t1 u1 t2 u2 e h1 h2
  · rw [hs.getSupPte] at he
    rw [hs.spte] at hsw
    obtain ⟨hloaded, hid, habsent, htable⟩ := h.away t u e he hsw
    exact ⟨by rwa [hs.spte], by rwa [hs.spte], by rwa [hs.getPage], hs.table t u htable⟩
  · rw [hs.getSupPte, hs.spte]
    exact hlisted t e he

/-- The invariant does not speak of contents. -/
structure SameTables (st st' : Vm) : Prop where
  process : st'.process = st.process
  spte : st'.spte = st.spte
  nextSpte : st'.nextSpte = st.nextSpte
  frameTable : st'.frameTable = st.frameTable
  userPool : st'.userPool = st.userPool
  poolBase : st'.poolBase = st.poolBase

theorem PageInv.of_sameTables (h : PageInv st) (hs : SameTables st st') : PageInv st' := by
  have hpte : ∀ t u, st'.pte t u = st.pte t u := fun t u => by rw [pte, hs.process, pte]
  have hsup : ∀ t u, st'.getSupPte t u = st.getSupPte t u := fun t u => by
    rw [getSupPte, hs.process, getSupPte]
  have hlist : st'.mappedList = st.mappedList := by
    funext t; rw [mappedList, hs.process, mappedList]
  refine h.of_sameViews ⟨hs.frameTable, fun t u => getPage_congr (hpte t u),
    fun t u hsome => by rwa [hpte], hsup, hs.spte⟩ (h.toIsoInv.of_unmaps
      ⟨hs.frameTable, hs.userPool, hs.poolBase⟩
      (.of_process hs.process (fun e => by rw [hs.spte]) hs.nextSpte)) ?_ ?_
  · rw [hlist]
    exact h.listNodup
  · rw [hlist]
    exact h.listed

theorem PageInv.setDirty (h : PageInv st) (t u : Nat) : PageInv (st.setDirty t u) := by
  refine h.of_sameViews ⟨rfl, getPage_setDirty st t u, fun t' u' hsome => ?_,
    getSupPte_modifyPte st t u _, rfl⟩ (h.toIsoInv.of_unmaps ⟨rfl, rfl, rfl⟩ (unmaps_setDirty ..))
      (fun t' => ?_) fun t' e' he' => ?_
  · rw [Vm.setDirty, pte_modifyPte]
    split
    next heq => rwa [Option.isSome_map, ← heq.1, ← heq.2]
    next => exact hsome
  · rw [Vm.setDirty, mappedList_modifyPte]
    exact h.listNodup t'
  · rw [Vm.setDirty, mappedList_modifyPte] at he'
    exact h.listed t' e' he'

/-! ## Unmapping a page -/

/-- The page `u` of `t` has been unmapped from the frame `k`, which has left the frame table, and
its supplemental page table entry is now `s`. -/
structure Unmapped (st : Vm) (t u k e : Nat) (s : SupPte) (st' : Vm) : Prop where
  pte : ∀ t' u', st'.pte t' u' = (st.clearPage t u).pte t' u'
  getSupPte : ∀ t' u', st'.getSupPte t' u' = st.getSupPte t' u'
  spte : st'.spte = update st.spte e s
  mappedList : ∀ t', ∀ x ∈ st'.mappedList t', x ∈ st.mappedList t'
  listNodup : ∀ t', (st.mappedList t').Nodup → (st'.mappedList t').Nodup
  frameTable : ∀ fte ∈ st'.frameTable, fte ∈ st.frameTable ∧ fte.kpage ≠ k

variable {s : SupPte} {dirty : Bool}

theorem Unmapped.getPage (h : Unmapped st t u k e s st') (t' u' : Nat) :
    st'.getPage t' u' = if t' = t ∧ u' = u then none else st.getPage t' u' :=
  (getPage_congr (h.pte t' u')).trans (getPage_clearPage ..)

theorem PageInv.of_unmapped (h : PageInv st) (he : st.getSupPte t u = some e)
    (hk : st.getPage t u = some k) (hst : Unmapped st t u k e s st') (hiso : IsoInv st')
    (hupage : s.upage = (st.spte e).upage) (hmmap : s.mmapId = (st.spte e).mmapId)
    (hswapped : s.swapped = true → s.loaded = true ∧ s.mmapId = mapFailed) : PageInv st' := by
  have hspte : ∀ e', e' ≠ e → st'.spte e' = st.spte e' := fun e' hne => by
    rw [hst.spte, update_of_ne hne]
  have hself : st'.spte e = s := by rw [hst.spte, update_self]
  refine ⟨hiso, fun fte hfte => ?_, fun t1 u1 t2 u2 e' h1 h2 => ?_, fun t' u' e' he' hsw => ?_,
    fun t' => hst.listNodup t' (h.listNodup t'), fun t' e' he' => ?_⟩
  · obtain ⟨hold, hne⟩ := hst.frameTable fte hfte
    have hpage := h.entries fte hold
    rw [hst.getPage, if_neg]
    · exact hpage
    · rintro ⟨ht, hu⟩
      rw [ht, hu, hk] at hpage
      exact hne (Option.some_inj.mp hpage).symm
  · rw [hst.getSupPte] at h1 h2
    exact h.owner t1 u1 t2 u2 e' h1 h2
  · rw [hst.getSupPte] at he'
    by_cases heq : e' = e
    · subst heq
      obtain ⟨rfl, rfl⟩ := h.key_eq he he'
      rw [hself] at hsw
      refine ⟨by rw [hself]; exact (hswapped hsw).1, by rw [hself]; exact (hswapped hsw).2, ?_, ?_⟩
      · rw [hst.getPage, if_pos ⟨rfl, rfl⟩]
      · obtain ⟨x, hx, -⟩ := getPage_eq_some.mp hk
        rw [hst.pte, clearPage, pte_modifyPte, if_pos ⟨rfl, rfl⟩, hx, Option.map_some,
          Option.isSome_some]
    · rw [hspte e' heq] at hsw
      obtain ⟨hloaded, hmmap', habsent, htable⟩ := h.away t' u' e' he' hsw
      have hne : ¬ (t' = t ∧ u' = u) := by
        rintro ⟨rfl, rfl⟩
        rw [hk] at habsent
        cases habsent
      refine ⟨by rwa [hspte e' heq], by rwa [hspte e' heq], ?_, ?_⟩
      · rwa [hst.getPage, if_neg hne]
      · rwa [hst.pte, clearPage, pte_modifyPte, if_neg hne]
  · obtain ⟨hsup, hid⟩ := h.listed t' e' (hst.mappedList t' e' he')
    rw [hst.getSupPte]
    by_cases heq : e' = e
    · subst heq
      rw [hself, hupage, hmmap]
      exact ⟨hsup, hid⟩
    · rw [hspte e' heq]
      exact ⟨hsup, hid⟩

theorem Evicted.entry (h : Evicted st t e k dirty st') :
    ∃ s, st'.spte = update st.spte e s ∧ s.upage = (st.spte e).upage ∧
      s.mmapId = (st.spte e).mmapId ∧
      (s.swapped = true → (st.spte e).swapped = true ∨
        (s.loaded = true ∧ s.mmapId = mapFailed)) := by
  cases h with
  | swapped hmmap _ hloaded hout =>
    rw [swapOut] at hout
    split at hout
    · cases hout
    · cases hout
      exact ⟨_, rfl, rfl, rfl, fun _ => .inr ⟨hloaded, hmmap⟩⟩
  | dropped hmmap _ => exact ⟨_, rfl, rfl, rfl, .inl⟩
  | toFile _ hback =>
    obtain ⟨file, rfl⟩ := file_writeBackIf hback
    exact ⟨_, rfl, rfl, rfl, .inl⟩

/-- **Eviction** unmaps the page of the first entry of the frame table. -/
structure Evicts (st : Vm) (t : Nat) (fte : Fte) (rest : List Fte) (e : Nat) (st₁ st' : Vm) :
    Prop where
  cons : st.frameTable = fte :: rest
  entry : st.getSupPte fte.originThread fte.upage = some e
  page : st.getPage fte.originThread fte.upage = some fte.kpage
  contents : Evicted st t e fte.kpage (st.isDirty fte.originThread fte.upage) st₁
  result : st' = { (st₁.clearPage fte.originThread fte.upage).freedPage fte.kpage with
    frameTable := rest }

theorem PageInv.evicts (h : PageInv st) (hst : st.frameEvict t = .ok st') :
    ∃ fte rest e st1, Evicts st t fte rest e st1 st' := by
  obtain ⟨fte, rest, e, st1, hcons, hentry, hcontents, rfl⟩ := frameEvict_eq_ok hst
  exact ⟨fte, rest, e, st1, hcons, hentry, h.entries fte (hcons ▸ .head _), hcontents, rfl⟩

theorem process_evicted (h : Evicted st t e k dirty st') : st'.process = st.process := by
  obtain ⟨_, _, _, _, _, _, _, rfl⟩ := h.eq
  rfl

theorem PageInv.unmapped_of_evicts (h : PageInv st) {fte : Fte} {rest : List Fte} {st1 : Vm}
    (hev : Evicts st t fte rest e st1 st') (hs : st1.spte = update st.spte e s) :
    Unmapped st fte.originThread fte.upage fte.kpage e s st' := by
  obtain ⟨hcons, hentry, hpage, hcontents, rfl⟩ := hev
  have hprocess := process_evicted hcontents
  have hpte : ∀ t u, st1.pte t u = st.pte t u := fun t u => by rw [pte, hprocess, pte]
  have hnodup := h.nodup
  rw [hcons, List.map_cons, List.nodup_cons] at hnodup
  refine ⟨fun t' u' => ?_, fun t' u' => ?_, ?_, fun t' x hx => ?_, fun t' hl => ?_,
    fun b hb => ⟨?_, fun hk => ?_⟩⟩
  · show (st1.clearPage _ _).pte t' u' = _
    rw [clearPage, clearPage, pte_modifyPte, pte_modifyPte, hpte, hpte]
  · show (st1.clearPage _ _).getSupPte t' u' = _
    rw [clearPage, getSupPte_modifyPte, getSupPte, hprocess, getSupPte]
  · exact hs
  · have hx : x ∈ (st1.clearPage fte.originThread fte.upage).mappedList t' := hx
    rwa [clearPage, mappedList_modifyPte, mappedList, hprocess] at hx
  · show ((st1.clearPage fte.originThread fte.upage).mappedList t').Nodup
    rwa [clearPage, mappedList_modifyPte, mappedList, hprocess]
  · exact hcons ▸ .tail _ hb
  · exact hnodup.1 (List.mem_map.mpr ⟨b, hb, hk⟩)

/-- **Evictions keep the invariant.** -/
theorem PageInv.frameEvict (h : PageInv st) (hst : st.frameEvict t = .ok st') : PageInv st' := by
  obtain ⟨fte, rest, e, st1, hev⟩ := h.evicts hst
  obtain ⟨s, hs, hupage, hmmap, hswapped⟩ := hev.contents.entry
  obtain ⟨hframes, hunmaps⟩ := h.toFrameInv.frameEvict hst
  refine h.of_unmapped hev.entry hev.page (h.unmapped_of_evicts hev hs)
    ⟨hframes, hunmaps.covered h.covered, hunmaps.keyed h.keyed⟩ hupage hmmap fun hsw => ?_
  rcases hswapped hsw with hold | hnew
  · rw [h.not_swapped hev.entry hev.page] at hold
    cases hold
  · exact hnew

/-! ## Mapping a page -/

/-- **Mapping a page** to a frame that was free. -/
theorem PageInv.install (h : PageInv st) {zero : Bool}
    (hget : st.pallocGetPage zero = some (k, st')) (hprocess : (st.process t).isSome)
    (hnone : st.getPage t u = none)
    (hsw : ∀ e, st.getSupPte t u = some e → (st.spte e).swapped = false) (writable : Bool)
    (hiso : IsoInv ((st'.enter t u k).mapPage t u k writable)) :
    PageInv ((st'.enter t u k).mapPage t u k writable) := by
  obtain ⟨idx, -, -, -, rfl⟩ := pallocGetPage_eq_some hget
  obtain ⟨p, hp⟩ := Option.isSome_iff_exists.mp hprocess
  refine ⟨hiso, fun fte hfte => ?_, fun t1 u1 t2 u2 e' h1 h2 => ?_, fun t' u' e' he' hsw' => ?_,
    fun t' => ?_, fun t' e' he' => ?_⟩
  · rw [getPage_mapPage]
    rcases List.mem_append.mp hfte with hfte | hfte
    · have hpage := h.entries fte hfte
      rw [if_neg]
      · exact hpage
      · rintro ⟨ht, hu⟩
        rw [ht, hu, hnone] at hpage
        cases hpage
    · rw [List.mem_singleton.mp hfte, if_pos ⟨rfl, rfl⟩]
      show (st.process t).map _ = _
      rw [hp, Option.map_some]
  · rw [getSupPte_mapPage] at h1 h2
    exact h.owner t1 u1 t2 u2 e' h1 h2
  · rw [getSupPte_mapPage] at he'
    have hne : ¬ (t' = t ∧ u' = u) := by
      rintro ⟨rfl, rfl⟩
      exact Bool.false_ne_true ((hsw e' he').symm.trans hsw')
    obtain ⟨hloaded, hmmap, habsent, htable⟩ := h.away t' u' e' he' hsw'
    refine ⟨hloaded, hmmap, ?_, ?_⟩
    · rw [getPage_mapPage, if_neg hne]
      exact habsent
    · rw [pte_mapPage, if_neg hne]
      exact htable
  · rw [mappedList_mapPage]
    exact h.listNodup t'
  · rw [mappedList_mapPage] at he'
    rw [getSupPte_mapPage]
    exact h.listed t' e' he'

/-! ## Supplemental page table entries -/

theorem PageInv.modifySpte (h : PageInv st) (f : SupPte → SupPte)
    (hupage : ∀ s, (f s).upage = s.upage)
    (hmmap : (st.spte e).mmapId ≠ mapFailed → (f (st.spte e)).mmapId ≠ mapFailed)
    (haway : ∀ t u, st.getSupPte t u = some e → (f (st.spte e)).swapped = true →
      (f (st.spte e)).loaded = true ∧ (f (st.spte e)).mmapId = mapFailed ∧
        (st.spte e).swapped = true) : PageInv (st.modifySpte e f) := by
  have hspte : ∀ e', e' ≠ e → (st.modifySpte e f).spte e' = st.spte e' := fun e' hne =>
    update_of_ne hne ..
  have hself : (st.modifySpte e f).spte e = f (st.spte e) := update_self ..
  refine ⟨h.toIsoInv.modifySpte e f hupage, h.entries, h.owner, fun t' u' e' he' hsw => ?_,
    h.listNodup, fun t' e' he' => ?_⟩
  · by_cases heq : e' = e
    · subst heq
      rw [hself] at hsw
      obtain ⟨hloaded, hid, hold⟩ := haway t' u' he' hsw
      obtain ⟨-, -, habsent, htable⟩ := h.away t' u' e' he' hold
      exact ⟨by rw [hself]; exact hloaded, by rw [hself]; exact hid, habsent, htable⟩
    · rw [hspte e' heq] at hsw
      obtain ⟨hloaded, hid, habsent, htable⟩ := h.away t' u' e' he' hsw
      exact ⟨by rwa [hspte e' heq], by rwa [hspte e' heq], habsent, htable⟩
  · obtain ⟨hsup, hid⟩ := h.listed t' e' he'
    by_cases heq : e' = e
    · subst heq
      rw [hself, hupage]
      exact ⟨hsup, hmmap hid⟩
    · rw [hspte e' heq]
      exact ⟨hsup, hid⟩

/-- **A new entry.** -/
theorem PageInv.addSpte (h : PageInv st) (hnone : st.getSupPte t s.upage = none)
    (hsw : s.swapped = false) (hiso : IsoInv (st.addSpte t s)) : PageInv (st.addSpte t s) := by
  have hspte : ∀ e', e' < st.nextSpte → (st.addSpte t s).spte e' = st.spte e' := fun e' hlt =>
    update_of_ne hlt.ne ..
  have hpage : ∀ t' u', (st.addSpte t s).getPage t' u' = st.getPage t' u' := fun t' u' =>
    getPage_congr (pte_addSpte st t s t' u')
  -- The entries of the tables are the old ones and the new one.
  have hsup : ∀ t' u' e', (st.addSpte t s).getSupPte t' u' = some e' →
      (e' = st.nextSpte ∧ t' = t ∧ u' = s.upage) ∨
        (st.getSupPte t' u' = some e' ∧ e' < st.nextSpte) := fun t' u' e' he' => by
    rw [getSupPte_addSpte] at he'
    split at he'
    next heq =>
      obtain ⟨-, -, rfl⟩ := Option.map_eq_some_iff.mp he'
      exact .inl ⟨rfl, heq⟩
    next => exact .inr ⟨he', (h.keyed t' u' e' he').2⟩
  refine ⟨hiso, fun fte hfte => ?_, fun t1 u1 t2 u2 e' h1 h2 => ?_, fun t' u' e' he' hsw' => ?_,
    fun t' => ?_, fun t' e' he' => ?_⟩
  · rw [hpage]
    exact h.entries fte hfte
  · rcases hsup t1 u1 e' h1 with ⟨rfl, rfl, -⟩ | ⟨h1, hlt1⟩ <;>
      rcases hsup t2 u2 _ h2 with ⟨heq, rfl, -⟩ | ⟨h2, hlt2⟩
    · rfl
    · exact absurd hlt2 (Nat.lt_irrefl _)
    · exact absurd (heq ▸ hlt1) (Nat.lt_irrefl _)
    · exact h.owner t1 u1 t2 u2 e' h1 h2
  · rcases hsup t' u' e' he' with ⟨rfl, -⟩ | ⟨he', hlt⟩
    · rw [show (st.addSpte t s).spte st.nextSpte = s from update_self .., hsw] at hsw'
      cases hsw'
    · rw [hspte e' hlt] at hsw'
      obtain ⟨hloaded, hid, habsent, htable⟩ := h.away t' u' e' he' hsw'
      exact ⟨by rwa [hspte e' hlt], by rwa [hspte e' hlt], by rwa [hpage], by rwa [pte_addSpte]⟩
  · rw [mappedList_addSpte]
    exact h.listNodup t'
  · rw [mappedList_addSpte] at he'
    obtain ⟨hold, hid⟩ := h.listed t' e' he'
    have hlt := (h.keyed _ _ _ hold).2
    rw [hspte e' hlt]
    refine ⟨?_, hid⟩
    rw [getSupPte_addSpte, if_neg]
    · exact hold
    · rintro ⟨rfl, hu⟩
      rw [hu, hnone] at hold
      cases hold

/-- **An entry leaves the table.**  It has left the list before. -/
theorem PageInv.pageRemove (h : PageInv st) (hnone : st.getPage t u = none)
    (hlist : ∀ e ∈ st.mappedList t, (st.spte e).upage ≠ u) : PageInv (st.pageRemove t u) := by
  have hpage : ∀ t' u', (st.pageRemove t u).getPage t' u' = st.getPage t' u' := fun t' u' =>
    getPage_congr (pte_pageRemove st t u t' u')
  have hsup : ∀ t' u' e', (st.pageRemove t u).getSupPte t' u' = some e' →
      st.getSupPte t' u' = some e' := fun t' u' e' he' => by
    rw [getSupPte_pageRemove, Option.ite_none_left_eq_some] at he'
    exact he'.2
  refine ⟨h.toIsoInv.pageRemove hnone, fun fte hfte => ?_, fun t1 u1 t2 u2 e' h1 h2 => ?_,
    fun t' u' e' he' hsw => ?_, fun t' => ?_, fun t' e' he' => ?_⟩
  · rw [hpage]
    exact h.entries fte hfte
  · exact h.owner t1 u1 t2 u2 e' (hsup _ _ _ h1) (hsup _ _ _ h2)
  · obtain ⟨hloaded, hid, habsent, htable⟩ := h.away t' u' e' (hsup _ _ _ he') hsw
    exact ⟨hloaded, hid, by rwa [hpage], by rwa [pte_pageRemove]⟩
  · rw [mappedList_pageRemove]
    exact h.listNodup t'
  · rw [mappedList_pageRemove] at he'
    obtain ⟨hold, hid⟩ := h.listed t' e' he'
    refine ⟨?_, hid⟩
    rw [getSupPte_pageRemove, if_neg]
    · exact hold
    · rintro ⟨rfl, hu⟩
      exact hlist e' he' hu

/-! ## The list of mapped files -/

theorem process_isSome_of_getSupPte (h : st.getSupPte t u = some e) : (st.process t).isSome := by
  obtain ⟨p, hp, -⟩ := Option.bind_eq_some_iff.mp h
  rw [hp, Option.isSome_some]

/-- An entry is put into the list. -/
def pushMapped (st : Vm) (t e : Nat) : Vm :=
  st.modifyProcess t fun p => { p with mmapList := p.mmapList ++ [e] }

theorem mappedList_pushMapped (st : Vm) (t e t' : Nat) (h : (st.process t).isSome) :
    (st.pushMapped t e).mappedList t' =
      if t' = t then st.mappedList t ++ [e] else st.mappedList t' := by
  rw [mappedList, pushMapped, process_modifyProcess]
  split
  next heq =>
    obtain ⟨p, hp⟩ := Option.isSome_iff_exists.mp h
    rw [mappedList, hp]
    rfl
  next => rfl

theorem getSupPte_pushMapped (st : Vm) (t e t' u' : Nat) :
    (st.pushMapped t e).getSupPte t' u' = st.getSupPte t' u' := by
  refine getSupPte_modifyProcess st t _ ?_ t' u'
  exact fun _ => rfl

theorem isLoading_pushMapped (st : Vm) (t e t' : Nat) :
    (st.pushMapped t e).isLoading t' = st.isLoading t' := by
  refine isLoading_modifyProcess st t _ ?_ t'
  exact fun _ => rfl

theorem mappedList_dropMapped (st : Vm) (t e t' : Nat) :
    (st.dropMapped t e).mappedList t' =
      if t' = t then (st.mappedList t).erase e else st.mappedList t' := by
  rw [mappedList, dropMapped, process_modifyProcess]
  split
  next heq =>
    rw [mappedList]
    cases st.process t <;> rfl
  next => rfl

theorem PageInv.relist (h : PageInv st) (f : Process → Process)
    (hdir : ∀ p, (f p).pagedir = p.pagedir) (htable : ∀ p, (f p).supPageTable = p.supPageTable)
    (hnodup : ∀ t', ((st.modifyProcess t f).mappedList t').Nodup)
    (hlisted : ∀ t', ∀ e ∈ (st.modifyProcess t f).mappedList t',
      st.getSupPte t' (st.spte e).upage = some e ∧ (st.spte e).mmapId ≠ mapFailed) :
    PageInv (st.modifyProcess t f) := by
  have hpte := pte_modifyProcess st t f hdir
  exact h.of_sameViews ⟨rfl, fun t' u' => getPage_congr (hpte t' u'),
    fun t' u' hsome => by rwa [hpte], getSupPte_modifyProcess st t f htable, rfl⟩
    (h.toIsoInv.modifyProcess t f hdir htable) hnodup hlisted

theorem PageInv.modifyProcess (h : PageInv st) (t : Nat) (f : Process → Process)
    (hdir : ∀ p, (f p).pagedir = p.pagedir) (htable : ∀ p, (f p).supPageTable = p.supPageTable)
    (hlist : ∀ p, (f p).mmapList = p.mmapList) : PageInv (st.modifyProcess t f) := by
  refine h.relist f hdir htable (fun t' => ?_) fun t' e' he' => ?_
  · rw [mappedList_modifyProcess st t f hlist]
    exact h.listNodup t'
  · rw [mappedList_modifyProcess st t f hlist] at he'
    exact h.listed t' e' he'

theorem PageInv.pushMapped (h : PageInv st) (he : st.getSupPte t (st.spte e).upage = some e)
    (hid : (st.spte e).mmapId ≠ mapFailed) (hnot : e ∉ st.mappedList t) :
    PageInv (st.pushMapped t e) := by
  have hlist := fun t' => mappedList_pushMapped st t e t' (process_isSome_of_getSupPte he)
  refine h.relist _ (fun _ => rfl) (fun _ => rfl) (fun t' => ?_) fun t' e' he' => ?_
  · rw [show (st.modifyProcess t _).mappedList t' = _ from hlist t']
    split
    · rw [List.nodup_append]
      refine ⟨h.listNodup t, List.nodup_singleton _, fun a ha b hb hab => ?_⟩
      rw [List.mem_singleton] at hb
      exact hnot (hb ▸ hab ▸ ha)
    · exact h.listNodup t'
  · rw [show (st.modifyProcess t _).mappedList t' = _ from hlist t'] at he'
    split at he'
    next heq =>
      rcases List.mem_append.mp he' with he' | he'
      · exact heq ▸ h.listed t e' he'
      · rw [List.mem_singleton.mp he', heq]
        exact ⟨he, hid⟩
    next => exact h.listed t' e' he'

theorem PageInv.dropMapped (h : PageInv st) (t e : Nat) : PageInv (st.dropMapped t e) := by
  have hlist := mappedList_dropMapped st t e
  refine h.relist _ (fun _ => rfl) (fun _ => rfl) (fun t' => ?_) fun t' e' he' => ?_
  · rw [show (st.modifyProcess t _).mappedList t' = _ from hlist t']
    split
    · exact (h.listNodup t).erase e
    · exact h.listNodup t'
  · rw [show (st.modifyProcess t _).mappedList t' = _ from hlist t'] at he'
    split at he'
    next heq => exact heq ▸ h.listed t e' (List.mem_of_mem_erase he')
    next => exact h.listed t' e' he'

/-! ## Freeing the frame of a page -/

theorem frameFree_of_mem (hst : st.frameFree k = .ok st')
    (hmem : ∃ fte ∈ st.frameTable, fte.kpage = k) :
    st' = { st.freedPage k with frameTable := st.frameTable.eraseP (·.kpage = k) } := by
  rcases frameFree_eq_ok hst with ⟨hnone, -⟩ | ⟨-, heq⟩
  · obtain ⟨fte, hfte, hk⟩ := hmem
    exact absurd hk (hnone fte hfte)
  · exact heq

/-- **A page is unmapped and its frame freed**, by `SYS_MUNMAP` or at exit. -/
theorem PageInv.release (h : PageInv st) (he : st.getSupPte t u = some e)
    (hk : st.getPage t u = some k) (hst : (st.clearPage t u).frameFree k = .ok st') :
    PageInv st' ∧ Unmapped st t u k e (st.spte e) st' ∧
      st' = { (st.clearPage t u).freedPage k with
        frameTable := st.frameTable.eraseP (·.kpage = k) } := by
  obtain ⟨hcleared, hunmapped⟩ := h.toIsoInv.clear hk
  have hiso := hcleared.frameFree hunmapped hst
  have hresult := frameFree_of_mem hst ⟨_, h.mapped t u k hk, rfl⟩
  have hun : Unmapped st t u k e (st.spte e) st' := by
    subst hresult
    refine ⟨fun _ _ => rfl, getSupPte_modifyPte st t u _, ?_, fun t' x hx => ?_, fun t' hl => ?_,
      fun fte hfte => ⟨List.mem_of_mem_eraseP hfte, kpage_ne_of_mem_eraseP h.nodup hfte⟩⟩
    · exact (update_eq_self ..).symm
    · exact mappedList_modifyPte st t u _ t' ▸ hx
    · exact (mappedList_modifyPte st t u _ t').symm ▸ hl
  refine ⟨h.of_unmapped he hk hun hiso rfl rfl fun hsw => ?_, hun, hresult⟩
  obtain ⟨hloaded, hid, -⟩ := h.away t u e he hsw
  exact ⟨hloaded, hid⟩

end Vm

end Pintos
