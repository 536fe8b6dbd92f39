import Pintos.Lib.Slots
import Pintos.Vm.Steps

/-!
# Swap slots

The set bits of `swap_table` are the slots of the pages that are swapped out, each page has a slot
of its own, and the slot holds what the page held when it was written there.

This is ownership in the sense of `Slots.Owned`: an eviction of a dirty page takes a free slot, and
a page that comes back gives its slot up.  At the end of a process the slots of its pages are given
back one by one while the entries still say that they are swapped out.  The invariant is therefore
stated for the pages of a set, from which the rounds of `page_table_remove` take one page after the
other.

Two things break it.  Lazy loading that fails leaves an entry of the frame table behind, through
which a page is written out twice.  And a page is mapped while `frame_evict` writes it out, so that
its owner can store to a sector that is on the disk by then.

* `get_swapIn` and `slotPage_swapOut`: a page is read back from the eight sectors it was written to.
* `SwapInv.change` and `SwapInv.round`: the invariant over a change and over a round.
* `evictingMachine` has the steps of `vmMachine`, with the stores that fall into an eviction.
* `swap_slots_owned`: the property, in every state that is reached without the two.
-/

namespace Pintos

open Bytes (Block)

namespace Vm

open Outcome (bind_eq_ok foldlM_induction bind_ne_error foldlM_ne_error)

variable {st st0 st' : Vm} {t u k e : Nat} {op : VmOp} {idx : Nat} {i : Nat}

/-! ## The contents of a slot -/

/-- The page in a slot of the swap disk. -/
def slotPage (disk : Nat → Block 512) (swapIdx : Nat) : Page := fun i =>
  (disk (swapIdx * 8 + i / 512)).get (i % 512)

theorem get_slotPage (disk : Nat → Block 512) (swapIdx : Nat) (hi : i < pgsize) :
    (slotPage disk swapIdx).get i = (disk (swapIdx * 8 + i / 512)).get (i % 512) := by
  rw [Block.get, dif_pos hi, slotPage]

theorem get_sectorOf (page : Page) (c : Nat) (hi : i < 512) :
    (sectorOf page c).get i = page.get (c * 512 + i) := by
  rw [Block.get, dif_pos hi, sectorOf]

theorem first_sector (swapIdx : Nat) : swapIdx * pgsize / 512 = swapIdx * 8 := by
  unfold pgsize
  omega

theorem foldl_update_range {α : Type} (base : Nat) (f : Nat → α) (disk : Nat → α) (n x : Nat) :
    (List.range n).foldl (fun disk c => Function.update disk (base + c) (f c)) disk x =
      if base ≤ x ∧ x < base + n then f (x - base) else disk x := by
  induction n with
  | zero => simp
  | succ n ih =>
    rw [List.range_succ, List.foldl_append, List.foldl_cons, List.foldl_nil]
    by_cases hx : x = base + n
    · rw [hx, Function.update_self, if_pos (by omega), Nat.add_sub_cancel_left]
    · rw [Function.update_of_ne hx, ih]
      exact if_congr (by omega) rfl rfl

theorem get_foldl_write (f : Nat → Block 512) (page : Page) {n i : Nat} (hn : n ≤ 8)
    (hi : i < pgsize) :
    ((List.range n).foldl (fun page c => page.write (c * 512) ((f c).read 0 512)) page).get i =
      if i < n * 512 then (f (i / 512)).get (i % 512) else page.get i := by
  induction n with
  | zero => simp
  | succ n ih =>
    rw [List.range_succ, List.foldl_append, List.foldl_cons, List.foldl_nil,
      Block.get_write _ _ _ hi, Block.length_read, ih (by omega)]
    by_cases hlast : n * 512 ≤ i ∧ i < n * 512 + 512
    · have hdiv : i / 512 = n := by omega
      rw [if_pos hlast, if_pos (by omega), Block.getD_read _ _ _ (by omega), hdiv]
      exact congrArg _ (by omega)
    · rw [if_neg hlast]
      exact if_congr (by omega) rfl rfl

/-- **`swap_in`** reads the page in the slot. -/
theorem mem_swapIn (st : Vm) (swapIdx k : Nat) :
    (st.swapIn swapIdx k).mem k = slotPage st.swapDisk swapIdx := by
  refine (Function.update_self ..).trans (Block.ext_get fun i hi => ?_)
  rw [get_slotPage _ _ hi, first_sector]
  refine (get_foldl_write (fun c => st.swapDisk (swapIdx * 8 + c)) (st.mem k) (Nat.le_refl 8)
    hi).trans ?_
  rw [if_pos hi]

theorem slotPage_foldl (disk : Nat → Block 512) (page : Page) (swapIdx j : Nat) :
    slotPage ((List.range 8).foldl (fun disk c =>
      Function.update disk (swapIdx * 8 + c) (sectorOf page c)) disk) j =
      if j = swapIdx then page else slotPage disk j := by
  refine Block.ext_get fun i hi => ?_
  have hlt : i / 512 < 8 := by unfold pgsize at hi; omega
  rw [get_slotPage _ _ hi, foldl_update_range]
  by_cases hj : j = swapIdx
  · subst hj
    rw [if_pos rfl, if_pos (by omega), Nat.add_sub_cancel_left,
      get_sectorOf _ _ (Nat.mod_lt _ (by decide))]
    exact congrArg _ (by omega)
  · rw [if_neg hj, if_neg (by omega), get_slotPage _ _ hi]

/-- **`swap_out`** takes a free slot, in which the page then is.  The other slots are as they
were. -/
theorem swapOut_eq_ok (h : st.swapOut k = .ok (idx, st')) :
    st.swapTable.bits idx = false ∧ ∃ disk,
      st' = { st with swapTable := st.swapTable.mark idx, swapDisk := disk } ∧
      ∀ j, slotPage disk j = if j = idx then st.mem k else slotPage st.swapDisk j := by
  rw [swapOut] at h
  split at h
  next => cases h
  next swapIdx table hscan =>
    rcases st.swapTable.scanAndFlip_one with ⟨hnone, -⟩ | ⟨idx', hsome, -, hbit⟩
    · rw [hnone] at hscan
      cases hscan
    · rw [hsome] at hscan
      cases hscan
      cases h
      refine ⟨hbit, _, rfl, fun j => ?_⟩
      rw [first_sector]
      exact slotPage_foldl ..

/-! ## The invariant -/

/-- The entry of a page of `P` that is swapped out. -/
def SwappedOut (st : Vm) (P : Nat → Nat → Prop) (e : Nat) : Prop :=
  ∃ t u, P t u ∧ st.getSupPte t u = some e ∧ (st.spte e).swapped = true

/-- **The invariant**: the slots that are taken are those of the pages of `P` that are swapped out,
with what these pages held. -/
def SwapInv (P : Nat → Nat → Prop) (st : Vm) : Prop :=
  Slots.Owned (st.SwappedOut P) (fun e => (st.spte e).swapIndex) st.swapTable.bits
    (slotPage st.swapDisk) st.saved

/-- All pages. -/
abbrev everyPage : Nat → Nat → Prop := fun _ _ => True

variable {P : Nat → Nat → Prop} {st1 : Vm}

theorem SwapInv.congr (h : SwapInv P st) (hs : SameSwap st st')
    (hentry : ∀ t u e, (st'.getSupPte t u = some e ∧ (st'.spte e).swapped = true) ↔
      (st.getSupPte t u = some e ∧ (st.spte e).swapped = true))
    (hidx : ∀ t u e, st.getSupPte t u = some e → (st'.spte e).swapIndex = (st.spte e).swapIndex) :
    SwapInv P st' := by
  refine Slots.Owned.congr h (fun e => ?_) (fun e he => ?_) (fun e _ => by rw [hs.saved])
    (by rw [hs.swapTable]) (by rw [hs.swapDisk])
  · simp only [SwappedOut, hentry]
  · obtain ⟨t, u, -, he, -⟩ := he
    exact hidx t u e he

theorem SwapInv.of_same (h : SwapInv P st) (hs : SameSwap st st')
    (hsup : ∀ t u, st'.getSupPte t u = st.getSupPte t u) (hspte : st'.spte = st.spte) :
    SwapInv P st' :=
  h.congr hs (fun t u e => by rw [hsup, hspte]) fun t u e _ => by rw [hspte]

theorem SwapInv.modifySpte (h : SwapInv P st) (e : Nat) (f : SupPte → SupPte)
    (hswapped : ∀ s, (f s).swapped = s.swapped) (hidx : ∀ s, (f s).swapIndex = s.swapIndex) :
    SwapInv P (st.modifySpte e f) := by
  refine h.congr ⟨rfl, rfl, rfl⟩ (fun t u e' => ?_) fun t u e' _ =>
    field_modifySpte SupPte.swapIndex st e f hidx e'
  rw [field_modifySpte SupPte.swapped st e f hswapped e']
  rfl

theorem SwapInv.addSpte (h : SwapInv P st) (hkeyed : Keyed st) {s : SupPte}
    (hnone : st.getSupPte t s.upage = none) (hhome : s.swapped = false) :
    SwapInv P (st.addSpte t s) := by
  refine h.congr ⟨rfl, rfl, rfl⟩ (fun t' u' e' => ?_) fun t' u' e' he' => by
    rw [spte_addSpte_of_lt _ _ (hkeyed t' u' e' he').2]
  rw [getSupPte_addSpte]
  split
  next heq =>
    rw [heq.1, heq.2, hnone]
    refine ⟨fun ⟨hnew, hswapped⟩ => ?_, fun ⟨hold, _⟩ => nomatch hold⟩
    obtain ⟨-, -, rfl⟩ := Option.map_eq_some_iff.mp hnew
    rw [spte_addSpte_self, hhome] at hswapped
    cases hswapped
  next =>
    refine and_congr_right fun hold => ?_
    rw [spte_addSpte_of_lt _ _ (hkeyed t' u' e' hold).2]

/-- **A dirty page is evicted**: it takes a free slot. -/
theorem SwapInv.swapped (h : SwapInv everyPage st) (hentry : st.getSupPte t u = some e)
    (hhome : (st.spte e).swapped = false)
    (hout : st.swapOut k = .ok (idx, st1)) :
    SwapInv everyPage ({ st1 with saved := Function.update st1.saved e (st1.mem k) }.modifySpte e
      fun s => { s with swapped := true, swapIndex := idx }) := by
  obtain ⟨hfree, disk, rfl, hdisk⟩ := swapOut_eq_ok hout
  have hnot : ¬ st.SwappedOut everyPage e := fun ⟨_, _, _, _, hswapped⟩ =>
    absurd (hswapped.symm.trans hhome) nofun
  have htaken : Slots.Owned _ _ _ (slotPage disk) _ := Slots.Owned.take h hnot hfree
    ((hdisk idx).trans (if_pos rfl)) fun j hj => (hdisk j).trans (if_neg hj)
  refine Slots.Owned.congr htaken (fun e' => ?_) (fun e' _ => ?_) (fun _ _ => rfl) rfl rfl
  · by_cases he : e' = e
    · subst he
      refine ⟨fun _ => .inl rfl, fun _ => ⟨t, u, trivial, hentry, ?_⟩⟩
      rw [spte_modifySpte_self]
    · simp only [SwappedOut, spte_modifySpte_of_ne he, he, false_or]
      rfl
  · by_cases he : e' = e
    · rw [he, spte_modifySpte_self, Function.update_self]
    · rw [spte_modifySpte_of_ne he, Function.update_of_ne he]

theorem SwapInv.evict (h : SwapInv everyPage st) (hinv : PageInv st) {fte : Fte} {rest : List Fte}
    (hev : Evicts st t fte rest e st1 st') : SwapInv everyPage st' := by
  obtain ⟨-, hentry, hpage, hcontents, rfl⟩ := hev
  have hcontent : SwapInv everyPage st1 := by
    cases hcontents with
    | swapped _ _ _ hout => exact h.swapped hentry (hinv.not_swapped hentry hpage) hout
    | dropped =>
      refine h.modifySpte _ _ ?_ ?_ <;> exact fun _ => rfl
    | @toFile _ st2 hback =>
      have hs := sameTables_writeBackIf hback
      have hback : SwapInv everyPage st2 :=
        h.of_same (sameSwap_writeBackIf hback) hs.getSupPte hs.spte
      refine hback.modifySpte _ _ ?_ ?_ <;> exact fun _ => rfl
  exact hcontent.of_same ⟨rfl, rfl, rfl⟩ (getSupPte_modifyPte st1 _ _ _) rfl

theorem swapped_swappedIn (st : Vm) (t u e k : Nat) :
    ((st.swappedIn t u e k).spte e).swapped = false := by
  rw [swappedIn, spte_modifySpte_self]

theorem spte_swappedIn_of_ne {e' : Nat} (h : e' ≠ e) (st : Vm) (t u k : Nat) :
    (st.swappedIn t u e k).spte e' = st.spte e' := spte_modifySpte_of_ne h ..

/-- **A page comes back**: it gives its slot up. -/
theorem SwapInv.swapIn (h : SwapInv everyPage st) {st2 : Vm}
    (hget : st.pallocGetPage true = some (k, st2)) (hentry : st.getSupPte t u = some e)
    (haway : (st.spte e).swapped = true) :
    SwapInv everyPage ((st2.enter t u k).swappedIn t u e k) := by
  have hgiven := Slots.Owned.give h ⟨t, u, trivial, hentry, haway⟩
  obtain ⟨idx, -, -, -, rfl⟩ := pallocGetPage_eq_some hget
  refine Slots.Owned.congr hgiven (fun e' => ?_) (fun e' he' => ?_) (fun _ _ => rfl) ?_ rfl
  · by_cases he : e' = e
    · subst he
      refine ⟨fun ⟨_, _, _, _, hswapped⟩ => ?_, fun hne => absurd rfl hne.1⟩
      rw [swapped_swappedIn] at hswapped
      cases hswapped
    · simp only [SwappedOut, getSupPte_swappedIn, spte_swappedIn_of_ne he]
      exact ⟨fun hs => ⟨he, hs⟩, fun hs => hs.2⟩
  · rw [spte_swappedIn_of_ne he'.1]
    rfl
  · exact congrArg Bitmap.bits (Bitmap.setMultiple_one ..)

theorem SwapInv.change (h : SwapInv everyPage st) (hinv : PageInv st)
    (hc : Change st0 t op st st') : SwapInv everyPage st' := by
  cases hc with
  | evict hev _ _ _ => exact h.evict hinv hev
  | stack hget =>
    obtain ⟨idx, -, -, -, rfl⟩ := pallocGetPage_eq_some hget
    exact h.of_same ⟨rfl, rfl, rfl⟩ (getSupPte_mapPage _ _ _ _ _) rfl
  | unused hget hfree =>
    obtain ⟨-, hprocess, hspte, -⟩ := hinv.unused hget hfree
    refine h.of_same ?_ (fun t' u' => by rw [getSupPte, hprocess, getSupPte]) hspte
    have hresult := frameFree_of_mem hfree ⟨_, List.mem_append_right _ (.head _), rfl⟩
    obtain ⟨idx, -, -, -, rfl⟩ := pallocGetPage_eq_some hget
    subst hresult
    exact ⟨rfl, rfl, rfl⟩
  | swapIn hget hentry haway => exact h.swapIn hget hentry haway
  | load hget =>
    obtain ⟨idx, -, -, -, rfl⟩ := pallocGetPage_eq_some hget
    refine SwapInv.modifySpte ?_ _ _ ?_ ?_
    · exact h.of_same ⟨rfl, rfl, rfl⟩ (getSupPte_mapPage _ _ _ _ _) rfl
    · exact fun _ => rfl
    · exact fun _ => rfl
  | entry _ hnone hhome _ => exact h.addSpte hinv.keyed hnone hhome
  | unload =>
    refine h.modifySpte _ _ ?_ ?_ <;> exact fun _ => rfl
  | mapEntry _ hnone hhome =>
    exact (h.addSpte hinv.keyed hnone hhome).of_same ⟨rfl, rfl, rfl⟩
      (getSupPte_pushMapped _ _ _) rfl
  | adjust f _ htable => exact h.of_same ⟨rfl, rfl, rfl⟩ (getSupPte_modifyProcess _ _ f htable) rfl
  | close hentry hk hclose hfree =>
    obtain ⟨hun, hspte, -⟩ := hinv.close hentry hk hclose hfree
    exact h.of_same (hinv.sameSwap_close hentry hk hclose hfree)
      (fun t' u' => (hun.getSupPte t' u').trans (getSupPte_closeMapping hclose t' u')) hspte
  | drop => exact h.of_same ⟨rfl, rfl, rfl⟩ (getSupPte_dropMapped _ _ _) rfl
  | @remove _ u e hentry _ hhome _ =>
    refine h.congr ⟨rfl, rfl, rfl⟩ (fun t' u' e' => ?_) fun _ _ _ _ => rfl
    rw [getSupPte_pageRemove]
    split
    next heq =>
      rw [heq.1, heq.2, hentry]
      refine iff_of_false (fun hnew => by cases hnew.1) ?_
      rintro ⟨⟨⟩, hswapped⟩
      cases hswapped.symm.trans hhome
    next => rfl
  | store _ hst =>
    obtain ⟨k, -, rfl⟩ := store_eq_ok hst
    exact h.of_same ⟨rfl, rfl, rfl⟩ (getSupPte_modifyPte _ _ _ _) rfl
  | write _ hst =>
    have hs := sameTables_write hst
    refine h.of_same ?_ hs.getSupPte hs.spte
    simp only [exec] at hst
    split at hst <;> cases hst <;> exact ⟨rfl, rfl, rfl⟩
  | deny _ hst =>
    cases hst
    exact h.of_same ⟨rfl, rfl, rfl⟩ (fun _ _ => rfl) rfl

theorem SwapInv.changes (h : SwapInv everyPage st) (hinv : PageInv st)
    (hc : Changes st0 t op st st') : SwapInv everyPage st' := by
  have hall : PageInv st' ∧ SwapInv everyPage st' := by
    induction hc with
    | refl => exact ⟨hinv, h⟩
    | tail _ hlast ih => exact ⟨ih.1.change hlast, ih.2.change ih.1 hlast⟩
  exact hall.2

/-! ## Exit -/

/-- The pages of other processes, and those of `t` that are still to come. -/
def notFreed (t : Nat) (rest : List Nat) : Nat → Nat → Prop := fun t' u' => t' = t → u' ∈ rest

variable {rest : List Nat} {dirty : Bool}

theorem SwapInv.freeSlot (h : SwapInv (notFreed t (u :: rest)) st) (hinv : PageInv st)
    (hnodup : u ∉ rest) (hentry : st.getSupPte t u = some e) (hst : st.freeSlot e = .ok st') :
    SwapInv (notFreed t rest) st' := by
  -- The pages that are left are the others.
  have hrest : ∀ e', st.SwappedOut (notFreed t rest) e' ↔
      e' ≠ e ∧ st.SwappedOut (notFreed t (u :: rest)) e' := fun e' => by
    constructor
    · rintro ⟨t', u', hleft, he', hswapped⟩
      refine ⟨?_, t', u', fun ht => .tail _ (hleft ht), he', hswapped⟩
      rintro rfl
      obtain ⟨rfl, rfl⟩ := hinv.key_eq hentry he'
      exact hnodup (hleft rfl)
    · rintro ⟨hne, t', u', hleft, he', hswapped⟩
      refine ⟨t', u', fun ht => ?_, he', hswapped⟩
      refine (List.mem_cons.mp (hleft ht)).resolve_left fun hu => hne ?_
      rw [ht, hu, hentry] at he'
      exact (Option.some_inj.mp he').symm
  rcases freeSlot_eq_ok hst with ⟨hhome, rfl⟩ | ⟨haway, -, rfl⟩
  · refine Slots.Owned.congr h (fun e' => ?_) (fun _ _ => rfl) (fun _ _ => rfl) rfl rfl
    rw [hrest]
    refine ⟨fun hs => hs.2, fun hs => ⟨?_, hs⟩⟩
    rintro rfl
    obtain ⟨_, _, _, _, hswapped⟩ := hs
    exact absurd (hswapped.symm.trans hhome) nofun
  · have hgiven := Slots.Owned.give h ⟨t, u, fun _ => .head _, hentry, haway⟩
    exact Slots.Owned.congr hgiven hrest (fun _ _ => rfl) (fun _ _ => rfl)
      (congrArg Bitmap.bits (Bitmap.setMultiple_one ..)) rfl

/-- **A round of `page_table_remove`.** -/
theorem SwapInv.round (h : SwapInv (notFreed t (u :: rest)) st) (hinv : PageInv st)
    (hnodup : u ∉ rest) (hst : pageTableFree t st u = .ok st') : SwapInv (notFreed t rest) st' := by
  obtain ⟨e, st1, hentry, hc, hslot, hspte, hsup, hsame, -⟩ :=
    hinv.pageTableFree st (.exit rest) rfl hst
  exact (h.of_same hsame hsup hspte).freeSlot (hinv.changes hc) hnodup
    ((hsup t u).trans hentry) hslot

/-! ## The assertion in `swap_set` -/

theorem pallocFreePage_ne : st.pallocFreePage k ≠ .error .swapSet := by
  rw [pallocFreePage]
  split <;> rintro ⟨⟩

theorem frameFree_ne : st.frameFree k ≠ .error .swapSet := by
  rw [frameFree]
  split
  · rintro ⟨⟩
  · exact bind_ne_error pallocFreePage_ne fun _ _ => by rintro ⟨⟩

theorem writeBackIf_ne : st.writeBackIf t e dirty ≠ .error .swapSet := by
  rw [writeBackIf]
  split
  · simp only [writeBack]
    repeat' split
    all_goals rintro ⟨⟩
  · rintro ⟨⟩

theorem evictContents_ne : st.evictContents t e k dirty ≠ .error .swapSet := by
  rw [evictContents]
  split
  · split
    · split
      · refine bind_ne_error ?_ fun _ _ => by rintro ⟨⟩
        rw [swapOut]
        split <;> rintro ⟨⟩
      · rintro ⟨⟩
    · rintro ⟨⟩
  · exact bind_ne_error writeBackIf_ne fun _ _ => by rintro ⟨⟩

theorem frameAlloc_ne {zero : Bool} : st.frameAlloc t u zero ≠ .error .swapSet := by
  rw [frameAlloc]
  split
  · rintro ⟨⟩
  · refine bind_ne_error ?_ fun st1 _ => by split <;> rintro ⟨⟩
    rw [frameEvict]
    split
    · rintro ⟨⟩
    · split
      · rintro ⟨⟩
      · exact bind_ne_error evictContents_ne fun _ _ =>
          bind_ne_error pallocFreePage_ne fun _ _ => by rintro ⟨⟩

variable {ptFree : Bool} {growth : Bool}

theorem setPage_ne {writable : Bool} : st.setPage t u k writable ptFree ≠ .error .swapSet := by
  rw [setPage]
  repeat' split
  all_goals rintro ⟨⟩

theorem installLoaded_ne {remove : Bool} :
    st.installLoaded t u e k remove ptFree ≠ .error .swapSet := by
  refine bind_ne_error setPage_ne fun r _ => ?_
  dsimp only
  split
  · rintro ⟨⟩
  · exact bind_ne_error frameFree_ne fun _ _ => by rintro ⟨⟩

theorem pageFault_ne : st.pageFault t u growth ptFree ≠ .error .swapSet := by
  rw [pageFault]
  split
  · split
    · refine bind_ne_error frameAlloc_ne fun r _ => bind_ne_error setPage_ne fun q _ => ?_
      dsimp only
      split
      · rintro ⟨⟩
      · exact frameFree_ne
    · rintro ⟨⟩
  · split
    · refine bind_ne_error frameAlloc_ne fun r _ => bind_ne_error setPage_ne fun q _ => ?_
      dsimp only
      split
      · split <;> rintro ⟨⟩
      · exact frameFree_ne
    · split
      · rintro ⟨⟩
      · simp only [lazyLoad]
        split
        · rintro ⟨⟩
        · split
          · exact bind_ne_error frameAlloc_ne fun _ _ => installLoaded_ne
          · split
            · rintro ⟨⟩
            · refine bind_ne_error frameAlloc_ne fun r _ => ?_
              split
              · rintro ⟨⟩
              · split
                · exact frameFree_ne
                · exact installLoaded_ne

theorem munmapEntry_ne {id : Int} : munmapEntry t id st e ≠ .error .swapSet := by
  simp only [munmapEntry]
  split
  · rintro ⟨⟩
  · split
    · rintro ⟨⟩
    · split
      · rintro ⟨⟩
      · split
        · exact bind_ne_error writeBackIf_ne fun _ _ => frameFree_ne
        · rintro ⟨⟩

theorem freePresent_ne : st.freePresent t e k ≠ .error .swapSet := by
  rw [freePresent]
  split
  · refine bind_ne_error ?_ fun _ _ => frameFree_ne
    rw [closeMapping]
    split
    · rintro ⟨⟩
    · exact bind_ne_error writeBackIf_ne fun _ _ => by rintro ⟨⟩
  · rintro ⟨⟩

theorem spte_freePresent (h : st.freePresent t e k = .ok st') : st'.spte = st.spte := by
  rw [freePresent] at h
  split at h
  next =>
    obtain ⟨st1, hclose, hfree⟩ := bind_eq_ok.mp h
    rw [← spte_closeMapping hclose]
    rcases frameFree_eq_ok hfree with ⟨-, rfl⟩ | ⟨-, rfl⟩ <;> rfl
  next => cases h

/-- **The assertion in `swap_set` holds**: the slot of a page that is swapped out is taken. -/
theorem SwapInv.pageTableFree_ne (h : SwapInv (notFreed t (u :: rest)) st) (hinv : PageInv st) :
    Vm.pageTableFree t st u ≠ .error .swapSet := by
  rw [pageTableFree]
  split
  next => rintro ⟨⟩
  next e he =>
    split
    next => rintro ⟨⟩
    next =>
      split
      next =>
        rw [Vm.freeSlot]
        split
        next hswapped =>
          have htaken := (h.taken_iff _).mpr ⟨e, ⟨t, u, fun _ => .head _, he, hswapped⟩, rfl⟩
          rw [swapSet, if_pos htaken]
          rintro ⟨⟩
        next => rintro ⟨⟩
      next k hk =>
        rw [(hinv.keyed t u e he).1] at hk
        refine bind_ne_error freePresent_ne fun st2 hpresent => ?_
        rw [Vm.freeSlot, spte_freePresent hpresent, if_neg]
        · rintro ⟨⟩
        · rw [hinv.not_swapped he hk]
          exact Bool.false_ne_true

/-- Every page counts, if the pages of the process that has exited are all still to be freed. -/
theorem SwapInv.nothingFreed (h : SwapInv everyPage st) {order : List Nat}
    (hmem : ∀ u, (st.getSupPte t u).isSome → u ∈ order) : SwapInv (notFreed t order) st := by
  refine Slots.Owned.congr h (fun e => ⟨?_, ?_⟩) (fun _ _ => rfl) (fun _ _ => rfl) rfl rfl
  · rintro ⟨t', u', -, he, hswapped⟩
    exact ⟨t', u', trivial, he, hswapped⟩
  · rintro ⟨t', u', -, he, hswapped⟩
    refine ⟨t', u', fun ht => hmem u' ?_, he, hswapped⟩
    rw [← ht, he, Option.isSome_some]

theorem SwapInv.rounds (h : SwapInv everyPage st) (hinv : PageInv st) {order : List Nat}
    (hmem : ∀ u, u ∈ order ↔ (st.getSupPte t u).isSome) (hnodup : order.Nodup) :
    order.foldlM (Vm.pageTableFree t) st ≠ .error .swapSet ∧
      ∀ st1, order.foldlM (Vm.pageTableFree t) st = .ok st1 → SwapInv (notFreed t []) st1 := by
  have hstart : SwapInv (notFreed t order) st := h.nothingFreed fun u => (hmem u).mpr
  have hstep : ∀ u rest s s', (PageInv s ∧ SwapInv (notFreed t (u :: rest)) s ∧ (u :: rest).Nodup) →
      pageTableFree t s u = .ok s' → PageInv s' ∧ SwapInv (notFreed t rest) s' ∧ rest.Nodup := by
    rintro u rest s s' ⟨hs, hswap, hnodup⟩ hround
    rw [List.nodup_cons] at hnodup
    obtain ⟨e, s1, -, hc, hslot, -⟩ := hs.pageTableFree s (.exit rest) rfl hround
    exact ⟨(hs.changes hc).of_sameTables (sameTables_freeSlot hslot),
      hswap.round hs hnodup.1 hround, hnodup.2⟩
  have hloop : PageInv st ∧ SwapInv (notFreed t order) st ∧ order.Nodup := ⟨hinv, hstart, hnodup⟩
  refine ⟨foldlM_ne_error (P := fun rest s => PageInv s ∧ SwapInv (notFreed t rest) s ∧ rest.Nodup)
    hstep (fun u rest s hs => hs.2.1.pageTableFree_ne hs.1) hloop, fun st1 hst => ?_⟩
  exact (foldlM_induction (P := fun rest s => PageInv s ∧ SwapInv (notFreed t rest) s ∧ rest.Nodup)
    hstep hloop hst).2.1

theorem SwapInv.setProcess (h : SwapInv (notFreed t []) st) {p : Option Process}
    (hp : NoTables p) : SwapInv everyPage (st.setProcess t p) := by
  refine Slots.Owned.congr h (fun e => ⟨?_, ?_⟩) (fun _ _ => rfl) (fun _ _ => rfl) rfl rfl
  · rintro ⟨t', u', -, he, hswapped⟩
    rw [getSupPte_setProcess hp, Option.ite_none_left_eq_some] at he
    exact ⟨t', u', fun ht => absurd ht he.1, he.2, hswapped⟩
  · rintro ⟨t', u', hother, he, hswapped⟩
    refine ⟨t', u', trivial, ?_, hswapped⟩
    rw [getSupPte_setProcess hp, if_neg fun ht => List.not_mem_nil (hother ht)]
    exact he

theorem SwapInv.exec (h : SwapInv everyPage st) (hinv : PageInv st) (hst : Stepped st t op st') :
    SwapInv everyPage st' := by
  cases hst with
  | changes hc => exact h.changes hinv hc
  | spawned hprocess =>
    refine SwapInv.setProcess (h.nothingFreed fun u hu => ?_) noTables_empty
    rw [getSupPte, hprocess] at hu
    cases hu
  | exited hexits =>
    obtain ⟨hmem, hnodup, hrounds, -, rfl⟩ := hexits
    exact ((h.rounds hinv hmem hnodup).2 _ hrounds).setProcess noTables_none

theorem SwapInv.of_boot (h : st.Boot) : SwapInv everyPage st := by
  have hnone : ∀ e, ¬ st.SwappedOut everyPage e := by
    rintro e ⟨t, u, -, he, -⟩
    rw [getSupPte, h.process] at he
    cases he
  refine ⟨fun i => iff_of_false ?_ ?_, fun e _ he => absurd he (hnone e),
    fun e he => absurd he (hnone e)⟩
  · rw [h.swapTable]
    rintro ⟨⟩
  · rintro ⟨e, he, -⟩
    exact hnone e he

theorem SwapInv.exec_ne (h : SwapInv everyPage st) (hinv : PageInv st)
    (henabled : st.enabled t op = true) : st.exec t op ≠ .error .swapSet := by
  cases op with
  | spawn => rintro ⟨⟩
  | loadPage f fileOfs upage readBytes writable =>
    simp only [Vm.exec, loadPage]
    split <;> rintro ⟨⟩
  | setupStack ptFree =>
    refine bind_ne_error frameAlloc_ne fun r _ => ?_
    dsimp only
    split
    · exact frameFree_ne
    · refine bind_ne_error setPage_ne fun q _ => ?_
      split
      · rintro ⟨⟩
      · exact frameFree_ne
  | fault upage growth ptFree => exact pageFault_ne
  | store upage i v =>
    simp only [Vm.exec, store]
    repeat' split
    all_goals rintro ⟨⟩
  | mmap f addr => rintro ⟨⟩
  | munmap id =>
    rw [Vm.exec, munmap]
    split
    · rintro ⟨⟩
    · split
      · rintro ⟨⟩
      · exact foldlM_ne_error (fun _ _ _ _ _ _ => trivial)
          (fun _ _ _ _ => munmapEntry_ne) trivial
  | exit order =>
    rw [enabled, Option.any_eq_true] at henabled
    obtain ⟨p, hprocess, hperm⟩ := henabled
    obtain ⟨hmem, hnodup, -⟩ := mem_order hinv hprocess (List.isPerm_iff.mp hperm)
    refine bind_ne_error (h.rounds hinv hmem hnodup).1 fun st1 _ => ?_
    rw [pagedirDestroy]
    split
    · rintro ⟨⟩
    · exact bind_ne_error (foldlM_ne_error (fun _ _ _ _ _ _ => trivial)
        (fun _ _ _ _ => pallocFreePage_ne) trivial) fun _ _ => by rintro ⟨⟩
  | write f fileOfs src =>
    simp only [Vm.exec]
    split <;> rintro ⟨⟩
  | deny f cnt => rintro ⟨⟩

/-- **A page that is faulted in again** holds what it held when it was written out. -/
theorem SwapInv.fault (h : SwapInv everyPage st) (hinv : PageInv st)
    (hentry : st.getSupPte t u = some e) (haway : (st.spte e).swapped = true)
    (hst : st.pageFault t u growth ptFree = .ok st') :
    ∃ k, st'.getPage t u = some k ∧ st'.mem k = st.saved e := by
  obtain ⟨hloaded, -, habsent, -⟩ := hinv.away t u e hentry haway
  have hupage := (hinv.keyed t u e hentry).1
  rw [pageFault, hentry] at hst
  dsimp only at hst
  rw [if_pos ⟨haway, hloaded, hupage ▸ habsent⟩] at hst
  obtain ⟨k, st1, st2, hc, hsettled, hget, hspte, rfl⟩ :=
    swapFault_changes (.fault u growth ptFree) hinv rfl hentry haway hst
  -- The eviction that may have come first has left the slot and the history of this page.
  have h1 := h.changes hinv hc
  have hentry1 : st1.getSupPte t u = some e := (hsettled.getSupPte t u).trans hentry
  have hcontent := h1.content e ⟨t, u, trivial, hentry1, by rw [hspte, haway]⟩
  rw [hsettled.saved t u e hentry habsent] at hcontent
  obtain ⟨p, hp⟩ := Option.isSome_iff_exists.mp (process_isSome_of_getSupPte hentry1)
  obtain ⟨idx, -, -, -, rfl⟩ := pallocGetPage_eq_some hget
  refine ⟨k, ?_, (mem_swapIn ..).trans hcontent⟩
  refine (getPage_setDirty _ t u t u).trans ?_
  rw [getPage_mapPage, if_pos ⟨rfl, rfl⟩]
  show (st1.process t).map _ = _
  rw [hp, Option.map_some]

end Vm

/-- **Swap slots are owned and faithful.** -/
structure SwapSound (st : Vm) : Prop where
  /-- The set bits of `swap_table` are the slots of the entries that are swapped out. -/
  taken : ∀ i, st.swapTable.bits i = true ↔ ∃ t u e,
    st.getSupPte t u = some e ∧ (st.spte e).swapped = true ∧ (st.spte e).swapIndex = i
  /-- No two of these entries share a slot. -/
  distinct : ∀ t u e t' u' e', st.getSupPte t u = some e → (st.spte e).swapped = true →
    st.getSupPte t' u' = some e' → (st.spte e').swapped = true →
    (st.spte e).swapIndex = (st.spte e').swapIndex → e = e'
  /-- No step fails the assertion in `swap_set`. -/
  assertion : ∀ t op, st.enabled t op = true → st.exec t op ≠ .error .swapSet
  /-- A page fault at a page that is swapped out gives it a frame with the bytes that the page held
  when `frame_evict` wrote it out. -/
  faithful : ∀ t u e growth ptFree st', st.getSupPte t u = some e → (st.spte e).swapped = true →
    st.exec t (.fault u growth ptFree) = .ok st' →
    ∃ k, st'.getPage t u = some k ∧ st'.mem k = st.saved e

/-! ## Stores that fall into an eviction -/

/-- **A store of the owner while `frame_evict` writes a page out**, to a sector that is on the disk
by then: `disk_write` waits for the disk, and the page is mapped up to `pagedir_clear_page`. -/
structure LateStore where
  owner : Nat
  upage : Nat
  i : Nat
  v : UInt8
deriving DecidableEq, Repr

/-- The late store, in a step of the process `t` from `st` to `st'`: the frame has it when
`frame_evict` is done, and the slot does not. -/
def Vm.lateStore (t : Nat) (st st' : Vm) (w : LateStore) : Option Vm :=
  if w.owner ≠ t ∧ st.enabled w.owner (.store w.upage w.i w.v) then
    ((st'.getSupPte w.owner w.upage).filter fun e => (st'.spte e).swapped).map fun e =>
      { st' with saved := Function.update st'.saved e ((st'.saved e).write w.i [w.v]) }
  else none

/-- Virtual memory, as a machine: a step, and the late stores to the pages that it writes out. -/
def evictingMachine : Machine Vm (Nat × VmOp × List LateStore) Unit where
  step st i := (vmMachine.step st (i.1, i.2.1)).bind fun r =>
    (i.2.2.foldlM (Vm.lateStore i.1 st) r.2).map fun st' => ((), st')

theorem reach_of_evicting {I : Vm → Prop} {G : Vm → Nat × VmOp → Prop}
    {H : Vm → Nat × VmOp × List LateStore → Prop} {st : Vm}
    (hH : ∀ st i, H st i → G st (i.1, i.2.1) ∧ i.2.2 = []) (h : evictingMachine.Reach I H st) :
    vmMachine.Reach I G st := by
  induction h with
  | init h => exact .init h
  | @step s s' i o _ hguard hstep ih =>
    obtain ⟨hg, hnone⟩ := hH s i hguard
    obtain ⟨⟨o', s1⟩, hvm, hlate⟩ := Option.bind_eq_some_iff.mp hstep
    rw [hnone] at hlate
    cases hlate
    exact ih.step hg hvm

/-- **Swap slots are owned and faithful**, in every state that is reached, by any number of
processes and any sequence of steps whose lazy loading succeeds and in which no store of a process
falls into the eviction of its page. -/
theorem swap_slots_owned {st : Vm}
    (h : evictingMachine.Reach Vm.Boot
      (fun st i => st.loadsWork (i.1, i.2.1) = true ∧ i.2.2 = []) st) : SwapSound st := by
  have hreach : vmMachine.Reach Vm.Boot (fun st i => st.loadsWork i = true) st :=
    reach_of_evicting (fun _ _ hguard => hguard) h
  obtain ⟨⟨hpages, -⟩, hswap⟩ := hreach.invariant
    (P := fun s => (s.PageInv ∧ s.Unloaded) ∧ Vm.SwapInv Vm.everyPage s)
    (fun _ hboot => ⟨Vm.PageInv.of_boot hboot, .of_boot hboot⟩) fun s i o s' hs hwork hstep => by
      obtain ⟨henabled, hexec⟩ := vmMachine_step hstep
      have hstepped := hs.1.1.stepped hs.1.2 henabled hwork hexec
      exact ⟨hs.1.1.exec hs.1.2 hstepped, hs.2.exec hs.1.1 hstepped⟩
  refine ⟨fun i => (hswap.taken_iff i).trans ⟨?_, ?_⟩,
    fun t u e t' u' e' he hswapped he' hswapped' heq => ?_,
    fun t op henabled => hswap.exec_ne hpages henabled,
    fun t u e growth ptFree st' he hswapped hst => hswap.fault hpages he hswapped hst⟩
  · rintro ⟨e, ⟨t, u, -, he, hswapped⟩, rfl⟩
    exact ⟨t, u, e, he, hswapped, rfl⟩
  · rintro ⟨t, u, e, he, hswapped, rfl⟩
    exact ⟨e, ⟨t, u, trivial, he, hswapped⟩, rfl⟩
  · exact hswap.injective e e' ⟨t, u, trivial, he, hswapped⟩ ⟨t', u', trivial, he', hswapped'⟩ heq

/-- With one frame, the stack of a second process drives that of the first, which has been written
to, to the swap disk. -/
theorem swap_slots_owned_evicted : ∃ st,
    evictingMachine.Reach Vm.Boot (fun st i => st.loadsWork (i.1, i.2.1) = true ∧ i.2.2 = []) st ∧
      (st.getSupPte 1 Vm.stackPage).map (fun e => ((st.spte e).swapped, (st.spte e).swapIndex)) =
        some (true, 0) ∧ SwapSound st := by
  obtain ⟨st, hreach, heq⟩ := evictingMachine.exists_reach_along (Vm.boot_initial 1 1 0 0)
    [(1, .spawn, []), (1, .setupStack true, []), (1, .store Vm.stackPage 5 7, []),
      (2, .spawn, []), (2, .setupStack true, [])]
    (fun st => (st.getSupPte 1 Vm.stackPage).map
      (fun e => ((st.spte e).swapped, (st.spte e).swapIndex)) = some (true, 0))
    (by decide +kernel : evictingMachine.Along
      (fun st i => st.loadsWork (i.1, i.2.1) = true ∧ i.2.2 = []) ..) (by decide +kernel)
  exact ⟨st, hreach, heq, swap_slots_owned hreach⟩

/-- The first load of a page of a segment finds no room for a page table and leaves its entry of the
frame table behind.  The second one works, and the page is written to.  Two allocations of another
process then write it out through both entries. -/
def loadedTwice : List (Nat × VmOp × List LateStore) :=
  [(1, .spawn, []), (1, .loadPage 0 0 100 10 true, []), (1, .setupStack true, []),
    (1, .fault 100 false false, []), (1, .fault 100 false true, []), (1, .store 100 5 7, []),
    (2, .spawn, []), (2, .loadPage 0 0 200 10 true, []), (2, .setupStack true, []),
    (2, .fault 200 false true, [])]

/-- While the stack of a second process takes the frame of the first one's stack, the first process
stores to it. -/
def storedLate : List (Nat × VmOp × List LateStore) :=
  [(1, .spawn, []), (1, .setupStack true, []), (1, .store Vm.stackPage 5 7, []), (2, .spawn, []),
    (2, .setupStack true, [⟨1, Vm.stackPage, 5, 9⟩])]

/-- **A slot that nobody owns, and a store that is lost.** -/
theorem swap_slot_lost :
    (∃ st, evictingMachine.Reach Vm.Boot (fun _ i => i.2.2 = []) st ∧ ¬ SwapSound st) ∧
      ∃ st, evictingMachine.Reach Vm.Boot
        (fun st i => st.loadsWork (i.1, i.2.1) = true) st ∧ ¬ SwapSound st := by
  constructor
  · obtain ⟨st, hreach, hbit, hentries⟩ := evictingMachine.exists_reach_along
      (Vm.boot_initial 2 4 20 65) loadedTwice
      (fun st => st.swapTable.bits 0 = true ∧
        ∀ e < st.nextSpte, (st.spte e).swapped = true → (st.spte e).swapIndex ≠ 0)
      (by decide +kernel : evictingMachine.Along (fun _ i => i.2.2 = []) ..) (by decide +kernel)
    refine ⟨st, hreach, fun hsound => ?_⟩
    obtain ⟨t, u, e, he, hswapped, hindex⟩ := (hsound.taken 0).mp hbit
    have hinv := isoInv_of_reach (reach_of_evicting (G := fun _ _ => True)
      (fun _ _ hnone => ⟨trivial, hnone⟩) hreach)
    exact hentries e (hinv.keyed t u e he).2 hswapped hindex
  · obtain ⟨st, hreach, e, he, hswapped, hfault⟩ := evictingMachine.exists_reach_along
      (Vm.boot_initial 1 1 0 0) storedLate
      (fun st => ∃ e ∈ st.getSupPte 1 Vm.stackPage, (st.spte e).swapped = true ∧
        ∃ st' ∈ (st.exec 1 (.fault Vm.stackPage false true)).toOption,
          ∀ k ∈ st'.getPage 1 Vm.stackPage, (st'.mem k).get 5 ≠ (st.saved e).get 5)
      (by decide +kernel : evictingMachine.Along
        (fun st i => st.loadsWork (i.1, i.2.1) = true) ..) (by decide +kernel)
    obtain ⟨st', hst', hdiffer⟩ := hfault
    refine ⟨st, hreach, fun hsound => ?_⟩
    obtain ⟨k, hpage, hmem⟩ := hsound.faithful 1 Vm.stackPage e false true st' he hswapped
      (Outcome.toOption_eq_some.mp hst')
    exact hdiffer k hpage (by rw [hmem])

end Pintos
