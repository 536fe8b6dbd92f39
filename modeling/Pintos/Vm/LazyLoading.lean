import Pintos.Vm.Loader

/-!
# Lazy loading equals eager loading

What the two forms of `load_segment` make of the pages that the program headers ask for, and what
the process then sees of them.

* `Mapped.all`: the eager form succeeds if and only if the file has the bytes of every page and no
  page comes twice, and then every page is mapped with its contents.
* `Pending.all`: the lazy form succeeds always, and every page has an entry, that of the first
  segment that asks for it.
* `Alike` relates the two address spaces after that.  A page is in both, with the same contents and
  the same writable bit, or it is still to be loaded in the lazy one, and its entry leads to the
  contents that the eager one has.  `Alike.access` says that every access keeps this and shows the
  same in both, the first access to a page as well as any later one.
* `loads_alike_iff`: for every list of program headers, the two forms agree if and only if one of
  the headers is refused, or every segment lies within the file and apart from the other segments
  and from the stack.
-/

namespace Pintos

open Bytes (Block)
open Function (update update_apply update_of_ne update_self)

/-! ## Pages -/

namespace PageSpec

/-- The file has the bytes of the page. -/
def InFile (length : Nat) (s : PageSpec) : Prop := s.readBytes = 0 ∨ s.ofs + s.readBytes ≤ length

/-- What the page is to hold. -/
def page (file : MappedFile) (s : PageSpec) : Page := fun i =>
  if i.val < s.readBytes then file.bytes (s.ofs + i.val) else 0

/-- The entry that the lazy form makes for the page. -/
def entry (f : Nat) (s : PageSpec) : SupPte :=
  ⟨some f, s.upage, s.readBytes, pgsize - s.readBytes, s.writable, s.ofs, false, false, 0,
    mapFailed⟩

theorem page_of_zero {s : PageSpec} (h : s.readBytes = 0) (file : MappedFile) :
    s.page file = Block.fill pgsize 0 := by
  funext i
  rw [page, h]
  rfl

end PageSpec

namespace Vm

variable {st st' : Vm} {t f u k : Nat} {done : List PageSpec} {s : PageSpec}

theorem length_fileReadAt_eq :
    (st.fileReadAt f s.readBytes s.ofs).length = s.readBytes ↔ s.InFile (st.file f).length := by
  rw [fileReadAt, List.length_map, List.length_range, PageSpec.InFile]
  omega

theorem filledPage_eq (hsize : s.readBytes ≤ pgsize) (hin : s.InFile (st.file f).length) (k : Nat) :
    st.filledPage f k s = s.page (st.file f) := by
  have hlen := length_fileReadAt_eq.mpr hin
  refine Block.ext_get fun i hi => ?_
  by_cases hread : i < s.readBytes
  · rw [filledPage, get_filled _ hlen hread hsize, getD_fileReadAt st hread hlen]
    simp only [Block.get, hi, dite_true, PageSpec.page, if_pos hread]
  · rw [filledPage, Block.get_write _ _ _ hi, if_pos (by rw [List.length_replicate]; omega)]
    simp only [Block.get, PageSpec.page]
    rw [List.getD_eq_getElem?_getD, List.getElem?_replicate]
    split <;> rfl

theorem pallocGetPage_of_pos (h : 0 < st.userPool.freeCnt) (zero : Bool) :
    ∃ k st₁, st.pallocGetPage zero = some (k, st₁) ∧
      st₁.userPool.freeCnt + 1 = st.userPool.freeCnt := by
  rcases st.userPool.scanAndFlip_one with ⟨-, hfull⟩ | ⟨idx, hscan, hlt, hfree⟩
  · omega
  · rw [pallocGetPage, hscan]
    exact ⟨_, _, rfl, Bitmap.freeCnt_mark hlt hfree⟩

/-! ## The eager form -/

/-- The frames of a process are its own, one for each page. -/
structure OwnFrames (st : Vm) (t : Nat) : Prop where
  used : ∀ u k, st.getPage t u = some k → st.poolBase ≤ k ∧
    st.userPool.bits (k - st.poolBase) = true
  inj : ∀ u u' k, st.getPage t u = some k → st.getPage t u' = some k → u = u'

variable {st₁ : Vm} {k' : Nat} {zero : Bool} {st2 : Vm} {i : Nat}

theorem OwnFrames.ne_of_get (h : OwnFrames st t)
    (hget : st.pallocGetPage zero = some (k, st₁)) (hk' : st.getPage t u = some k') : k' ≠ k := by
  rintro rfl
  obtain ⟨idx, rfl, -, hfree, -⟩ := pallocGetPage_eq_some hget
  have hused := (h.used u _ hk').2
  rw [Nat.add_sub_cancel_left, hfree] at hused
  cases hused

theorem OwnFrames.mapPage (h : OwnFrames st t)
    (hget : st.pallocGetPage zero = some (k, st₁)) (hprocess : st2.process = st₁.process)
    (hpool : st2.userPool = st₁.userPool) (hbase : st2.poolBase = st₁.poolBase) (writable : Bool) :
    OwnFrames (st2.mapPage t u k writable) t := by
  have hnew : ∀ u' k', st.getPage t u' = some k' → k' ≠ k := fun _ _ hk' => h.ne_of_get hget hk'
  obtain ⟨idx, rfl, -, -, rfl⟩ := pallocGetPage_eq_some hget
  have hcases : ∀ u' k', (st2.mapPage t u (st.poolBase + idx) writable).getPage t u' = some k' →
      (u' = u ∧ k' = st.poolBase + idx) ∨ (u' ≠ u ∧ st.getPage t u' = some k') := by
    intro u' k' hk'
    rw [getPage_mapPage] at hk'
    by_cases hu : u' = u
    · rw [if_pos ⟨rfl, hu⟩, Option.map_eq_some_iff] at hk'
      obtain ⟨-, -, rfl⟩ := hk'
      exact .inl ⟨hu, rfl⟩
    · rw [if_neg (fun hn => hu hn.2), getPage, pte, hprocess] at hk'
      exact .inr ⟨hu, hk'⟩
  refine ⟨fun u' k' hk' => ?_, fun u1 u2 k' h1 h2 => ?_⟩
  · show st2.poolBase ≤ k' ∧ st2.userPool.bits (k' - st2.poolBase) = true
    rw [hpool, hbase]
    rcases hcases u' k' hk' with ⟨-, rfl⟩ | ⟨-, hk'⟩
    · exact ⟨Nat.le_add_right _ _, by simp [Bitmap.mark]⟩
    · exact ⟨(h.used u' k' hk').1, Bitmap.bits_mark _ _ (h.used u' k' hk').2⟩
  · rcases hcases u1 k' h1 with ⟨hu1, hk1⟩ | ⟨-, h1⟩ <;>
      rcases hcases u2 k' h2 with ⟨hu2, hk2⟩ | ⟨-, h2⟩
    · exact hu1.trans hu2.symm
    · exact absurd hk1 (hnew u2 _ h2)
    · exact absurd hk2 (hnew u1 _ h1)
    · exact h.inj u1 u2 k' h1 h2

theorem pte_mapPage_same (hsome : (st.process t).isSome)
    (hprocess : st2.process = st.process) (u k : Nat) (writable : Bool) (u' : Nat) :
    (st2.mapPage t u k writable).pte t u' = if u' = u then some ⟨k, writable, true, false⟩
      else st.pte t u' := by
  obtain ⟨p, hp⟩ := Option.isSome_iff_exists.mp hsome
  rw [pte_mapPage, hprocess, hp, pte, hprocess]
  simp only [true_and]
  rfl

/-- Of the process, only entries of its supplemental page table and flags have changed. -/
structure OnlyEntries (t : Nat) (st st' : Vm) : Prop where
  process : (st.process t).isSome → (st'.process t).isSome
  pte : ∀ u, st'.pte t u = st.pte t u
  userPool : st'.userPool = st.userPool
  poolBase : st'.poolBase = st.poolBase
  mem : st'.mem = st.mem
  file : st'.file = st.file

theorem OnlyEntries.refl (t : Nat) (st : Vm) : OnlyEntries t st st :=
  ⟨id, fun _ => rfl, rfl, rfl, rfl, rfl⟩

theorem OnlyEntries.trans (h : OnlyEntries t st st₁) (h' : OnlyEntries t st₁ st2) :
    OnlyEntries t st st2 :=
  ⟨h'.process ∘ h.process, fun u => (h'.pte u).trans (h.pte u), h'.userPool.trans h.userPool,
    h'.poolBase.trans h.poolBase, h'.mem.trans h.mem, h'.file.trans h.file⟩

theorem onlyEntries_loading (st : Vm) (t : Nat) :
    OnlyEntries t st (st.modifyProcess t fun p => { p with loading := false }) := by
  refine ⟨fun h => (isSome_process_modifyProcess ..).trans h, fun u => ?_, rfl, rfl, rfl, rfl⟩
  refine pte_modifyProcess _ _ _ ?_ t u
  exact fun _ => rfl

theorem onlyEntries_addSpte (st : Vm) (t : Nat) (x : SupPte) : OnlyEntries t st (st.addSpte t x) :=
  ⟨fun h => (isSome_process_modifyProcess ..).trans h, fun _ => pte_addSpte .., rfl, rfl, rfl, rfl⟩

theorem OwnFrames.onlyEntries (h : OwnFrames st t) (honly : OnlyEntries t st st') :
    OwnFrames st' t := by
  have hpage := fun u => getPage_congr (honly.pte u)
  refine ⟨fun u k hk => ?_, fun u u' k hk hk' => h.inj u u' k (hpage u ▸ hk) (hpage u' ▸ hk')⟩
  rw [honly.userPool, honly.poolBase]
  exact h.used u k (hpage u ▸ hk)

/-- The pages `done` have been read and mapped, and no others. -/
structure Mapped (t f : Nat) (done : List PageSpec) (st : Vm) : Prop extends OwnFrames st t where
  process : (st.process t).isSome
  page : ∀ s ∈ done, ∃ k, st.pte t s.upage = some ⟨k, s.writable, true, false⟩ ∧
    st.mem k = s.page (st.file f)
  only : ∀ u, st.getPage t u ≠ none → u ∈ done.map PageSpec.upage

section

variable (h : Mapped t f done st)
include h

theorem Mapped.getPage_ne_none : st.getPage t u ≠ none ↔ u ∈ done.map PageSpec.upage := by
  refine ⟨h.only u, fun hu => ?_⟩
  obtain ⟨s, hs, rfl⟩ := List.mem_map.mp hu
  obtain ⟨k, hpte, -⟩ := h.page s hs
  rw [getPage_eq_some.mpr ⟨_, hpte, rfl, rfl⟩]
  nofun

/-- **A round of the eager form.** -/
theorem Mapped.round (hsize : s.readBytes ≤ pgsize) (hroom : 0 < st.userPool.freeCnt) :
    ∃ success st', st.loadOne .eager t f true s = .ok (success, st') ∧ st'.file = st.file ∧
      (success = true ↔ s.InFile (st.file f).length ∧ s.upage ∉ done.map PageSpec.upage) ∧
      (success = true → Mapped t f (done ++ [s]) st' ∧
        st'.userPool.freeCnt + 1 = st.userPool.freeCnt) := by
  obtain ⟨k, st₁, hget, hcnt⟩ := pallocGetPage_of_pos hroom false
  obtain ⟨hfile, hprocess, -⟩ := pallocGetPage_same hget
  have hfit : ((st.fileReadAt f s.readBytes s.ofs).length = s.readBytes ∧
      st.getPage t s.upage = none ∧ (st.hasPageTable t s.upage || true) = true) ↔
        s.InFile (st.file f).length ∧ s.upage ∉ done.map PageSpec.upage := by
    rw [length_fileReadAt_eq, Bool.or_true, ← h.getPage_ne_none]
    simp
  rcases eagerPage_of_some hget s with
    ⟨hlen, hnone, htable, hload⟩ | ⟨hno, st', hload, hfile', -⟩
  · refine ⟨true, _, hload, hfile, iff_of_true rfl (hfit.mp ⟨hlen, hnone, htable⟩),
      fun _ => ⟨?_, hcnt⟩⟩
    have hin := length_fileReadAt_eq.mp hlen
    have hpte : ∀ u', (st₁.readIn t f k s).pte t u' = if u' = s.upage
        then some ⟨k, s.writable, true, false⟩ else st.pte t u' :=
      pte_mapPage_same h.process hprocess _ _ _
    have hmem : ∀ k', k' ≠ k → (st₁.readIn t f k s).mem k' = st.mem k' := fun k' hk' => by
      obtain ⟨idx, -, -, -, rfl⟩ := pallocGetPage_eq_some hget
      exact update_of_ne hk' _ _
    refine ⟨h.toOwnFrames.mapPage hget (by rfl) (by rfl) (by rfl) _, ?_, fun s' hs' => ?_,
      fun u' hu' => ?_⟩
    · refine (isSome_process_modifyProcess ..).trans ?_
      rw [hprocess, h.process]
    · rcases List.mem_append.mp hs' with hs' | hs'
      · obtain ⟨k', hk', hpage⟩ := h.page s' hs'
        have hne : s'.upage ≠ s.upage := fun heq => by
          rw [← heq, getPage_eq_some.mpr ⟨_, hk', rfl, rfl⟩] at hnone
          cases hnone
        have hkk := h.ne_of_get hget (getPage_eq_some.mpr ⟨_, hk', rfl, rfl⟩)
        refine ⟨k', by rw [hpte, if_neg hne, hk'], ?_⟩
        rw [hmem k' hkk, hpage]
        exact congrArg (fun file => s'.page (file f)) hfile.symm
      · obtain rfl := List.mem_singleton.mp hs'
        refine ⟨k, by rw [hpte, if_pos rfl], ?_⟩
        refine (update_self ..).trans ?_
        rw [filledPage_eq hsize (by rwa [hfile])]
        rfl
    · rw [List.map_append, List.mem_append]
      by_cases hu : u' = s.upage
      · exact .inr (by simp [hu])
      · refine .inl (h.only u' ?_)
        rwa [getPage, hpte, if_neg hu] at hu'
  · exact ⟨false, st', hload, hfile', iff_of_false Bool.false_ne_true
      (fun hyes => hno (hfit.mpr hyes)), by rintro ⟨⟩⟩

/-- **The rounds of the eager form.** -/
theorem Mapped.all (hdone : (done.map PageSpec.upage).Nodup)
    {specs : List PageSpec} (hsize : ∀ s ∈ specs, s.readBytes ≤ pgsize)
    (hroom : specs.length ≤ st.userPool.freeCnt) :
    ∃ success st', loadAll .eager t f true specs st = .ok (success, st') ∧ st'.file = st.file ∧
      (success = true ↔ (∀ s ∈ specs, s.InFile (st.file f).length) ∧
        ((done ++ specs).map PageSpec.upage).Nodup) ∧
      (success = true → Mapped t f (done ++ specs) st' ∧
        st'.userPool.freeCnt + specs.length = st.userPool.freeCnt) := by
  induction specs generalizing st done with
  | nil =>
    rw [List.append_nil]
    exact ⟨true, st, rfl, rfl, iff_of_true rfl ⟨List.forall_mem_nil _, hdone⟩, fun _ => ⟨h, rfl⟩⟩
  | cons s specs ih =>
    rw [List.length_cons] at hroom
    obtain ⟨success, st₁, hload, hfile, hiff, hmapped⟩ := h.round (hsize s (.head _)) (by omega)
    rw [loadAll, hload, List.append_cons, List.forall_mem_cons]
    cases success with
    | true =>
      obtain ⟨hin, hnew⟩ := hiff.mp rfl
      obtain ⟨hmapped, hcnt⟩ := hmapped rfl
      have hdone1 : ((done ++ [s]).map PageSpec.upage).Nodup := by
        rw [List.map_append]
        refine List.nodup_append'.mpr ⟨hdone, List.nodup_singleton _, fun u hu hs => ?_⟩
        rw [List.map_singleton, List.mem_singleton] at hs
        exact hnew (hs ▸ hu)
      obtain ⟨success, st2, hrest, hfile2, hiff2, hmapped2⟩ :=
        ih hmapped hdone1 (fun s' hs' => hsize s' (.tail _ hs')) (by omega)
      refine ⟨success, st2, hrest, hfile2.trans hfile, ?_, fun hsuccess => ?_⟩
      · rw [hiff2, hfile, and_iff_right hin]
      · obtain ⟨hmapped2, hcnt2⟩ := hmapped2 hsuccess
        exact ⟨hmapped2, by rw [List.length_cons]; omega⟩
    | false =>
      refine ⟨false, st₁, rfl, hfile, iff_of_false Bool.false_ne_true ?_, by rintro ⟨⟩⟩
      rintro ⟨⟨hin, -⟩, hnodup⟩
      rw [List.map_append, List.map_append] at hnodup
      refine absurd (hiff.mpr ⟨hin, fun hs => ?_⟩) Bool.false_ne_true
      exact (List.nodup_append'.mp (List.nodup_append'.mp hnodup).1).2.2 hs
        (List.mem_singleton_self _)

/-- **The stack of the eager form.** -/
theorem Mapped.eagerStack (hroom : 0 < st.userPool.freeCnt) :
    ∃ success st', st.eagerStack t true = .ok (success, st') ∧
      (success = true ↔ stackPage ∉ done.map PageSpec.upage) ∧
      (success = true → OwnFrames st' t ∧
        ∀ s ∈ done, ∃ k, st'.pte t s.upage = some ⟨k, s.writable, true, false⟩ ∧
          st'.mem k = s.page (st.file f)) := by
  obtain ⟨k, st₁, hget, -⟩ := pallocGetPage_of_pos hroom true
  obtain ⟨-, hprocess, -⟩ := pallocGetPage_same hget
  have hpage : ∀ u, st₁.getPage t u = st.getPage t u := fun u => by
    rw [getPage, pte, hprocess]
    rfl
  have hinstall := installPage_ok (t := t) hget rfl rfl stackPage true true
  rw [hpage, Bool.or_true] at hinstall
  have hstack : st.getPage t stackPage = none ↔ stackPage ∉ done.map PageSpec.upage := by
    rw [← h.getPage_ne_none, not_not]
  rw [Vm.eagerStack, hget]
  simp only [hinstall]
  by_cases hnone : st.getPage t stackPage = none
  · rw [if_pos ⟨hnone, trivial⟩]
    refine ⟨true, _, rfl, iff_of_true rfl (hstack.mp hnone), fun _ => ?_⟩
    have honly := onlyEntries_loading (st₁.mapPage t stackPage k true) t
    refine ⟨(h.toOwnFrames.mapPage hget rfl rfl rfl true).onlyEntries honly, fun s hs => ?_⟩
    obtain ⟨k', hk', hmem⟩ := h.page s hs
    have hpresent := getPage_eq_some.mpr ⟨_, hk', rfl, rfl⟩
    have hne : s.upage ≠ stackPage := fun heq => by
      rw [heq, hnone] at hpresent
      cases hpresent
    refine ⟨k', ?_, ?_⟩
    · refine (honly.pte _).trans ?_
      rw [pte_mapPage_same h.process hprocess, if_neg hne, hk']
    · have hkk := h.ne_of_get hget hpresent
      rw [← hmem]
      obtain ⟨idx, -, -, -, rfl⟩ := pallocGetPage_eq_some hget
      exact update_of_ne hkk _ _
  · rw [if_neg (fun hall => hnone hall.1)]
    exact ⟨false, _, rfl, iff_of_false Bool.false_ne_true (fun hno => hnone (hstack.mpr hno)),
      by rintro ⟨⟩⟩

end

/-! ## The lazy form -/

/-- The pages `done` have entries of their own, and no others have. -/
structure Pending (t f : Nat) (done : List PageSpec) (st : Vm) : Prop where
  entry : ∀ s ∈ done, ∃ i < st.nextSpte, st.getSupPte t s.upage = some i ∧ st.spte i = s.entry f
  only : ∀ u, st.getSupPte t u ≠ none → u ∈ done.map PageSpec.upage

theorem Pending.addSpte (h : Pending t f done st) (x : SupPte)
    (hnone : st.getSupPte t x.upage = none) (hs : s ∈ done) :
    ∃ i < st.nextSpte, (st.addSpte t x).getSupPte t s.upage = some i ∧
      (st.addSpte t x).spte i = s.entry f := by
  obtain ⟨i, hi, hget, hspte⟩ := h.entry s hs
  have hne : s.upage ≠ x.upage := fun heq => by
    rw [heq, hnone] at hget
    cases hget
  refine ⟨i, hi, ?_, ?_⟩
  · rw [getSupPte_addSpte, if_neg fun heq => hne heq.2, hget]
  · rw [spte_addSpte_of_lt _ _ hi, hspte]

section

variable (hprocess : (st.process t).isSome)
include hprocess

/-- **A round of the lazy form.** -/
theorem lazyRound (s : PageSpec) :
    ∃ st', st.loadOne .lazy t f true s = .ok (true, st') ∧ OnlyEntries t st st' ∧
      ∀ done, Pending t f done st → s.upage ∉ done.map PageSpec.upage →
        Pending t f (done ++ [s]) st' := by
  have hload := lazyPage_eq (f := f) true hprocess s
  cases he : st.getSupPte t s.upage with
  | some e =>
    rw [he] at hload
    refine ⟨_, hload, ⟨id, fun _ => rfl, rfl, rfl, rfl, rfl⟩, fun done h hnew => ?_⟩
    exact absurd (h.only _ (by rw [he]; nofun)) hnew
  | none =>
    rw [he] at hload
    generalize hx : newSpte (some f) s.ofs s.upage s.readBytes (pgsize - s.readBytes) s.writable = x
      at hload
    have hupage : x.upage = s.upage := by
      rw [← hx]
      rfl
    have honly : OnlyEntries t st ((st.addSpte t x).modifySpte st.nextSpte
        fun y => { y with loaded := false }) :=
      (onlyEntries_addSpte st t x).trans ⟨id, fun _ => rfl, rfl, rfl, rfl, rfl⟩
    refine ⟨_, hload, honly, fun done h hnew => ⟨fun s' hs' => ?_, fun u hu => ?_⟩⟩
    · rcases List.mem_append.mp hs' with hs' | hs'
      · obtain ⟨i, hi, hget, hspte⟩ := h.addSpte x (hupage ▸ he) hs'
        exact ⟨i, Nat.lt_succ_of_lt hi, hget, (spte_modifySpte_of_ne hi.ne _ _).trans hspte⟩
      · obtain rfl := List.mem_singleton.mp hs'
        refine ⟨st.nextSpte, Nat.lt_succ_self _, hupage ▸ getSupPte_addSpte_self hprocess x, ?_⟩
        refine (spte_modifySpte_self ..).trans ?_
        rw [spte_addSpte_self, ← hx]
        rfl
    · rw [List.map_append, List.mem_append]
      have hsup := getSupPte_addSpte st t x t u
      by_cases hus : u = s.upage
      · exact .inr (by simp [hus])
      · rw [if_neg (fun heq => hus (heq.2.trans hupage))] at hsup
        exact .inl (h.only u (hsup ▸ hu))

/-- **The rounds of the lazy form.** -/
theorem lazyAll (specs : List PageSpec) :
    ∃ st', loadAll .lazy t f true specs st = .ok (true, st') ∧ OnlyEntries t st st' ∧
      ∀ done, Pending t f done st → ((done ++ specs).map PageSpec.upage).Nodup →
        Pending t f (done ++ specs) st' := by
  induction specs generalizing st with
  | nil => exact ⟨st, rfl, .refl t st, fun done h _ => by rwa [List.append_nil]⟩
  | cons s specs ih =>
    obtain ⟨st₁, hload, honly, hround⟩ := lazyRound hprocess s
    obtain ⟨st2, hrest, honly2, hrounds⟩ := ih (honly.process hprocess)
    rw [loadAll, hload]
    refine ⟨st2, hrest, honly.trans honly2, fun done h hnodup => ?_⟩
    rw [List.append_cons] at hnodup ⊢
    refine hrounds _ (hround done h fun hs => ?_) hnodup
    rw [List.map_append, List.map_append] at hnodup
    exact (List.nodup_append'.mp (List.nodup_append'.mp hnodup).1).2.2 hs
      (List.mem_singleton_self _)

/-- **The stack of the lazy form.** -/
theorem lazyStack (hpte : ∀ u, st.pte t u = none) (hroom : 0 < st.userPool.freeCnt) :
    ∃ st', st.setupStack t true = .ok st' ∧ st'.isUser t = true ∧ OwnFrames st' t ∧
      st'.file = st.file ∧ st'.userPool.freeCnt + 1 = st.userPool.freeCnt ∧
      (∀ u, u ≠ stackPage → st'.pte t u = none) ∧
      ∀ done, Pending t f done st → stackPage ∉ done.map PageSpec.upage → ∀ s ∈ done,
        ∃ i, st'.getSupPte t s.upage = some i ∧ st'.spte i = s.entry f := by
  obtain ⟨k, st₁, hget, hcnt⟩ := pallocGetPage_of_pos hroom true
  have hown : OwnFrames st t := by
    refine ⟨fun u k hk => ?_, fun u u' k hk => ?_⟩
    all_goals
      rw [getPage, hpte] at hk
      cases hk
  -- the state once the page is mapped
  obtain ⟨st2, hst2⟩ : ∃ st2, st2 = (st₁.enter t stackPage k).mapPage t stackPage k true := ⟨_, rfl⟩
  have hown2 : OwnFrames st2 t := hst2 ▸ hown.mapPage hget
    (show (st₁.enter t stackPage k).process = st₁.process from rfl) rfl rfl true
  have hsame : st2.nextSpte = st.nextSpte ∧ st2.spte = st.spte ∧ st2.file = st.file ∧
      st2.userPool = st₁.userPool ∧ (st2.process t).isSome ∧
      (∀ u, st2.getSupPte t u = st.getSupPte t u) ∧ ∀ u, u ≠ stackPage → st2.pte t u = none := by
    obtain ⟨idx, -, -, -, rfl⟩ := pallocGetPage_eq_some hget
    rw [hst2]
    refine ⟨rfl, rfl, rfl, rfl, (isSome_process_modifyProcess ..).trans hprocess,
      fun u => getSupPte_mapPage .., fun u hu => ?_⟩
    exact (pte_mapPage_same hprocess rfl _ _ _ u).trans ((if_neg hu).trans (hpte u))
  obtain ⟨hnext, hspte, hfile, hpool, hprocess2, hsup, hpte2⟩ := hsame
  have hset : st.setupStack t true
      = .ok ((st2.pageInsert t none 0 stackPage 0 0 true).2.modifyProcess t
        fun p => { p with loading := false }) := by
    have hpage : (st₁.enter t stackPage k).getPage t stackPage = none := by
      rw [(getPage_of_pallocGetPage hget t stackPage t stackPage).1, getPage, hpte,
        Option.bind_none]
    have hmap : (st₁.enter t stackPage k).setPage t stackPage k true true = .ok (true, st2) :=
      setPage_eq_ok.mpr ⟨hpage, (Bool.or_true _).symm, hst2⟩
    simp only [setupStack, frameAlloc, hget]
    show (if ((st₁.enter t stackPage k).getPage t stackPage).isSome then _ else _) = _
    rw [hpage, Option.isSome_none, if_neg Bool.false_ne_true, hmap]
    rfl
  have honly : OnlyEntries t st2 (st2.pageInsert t none 0 stackPage 0 0 true).2 := by
    cases he : st2.getSupPte t stackPage with
    | some e =>
      rw [pageInsert_of_some he]
      exact .refl t st2
    | none =>
      rw [pageInsert_of_none he]
      exact onlyEntries_addSpte st2 t _
  have hall := honly.trans (onlyEntries_loading (st2.pageInsert t none 0 stackPage 0 0 true).2 t)
  refine ⟨_, hset, ?_, hown2.onlyEntries hall, hall.file.trans hfile, ?_, fun u hu => ?_,
    fun done h hstack s hs => ?_⟩
  · obtain ⟨p, hp⟩ := Option.isSome_iff_exists.mp (honly.process hprocess2)
    rw [isUser, process_modifyProcess, if_pos rfl, hp]
    rfl
  · rw [hall.userPool, hpool, hcnt]
  · rw [hall.pte, hpte2 u hu]
  · have hnone : st2.getSupPte t stackPage = none := by
      rw [hsup]
      exact not_not.mp fun hne => hstack (h.only _ hne)
    have h2 : Pending t f done st2 := by
      refine ⟨fun s hs => ?_, fun u hu => h.only u (hsup u ▸ hu)⟩
      obtain ⟨i, hi, hget, hspte'⟩ := h.entry s hs
      exact ⟨i, hnext ▸ hi, (hsup _).trans hget, hspte ▸ hspte'⟩
    obtain ⟨i, -, hget, hspte⟩ := h2.addSpte (newSpte none 0 stackPage 0 0 true) hnone hs
    rw [pageInsert_of_none hnone]
    refine ⟨i, ?_, hspte⟩
    rw [getSupPte_modifyProcess]
    · exact hget
    · exact fun _ => rfl

end

/-! ## The first access to a page -/

theorem installLoaded_of_none {e : Nat} (h : st.getPage t u = none) (remove : Bool) :
    st.installLoaded t u e k remove true = .ok ((st.mapPage t u k (st.spte e).writable).modifySpte e
      fun x => { x with loaded := true }) := by
  have hset : st.setPage t u k (st.spte e).writable true
      = .ok (true, st.mapPage t u k (st.spte e).writable) :=
    setPage_eq_ok.mpr ⟨h, (Bool.or_true _).symm, rfl⟩
  rw [installLoaded, hset]
  rfl

/-- What lazy loading has done with a page for which it got the frame `k`. -/
def loadedIn (st : Vm) (t f k i : Nat) (s : PageSpec) (st₁ : Vm) : Vm :=
  ({ st₁.enter t s.upage k with
      mem := update st.mem k (s.page (st.file f)) }.mapPage t s.upage k
    s.writable).modifySpte i fun x => { x with loaded := true }

theorem pte_loadedIn (hprocess : (st.process t).isSome)
    (hget : st.pallocGetPage zero = some (k, st₁)) (s : PageSpec) (u : Nat) :
    (st.loadedIn t f k i s st₁).pte t u = if u = s.upage then some ⟨k, s.writable, true, false⟩
      else st.pte t u := by
  obtain ⟨idx, -, -, -, rfl⟩ := pallocGetPage_eq_some hget
  exact pte_mapPage_same hprocess rfl _ _ _ u

theorem OwnFrames.loadedIn (h : OwnFrames st t)
    (hget : st.pallocGetPage zero = some (k, st₁)) (s : PageSpec) :
    OwnFrames (st.loadedIn t f k i s st₁) t := by
  have hmap := h.mapPage (u := s.upage) hget rfl rfl rfl s.writable
  exact ⟨hmap.used, hmap.inj⟩

/-- **The first access to a page** that waits to be loaded.  Whichever of the three ways it goes,
the frame holds the page. -/
theorem lazyLoad_entry (hpage : st.getPage t s.upage = none)
    (hspte : st.spte i = s.entry f) (hsize : s.readBytes ≤ pgsize)
    (hin : s.InFile (st.file f).length) (hroom : 0 < st.userPool.freeCnt) :
    ∃ zero k st₁, st.pallocGetPage zero = some (k, st₁) ∧
      st.lazyLoad t s.upage i true = .ok (st.loadedIn t f k i s st₁) ∧
      st₁.userPool.freeCnt + 1 = st.userPool.freeCnt := by
  have hsum : ¬ s.readBytes + (pgsize - s.readBytes) ≠ pgsize :=
    not_not.mpr (Nat.add_sub_cancel' hsize)
  have hwritable : (st.spte i).writable = s.writable := by
    rw [hspte]
    rfl
  simp only [lazyLoad, hspte, PageSpec.entry]
  rw [if_neg hsum]
  by_cases hzero : s.readBytes = 0
  · obtain ⟨k, st₁, hget, hcnt⟩ := pallocGetPage_of_pos hroom true
    refine ⟨true, k, st₁, hget, ?_, hcnt⟩
    rw [if_pos (show s.readBytes ≠ pgsize ∧ pgsize - s.readBytes = pgsize by rw [hzero]; decide),
      frameAlloc, hget]
    have hpage1 : (st₁.enter t s.upage k).getPage t s.upage = none :=
      ((getPage_of_pallocGetPage hget ..).1).trans hpage
    refine (installLoaded_of_none hpage1 true).trans ?_
    obtain ⟨idx, rfl, -, -, rfl⟩ := pallocGetPage_eq_some hget
    rw [loadedIn, PageSpec.page_of_zero hzero, ← hwritable]
    rfl
  · obtain ⟨k, st₁, hget, hcnt⟩ := pallocGetPage_of_pos hroom false
    refine ⟨false, k, st₁, hget, ?_, hcnt⟩
    rw [if_neg (show ¬ (s.readBytes ≠ pgsize ∧ pgsize - s.readBytes = pgsize) by
      unfold pgsize at hsize ⊢; omega)]
    have hlen := length_fileReadAt_eq.mpr hin
    have hpage1 : { st₁.enter t s.upage k with
        mem := update st.mem k (s.page (st.file f)) }.getPage t s.upage = none :=
      ((getPage_of_pallocGetPage hget t s.upage t s.upage).1).trans hpage
    have hfilled := filledPage_eq hsize hin k
    obtain ⟨idx, rfl, -, -, rfl⟩ := pallocGetPage_eq_some hget
    rw [frameAlloc, hget]
    have hstart : st.startsPastEnd f s.readBytes s.ofs = false := by
      rw [PageSpec.InFile] at hin
      simp only [startsPastEnd, Bool.and_eq_false_iff, decide_eq_false_iff_not]
      omega
    show (if st.startsPastEnd f s.readBytes s.ofs then _ else
      if (st.fileReadAt f s.readBytes s.ofs).length ≠ s.readBytes then _ else
      (((enter _ t s.upage _).writeMem _ 0 (st.fileReadAt f s.readBytes s.ofs)).writeMem _
        s.readBytes (List.replicate (pgsize - s.readBytes) 0)).installLoaded ..) = _
    rw [hstart, if_neg Bool.false_ne_true, if_neg (not_not.mpr hlen), writeMem_writeMem]
    refine Eq.trans ?_ ((installLoaded_of_none (k := st.poolBase + idx) (e := i) hpage1
      (decide (s.readBytes = pgsize))).trans ?_)
    · rw [← hfilled]
      rfl
    · rw [loadedIn, ← hwritable]
      rfl

/-! ## The two address spaces -/

/-- The page is in the frame `k`, with its writable bit. -/
def Shows (st : Vm) (t : Nat) (s : PageSpec) (k : Nat) : Prop :=
  ∃ dirty, st.pte t s.upage = some ⟨k, s.writable, true, dirty⟩

/-- The page waits to be loaded. -/
def Waits (st : Vm) (t f : Nat) (s : PageSpec) : Prop :=
  st.pte t s.upage = none ∧ ∃ i, st.getSupPte t s.upage = some i ∧ st.spte i = s.entry f

/-- The two address spaces have the same pages, but some of them still wait to be loaded in the lazy
one, and there are frames for all of these. -/
structure Alike (t f : Nat) (specs : List PageSpec) (eager lazy : Vm) : Prop where
  eagerFrames : OwnFrames eager t
  lazyFrames : OwnFrames lazy t
  process : (lazy.process t).isSome
  page : ∀ s ∈ specs, ∃ k, eager.Shows t s k ∧
    ((∃ k', lazy.Shows t s k' ∧ lazy.mem k' = eager.mem k) ∨
      (lazy.Waits t f s ∧ eager.mem k = s.page (lazy.file f)))
  room : ∃ waiting : List PageSpec, waiting.length ≤ lazy.userPool.freeCnt ∧
    ∀ s ∈ specs, lazy.pte t s.upage = none → s ∈ waiting
  nodup : (specs.map PageSpec.upage).Nodup
  size : ∀ s ∈ specs, s.readBytes ≤ pgsize
  inFile : ∀ s ∈ specs, s.InFile (lazy.file f).length

variable {eager lazy : Vm} {specs : List PageSpec} {s' : PageSpec}

theorem Shows.getPage (h : st.Shows t s k) : st.getPage t s.upage = some k := by
  obtain ⟨dirty, hpte⟩ := h
  exact getPage_eq_some.mpr ⟨_, hpte, rfl, rfl⟩

theorem Waits.getPage (h : st.Waits t f s) : st.getPage t s.upage = none := by
  rw [Vm.getPage, h.1, Option.bind_none]

section

variable (h : Alike t f specs eager lazy)
include h

theorem Alike.eq_of_upage (hs : s ∈ specs) (hs' : s' ∈ specs) (heq : s'.upage = s.upage) : s' = s :=
  List.inj_on_of_nodup_map h.nodup hs' hs heq

/-- **A page is faulted in.** -/
theorem Alike.load (hs : s ∈ specs) (hwaits : lazy.Waits t f s) :
    ∃ lazy', lazy.pageFault t s.upage false true = .ok lazy' ∧ Alike t f specs eager lazy' ∧
      lazy'.pte t s.upage ≠ none := by
  obtain ⟨hnone, i, hsup, hspte⟩ := hwaits
  obtain ⟨waiting, hroom, hwaiting⟩ := h.room
  have hmem := hwaiting s hs hnone
  have hlen := List.length_erase_of_mem hmem
  have hpos := List.length_pos_of_mem hmem
  obtain ⟨zero, k, st₁, hget, hload, hcnt⟩ := lazyLoad_entry
    (show lazy.getPage t s.upage = none by rw [getPage, hnone, Option.bind_none]) hspte
    (h.size s hs) (h.inFile s hs) (by omega)
  have hfault : lazy.pageFault t s.upage false true = .ok (lazy.loadedIn t f k i s st₁) := by
    rw [pageFault, hsup]
    simp only [hspte]
    exact hload
  obtain ⟨hfile1, hprocess1, hspte1⟩ := pallocGetPage_same hget
  have hpte := pte_loadedIn (f := f) (i := i) h.process hget s
  have hfile : (lazy.loadedIn t f k i s st₁).file = lazy.file := hfile1
  have hpool : (lazy.loadedIn t f k i s st₁).userPool = st₁.userPool := rfl
  have hmem' : ∀ k', k' ≠ k → (lazy.loadedIn t f k i s st₁).mem k' = lazy.mem k' :=
    fun k' hk' => update_of_ne hk' _ _
  refine ⟨_, hfault, ⟨h.eagerFrames, h.lazyFrames.loadedIn hget s, ?_, fun s' hs' => ?_,
    ⟨waiting.erase s, by rw [hpool]; omega, fun s' hs' hnone' => ?_⟩, h.nodup, h.size,
    fun s' hs' => hfile ▸ h.inFile s' hs'⟩, ?_⟩
  · refine (isSome_process_modifyProcess ..).trans ?_
    show (st₁.process t).isSome = true
    rw [hprocess1, h.process]
  · obtain ⟨k0, heager, hlazy⟩ := h.page s' hs'
    refine ⟨k0, heager, ?_⟩
    by_cases heq : s'.upage = s.upage
    · -- the page that was loaded
      obtain rfl := h.eq_of_upage hs hs' heq
      rcases hlazy with ⟨k', hshows, -⟩ | ⟨-, hcontents⟩
      · rw [Shows, hnone] at hshows
        obtain ⟨_, hno⟩ := hshows
        cases hno
      · refine .inl ⟨k, ⟨false, by rw [hpte, if_pos rfl]⟩, ?_⟩
        rw [hcontents]
        exact update_self ..
    · have hother : (lazy.loadedIn t f k i s st₁).pte t s'.upage = lazy.pte t s'.upage := by
        rw [hpte, if_neg heq]
      rcases hlazy with ⟨k', hshows, hsame⟩ | ⟨⟨hnone', j, hsup', hspte'⟩, hcontents⟩
      · refine .inl ⟨k', by rwa [Shows, hother], ?_⟩
        rw [hmem' k' (h.lazyFrames.ne_of_get hget hshows.getPage), hsame]
      · refine .inr ⟨⟨hother.trans hnone', j, ?_, ?_⟩, by rw [hcontents, hfile]⟩
        · refine (getSupPte_mapPage ..).trans ?_
          show (st₁.process t).bind _ = _
          rw [hprocess1]
          exact hsup'
        · have hji : j ≠ i := by
            rintro rfl
            rw [hspte'] at hspte
            exact heq (congrArg SupPte.upage hspte)
          refine (spte_modifySpte_of_ne hji _ _).trans ?_
          show st₁.spte j = _
          rw [hspte1, hspte']
  · have heq : s' ≠ s := by
      rintro rfl
      rw [hpte, if_pos rfl] at hnone'
      cases hnone'
    rw [hpte, if_neg (fun hu => heq (h.eq_of_upage hs hs' hu))] at hnone'
    exact (List.mem_erase_of_ne heq).mpr (hwaiting s' hs' hnone')
  · rw [hpte, if_pos rfl]
    rintro ⟨⟩

theorem Alike.touch (hs : s ∈ specs) :
    eager.touch t s.upage true = .ok eager ∧
      ∃ lazy', lazy.touch t s.upage true = .ok lazy' ∧ Alike t f specs eager lazy' ∧
        ∃ k k', eager.Shows t s k ∧ lazy'.Shows t s k' ∧ lazy'.mem k' = eager.mem k := by
  obtain ⟨k, heager, hlazy⟩ := h.page s hs
  refine ⟨by rw [Vm.touch, heager.getPage, Option.isSome_some, if_pos rfl], ?_⟩
  rcases hlazy with ⟨k', hlazy, hmem⟩ | ⟨hwaits, -⟩
  · exact ⟨lazy, by rw [Vm.touch, hlazy.getPage, Option.isSome_some, if_pos rfl], h, k, k', heager,
      hlazy, hmem⟩
  · obtain ⟨lazy', hfault, h', hsome⟩ := h.load hs hwaits
    refine ⟨lazy', ?_, h', ?_⟩
    · rw [Vm.touch, hwaits.getPage, Option.isSome_none, if_neg Bool.false_ne_true, hfault]
    · obtain ⟨k0, heager', hlazy'⟩ := h'.page s hs
      rcases hlazy' with ⟨k', hlazy', hmem⟩ | ⟨hwaits', -⟩
      · exact ⟨k0, k', heager', hlazy', hmem⟩
      · exact absurd hwaits'.1 hsome

end

/-! ## Accesses -/

/-- What a store leaves. -/
def afterStore (st : Vm) (t u k i : Nat) (v : UInt8) : Vm := (st.writeMem k i [v]).setDirty t u

theorem store_of_getPage (h : st.getPage t u = some k) (i : Nat) (v : UInt8) :
    st.store t u i v = .ok (st.afterStore t u k i v) := by
  simp only [store, h]
  rfl

section AfterStore

variable {i : Nat} {v : UInt8}

theorem pte_afterStore (u' : Nat) :
    (st.afterStore t u k i v).pte t u' = if u' = u then
      (st.pte t u).map fun x => { x with dirty := true } else st.pte t u' := by
  refine (pte_modifyPte (st.writeMem k i [v]) t u _ t u').trans ?_
  simp only [true_and]
  rfl

theorem getPage_afterStore (u' : Nat) : (st.afterStore t u k i v).getPage t u' = st.getPage t u' :=
  getPage_setDirty (st.writeMem k i [v]) t u t u'

theorem getSupPte_afterStore (u' : Nat) :
    (st.afterStore t u k i v).getSupPte t u' = st.getSupPte t u' :=
  getSupPte_modifyPte (st.writeMem k i [v]) t u _ t u'

theorem mem_afterStore (k' : Nat) : (st.afterStore t u k i v).mem k' =
    if k' = k then (st.mem k).write i [v] else st.mem k' :=
  update_apply ..

theorem OwnFrames.afterStore (h : OwnFrames st t) : OwnFrames (st.afterStore t u k i v) t := by
  refine ⟨fun u' k' hk' => ?_, fun u1 u2 k' h1 h2 => ?_⟩
  · rw [getPage_afterStore] at hk'
    exact h.used u' k' hk'
  · rw [getPage_afterStore] at h1 h2
    exact h.inj u1 u2 k' h1 h2

theorem Shows.afterStore {k' : Nat} (h : st.Shows t s' k') :
    (st.afterStore t u k i v).Shows t s' k' := by
  obtain ⟨dirty, hpte⟩ := h
  rw [Shows, pte_afterStore]
  split
  next heq =>
    rw [← heq, hpte]
    exact ⟨true, rfl⟩
  next => exact ⟨dirty, hpte⟩

theorem pte_afterStore_eq_none (u' : Nat) :
    (st.afterStore t u k i v).pte t u' = none ↔ st.pte t u' = none := by
  rw [pte_afterStore]
  split
  next heq => rw [heq, Option.map_eq_none_iff]
  next => exact .rfl

end AfterStore

section

variable (h : Alike t f specs eager lazy)
include h

/-- **A store into a page** that is in both address spaces. -/
theorem Alike.store (hs : s ∈ specs) (heager : eager.Shows t s k)
    (hlazy : lazy.Shows t s k') (hmem : lazy.mem k' = eager.mem k) (i : Nat) (v : UInt8) :
    Alike t f specs (eager.afterStore t s.upage k i v) (lazy.afterStore t s.upage k' i v) := by
  -- a frame of another page is another frame
  have hother : ∀ {st : Vm} {k0 k1 : Nat} {s' : PageSpec}, OwnFrames st t → st.Shows t s k0 →
      st.Shows t s' k1 → s'.upage ≠ s.upage → k1 ≠ k0 := by
    rintro st k0 k1 s' hown h0 h1 hne rfl
    exact hne (hown.inj _ _ _ h1.getPage h0.getPage)
  refine ⟨h.eagerFrames.afterStore, h.lazyFrames.afterStore,
    (isSome_process_modifyProcess ..).trans h.process, fun s' hs' => ?_, ?_, h.nodup, h.size,
    h.inFile⟩
  · by_cases heq : s'.upage = s.upage
    · obtain rfl := h.eq_of_upage hs hs' heq
      refine ⟨k, heager.afterStore, .inl ⟨k', hlazy.afterStore, ?_⟩⟩
      rw [mem_afterStore, if_pos rfl, mem_afterStore, if_pos rfl, hmem]
    · obtain ⟨k0, heager', hlazy'⟩ := h.page s' hs'
      have hk0 := hother h.eagerFrames heager heager' heq
      refine ⟨k0, heager'.afterStore, ?_⟩
      rw [mem_afterStore, if_neg hk0]
      rcases hlazy' with ⟨k1, hlazy', hmem'⟩ | ⟨⟨hnone, j, hsup, hspte⟩, hcontents⟩
      · refine .inl ⟨k1, hlazy'.afterStore, ?_⟩
        rw [mem_afterStore, if_neg (hother h.lazyFrames hlazy hlazy' heq), hmem']
      · exact .inr ⟨⟨(pte_afterStore_eq_none _).mpr hnone, j, (getSupPte_afterStore _).trans hsup,
          hspte⟩, hcontents⟩
  · obtain ⟨waiting, hroom, hwaiting⟩ := h.room
    exact ⟨waiting, hroom, fun s' hs' hnone =>
      hwaiting s' hs' ((pte_afterStore_eq_none _).mp hnone)⟩

/-- **An access** shows the same in both address spaces. -/
theorem Alike.access {a : Access} (ha : a.upage ∈ specs.map PageSpec.upage) :
    ∃ out eager' lazy', eager.accessByte t true a = .ok (out, eager') ∧
      lazy.accessByte t true a = .ok (out, lazy') ∧ Alike t f specs eager' lazy' := by
  obtain ⟨s, hs, hupage⟩ := List.mem_map.mp ha
  obtain ⟨heager, lazy1, hlazy, h1, k, k', hshows, hshows', hmem⟩ := h.touch hs
  cases a with
  | read upage i =>
    obtain rfl : s.upage = upage := hupage
    refine ⟨some ((eager.mem k).get i), eager, lazy1, ?_, ?_, h1⟩
    · rw [accessByte, heager]
      show Except.ok ((eager.getPage t s.upage).map _, eager) = _
      rw [hshows.getPage]
      rfl
    · rw [accessByte, hlazy]
      show Except.ok ((lazy1.getPage t s.upage).map _, lazy1) = _
      rw [hshows'.getPage, ← hmem]
      rfl
  | write upage i v =>
    obtain rfl : s.upage = upage := hupage
    have hstore := store_of_getPage hshows.getPage i v
    have hstore' := store_of_getPage hshows'.getPage i v
    have hany : ∀ {st : Vm} {k : Nat}, st.Shows t s k →
        ((st.pte t s.upage).any fun e => e.present && e.writable) = s.writable := by
      rintro st k ⟨dirty, hpte⟩
      rw [hpte]
      rfl
    rw [accessByte, heager, accessByte, hlazy]
    cases hwritable : s.writable with
    | true =>
      refine ⟨some v, _, _, ?_, ?_, h1.store hs hshows hshows' hmem i v⟩
      · show (if (eager.pte t s.upage).any _ then _ else _) = _
        rw [hany hshows, hwritable, if_pos rfl, hstore]
        rfl
      · show (if (lazy1.pte t s.upage).any _ then _ else _) = _
        rw [hany hshows', hwritable, if_pos rfl, hstore']
        rfl
    | false =>
      refine ⟨none, eager, lazy1, ?_, ?_, h1⟩
      · show (if (eager.pte t s.upage).any _ then _ else _) = _
        rw [hany hshows, hwritable]
        rfl
      · show (if (lazy1.pte t s.upage).any _ then _ else _) = _
        rw [hany hshows', hwritable]
        rfl

/-- **A sequence of accesses.** -/
theorem Alike.accesses {as : List Access} (has : ∀ a ∈ as, a.upage ∈ specs.map PageSpec.upage) :
    ∃ outs eager' lazy', accessBytes t true as eager = .ok (outs, eager') ∧
      accessBytes t true as lazy = .ok (outs, lazy') := by
  induction as generalizing eager lazy with
  | nil => exact ⟨[], eager, lazy, rfl, rfl⟩
  | cons a as ih =>
    obtain ⟨out, eager1, lazy1, heager, hlazy, h1⟩ := h.access (has a (.head _))
    obtain ⟨outs, eager2, lazy2, heager2, hlazy2⟩ := ih h1 fun a' ha' => has a' (.tail _ ha')
    refine ⟨out :: outs, eager2, lazy2, ?_, ?_⟩
    · rw [accessBytes, heager]
      show (accessBytes t true as eager1).bind _ = _
      rw [heager2]
      rfl
    · rw [accessBytes, hlazy]
      show (accessBytes t true as lazy1).bind _ = _
      rw [hlazy2]
      rfl

end

end Vm

/-! ## Segments and their pages -/

/-- The page is one of the segment that the program header asks for. -/
def Phdr.Covers (phdr : Phdr) (u : Nat) : Prop :=
  phdr.pType = ptLoad ∧ phdr.firstPage ≤ u ∧ u < phdr.firstPage + phdr.pageCnt

/-- The number of pages that the program headers ask for. -/
def pagesAsked (phdrs : List Phdr) : Nat :=
  (phdrs.map fun phdr => if phdr.pType = ptLoad then phdr.pageCnt else 0).sum

/-- One of the headers is refused, or every segment lies within the file, apart from the other
segments and below the page of the stack. -/
def Loadable (length : Nat) (phdrs : List Phdr) : Prop :=
  (∃ phdr ∈ phdrs, phdr.Refused length) ∨
    (∀ phdr ∈ phdrs, phdr.pType = ptLoad →
      (phdr.pFilesz = 0 ∨ phdr.pOffset.toNat + phdr.pFilesz.toNat ≤ length) ∧
        phdr.firstPage + phdr.pageCnt ≤ Vm.stackPage) ∧
    phdrs.Pairwise fun p q => p.pType = ptLoad → q.pType = ptLoad →
      p.firstPage + p.pageCnt ≤ q.firstPage ∨ q.firstPage + q.pageCnt ≤ p.firstPage

instance (length : Nat) (phdrs : List Phdr) : Decidable (Loadable length phdrs) :=
  inferInstanceAs (Decidable (_ ∨ _ ∧ _))

section PageSpecs

variable (writable : Bool) (cnt ofs upage readBytes : Nat)

theorem upages_pageSpecs : (pageSpecs writable cnt ofs upage readBytes).map PageSpec.upage
    = List.range' upage cnt := by
  induction cnt generalizing ofs upage readBytes with
  | zero => rfl
  | succ cnt ih => rw [pageSpecs, List.map_cons, ih, List.range'_succ]

theorem readBytes_le_of_mem {s : PageSpec}
    (hs : s ∈ pageSpecs writable cnt ofs upage readBytes) : s.readBytes ≤ pgsize := by
  induction cnt generalizing ofs upage readBytes with
  | zero => cases hs
  | succ cnt ih =>
    rcases List.mem_cons.mp hs with rfl | hs
    · exact Nat.min_le_right _ _
    · exact ih _ _ _ hs

theorem inFile_pageSpecs {length : Nat} (h : readBytes ≤ cnt * pgsize) :
    (∀ s ∈ pageSpecs writable cnt ofs upage readBytes, s.InFile length) ↔
      readBytes = 0 ∨ ofs + readBytes ≤ length := by
  induction cnt generalizing ofs upage readBytes with
  | zero =>
    refine iff_of_true nofun (.inl ?_)
    omega
  | succ cnt ih =>
    rw [Nat.succ_mul] at h
    rw [pageSpecs, List.forall_mem_cons, ih _ _ _ (by omega), PageSpec.InFile]
    dsimp only
    omega

end PageSpecs

namespace Phdr

variable {phdr : Phdr}

theorem mem_upages_specs {u : Nat} : u ∈ phdr.specs.map PageSpec.upage ↔ phdr.Covers u := by
  rw [specs, Covers]
  split
  next hload =>
    rw [upages_pageSpecs, List.mem_range'_1]
    exact (and_iff_right hload).symm
  next hload => simp [hload]

theorem length_specs (phdr : Phdr) :
    phdr.specs.length = if phdr.pType = ptLoad then phdr.pageCnt else 0 := by
  rw [specs]
  split
  next =>
    rw [← List.length_map, upages_pageSpecs, List.length_range']
  next => rfl

theorem inFile_specs (h : phdr.Valid) (hload : phdr.pType = ptLoad) {length : Nat} :
    (∀ s ∈ phdr.specs, s.InFile length) ↔
      phdr.pFilesz = 0 ∨ phdr.pOffset.toNat + phdr.pFilesz.toNat ≤ length := by
  rw [specs, if_pos hload, inFile_pageSpecs _ _ _ _ _ h.bytesInFile_le, ← UInt32.toNat_inj,
    bytesInFile, show (0 : UInt32).toNat = 0 from rfl]
  have hofs := h.sameOffset
  unfold pgsize at *
  split <;> omega

theorem Valid.pageCnt_pos (h : phdr.Valid) : 0 < phdr.pageCnt := by
  have hmemsz := h.memsz
  rw [pageCnt]
  unfold pgsize
  omega

end Phdr

variable {phdrs : List Phdr}

theorem mem_upages {u : Nat} :
    u ∈ (phdrs.flatMap Phdr.specs).map PageSpec.upage ↔ ∃ phdr ∈ phdrs, phdr.Covers u := by
  rw [List.map_flatMap, List.mem_flatMap]
  simp only [Phdr.mem_upages_specs]

theorem length_flatMap_specs (phdrs : List Phdr) :
    (phdrs.flatMap Phdr.specs).length = pagesAsked phdrs := by
  rw [List.length_flatMap, pagesAsked]
  simp only [Phdr.length_specs]

theorem readBytes_le_of_mem_specs {s : PageSpec} (hs : s ∈ phdrs.flatMap Phdr.specs) :
    s.readBytes ≤ pgsize := by
  obtain ⟨phdr, -, hs⟩ := List.mem_flatMap.mp hs
  rw [Phdr.specs] at hs
  split at hs
  · exact readBytes_le_of_mem _ _ _ _ _ hs
  · cases hs

section Segments

variable {phdrs : List Phdr} (hvalid : ∀ phdr ∈ phdrs, phdr.pType = ptLoad → phdr.Valid)

include hvalid

theorem inFile_iff_segments {length : Nat} :
    (∀ s ∈ phdrs.flatMap Phdr.specs, s.InFile length) ↔ ∀ phdr ∈ phdrs, phdr.pType = ptLoad →
      phdr.pFilesz = 0 ∨ phdr.pOffset.toNat + phdr.pFilesz.toNat ≤ length := by
  refine ⟨fun h phdr hmem hload => ?_, fun h s hs => ?_⟩
  · refine (Phdr.inFile_specs (hvalid phdr hmem hload) hload).mp fun s hs => h s ?_
    exact List.mem_flatMap.mpr ⟨phdr, hmem, hs⟩
  · obtain ⟨phdr, hmem, hs⟩ := List.mem_flatMap.mp hs
    by_cases hload : phdr.pType = ptLoad
    · exact (Phdr.inFile_specs (hvalid phdr hmem hload) hload).mpr (h phdr hmem hload) s hs
    · rw [Phdr.specs, if_neg hload] at hs
      cases hs

theorem nodup_iff_segments :
    ((phdrs.flatMap Phdr.specs).map PageSpec.upage).Nodup ↔
      phdrs.Pairwise fun p q => p.pType = ptLoad → q.pType = ptLoad →
        p.firstPage + p.pageCnt ≤ q.firstPage ∨ q.firstPage + q.pageCnt ≤ p.firstPage := by
  have hone : ∀ phdr ∈ phdrs, (phdr.specs.map PageSpec.upage).Nodup := by
    intro phdr _
    rw [Phdr.specs]
    split
    · rw [upages_pageSpecs]
      exact List.nodup_range'
    · exact List.nodup_nil
  rw [List.map_flatMap, List.nodup_flatMap, and_iff_right hone]
  refine List.Pairwise.iff_of_mem fun {p q} hp hq => ?_
  simp only [List.Disjoint, Phdr.mem_upages_specs, Phdr.Covers]
  refine ⟨fun h hpload hqload => ?_, fun h u hu hu' => ?_⟩
  · have hpcnt := (hvalid p hp hpload).pageCnt_pos
    have hqcnt := (hvalid q hq hqload).pageCnt_pos
    by_contra hno
    -- the later one of the two first pages is in both
    refine h (a := max p.firstPage q.firstPage) ⟨hpload, ?_⟩ ⟨hqload, ?_⟩ <;> omega
  · have := h hu.1 hu'.1
    omega

theorem stackPage_iff_segments :
    Vm.stackPage ∉ (phdrs.flatMap Phdr.specs).map PageSpec.upage ↔
      ∀ phdr ∈ phdrs, phdr.pType = ptLoad → phdr.firstPage + phdr.pageCnt ≤ Vm.stackPage := by
  rw [mem_upages]
  refine ⟨fun h phdr hmem hload => ?_, fun h ⟨phdr, hmem, hcovers⟩ => ?_⟩
  · have hlast := (hvalid phdr hmem hload).lastPage
    have hcnt := (hvalid phdr hmem hload).pageCnt_pos
    by_contra hno
    refine h ⟨phdr, hmem, hload, ?_, ?_⟩ <;>
      unfold Vm.stackPage physBase at * <;>
      omega
  · have hbelow := h phdr hmem hcovers.1
    have := hcovers.2.2
    omega

end Segments

theorem loadable_iff {length : Nat} (h : ∀ phdr ∈ phdrs, ¬ phdr.Refused length) :
    Loadable length phdrs ↔ (∀ s ∈ phdrs.flatMap Phdr.specs, s.InFile length) ∧
      ((phdrs.flatMap Phdr.specs).map PageSpec.upage).Nodup ∧
      Vm.stackPage ∉ (phdrs.flatMap Phdr.specs).map PageSpec.upage := by
  have hvalid : ∀ phdr ∈ phdrs, phdr.pType = ptLoad → phdr.Valid := by
    intro phdr hmem hload
    have haccepted : validateSegment length phdr = true := by
      rw [← Bool.not_eq_false]
      exact fun hno => h phdr hmem (.inr ⟨hload, hno⟩)
    exact Phdr.valid_of_validateSegment haccepted
  have hnone : ¬ ∃ phdr ∈ phdrs, phdr.Refused length :=
    fun ⟨phdr, hmem, hrefused⟩ => h phdr hmem hrefused
  rw [Loadable, or_iff_right hnone, inFile_iff_segments hvalid, nodup_iff_segments hvalid,
    stackPage_iff_segments hvalid]
  refine ⟨fun ⟨hseg, hpair⟩ => ⟨fun phdr hmem hload => (hseg phdr hmem hload).1, hpair,
    fun phdr hmem hload => (hseg phdr hmem hload).2⟩, fun ⟨hin, hpair, hstack⟩ =>
    ⟨fun phdr hmem hload => ⟨hin phdr hmem hload, hstack phdr hmem hload⟩, hpair⟩⟩

/-! ## The two loaders -/

namespace Vm

variable {st : Vm} {t f : Nat} {phdrs : List Phdr}

/-- **The two forms of `load` agree.**  One succeeds exactly if the other does, and if they do, the
process sees the same in the pages of its segments, in any sequence of accesses to them.  Memory is
not exhausted: a page table page can always be had. -/
def LoadsAlike (st : Vm) (t f : Nat) (phdrs : List Phdr) : Prop :=
  ∃ success eager lazy, load .eager st t f phdrs true = .ok (success, eager) ∧
    load .lazy st t f phdrs true = .ok (success, lazy) ∧
    (success = true → ∀ as : List Access, (∀ a ∈ as, ∃ phdr ∈ phdrs, phdr.Covers a.upage) →
      ∃ outs eager' lazy', accessBytes t true as eager = .ok (outs, eager') ∧
        accessBytes t true as lazy = .ok (outs, lazy'))

/-- What `start_process` gives `load` to start with. -/
def IsNew (st : Vm) (t : Nat) : Prop := st.process t = some ⟨∅, ∅, [], 0, true⟩

theorem IsNew.mapped (h : st.IsNew t) : Mapped t f [] st := by
  have hpte : ∀ u, st.getPage t u = none := fun u => by
    rw [getPage, pte, h]
    rfl
  refine ⟨⟨fun u k hk => ?_, fun u u' k hk => ?_⟩, by rw [h]; rfl, List.forall_mem_nil _,
    fun u hu => ?_⟩
  · rw [hpte] at hk
    cases hk
  · rw [hpte] at hk
    cases hk
  · exact absurd (hpte u) hu

theorem IsNew.pending (h : st.IsNew t) : Pending t f [] st := by
  refine ⟨nofun, fun u hu => absurd ?_ hu⟩
  rw [getSupPte, h]
  rfl

/-- **The eager loader**, of headers none of which is refused. -/
theorem load_eager (hnew : st.IsNew t) (hroom : pagesAsked phdrs + 1 ≤ st.userPool.freeCnt)
    (hnone : ∀ phdr ∈ phdrs, ¬ phdr.Refused (st.file f).length) :
    ∃ success eager, load .eager st t f phdrs true = .ok (success, eager) ∧
      (success = true ↔ Loadable (st.file f).length phdrs) ∧
      (success = true → OwnFrames eager t ∧ ∀ s ∈ phdrs.flatMap Phdr.specs,
        ∃ k, eager.pte t s.upage = some ⟨k, s.writable, true, false⟩ ∧
          eager.mem k = s.page (st.file f)) := by
  have hmapped : Mapped t f [] st := hnew.mapped
  rw [← length_flatMap_specs] at hroom
  obtain ⟨success, st₁, hall, hfile, hiff, hmapped1⟩ := hmapped.all List.nodup_nil
    (fun s => readBytes_le_of_mem_specs) (by omega : (phdrs.flatMap Phdr.specs).length ≤ _)
  rw [List.nil_append] at hiff hmapped1
  rw [load, loadHeaders_eq .eager phdrs hmapped.process hnone, hall, loadable_iff hnone]
  cases success with
  | true =>
    obtain ⟨hin, hnodup⟩ := hiff.mp rfl
    obtain ⟨hmapped1, hcnt⟩ := hmapped1 rfl
    obtain ⟨success, st2, hstack, hstackIff, hpages⟩ := hmapped1.eagerStack (by omega)
    rw [hfile] at hpages
    refine ⟨success, st2, hstack, ?_, hpages⟩
    rw [hstackIff, and_iff_right hin, and_iff_right hnodup]
  | false =>
    refine ⟨false, st₁, rfl, iff_of_false nofun fun hload => ?_, nofun⟩
    exact absurd (hiff.mpr ⟨hload.1, hload.2.1⟩) nofun

/-- **The lazy loader** succeeds, whatever the headers ask for. -/
theorem load_lazy (hnew : st.IsNew t) (hroom : 0 < st.userPool.freeCnt)
    (hnone : ∀ phdr ∈ phdrs, ¬ phdr.Refused (st.file f).length) :
    ∃ lazy, load .lazy st t f phdrs true = .ok (true, lazy) ∧ OwnFrames lazy t ∧
      (lazy.process t).isSome ∧ lazy.file = st.file ∧
      lazy.userPool.freeCnt + 1 = st.userPool.freeCnt ∧
      (Loadable (st.file f).length phdrs →
        ∀ s ∈ phdrs.flatMap Phdr.specs, lazy.Waits t f s) := by
  have hprocess : (st.process t).isSome := by
    rw [hnew]
    rfl
  obtain ⟨st₁, hall, honly, hpending⟩ := lazyAll hprocess (phdrs.flatMap Phdr.specs)
  have hpte : ∀ u, st₁.pte t u = none := fun u => by
    rw [honly.pte, pte, hnew]
    rfl
  obtain ⟨lazy, hstack, huser, hown, hfile, hcnt, hrest, hentry⟩ :=
    lazyStack (honly.process hprocess) hpte (by rwa [honly.userPool])
  refine ⟨lazy, ?_, hown, ?_, hfile.trans honly.file, honly.userPool ▸ hcnt, fun hload s hs => ?_⟩
  · rw [load, loadHeaders_eq .lazy phdrs hprocess hnone, hall]
    show (st₁.setupStack t true).bind _ = _
    rw [hstack]
    show Except.ok (lazy.isUser t, lazy) = _
    rw [huser]
  · obtain ⟨p, hp, -⟩ := Option.any_eq_true _ _ |>.mp huser
    rw [hp]
    rfl
  · obtain ⟨-, hnodup, hstackPage⟩ := (loadable_iff hnone).mp hload
    refine ⟨hrest _ fun heq => hstackPage (heq ▸ List.mem_map_of_mem hs), ?_⟩
    exact hentry _ (hpending [] hnew.pending hnodup) hstackPage s hs

/-- **Lazy loading equals eager loading** for exactly these lists of program headers. -/
theorem loads_alike_iff (st : Vm) (t f : Nat) (phdrs : List Phdr) (hnew : st.IsNew t)
    (hroom : pagesAsked phdrs + 1 ≤ st.userPool.freeCnt) :
    LoadsAlike st t f phdrs ↔ Loadable (st.file f).length phdrs := by
  by_cases hrefused : ∃ phdr ∈ phdrs, phdr.Refused (st.file f).length
  · refine iff_of_true ?_ (.inl hrefused)
    have hprocess : (st.process t).isSome := by
      rw [hnew]
      rfl
    obtain ⟨eager, heager⟩ := loadHeaders_refused .eager true hprocess hrefused
    obtain ⟨lazy, hlazy⟩ := loadHeaders_refused .lazy true hprocess hrefused
    refine ⟨false, eager, lazy, ?_, ?_, nofun⟩
    · rw [load, heager]
      rfl
    · rw [load, hlazy]
      rfl
  · have hnone : ∀ phdr ∈ phdrs, ¬ phdr.Refused (st.file f).length :=
      fun phdr hmem hno => hrefused ⟨phdr, hmem, hno⟩
    obtain ⟨success, eager, heager, hiff, hpages⟩ := load_eager hnew hroom hnone
    obtain ⟨lazy, hlazy, hown, hprocess, hfile, hcnt, hwaits⟩ :=
      load_lazy hnew (by omega) hnone
    refine ⟨fun ⟨success', eager', lazy', heager', hlazy', _⟩ => ?_, fun hload => ?_⟩
    · rw [heager] at heager'
      rw [hlazy] at hlazy'
      cases heager'
      cases hlazy'
      exact hiff.mp rfl
    · obtain rfl := hiff.mpr hload
      obtain ⟨heagerFrames, hpages⟩ := hpages rfl
      obtain ⟨hin, hnodup, -⟩ := (loadable_iff hnone).mp hload
      have halike : Alike t f (phdrs.flatMap Phdr.specs) eager lazy := by
        refine ⟨heagerFrames, hown, hprocess, fun s hs => ?_, ⟨phdrs.flatMap Phdr.specs, ?_,
          fun s hs _ => hs⟩, hnodup, fun s => readBytes_le_of_mem_specs, by rwa [hfile]⟩
        · obtain ⟨k, hpte, hmem⟩ := hpages s hs
          exact ⟨k, ⟨false, hpte⟩, .inr ⟨hwaits hload s hs, by rw [hmem, hfile]⟩⟩
        · rw [length_flatMap_specs]
          omega
      refine ⟨true, eager, lazy, heager, hlazy, fun _ as has => halike.accesses fun a ha => ?_⟩
      exact mem_upages.mpr (has a ha)

/-- A machine whose process 0 is about to load a file of this length. -/
def aboutToLoad (length : Nat) : Vm :=
  (Vm.initial 4 0 length 7).setProcess 0 (some ⟨∅, ∅, [], 0, true⟩)

theorem loads_alike_code_and_data : LoadsAlike (aboutToLoad 8492) 0 0
    [⟨ptLoad, 0, 0x8048000, 8192, 8192, 0⟩, ⟨ptLoad, 8192, 0x804b000, 300, 700, pfW⟩] := by
  refine (loads_alike_iff (aboutToLoad 8492) 0 0 _ ?_ ?_).mpr ?_
  · rfl
  · decide +kernel
  · decide +kernel

/-- A segment of 200 bytes in a file of 100: it is accepted by `validate_segment`, and the lazy
loader does not see that the bytes are not there. -/
theorem loads_differ_of_short_file :
    validateSegment 100 ⟨ptLoad, 0, 0x8048000, 200, 200, 0⟩ = true ∧
      ¬ LoadsAlike (aboutToLoad 100) 0 0 [⟨ptLoad, 0, 0x8048000, 200, 200, 0⟩] := by
  refine ⟨by decide +kernel, ?_⟩
  rintro ⟨success, eager, lazy, heager, hlazy, -⟩
  have heager' : (load .eager (aboutToLoad 100) 0 0 [⟨ptLoad, 0, 0x8048000, 200, 200, 0⟩]
      true).toOption.map Prod.fst = some false := by decide +kernel
  have hlazy' : (load .lazy (aboutToLoad 100) 0 0 [⟨ptLoad, 0, 0x8048000, 200, 200, 0⟩]
      true).toOption.map Prod.fst = some true := by decide +kernel
  rw [heager] at heager'
  rw [hlazy] at hlazy'
  cases heager'
  cases hlazy'

end Vm

end Pintos
