import Pintos.Vm.Pages

/-!
# The changes that the steps are made of

Every step of virtual memory other than the birth and the end of a process is a sequence of a few
kinds of change: a page is evicted, a frame is mapped, an entry is made, changed or removed, a page
is closed.  `Change` lists them, each with what is known of the state in which it happens, so that
an invariant needs one case for each of them and none for the steps.

* `Change`: the changes.
* `PageInv.change`: every change keeps the invariant of `Pages`.
-/

namespace Pintos

/-- A step that allocates a frame. -/
def VmOp.allocates : VmOp → Bool
  | .setupStack _ | .fault _ _ _ => true
  | _ => false

/-- A step that closes mappings. -/
def VmOp.closes : VmOp → Bool
  | .munmap _ | .exit _ => true
  | _ => false

namespace Vm

open Relation (ReflTransGen)

variable {st st₀ st' : Vm} {t u k e : Nat} {op : VmOp}

/-- No frame is free. -/
def poolFull (st : Vm) : Bool := (st.userPool.scanAndFlip 0 1 false).isNone

/-- **A change**, in the step `op` of the process `t` that begins in `st₀`. -/
inductive Change (st₀ : Vm) (t : Nat) (op : VmOp) : Vm → Vm → Prop
  /-- A page is evicted.  This is the first thing a step does. -/
  | evict {st₁ st' : Vm} {fte : Fte} {rest : List Fte} {e : Nat}
      (h : Evicts st₀ t fte rest e st₁ st') (hst : st₀.frameEvict t = .ok st')
      (hop : op.allocates = true) (hfull : st₀.poolFull = true) :
      Change st₀ t op st₀ st'
  /-- A page of zeros is mapped, for the stack. -/
  | stack {st st₂ : Vm} {u k e : Nat} (hget : st.pallocGetPage true = some (k, st₂))
      (habsent : st.getPage t u = none) (hentry : st.getSupPte t u = some e)
      (hhome : (st.spte e).swapped = false) (hid : (st.spte e).mmapId = mapFailed) :
      Change st₀ t op st ((st₂.enter t u k).mapPage t u k true)
  /-- A frame is allocated and, since there is no page table page, freed. -/
  | unused {st st₂ st' : Vm} {u k : Nat} {zero : Bool}
      (hget : st.pallocGetPage zero = some (k, st₂))
      (hfree : (st₂.enter t u k).frameFree k = .ok st') : Change st₀ t op st st'
  /-- A page comes back from the swap disk. -/
  | swapIn {st st₂ : Vm} {u k e : Nat} (hget : st.pallocGetPage true = some (k, st₂))
      (hentry : st.getSupPte t u = some e) (haway : (st.spte e).swapped = true) :
      Change st₀ t op st ((st₂.enter t u k).swappedIn t u e k)
  /-- A page is loaded, with the bytes of its file. -/
  | load {st st₂ : Vm} {u k e : Nat} {zero : Bool} {page : Page}
      (hget : st.pallocGetPage zero = some (k, st₂)) (habsent : st.getPage t u = none)
      (hentry : st.getSupPte t u = some e) (hunloaded : (st.spte e).loaded = false)
      (hread : ∀ f, (st.spte e).file = some f → ∀ i < (st.spte e).readBytes,
        page.get i = (st.file f).bytes ((st.spte e).fileOfs + i)) :
      Change st₀ t op st (({ st₂.enter t u k with mem := Function.update st₂.mem k page }.mapPage
        t u k (st.spte e).writable).modifySpte e fun s => { s with loaded := true })
  /-- An entry is made, for a page that is not one of a mapped file. -/
  | entry {st : Vm} {s : SupPte} (hprocess : (st.process t).isSome)
      (hnone : st.getSupPte t s.upage = none) (hhome : s.swapped = false)
      (hid : s.mmapId = mapFailed) : Change st₀ t op st (st.addSpte t s)
  /-- An entry is marked as one whose page has to be loaded. -/
  | unload {st : Vm} {u e : Nat} (hentry : st.getSupPte t u = some e)
      (hhome : (st.spte e).swapped = false) :
      Change st₀ t op st (st.modifySpte e fun s => { s with loaded := false })
  /-- An entry is made for a page of a mapped file, behind the others of this mapping. -/
  | mapEntry {st : Vm} {s : SupPte} {f : Nat} (hprocess : (st.process t).isSome)
      (hnone : st.getSupPte t s.upage = none) (hhome : s.swapped = false)
      (hid : s.mmapId ≠ mapFailed) (hfile : s.file = some f)
      (hsize : s.readBytes + s.zeroBytes = pgsize)
      (hinside : s.fileOfs + s.readBytes ≤ (st.file f).length)
      (hsame : st.file f = st₀.file f)
      {addr : Nat} (hop : op = .mmap f addr)
      (hold : ∀ t' u' e', st.getSupPte t' u' = some e' → (st.spte e').mmapId ≠ mapFailed →
        (st.spte e').file = some f → (st₀.getSupPte t' u' = some e' ∧ st₀.spte e' = st.spte e') ∨
          (st.spte e').fileOfs + (st.spte e').readBytes ≤ s.fileOfs) :
      Change st₀ t op st ((st.addSpte t s).pushMapped t st.nextSpte)
  /-- The process is changed outside of its tables. -/
  | adjust {st : Vm} (f : Process → Process) (hdir : ∀ p, (f p).pagedir = p.pagedir)
      (htable : ∀ p, (f p).supPageTable = p.supPageTable)
      (hlist : ∀ p, (f p).mmapList = p.mmapList)
      (hloading : ∀ p, (f p).loading = true → p.loading = true) :
      Change st₀ t op st (st.modifyProcess t f)
  /-- A page is written back, if it is a dirty one of a mapped file, and its frame is freed. -/
  | close {st st₁ st' : Vm} {u k e : Nat} (hentry : st.getSupPte t u = some e)
      (hk : st.getPage t u = some k) (hclose : st.closeMapping t e = .ok st₁)
      (hfree : (st₁.clearPage t u).frameFree k = .ok st') (hop : op.closes = true) :
      Change st₀ t op st st'
  /-- An entry is taken out of the list of mapped files. -/
  | drop {st : Vm} (e : Nat) (hop : op.closes = true) : Change st₀ t op st (st.dropMapped t e)
  /-- An entry that is not in the list is removed. -/
  | remove {st : Vm} {u e : Nat} (hentry : st.getSupPte t u = some e)
      (habsent : st.getPage t u = none) (hhome : (st.spte e).swapped = false)
      (hlist : ∀ e ∈ st.mappedList t, (st.spte e).upage ≠ u) (hop : op.closes = true) :
      Change st₀ t op st (st.pageRemove t u)
  /-- A store of the process. -/
  | store {st st' : Vm} {u i : Nat} {v : UInt8} (hi : i < pgsize)
      (hst : st.store t u i v = .ok st') (hop : op = .store u i v) : Change st₀ t op st st'
  /-- `SYS_WRITE`. -/
  | write {st' : Vm} {f fileOfs : Nat} {src : List UInt8} (hop : op = .write f fileOfs src)
      (hst : st₀.exec t (.write f fileOfs src) = .ok st') : Change st₀ t op st₀ st'
  /-- Writes to a file are denied, or allowed again. -/
  | deny {st' : Vm} {f cnt : Nat} (hop : op = .deny f cnt)
      (hst : st₀.exec t (.deny f cnt) = .ok st') : Change st₀ t op st₀ st'

/-- A sequence of changes. -/
abbrev Changes (st₀ : Vm) (t : Nat) (op : VmOp) : Vm → Vm → Prop := ReflTransGen (Change st₀ t op)

/-! ## The invariant -/

variable {st₂ : Vm}

theorem pallocGetPage_congr (st1 : Vm) {zero : Bool} (hget : st.pallocGetPage zero = some (k, st₂))
    (hpool : st1.userPool = st.userPool) (hbase : st1.poolBase = st.poolBase)
    (hmem : st1.mem = st.mem) :
    st1.pallocGetPage zero =
      some (k, { st1 with userPool := st₂.userPool, mem := st₂.mem }) := by
  rw [pallocGetPage, Option.map_eq_some_iff] at hget
  obtain ⟨⟨idx, usedMap⟩, hscan, heq⟩ := hget
  cases heq
  rw [pallocGetPage, hpool, hscan, hbase, hmem]
  rfl

section

variable (h : PageInv st) {zero : Bool}
include h

theorem PageInv.mapFree
    (hget : st.pallocGetPage zero = some (k, st₂)) (hnone : st.getPage t u = none)
    (hentry : st.getSupPte t u = some e) (hhome : (st.spte e).swapped = false) (writable : Bool) :
    PageInv ((st₂.enter t u k).mapPage t u k writable) := by
  have hunmaps := unmaps_enter hget t u
  have hiso : IsoInv (st₂.enter t u k) :=
    ⟨h.toFrameInv.enter hget t u, hunmaps.covered h.covered, hunmaps.keyed h.keyed⟩
  refine h.install hget (process_isSome_of_getSupPte hentry) hnone (fun e' he' => ?_) writable
    (hiso.mapPage (List.mem_append_right _ (.head _)) ?_ writable)
  · rw [hentry, Option.some_inj] at he'
    exact he' ▸ hhome
  · rw [hunmaps.getSupPte, hentry, Option.isSome_some]

theorem PageInv.unused (hget : st.pallocGetPage zero = some (k, st₂))
    (hfree : (st₂.enter t u k).frameFree k = .ok st') :
    PageInv st' ∧ st'.process = st.process ∧ st'.spte = st.spte ∧
      st'.frameTable = st.frameTable := by
  have hunmaps := unmaps_enter hget t u
  have hfresh := h.fresh hget
  have hframes : IsoInv (st₂.enter t u k) :=
    ⟨h.toFrameInv.enter hget t u, hunmaps.covered h.covered, hunmaps.keyed h.keyed⟩
  have hiso := hframes.frameFree (fun t' u' hk' =>
    hfresh _ (h.mapped t' u' k (hunmaps.getPage t' u' k hk')) rfl) hfree
  have hresult := frameFree_of_mem hfree ⟨_, List.mem_append_right _ (.head _), rfl⟩
  obtain ⟨idx, -, -, -, rfl⟩ := pallocGetPage_eq_some hget
  -- The entry that goes is the one that has just been made.
  have herase : (st.frameTable ++ [(⟨t, u, k⟩ : Fte)]).eraseP (·.kpage = k) = st.frameTable := by
    rw [List.eraseP_append_right]
    · simp
    · exact fun fte hfte => by simpa using hfresh fte hfte
  have hframeTable : st'.frameTable = st.frameTable := (congrArg frameTable hresult).trans herase
  have hprocess : st'.process = st.process := hresult ▸ rfl
  have hspte : st'.spte = st.spte := hresult ▸ rfl
  have hpte : ∀ t u, st'.pte t u = st.pte t u := fun t u => by rw [pte, hprocess, pte]
  refine ⟨h.of_sameViews ⟨hframeTable, fun t u => getPage_congr (hpte t u),
    fun t u hsome => by rwa [hpte], fun t u => by rw [getSupPte, hprocess, getSupPte], hspte⟩ hiso
      ?_ ?_, hprocess, hspte, hframeTable⟩
  · intro t
    rw [mappedList, hprocess]
    exact h.listNodup t
  · intro t e he
    rw [mappedList, hprocess] at he
    exact h.listed t e he

theorem PageInv.home_of_unloaded (hentry : st.getSupPte t u = some e)
    (hunloaded : (st.spte e).loaded = false) : (st.spte e).swapped = false := by
  cases hswapped : (st.spte e).swapped with
  | false => rfl
  | true => exact absurd ((h.away t u e hentry hswapped).loaded.symm.trans hunloaded) nofun

/-- The page that comes back is that of an entry which is not swapped out any more, and its page
table entry is dirty from the start. -/
theorem PageInv.swapIn (hget : st.pallocGetPage true = some (k, st₂))
    (hentry : st.getSupPte t u = some e) (haway : (st.spte e).swapped = true) :
    PageInv ((st₂.enter t u k).swappedIn t u e k) := by
  have habsent := (h.away t u e hentry haway).absent
  have hback : PageInv (st.modifySpte e fun s => { s with swapped := false }) :=
    h.modifySpte _ (fun _ => rfl) (fun hid => hid) nofun
  have hget' := pallocGetPage_congr (st.modifySpte e fun s => { s with swapped := false })
    hget rfl rfl rfl
  have hhome : ((st.modifySpte e fun s => { s with swapped := false }).spte e).swapped = false := by
    rw [spte_modifySpte_self]
  have hmapped := hback.mapFree hget' habsent hentry hhome true
  obtain ⟨idx, -, -, -, rfl⟩ := pallocGetPage_eq_some hget
  exact (hmapped.setDirty t u).of_sameTables ⟨rfl, rfl, rfl, rfl, rfl, rfl⟩

theorem PageInv.newEntry {s : SupPte} (hnone : st.getSupPte t s.upage = none)
    (hhome : s.swapped = false) : PageInv (st.addSpte t s) :=
  h.addSpte hnone hhome (h.toFrameInv.addSpte h.keyed fun t' u' _ hsome => h.covered t' u' hsome)

end

theorem getSupPte_addSpte_self (hprocess : (st.process t).isSome) (s : SupPte) :
    (st.addSpte t s).getSupPte t s.upage = some st.nextSpte := by
  obtain ⟨p, hp⟩ := Option.isSome_iff_exists.mp hprocess
  rw [getSupPte_addSpte, if_pos ⟨rfl, rfl⟩, hp, Option.map_some]

theorem spte_addSpte_self (st : Vm) (t : Nat) (s : SupPte) :
    (st.addSpte t s).spte st.nextSpte = s := Function.update_self ..

theorem spte_addSpte_of_lt (t : Nat) (s : SupPte) (hlt : e < st.nextSpte) :
    (st.addSpte t s).spte e = st.spte e := Function.update_of_ne hlt.ne ..

theorem PageInv.mapEntry (h : PageInv st) {s : SupPte} (hprocess : (st.process t).isSome)
    (hnone : st.getSupPte t s.upage = none) (hhome : s.swapped = false)
    (hid : s.mmapId ≠ mapFailed) : PageInv ((st.addSpte t s).pushMapped t st.nextSpte) := by
  have hself := spte_addSpte_self st t s
  refine (h.newEntry hnone hhome).pushMapped ?_ (by rwa [hself]) fun hmem => ?_
  · rw [hself]
    exact getSupPte_addSpte_self hprocess s
  · rw [mappedList_addSpte] at hmem
    exact absurd (h.keyed _ _ _ (h.listed t _ hmem).1).2 (Nat.lt_irrefl _)

theorem sameTables_writeBackIf {dirty : Bool} (h : st.writeBackIf t e dirty = .ok st') :
    SameTables st st' := by
  obtain ⟨file, rfl⟩ := file_writeBackIf h
  exact ⟨rfl, rfl, rfl, rfl, rfl, rfl⟩

theorem PageInv.closeMapping (h : PageInv st) (hst : st.closeMapping t e = .ok st') :
    PageInv st' := by
  rcases closeMapping_eq_ok hst with ⟨-, rfl⟩ | ⟨-, st1, hback, rfl⟩
  · exact h
  · exact (h.of_sameTables (sameTables_writeBackIf hback)).dropMapped t e

theorem getSupPte_closeMapping (hst : st.closeMapping t e = .ok st') (t' u' : Nat) :
    st'.getSupPte t' u' = st.getSupPte t' u' := by
  rcases closeMapping_eq_ok hst with ⟨-, rfl⟩ | ⟨-, st1, hback, rfl⟩
  · rfl
  · rw [getSupPte_dropMapped, getSupPte, (sameTables_writeBackIf hback).process, getSupPte]

variable {i : Nat} {v : UInt8}

theorem store_eq_ok (hst : st.store t u i v = .ok st') :
    ∃ k, st.getPage t u = some k ∧ st' = (st.writeMem k i [v]).setDirty t u := by
  rw [store] at hst
  split at hst
  next => cases hst
  next k hk =>
    cases hst
    exact ⟨k, hk, rfl⟩

theorem PageInv.store (h : PageInv st) (hst : st.store t u i v = .ok st') : PageInv st' := by
  obtain ⟨k, -, rfl⟩ := store_eq_ok hst
  have hwritten : PageInv (st.writeMem k i [v]) := h.of_sameTables ⟨rfl, rfl, rfl, rfl, rfl, rfl⟩
  exact hwritten.setDirty t u

theorem sameTables_write {f fileOfs : Nat} {src : List UInt8}
    (hst : st.exec t (.write f fileOfs src) = .ok st') : SameTables st st' := by
  simp only [exec] at hst
  split at hst <;>
    cases hst <;>
      exact ⟨rfl, rfl, rfl, rfl, rfl, rfl⟩

/-- **Every change keeps the invariant.** -/
theorem PageInv.change (h : PageInv st) (hc : Change st₀ t op st st') : PageInv st' := by
  cases hc with
  | evict _ hst _ _ => exact h.frameEvict hst
  | stack hget habsent hentry hhome _ => exact h.mapFree hget habsent hentry hhome true
  | unused hget hfree => exact (h.unused hget hfree).1
  | swapIn hget hentry haway => exact h.swapIn hget hentry haway
  | @load _ st₂ u k e _ page hget habsent hentry hunloaded _ =>
    have hmapped := h.mapFree hget habsent hentry (h.home_of_unloaded hentry hunloaded)
      (st.spte e).writable
    have hfilled : PageInv ({ st₂.enter t u k with
        mem := Function.update st₂.mem k page }.mapPage t u k (st.spte e).writable) :=
      hmapped.of_sameTables ⟨rfl, rfl, rfl, rfl, rfl, rfl⟩
    obtain ⟨idx, -, -, -, rfl⟩ := pallocGetPage_eq_some hget
    refine hfilled.modifySpte _ (fun _ => rfl) (fun hid => hid) fun t' u' _ hswapped => ?_
    exact absurd (hswapped.symm.trans (h.home_of_unloaded hentry hunloaded)) nofun
  | entry _ hnone hhome _ => exact h.newEntry hnone hhome
  | unload hentry hhome =>
    refine h.modifySpte _ (fun _ => rfl) (fun hid => hid) fun t' u' _ hswapped => ?_
    exact absurd (hswapped.symm.trans hhome) nofun
  | mapEntry hprocess hnone hhome hid => exact h.mapEntry hprocess hnone hhome hid
  | adjust f hdir htable hlist _ => exact h.modifyProcess t f hdir htable hlist
  | close hentry hk hclose hfree =>
    exact ((h.closeMapping hclose).release ((getSupPte_closeMapping hclose ..).trans hentry)
      ((getPage_closeMapping hclose ..).trans hk) hfree).1
  | drop e => exact h.dropMapped t e
  | remove _ habsent _ hlist => exact h.pageRemove habsent hlist
  | store _ hst => exact h.store hst
  | write _ hst => exact h.of_sameTables (sameTables_write hst)
  | deny _ hst =>
    cases hst
    exact h.of_sameTables ⟨rfl, rfl, rfl, rfl, rfl, rfl⟩

theorem PageInv.changes (h : PageInv st) (hc : Changes st₀ t op st st') : PageInv st' := by
  induction hc with
  | refl => exact h
  | tail _ hlast ih => exact ih.change hlast

end Vm

end Pintos
