import Pintos.Userprog.Process
import Mathlib.Data.List.Nodup

/-!
# The invariant of waiting

What holds of a parent and its children along the runs that keep their sections apart, and how the
moves of the machine change it.

* `Book` is about the entries: each child that was not waited for has one, with `is_wait` and
  `status` as far as the child has come, and a child in its loop has its entry before it (`Ahead`).
* `Sync` is about the parent and the child that it waits for.  There is at most one token, and
  only while the parent is at the `sema_down` that it is meant for (`Sync.tokens`).
* Each statement is one of a few moves, and each move has a lemma for `Book` and one for `Sync`.
-/

namespace Pintos

/-! ## Lemmas on the list -/

section ChildList

variable {l : List Child} {c d : Nat} {f : Child → Child}

theorem pids_setChild (hf : ∀ e, (f e).pid = e.pid) :
    (setChild l c f).map Child.pid = l.map Child.pid := by
  rw [setChild, List.map_map]
  refine List.map_congr_left fun e _ => ?_
  by_cases he : e.pid = c <;> simp [he, hf]

variable {e : Child}

theorem mem_setChild (he : e ∈ setChild l c f) : ∃ e0 ∈ l, e = if e0.pid = c then f e0 else e0 := by
  obtain ⟨e0, he0, rfl⟩ := List.mem_map.mp he
  exact ⟨e0, he0, rfl⟩

theorem childEntry_eq_some (h : childEntry l c = some e) : e ∈ l ∧ e.pid = c :=
  ⟨List.mem_of_find?_eq_some h, by simpa using List.find?_some h⟩

theorem searchChild_eq_some (h : searchChild l c = some e) : e ∈ l ∧ e.pid = c := by
  have he := List.mem_of_getLast? h
  rw [List.mem_filter, Bool.and_eq_true, beq_iff_eq] at he
  exact ⟨he.1, he.2.2⟩

theorem searchChild_eq_none (h : searchChild l c = none) (he : e ∈ l) (hlinked : e.linked = true) :
    e.pid ≠ c := by
  rintro rfl
  rw [searchChild, List.getLast?_eq_none_iff, List.filter_eq_nil_iff] at h
  exact h e he (by simp [hlinked])

/-- The element `d` is that of `c` or stands before it. -/
def Ahead (l : List Child) (d c : Nat) : Prop := d = c ∨ [d, c].Sublist (l.map Child.pid)

theorem listBegin_ahead (hlinked : ∀ e ∈ l, e.pid = c → e.linked = true)
    (hc : c ∈ l.map Child.pid) : ∃ d, listBegin l = some d ∧ Ahead l d c := by
  induction l with
  | nil => cases hc
  | cons e l ih =>
    by_cases he : e.linked = true
    · refine ⟨e.pid, by simp [listBegin, he], ?_⟩
      rw [List.map_cons, List.mem_cons] at hc
      rcases hc with rfl | hc
      · exact .inl rfl
      · exact .inr (List.Sublist.cons_cons _ (List.singleton_sublist.mpr hc))
    · have hne : c ≠ e.pid := fun heq => he (hlinked e (.head _) heq.symm)
      obtain ⟨d, hd, hahead⟩ := ih (fun e' he' => hlinked e' (.tail _ he'))
        ((List.mem_cons.mp hc).resolve_left hne)
      refine ⟨d, ?_, hahead.imp_right fun hsub => hsub.cons _⟩
      rw [listBegin, List.find?_cons_of_neg (by simpa using he)]
      exact hd

theorem listNext_ahead (hnodup : (l.map Child.pid).Nodup)
    (hlinked : ∀ e ∈ l, e.pid = c → e.linked = true) (h : [d, c].Sublist (l.map Child.pid)) :
    ∃ d', listNext l d = some d' ∧ Ahead l d' c := by
  induction l with
  | nil => cases h
  | cons e l ih =>
    have hlinked' : ∀ e' ∈ l, e'.pid = c → e'.linked = true :=
      fun e' he' => hlinked e' (.tail _ he')
    rw [List.map_cons, List.nodup_cons] at hnodup
    rw [List.map_cons, List.cons_sublist_cons'] at h
    rw [listNext]
    by_cases hed : e.pid = d
    · rw [if_pos hed]
      have hc : c ∈ l.map Child.pid := by
        rcases h with h | ⟨-, h⟩
        · exact absurd (hed ▸ h.subset (.head _)) hnodup.1
        · exact List.singleton_sublist.mp h
      obtain ⟨d', hd', hahead⟩ := listBegin_ahead hlinked' hc
      exact ⟨d', hd', hahead.imp_right fun hsub => hsub.cons _⟩
    · rw [if_neg hed]
      obtain ⟨d', hd', hahead⟩ := ih hnodup.2 hlinked' (h.resolve_right fun h => hed h.1.symm)
      exact ⟨d', hd', hahead.imp_right fun hsub => hsub.cons _⟩

end ChildList

/-! ## The invariant -/

/-- The child that the parent waits for, from its store to `lock_child_id` on. -/
def ParentPc.awaits : ParentPc → Option Nat
  | .waitTest c | .waitDown c | .waitRead c | .waitRemove c _ | .waitFree c _ => some c
  | _ => none

namespace Family

variable {st : Family} {status : Int}

/-- The identifiers of the children with an entry. -/
abbrev pids (st : Family) : List Nat := st.childList.map Child.pid

/-- What holds of a child by the statement it is at: in its loop it has recorded its status or has
its entry before it. -/
def KidOk (st : Family) (c : Nat) : Prop :=
  match st.kid c with
  | .scan status elem => st.recorded c = some status ∨
      st.recorded c = none ∧ ∃ d, elem = some d ∧ Ahead st.childList d c
  | .next status elem => st.recorded c = some status ∨
      st.recorded c = none ∧ [elem, c].Sublist st.pids
  | .storeWait status | .storeStatus status => st.recorded c = some status ∨ st.recorded c = none
  | .storeCode status | .test status | .up status | .exited status => st.recorded c = some status
  | _ => st.recorded c = none

/-- The entries and the histories agree with where the children are. -/
structure Book (st : Family) : Prop where
  nodup : st.pids.Nodup
  pos : 0 < st.nextTid
  /-- The children have identifiers given out already. -/
  born : ∀ c, st.kid c ≠ .unborn → 0 < c ∧ c < st.nextTid
  /-- The children that were not waited for have an entry. -/
  entry : ∀ c, c ∈ st.pids ↔ st.kid c ≠ .unborn ∧ c ∉ st.waited
  /-- An entry is unlinked only to be freed next. -/
  linked : ∀ e ∈ st.childList, e.linked = false → ∃ status, st.pc = .waitFree e.pid status
  /-- `is_wait` is set from the child's store on. -/
  isWait : ∀ e ∈ st.childList, e.isWait = true ↔
    (∃ status, st.kid e.pid = .storeStatus status) ∨ st.recorded e.pid ≠ none
  status : ∀ e ∈ st.childList, ∀ status, st.recorded e.pid = some status → e.status = status
  kidOk : ∀ c, st.KidOk c
  waited : ∀ c ∈ st.waited, ∃ status, st.kid c = .exited status
  notDefault : ∀ c status, (st.kid c).exitStatus = some status → status ≠ -2

/-- The parent and the child that it waits for agree on where they are. -/
structure Sync (st : Family) : Prop where
  /-- `lock_child_id` is that of a child waited for, now or before. -/
  lock : st.kid st.lockChildId ≠ .unborn →
    st.lockChildId ∈ st.waited ∨ st.pc.awaits = some st.lockChildId
  /-- `lock_child_id` was given out already. -/
  lockLt : st.lockChildId < st.nextTid
  /-- The parent is at `sema_down` while a child starts. -/
  load : ∀ c, (st.kid c).starting → st.pc = .execDown (some c) ∧ st.childLock = []
  /-- It finds the load result of that child. -/
  success : ∀ c success, st.kid c = .signal success →
    st.loadSuccess = success ∧ st.loadStored c = some success
  /-- The parent is at `sema_down` when a child ups the semaphore on exit. -/
  up : ∀ c status, st.kid c = .up status → st.pc = .waitDown c ∧ st.childLock = []
  /-- There is no token but one that the parent is about to take, for the child it is from. -/
  tokens : st.childLock = [] ∨
    (∃ c, st.pc = .execDown (some c) ∧ st.childLock = [.loaded c] ∧
      st.loadStored c = some st.loadSuccess) ∨
    ∃ c, st.pc = .waitDown c ∧ st.childLock = [.exited c] ∧ ∃ status, st.kid c = .exited status
  /-- The parent tests `load_success` when its child has stored it. -/
  execCheck : ∀ c, st.pc = .execCheck c →
    ∃ tid, c = some tid ∧ st.loadStored tid = some st.loadSuccess
  /-- The child that the parent waits for has an entry. -/
  waitStore : ∀ c, st.pc = .waitStore c ∨ st.pc.awaits = some c → c ∈ st.pids
  waitLock : ∀ c, st.pc = .waitTest c ∨ st.pc = .waitDown c → st.lockChildId = c
  /-- It is not in its section when the parent tests `is_wait`. -/
  waitTest : ∀ c, st.pc = .waitTest c → ¬ st.InSection c
  /-- It has not exited when the parent has no token yet. -/
  waitDown : ∀ c, st.pc = .waitDown c → st.childLock = [] → ∀ status, st.kid c ≠ .exited status
  /-- It has exited when the parent reads its status. -/
  waitRead : ∀ c, st.pc = .waitRead c → ∃ status, st.kid c = .exited status
  waitRemove : ∀ c status, st.pc = .waitRemove c status ∨ st.pc = .waitFree c status →
    st.kid c = .exited status

theorem book_of_fresh (h : st.Fresh) : st.Book := by
  obtain ⟨hpc, hlock, hid, hlist, hkid, hpos, hwaited⟩ := h
  constructor <;> simp_all [pids, KidOk, KidPc.exitStatus]

theorem sync_of_fresh (h : st.Fresh) : st.Sync := by
  obtain ⟨hpc, hlock, hid, hlist, hkid, hpos, hwaited⟩ := h
  constructor <;> simp_all [KidPc.starting, ParentPc.awaits]

/-! ## Moves -/

section Moves

variable {c d : Nat} {k : KidPc}

@[simp, grind =] theorem kid_goto : (st.goto c k).kid d = if d = c then k else st.kid d :=
  Function.update_apply ..

@[simp, grind =] theorem pc_goto : (st.goto c k).pc = st.pc := rfl

@[simp, grind =] theorem childLock_goto : (st.goto c k).childLock = st.childLock := rfl

@[simp, grind =] theorem lockChildId_goto : (st.goto c k).lockChildId = st.lockChildId := rfl

@[simp, grind =] theorem loadSuccess_goto : (st.goto c k).loadSuccess = st.loadSuccess := rfl

@[simp, grind =] theorem childList_goto : (st.goto c k).childList = st.childList := rfl

@[simp, grind =] theorem nextTid_goto : (st.goto c k).nextTid = st.nextTid := rfl

@[simp, grind =] theorem loadStored_goto : (st.goto c k).loadStored = st.loadStored := rfl

@[simp, grind =] theorem recorded_goto : (st.goto c k).recorded = st.recorded := rfl

@[simp, grind =] theorem waited_goto : (st.goto c k).waited = st.waited := rfl

variable {st' : Family} {tokens : List Token}

theorem KidOk.congr (h : st.KidOk c) (hkid : st'.kid c = st.kid c)
    (hrec : st'.recorded c = st.recorded c)
    (hsub : ∀ d, [d, c].Sublist st.pids → (st.kid c).elem = some d → [d, c].Sublist st'.pids) :
    st'.KidOk c := by
  simp only [KidOk, Ahead] at h ⊢
  split <;> simp_all [KidPc.elem] <;> grind

section

variable (h : st.Book)
include h

theorem Book.congr (hkid : st'.kid = st.kid) (hlist : st'.childList = st.childList)
    (htid : st'.nextTid = st.nextTid) (hrec : st'.recorded = st.recorded)
    (hwaited : st'.waited = st.waited)
    (hpc : ∀ c status, st.pc = .waitFree c status → st'.pc = st.pc) : st'.Book := by
  constructor
  case nodup => rw [pids, hlist]; exact h.nodup
  case pos => rw [htid]; exact h.pos
  case born => rw [hkid, htid]; exact h.born
  case entry => rw [pids, hlist, hkid, hwaited]; exact h.entry
  case linked =>
    rw [hlist]
    intro e he hfalse
    obtain ⟨status, hfree⟩ := h.linked e he hfalse
    exact ⟨status, (hpc _ _ hfree).trans hfree⟩
  case isWait => rw [hlist, hkid, hrec]; exact h.isWait
  case status => rw [hlist, hrec]; exact h.status
  case kidOk =>
    intro c
    refine (h.kidOk c).congr (congrFun hkid c) (congrFun hrec c) fun d hsub _ => ?_
    rwa [pids, hlist]
  case waited => rw [hkid, hwaited]; exact h.waited
  case notDefault => rw [hkid]; exact h.notDefault

theorem Book.goto (hborn : st.kid c ≠ .unborn) (hk : k ≠ .unborn)
    (hexit : ∀ status, st.kid c ≠ .exited status)
    (hstore : ∀ status, st.kid c ≠ .storeStatus status ∧ k ≠ .storeStatus status)
    (hstatus : ∀ status, k.exitStatus = some status → status ≠ -2)
    (hok : (st.goto c k).KidOk c) : (st.goto c k).Book := by
  constructor
  case nodup => exact h.nodup
  case pos => exact h.pos
  case born => have := h.born; grind
  case entry => have := h.entry; grind
  case linked => exact h.linked
  case isWait => have := h.isWait; grind
  case status => exact h.status
  case kidOk =>
    intro d
    by_cases hd : d = c
    · exact hd ▸ hok
    · exact (h.kidOk d).congr (by rw [kid_goto, if_neg hd]) rfl fun _ hsub _ => hsub
  case waited => have := h.waited; grind
  case notDefault => have := h.notDefault; grind

theorem Book.store {f : Child → Child} {recorded : Nat → Option Int}
    (hborn : st.kid c ≠ .unborn) (hk : k ≠ .unborn) (hexit : ∀ status, st.kid c ≠ .exited status)
    (hf : ∀ e, (f e).pid = e.pid ∧ (f e).linked = e.linked)
    (hrec : ∀ d, d ≠ c → recorded d = st.recorded d)
    (hwait : ∀ e ∈ st.childList, e.pid = c →
      ((f e).isWait = true ↔ (∃ status, k = .storeStatus status) ∨ recorded c ≠ none))
    (hstatus : ∀ e ∈ st.childList, e.pid = c → ∀ status, recorded c = some status →
      (f e).status = status)
    (hcode : ∀ status, k.exitStatus = some status → status ≠ -2)
    (hok : KidOk { st.goto c k with
      childList := setChild st.childList c f, recorded := recorded } c) :
    Book { st.goto c k with childList := setChild st.childList c f, recorded := recorded } := by
  have hpids := pids_setChild (l := st.childList) (c := c) fun e => (hf e).1
  constructor
  case nodup => simpa only [hpids] using h.nodup
  case pos => exact h.pos
  case born => have := h.born; grind
  case entry => have := h.entry; simp only [hpids]; grind
  case linked =>
    intro e he hfalse
    obtain ⟨e0, he0, rfl⟩ := mem_setChild he
    have := h.linked e0 he0
    grind
  case isWait =>
    intro e he
    obtain ⟨e0, he0, rfl⟩ := mem_setChild he
    have := h.isWait e0 he0
    grind
  case status =>
    intro e he
    obtain ⟨e0, he0, rfl⟩ := mem_setChild he
    have := h.status e0 he0
    grind
  case kidOk =>
    intro d
    by_cases hd : d = c
    · exact hd ▸ hok
    · refine (h.kidOk d).congr (by simp [hd]) (hrec d hd) fun _ hsub _ => ?_
      simpa only [hpids] using hsub
  case waited => have := h.waited; grind
  case notDefault => have := h.notDefault; grind

theorem Book.execute (hpc : st.pc = .idle) (created : Bool) : (st.execute created).Book := by
  cases created with
  | false =>
    exact h.congr rfl rfl rfl rfl rfl fun c status hfree => by rw [hpc] at hfree; cases hfree
  | true =>
    have hnew : st.kid st.nextTid = .unborn := by
      by_contra hborn
      exact Nat.lt_irrefl _ (h.born _ hborn).2
    have hpids : (st.execute true).pids = st.pids ++ [st.nextTid] := by
      simp [Family.execute, pids]
    have hfresh : st.nextTid ∉ st.pids := fun hmem => ((h.entry _).mp hmem).1 hnew
    have hrec : st.recorded st.nextTid = none := by simpa [KidOk, hnew] using h.kidOk st.nextTid
    have hkid : ∀ d, (st.execute true).kid d = if d = st.nextTid then .loading else st.kid d :=
      fun d => Function.update_apply ..
    constructor
    case nodup => rw [hpids, ← List.concat_eq_append]; exact h.nodup.concat hfresh
    case pos => exact Nat.succ_pos _
    case born =>
      intro d
      have := h.born d
      have := h.pos
      rw [hkid, show (st.execute true).nextTid = st.nextTid + 1 from rfl]
      grind
    case entry =>
      intro d
      have := h.entry d
      have : st.nextTid ∉ st.waited := fun hmem => by
        obtain ⟨status, hexit⟩ := h.waited _ hmem
        rw [hnew] at hexit
        cases hexit
      rw [hkid, hpids, show (st.execute true).waited = st.waited from rfl]
      grind
    case linked =>
      intro e he hfalse
      rcases List.mem_append.mp he with he | he
      · obtain ⟨status, hfree⟩ := h.linked e he hfalse
        rw [hpc] at hfree
        cases hfree
      · rw [List.mem_singleton.mp he] at hfalse
        cases hfalse
    case isWait =>
      intro e he
      rw [hkid, show (st.execute true).recorded = st.recorded from rfl]
      rcases List.mem_append.mp he with he | he
      · have := h.isWait e he
        grind
      · rw [List.mem_singleton.mp he]
        simp [hrec]
    case status =>
      intro e he status hstatus
      rcases List.mem_append.mp he with he | he
      · exact h.status e he status hstatus
      · rw [List.mem_singleton.mp he] at hstatus
        cases hrec.symm.trans hstatus
    case kidOk =>
      intro d
      by_cases hd : d = st.nextTid
      · rw [KidOk, hkid, if_pos hd, hd]
        exact hrec
      · refine (h.kidOk d).congr (by rw [hkid, if_neg hd]) rfl fun _ hsub _ => ?_
        rw [hpids]
        exact hsub.trans (List.sublist_append_left _ _)
    case waited =>
      intro d hd
      obtain ⟨status, hexit⟩ := h.waited d hd
      refine ⟨status, ?_⟩
      rw [hkid, if_neg, hexit]
      rintro rfl
      rw [hnew] at hexit
      cases hexit
    case notDefault =>
      intro d status hd
      rw [hkid] at hd
      split at hd
      · cases hd
      · exact h.notDefault d status hd

theorem Book.remove (hpc : st.pc = .waitRemove c status) :
    Book { st with
      childList := setChild st.childList c fun e => { e with linked := false }
      pc := .waitFree c status } := by
  have hpids := pids_setChild (l := st.childList) (c := c)
    (f := fun e => { e with linked := false }) fun _ => rfl
  constructor
  case nodup => simpa only [hpids] using h.nodup
  case pos => exact h.pos
  case born => exact h.born
  case entry => simpa only [hpids] using h.entry
  case linked =>
    intro e he hfalse
    obtain ⟨e0, he0, rfl⟩ := mem_setChild he
    by_cases hc : e0.pid = c
    · exact ⟨status, by simp [hc]⟩
    · rw [if_neg hc] at hfalse
      obtain ⟨status', hfree⟩ := h.linked e0 he0 hfalse
      rw [hpc] at hfree
      cases hfree
  case isWait =>
    intro e he
    obtain ⟨e0, he0, rfl⟩ := mem_setChild he
    have := h.isWait e0 he0
    grind
  case status =>
    intro e he
    obtain ⟨e0, he0, rfl⟩ := mem_setChild he
    have := h.status e0 he0
    grind
  case kidOk =>
    intro d
    refine (h.kidOk d).congr rfl rfl fun _ hsub _ => ?_
    simpa only [hpids] using hsub
  case waited => exact h.waited
  case notDefault => exact h.notDefault

theorem Book.free (hpc : st.pc = .waitFree c status)
    (hexit : st.kid c = .exited status) (happart : ∀ d, (st.kid d).elem ≠ some c) :
    Book { st with
      childList := st.childList.filter (·.pid ≠ c), waited := c :: st.waited, pc := .idle } := by
  have hpids : (st.childList.filter (·.pid ≠ c)).map Child.pid = st.pids.filter (· ≠ c) := by
    rw [pids, List.filter_map]
    rfl
  constructor
  case nodup => simpa only [hpids] using h.nodup.filter _
  case pos => exact h.pos
  case born => exact h.born
  case entry => have := h.entry; simp only [hpids] at this ⊢; grind
  case linked =>
    intro e he hfalse
    rw [List.mem_filter, decide_eq_true_eq] at he
    obtain ⟨status', hfree⟩ := h.linked e he.1 hfalse
    rw [hpc] at hfree
    cases hfree
    exact absurd rfl he.2
  case isWait => exact fun e he => h.isWait e (List.mem_of_mem_filter he)
  case status => exact fun e he => h.status e (List.mem_of_mem_filter he)
  case kidOk =>
    intro d
    by_cases hd : d = c
    · subst hd
      have := h.kidOk d
      simpa [KidOk, hexit] using this
    · refine (h.kidOk d).congr rfl rfl fun e hsub helem => ?_
      have hsub' := hsub.filter (· ≠ c)
      have hec : e ≠ c := fun heq => happart d (heq ▸ helem)
      simpa only [hpids, List.filter_cons, hec, hd, ne_eq, not_false_eq_true, decide_true,
        if_true, List.filter_nil] using hsub'
  case waited => have := h.waited; grind
  case notDefault => exact h.notDefault

end

/-- The child has started, and has not come to its test of `lock_child_id`. -/
def active : KidPc → Bool
  | .running | .failed => true
  | k => k.beforeTest

theorem active_facts (h : active k = true) : k ≠ .unborn ∧ k.starting = false ∧
    (∀ s, k ≠ .up s) ∧ (∀ s, k ≠ .exited s) ∧ ∀ b, k ≠ .signal b := by
  cases k <;> simp_all [active, KidPc.beforeTest, KidPc.starting]

/-- A child goes on between its start and its test of `lock_child_id`.  If the parent is about to
test `is_wait`, it does not come into its section. -/
theorem Sync.goto (h : st.Sync) (hkid : st'.kid = Function.update st.kid c k) (hpc : st'.pc = st.pc)
    (htok : st'.childLock = st.childLock) (hlock : st'.lockChildId = st.lockChildId)
    (hsucc : st'.loadSuccess = st.loadSuccess) (hload : st'.loadStored = st.loadStored)
    (htid : st'.nextTid = st.nextTid) (hwaited : st'.waited = st.waited)
    (hpids : st'.pids = st.pids) (hrec : ∀ d, d ≠ c → st'.recorded d = st.recorded d)
    (hc : active (st.kid c)) (hk : active k) (hsec : st.pc = .waitTest c → ¬ st'.InSection c) :
    st'.Sync := by
  obtain ⟨h1, h2, h3, h4, h5⟩ := active_facts hc
  obtain ⟨k1, k2, k3, k4, k5⟩ := active_facts hk
  have hkid' : ∀ d, st'.kid d = if d = c then k else st.kid d := fun d => by
    rw [hkid, Function.update_apply]
  constructor
  case lock => have := h.lock; grind
  case lockLt => rw [hlock, htid]; exact h.lockLt
  case load => have := h.load; grind
  case success => have := h.success; grind
  case up => have := h.up; grind
  case tokens => have := h.tokens; grind
  case execCheck => have := h.execCheck; grind
  case waitStore => rw [hpc, hpids]; exact h.waitStore
  case waitLock => rw [hpc, hlock]; exact h.waitLock
  case waitTest => have := h.waitTest; grind [InSection]
  case waitDown => have := h.waitDown; grind
  case waitRead => have := h.waitRead; grind
  case waitRemove => have := h.waitRemove; grind

theorem Sync.exit (h : st.Sync) (hk : st.kid c = .test status)
    (hlock : st.lockChildId ≠ c) : (st.goto c (.exited status)).Sync := by
  constructor
  case lock => have := h.lock; grind
  case lockLt => exact h.lockLt
  case load => have := h.load; grind [KidPc.starting]
  case success => have := h.success; grind
  case up => have := h.up; grind
  case tokens => have := h.tokens; grind
  case execCheck => have := h.execCheck; grind
  case waitStore => exact h.waitStore
  case waitLock => exact h.waitLock
  case waitTest => have := h.waitTest; have := h.waitLock; grind [InSection]
  case waitDown => have := h.waitDown; have := h.waitLock; grind
  case waitRead => have := h.waitRead; grind
  case waitRemove => have := h.waitRemove; grind

theorem Sync.waitDown_of_test (h : st.Sync) (hb : st.Book)
    (hk : st.kid c = .test status) (hlock : st.lockChildId = c) :
    st.pc = .waitDown c ∧ st.childLock = [] := by
  have hexit : ∀ status, st.kid c ≠ .exited status := by simp [hk]
  have hsec : st.InSection c := by
    have hrec : st.recorded c = some status := by simpa [KidOk, hk] using hb.kidOk c
    exact .inr ⟨by simp [hrec], by simp [hk, KidPc.beforeTest]⟩
  have hpc : st.pc = .waitDown c := by
    rcases hlock ▸ h.lock (by simp [hlock, hk]) with hwaited | hawaits
    · obtain ⟨status', hexited⟩ := hb.waited c hwaited
      exact absurd hexited (hexit status')
    · have := h.waitTest c
      have := h.waitRead c
      have := h.waitRemove c
      revert hawaits
      cases hpc : st.pc <;> grind [ParentPc.awaits]
  refine ⟨hpc, ?_⟩
  have := h.tokens
  grind

/-- The child that the parent executes goes on in `start_process`: it has not upped the semaphore,
or the token is there and the parent has its load result. -/
theorem Sync.start (h : st.Sync) (hc : (st.kid c).starting)
    {success blocked : Bool} {stored : Nat → Option Bool} (hup : ∀ status, k ≠ .up status)
    (hsignal : ∀ b, k = .signal b → success = b ∧ stored c = some b)
    (htok : tokens = [] ∧ k.starting ∨
      tokens = [.loaded c] ∧ k.starting = false ∧ stored c = some success) :
    Sync { st.goto c k with
      childLock := tokens, loadSuccess := success, loadStored := stored, blocked := blocked } := by
  obtain ⟨hpc, -⟩ := h.load c hc
  have hother : ∀ d, d ≠ c → (st.kid d).starting = false := by
    have := h.load
    grind
  have hnot : ∀ d status, st.kid d ≠ .up status := by
    have := h.up
    grind
  constructor
  case lock => have := h.lock; grind [KidPc.starting]
  case lockLt => exact h.lockLt
  case load => grind
  case success => have := hother; grind [KidPc.starting]
  case up => grind
  case tokens => grind
  case execCheck => grind
  case waitStore => exact h.waitStore
  case waitLock => exact h.waitLock
  case waitTest => grind
  case waitDown => grind
  case waitRead => grind
  case waitRemove => grind

theorem Sync.stop (h : st.Sync) (hpc : st.pc = .waitDown c) (hc : st.kid c ≠ .unborn)
    {blocked : Bool} (htok : tokens = [] ∧ k = .up status ∨
      tokens = [.exited c] ∧ k = .exited status) :
    Sync { st.goto c k with childLock := tokens, blocked := blocked } := by
  have hother : ∀ d, d ≠ c → (∀ status, st.kid d ≠ .up status) ∧ (st.kid d).starting = false := by
    have := h.up
    have := h.load
    grind
  constructor
  case lock => have := h.lock; grind
  case lockLt => exact h.lockLt
  case load => grind [KidPc.starting]
  case success => have := h.success; grind
  case up => grind
  case tokens => grind
  case execCheck => grind
  case waitStore => exact h.waitStore
  case waitLock => exact h.waitLock
  case waitTest => grind
  case waitDown => grind
  case waitRead => grind
  case waitRemove => grind

end Moves

end Family

end Pintos
