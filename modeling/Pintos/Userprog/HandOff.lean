import Pintos.Userprog.WaitInvariant

/-!
# Exec and wait hand over what they should

* `inv_kidStep` and `inv_parentStep`: each statement of a child and of the parent keeps the
  invariant.
* `handOff_sound`: along every run that keeps the sections of parent and children apart, every
  event is taken for what it is.  The results of `process_execute` and `process_wait` are right, and
  each token is taken by the call it was meant for.
* `wait_returns_early`: where the sections overlap, `process_wait` returns before the child has
  recorded its status.
-/

namespace Pintos

namespace Family

variable {st : Family}

/-! ## The statements of a child -/

section Kid

variable {c : Nat} {k : KidPc} {st' : Family}

/-- The invariant. -/
def Inv (st : Family) : Prop := st.Book ∧ st.Sync

theorem inv_goto (h : st.Inv) (hc : active (st.kid c)) (hk : active k)
    (hstore : ∀ status, st.kid c ≠ .storeStatus status ∧ k ≠ .storeStatus status)
    (hstatus : ∀ status, k.exitStatus = some status → status ≠ -2)
    (hok : (st.goto c k).KidOk c) : (st.goto c k).Inv := by
  obtain ⟨hb, hs⟩ := h
  obtain ⟨h1, h2, h3, h4, h5⟩ := active_facts hc
  refine ⟨hb.goto h1 (active_facts hk).1 h4 hstore hstatus hok,
    hs.goto rfl rfl rfl rfl rfl rfl rfl rfl rfl (fun _ _ => rfl) hc hk fun hpc hsec => ?_⟩
  have hold := hs.waitTest c hpc
  have hrun : st.kid c = .running ∨ st.kid c = .failed → st.recorded c = none := by
    rintro (hrun | hrun) <;> simpa [KidOk, hrun] using hb.kidOk c
  cases hkid : st.kid c <;>
    simp_all [InSection, active]

theorem Inv.linked_of_active (h : st.Inv) (hc : active (st.kid c)) :
    c ∈ st.pids ∧ ∀ e ∈ st.childList, e.pid = c → e.linked = true := by
  obtain ⟨hb, hs⟩ := h
  obtain ⟨h1, h2, h3, h4, h5⟩ := active_facts hc
  refine ⟨(hb.entry c).mpr ⟨h1, fun hmem => ?_⟩, fun e he hpid => ?_⟩
  · obtain ⟨status, hexit⟩ := hb.waited c hmem
    exact h4 status hexit
  · by_contra hfalse
    obtain ⟨status, hfree⟩ := hb.linked e he (by simpa using hfalse)
    exact h4 status (hs.waitRemove c status (.inr (hpid ▸ hfree)))

theorem inv_exit (h : st.Inv) (hk : st.kid c = .running ∨ st.kid c = .failed) {status : Int}
    (hstatus : status ≠ -2) : (st.goto c (.scan status (listBegin st.childList))).Inv := by
  have hc : active (st.kid c) := by rcases hk with hk | hk <;> rw [hk] <;> rfl
  obtain ⟨hmem, hlinked⟩ := h.linked_of_active hc
  obtain ⟨d, hd, hahead⟩ := listBegin_ahead hlinked hmem
  refine inv_goto h hc rfl (by rcases hk with hk | hk <;> simp [hk])
    (by simpa [KidPc.exitStatus] using hstatus) ?_
  have hrec : st.recorded c = none := by
    rcases hk with hk | hk <;> simpa [KidOk, hk] using h.1.kidOk c
  simp only [KidOk, kid_goto]
  exact .inr ⟨hrec, d, hd, hahead⟩

theorem eq_of_dirClose (h : st.dirClose c = some st') : ∃ d, st' = { st with dir := d } := by
  rw [dirClose] at h
  split at h <;> cases h
  · exact ⟨st.dir, rfl⟩
  · exact ⟨_, rfl⟩

/-- **A child's statement** keeps the invariant. -/
theorem inv_kidStep (h : st.Inv) (hapart : Apart st (.kid c)) (hstep : st.kidStep c = some st') :
    st'.Inv := by
  have hok := h.1.kidOk c
  have hcode := h.1.notDefault c
  cases hk : st.kid c <;> simp only [kidStep, hk, Option.some_inj, Option.map_eq_some_iff] at hstep
  all_goals simp only [KidOk, hk] at hok
  all_goals rw [hk] at hcode
  case unborn | loading | running => cases hstep
  case exited status =>
    rw [if_neg (hcode status rfl)] at hstep
    cases hstep
  case failed =>
    obtain ⟨st1, hclose, rfl⟩ := hstep
    obtain ⟨d, rfl⟩ := eq_of_dirClose hclose
    have hexit := inv_exit h (.inr hk) (show (-1 : Int) ≠ -2 by decide)
    exact ⟨{ hexit.1 with }, { hexit.2 with }⟩
  case loaded success =>
    subst hstep
    have hstart : (st.kid c).starting := by rw [hk]; rfl
    have hbook : (st.goto c (.signal success)).Book :=
      h.1.goto (by simp [hk]) (by simp) (by simp [hk]) (by simp [hk]) (by rintro _ ⟨⟩)
        (by simpa [KidOk] using hok)
    refine ⟨hbook.congr rfl rfl rfl rfl rfl fun _ _ _ => rfl, ?_⟩
    refine h.2.start hstart (by simp) (fun b hb => ?_) (.inl ⟨(h.2.load c hstart).2, rfl⟩)
    cases hb
    exact ⟨rfl, Function.update_self ..⟩
  case signal success =>
    subst hstep
    have hstart : (st.kid c).starting := by rw [hk]; rfl
    have hbook : (st.goto c (if success then .running else .failed)).Book :=
      h.1.goto (by simp [hk]) (by cases success <;> simp) (by simp [hk])
        (by cases success <;> simp [hk]) (by cases success <;> rintro _ ⟨⟩)
        (by cases success <;> simpa [KidOk] using hok)
    refine ⟨hbook.congr rfl rfl rfl rfl rfl fun _ _ _ => rfl, ?_⟩
    obtain ⟨hsuccess, hstored⟩ := h.2.success c success hk
    refine h.2.start hstart (by cases success <;> simp) (by cases success <;> simp)
      (.inr ⟨?_, by cases success <;> rfl, ?_⟩)
    · rw [childLock_goto, (h.2.load c hstart).2, List.nil_append]
    · rw [loadSuccess_goto, hsuccess]
      exact hstored
  case scan status elem =>
    have hc : active (st.kid c) := by rw [hk]; rfl
    cases elem with
    | none =>
      simp only [Option.some_inj] at hstep
      subst hstep
      refine inv_goto h hc rfl (by simp [hk]) hcode ?_
      simpa [KidOk] using hok
    | some d =>
      simp only [Option.map_eq_some_iff] at hstep
      obtain ⟨e, he, rfl⟩ := hstep
      have hpid := (childEntry_eq_some he).2
      split
      · refine inv_goto h hc rfl (by simp [hk]) hcode ?_
        simp only [KidOk, kid_goto]
        exact hok.imp_right fun hahead => hahead.1
      · rename_i hne
        refine inv_goto h hc rfl (by simp [hk]) hcode ?_
        simp only [KidOk, kid_goto]
        refine hok.imp_right fun hseen => ⟨hseen.1, ?_⟩
        obtain ⟨-, d', hd, hahead⟩ := hseen
        cases hd
        exact hahead.resolve_left (hpid ▸ hne)
  case storeWait status =>
    have hc : active (st.kid c) := by rw [hk]; rfl
    obtain ⟨-, -, rfl⟩ := hstep
    refine ⟨h.1.store (by simp [hk]) (by simp) (by simp [hk]) (fun _ => ⟨rfl, rfl⟩)
      (fun _ _ => rfl) ?_ ?_ hcode ?_, ?_⟩
    · simp
    · rintro e he rfl
      exact h.1.status e he
    · simpa [KidOk] using hok
    · exact h.2.goto rfl rfl rfl rfl rfl rfl rfl rfl (pids_setChild fun _ => rfl) (fun _ _ => rfl)
        hc rfl fun hpc => absurd hpc (hapart status hk)
  case storeStatus status =>
    have hc : active (st.kid c) := by rw [hk]; rfl
    obtain ⟨-, -, rfl⟩ := hstep
    refine ⟨h.1.store (by simp [hk]) (by simp) (by simp [hk]) (fun _ => ⟨rfl, rfl⟩)
      (fun d hd => Function.update_of_ne hd ..) (fun e he hpid => ?_) ?_ hcode ?_, ?_⟩
    · rw [h.1.isWait e he, hpid]
      simp [hk]
    · simp
    · simp [KidOk]
    · refine h.2.goto rfl rfl rfl rfl rfl rfl rfl rfl (pids_setChild fun _ => rfl)
        (fun d hd => Function.update_of_ne hd ..) hc rfl fun hpc _ => ?_
      exact h.2.waitTest c hpc (.inl ⟨status, hk⟩)
  case next status elem =>
    have hc : active (st.kid c) := by rw [hk]; rfl
    obtain ⟨-, -, rfl⟩ := hstep
    refine inv_goto h hc rfl (by simp [hk]) hcode ?_
    simp only [KidOk, kid_goto]
    refine hok.imp_right fun hseen => ⟨hseen.1, ?_⟩
    exact listNext_ahead h.1.nodup (h.linked_of_active hc).2 hseen.2
  case storeCode status =>
    subst hstep
    refine inv_goto h (by rw [hk]; rfl) rfl (by simp [hk]) hcode ?_
    simpa [KidOk] using hok
  case test status =>
    subst hstep
    split
    · rename_i hlock
      obtain ⟨hpc, htok⟩ := h.2.waitDown_of_test h.1 hk hlock
      refine ⟨h.1.goto (by simp [hk]) (by simp) (by simp [hk]) (by simp [hk]) hcode
        (by simpa [KidOk] using hok), ?_⟩
      exact h.2.stop hpc (by simp [hk]) (.inl ⟨htok, rfl⟩)
    · rename_i hlock
      exact ⟨h.1.goto (by simp [hk]) (by simp) (by simp [hk]) (by simp [hk]) hcode
        (by simpa [KidOk] using hok), h.2.exit hk hlock⟩
  case up status =>
    subst hstep
    obtain ⟨hpc, htok⟩ := h.2.up c status hk
    have hbook : (st.goto c (.exited status)).Book :=
      h.1.goto (by simp [hk]) (by simp) (by simp [hk]) (by simp [hk]) hcode
        (by simpa [KidOk] using hok)
    refine ⟨hbook.congr rfl rfl rfl rfl rfl fun _ _ _ => rfl, ?_⟩
    refine h.2.stop hpc (by simp [hk]) (.inr ⟨?_, rfl⟩)
    rw [childLock_goto, htok, List.nil_append]

end Kid

/-! ## The statements of the parent -/

section Parent

variable {c : Nat} {st' : Family} {event : Option FamilyEvent}

/-- What the parent needs at its statement, when it is not at `sema_down` for a child that is still
to up the semaphore. -/
def PcOk (st : Family) : Prop :=
  match st.pc with
  | .idle | .execDown none => True
  | .execDown (some _) => False
  | .execCheck c => ∃ tid, c = some tid ∧ st.loadStored tid = some st.loadSuccess
  | .waitStore c => c ∈ st.pids
  | .waitTest c => c ∈ st.pids ∧ st.lockChildId = c ∧ ¬ st.InSection c
  | .waitDown c => c ∈ st.pids ∧ st.lockChildId = c ∧ ∀ status, st.kid c ≠ .exited status
  | .waitRead c => c ∈ st.pids ∧ ∃ status, st.kid c = .exited status
  | .waitRemove c status | .waitFree c status => c ∈ st.pids ∧ st.kid c = .exited status

/-- No child is about to up the semaphore. -/
def Calm (st : Family) : Prop :=
  ∀ d, (st.kid d).starting = false ∧ ∀ status, st.kid d ≠ .up status

theorem sync_of_calm (hcalm : st.Calm) (htok : st.childLock = [])
    (hlock : st.kid st.lockChildId ≠ .unborn →
      st.lockChildId ∈ st.waited ∨ st.pc.awaits = some st.lockChildId)
    (hlt : st.lockChildId < st.nextTid) (hpc : st.PcOk) : st.Sync where
  lock := hlock
  lockLt := hlt
  load d hd := by simp [(hcalm d).1] at hd
  success d b hd := by
    have := (hcalm d).1
    simp [hd, KidPc.starting] at this
  up d status hd := absurd hd ((hcalm d).2 status)
  tokens := .inl htok
  execCheck c hc := by simpa [PcOk, hc] using hpc
  waitStore c hc := by
    unfold PcOk at hpc
    split at hpc <;> simp_all [ParentPc.awaits]
  waitLock c hc := by
    unfold PcOk at hpc
    rcases hc with hc | hc <;> simp_all
  waitTest c hc := by simp only [PcOk, hc] at hpc; exact hpc.2.2
  waitDown c hc _ := by simp only [PcOk, hc] at hpc; exact hpc.2.2
  waitRead c hc := by simp only [PcOk, hc] at hpc; exact hpc.2
  waitRemove c status hc := by
    unfold PcOk at hpc
    rcases hc with hc | hc <;> simp_all

theorem Sync.calm (h : st.Sync)
    (hpc : st.childLock = [] → ∀ c, st.pc ≠ .execDown (some c) ∧ st.pc ≠ .waitDown c) :
    st.Calm := by
  have := h.load
  have := h.up
  intro d
  grind

theorem inv_execute (h : st.Inv) (hpc : st.pc = .idle) (created : Bool) :
    (st.execute created).Inv := by
  obtain ⟨hb, hs⟩ := h
  refine ⟨hb.execute hpc created, ?_⟩
  have htok : st.childLock = [] := by have := hs.tokens; grind
  have hcalm : st.Calm := hs.calm (by simp [hpc])
  have hlock : st.kid st.lockChildId ≠ .unborn → st.lockChildId ∈ st.waited := fun hborn =>
    (hs.lock hborn).resolve_right (by simp [hpc, ParentPc.awaits])
  cases created with
  | false => exact sync_of_calm hcalm htok (fun hborn => .inl (hlock hborn)) hs.lockLt trivial
  | true =>
    have hkid : ∀ d, (st.execute true).kid d = if d = st.nextTid then .loading else st.kid d :=
      fun d => Function.update_apply ..
    have hne : st.lockChildId ≠ st.nextTid := Nat.ne_of_lt hs.lockLt
    have hpc' : (st.execute true).pc = .execDown (some st.nextTid) := rfl
    constructor
    case lock =>
      intro hborn
      rw [hkid, if_neg (by exact hne)] at hborn
      exact .inl (hlock hborn)
    case lockLt => exact Nat.lt_succ_of_lt hs.lockLt
    case load =>
      intro d hd
      rw [hkid] at hd
      split at hd
      · rename_i heq
        exact ⟨by rw [hpc', heq], htok⟩
      · simp [(hcalm d).1] at hd
    case success => intro d b hd; have := (hcalm d).1; grind [KidPc.starting]
    case up => intro d status hd; have := (hcalm d).2; grind
    case tokens => exact .inl htok
    case waitStore => rw [hpc']; simp [ParentPc.awaits]
    all_goals rw [hpc']; simp

theorem inv_call (h : st.Inv) (hpc : st.pc = .idle) (hmem : c ∈ st.pids) :
    Inv { st with pc := .waitStore c } := by
  obtain ⟨hb, hs⟩ := h
  refine ⟨hb.congr rfl rfl rfl rfl rfl (by simp [hpc]), ?_⟩
  refine sync_of_calm (hs.calm (by simp [hpc])) ?_ (fun hborn => .inl ?_) hs.lockLt hmem
  · have := hs.tokens
    grind
  · exact (hs.lock hborn).resolve_right (by simp [hpc, ParentPc.awaits])

theorem Sync.token (h : st.Sync) {t : Token} {ts : List Token} (htok : st.childLock = t :: ts) :
    ts = [] ∧ ((∃ c, st.pc = .execDown (some c) ∧ t = .loaded c ∧
        st.loadStored c = some st.loadSuccess) ∨
      ∃ c, st.pc = .waitDown c ∧ t = .exited c ∧ ∃ status, st.kid c = .exited status) := by
  have htokens := h.tokens
  rw [htok] at htokens
  obtain h | ⟨c, hpc, ht, hload⟩ | ⟨c, hpc, ht, hexit⟩ := htokens
  · cases h
  · obtain ⟨rfl, rfl⟩ := List.cons.inj ht
    exact ⟨rfl, .inl ⟨c, hpc, rfl, hload⟩⟩
  · obtain ⟨rfl, rfl⟩ := List.cons.inj ht
    exact ⟨rfl, .inr ⟨c, hpc, rfl, hexit⟩⟩

theorem Inv.block (h : st.Inv) : Inv { st with blocked := true } :=
  ⟨h.1.congr rfl rfl rfl rfl rfl fun _ _ _ => rfl,
    { lock := h.2.lock, lockLt := h.2.lockLt, load := h.2.load, success := h.2.success,
      up := h.2.up, tokens := h.2.tokens, execCheck := h.2.execCheck, waitStore := h.2.waitStore,
      waitLock := h.2.waitLock, waitTest := h.2.waitTest, waitDown := h.2.waitDown,
      waitRead := h.2.waitRead, waitRemove := h.2.waitRemove }⟩

theorem Inv.goOn (h : st.Inv) (hcalm : st.Calm) {tokens : List Token} {lockChildId : Nat}
    {pc : ParentPc} (hfree : ∀ c status, st.pc ≠ .waitFree c status) (htok : tokens = [])
    (hlock : st.kid lockChildId ≠ .unborn → lockChildId ∈ st.waited ∨ pc.awaits = some lockChildId)
    (hlt : lockChildId < st.nextTid)
    (hpc : PcOk { st with childLock := tokens, lockChildId := lockChildId, pc := pc }) :
    Inv { st with childLock := tokens, lockChildId := lockChildId, pc := pc } :=
  ⟨h.1.congr rfl rfl rfl rfl rfl fun c status heq => absurd heq (hfree c status),
    sync_of_calm hcalm htok hlock hlt hpc⟩

theorem Inv.exited_of_isWait (h : st.Inv) (hcalm : st.Calm) {e : Child} (he : e ∈ st.childList)
    (hsec : ¬ st.InSection e.pid) :
    e.isWait = true ↔ ∃ status, st.kid e.pid = .exited status := by
  rw [h.1.isWait e he]
  have hok := h.1.kidOk e.pid
  have hup := (hcalm e.pid).2
  rw [InSection] at hsec
  cases hk : st.kid e.pid <;> simp_all [KidOk, KidPc.beforeTest]

/-- **The parent's statement** keeps the invariant. -/
theorem inv_parentStep (h : st.Inv) (hapart : Apart st .parent)
    (hstep : st.parentStep = some (event, st')) : st'.Inv := by
  obtain ⟨hfirst, hlast⟩ := hapart
  have htokens := h.2.tokens
  have hcalm := h.2.calm
  have hlock := h.2.lock
  have hmem := h.2.waitStore
  cases hpc : st.pc <;> simp only [parentStep, hpc, Option.map_eq_some_iff] at hstep
  case idle => cases hstep
  case execDown c =>
    rw [semaDown] at hstep
    split at hstep <;> cases hstep
    · exact h.block
    · rename_i t ts htok
      obtain ⟨hts, ⟨tid, hc, -, hload⟩ | ⟨_, hc, -⟩⟩ := h.2.token htok <;> cases hpc.symm.trans hc
      refine h.goOn (hcalm (by simp [htok])) (by simp [hpc]) hts (fun hborn => ?_) h.2.lockLt
        ⟨tid, rfl, hload⟩
      simpa [hpc, ParentPc.awaits] using hlock hborn
  case execCheck c =>
    cases hstep
    refine h.goOn (hcalm (by simp [hpc])) (by simp [hpc]) (by simpa [hpc] using htokens)
      (fun hborn => ?_) h.2.lockLt trivial
    simpa [hpc, ParentPc.awaits] using hlock hborn
  case waitStore c =>
    cases hstep
    have hc := hmem c (.inl hpc)
    refine h.goOn (hcalm (by simp [hpc])) (by simp [hpc]) (by simpa [hpc] using htokens)
      (fun _ => .inr rfl) (h.1.born c ((h.1.entry c).mp hc).1).2 ⟨hc, rfl, hfirst c hpc⟩
  case waitTest c =>
    obtain ⟨e, he, heq⟩ := hstep
    cases heq
    obtain ⟨hentry, rfl⟩ := childEntry_eq_some he
    have hcalm := hcalm (by simp [hpc])
    have hiff := h.exited_of_isWait hcalm hentry (h.2.waitTest _ hpc)
    have hid := h.2.waitLock _ (.inl hpc)
    have hc := hmem e.pid (.inr (by rw [hpc]; rfl))
    split
    · rename_i hwait
      exact h.goOn hcalm (by simp [hpc]) (by simpa [hpc] using htokens)
        (fun _ => .inr (by rw [hid]; rfl)) h.2.lockLt ⟨hc, hiff.mp hwait⟩
    · rename_i hwait
      exact h.goOn hcalm (by simp [hpc]) (by simpa [hpc] using htokens)
        (fun _ => .inr (by rw [hid]; rfl)) h.2.lockLt
        ⟨hc, hid, fun status hexit => hwait (hiff.mpr ⟨status, hexit⟩)⟩
  case waitDown c =>
    rw [semaDown] at hstep
    split at hstep <;> cases hstep
    · exact h.block
    · rename_i t ts htok
      obtain ⟨hts, ⟨_, hc, -⟩ | ⟨_, hc, -, hexit⟩⟩ := h.2.token htok <;> cases hpc.symm.trans hc
      have hid := h.2.waitLock c (.inr hpc)
      exact h.goOn (hcalm (by simp [htok])) (by simp [hpc]) hts (fun _ => .inr (by rw [hid]; rfl))
        h.2.lockLt ⟨hmem c (.inr (by rw [hpc]; rfl)), hexit⟩
  case waitRead c =>
    obtain ⟨e, he, heq⟩ := hstep
    cases heq
    obtain ⟨hentry, rfl⟩ := childEntry_eq_some he
    obtain ⟨status, hexit⟩ := h.2.waitRead _ hpc
    have hrec : st.recorded e.pid = some status := by simpa [KidOk, hexit] using h.1.kidOk e.pid
    refine h.goOn (hcalm (by simp [hpc])) (by simp [hpc]) (by simpa [hpc] using htokens)
      (fun hborn => ?_) h.2.lockLt ⟨hmem e.pid (.inr (by rw [hpc]; rfl)), ?_⟩
    · simpa [hpc, ParentPc.awaits] using hlock hborn
    · rw [h.1.status e hentry status hrec]
      exact hexit
  case waitRemove c status =>
    cases hstep
    refine ⟨h.1.remove hpc, ?_⟩
    have hpids := pids_setChild (l := st.childList) (c := c)
      (f := fun e => { e with linked := false }) fun _ => rfl
    refine sync_of_calm (hcalm (by simp [hpc])) (by simpa [hpc] using htokens) (fun hborn => ?_)
      h.2.lockLt ⟨?_, h.2.waitRemove c status (.inl hpc)⟩
    · simpa [hpc, ParentPc.awaits] using hlock hborn
    · rw [pids, hpids]
      exact hmem c (.inr (by rw [hpc]; rfl))
  case waitFree c status =>
    cases hstep
    have hexit := h.2.waitRemove c status (.inr hpc)
    refine ⟨h.1.free hpc hexit (hlast c status hpc), ?_⟩
    refine sync_of_calm (hcalm (by simp [hpc])) (by simpa [hpc] using htokens)
      (fun hborn => .inl ?_) h.2.lockLt trivial
    rcases hlock hborn with hwaited | hawaits
    · exact .tail _ hwaited
    · rw [hpc, ParentPc.awaits, Option.some_inj] at hawaits
      exact hawaits ▸ .head _

end Parent

/-! ## Runs -/

section Runs

variable {t : Turn} {event : Option FamilyEvent} {st' : Family}

/-- **A turn** that keeps the sections apart keeps the invariant. -/
theorem inv_step (h : st.Inv) (hapart : Apart st t)
    (hstep : familyMachine.step st t = some (event, st')) : st'.Inv := by
  cases t with
  | execute created =>
    obtain ⟨hpc, heq⟩ := Option.ite_none_right_eq_some.mp hstep
    cases heq
    exact inv_execute h hpc created
  | wait tid =>
    obtain ⟨hpc, heq⟩ := Option.ite_none_right_eq_some.mp hstep
    split at heq <;> cases heq
    · exact h
    · rename_i e he
      exact inv_call h hpc (List.mem_map_of_mem (searchChild_eq_some he).1)
  | parent =>
    obtain ⟨-, hparent⟩ := Option.ite_none_left_eq_some.mp hstep
    exact inv_parentStep h hapart hparent
  | load c success =>
    obtain ⟨hk, heq⟩ := Option.ite_none_right_eq_some.mp hstep
    cases heq
    have hstart : (st.kid c).starting := by rw [hk]; rfl
    have hok : st.recorded c = none := by simpa [KidOk, hk] using h.1.kidOk c
    refine ⟨h.1.goto (by simp [hk]) (by simp) (by simp [hk]) (by simp [hk]) (by rintro _ ⟨⟩)
      (by simpa [KidOk] using hok), ?_⟩
    exact h.2.start hstart (by simp) (by simp) (.inl ⟨(h.2.load c hstart).2, rfl⟩)
  | exit c status =>
    obtain ⟨hk, heq⟩ := Option.ite_none_right_eq_some.mp hstep
    cases heq
    exact inv_exit h (.inl hk) hapart
  | kid c =>
    obtain ⟨st'', hkid, heq⟩ := Option.map_eq_some_iff.mp hstep
    cases heq
    exact inv_kidStep h hapart hkid

theorem handOff_none (ht : ∀ c, t ≠ .wait c) : HandOff st t none :=
  ⟨by simp, by simp, fun c hc => absurd hc (ht c), by simp, by simp⟩

theorem handOff_took (h : st.Inv) {token : Token} {ts : List Token}
    (htok : st.childLock = token :: ts) : HandOff st .parent (some (.took token)) := by
  refine ⟨by simp, by simp, by simp, by simp, fun t ht => ?_⟩
  cases ht
  obtain ⟨-, ⟨c, hpc, ht, -⟩ | ⟨c, hpc, ht, -⟩⟩ := h.2.token htok
  · exact .inl ⟨c, hpc, ht⟩
  · exact .inr ⟨c, hpc, ht⟩

theorem handOff_parentStep (h : st.Inv) (hstep : st.parentStep = some (event, st')) :
    HandOff st .parent event := by
  cases hpc : st.pc <;> simp only [parentStep, hpc, Option.map_eq_some_iff] at hstep
  case idle => cases hstep
  case execDown | waitDown =>
    rw [semaDown] at hstep
    split at hstep <;> cases hstep
    · exact handOff_none (by simp)
    · rename_i htok
      exact handOff_took h htok
  case execCheck c =>
    cases hstep
    obtain ⟨tid, rfl, hload⟩ := h.2.execCheck c hpc
    refine ⟨fun c result heq => ?_, by simp, by simp, by simp, by simp⟩
    cases heq
    refine ⟨tid, st.loadSuccess, rfl, hload, ?_⟩
    cases st.loadSuccess <;> simp
  case waitFree c status =>
    cases hstep
    have hexit := h.2.waitRemove c status (.inr hpc)
    refine ⟨by simp, fun c result heq => ?_, by simp, by simp, by simp⟩
    cases heq
    simpa [KidOk, hexit] using h.1.kidOk c
  case waitStore | waitRemove =>
    cases hstep
    exact handOff_none (by simp)
  case waitTest | waitRead =>
    obtain ⟨e, -, heq⟩ := hstep
    cases heq
    exact handOff_none (by simp)

theorem handOff_of_inv (h : st.Inv) (hstep : familyMachine.step st t = some (event, st')) :
    HandOff st t event := by
  cases t with
  | parent =>
    obtain ⟨-, hparent⟩ := Option.ite_none_left_eq_some.mp hstep
    exact handOff_parentStep h hparent
  | wait tid =>
    obtain ⟨hpc, heq⟩ := Option.ite_none_right_eq_some.mp hstep
    split at heq <;> cases heq
    · rename_i hnone
      refine ⟨by simp, by simp, by simp, fun c hc => ?_, by simp⟩
      cases hc
      by_contra hmem
      rw [not_or] at hmem
      obtain ⟨e, he, hpid⟩ := List.mem_map.mp ((h.1.entry tid).mpr ⟨hmem.2, hmem.1⟩)
      refine searchChild_eq_none hnone he (Bool.of_not_eq_false fun hfalse => ?_) hpid
      obtain ⟨status, hfree⟩ := h.1.linked e he hfalse
      rw [hpc] at hfree
      cases hfree
    · rename_i e he
      obtain ⟨hentry, rfl⟩ := searchChild_eq_some he
      refine ⟨by simp, by simp, fun c hc hwaited => ?_, by simp, by simp⟩
      cases hc
      exact absurd hwaited ((h.1.entry e.pid).mp (List.mem_map_of_mem hentry)).2
  | execute created =>
    obtain ⟨-, heq⟩ := Option.ite_none_right_eq_some.mp hstep
    cases heq
    exact handOff_none (by simp)
  | load c success =>
    obtain ⟨-, heq⟩ := Option.ite_none_right_eq_some.mp hstep
    cases heq
    exact handOff_none (by simp)
  | exit c status =>
    obtain ⟨-, heq⟩ := Option.ite_none_right_eq_some.mp hstep
    cases heq
    exact handOff_none (by simp)
  | kid c =>
    obtain ⟨st'', -, heq⟩ := Option.map_eq_some_iff.mp hstep
    cases heq
    exact handOff_none (by simp)

theorem inv_of_reach (h : familyMachine.Reach Fresh Apart st) : st.Inv :=
  h.invariant (fun _ hfresh => ⟨book_of_fresh hfresh, sync_of_fresh hfresh⟩)
    fun _ _ _ _ hinv hapart hs => inv_step hinv hapart hs

end Runs

end Family

/-- **Exec and wait.**  From a process without children, by turns that keep the sections apart,
every turn shows what it should: `process_execute` and `process_wait` return the right results, not
before they are known, and every token is taken by the call it is meant for. -/
theorem handOff_sound {st st' : Family} {t : Turn} {event : Option FamilyEvent}
    (h : familyMachine.Reach Family.Fresh Apart st)
    (hstep : familyMachine.step st t = some (event, st')) : HandOff st t event := by
  exact Family.handOff_of_inv (Family.inv_of_reach h) hstep

/-- A process without children, before its first `process_execute`. -/
def Family.first : Family :=
  ⟨.idle, false, [], 0, false, [], fun _ => .unborn, 3, fun _ => none, fun _ => none, [],
    fun _ => .opened⟩

theorem Family.fresh_first : Family.first.Fresh :=
  ⟨rfl, rfl, rfl, rfl, fun _ => ⟨rfl, rfl, rfl, by rintro ⟨⟩⟩, by decide, rfl⟩

theorem handOff_sound_executed : ∃ st st', familyMachine.Reach Family.Fresh Apart st ∧
    familyMachine.step st .parent = some (some (.executed (some 3) 3), st') ∧
    HandOff st .parent (some (.executed (some 3) 3)) := by
  have h1 : familyMachine.Reach Family.Fresh Apart _ :=
    .step (i := Turn.execute true) (.init Family.fresh_first) trivial rfl
  have h2 := h1.step (i := Turn.load 3 true) trivial rfl
  have h3 := h2.step (i := Turn.kid 3)
    (fun s hs => nomatch hs) rfl
  have h4 := h3.step (i := Turn.kid 3)
    (fun s hs => nomatch hs) rfl
  have h5 := h4.step (i := Turn.parent)
    ⟨fun c hc => (nomatch hc),
      fun c s hc => (nomatch hc)⟩ rfl
  exact ⟨_, _, h5, rfl, handOff_sound h5 rfl⟩

/-- **`process_wait` returns too early.**  The child has stored to `is_wait` and not to `status`
when the parent calls `process_wait`, which then returns the -2 that the entry was made with. -/
theorem wait_returns_early : ∃ st st',
    familyMachine.Reach Family.Fresh (fun _ _ => True) st ∧
      familyMachine.step st .parent = some (some (.waited 3 (-2)), st') ∧
      st.kid 3 = .storeStatus 7 ∧ st.recorded 3 = none ∧
      ¬ HandOff st .parent (some (.waited 3 (-2))) := by
  have hrun : ∃ os st, familyMachine.run .first
      [.execute true, .load 3 true, .kid 3, .kid 3, .parent, .parent, .exit 3 7, .kid 3, .kid 3,
        .wait 3, .parent, .parent, .parent, .parent] = some (os, st) ∧
      familyMachine.step st .parent = some (some (.waited 3 (-2)), _) ∧
      st.kid 3 = .storeStatus 7 ∧ st.recorded 3 = none := ⟨_, _, rfl, rfl, rfl, rfl⟩
  obtain ⟨os, st, hrun, hstep, hkid, hrec⟩ := hrun
  refine ⟨st, _, .of_run (.init Family.fresh_first) (Machine.Along.of_forall
    (fun _ _ _ => trivial) _) hrun, hstep, hkid, hrec, fun h => ?_⟩
  rw [h.waited 3 (-2) rfl] at hrec
  cases hrec

end Pintos
