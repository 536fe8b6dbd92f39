import Pintos.Threads.System

/-!
# The ready list is in order of priority

`next_thread_to_run` takes the first thread of the ready list, so it picks one of the highest
priority as long as the list stays in order.  Two functions insert into it, in order, and the
priority of the running thread, which is not in it, may change freely.  What is left is
`donate_priority`, which raises the holder of a lock: if that one is in the ready list, it stays
where it is.

* `ReadyInv` is the invariant.  `ReadyInv.step` keeps it along every step whose donations fit, and
  apart from the order along every step.
* `schedule_picks_highest`: then every pick is of a highest priority.
* `schedule_picks_lower`: without the condition, a thread that has just been given the priority of
  the one that waits for it is passed over for one that nobody waits for.
-/

namespace Pintos

namespace ThreadSystem

variable {st st' : ThreadSystem} {t : Nat} {f : Thread → Thread} {fits : Prop}

/-! ## What a step does -/

/-- **What a step does**, with the tests that it has passed. -/
inductive Stepped (st : ThreadSystem) : Tick → ThreadSystem → Prop
  | schedule {next : Nat} {st' : ThreadSystem} (hsw : st.switching = true)
    (hst : st.schedule = some (next, st')) : Stepped st .schedule st'
  | call {c : ThreadCall} {st' : ThreadSystem} (hsw : st.switching = false) (hnil : st.todo = [])
    (hidle : st.idle = some st.current → c.ofIdle) (hst : st.call c = some st') :
    Stepped st (.call c) st'
  | next {frame : Frame} {st' : ThreadSystem} (hsw : st.switching = false)
    (hframe : st.todo.head? = some frame) (hst : st.pop.resume frame = some st') :
    Stepped st .next st'
  | preempt (hsw : st.switching = false) : Stepped st .preempt st.threadYield
  | wake {t : Nat} {st' : ThreadSystem} (hsw : st.switching = false)
    (hout : st.inSemaDown t = false) (hst : st.threadUnblock t true = some st') :
    Stepped st (.wake t) st'
  | interruptUp {s : Nat} {st' : ThreadSystem} (hsw : st.switching = false)
    (hout : st.inSemaDown st.current = false) (hst : st.semaUp (.plain s) true = some st') :
    Stepped st (.interruptUp s) st'

variable {tick : Tick} {picked : Option Nat}

theorem stepped (hst : threadMachine.step st tick = some (picked, st')) : Stepped st tick st' := by
  simp only [threadMachine] at hst
  split at hst
  next hsw =>
    cases tick with
    | schedule =>
      obtain ⟨⟨next, st''⟩, hsched, heq⟩ := Option.map_eq_some_iff.mp hst
      cases heq
      exact .schedule hsw hsched
    | call | next | preempt | wake | interruptUp => cases hst
  next hsw =>
    have hsw : st.switching = false := by simpa using hsw
    cases tick with
    | call c =>
      obtain ⟨⟨hnil, hidle⟩, hst⟩ := Option.ite_none_right_eq_some.mp hst
      obtain ⟨st'', hst, heq⟩ := Option.map_eq_some_iff.mp hst
      cases heq
      exact .call hsw hnil hidle hst
    | next =>
      obtain ⟨frame, hframe, hst⟩ := Option.bind_eq_some_iff.mp hst
      obtain ⟨st'', hst, heq⟩ := Option.map_eq_some_iff.mp hst
      cases heq
      exact .next hsw hframe hst
    | preempt =>
      obtain ⟨-, hst⟩ := Option.ite_none_left_eq_some.mp hst
      cases hst
      exact .preempt hsw
    | wake t =>
      obtain ⟨hout, hst⟩ := Option.ite_none_left_eq_some.mp hst
      obtain ⟨st'', hst, heq⟩ := Option.map_eq_some_iff.mp hst
      cases heq
      exact .wake hsw (by simpa using (not_or.mp hout).2) hst
    | interruptUp s =>
      obtain ⟨hout, hst⟩ := Option.ite_none_left_eq_some.mp hst
      obtain ⟨st'', hst, heq⟩ := Option.map_eq_some_iff.mp hst
      cases heq
      exact .interruptUp hsw (by simpa using hout) hst
    | schedule => cases hst

/-! ## Changes of one thread -/

theorem thread_modify (st : ThreadSystem) (t u : Nat) (f : Thread → Thread) :
    (st.modify t f).thread u = if u = t then f (st.thread t) else st.thread u :=
  Function.update_apply ..

/-- Two states that do not differ in what the scheduler reads. -/
structure Same (st st' : ThreadSystem) : Prop where
  readyList : st'.readyList = st.readyList
  current : st'.current = st.current
  idle : st'.idle = st.idle
  nextThread : st'.nextThread = st.nextThread
  switching : st'.switching = st.switching
  status : ∀ t, st'.status t = st.status t
  priority : ∀ t ∈ st.readyList, st'.priority t = st.priority t

theorem Same.refl (st : ThreadSystem) : Same st st :=
  ⟨rfl, rfl, rfl, rfl, rfl, fun _ => rfl, fun _ _ => rfl⟩

theorem Same.trans {st1 st2 st3 : ThreadSystem} (h : Same st1 st2) (h' : Same st2 st3) :
    Same st1 st3 where
  readyList := h'.readyList.trans h.readyList
  current := h'.current.trans h.current
  idle := h'.idle.trans h.idle
  nextThread := h'.nextThread.trans h.nextThread
  switching := h'.switching.trans h.switching
  status t := (h'.status t).trans (h.status t)
  priority t ht := (h'.priority t (h.readyList ▸ ht)).trans (h.priority t ht)

theorem Same.of_thread (hthread : st'.thread = st.thread) (hready : st'.readyList = st.readyList)
    (hcurrent : st'.current = st.current) (hidle : st'.idle = st.idle)
    (hnext : st'.nextThread = st.nextThread) (hsw : st'.switching = st.switching) : Same st st' :=
  ⟨hready, hcurrent, hidle, hnext, hsw, fun t => congrArg Thread.status (congrFun hthread t),
    fun t _ => congrArg Thread.priority (congrFun hthread t)⟩

theorem same_modify (hstatus : (f (st.thread t)).status = st.status t)
    (hpriority : t ∈ st.readyList → (f (st.thread t)).priority = st.priority t) :
    Same st (st.modify t f) := by
  refine ⟨rfl, rfl, rfl, rfl, rfl, fun u => ?_, fun u hu => ?_⟩
  · rw [status, thread_modify]
    split
    next hu => rw [hstatus, hu]
    · rfl
  · rw [priority, thread_modify]
    split
    next hut => rw [hpriority (hut ▸ hu), hut]
    · rfl

/-! ## The invariant -/

/-- The ready list is in order of priority, if donations fit, and it holds threads that are
ready. -/
structure Ordered (fits : Prop) (st : ThreadSystem) : Prop where
  falling : fits → Falling st.priority st.readyList
  nodup : st.readyList.Nodup
  ready : ∀ t ∈ st.readyList, st.status t = .ready
  known : ∀ t ∈ st.readyList, t < st.nextThread
  current : st.current < st.nextThread
  idle : ∀ t, st.idle = some t → t < st.nextThread

/-- **The invariant.**  Outside of `schedule`, the current thread runs, so that it is not in the
ready list. -/
structure ReadyInv (fits : Prop) (st : ThreadSystem) : Prop extends Ordered fits st where
  running : st.switching = false → st.status st.current = .running

theorem Ordered.of_same (h : Ordered fits st) (hs : Same st st') : Ordered fits st' where
  falling hf := by
    rw [hs.readyList]
    exact (h.falling hf).imp_of_mem fun ha hb hab => by rwa [hs.priority _ ha, hs.priority _ hb]
  nodup := hs.readyList ▸ h.nodup
  ready t ht := (hs.status t).trans (h.ready t (hs.readyList ▸ ht))
  known t ht := hs.nextThread ▸ h.known t (hs.readyList ▸ ht)
  current := by rw [hs.current, hs.nextThread]; exact h.current
  idle t ht := hs.nextThread ▸ h.idle t (hs.idle ▸ ht)

theorem ReadyInv.of_same (h : ReadyInv fits st) (hs : Same st st') : ReadyInv fits st' :=
  ⟨h.toOrdered.of_same hs, fun hsw => by
    rw [hs.current, hs.status]; exact h.running (hs.switching ▸ hsw)⟩

theorem ReadyInv.current_notMem (h : ReadyInv fits st) (hsw : st.switching = false) :
    st.current ∉ st.readyList := fun hmem => by
  have := h.ready _ hmem
  rw [h.running hsw] at this
  cases this

theorem ReadyInv.modify_current (h : ReadyInv fits st) (hsw : st.switching = false)
    (hstatus : (f (st.thread st.current)).status = st.status st.current) :
    ReadyInv fits (st.modify st.current f) :=
  h.of_same (same_modify hstatus fun hmem => absurd hmem (h.current_notMem hsw))

theorem ReadyInv.of_boot (h : st.Boot) : ReadyInv fits st where
  falling _ := by rw [h.readyList]; exact .nil
  nodup := by rw [h.readyList]; exact .nil
  ready t ht := by rw [h.readyList] at ht; cases ht
  known t ht := by rw [h.readyList] at ht; cases ht
  current := h.nextThread
  idle t ht := by rw [h.idle] at ht; cases ht
  running _ := by rw [status, h.thread]

/-! ## Inserting into the ready list -/

theorem Ordered.modify (h : Ordered fits st) (ht : t ∉ st.readyList) :
    Ordered fits (st.modify t f) where
  falling hf := (h.falling hf).imp_of_mem fun {a b} ha hb hab => by
    rw [priority, priority, thread_modify, thread_modify, if_neg (ne_of_mem_of_not_mem ha ht),
      if_neg (ne_of_mem_of_not_mem hb ht)]
    exact hab
  nodup := h.nodup
  ready u hu := by
    rw [status, thread_modify, if_neg (ne_of_mem_of_not_mem hu ht)]
    exact h.ready u hu
  known := h.known
  current := h.current
  idle := h.idle

theorem thread_makeReady (st : ThreadSystem) (t u : Nat) :
    (st.makeReady t).thread u =
      if u = t then { st.thread t with status := .ready } else st.thread u :=
  thread_modify st t u fun th => { th with status := .ready }

theorem Ordered.makeReady (h : Ordered fits st) (ht : t ∉ st.readyList)
    (hknown : t < st.nextThread) : Ordered fits (st.makeReady t) := by
  have hpriority : ∀ u, (st.makeReady t).priority u = st.priority u := fun u => by
    rw [priority, thread_makeReady]
    split
    next hu => rw [hu]
    · rfl
  have hmem : ∀ u, u ∈ (st.makeReady t).readyList ↔ u = t ∨ u ∈ st.readyList := fun u =>
    mem_listInsertOrdered
  refine ⟨fun hf => ?_, ?_, fun u hu => ?_, fun u hu => ?_, h.current, h.idle⟩
  · have hfalling : Falling st.priority (st.makeReady t).readyList :=
      pairwise_listInsertOrdered (fun a b => by simp [comparePriority]) (h.falling hf)
    exact hfalling.imp fun hab => by rwa [hpriority, hpriority]
  · exact (listInsertOrdered_perm _ _ _).nodup_iff.mpr (List.nodup_cons.mpr ⟨ht, h.nodup⟩)
  · rw [status, thread_makeReady]
    split
    · rfl
    next hne => exact h.ready u (((hmem u).mp hu).resolve_left hne)
  · rcases (hmem u).mp hu with rfl | hu
    · exact hknown
    · exact h.known u hu

theorem Ordered.switch (h : Ordered fits st) : ReadyInv fits { st with switching := true } where
  falling := h.falling
  nodup := h.nodup
  ready := h.ready
  known := h.known
  current := h.current
  idle := h.idle
  running hsw := nomatch hsw

theorem ReadyInv.threadYield (h : ReadyInv fits st) (hsw : st.switching = false) :
    ReadyInv fits st.threadYield := by
  have hnot := h.current_notMem hsw
  rw [ThreadSystem.threadYield]
  split
  · exact (h.toOrdered.modify hnot).switch
  · exact (h.toOrdered.makeReady hnot h.current).switch

theorem ReadyInv.threadBlock (h : ReadyInv fits st) (hsw : st.switching = false) :
    ReadyInv fits st.threadBlock :=
  (h.toOrdered.modify (h.current_notMem hsw)).switch

theorem ReadyInv.threadUnblock (h : ReadyInv fits st) (hsw : st.switching = false)
    {intrContext : Bool} (hst : st.threadUnblock t intrContext = some st') : ReadyInv fits st' := by
  rw [ThreadSystem.threadUnblock, Option.ite_none_right_eq_some] at hst
  obtain ⟨⟨hknown, hblocked⟩, hst⟩ := hst
  have hnot : t ∉ st.readyList := fun hmem => by
    have := h.ready t hmem
    rw [hblocked] at this
    cases this
  have hne : st.current ≠ t := by
    rintro rfl
    rw [h.running hsw] at hblocked
    cases hblocked
  have hready : ReadyInv fits (st.makeReady t) := by
    refine ⟨h.toOrdered.makeReady hnot hknown, fun _ => ?_⟩
    rw [status, thread_makeReady, if_neg (show (st.makeReady t).current ≠ t from hne)]
    exact h.running hsw
  dsimp only at hst
  split at hst
  · split at hst
    · cases hst
    · cases hst
      exact hready.threadYield hsw
  · cases hst
    exact hready

/-! ## Donation -/

theorem priority_modify_priority (st : ThreadSystem) (t : Nat) (p : Int) :
    (st.modify t fun th => { th with priority := p }).priority =
      Function.update st.priority t p := by
  funext u
  rw [priority, thread_modify, Function.update_apply]
  split <;> rfl

theorem Ordered.raise (h : Ordered fits st) {p : Int} (hp : st.priority t ≤ p)
    (hfits : fits → t ∈ st.readyList → ∀ u ∈ st.readyList.takeWhile (· ≠ t), p ≤ st.priority u) :
    Ordered fits (st.modify t fun th => { th with priority := p }) := by
  by_cases ht : t ∈ st.readyList
  · refine ⟨fun hf => ?_, h.nodup, fun u hu => ?_, h.known, h.current, h.idle⟩
    · rw [priority_modify_priority]
      exact pairwise_raise (h.falling hf) hp (hfits hf ht) h.nodup
    · rw [status, thread_modify]
      split
      next hut => exact hut ▸ h.ready u hu
      · exact h.ready u hu
  · exact h.modify ht

/-- What `donate_priority` does not touch. -/
structure OnlyPriorities (st st' : ThreadSystem) : Prop where
  readyList : st'.readyList = st.readyList
  current : st'.current = st.current
  switching : st'.switching = st.switching
  status : ∀ t, st'.status t = st.status t

theorem onlyPriorities_donateLoop (depth : Nat) (st : ThreadSystem) (curr : Nat) :
    OnlyPriorities st (donateLoop depth st curr) := by
  fun_induction donateLoop depth st curr with
  | case1 | case2 | case4 => exact ⟨rfl, rfl, rfl, fun _ => rfl⟩
  | case3 depth st curr holder _ _ ih =>
    refine ⟨ih.readyList, ih.current, ih.switching, fun u => (ih.status u).trans ?_⟩
    rw [status, thread_modify]
    split
    next hu => rw [hu]
    · rfl

/-- **Donations that fit keep the order.** -/
theorem Ordered.donateLoop {depth : Nat} {curr : Nat} (h : Ordered fits st)
    (hfits : fits → donationFits depth st curr) : Ordered fits (donateLoop depth st curr) := by
  fun_induction ThreadSystem.donateLoop depth st curr with
  | case1 | case2 | case4 => exact h
  | case3 depth st curr holder hholder hlt ih =>
    simp only [donationFits, hholder, if_pos hlt, decide_eq_true_eq] at hfits
    exact ih (h.raise (Int.le_of_lt hlt) fun hf => (hfits hf).1) fun hf => (hfits hf).2

theorem ReadyInv.donatePriority (h : ReadyInv fits st)
    (hfits : fits → donationFits 8 st st.current) : ReadyInv fits st.donatePriority := by
  have hsame := onlyPriorities_donateLoop 8 st st.current
  refine ⟨h.toOrdered.donateLoop hfits, fun hsw => ?_⟩
  rw [ThreadSystem.donatePriority, hsame.status, hsame.current]
  exact h.running (hsame.switching ▸ hsw)

/-! ## Calls -/

section

variable (h : ReadyInv fits st) {s : SemaId}
include h

theorem ReadyInv.push (hsw : st.switching = false) (frames : List Frame) :
    ReadyInv fits (st.push frames) :=
  h.modify_current hsw rfl

theorem ReadyInv.semaDown (hsw : st.switching = false)
    (hfits : fits → st.DownFits s) (lock : Option Nat) : ReadyInv fits (st.semaDown s lock) := by
  unfold ThreadSystem.semaDown
  split
  next hzero =>
    have hsw' : st.donatePriority.switching = false :=
      (onlyPriorities_donateLoop 8 st st.current).switching.trans hsw
    have hwaiting : ReadyInv fits { st.donatePriority with
        waiters := Function.update st.donatePriority.waiters s
          (st.donatePriority.waiters s ++ [st.donatePriority.current]) } :=
      (h.donatePriority fun hf => hfits hf hzero).of_same (.of_thread rfl rfl rfl rfl rfl rfl)
    exact (hwaiting.push hsw' [.down s lock]).threadBlock hsw'
  next => cases lock <;> exact h.of_same (.of_thread rfl rfl rfl rfl rfl rfl)

theorem ReadyInv.semaUp (hsw : st.switching = false)
    {intrContext : Bool} (hst : st.semaUp s intrContext = some st') : ReadyInv fits st' := by
  simp only [ThreadSystem.semaUp] at hst
  split at hst
  · cases hst
    exact h.of_same (.of_thread rfl rfl rfl rfl rfl rfl)
  next rest _ =>
    refine ReadyInv.threadUnblock ?_ (by exact hsw) hst
    exact h.of_same (.of_thread rfl rfl rfl rfl rfl rfl)

theorem ReadyInv.semaTryDown (s : SemaId) : ReadyInv fits (st.semaTryDown s) := by
  rw [ThreadSystem.semaTryDown]
  split
  · exact h.of_same (.of_thread rfl rfl rfl rfl rfl rfl)
  · exact h

end

theorem same_enrol (st : ThreadSystem) (l : Nat) : Same st (st.enrol l) := by
  rw [enrol]
  split
  · exact .refl st
  · exact (same_modify rfl fun _ => rfl).trans (same_modify rfl fun _ => rfl)

variable {l : Nat}

section

variable (h : ReadyInv fits st) (hsw : st.switching = false) {c : Nat}
include h hsw

theorem ReadyInv.lockAcquire (hfits : fits → (st.enrol l).DownFits (.ofLock l))
    (hst : st.lockAcquire l = some st') : ReadyInv fits st' := by
  rw [ThreadSystem.lockAcquire, Option.ite_none_left_eq_some] at hst
  obtain ⟨-, hst⟩ := hst
  cases hst
  have hsame := same_enrol st l
  exact (h.of_same hsame).semaDown (hsame.switching.trans hsw) hfits _

theorem ReadyInv.lockTryAcquire (hst : st.lockTryAcquire l = some st') : ReadyInv fits st' := by
  rw [ThreadSystem.lockTryAcquire, Option.ite_none_left_eq_some] at hst
  obtain ⟨-, hst⟩ := hst
  split at hst
  next hpos =>
    cases hst
    rw [ThreadSystem.semaTryDown, if_pos hpos]
    have htried : ReadyInv fits (st.semaTake (.ofLock l)) :=
      h.of_same (.of_thread rfl rfl rfl rfl rfl rfl)
    exact (htried.modify_current (f := fun t => { t with waitingLock := none }) hsw rfl).of_same
      (.of_thread rfl rfl rfl rfl rfl rfl)
  next =>
    cases hst
    exact h

theorem ReadyInv.lockRelease (hst : st.lockRelease l = some st') : ReadyInv fits st' := by
  rw [ThreadSystem.lockRelease, Option.ite_none_right_eq_some] at hst
  obtain ⟨-, hst⟩ := hst
  cases hst
  have hcleared : ReadyInv fits { st with holder := Function.update st.holder l none } :=
    h.of_same (.of_thread rfl rfl rfl rfl rfl rfl)
  exact hcleared.push hsw _

theorem ReadyInv.lockReleaseRest (hst : st.lockReleaseRest l = some st') : ReadyInv fits st' := by
  have hrestored : ReadyInv fits (st.restorePriority l) := by
    unfold restorePriority
    exact h.modify_current hsw rfl
  refine ReadyInv.semaUp ?_ (by exact hsw) hst
  exact hrestored.of_same (.of_thread rfl rfl rfl rfl rfl rfl)

theorem ReadyInv.threadCreate {priority : Int} (hst : st.threadCreate priority = some st') :
    ReadyInv fits st' := by
  -- The new thread is in no list yet.
  have hnot : st.nextThread ∉ st.readyList := fun hmem => Nat.lt_irrefl _ (h.known _ hmem)
  have hordered := h.toOrdered.modify (f := fun _ => initThread priority) hnot
  have hcreated : ReadyInv fits { st.modify st.nextThread fun _ => initThread priority with
      nextThread := st.nextThread + 1 } := by
    refine ⟨⟨hordered.falling, hordered.nodup, hordered.ready,
      fun t ht => Nat.lt_succ_of_lt (h.known t ht), Nat.lt_succ_of_lt h.current,
      fun t ht => Nat.lt_succ_of_lt (h.idle t ht)⟩, fun _ => ?_⟩
    have hcurrent := thread_modify st st.nextThread st.current fun _ => initThread priority
    rw [if_neg (Nat.ne_of_lt h.current)] at hcurrent
    exact (congrArg Thread.status hcurrent).trans (h.running hsw)
  exact (hcreated.push hsw [.createCheck priority]).threadUnblock hsw hst

theorem ReadyInv.threadSetPriority (newPriority : Int) :
    ReadyInv fits (st.threadSetPriority newPriority) := by
  rw [ThreadSystem.threadSetPriority]
  split
  · exact h.modify_current hsw rfl
  · have hset := h.modify_current (f := fun t =>
      { t with priority := newPriority, originPriority := newPriority }) hsw rfl
    dsimp only
    split
    · exact hset
    · split
      · exact hset.threadYield hsw
      · exact hset

theorem ReadyInv.condWait (hst : st.condWait c l = some st') : ReadyInv fits st' := by
  rw [ThreadSystem.condWait, Option.ite_none_right_eq_some] at hst
  obtain ⟨-, hst⟩ := hst
  cases hst
  refine ReadyInv.push ?_ (by exact hsw) _
  exact h.of_same (.of_thread rfl rfl rfl rfl rfl rfl)

theorem ReadyInv.condSignal (hst : st.condSignal c l = some st') : ReadyInv fits st' := by
  rw [ThreadSystem.condSignal, Option.ite_none_right_eq_some] at hst
  obtain ⟨-, hst⟩ := hst
  split at hst
  · cases hst
  · split at hst
    · cases hst
      exact h
    · cases hst
      refine ReadyInv.push ?_ (by exact hsw) _
      exact h.of_same (.of_thread rfl rfl rfl rfl rfl rfl)

theorem ReadyInv.condBroadcast (hst : st.condBroadcast c l = some st') : ReadyInv fits st' := by
  rw [ThreadSystem.condBroadcast] at hst
  split at hst
  · cases hst
    exact h
  · exact (h.push hsw _).condSignal hsw hst

/-! ## Steps -/

theorem ReadyInv.call {c : ThreadCall} (hfits : fits → st.DonationsFit (.call c))
    (hst : st.call c = some st') : ReadyInv fits st' := by
  cases c with
  | create priority =>
    obtain ⟨-, hst⟩ := Option.ite_none_right_eq_some.mp hst
    cases hst
    exact h.push hsw _
  | yield => cases hst; exact h.threadYield hsw
  | block => cases hst; exact h.threadBlock hsw
  | unblock t => exact h.threadUnblock hsw (Option.ite_none_left_eq_some.mp hst).2
  | semaDown s => cases hst; exact h.semaDown hsw hfits none
  | semaUp s => exact h.semaUp hsw hst
  | semaTryDown s => cases hst; exact h.semaTryDown _
  | lockAcquire l => exact h.lockAcquire hsw hfits hst
  | lockTryAcquire l => exact h.lockTryAcquire hsw hst
  | lockRelease l => exact h.lockRelease hsw hst
  | setPriority priority => cases hst; exact h.threadSetPriority hsw priority
  | condWait c l => exact h.condWait hsw hst
  | condSignal c l => exact h.condSignal hsw hst
  | condBroadcast c l => exact h.condBroadcast hsw hst
  | idle =>
    obtain ⟨-, hst⟩ := Option.ite_none_right_eq_some.mp hst
    cases hst
    refine ⟨⟨h.falling, h.nodup, h.ready, h.known, h.current, fun t ht => ?_⟩, h.running⟩
    cases ht
    exact h.current

theorem ReadyInv.resume {frame : Frame} (hfits : fits → st.FrameFits frame)
    (hst : st.resume frame = some st') : ReadyInv fits st' := by
  cases frame with
  | acquire l => exact h.lockAcquire hsw hfits hst
  | callDown s => cases hst; exact h.semaDown hsw hfits none
  | down s lock => cases hst; exact h.semaDown hsw hfits lock
  | up s => exact h.semaUp hsw hst
  | broadcast c l => exact h.condBroadcast hsw hst
  | release l => exact h.lockRelease hsw hst
  | releaseRest l => exact h.lockReleaseRest hsw hst
  | create priority => exact h.threadCreate hsw hst
  | createCheck priority =>
    cases hst
    split
    · exact h.threadYield hsw
    · exact h

end

theorem ReadyInv.schedule (h : ReadyInv fits st) {next : Nat}
    (hst : st.schedule = some (next, st')) :
    ReadyInv fits st' ∧ (fits → ∀ t ∈ st.readyList, st.priority t ≤ st.priority next) := by
  rw [ThreadSystem.schedule, Option.map_eq_some_iff] at hst
  obtain ⟨⟨picked, rest⟩, hpick, heq⟩ := hst
  cases heq
  have hrest : rest <:+ st.readyList ∧ next ∉ rest ∧ next < st.nextThread ∧
      (fits → ∀ t ∈ st.readyList, st.priority t ≤ st.priority next) := by
    rw [nextThreadToRun] at hpick
    split at hpick
    next hnil =>
      obtain ⟨t, hidle, heq⟩ := Option.map_eq_some_iff.mp hpick
      cases heq
      exact ⟨List.nil_suffix, List.not_mem_nil, h.idle _ hidle, fun _ => by simp [hnil]⟩
    next t rest' hcons =>
      cases hpick
      have hnodup := h.nodup
      rw [hcons] at hnodup
      refine ⟨hcons ▸ List.suffix_cons .., (List.nodup_cons.mp hnodup).1,
        h.known _ (hcons ▸ .head _), fun hf u hu => ?_⟩
      have hfalling := h.falling hf
      rw [hcons] at hu hfalling
      rcases List.mem_cons.mp hu with rfl | hu
      · exact Int.le_refl _
      · exact (List.pairwise_cons.mp hfalling).1 u hu
  obtain ⟨hsuffix, hnot, hknown, hmax⟩ := hrest
  have hordered : Ordered fits { st with readyList := rest } :=
    ⟨fun hf => (h.falling hf).sublist hsuffix.sublist, h.nodup.sublist hsuffix.sublist,
      fun t ht => h.ready t (hsuffix.mem ht), fun t ht => h.known t (hsuffix.mem ht),
      h.current, h.idle⟩
  have hmodified := hordered.modify (f := fun t => { t with status := .running }) hnot
  refine ⟨⟨⟨hmodified.falling, hmodified.nodup, hmodified.ready, hmodified.known, hknown,
    hmodified.idle⟩, fun _ => ?_⟩, hmax⟩
  have hnext := thread_modify st next next fun t => { t with status := .running }
  rw [if_pos rfl] at hnext
  exact congrArg Thread.status hnext

/-- **Steps keep the ready list in order** if their donations fit. -/
theorem ReadyInv.step (h : ReadyInv fits st) (hfits : fits → st.DonationsFit tick)
    (hst : threadMachine.step st tick = some (picked, st')) : ReadyInv fits st' := by
  cases stepped hst with
  | schedule _ hst => exact (h.schedule hst).1
  | call hsw _ _ hst => exact h.call hsw hfits hst
  | @next frame _ hsw hframe hst =>
    exact (h.modify_current hsw rfl).resume hsw (fun hf => hfits hf frame hframe) hst
  | preempt hsw => exact h.threadYield hsw
  | wake hsw _ hst => exact h.threadUnblock hsw hst
  | interruptUp hsw _ hst => exact h.semaUp hsw hst

end ThreadSystem

/-! ## The picks of `schedule` -/

/-- **Strict priority scheduling.**  In every run of the thread system in which no donation raises a
thread of the ready list over one that is ahead of it there, whenever `schedule` picks the next
thread, that thread has a highest priority among those in the ready list. -/
theorem schedule_picks_highest {st st' : ThreadSystem} {next : Nat}
    (hreach : threadMachine.Reach ThreadSystem.Boot ThreadSystem.DonationsFit st)
    (hpick : threadMachine.step st .schedule = some (some next, st')) :
    ∀ t ∈ st.readyList, st.priority t ≤ st.priority next := by
  have h : st.ReadyInv True :=
    hreach.invariant (fun _ => .of_boot)
      fun _ _ _ _ h hfits hstep => h.step (fun _ => hfits) hstep
  simp only [threadMachine] at hpick
  split at hpick
  · obtain ⟨⟨picked, st''⟩, hst, heq⟩ := Option.map_eq_some_iff.mp hpick
    cases heq
    exact (h.schedule hst).2 trivial
  · cases hpick

/-- The initial thread, at the default priority. -/
def ThreadSystem.booted : ThreadSystem where
  thread _ := { initThread 31 with status := .running }
  nextThread := 1
  readyList := []
  current := 0
  idle := none
  switching := false
  value _ := 1
  waiters _ := []
  holder _ := none
  condWaiters _ := []
  tidLock := 0xc0100000
  initial _ := 1
  ups _ := 0
  downs _ := 0
  inside _ := []

theorem ThreadSystem.boot_booted : booted.Boot :=
  ⟨rfl, rfl, by decide, fun _ ht => Nat.lt_one_iff.mp ht, rfl, rfl, fun _ => rfl, fun _ => rfl,
    fun _ => rfl, fun _ => rfl, fun _ => (by decide : 1 < 2 ^ 32), fun _ => rfl, fun _ => rfl,
    fun _ => rfl, fun _ => rfl⟩

/-- The initial thread creates a thread of priority 40, which takes a lock, lowers its priority to
10 and so gives the processor back. -/
def ThreadSystem.lockTaken (l : Nat) : List Tick :=
  [.call (.create 40), .next, .next, .next, .next, .schedule, .call (.lockAcquire l),
    .call (.setPriority 10), .schedule, .next, .schedule]

/-- A thread of priority 5 is ready too when the initial thread waits for the lock, and the holder
of the lock gets the processor. -/
theorem schedule_picks_highest_donated : ∃ st st',
    threadMachine.Reach ThreadSystem.Boot ThreadSystem.DonationsFit st ∧
      threadMachine.step st .schedule = some (some 1, st') ∧ st.readyList = [1, 2] ∧
      ∀ t ∈ st.readyList, st.priority t ≤ st.priority 1 := by
  obtain ⟨st, hreach, hready, hstep⟩ := threadMachine.exists_reach_along ThreadSystem.boot_booted
    (ThreadSystem.lockTaken 0xc0200000 ++
      [.call (.create 5), .next, .next, .next, .next, .next, .call (.lockAcquire 0xc0200000)])
    (fun st => st.readyList = [1, 2] ∧ (threadMachine.step st .schedule).map (·.1) = some (some 1))
    (by decide +kernel : Machine.Along _ ThreadSystem.DonationsFit ..) (by decide +kernel)
  obtain ⟨⟨picked, st'⟩, hpick, rfl⟩ := Option.map_eq_some_iff.mp hstep
  exact ⟨st, st', hreach, hpick, hready, schedule_picks_highest hreach hpick⟩

/-- **Priority inversion.**  A thread of priority 20 is ready, and behind it the holder of the lock,
of priority 10.  The initial thread waits for the lock, and so the holder is given its priority, 31.
It stays where it is in the ready list, and the thread of priority 20 is picked. -/
theorem schedule_picks_lower : ∃ st st',
    threadMachine.Reach ThreadSystem.Boot (fun _ _ => True) st ∧
      threadMachine.step st .schedule = some (some 2, st') ∧ st.readyList = [2, 1] ∧
      st.priority 2 = 20 ∧ st.priority 1 = 31 := by
  obtain ⟨st, hreach, hready, hlow, hhigh, hstep⟩ :=
    threadMachine.exists_reach ThreadSystem.boot_booted (ThreadSystem.lockTaken 0xc0200000 ++
      [.call (.create 20), .next, .next, .next, .next, .next, .call (.lockAcquire 0xc0200000)])
      (fun st => st.readyList = [2, 1] ∧ st.priority 2 = 20 ∧ st.priority 1 = 31 ∧
        (threadMachine.step st .schedule).map (·.1) = some (some 2)) (by decide +kernel)
  obtain ⟨⟨picked, st'⟩, hpick, rfl⟩ := Option.map_eq_some_iff.mp hstep
  exact ⟨st, st', hreach, hpick, hready, hlow, hhigh⟩

end Pintos
