import Pintos.Threads.Interrupts

/-!
# Which list a thread is in

A thread has one `elem`, which links it into the ready list, into the sleeping list, or into the
list of those that wait for a semaphore.

Every step of the thread system, up to the pick of `schedule`, is a sequence of a few changes as far
as those lists are concerned: the current thread blocks or yields, a thread is woken, one is
created.  `SchedChange` lists them, with the threads that may be woken, and `ListsInv` says what the
ready list has to do with the states of the threads.

* `step_lists`: a step of the thread system is a sequence of such changes, in which a thread is
  woken only if it waits for a semaphore, or is new, or is unblocked by hand.
* `ListsInv.change`: every change keeps the invariant.
* `TimedInv`: a thread that sleeps, that waits for an interrupt queue or that has exited is blocked
  outside of `sema_down`, and so no other step wakes it.
* `thread_lists_agree`: the property, in every state that is reached.
-/

namespace Pintos

namespace ThreadSystem

open Relation (ReflTransGen)

variable {st st' : ThreadSystem} {t l : Nat} {s : SemaId} {W : Nat → Prop} {intrContext : Bool}
  {c : Nat}

/-! ## The changes -/

/-- Two states that do not differ in what the lists depend on, nor in the calls of the threads that
do not run. -/
structure Alike (st st' : ThreadSystem) : Prop where
  readyList : st'.readyList = st.readyList
  current : st'.current = st.current
  idle : st'.idle = st.idle
  nextThread : st'.nextThread = st.nextThread
  switching : st'.switching = st.switching
  status : ∀ t, st'.status t = st.status t
  todo : ∀ t, t ≠ st.current → (st'.thread t).todo = (st.thread t).todo

/-- **A change** of the lists of the scheduler, in which only threads in `W` are woken. -/
inductive SchedChange (W : Nat → Prop) (st : ThreadSystem) : ThreadSystem → Prop
  /-- The lists are left alone. -/
  | alike {st' : ThreadSystem} (h : Alike st st') : SchedChange W st st'
  /-- The current thread blocks. -/
  | block (hsw : st.switching = false) : SchedChange W st st.threadBlock
  /-- The current thread yields. -/
  | yield (hsw : st.switching = false) : SchedChange W st st.threadYield
  /-- A thread is woken. -/
  | wake (t : Nat) (hW : W t) (hidle : st.idle ≠ some t) (hlt : t < st.nextThread)
      (hblocked : st.status t = .blocked) : SchedChange W st (st.makeReady t)
  /-- A thread is created. -/
  | create (priority : Int) : SchedChange W st (st.created priority)
  /-- The idle thread starts. -/
  | idle (hnone : st.idle = none) (hsw : st.switching = false) :
      SchedChange W st { st with idle := some st.current }

/-- A sequence of changes. -/
abbrev SchedChanges (W : Nat → Prop) : ThreadSystem → ThreadSystem → Prop :=
  ReflTransGen (SchedChange W)

namespace Alike

theorem refl (st : ThreadSystem) : Alike st st :=
  ⟨rfl, rfl, rfl, rfl, rfl, fun _ => rfl, fun _ _ => rfl⟩

variable {st1 : ThreadSystem}

theorem trans (h : Alike st st1) (h' : Alike st1 st') : Alike st st' where
  readyList := h'.readyList.trans h.readyList
  current := h'.current.trans h.current
  idle := h'.idle.trans h.idle
  nextThread := h'.nextThread.trans h.nextThread
  switching := h'.switching.trans h.switching
  status t := (h'.status t).trans (h.status t)
  todo t ht := (h'.todo t (h.current ▸ ht)).trans (h.todo t ht)

theorem of_thread (hthread : st'.thread = st.thread) (hready : st'.readyList = st.readyList)
    (hcurrent : st'.current = st.current) (hidle : st'.idle = st.idle)
    (hnext : st'.nextThread = st.nextThread) (hsw : st'.switching = st.switching) : Alike st st' :=
  ⟨hready, hcurrent, hidle, hnext, hsw, fun t => congrArg Thread.status (congrFun hthread t),
    fun t _ => congrArg Thread.todo (congrFun hthread t)⟩

variable {f : Thread → Thread}

theorem modify (hstatus : (f (st.thread t)).status = st.status t)
    (htodo : t ≠ st.current → (f (st.thread t)).todo = (st.thread t).todo) :
    Alike st (st.modify t f) := by
  refine ⟨rfl, rfl, rfl, rfl, rfl, fun u => ?_, fun u hu => ?_⟩
  · rw [ThreadSystem.status, thread_modify]
    split
    next heq => rw [hstatus, heq]
    next => rfl
  · rw [thread_modify]
    split
    next heq => rw [htodo (heq ▸ hu), heq]
    next => rfl

theorem modify_current (hstatus : (f (st.thread st.current)).status = st.status st.current) :
    Alike st (st.modify st.current f) :=
  .modify hstatus fun hne => absurd rfl hne

theorem push (st : ThreadSystem) (frames : List Frame) : Alike st (st.push frames) :=
  .modify_current rfl

theorem push_of (h : Alike st st1) (frames : List Frame) : Alike st (st1.push frames) :=
  h.trans (.push st1 frames)

theorem pop (st : ThreadSystem) : Alike st st.pop := .modify_current rfl

theorem donatePriority (st : ThreadSystem) : Alike st st.donatePriority := by
  obtain ⟨p, hp⟩ := donateLoop_eq 8 st st.current
  rw [show st.donatePriority = _ from hp]
  exact ⟨rfl, rfl, rfl, rfl, rfl, fun _ => rfl, fun _ _ => rfl⟩

theorem enrol (st : ThreadSystem) (l : Nat) : Alike st (st.enrol l) := by
  rw [ThreadSystem.enrol]
  split
  · exact .refl st
  · exact (Alike.modify_current rfl).trans (.modify rfl fun _ => rfl)

theorem restorePriority (st : ThreadSystem) (l : Nat) : Alike st (st.restorePriority l) := by
  rw [ThreadSystem.restorePriority]
  exact .modify_current rfl

end Alike

/-! ## What the routines are made of -/

/-- **`thread_unblock` in an interrupt**, which completes unless it would have to yield. -/
theorem priority_makeReady (t u : Nat) : (st.makeReady t).priority u = st.priority u := by
  rw [priority, show (st.makeReady t).thread u = _ from thread_setStatus st t .ready u]

theorem threadUnblock_true : st.threadUnblock t true = some st' ↔
    (t < st.nextThread ∧ st.status t = .blocked) ∧
      (some st.current = st.idle ∨ st.priority t ≤ st.priority st.current) ∧
      st' = st.makeReady t := by
  rw [threadUnblock, Option.ite_none_right_eq_some]
  refine and_congr_right fun _ => ?_
  dsimp only
  rw [priority_makeReady, priority_makeReady, show (st.makeReady t).current = st.current from rfl]
  split
  next hyield =>
    refine iff_of_false (by rintro ⟨⟩) fun hyes => ?_
    rcases hyes.1 with hidle | hle
    · exact hyield.1 hidle
    · exact Int.not_lt.mpr hle hyield.2
  next hno =>
    rw [Option.some_inj, eq_comm, iff_and_self]
    intro _
    by_contra hcon
    obtain ⟨hidle, hlt⟩ := not_or.mp hcon
    exact hno ⟨hidle, Int.not_le.mp hlt⟩

/-- A thread that does not outrank the running one is woken in the same way everywhere. -/
theorem threadUnblock_of_le (hle : st.priority t ≤ st.priority st.current) :
    st.threadUnblock t intrContext = st.threadUnblock t true := by
  have hno : ¬ (some (st.makeReady t).current ≠ (st.makeReady t).idle ∧
      (st.makeReady t).priority t > (st.makeReady t).priority (st.makeReady t).current) := by
    rw [priority_makeReady, priority_makeReady]
    exact fun hyield => Int.not_lt.mpr hle hyield.2
  simp only [threadUnblock, if_neg hno]

theorem threadUnblock_lists (hW : W t) (hidle : st.idle ≠ some t) (hsw : st.switching = false)
    (hst : st.threadUnblock t intrContext = some st') :
    SchedChanges W st st' := by
  rw [threadUnblock, Option.ite_none_right_eq_some] at hst
  obtain ⟨⟨hlt, hblocked⟩, hst⟩ := hst
  have hwake : SchedChange W st (st.makeReady t) := .wake t hW hidle hlt hblocked
  dsimp only at hst
  split at hst
  · split at hst
    · cases hst
    · cases hst
      exact .tail (.single hwake) (.yield hsw)
  · cases hst
    exact .single hwake

theorem semaDown_lists (hsw : st.switching = false) (s : SemaId) (lock : Option Nat) :
    SchedChanges W st (st.semaDown s lock) := by
  unfold semaDown
  split
  next =>
    refine .tail (.single (.alike (.push_of (.trans (.donatePriority st) ?_) _))) (.block ?_)
    · exact .of_thread rfl rfl rfl rfl rfl rfl
    · exact (Alike.donatePriority st).switching.trans hsw
  next =>
    refine .single (.alike ?_)
    cases lock <;> exact .of_thread rfl rfl rfl rfl rfl rfl

theorem semaUp_lists (hW : ∀ t ∈ st.waiters s, W t ∧ st.idle ≠ some t)
    (hsw : st.switching = false) (hst : st.semaUp s intrContext = some st') :
    SchedChanges W st st' := by
  simp only [semaUp] at hst
  split at hst
  next =>
    cases hst
    exact .single (.alike (.of_thread rfl rfl rfl rfl rfl rfl))
  next w rest hcons =>
    have hperm := listSort_perm st.comparePriority (st.waiters s)
    have hw : w ∈ st.waiters s := hperm.subset (by
      rw [show listSort st.comparePriority (st.waiters s) = w :: rest from hcons]
      exact .head _)
    refine .head (.alike ?_) (threadUnblock_lists (hW w hw).1 ?_ ?_ hst)
    · exact .of_thread rfl rfl rfl rfl rfl rfl
    · exact (hW w hw).2
    · exact hsw

theorem lockAcquire_lists (hsw : st.switching = false) (hst : st.lockAcquire l = some st') :
    SchedChanges W st st' := by
  rw [lockAcquire, Option.ite_none_left_eq_some] at hst
  obtain ⟨-, hst⟩ := hst
  cases hst
  exact .head (.alike (.enrol st l)) (semaDown_lists ((Alike.enrol st l).switching.trans hsw) _ _)

theorem lockTryAcquire_lists (hst : st.lockTryAcquire l = some st') : SchedChanges W st st' := by
  rw [lockTryAcquire, Option.ite_none_left_eq_some] at hst
  obtain ⟨-, hst⟩ := hst
  split at hst
  next hpos =>
    cases hst
    rw [semaTryDown, if_pos hpos]
    have hforget : Alike (st.semaTake (.ofLock l)) ((st.semaTake (.ofLock l)).modify st.current
      fun t => { t with waitingLock := none }) := .modify_current rfl
    have htake : Alike st (st.semaTake (.ofLock l)) := .of_thread rfl rfl rfl rfl rfl rfl
    exact .single (.alike ((htake.trans hforget).trans (.of_thread rfl rfl rfl rfl rfl rfl)))
  next =>
    cases hst
    exact .refl

theorem lockRelease_lists (hst : st.lockRelease l = some st') : SchedChanges W st st' := by
  rw [lockRelease, Option.ite_none_right_eq_some] at hst
  obtain ⟨-, hst⟩ := hst
  cases hst
  refine .single (.alike (.push_of ?_ _))
  exact .of_thread rfl rfl rfl rfl rfl rfl

theorem lockReleaseRest_lists (hW : ∀ t ∈ st.waiters (.ofLock l), W t ∧ st.idle ≠ some t)
    (hsw : st.switching = false) (hst : st.lockReleaseRest l = some st') :
    SchedChanges W st st' := by
  have hgiven : Alike st (st.giveUp l) :=
    (Alike.restorePriority st l).trans (.of_thread rfl rfl rfl rfl rfl rfl)
  have hup : SchedChanges W (st.giveUp l) st' := semaUp_lists hW hsw hst
  exact .head (.alike hgiven) hup

theorem condWait_lists (hst : st.condWait c l = some st') : SchedChanges W st st' := by
  rw [condWait, Option.ite_none_right_eq_some] at hst
  obtain ⟨-, hst⟩ := hst
  cases hst
  refine .single (.alike (.push_of ?_ _))
  exact .of_thread rfl rfl rfl rfl rfl rfl

theorem condSignal_lists (hst : st.condSignal c l = some st') : SchedChanges W st st' := by
  rw [condSignal, Option.ite_none_right_eq_some] at hst
  obtain ⟨-, hst⟩ := hst
  rw [Option.ite_none_left_eq_some] at hst
  obtain ⟨-, hst⟩ := hst
  split at hst
  · cases hst
    exact .refl
  · cases hst
    refine .single (.alike (.push_of ?_ _))
    exact .of_thread rfl rfl rfl rfl rfl rfl

theorem condBroadcast_lists (hst : st.condBroadcast c l = some st') : SchedChanges W st st' := by
  rw [condBroadcast] at hst
  split at hst
  · cases hst
    exact .refl
  · exact .head (.alike (.push st _)) (condSignal_lists hst)

theorem threadCreate_lists (hW : W st.nextThread) (hidle : st.idle ≠ some st.nextThread)
    (hsw : st.switching = false) {priority : Int} (hst : st.threadCreate priority = some st') :
    SchedChanges W st st' := by
  have hunblock : SchedChanges W ((st.created priority).push [.createCheck priority]) st' :=
    threadUnblock_lists hW hidle hsw hst
  exact .head (.create priority) (.head (.alike (.push _ _)) hunblock)

theorem threadSetPriority_lists (hsw : st.switching = false) (newPriority : Int) :
    SchedChanges W st (st.threadSetPriority newPriority) := by
  rw [threadSetPriority]
  split
  next => exact .single (.alike (.modify_current rfl))
  next =>
    have hset : SchedChange W st (st.modify st.current fun t =>
      { t with priority := newPriority, originPriority := newPriority }) :=
      .alike (.modify_current rfl)
    dsimp only
    split
    · exact .single hset
    · split
      · exact .tail (.single hset) (.yield hsw)
      · exact .single hset

/-! ## What the steps are made of -/

/-- The threads that a step can wake: those that wait for a semaphore, those that do not exist yet,
and the one that is unblocked by hand. -/
def MayWake (st : ThreadSystem) (tick : Tick) (t : Nat) : Prop :=
  (∃ s, t ∈ st.waiters s) ∨ st.nextThread ≤ t ∨ tick = .call (.unblock t) ∨ tick = .wake t

theorem call_lists {c : ThreadCall} (hW : ∀ t, st.MayWake (.call c) t → W t ∧ st.idle ≠ some t)
    (hsw : st.switching = false) (hst : st.call c = some st') : SchedChanges W st st' := by
  have hwaiters : ∀ s, ∀ t ∈ st.waiters s, W t ∧ st.idle ≠ some t := fun s t ht =>
    hW t (.inl ⟨s, ht⟩)
  cases c with
  | create priority =>
    obtain ⟨-, hst⟩ := Option.ite_none_right_eq_some.mp hst
    cases hst
    exact .single (.alike (.push st _))
  | yield => cases hst; exact .single (.yield hsw)
  | block => cases hst; exact .single (.block hsw)
  | unblock t =>
    obtain ⟨-, hst⟩ := Option.ite_none_left_eq_some.mp hst
    obtain ⟨hw, hidle⟩ := hW t (.inr (.inr (.inl rfl)))
    exact threadUnblock_lists hw hidle hsw hst
  | semaDown s => cases hst; exact semaDown_lists hsw _ _
  | semaUp s => exact semaUp_lists (hwaiters _) hsw hst
  | semaTryDown s =>
    cases hst
    rw [semaTryDown]
    split
    · exact .single (.alike (.of_thread rfl rfl rfl rfl rfl rfl))
    · exact .refl
  | lockAcquire l => exact lockAcquire_lists hsw hst
  | lockTryAcquire l => exact lockTryAcquire_lists hst
  | lockRelease l => exact lockRelease_lists hst
  | setPriority priority => cases hst; exact threadSetPriority_lists hsw priority
  | condWait c l => exact condWait_lists hst
  | condSignal c l => exact condSignal_lists hst
  | condBroadcast c l => exact condBroadcast_lists hst
  | idle =>
    obtain ⟨hnone, hst⟩ := Option.ite_none_right_eq_some.mp hst
    cases hst
    exact .single (.idle hnone hsw)

theorem resume_lists {f : Frame} (hwaiters : ∀ s, ∀ t ∈ st.waiters s, W t ∧ st.idle ≠ some t)
    (hnew : W st.nextThread ∧ st.idle ≠ some st.nextThread) (hsw : st.switching = false)
    (hst : st.resume f = some st') : SchedChanges W st st' := by
  cases f with
  | acquire l => exact lockAcquire_lists hsw hst
  | callDown s => cases hst; exact semaDown_lists hsw _ _
  | down s lock => cases hst; exact semaDown_lists hsw _ _
  | up s => exact semaUp_lists (hwaiters _) hsw hst
  | broadcast c l => exact condBroadcast_lists hst
  | release l => exact lockRelease_lists hst
  | releaseRest l => exact lockReleaseRest_lists (hwaiters _) hsw hst
  | create priority => exact threadCreate_lists hnew.1 hnew.2 hsw hst
  | createCheck priority =>
    cases hst
    split
    · exact .single (.yield hsw)
    · exact .refl

/-- **What a step is made of**, up to the pick of `schedule`. -/
theorem step_lists {tick : Tick} {picked : Option Nat}
    (hW : ∀ t, st.MayWake tick t → W t ∧ st.idle ≠ some t) (hsw : st.switching = false)
    (hst : threadMachine.step st tick = some (picked, st')) : SchedChanges W st st' := by
  cases stepped hst with
  | schedule hno => nomatch hsw.symm.trans hno
  | call _ _ _ hst => exact call_lists hW hsw hst
  | next _ _ hst =>
    have hrest : SchedChanges W st.pop st' := resume_lists (fun s t ht => hW t (.inl ⟨s, ht⟩))
      (hW _ (.inr (.inl le_rfl))) hsw hst
    exact .head (.alike (.pop st)) hrest
  | preempt => exact .single (.yield hsw)
  | @wake t _ _ _ hst =>
    obtain ⟨hw, hidle⟩ := hW t (.inr (.inr (.inr rfl)))
    exact threadUnblock_lists hw hidle hsw hst
  | interruptUp _ _ hst => exact semaUp_lists (fun t ht => hW t (.inl ⟨_, ht⟩)) hsw hst

/-! ## The ready list and the states -/

/-- **The ready list holds the threads that are ready**, apart from the idle thread, and one thread
runs unless `schedule` has been called. -/
structure ListsInv (st : ThreadSystem) : Prop where
  /-- No thread is in the ready list twice. -/
  nodup : st.readyList.Nodup
  /-- It holds the threads that are ready. -/
  ready : ∀ t, t ∈ st.readyList ↔ t < st.nextThread ∧ st.status t = .ready ∧ st.idle ≠ some t
  running : ∀ t < st.nextThread, (st.status t = .running ↔ t = st.current ∧ st.switching = false)
  current : st.current < st.nextThread
  idle : ∀ t, st.idle = some t → t < st.nextThread

namespace ListsInv

theorem of_boot (h : st.Boot) : ListsInv st := by
  have hrunning : ∀ t < st.nextThread, st.status t = .running := fun t ht => by
    rw [status, h.alone t ht, h.thread]
  refine ⟨?_, fun t => ?_, fun t ht => ?_, h.nextThread, fun t ht => ?_⟩
  · rw [h.readyList]
    exact .nil
  · rw [h.readyList]
    refine iff_of_false List.not_mem_nil fun hin => ?_
    cases (hrunning t hin.1).symm.trans hin.2.1
  · exact iff_of_true (hrunning t ht) ⟨h.alone t ht, h.switching⟩
  · rw [h.idle] at ht
    cases ht

theorem alike (h : ListsInv st) (ha : Alike st st') : ListsInv st' := by
  refine ⟨ha.readyList ▸ h.nodup, fun t => ?_, fun t ht => ?_, ?_, fun t ht => ?_⟩
  · rw [ha.readyList, ha.nextThread, ha.status, ha.idle]
    exact h.ready t
  · rw [ha.status, ha.current, ha.switching]
    exact h.running t (ha.nextThread ▸ ht)
  · rw [ha.current, ha.nextThread]
    exact h.current
  · rw [ha.nextThread]
    exact h.idle t (ha.idle ▸ ht)

theorem status_current (h : ListsInv st) (hsw : st.switching = false) :
    st.status st.current = .running :=
  (h.running _ h.current).mpr ⟨rfl, hsw⟩

theorem notMem_of_status (h : ListsInv st) (hne : st.status t ≠ .ready) : t ∉ st.readyList :=
  fun ht => hne ((h.ready t).mp ht).2.1

theorem leave (h : ListsInv st) {x : ThreadStatus} (hx : x ≠ .running)
    (hstatus : ∀ t, st'.status t = if t = st.current then x else st.status t)
    (hnodup : st'.readyList.Nodup)
    (hlist : ∀ t, t ∈ st'.readyList ↔
      t ≠ st.current ∧ t ∈ st.readyList ∨ t = st.current ∧ x = .ready ∧ st.idle ≠ some t)
    (hcurrent : st'.current = st.current) (hidle : st'.idle = st.idle)
    (hnext : st'.nextThread = st.nextThread) (hsw : st'.switching = true) : ListsInv st' := by
  refine ⟨hnodup, fun t => ?_, fun t ht => ?_, ?_, fun t ht => ?_⟩
  · rw [hlist, hnext, hstatus, hidle]
    by_cases hcur : t = st.current
    · subst hcur
      simp only [ne_eq, not_true_eq_false, false_and, false_or, if_true, h.current]
    · simp only [hcur, ne_eq, not_false_eq_true, true_and, false_and, or_false]
      exact h.ready t
  · rw [hstatus, hsw]
    refine iff_of_false (fun hrun => ?_) fun hc => nomatch hc.2
    split at hrun
    next => exact hx hrun
    next hne => exact hne ((h.running t (hnext ▸ ht)).mp hrun).1
  · rw [hcurrent, hnext]
    exact h.current
  · rw [hnext]
    exact h.idle t (hidle ▸ ht)

theorem status_setStatus (st : ThreadSystem) (t : Nat) (x : ThreadStatus) (u : Nat) :
    (st.modify t fun th => { th with status := x }).status u =
      if u = t then x else st.status u := by
  rw [status, thread_setStatus]

section

variable (h : ListsInv st)
include h

theorem current_notMem (hsw : st.switching = false) : st.current ∉ st.readyList :=
  h.notMem_of_status fun hready => nomatch (h.status_current hsw).symm.trans hready

theorem block (hsw : st.switching = false) : ListsInv st.threadBlock := by
  refine h.leave (x := .blocked) nofun (status_setStatus st st.current .blocked) h.nodup
    (fun t => ⟨fun ht => .inl ⟨?_, ht⟩, ?_⟩) rfl rfl rfl rfl
  · rintro rfl
    exact h.current_notMem hsw ht
  · rintro (⟨-, ht⟩ | ⟨-, hc, -⟩)
    · exact ht
    · nomatch hc

theorem yield (hsw : st.switching = false) : ListsInv st.threadYield := by
  have hnot := h.current_notMem hsw
  have hstatus := status_setStatus st st.current .ready
  rw [threadYield]
  split
  next hidle =>
    refine h.leave (x := .ready) (by rintro ⟨⟩) hstatus h.nodup
      (fun t => ⟨fun ht => .inl ⟨?_, ht⟩, ?_⟩) rfl rfl rfl rfl
    · rintro rfl
      exact hnot ht
    · rintro (⟨-, ht⟩ | ⟨rfl, -, hne⟩)
      · exact ht
      · exact absurd hidle.symm hne
  next hidle =>
    refine h.leave (x := .ready) (by rintro ⟨⟩) hstatus ?_ (fun t => ?_) rfl rfl rfl rfl
    · exact (listInsertOrdered_perm _ _ _).nodup_iff.mpr (List.nodup_cons.mpr ⟨hnot, h.nodup⟩)
    · refine mem_listInsertOrdered.trans ⟨?_, ?_⟩
      · rintro (rfl | ht)
        · exact .inr ⟨rfl, rfl, fun heq => hidle heq.symm⟩
        · refine .inl ⟨?_, ht⟩
          rintro rfl
          exact hnot ht
      · rintro (⟨-, ht⟩ | ⟨rfl, -⟩)
        · exact .inr ht
        · exact .inl rfl

theorem wake (hidle : st.idle ≠ some t) (hlt : t < st.nextThread)
    (hblocked : st.status t = .blocked) : ListsInv (st.makeReady t) := by
  have hnot : t ∉ st.readyList :=
    h.notMem_of_status fun hready => nomatch hblocked.symm.trans hready
  have hstatus : ∀ u, (st.makeReady t).status u = if u = t then .ready else st.status u :=
    status_setStatus st t .ready
  refine ⟨(listInsertOrdered_perm _ _ _).nodup_iff.mpr (List.nodup_cons.mpr ⟨hnot, h.nodup⟩),
    fun u => mem_listInsertOrdered.trans ?_, fun u hu => ?_, h.current, h.idle⟩
  · rw [hstatus]
    by_cases heq : u = t
    · subst heq
      rw [if_pos rfl]
      exact iff_of_true (.inl rfl) ⟨hlt, rfl, hidle⟩
    · rw [if_neg heq, or_iff_right heq]
      exact h.ready u
  · rw [hstatus]
    split
    next heq =>
      subst heq
      refine iff_of_false nofun fun hc => ?_
      exact nomatch hblocked.symm.trans ((h.running u hu).mpr hc)
    next => exact h.running u hu

theorem create (priority : Int) : ListsInv (st.created priority) := by
  have hold : ∀ {u}, u < st.nextThread → (st.created priority).status u = st.status u :=
    fun hu => by rw [status, thread_created, if_neg hu.ne]
  have hnew : (st.created priority).status st.nextThread = .blocked := by
    rw [status, thread_created, if_pos rfl]
    rfl
  have hcases : ∀ {u}, u < (st.created priority).nextThread →
      u < st.nextThread ∨ u = st.nextThread := fun hu =>
    Nat.lt_or_eq_of_le (Nat.lt_succ_iff.mp hu)
  refine ⟨h.nodup, fun u => (h.ready u).trans ⟨?_, ?_⟩, fun u hu => ?_, Nat.lt_succ_of_lt h.current,
    fun u hu => Nat.lt_succ_of_lt (h.idle u hu)⟩
  · rintro ⟨hu, hready, hidle⟩
    exact ⟨Nat.lt_succ_of_lt hu, (hold hu).trans hready, hidle⟩
  · rintro ⟨hu, hready, hidle⟩
    rcases hcases hu with hu | rfl
    · exact ⟨hu, (hold hu).symm.trans hready, hidle⟩
    · cases hnew.symm.trans hready
  · rcases hcases hu with hu | rfl
    · rw [hold hu]
      exact h.running u hu
    · rw [hnew]
      exact iff_of_false (by rintro ⟨⟩) fun hc => Nat.ne_of_gt h.current hc.1

/-- **Every change keeps the invariant.** -/
theorem change (hc : SchedChange W st st') : ListsInv st' := by
  cases hc with
  | alike ha => exact h.alike ha
  | block hsw => exact h.block hsw
  | yield hsw => exact h.yield hsw
  | wake t _ hidle hlt hblocked => exact h.wake hidle hlt hblocked
  | create priority => exact h.create priority
  | idle hnone hsw =>
    refine ⟨h.nodup, fun t => ?_, h.running, h.current, fun t ht => ?_⟩
    · refine (h.ready t).trans (and_congr_right fun _ => and_congr_right fun hready => ?_)
      refine iff_of_true (by rw [hnone]; rintro ⟨⟩) fun heq => ?_
      obtain rfl := Option.some_inj.mp heq
      cases (h.status_current hsw).symm.trans hready
    · obtain rfl := Option.some_inj.mp ht
      exact h.current

theorem changes (hc : SchedChanges W st st') : ListsInv st' := by
  induction hc with
  | refl => exact h
  | tail _ hc ih => exact ih.change hc

theorem schedule (hsw : st.switching = true) {next : Nat} (hst : st.schedule = some (next, st')) :
    ListsInv st' ∧ (∀ t, t ≠ next → st'.status t = st.status t) ∧
      (∀ t, (st'.thread t).todo = (st.thread t).todo) ∧ st'.idle = st.idle ∧
      st'.nextThread = st.nextThread ∧ (next ∈ st.readyList ∨ st.idle = some next) := by
  obtain ⟨⟨next', rest⟩, hnext, heq⟩ := Option.map_eq_some_iff.mp hst
  cases heq
  have hpick : (next ∈ st.readyList ∨ st.idle = some next) ∧ rest.Nodup ∧
      (∀ t, t ∈ st.readyList → t = next ∨ t ∈ rest) ∧
      (∀ t ∈ rest, t ∈ st.readyList ∧ t ≠ next) := by
    rw [nextThreadToRun] at hnext
    have hnodup := h.nodup
    split at hnext
    next hnil =>
      obtain ⟨u, hidle, heq⟩ := Option.map_eq_some_iff.mp hnext
      cases heq
      rw [hnil]
      exact ⟨.inr hidle, .nil, List.forall_mem_nil _, List.forall_mem_nil _⟩
    next t rest' hcons =>
      cases hnext
      rw [hcons] at hnodup ⊢
      obtain ⟨hnew, hnodup⟩ := List.nodup_cons.mp hnodup
      refine ⟨.inl (.head _), hnodup, fun t ht => List.mem_cons.mp ht, fun t ht =>
        ⟨.tail _ ht, ?_⟩⟩
      rintro rfl
      exact hnew ht
  obtain ⟨hfrom, hnodup, hold, hrest⟩ := hpick
  have hknown : next < st.nextThread := by
    rcases hfrom with hmem | hidle
    · exact ((h.ready next).mp hmem).1
    · exact h.idle next hidle
  have hstatus : ∀ u, (st.modify next fun th => { th with status := .running }).status u
      = if u = next then .running else st.status u := status_setStatus st next .running
  refine ⟨⟨hnodup, fun t => ?_, fun t ht => ?_, hknown, h.idle⟩, fun t ht => ?_, fun t => ?_, rfl,
    rfl, hfrom⟩
  · show t ∈ rest ↔ t < st.nextThread ∧
      (st.modify next fun th => { th with status := .running }).status t = .ready ∧
      st.idle ≠ some t
    rw [hstatus]
    by_cases heq : t = next
    · subst heq
      rw [if_pos rfl]
      exact iff_of_false (fun hmem => (hrest t hmem).2 rfl) fun hc => by cases hc.2.1
    · rw [if_neg heq, ← h.ready t]
      exact ⟨fun hmem => (hrest t hmem).1, fun hmem => (hold t hmem).resolve_left heq⟩
  · rw [hstatus]
    split
    next heq => exact iff_of_true rfl ⟨heq, rfl⟩
    next hne =>
      refine iff_of_false (fun hrun => ?_) fun hc => hne hc.1
      have hnot := ((h.running t ht).mp hrun).2
      rw [hsw] at hnot
      cases hnot
  · exact (hstatus t).trans (if_neg ht)
  · rw [thread_setStatus]

end

end ListsInv

/-! ## Threads that rest -/

/-- The thread is blocked, and not in `sema_down`. -/
structure Parked (st : ThreadSystem) (t : Nat) : Prop where
  known : t < st.nextThread
  blocked : st.status t = .blocked
  out : st.downOf t = none
  idle : st.idle ≠ some t

section

variable (h : Parked st t)
include h

theorem Parked.ne_current (hl : ListsInv st) (hsw : st.switching = false) : t ≠ st.current := by
  rintro rfl
  exact nomatch h.blocked.symm.trans (hl.status_current hsw)

theorem Parked.of_same (hnext : st.nextThread ≤ st'.nextThread)
    (hidle : st'.idle = st.idle) (hstatus : st'.status t = st.status t)
    (htodo : (st'.thread t).todo = (st.thread t).todo) : Parked st' t :=
  ⟨h.known.trans_le hnext, hstatus.trans h.blocked, (downOf_congr htodo).trans h.out,
    hidle ▸ h.idle⟩

theorem Parked.of_thread (hnext : st.nextThread ≤ st'.nextThread)
    (hidle : st'.idle = st.idle) (hsame : st'.thread t = st.thread t) : Parked st' t :=
  h.of_same hnext hidle (congrArg _ hsame) (congrArg _ hsame)

/-- **Nothing wakes a thread that rests**, but those that may. -/
theorem Parked.change (hcur : t ≠ st.current) (hW : ¬ W t)
    (hc : SchedChange W st st') : Parked st' t ∧ t ≠ st'.current := by
  have hset : ∀ (u : Nat) (x : ThreadStatus), t ≠ u →
      (st.modify u fun th => { th with status := x }).thread t = st.thread t := fun u x hne => by
    rw [thread_modify, if_neg hne]
  cases hc with
  | alike ha =>
    exact ⟨h.of_same ha.nextThread.ge ha.idle (ha.status t) (ha.todo t hcur), ha.current ▸ hcur⟩
  | block => exact ⟨h.of_thread le_rfl rfl (hset _ _ hcur), hcur⟩
  | yield =>
    rw [threadYield]
    split <;> exact ⟨h.of_thread le_rfl rfl (hset _ _ hcur), hcur⟩
  | wake u hu => exact ⟨h.of_thread le_rfl rfl (hset _ _ fun heq => hW (heq ▸ hu)), hcur⟩
  | create priority =>
    refine ⟨h.of_thread (Nat.le_succ _) rfl ?_, hcur⟩
    rw [thread_created, if_neg h.known.ne]
  | idle =>
    exact ⟨⟨h.known, h.blocked, h.out, fun heq => hcur (Option.some_inj.mp heq).symm⟩, hcur⟩

theorem Parked.changes (hcur : t ≠ st.current) (hW : ¬ W t)
    (hc : SchedChanges W st st') : Parked st' t := by
  suffices hboth : Parked st' t ∧ t ≠ st'.current from hboth.1
  induction hc with
  | refl => exact ⟨h, hcur⟩
  | tail _ hc ih => exact ih.1.change ih.2 hW hc

end

/-! ## What the calls keep -/

/-- The invariants of the thread system. -/
structure SysInv (st : ThreadSystem) : Prop where
  sync : SyncInv st
  order : ReadyInv False st
  lists : ListsInv st

namespace SysInv

theorem of_boot (h : st.Boot) : SysInv st := ⟨.of_boot h, .of_boot h, .of_boot h⟩

theorem running (h : SysInv st) (hsw : st.switching = false) : st.status st.current = .running :=
  h.lists.status_current hsw

theorem waiting (h : SysInv st) (ht : t ∈ st.waiters s) :
    st.idle ≠ some t ∧ st.downOf t = some s := by
  obtain ⟨-, hdown, -⟩ := (h.sync.waiting s t).mp ht
  refine ⟨fun hidle => ?_, hdown⟩
  obtain ⟨lock, hhead⟩ := downOf_eq_some.mp hdown
  rw [head, (h.sync.idle t hidle).2] at hhead
  cases hhead

variable {picked : Option Nat}

section

variable (h : SysInv st)
include h

/-- **A step of the thread system.** -/
theorem step (hsw : st.switching = false) {tick : Tick}
    (hhand : ∀ t, tick = .call (.unblock t) ∨ tick = .wake t → st.idle ≠ some t)
    (hst : threadMachine.step st tick = some (picked, st')) : SysInv st' ∧
      ∀ t, Parked st t → (tick ≠ .call (.unblock t) ∧ tick ≠ .wake t) → Parked st' t := by
  have hlists : SchedChanges (st.MayWake tick) st st' := by
    refine step_lists (fun t ht => ⟨ht, ?_⟩) hsw hst
    rcases ht with ⟨s, hs⟩ | hnew | hcall
    · exact (h.waiting hs).1
    · intro hidle
      exact Nat.not_lt.mpr hnew (h.lists.idle t hidle)
    · exact hhand t hcall
  have hsync : SyncChanges False st st' := h.sync.changes_of_step h.order nofun hst
  refine ⟨⟨h.sync.changes hsync, h.order.step nofun hst, h.lists.changes hlists⟩,
    fun t hparked hnot => ?_⟩
  refine hparked.changes (hparked.ne_current h.lists hsw) ?_ hlists
  rintro (⟨s, hs⟩ | hnew | hcall | hwake)
  · cases hparked.out.symm.trans (h.waiting hs).2
  · exact Nat.not_lt.mpr hnew hparked.known
  · exact hnot.1 hcall
  · exact hnot.2 hwake

/-- **The pick of `schedule`.** -/
theorem schedule (hst : threadMachine.step st .schedule = some (picked, st')) :
    SysInv st' ∧
      ∀ t, Parked st t → Parked st' t := by
  have hsync : SyncChanges False st st' := h.sync.changes_of_step h.order nofun hst
  have horder := h.order.step nofun hst
  cases stepped hst with
  | @schedule next _ hsw hst =>
    obtain ⟨hlists, hstatus, htodo, hidle, hnext, hfrom⟩ := h.lists.schedule hsw hst
    refine ⟨⟨h.sync.changes hsync, horder, hlists⟩, fun t ht => ?_⟩
    have hne : t ≠ next := by
      rintro rfl
      rcases hfrom with hmem | hidle
      · cases ht.blocked.symm.trans ((h.lists.ready t).mp hmem).2.1
      · exact ht.idle hidle
    exact ht.of_same hnext.ge hidle (hstatus t hne) (htodo t)

/-- **The current thread blocks**, outside of all calls. -/
theorem block (hsw : st.switching = false) (htodo : st.todo = [])
    (hidle : st.idle ≠ some st.current) : SysInv st.threadBlock ∧ Parked st.threadBlock st.current ∧
      ∀ t, Parked st t → Parked st.threadBlock t := by
  have hold := noLoop_of_nil htodo
  refine ⟨⟨h.sync.sched (sched_threadBlock hold), h.order.threadBlock hsw, h.lists.block hsw⟩, ?_,
    fun t ht => ?_⟩
  · have hself := thread_setStatus st st.current .blocked st.current
    rw [if_pos rfl] at hself
    have hcalls : (st.threadBlock.thread st.current).todo = (st.thread st.current).todo := by
      rw [show st.threadBlock.thread st.current = _ from hself]
    exact ⟨h.lists.current, congrArg Thread.status hself, (downOf_congr hcalls).trans hold.downOf,
      hidle⟩
  · exact (ht.change (W := fun _ => False) (ht.ne_current h.lists hsw) id (.block hsw)).1

/-- **The current thread yields.** -/
theorem yield (hsw : st.switching = false) :
    SysInv st.threadYield ∧ ∀ t, Parked st t → Parked st.threadYield t := by
  refine ⟨⟨h.sync.sched (sched_threadYield (not_blocked_of_running (h.running hsw))),
    h.order.threadYield hsw, h.lists.yield hsw⟩, fun t ht => ?_⟩
  exact (ht.change (W := fun _ => False) (ht.ne_current h.lists hsw) id (.yield hsw)).1

/-- **A thread that rests is woken.** -/
theorem unblock (hsw : st.switching = false) (ht : Parked st t) {intrContext : Bool}
    (hst : st.threadUnblock t intrContext = some st') :
    SysInv st' ∧ ∀ u, u ≠ t → Parked st u → Parked st' u := by
  have hsync : SyncChanges False st st' := threadUnblock_changes ht.out (h.running hsw) hst
  have hlists : SchedChanges (· = t) st st' := threadUnblock_lists rfl ht.idle hsw hst
  refine ⟨⟨h.sync.changes hsync, h.order.threadUnblock hsw hst, h.lists.changes hlists⟩,
    fun u hne hu => ?_⟩
  exact hu.changes (hu.ne_current h.lists hsw) hne hlists

end

end SysInv

end ThreadSystem

/-! ## The invariant -/

namespace TimedSystem

open ThreadSystem (SysInv Parked)

variable {st st' : TimedSystem}

/-- The thread sleeps, waits for an interrupt queue, or has exited. -/
def Rests (st : TimedSystem) (t : Nat) : Prop :=
  t ∈ st.sleeping ∨ (∃ q, st.waiter q = some t) ∨ t ∈ st.dying

/-- **Who rests**, each for one reason. -/
structure RestInv (st : TimedSystem) : Prop where
  /-- A thread that rests is blocked, and not in `sema_down`. -/
  parked : ∀ t, st.Rests t → Parked st.sys t
  nodup : st.sleeping.Nodup
  sorted : st.sleeping.Pairwise fun a b => st.morningTick a ≤ st.morningTick b
  /-- A thread that sleeps does not wait for an interrupt queue, and has not exited. -/
  sleeps : ∀ t ∈ st.sleeping, (∀ q, st.waiter q ≠ some t) ∧ t ∉ st.dying
  /-- A thread that waits for an interrupt queue waits for no other, and has not exited. -/
  waits : ∀ q t, st.waiter q = some t → (∀ q', st.waiter q' = some t → q' = q) ∧ t ∉ st.dying

/-- The invariant. -/
structure TimedInv (st : TimedSystem) : Prop where
  sys : SysInv st.sys
  rest : RestInv st

theorem TimedInv.of_boot (h : st.Boot) : TimedInv st := by
  refine ⟨.of_boot h.sys, fun t ht => ?_, ?_, ?_, ?_, fun q t ht => ?_⟩
  · rcases ht with ht | ⟨q, hq⟩ | ht
    · rw [h.sleeping] at ht
      nomatch ht
    · rw [h.waiter] at hq
      nomatch hq
    · rw [h.dying] at ht
      nomatch ht
  · rw [h.sleeping]
    exact .nil
  · rw [h.sleeping]
    exact .nil
  · rw [h.sleeping]
    nofun
  · rw [h.waiter] at ht
    nomatch ht

variable {picked : Option Nat} {next : Option TimedSystem}

theorem callStep_eq_some (hst : st.callStep next = some (picked, st')) :
    (st.sys.switching = false ∧ st.canCall) ∧ next = some st' := by
  obtain ⟨hcan, hst⟩ := Option.ite_none_right_eq_some.mp hst
  obtain ⟨st1, hnext, heq⟩ := Option.map_eq_some_iff.mp hst
  cases heq
  exact ⟨hcan, hnext⟩

theorem interruptStep_eq_some
    (hst : st.interruptStep next = some (picked, st')) : st.interruptsOn ∧ next = some st' := by
  obtain ⟨hon, hst⟩ := Option.ite_none_right_eq_some.mp hst
  obtain ⟨st1, hnext, heq⟩ := Option.map_eq_some_iff.mp hst
  cases heq
  exact ⟨hon, hnext⟩

namespace TimedInv

theorem current_not_rests (h : TimedInv st) (hsw : st.sys.switching = false) :
    ¬ st.Rests st.sys.current := fun hrests =>
  (h.rest.parked _ hrests).ne_current h.sys.lists hsw rfl

variable {sys : ThreadSystem} {threadTicks : Nat} {ticks : Int}

/-- Threads stop to rest. -/
theorem fewer (h : TimedInv st)
    {sleeping : List Nat} {waiter : Nat → Option Nat} (hsys : SysInv sys)
    (hsleep : sleeping.Sublist st.sleeping)
    (hwaiter : ∀ {q t}, waiter q = some t → st.waiter q = some t)
    (hparked : ∀ t, t ∈ sleeping ∨ (∃ q, waiter q = some t) ∨ t ∈ st.dying → Parked sys t) :
    TimedInv { st with sys, threadTicks, ticks, sleeping, waiter } := by
  refine ⟨hsys, hparked, h.rest.nodup.sublist hsleep, h.rest.sorted.sublist hsleep, fun t ht => ?_,
    fun q t hq => ?_⟩
  · obtain ⟨hfree, hlives⟩ := h.rest.sleeps t (hsleep.subset ht)
    exact ⟨fun q hq => hfree q (hwaiter hq), hlives⟩
  · obtain ⟨honly, hlives⟩ := h.rest.waits q t (hwaiter hq)
    exact ⟨fun q' hq' => honly q' (hwaiter hq'), hlives⟩

theorem of_sys (h : TimedInv st) (hsys : SysInv sys) (hparked : ∀ t, st.Rests t → Parked sys t) :
    TimedInv { st with sys := sys, threadTicks := threadTicks, ticks := ticks } :=
  h.fewer hsys (.refl _) id hparked

variable {picked : Option Nat}

/-- **A step of the thread system.** -/
theorem threadStep (h : TimedInv st) {tick : Tick} (hhand : st.UnblocksByHand (.thread tick))
    (hst : st.threadStep tick = some (picked, st')) : TimedInv st' := by
  by_cases hsched : tick = .schedule
  · subst hsched
    obtain ⟨⟨picked', sys⟩, hstep, heq⟩ := Option.map_eq_some_iff.mp hst
    cases heq
    obtain ⟨hsys, hparked⟩ := h.sys.schedule hstep
    have hfew : ∀ {q t}, (if (sys.current, q) ∈ st.clearing then none else st.waiter q) = some t →
        st.waiter q = some t := fun hq => (Option.ite_none_left_eq_some.mp hq).2
    have hfewer : TimedInv { st with sys, threadTicks := 0, waiter := _ } :=
      h.fewer hsys (.refl _) hfew fun t ht => hparked t (h.rest.parked t (ht.imp_right (.imp_left fun ⟨q, hq⟩ => ⟨q, hfew hq⟩)))
    exact ⟨hfewer.sys, { hfewer.rest with }⟩
  -- the other steps leave the time slice alone, and do not wake a thread that rests
  have hcases : ∃ sys, threadMachine.step st.sys tick = some (picked, sys) ∧
      st' = { st with sys := sys } ∧ (∀ t, tick ≠ .wake t) ∧
      ∀ t, tick = .call (.unblock t) → t ∉ st.dying := by
    cases tick with
    | preempt | wake => nomatch hst
    | schedule => exact absurd rfl hsched
    | next | interruptUp =>
      obtain ⟨⟨picked', sys⟩, hstep, heq⟩ := Option.map_eq_some_iff.mp hst
      cases heq
      exact ⟨sys, hstep, rfl, nofun, nofun⟩
    | call c =>
      cases c with
      | unblock t =>
        obtain ⟨hdying, hst⟩ := Option.ite_none_left_eq_some.mp hst
        obtain ⟨⟨picked', sys⟩, hstep, heq⟩ := Option.map_eq_some_iff.mp hst
        cases heq
        refine ⟨sys, hstep, rfl, nofun, fun u heq => ?_⟩
        cases heq
        exact hdying
      | _ =>
        obtain ⟨⟨picked', sys⟩, hstep, heq⟩ := Option.map_eq_some_iff.mp hst
        cases heq
        exact ⟨sys, hstep, rfl, nofun, nofun⟩
  obtain ⟨sys, hstep, rfl, hwake, hdying⟩ := hcases
  have hsw : st.sys.switching = false := by
    cases ThreadSystem.stepped hstep with
    | schedule => exact absurd rfl hsched
    | call hsw | next hsw | preempt hsw | wake hsw | interruptUp hsw => exact hsw
  have hidle : ∀ t, tick = .call (.unblock t) ∨ tick = .wake t → st.sys.idle ≠ some t := by
    rintro t (rfl | hc)
    · exact hhand.2.2
    · exact absurd hc (hwake t)
  obtain ⟨hsys, hparked⟩ := h.sys.step hsw hidle hstep
  refine h.of_sys hsys fun t ht => hparked t (h.rest.parked t ht) ⟨?_, hwake t⟩
  rintro rfl
  rcases ht with ht | ⟨q, hq⟩ | ht
  · exact hhand.1 ht
  · exact hhand.2.1 q hq
  · exact hdying t rfl ht

section

variable (h : TimedInv st) (hsw : st.sys.switching = false) {sys : ThreadSystem}
  {intrContext : Bool} {t : Nat} {q : Nat}
include h hsw

theorem block (hcall : st.canCall) : SysInv st.sys.threadBlock ∧
    ∀ t, t = st.sys.current ∨ st.Rests t → Parked st.sys.threadBlock t := by
  obtain ⟨hsys, hself, hothers⟩ := h.sys.block hsw hcall.1 hcall.2
  refine ⟨hsys, ?_⟩
  rintro t (rfl | ht)
  · exact hself
  · exact hothers t (h.rest.parked t ht)

theorem unblock (ht : st.Rests t) (hst : st.sys.threadUnblock t intrContext = some sys) :
    SysInv sys ∧ ∀ u, u ≠ t → st.Rests u → Parked sys u := by
  obtain ⟨hsys, hothers⟩ := h.sys.unblock hsw (h.rest.parked t ht) hst
  exact ⟨hsys, fun u hne hu => hothers u hne (h.rest.parked u hu)⟩

/-- **`timer_sleep`.** -/
theorem timerSleep (hcall : st.canCall) (ticks : Int) : TimedInv (st.timerSleep ticks) := by
  obtain ⟨hsys, hothers⟩ := h.block hsw hcall
  have hnot := h.current_not_rests hsw
  obtain ⟨m, hm⟩ : ∃ m, m = Function.update st.morningTick st.sys.current (st.ticks + ticks) :=
    ⟨_, rfl⟩
  have hperm := listInsertOrdered_perm (compareTick m) st.sys.current st.sleeping
  have hmem : ∀ t, t ∈ (st.timerSleep ticks).sleeping ↔ t = st.sys.current ∨ t ∈ st.sleeping :=
    fun t => by
    rw [← List.mem_cons, ← hperm.mem_iff, hm]
    rfl
  refine ⟨hsys, fun t ht => hothers t ?_, ?_, ?_, fun t ht => ?_, h.rest.waits⟩
  · exact (or_congr_left (hmem t)).mp ht |>.elim (·.imp_right .inl) fun ht => .inr (.inr ht)
  · have hnodup := hperm.nodup_iff.mpr
      (List.nodup_cons.mpr ⟨fun hc => hnot (.inl hc), h.rest.nodup⟩)
    rw [hm] at hnodup
    exact hnodup
  · have hless : ∀ a b, compareTick m a b = true ↔ -m b < -m a := fun a b => by
      rw [compareTick, decide_eq_true_iff, Int.neg_lt_neg_iff]
    have hold : Falling (fun t => -m t) st.sleeping := by
      refine h.rest.sorted.imp_of_mem fun {a b} ha hb hab => ?_
      have hsame : ∀ t ∈ st.sleeping, m t = st.morningTick t := fun t ht => by
        rw [hm, Function.update_of_ne]
        rintro rfl
        exact hnot (.inl ht)
      show -m b ≤ -m a
      rw [hsame a ha, hsame b hb]
      exact Int.neg_le_neg hab
    have hnew : Falling (fun t => -m t)
        (listInsertOrdered (compareTick m) st.sys.current st.sleeping) :=
      pairwise_listInsertOrdered hless hold
    rw [hm] at hnew
    exact hnew.imp fun hab => Int.le_of_neg_le_neg hab
  · rcases (hmem t).mp ht with rfl | ht
    · exact ⟨fun q hq => hnot (.inr (.inl ⟨q, hq⟩)), fun hc => hnot (.inr (.inr hc))⟩
    · exact h.rest.sleeps t ht

/-- **`thread_exit`.** -/
theorem threadExit (hcall : st.canCall) : TimedInv st.threadExit := by
  obtain ⟨hsys, hothers⟩ := h.block hsw hcall
  have hnot := h.current_not_rests hsw
  have hdying : ∀ t, st.Rests t → t ∉ st.dying → t ∉ st.sys.current :: st.dying := by
    rintro t hrests hdying (_ | ⟨_, hc⟩)
    · exact hnot hrests
    · exact hdying hc
  refine ⟨hsys, fun t ht => hothers t ?_, h.rest.nodup, h.rest.sorted, fun t ht => ?_,
    fun q t hq => ?_⟩
  · rcases ht with ht | hq | _ | ⟨_, ht⟩
    · exact .inr (.inl ht)
    · exact .inr (.inr (.inl hq))
    · exact .inl rfl
    · exact .inr (.inr (.inr ht))
  · exact ⟨(h.rest.sleeps t ht).1, hdying t (.inl ht) (h.rest.sleeps t ht).2⟩
  · exact ⟨(h.rest.waits q t hq).1, hdying t (.inr (.inl ⟨q, hq⟩)) (h.rest.waits q t hq).2⟩

/-- **`wait` of an interrupt queue.** -/
theorem intqWait (hcall : st.canCall) (hst : st.intqWait q = some st') : TimedInv st' := by
  obtain ⟨hsys, hothers⟩ := h.block hsw hcall
  have hnot := h.current_not_rests hsw
  obtain ⟨hnone, heq⟩ := Option.ite_none_right_eq_some.mp hst
  cases heq
  have hwaiter : ∀ q' t, Function.update st.waiter q (some st.sys.current) q' = some t →
      q' = q ∧ t = st.sys.current ∨ q' ≠ q ∧ st.waiter q' = some t := by
    intro q' t hq'
    by_cases hcase : q' = q
    · subst hcase
      rw [Function.update_self, Option.some_inj] at hq'
      exact .inl ⟨rfl, hq'.symm⟩
    · rw [Function.update_of_ne hcase] at hq'
      exact .inr ⟨hcase, hq'⟩
  refine ⟨hsys, fun t ht => hothers t ?_, h.rest.nodup, h.rest.sorted, fun t ht => ?_,
    fun q1 t h1 => ?_⟩
  · rcases ht with ht | ⟨q', hq'⟩ | ht
    · exact .inr (.inl ht)
    · exact (hwaiter q' t hq').imp And.right fun hq' => .inr (.inl ⟨q', hq'.2⟩)
    · exact .inr (.inr (.inr ht))
  · refine ⟨fun q' hq' => ?_, (h.rest.sleeps t ht).2⟩
    rcases hwaiter q' t hq' with ⟨-, rfl⟩ | ⟨-, hq'⟩
    · exact hnot (.inl ht)
    · exact (h.rest.sleeps t ht).1 q' hq'
  · rcases hwaiter q1 t h1 with ⟨rfl, rfl⟩ | ⟨-, hold1⟩
    · refine ⟨fun q2 h2 => ?_, fun hc => hnot (.inr (.inr hc))⟩
      rcases hwaiter q2 _ h2 with ⟨rfl, -⟩ | ⟨-, hold2⟩
      · rfl
      · exact absurd (.inr (.inl ⟨q2, hold2⟩)) hnot
    · refine ⟨fun q2 h2 => ?_, (h.rest.waits q1 t hold1).2⟩
      rcases hwaiter q2 t h2 with ⟨-, rfl⟩ | ⟨-, hold2⟩
      · exact absurd (.inr (.inl ⟨q1, hold1⟩)) hnot
      · exact (h.rest.waits q1 t hold1).1 q2 hold2

/-- **`signal` of an interrupt queue**, in a handler or by a thread that is not outranked. -/
theorem intqSignal (hdefers : intrContext = false → st.UnblocksByHand (.signal q))
    (hst : st.intqSignal q intrContext = some st') : TimedInv st' := by
  rw [TimedSystem.intqSignal] at hst
  split at hst
  next =>
    cases hst
    exact h
  next t hq =>
    obtain ⟨sys, hunblock, heq⟩ := Option.map_eq_some_iff.mp hst
    have htrue : st.sys.threadUnblock t true = some sys := by
      cases intrContext with
      | true => exact hunblock
      | false => exact (ThreadSystem.threadUnblock_of_le (hdefers rfl t hq)).symm.trans hunblock
    have hready : sys.switching = false := by
      rw [(ThreadSystem.threadUnblock_true.mp htrue).2.2]
      exact hsw
    rw [hready, if_neg Bool.false_ne_true] at heq
    cases heq
    obtain ⟨hsys, hothers⟩ := h.unblock hsw (.inr (.inl ⟨q, hq⟩)) hunblock
    have hwaiter : ∀ {q' u}, Function.update st.waiter q none q' = some u →
        q' ≠ q ∧ st.waiter q' = some u := fun {q' u} hq' => by
      rwa [Function.update_apply, Option.ite_none_left_eq_some] at hq'
    refine h.fewer hsys (.refl _) (fun hq => (hwaiter hq).2) fun u hu => hothers u ?_ ?_
    · rintro rfl
      rcases hu with hu | ⟨q', hq'⟩ | hu
      · exact (h.rest.sleeps u hu).1 q hq
      · exact (hwaiter hq').1 ((h.rest.waits q u hq).1 q' (hwaiter hq').2)
      · exact (h.rest.waits q u hq).2 hu
    · exact hu.imp_right (.imp_left fun ⟨q', hq'⟩ => ⟨q', (hwaiter hq').2⟩)

theorem wakeFirst {rest : List Nat} (hsleep : st.sleeping = t :: rest)
    (hst : st.sys.threadUnblock t true = some sys) :
    TimedInv { st with sys := sys, sleeping := rest } := by
  have hmem : t ∈ st.sleeping := hsleep ▸ .head _
  have hnotMem := (List.nodup_cons.mp (hsleep ▸ h.rest.nodup)).1
  have htail : rest.Sublist st.sleeping := hsleep ▸ List.sublist_cons_self ..
  obtain ⟨hsys, hothers⟩ := h.unblock hsw (.inl hmem) hst
  refine h.fewer hsys htail id fun u hu => hothers u ?_ (hu.imp_left fun hu => htail.subset hu)
  rintro rfl
  rcases hu with hu | ⟨q, hq⟩ | hu
  · exact hnotMem hu
  · exact (h.rest.sleeps u hmem).1 q hq
  · exact (h.rest.sleeps u hmem).2 hu

end

/-- **`thread_to_wakeup`.** -/
theorem wakeLoop {l : List Nat} : ∀ {st st' : TimedSystem}, TimedInv st →
    st.sys.switching = false → st.sleeping = l → TimedSystem.wakeLoop l st = some st' →
    TimedInv st' ∧ st'.sys.switching = false := by
  induction l with
  | nil =>
    intro st st' h hsw _ hst
    cases hst
    exact ⟨h, hsw⟩
  | cons t rest ih =>
    intro st st' h hsw hsleep hst
    rw [TimedSystem.wakeLoop] at hst
    split at hst
    next =>
      obtain ⟨sys, hunblock, hst⟩ := Option.bind_eq_some_iff.mp hst
      have hready : sys = st.sys.makeReady t := (ThreadSystem.threadUnblock_true.mp hunblock).2.2
      refine ih (h.wakeFirst hsw hsleep hunblock) ?_ rfl hst
      rw [hready]
      exact hsw
    next =>
      cases hst
      exact ⟨h, hsw⟩

/-- **The timer interrupt.** -/
theorem timerInterrupt (h : TimedInv st) (hsw : st.sys.switching = false)
    (hst : st.timerInterrupt = some st') : TimedInv st' := by
  obtain ⟨st1, hloop, heq⟩ := Option.map_eq_some_iff.mp hst
  have hticked : TimedInv { st with ticks := st.ticks + 1, threadTicks := st.threadTicks + 1 } :=
    h.of_sys h.sys h.rest.parked
  obtain ⟨h1, hsw1⟩ := wakeLoop hticked hsw rfl hloop
  split at heq
  next =>
    cases heq
    obtain ⟨hsys, hparked⟩ := h1.sys.yield hsw1
    exact h1.of_sys hsys fun t ht => hparked t (h1.rest.parked t ht)
  next =>
    cases heq
    exact h1

/-- **Every step keeps the invariant.** -/
theorem step (h : TimedInv st) {e : TimedEvent} (hhand : st.UnblocksByHand e)
    (hst : timedMachine.step st e = some (picked, st')) : TimedInv st' := by
  cases e with
  | thread tick => exact h.threadStep hhand hst
  | sleep ticks =>
    obtain ⟨⟨hsw, hcall⟩, heq⟩ := callStep_eq_some hst
    cases heq
    exact h.timerSleep hsw hcall ticks
  | exit =>
    obtain ⟨⟨hsw, hcall⟩, heq⟩ := callStep_eq_some hst
    cases heq
    exact h.threadExit hsw hcall
  | wait q =>
    obtain ⟨⟨hsw, hcall⟩, hst⟩ := callStep_eq_some hst
    exact h.intqWait hsw hcall hst
  | signal q =>
    obtain ⟨⟨hsw, -⟩, hst⟩ := callStep_eq_some hst
    exact h.intqSignal hsw (fun _ => hhand) hst
  | timer =>
    obtain ⟨⟨hsw, -⟩, hst⟩ := interruptStep_eq_some hst
    exact h.timerInterrupt hsw hst
  | intq q =>
    obtain ⟨⟨hsw, -⟩, hst⟩ := interruptStep_eq_some hst
    exact h.intqSignal hsw (by rintro ⟨⟩) hst

theorem of_reach (h : timedMachine.Reach TimedSystem.Boot TimedSystem.UnblocksByHand st) :
    TimedInv st :=
  h.invariant (fun _ => .of_boot) fun _ _ _ _ h hhand hst => h.step hhand hst

end TimedInv

/-! ## The lists -/

/-- **The states of the threads and the lists agree.** -/
structure ListsAgree (st : TimedSystem) : Prop where
  /-- A thread other than the idle thread is in the ready list once if it is ready, and otherwise
  not at all. -/
  ready : ∀ t < st.sys.nextThread, st.sys.idle ≠ some t →
    st.sys.readyList.count t = if st.sys.status t = .ready then 1 else 0
  idle : ∀ t, st.sys.idle = some t → t ∉ st.sys.readyList
  running : ∃! t, t < st.sys.nextThread ∧ st.sys.status t = .running
  free : ∀ t < st.sys.nextThread, st.sys.status t = .running →
    t ∉ st.sys.readyList ∧ t ∉ st.sleeping ∧ ∀ s, t ∉ st.sys.waiters s
  /-- A blocked thread is in no list twice. -/
  once : ∀ t < st.sys.nextThread, st.sys.status t = .blocked →
    st.sleeping.count t ≤ 1 ∧ ∀ s, (st.sys.waiters s).count t ≤ 1
  /-- If it sleeps, it waits for no semaphore. -/
  sleeps : ∀ t < st.sys.nextThread, st.sys.status t = .blocked → t ∈ st.sleeping →
    ∀ s, t ∉ st.sys.waiters s
  /-- It waits for one semaphore at most. -/
  waits : ∀ t < st.sys.nextThread, st.sys.status t = .blocked → ∀ s s',
    t ∈ st.sys.waiters s → t ∈ st.sys.waiters s' → s = s'

theorem TimedInv.listsAgree (h : TimedInv st) (hsw : st.sys.switching = false) : ListsAgree st := by
  have hl := h.sys.lists
  have hsleeps : ∀ t ∈ st.sleeping, Parked st.sys t := fun t ht => h.rest.parked t (.inl ht)
  refine ⟨fun t ht hidle => ?_, fun t hidle hmem => ?_, ?_, fun t ht hrun => ?_, fun t ht _ => ?_,
    fun t ht _ hsleep s hwait => ?_, fun t ht _ s s' hs hs' => ?_⟩
  · rw [hl.nodup.count]
    exact if_congr ((hl.ready t).trans ⟨fun hr => hr.2.1, fun hr => ⟨ht, hr, hidle⟩⟩) rfl rfl
  · exact ((hl.ready t).mp hmem).2.2 hidle
  · exact ⟨st.sys.current, ⟨hl.current, hl.status_current hsw⟩,
      fun t ht => ((hl.running t ht.1).mp ht.2).1⟩
  · refine ⟨hl.notMem_of_status fun hready => ?_, fun hmem => ?_, fun s hmem => ?_⟩
    · exact nomatch hrun.symm.trans hready
    · exact nomatch hrun.symm.trans (hsleeps t hmem).blocked
    · exact nomatch hrun.symm.trans ((h.sys.sync.waiting s t).mp hmem).2.2
  · exact ⟨List.nodup_iff_count_le_one.mp h.rest.nodup t,
      fun s => List.nodup_iff_count_le_one.mp (h.sys.sync.nodup s) t⟩
  · exact nomatch (hsleeps t hsleep).out.symm.trans ((h.sys.sync.waiting s t).mp hwait).2.1
  · have hdown := ((h.sys.sync.waiting s t).mp hs).2.1
    exact Option.some_inj.mp (hdown.symm.trans ((h.sys.sync.waiting s' t).mp hs').2.1)

/-- After `thread_init`, at tick 0. -/
def booted : TimedSystem := ⟨.booted, 0, 0, [], fun _ => 0, fun _ => none, [], []⟩

theorem boot_booted : booted.Boot := ⟨ThreadSystem.boot_booted, rfl, fun _ => rfl, rfl⟩

/-- `thread_create`, by a thread that is not preempted there. -/
def creates (priority : Int) : List TimedEvent :=
  .thread (.call (.create priority)) :: List.replicate 4 (.thread .next)

/-- A new thread gets the processor at once, calls something, and blocks there. -/
def createsBlocked (priority : Int) (call : TimedEvent) : List TimedEvent :=
  creates priority ++
    [.thread .schedule, call, .thread .schedule, .thread .next, .thread .schedule]

/-- `thread_start`: the idle thread ups the semaphore on which the initial thread waits. -/
def threadStart : List TimedEvent :=
  .thread (.call (.semaDown 0)) :: creates 0 ++
    [.thread .next, .thread (.call (.semaDown 0)), .thread .schedule, .thread (.call .idle),
      .thread (.call (.semaUp 0)), .thread (.call .block), .thread .schedule, .thread .next]

end TimedSystem

/-- **Thread state and list membership agree.**  Whatever the threads do and whenever the interrupts
come, if threads that sleep, that wait for an interrupt queue, and the idle thread are not unblocked
by hand, and no thread signals one of higher priority, the states of the threads and the lists agree
wherever no switch is under way. -/
theorem thread_lists_agree {st : TimedSystem}
    (hreach : timedMachine.Reach TimedSystem.Boot TimedSystem.UnblocksByHand st)
    (hsw : st.sys.switching = false) : st.ListsAgree :=
  (TimedSystem.TimedInv.of_reach hreach).listsAgree hsw

/-- A thread of priority 40 sleeps, one of priority 35 waits for a semaphore, one of priority 20 is
ready, the idle thread has started and the initial thread runs. -/
theorem thread_lists_agree_started : ∃ st : TimedSystem,
    timedMachine.Reach TimedSystem.Boot TimedSystem.UnblocksByHand st ∧ st.sys.switching = false ∧
      st.sys.idle = some 1 ∧ st.sleeping = [2] ∧ st.sys.waiters (.plain 0) = [3] ∧
      st.sys.readyList = [4] ∧ st.ListsAgree := by
  obtain ⟨st, hreach, hsw, hidle, hsleeping, hwaiters, hready⟩ :=
    timedMachine.exists_reach_along TimedSystem.boot_booted
      (TimedSystem.threadStart ++ TimedSystem.createsBlocked 40 (.sleep 5) ++
        TimedSystem.createsBlocked 35 (.thread (.call (.semaDown 0))) ++
        TimedSystem.creates 20 ++ [.thread .next])
      (fun st => st.sys.switching = false ∧ st.sys.idle = some 1 ∧ st.sleeping = [2] ∧
        st.sys.waiters (.plain 0) = [3] ∧ st.sys.readyList = [4])
      (.of_forall (TimedSystem.unblocksByHand_of_isUnblock (by decide)) _) (by decide +kernel)
  exact ⟨st, hreach, hsw, hidle, hsleeping, hwaiters, hready, thread_lists_agree hreach hsw⟩

/-- **A thread that sleeps is unblocked by hand**, and runs while it is in the sleeping list. -/
theorem runs_in_sleeping_list : ∃ st : TimedSystem,
    timedMachine.Reach TimedSystem.Boot (fun _ _ => True) st ∧ st.interruptsOn ∧
      st.sys.idle = some 1 ∧ st.sys.current = 2 ∧ st.sys.status 2 = .running ∧
      st.sleeping = [2] ∧ ¬ st.ListsAgree := by
  obtain ⟨st, hreach, hon, hidle, hcurrent, hstatus, hsleeping, hnext⟩ :=
    timedMachine.exists_reach TimedSystem.boot_booted
      (TimedSystem.threadStart ++ TimedSystem.createsBlocked 40 (.sleep 5) ++
        [.thread (.call (.unblock 2)), .thread .schedule])
      (fun st => st.interruptsOn ∧ st.sys.idle = some 1 ∧ st.sys.current = 2 ∧
        st.sys.status 2 = .running ∧ st.sleeping = [2] ∧ 2 < st.sys.nextThread) (by decide +kernel)
  refine ⟨st, hreach, hon, hidle, hcurrent, hstatus, hsleeping, fun hagree => ?_⟩
  refine (hagree.free 2 hnext hstatus).2.1 ?_
  rw [hsleeping]
  exact List.mem_singleton_self 2

end Pintos
