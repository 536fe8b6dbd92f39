import Pintos.Threads.ThreadLists

/-!
# Wake-ups in interrupt handlers

Three handlers wake threads: that of the timer those that have slept long enough, that of the disk
one of those that wait for its semaphore, and that of a device with an interrupt queue the one that
waits for the queue.  All of them do so by `thread_unblock`, which yields to a thread of higher
priority than the running one, unless that is the idle thread.  `thread_yield` asserts that it is
not called in an external interrupt.

* `Interrupt` and `TimedSystem.due`: the interrupts, and whom they are for.
* `wakeLoop_isSome`, `semaUp_isSome`, `intqSignal_isSome`: when each handler completes.
* `handler_completes_iff`: a handler completes exactly if nobody it is for outranks the running
  thread, or the idle thread runs.
* `sleepers_wake_on_time`: the timer wakes a thread at its tick, and nothing else does.
-/

namespace Pintos

/-- An external interrupt whose handler may wake a thread. -/
inductive Interrupt
  /-- A timer tick. -/
  | timer
  /-- The completion of a disk request, by the semaphore that the handler ups. -/
  | disk (s : Nat)
  /-- A device with an interrupt queue. -/
  | intq (q : Nat)
deriving DecidableEq

/-- The step of the interrupt. -/
def Interrupt.event : Interrupt → TimedEvent
  | .timer => .timer
  | .disk s => .thread (.interruptUp s)
  | .intq q => .intq q

namespace ThreadSystem

variable {st : ThreadSystem} {t : Nat}

/-- A thread of this priority would not take the processor from the running thread. -/
def Defers (st : ThreadSystem) (t : Nat) : Prop :=
  some st.current = st.idle ∨ st.priority t ≤ st.priority st.current

theorem threadUnblock_isSome (hlt : t < st.nextThread) (hblocked : st.status t = .blocked) :
    (st.threadUnblock t true).isSome ↔ st.Defers t := by
  rw [Option.isSome_iff_exists]
  constructor
  · rintro ⟨st', hst⟩
    exact (threadUnblock_true.mp hst).2.1
  · intro hdefers
    exact ⟨st.makeReady t, threadUnblock_true.mpr ⟨⟨hlt, hblocked⟩, hdefers, rfl⟩⟩

theorem defers_makeReady (u : Nat) : (st.makeReady t).Defers u ↔ st.Defers u := by
  rw [Defers, priority_makeReady, priority_makeReady]
  rfl

/-- **`sema_up` in a handler.**  It wakes a thread of highest priority. -/
theorem semaUp_isSome (h : SysInv st) (s : SemaId) :
    (st.semaUp s true).isSome ↔ ∀ t ∈ st.waiters s, st.Defers t := by
  have hperm := listSort_perm st.comparePriority (st.waiters s)
  have hfalling : Falling st.priority (listSort st.comparePriority (st.waiters s)) :=
    falling_listSort (fun a b => by rw [comparePriority, decide_eq_true_iff]) _
  simp only [semaUp]
  split
  next hsort =>
    rw [show listSort st.comparePriority (st.waiters s) = [] from hsort] at hperm
    rw [← hperm.nil_eq]
    exact iff_of_true rfl (List.forall_mem_nil _)
  next t rest hsort =>
    rw [show listSort st.comparePriority (st.waiters s) = t :: rest from hsort] at hperm hfalling
    obtain ⟨hlt, -, hblocked⟩ := (h.sync.waiting s t).mp (hperm.mem_iff.mp (.head _))
    refine Iff.trans (b := st.Defers t) (threadUnblock_isSome hlt hblocked)
      ⟨fun hdefers u hu => ?_, fun hall => hall t (hperm.mem_iff.mp (.head _))⟩
    -- the others have no higher priority than the one that is woken
    rcases List.mem_cons.mp (hperm.mem_iff.mpr hu) with rfl | hrest
    · exact hdefers
    · exact hdefers.imp_right ((List.pairwise_cons.mp hfalling).1 u hrest).trans

end ThreadSystem

namespace TimedSystem

variable {st : TimedSystem}

/-- Whom an interrupt is for: the threads that have slept long enough, those that wait for the
semaphore, or the one that waits for the queue. -/
def due (st : TimedSystem) : Interrupt → List Nat
  | .timer => st.sleeping.filter fun t => st.morningTick t ≤ st.ticks + 1
  | .disk s => st.sys.waiters (.plain s)
  | .intq q => (st.waiter q).toList

/-- **`thread_to_wakeup`** stops at the first thread that is not due, and nobody behind it is. -/
theorem wakeLoop_isSome {l : List Nat} : ∀ {st : TimedSystem}, TimedInv st →
    st.sys.switching = false → st.sleeping = l → ((wakeLoop l st).isSome ↔
      ∀ t ∈ l.filter fun t => st.morningTick t ≤ st.ticks, st.sys.Defers t) := by
  induction l with
  | nil => exact fun _ _ _ => iff_of_true rfl (List.forall_mem_nil _)
  | cons t rest ih =>
    intro st h hsw hsleep
    have hmem : t ∈ st.sleeping := hsleep ▸ .head _
    have hparked := h.rest.parked t (.inl hmem)
    rw [wakeLoop]
    split
    next hdue =>
      rw [List.filter_cons, if_pos (decide_eq_true hdue), List.forall_mem_cons]
      have hfirst := ThreadSystem.threadUnblock_isSome hparked.known hparked.blocked
      cases hunblock : st.sys.threadUnblock t true with
      | none =>
        rw [hunblock] at hfirst
        exact iff_of_false Bool.false_ne_true fun hall => by cases hfirst.mpr hall.1
      | some sys =>
        rw [hunblock] at hfirst
        have hready : sys = st.sys.makeReady t := (ThreadSystem.threadUnblock_true.mp hunblock).2.2
        subst hready
        rw [and_iff_right (hfirst.mp rfl)]
        refine (ih (h.wakeFirst hsw hsleep hunblock) hsw rfl).trans ?_
        exact forall₂_congr fun u _ => ThreadSystem.defers_makeReady u
    next hnot =>
      have hsorted : (t :: rest).Pairwise fun a b => st.morningTick a ≤ st.morningTick b :=
        hsleep ▸ h.rest.sorted
      refine iff_of_true rfl fun u hu => ?_
      obtain ⟨hu, hdue⟩ := List.mem_filter.mp hu
      have hle := of_decide_eq_true hdue
      rcases List.mem_cons.mp hu with rfl | hrest
      · exact absurd hle hnot
      · exact absurd (Int.le_trans ((List.pairwise_cons.mp hsorted).1 u hrest) hle) hnot

/-- **The timer interrupt.** -/
theorem timerInterrupt_isSome (h : TimedInv st) (hsw : st.sys.switching = false) :
    st.timerInterrupt.isSome ↔ ∀ t ∈ st.due .timer, st.sys.Defers t := by
  have hticked : TimedInv { st with ticks := st.ticks + 1, threadTicks := st.threadTicks + 1 } :=
    h.of_sys h.sys h.rest.parked
  rw [timerInterrupt, Option.isSome_map]
  exact wakeLoop_isSome hticked hsw rfl

/-- **`signal` in a handler.** -/
theorem intqSignal_isSome (h : TimedInv st) (q : Nat) :
    (st.intqSignal q true).isSome ↔ ∀ t ∈ st.due (.intq q), st.sys.Defers t := by
  rw [intqSignal, due]
  cases hq : st.waiter q with
  | none => exact iff_of_true rfl (List.forall_mem_nil _)
  | some t =>
    have hparked := h.rest.parked t (.inr (.inl ⟨q, hq⟩))
    rw [Option.toList_some, List.forall_mem_singleton]
    rw [Option.isSome_map]
    exact ThreadSystem.threadUnblock_isSome hparked.known hparked.blocked

end TimedSystem

/-- **A handler completes exactly if nobody it is for outranks the running thread**, or the idle
thread runs. -/
theorem handler_completes_iff {st : TimedSystem}
    (hreach : timedMachine.Reach TimedSystem.Boot TimedSystem.UnblocksByHand st)
    (hon : st.interruptsOn) (i : Interrupt) :
    (timedMachine.step st i.event).isSome ↔
      some st.sys.current = st.sys.idle ∨
        ∀ t ∈ st.due i, st.sys.priority t ≤ st.sys.priority st.sys.current := by
  have h := TimedSystem.TimedInv.of_reach hreach
  have hall : (∀ t ∈ st.due i, st.sys.Defers t) ↔ some st.sys.current = st.sys.idle ∨
      ∀ t ∈ st.due i, st.sys.priority t ≤ st.sys.priority st.sys.current := by
    simp only [ThreadSystem.Defers, forall_or_left]
  rw [← hall]
  cases i with
  | timer =>
    refine Iff.trans ?_ (TimedSystem.timerInterrupt_isSome h hon.1)
    show (st.interruptStep st.timerInterrupt).isSome ↔ _
    rw [TimedSystem.interruptStep, if_pos hon, Option.isSome_map]
  | disk s =>
    refine Iff.trans ?_ (ThreadSystem.semaUp_isSome h.sys (.plain s))
    show ((threadMachine.step st.sys (.interruptUp s)).map _).isSome ↔ _
    simp only [threadMachine, hon.1, hon.2, Bool.false_eq_true, if_false, Option.isSome_map]
  | intq q =>
    refine Iff.trans ?_ (TimedSystem.intqSignal_isSome h q)
    show (st.interruptStep (st.intqSignal q true)).isSome ↔ _
    rw [TimedSystem.interruptStep, if_pos hon, Option.isSome_map]

/-- A thread of priority 40 sleeps for five ticks, and the first tick wakes nobody. -/
theorem handler_completes_iff_first_tick : ∃ st : TimedSystem,
    timedMachine.Reach TimedSystem.Boot TimedSystem.UnblocksByHand st ∧ st.interruptsOn ∧
      st.sleeping = [2] ∧ (timedMachine.step st Interrupt.timer.event).isSome := by
  obtain ⟨st, hreach, hon, hsleeping, hdue⟩ := timedMachine.exists_reach_along
    TimedSystem.boot_booted (TimedSystem.threadStart ++ TimedSystem.createsBlocked 40 (.sleep 5))
    (fun st => st.interruptsOn ∧ st.sleeping = [2] ∧ st.due .timer = [])
    (.of_forall (TimedSystem.unblocksByHand_of_isUnblock (by decide)) _) (by decide +kernel)
  refine ⟨st, hreach, hon, hsleeping, (handler_completes_iff hreach hon .timer).mpr (.inr ?_)⟩
  rw [hdue]
  nofun

/-- **A handler yields.**  A thread of priority 40 sleeps for one tick.  The tick comes while the
initial thread runs, whose priority is 31: the handler cannot wake the thread. -/
theorem timer_wakes_higher : ∃ st : TimedSystem,
    timedMachine.Reach TimedSystem.Boot TimedSystem.UnblocksByHand st ∧ st.interruptsOn ∧
      st.sys.idle = some 1 ∧ st.sys.current = 0 ∧ st.due .timer = [2] ∧
      st.sys.status 2 = .blocked ∧ st.sys.priority 0 = 31 ∧ st.sys.priority 2 = 40 ∧
      timedMachine.step st .timer = none := by
  obtain ⟨st, hreach, hon, hidle, hcurrent, hdue, hstatus, hmain, hsleeper, hstep⟩ :=
    timedMachine.exists_reach_along TimedSystem.boot_booted
      (TimedSystem.threadStart ++ TimedSystem.createsBlocked 40 (.sleep 1))
      (fun st => st.interruptsOn ∧ st.sys.idle = some 1 ∧ st.sys.current = 0 ∧
        st.due .timer = [2] ∧ st.sys.status 2 = .blocked ∧ st.sys.priority 0 = 31 ∧
        st.sys.priority 2 = 40 ∧ (timedMachine.step st .timer).isNone)
      (.of_forall (TimedSystem.unblocksByHand_of_isUnblock (by decide)) _) (by decide +kernel)
  exact ⟨st, hreach, hon, hidle, hcurrent, hdue, hstatus, hmain, hsleeper,
    Option.isNone_iff_eq_none.mp hstep⟩

/-! ## Sleepers -/

namespace TimedSystem

/-- **`thread_to_wakeup`** takes the threads that are due off the sleeping list and makes them
ready.  Behind the first one that is not, none is. -/
theorem wakeLoop_sleeping {l : List Nat} : ∀ {st st' : TimedSystem}, wakeLoop l st = some st' →
    st.sleeping = l → (l.Pairwise fun a b => st.morningTick a ≤ st.morningTick b) →
    st'.sleeping = l.filter (st.ticks < st.morningTick ·) ∧ st'.morningTick = st.morningTick ∧
      ∀ t, t ∈ st.sys.readyList ∨ t ∈ l ∧ st.morningTick t ≤ st.ticks → t ∈ st'.sys.readyList := by
  induction l with
  | nil =>
    intro st st' hst hsleep _
    cases hst
    exact ⟨hsleep, rfl, by simp⟩
  | cons t rest ih =>
    intro st st' hst hsleep hsorted
    obtain ⟨hhead, htail⟩ := List.pairwise_cons.mp hsorted
    rw [wakeLoop] at hst
    split at hst
    next hdue =>
      obtain ⟨sys, hunblock, hst⟩ := Option.bind_eq_some_iff.mp hst
      obtain ⟨-, -, rfl⟩ := ThreadSystem.threadUnblock_true.mp hunblock
      obtain ⟨hrest, hmorning, hready⟩ := ih hst rfl htail
      simp only [ThreadSystem.makeReady, mem_listInsertOrdered] at hready
      grind
    next hnot =>
      cases hst
      grind [List.filter_eq_self]

/-- **Sleepers wake on time.**  A timer interrupt whose tick is the `morning_tick` of a thread that
sleeps, or a later one, makes the thread ready.  In any other step it sleeps on, until the same
tick. -/
theorem sleepers_wake_on_time {st st' : TimedSystem} {t : Nat} {picked : Option Nat}
    (hreach : timedMachine.Reach Boot UnblocksByHand st) {e : TimedEvent}
    (hstep : timedMachine.step st e = some (picked, st')) (ht : t ∈ st.sleeping) :
    if e = .timer ∧ st.morningTick t ≤ st.ticks + 1 then t ∉ st'.sleeping ∧ t ∈ st'.sys.readyList
    else t ∈ st'.sleeping ∧ st'.morningTick t = st.morningTick t := by
  have h := TimedInv.of_reach hreach
  cases e with
  | timer =>
    obtain ⟨-, hst⟩ := interruptStep_eq_some hstep
    obtain ⟨st1, hloop, heq⟩ := Option.map_eq_some_iff.mp hst
    have hwoken := wakeLoop_sleeping hloop rfl h.rest.sorted
    have hyield : ∀ u ∈ st1.sys.readyList, u ∈ st1.sys.threadYield.readyList := fun u hu => by
      rw [ThreadSystem.threadYield]
      split
      next => exact hu
      next => exact mem_listInsertOrdered.mpr (.inr hu)
    grind
  | sleep ticks =>
    obtain ⟨⟨hsw, -⟩, heq⟩ := callStep_eq_some hstep
    cases heq
    refine ⟨mem_listInsertOrdered.mpr (.inr ht), Function.update_of_ne ?_ ..⟩
    rintro rfl
    exact h.current_not_rests hsw (.inl ht)
  | _ =>
    -- the other steps leave the sleeping list alone
    simp only [timedMachine, threadStep, callStep, interruptStep, intqWait, intqSignal, threadExit,
      clearWaiters] at hstep
    grind [Option.map_eq_some_iff]

/-- The initial thread sleeps for one tick, which comes while the idle thread runs. -/
theorem sleepers_wake_on_time_idle : ∃ (st st' : TimedSystem) (picked : Option Nat),
    timedMachine.step st .timer = some (picked, st') ∧ st.sleeping = [0] ∧ 0 ∉ st'.sleeping ∧
      0 ∈ st'.sys.readyList := by
  obtain ⟨st, hreach, hsleeping, hdue, hstep⟩ := timedMachine.exists_reach_along
    boot_booted (threadStart ++ [.sleep 1, .thread .schedule])
    (fun st => st.sleeping = [0] ∧ st.morningTick 0 ≤ st.ticks + 1 ∧
      (timedMachine.step st .timer).isSome)
    (.of_forall (unblocksByHand_of_isUnblock (by decide)) _) (by decide +kernel)
  obtain ⟨⟨picked, st'⟩, hst⟩ := Option.isSome_iff_exists.mp hstep
  have hwoken := sleepers_wake_on_time (t := 0) hreach hst (hsleeping ▸ .head _)
  rw [if_pos ⟨rfl, hdue⟩] at hwoken
  exact ⟨st, st', picked, hst, hsleeping, hwoken⟩

end TimedSystem

end Pintos
