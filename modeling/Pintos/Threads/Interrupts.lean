import Pintos.Threads.Semaphores

/-!
# Sleep, exit and interrupts

The thread system of `Threads/System.lean` together with what `devices/timer.c` and `devices/intq.c`
add to it: threads that sleep until a tick, threads that wait for an interrupt queue, and the
interrupts that wake them.  Threads exit here.

* The timer interrupt counts the tick, wakes the threads that are due, in interrupt context, and if
  the time slice of the running thread is over, yields on the way back.
* The sleeping list is kept in order of `morning_tick`.  (`timer.c` has a pointer to a list for it,
  and takes the address of the pointer for the list; it is a list here.)
* `waiter` has the pointers `not_full` and `not_empty` of the interrupt queues, each of which is
  `waiter q` for some `q`.  A thread waits with the lock of the queue, so that no pointer is
  overwritten.
* `signal` clears the pointer after `thread_unblock`.  Where that yields to the thread it has woken,
  the pointer goes on to point at it until the thread that signals runs again (`clearing`), which
  then clears it first, with interrupts off.
* An exited thread is `THREAD_DYING` and then destroyed: the system has it for a blocked thread, and
  `dying` tells it apart.

A step that would fail an assertion is not taken.
-/

namespace Pintos

/-- The thread system with a clock. -/
structure TimedSystem where
  sys : ThreadSystem
  ticks : Int
  threadTicks : Nat
  sleeping : List Nat
  morningTick : Nat → Int
  /-- The threads that an interrupt queue is to wake. -/
  waiter : Nat → Option Nat
  /-- The threads that have still to clear a pointer. -/
  clearing : List (Nat × Nat)
  dying : List Nat

namespace TimedSystem

/-! ## The timer -/

/-- `compare_tick`. -/
def compareTick (morningTick : Nat → Int) (a b : Nat) : Bool := morningTick a < morningTick b

/-- `thread_to_sleep`. -/
def threadToSleep (st : TimedSystem) (whenToWakeup : Int) : TimedSystem :=
  let curr := st.sys.current
  let morningTick := Function.update st.morningTick curr whenToWakeup
  { st with
    morningTick := morningTick
    sleeping := listInsertOrdered (compareTick morningTick) curr st.sleeping
    sys := st.sys.threadBlock }

/-- `timer_sleep`. -/
def timerSleep (st : TimedSystem) (ticks : Int) : TimedSystem := st.threadToSleep (st.ticks + ticks)

/-- The loop of `thread_to_wakeup`, over what is left of the sleeping list. -/
def wakeLoop : List Nat → TimedSystem → Option TimedSystem
  | [], st => some st
  | t :: rest, st =>
    if st.ticks ≥ st.morningTick t then
      (st.sys.threadUnblock t true).bind fun sys =>
        wakeLoop rest { st with sys := sys, sleeping := rest }
    else some st

/-- `TIME_SLICE`. -/
def timeSlice : Nat := 4

/-- The timer interrupt: `timer_interrupt`, and what `intr_handler` does after it. -/
def timerInterrupt (st : TimedSystem) : Option TimedSystem :=
  let st := { st with ticks := st.ticks + 1, threadTicks := st.threadTicks + 1 }
  (wakeLoop st.sleeping st).map fun st =>
    if st.threadTicks ≥ timeSlice then { st with sys := st.sys.threadYield } else st

/-! ## Interrupt queues and exit -/

/-- `wait` of an interrupt queue. -/
def intqWait (st : TimedSystem) (q : Nat) : Option TimedSystem :=
  if st.waiter q = none then
    some { st with
      waiter := Function.update st.waiter q (some st.sys.current)
      sys := st.sys.threadBlock }
  else none

/-- `signal` of an interrupt queue. -/
def intqSignal (st : TimedSystem) (q : Nat) (intrContext : Bool) : Option TimedSystem :=
  match st.waiter q with
  | none => some st
  | some t => (st.sys.threadUnblock t intrContext).map fun sys =>
      if sys.switching then { st with sys := sys, clearing := (st.sys.current, q) :: st.clearing }
      else { st with sys := sys, waiter := Function.update st.waiter q none }

/-- What a thread does first that comes back from `thread_unblock` in `signal`. -/
def clearWaiters (st : TimedSystem) (t : Nat) : TimedSystem :=
  { st with
    waiter := fun q => if (t, q) ∈ st.clearing then none else st.waiter q
    clearing := st.clearing.filter (·.1 ≠ t) }

/-- `thread_exit`, up to the pick. -/
def threadExit (st : TimedSystem) : TimedSystem :=
  { st with dying := st.sys.current :: st.dying, sys := st.sys.threadBlock }

end TimedSystem

/-! ## The machine -/

/-- What happens next. -/
inductive TimedEvent
  /-- A step of the thread system, apart from its interrupts that wake a thread. -/
  | thread (tick : Tick)
  /-- The current thread calls `timer_sleep`. -/
  | sleep (ticks : Int)
  /-- It calls `thread_exit`. -/
  | exit
  /-- It waits for an interrupt queue. -/
  | wait (q : Nat)
  /-- It signals a thread that waits for an interrupt queue. -/
  | signal (q : Nat)
  /-- A timer interrupt. -/
  | timer
  /-- An interrupt whose handler signals a thread that waits for an interrupt queue. -/
  | intq (q : Nat)
deriving DecidableEq

namespace TimedSystem

/-- The current thread can make a call: it is in none, and it is not the idle thread. -/
def canCall (st : TimedSystem) : Prop := st.sys.todo = [] ∧ st.sys.idle ≠ some st.sys.current

instance (st : TimedSystem) : Decidable st.canCall := inferInstanceAs (Decidable (_ ∧ _))

/-- Interrupts are on. -/
def interruptsOn (st : TimedSystem) : Prop :=
  st.sys.switching = false ∧ st.sys.inSemaDown st.sys.current = false

instance (st : TimedSystem) : Decidable st.interruptsOn := inferInstanceAs (Decidable (_ ∧ _))

/-- A step of the thread system.  A thread that has been destroyed cannot be unblocked, and the
handlers that wake threads are steps of their own. -/
def threadStep (st : TimedSystem) (tick : Tick) : Option (Option Nat × TimedSystem) :=
  match tick with
  | .preempt | .wake _ => none
  | .schedule => (threadMachine.step st.sys .schedule).map fun r =>
      -- `schedule_tail` starts a new time slice
      (r.1, { st with sys := r.2, threadTicks := 0 }.clearWaiters r.2.current)
  | .call (.unblock t) =>
    if t ∈ st.dying then none
    else (threadMachine.step st.sys (.call (.unblock t))).map fun r => (r.1, { st with sys := r.2 })
  | tick => (threadMachine.step st.sys tick).map fun r => (r.1, { st with sys := r.2 })

/-- A call of the current thread. -/
def callStep (st : TimedSystem) (st' : Option TimedSystem) : Option (Option Nat × TimedSystem) :=
  if st.sys.switching = false ∧ st.canCall then st'.map (none, ·) else none

/-- An interrupt. -/
def interruptStep (st : TimedSystem) (st' : Option TimedSystem) :
    Option (Option Nat × TimedSystem) :=
  if st.interruptsOn then st'.map (none, ·) else none

end TimedSystem

/-- The thread system with a clock.  The output is the thread that `schedule` picks. -/
def timedMachine : Machine TimedSystem TimedEvent (Option Nat) where
  step st
    | .thread tick => st.threadStep tick
    | .sleep ticks => st.callStep (st.timerSleep ticks)
    | .exit => st.callStep st.threadExit
    | .wait q => st.callStep (st.intqWait q)
    | .signal q => st.callStep (st.intqSignal q false)
    | .timer => st.interruptStep st.timerInterrupt
    | .intq q => st.interruptStep (st.intqSignal q true)

/-- After `thread_init`. -/
structure TimedSystem.Boot (st : TimedSystem) : Prop where
  sys : st.sys.Boot
  sleeping : st.sleeping = []
  waiter : ∀ q, st.waiter q = none
  dying : st.dying = []

/-- A thread that is unblocked by hand has called `thread_block` by hand: it is not asleep, it does
not wait for an interrupt queue, and it is not the idle thread.  A thread that signals has no lower
priority than the one that waits. -/
def TimedSystem.UnblocksByHand (st : TimedSystem) : TimedEvent → Prop
  | .thread (.call (.unblock t)) =>
    t ∉ st.sleeping ∧ (∀ q, st.waiter q ≠ some t) ∧ st.sys.idle ≠ some t
  | .signal q => ∀ t, st.waiter q = some t → st.sys.priority t ≤ st.sys.priority st.sys.current
  | _ => True

/-- A thread unblocks another one itself. -/
def TimedEvent.isUnblock : TimedEvent → Bool
  | .thread (.call (.unblock _)) | .signal _ => true
  | _ => false

theorem TimedSystem.unblocksByHand_of_isUnblock {es : List TimedEvent}
    (h : es.all (!·.isUnblock)) : ∀ e ∈ es, ∀ st : TimedSystem, st.UnblocksByHand e := by
  intro e he st
  have hnot : (!e.isUnblock) = true := List.all_eq_true.mp h e he
  unfold UnblocksByHand
  split
  next => cases hnot
  next => cases hnot
  next => trivial

end Pintos
