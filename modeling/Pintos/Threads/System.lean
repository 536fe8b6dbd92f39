import Mathlib.Algebra.Ring.Nat
import Pintos.Kernel.List
import Pintos.Lib.Machine

/-!
# The thread system

The threads, semaphores, locks and condition variables of `threads/thread.c` and `threads/synch.c`,
with priority donation, as a machine whose states are those at which another thread can get the
processor or at which `schedule` is about to pick the next one.

* A `Thread` has the fields that the scheduler and the locks read.  Its `todo` is what is left of
  the calls it is in: a thread that `sema_down` has blocked tests the value again when it runs
  again, and between the two halves of `lock_release`, where interrupts are on, another thread can
  run.
* `ThreadSystem.switching` marks the states in which `schedule` has been called.  Its pick,
  `next_thread_to_run`, is a step of its own, and the thread that it returns is the output.
* `donate_priority` follows at most eight locks, from the thread that is about to block to the
  holder it waits for, and raises each holder on the way.  It leaves the ready list as it is.
* `potential_donator` is kept in order by `compare_priority`, which takes its elements for the
  `elem` of a thread.  They are the `donation_elem`s, so what it compares is not the priorities but
  the `waiting_lock`s, which stand where the `priority` would be.  A lock is its address here.
* `initial`, `ups`, `downs` and `inside` are histories, which no step reads: what each semaphore was
  initialised to, how many operations on it have completed since, and which threads are between the
  completion of an acquire of a lock and that of its release.

A step that would fail an assertion is not taken.  A thread may be unblocked by hand only if it is
not in `sema_down`, where it belongs to the semaphore.  Threads do not exit here.
-/

namespace Pintos

open Function (update)

/-! ## States -/

/-- `enum thread_status`, without the threads that are about to be destroyed. -/
inductive ThreadStatus
  | running | ready | blocked
deriving DecidableEq, Repr

/-- A semaphore: one that stands by itself, the one in a lock, or the one that a thread has on its
stack in `cond_wait`. -/
inductive SemaId
  | plain (s : Nat)
  | ofLock (l : Nat)
  | waiter (t : Nat)
deriving DecidableEq, Repr

/-- What a thread has still to do in the calls it is in. -/
inductive Frame
  /-- `lock_acquire`. -/
  | acquire (l : Nat)
  /-- `sema_down`. -/
  | callDown (s : SemaId)
  /-- The loop of `sema_down`, and the store to `holder` if it is in `lock_acquire`. -/
  | down (s : SemaId) (lock : Option Nat)
  /-- `sema_up`. -/
  | up (s : SemaId)
  /-- `cond_broadcast`. -/
  | broadcast (c l : Nat)
  /-- `lock_release`. -/
  | release (l : Nat)
  /-- `lock_release`, once it has cleared `holder`. -/
  | releaseRest (l : Nat)
  /-- `thread_create`, once it has a thread identifier. -/
  | create (priority : Int)
  /-- `thread_create`, after `thread_unblock`. -/
  | createCheck (priority : Int)
deriving DecidableEq, Repr

/-- `struct thread`. -/
structure Thread where
  /-- The priority it runs at, which may be donated. -/
  priority : Int
  originPriority : Int
  status : ThreadStatus
  /-- The lock it waits for, or waited for last. -/
  waitingLock : Option Nat
  /-- The threads that wait for a lock it holds. -/
  potentialDonator : List Nat
  /-- What is left of the calls it is in. -/
  todo : List Frame

/-- The thread system. -/
structure ThreadSystem where
  thread : Nat → Thread
  /-- The number of threads created so far, and so the next one. -/
  nextThread : Nat
  readyList : List Nat
  /-- The thread that has the processor. -/
  current : Nat
  /-- `idle_thread`, which is null until that thread has run. -/
  idle : Option Nat
  /-- `schedule` has been called and has not picked a thread yet. -/
  switching : Bool
  value : SemaId → Nat
  /-- The threads that wait for a semaphore. -/
  waiters : SemaId → List Nat
  holder : Nat → Option Nat
  /-- The threads that wait for a condition, each of which has a semaphore of its own. -/
  condWaiters : Nat → List Nat
  tidLock : Nat
  /-- History: what each semaphore was initialised to. -/
  initial : SemaId → Nat
  /-- History: how often it has been upped since. -/
  ups : SemaId → Nat
  /-- History: how often it has been downed since. -/
  downs : SemaId → Nat
  /-- History: the threads between a completed acquire of a lock and its release. -/
  inside : Nat → List Nat

namespace ThreadSystem

/-- The priority a thread runs at. -/
abbrev priority (st : ThreadSystem) (t : Nat) : Int := (st.thread t).priority

/-- The state of a thread. -/
abbrev status (st : ThreadSystem) (t : Nat) : ThreadStatus := (st.thread t).status

/-- Change a thread. -/
def modify (st : ThreadSystem) (t : Nat) (f : Thread → Thread) : ThreadSystem :=
  { st with thread := update st.thread t (f (st.thread t)) }

/-- The current thread has something more to do, before what it was about to do. -/
def push (st : ThreadSystem) (frames : List Frame) : ThreadSystem :=
  st.modify st.current fun t => { t with todo := frames ++ t.todo }

/-! ## The ready list -/

/-- `priority_compare_two_thread`. -/
def comparePriority (st : ThreadSystem) (a b : Nat) : Bool := st.priority a > st.priority b

/-- Insert a thread into the ready list, and mark it ready. -/
def makeReady (st : ThreadSystem) (t : Nat) : ThreadSystem :=
  { st.modify t fun th => { th with status := .ready } with
    readyList := listInsertOrdered st.comparePriority t st.readyList }

/-- `thread_yield`, up to the pick. -/
def threadYield (st : ThreadSystem) : ThreadSystem :=
  if some st.current = st.idle then
    { st.modify st.current fun t => { t with status := .ready } with switching := true }
  else { st.makeReady st.current with switching := true }

/-- `thread_block`, up to the pick. -/
def threadBlock (st : ThreadSystem) : ThreadSystem :=
  { st.modify st.current fun t => { t with status := .blocked } with switching := true }

/-- `thread_unblock`, of a thread that exists and is blocked.  It yields to a thread of higher
priority, which it cannot do in an external interrupt. -/
def threadUnblock (st : ThreadSystem) (t : Nat) (intrContext : Bool) : Option ThreadSystem :=
  if t < st.nextThread ∧ st.status t = .blocked then
    let st' := st.makeReady t
    if some st'.current ≠ st'.idle ∧ st'.priority t > st'.priority st'.current then
      if intrContext then none else some st'.threadYield
    else some st'
  else none

/-- `next_thread_to_run`, and the ready list it leaves. -/
def nextThreadToRun (st : ThreadSystem) : Option (Nat × List Nat) :=
  match st.readyList with
  | [] => st.idle.map fun t => (t, [])
  | t :: rest => some (t, rest)

/-- `schedule` and `schedule_tail`. -/
def schedule (st : ThreadSystem) : Option (Nat × ThreadSystem) :=
  st.nextThreadToRun.map fun (next, rest) =>
    (next, { st.modify next fun t => { t with status := .running } with
      readyList := rest, current := next, switching := false })

/-! ## Donation -/

/-- The loop of `donate_priority`. -/
def donateLoop : Nat → ThreadSystem → Nat → ThreadSystem
  | 0, st, _ => st
  | depth + 1, st, curr =>
    match (st.thread curr).waitingLock.bind st.holder with
    | none => st
    | some holder =>
      if st.priority curr > st.priority holder then
        donateLoop depth (st.modify holder fun t => { t with priority := st.priority curr }) holder
      else st

/-- `donate_priority`. -/
def donatePriority (st : ThreadSystem) : ThreadSystem := donateLoop 8 st st.current

/-- The `waiting_lock` of a thread, as `compare_priority` reads it from a `donation_elem`. -/
def waitingLockAsInt (st : ThreadSystem) (t : Nat) : Int :=
  match (st.thread t).waitingLock with
  | none => 0
  | some l => Int.bmod l (2 ^ 32)

/-- `compare_priority` on two `donation_elem`s. -/
def compareDonation (st : ThreadSystem) (a b : Nat) : Bool :=
  st.waitingLockAsInt a > st.waitingLockAsInt b

/-- `restore_priority`. -/
def restorePriority (st : ThreadSystem) (l : Nat) : ThreadSystem :=
  let curr := st.thread st.current
  let sorted := listSort st.compareDonation curr.potentialDonator
  let kept := sorted.filter fun t => (st.thread t).waitingLock ≠ some l
  let donators := listSort st.compareDonation kept
  let restored := curr.originPriority
  st.modify st.current fun t => { t with
    potentialDonator := donators
    priority := match donators.head? with
      | none => restored
      | some d =>
        -- The thread's own priority has been restored by now, should it be its own donator.
        let donated := if d = st.current then restored else st.priority d
        if donated > restored then donated else restored }

/-! ## Semaphores and locks -/

/-- `sema_init`. -/
def semaInit (st : ThreadSystem) (s : SemaId) (value : Nat) : ThreadSystem :=
  { st with
    value := update st.value s value
    waiters := update st.waiters s []
    initial := update st.initial s value
    ups := update st.ups s 0
    downs := update st.downs s 0 }

/-- The value of a semaphore, which is not 0, goes down. -/
def semaTake (st : ThreadSystem) (s : SemaId) : ThreadSystem :=
  { st with
    value := update st.value s (st.value s - 1)
    downs := update st.downs s (st.downs s + 1) }

/-- The current thread becomes the holder of a lock. -/
def setHolder (st : ThreadSystem) (l : Nat) : ThreadSystem :=
  { st with
    holder := update st.holder l (some st.current)
    inside := update st.inside l (st.current :: st.inside l) }

/-- The loop of `sema_down`, and the rest of `lock_acquire` if it is called there. -/
def semaDown (st : ThreadSystem) (s : SemaId) (lock : Option Nat) : ThreadSystem :=
  if st.value s = 0 then
    let st := st.donatePriority
    ({ st with waiters := update st.waiters s (st.waiters s ++ [st.current]) }.push
      [.down s lock]).threadBlock
  else
    match lock with
    | none => st.semaTake s
    | some l => (st.semaTake s).setHolder l

/-- `sema_up`.  The value is unsigned. -/
def semaUp (st : ThreadSystem) (s : SemaId) (intrContext : Bool) : Option ThreadSystem :=
  let st := { st with
    value := update st.value s ((st.value s + 1) % 2 ^ 32)
    ups := update st.ups s (st.ups s + 1) }
  match listSort st.comparePriority (st.waiters s) with
  | [] => some st
  | mostPriority :: rest =>
    { st with waiters := update st.waiters s rest }.threadUnblock mostPriority intrContext

/-- `sema_try_down`. -/
def semaTryDown (st : ThreadSystem) (s : SemaId) : ThreadSystem :=
  if st.value s > 0 then st.semaTake s else st

/-- `lock_acquire`, before `sema_down`: the thread enrols with the holder. -/
def enrol (st : ThreadSystem) (l : Nat) : ThreadSystem :=
  match st.holder l with
  | none => st
  | some holder =>
    let st := st.modify st.current fun t => { t with waitingLock := some l }
    st.modify holder fun t => { t with
      potentialDonator := listInsertOrdered st.compareDonation st.current t.potentialDonator }

/-- `lock_acquire`. -/
def lockAcquire (st : ThreadSystem) (l : Nat) : Option ThreadSystem :=
  if st.holder l = some st.current then none else some ((st.enrol l).semaDown (.ofLock l) (some l))

/-- `lock_try_acquire`. -/
def lockTryAcquire (st : ThreadSystem) (l : Nat) : Option ThreadSystem :=
  if st.holder l = some st.current then none
  else if st.value (.ofLock l) > 0 then
    let st := (st.semaTryDown (.ofLock l)).modify st.current fun t => { t with waitingLock := none }
    some (st.setHolder l)
  else some st

/-- `lock_release`, up to the point where it turns interrupts off. -/
def lockRelease (st : ThreadSystem) (l : Nat) : Option ThreadSystem :=
  if st.holder l = some st.current then
    some ({ st with holder := update st.holder l none }.push [.releaseRest l])
  else none

/-- The rest of `lock_release`. -/
def lockReleaseRest (st : ThreadSystem) (l : Nat) : Option ThreadSystem :=
  let st := st.restorePriority l
  { st with inside := update st.inside l ((st.inside l).erase st.current) }.semaUp
    (.ofLock l) false

/-! ## Condition variables -/

/-- `cond_wait`, up to the call of `lock_release`. -/
def condWait (st : ThreadSystem) (c l : Nat) : Option ThreadSystem :=
  if st.holder l = some st.current then
    let st := st.semaInit (.waiter st.current) 0
    some ({ st with
      condWaiters := update st.condWaiters c (st.condWaiters c ++ [st.current]) }.push
      [.release l, .callDown (.waiter st.current), .acquire l])
  else none

/-- The priority that `compare_sema_priority` reads for the semaphore of a thread: that of the first
thread that waits for it. -/
def semaPriority (st : ThreadSystem) (t : Nat) : Int :=
  match st.waiters (.waiter t) with
  | [] => 0
  | w :: _ => st.priority w

/-- `compare_sema_priority`. -/
def compareSemaPriority (st : ThreadSystem) (a b : Nat) : Bool :=
  st.semaPriority a > st.semaPriority b

/-- `cond_signal`, up to the call of `sema_up`.  Where it compares, a semaphore that nobody waits
for yet fails an assertion.  All of it is one step here; `list_sort` runs with interrupts on, and
the thread may be switched out in the middle of it. -/
def condSignal (st : ThreadSystem) (c l : Nat) : Option ThreadSystem :=
  if st.holder l = some st.current then
    if 2 ≤ (st.condWaiters c).length ∧ ∃ t ∈ st.condWaiters c, st.waiters (.waiter t) = [] then none
    else
      match listSort st.compareSemaPriority (st.condWaiters c) with
      | [] => some st
      | t :: rest =>
        some ({ st with condWaiters := update st.condWaiters c rest }.push
          [.up (.waiter t)])
  else none

/-- The loop of `cond_broadcast`. -/
def condBroadcast (st : ThreadSystem) (c l : Nat) : Option ThreadSystem :=
  if st.condWaiters c = [] then some st else (st.push [.broadcast c l]).condSignal c l

/-! ## Threads -/

/-- `init_thread`. -/
def initThread (priority : Int) : Thread :=
  ⟨priority, priority, .blocked, none, [], []⟩

/-- `thread_create`, once it has a thread identifier: the new thread is unblocked. -/
def threadCreate (st : ThreadSystem) (priority : Int) : Option ThreadSystem :=
  let t := st.nextThread
  ({ st.modify t fun _ => initThread priority with nextThread := t + 1 }.push
    [.createCheck priority]).threadUnblock t false

/-- `thread_set_priority`. -/
def threadSetPriority (st : ThreadSystem) (newPriority : Int) : ThreadSystem :=
  if (st.thread st.current).priority ≠ (st.thread st.current).originPriority then
    st.modify st.current fun t => { t with originPriority := newPriority }
  else
    let st := st.modify st.current fun t =>
      { t with priority := newPriority, originPriority := newPriority }
    match st.readyList with
    | [] => st
    | front :: _ => if newPriority < st.priority front then st.threadYield else st

/-- The thread is in the loop of `sema_down`. -/
def inSemaDown (st : ThreadSystem) (t : Nat) : Bool :=
  match (st.thread t).todo with
  | .down _ _ :: _ => true
  | _ => false

end ThreadSystem

/-! ## The machine -/

/-- A call that a thread makes. -/
inductive ThreadCall
  | create (priority : Int)
  | yield
  | block
  | unblock (t : Nat)
  | semaDown (s : Nat)
  | semaUp (s : Nat)
  | semaTryDown (s : Nat)
  | lockAcquire (l : Nat)
  | lockTryAcquire (l : Nat)
  | lockRelease (l : Nat)
  | setPriority (priority : Int)
  | condWait (c l : Nat)
  | condSignal (c l : Nat)
  | condBroadcast (c l : Nat)
  /-- The start of the function `idle`. -/
  | idle
deriving DecidableEq, Repr

/-- What happens next. -/
inductive Tick
  /-- The current thread makes a call. -/
  | call (c : ThreadCall)
  /-- The current thread goes on with the call it is in. -/
  | next
  /-- The time slice of the current thread is over. -/
  | preempt
  /-- An interrupt handler unblocks a thread. -/
  | wake (t : Nat)
  /-- An interrupt handler ups a semaphore. -/
  | interruptUp (s : Nat)
  /-- `schedule` picks the next thread. -/
  | schedule
deriving DecidableEq, Repr

namespace ThreadSystem

/-- A call of the current thread. -/
def call (st : ThreadSystem) : ThreadCall → Option ThreadSystem
  | .create priority =>
    if 0 ≤ priority ∧ priority ≤ 63 then
      some (st.push [.acquire st.tidLock, .release st.tidLock, .create priority])
    else none
  | .yield => some st.threadYield
  | .block => some st.threadBlock
  | .unblock t => if st.inSemaDown t then none else st.threadUnblock t false
  | .semaDown s => some (st.semaDown (.plain s) none)
  | .semaUp s => st.semaUp (.plain s) false
  | .semaTryDown s => some (st.semaTryDown (.plain s))
  | .lockAcquire l => st.lockAcquire l
  | .lockTryAcquire l => st.lockTryAcquire l
  | .lockRelease l => st.lockRelease l
  | .setPriority priority => some (st.threadSetPriority priority)
  | .condWait c l => st.condWait c l
  | .condSignal c l => st.condSignal c l
  | .condBroadcast c l => st.condBroadcast c l
  | .idle => if st.idle = none then some { st with idle := some st.current } else none

/-- The current thread goes on with the call it is in. -/
def resume (st : ThreadSystem) : Frame → Option ThreadSystem
  | .acquire l => st.lockAcquire l
  | .callDown s => some (st.semaDown s none)
  | .down s lock => some (st.semaDown s lock)
  | .up s => st.semaUp s false
  | .broadcast c l => st.condBroadcast c l
  | .release l => st.lockRelease l
  | .releaseRest l => st.lockReleaseRest l
  | .create priority => st.threadCreate priority
  | .createCheck priority =>
    some (if st.priority st.current < priority then st.threadYield else st)

/-- What is left of the calls of the current thread. -/
abbrev todo (st : ThreadSystem) : List Frame := (st.thread st.current).todo

/-- The current thread leaves the frame it is in. -/
def pop (st : ThreadSystem) : ThreadSystem :=
  st.modify st.current fun t => { t with todo := t.todo.tail }

end ThreadSystem

/-- The calls of the function `idle`, which ups the semaphore it was given and then blocks, again
and again. -/
def ThreadCall.ofIdle : ThreadCall → Bool
  | .semaUp _ | .block => true
  | _ => false

/-- The thread system, from one point at which another thread can run to the next.  The output is
the thread that `schedule` picks. -/
def threadMachine : Machine ThreadSystem Tick (Option Nat) where
  step st tick :=
    if st.switching then
      match tick with
      | .schedule => st.schedule.map fun (next, st') => (some next, st')
      | _ => none
    else
      match tick with
      | .call c =>
        if st.todo = [] ∧ (st.idle = some st.current → c.ofIdle) then
          (st.call c).map fun st' => (none, st')
        else none
      | .next => st.todo.head?.bind fun frame => (st.pop.resume frame).map fun st' => (none, st')
      -- A thread goes on in `sema_down` with interrupts off.
      | .preempt => if st.inSemaDown st.current then none else some (none, st.threadYield)
      | .wake t =>
        if st.inSemaDown st.current ∨ st.inSemaDown t then none
        else (st.threadUnblock t true).map fun st' => (none, st')
      | .interruptUp s =>
        if st.inSemaDown st.current then none
        else (st.semaUp (.plain s) true).map fun st' => (none, st')
      | .schedule => none

/-- After `thread_init`: there is one thread, it runs, and nobody holds or waits for anything. -/
structure ThreadSystem.Boot (st : ThreadSystem) : Prop where
  readyList : st.readyList = []
  switching : st.switching = false
  nextThread : st.current < st.nextThread
  alone : ∀ t < st.nextThread, t = st.current
  thread : st.thread st.current = { ThreadSystem.initThread 31 with status := .running }
  idle : st.idle = none
  waiters : ∀ s, st.waiters s = []
  holder : ∀ l, st.holder l = none
  condWaiters : ∀ c, st.condWaiters c = []
  lockValue : ∀ l, st.value (.ofLock l) = 1
  value : ∀ s, st.value s < 2 ^ 32
  initial : ∀ s, st.initial s = st.value s
  ups : ∀ s, st.ups s = 0
  downs : ∀ s, st.downs s = 0
  inside : ∀ l, st.inside l = []

/-! ## The condition -/

namespace ThreadSystem

/-- The loop of `donate_priority` raises no thread of the ready list over one that is ahead of it
there. -/
def donationFits : Nat → ThreadSystem → Nat → Bool
  | 0, _, _ => true
  | depth + 1, st, curr =>
    match (st.thread curr).waitingLock.bind st.holder with
    | none => true
    | some holder =>
      if st.priority curr > st.priority holder then
        (holder ∈ st.readyList →
          ∀ t ∈ st.readyList.takeWhile (· ≠ holder), st.priority curr ≤ st.priority t) ∧
        donationFits depth (st.modify holder fun t => { t with priority := st.priority curr })
          holder
      else true

/-- If the loop of `sema_down` blocks the thread, its donation fits. -/
def DownFits (st : ThreadSystem) (s : SemaId) : Prop :=
  st.value s = 0 → donationFits 8 st st.current

instance (st : ThreadSystem) (s : SemaId) : Decidable (st.DownFits s) :=
  inferInstanceAs (Decidable (_ → _))

/-- The same for a frame. -/
def FrameFits (st : ThreadSystem) : Frame → Prop
  | .acquire l => (st.enrol l).DownFits (.ofLock l)
  | .callDown s | .down s _ => st.DownFits s
  | _ => True

instance (st : ThreadSystem) : DecidablePred st.FrameFits
  | .acquire _ | .callDown _ | .down _ _ => inferInstanceAs (Decidable (DownFits _ _))
  | .up _ | .broadcast _ _ | .release _ | .releaseRest _ | .create _ | .createCheck _ =>
    .isTrue trivial

/-- **Donations fit.**  Whenever the step donates a priority to a thread that is in the ready list,
no thread ahead of it there has a lower priority than the one donated. -/
def DonationsFit (st : ThreadSystem) : Tick → Prop
  | .call (.semaDown s) => st.DownFits (.plain s)
  | .call (.lockAcquire l) => st.FrameFits (.acquire l)
  | .next => ∀ frame ∈ st.todo.head?, st.pop.FrameFits frame
  | _ => True

instance (st : ThreadSystem) : DecidablePred st.DonationsFit
  | .call (.semaDown s) => inferInstanceAs (Decidable (st.DownFits (.plain s)))
  | .call (.lockAcquire l) => inferInstanceAs (Decidable (st.FrameFits (.acquire l)))
  | .call (.create _) | .call .yield | .call .block | .call (.unblock _) | .call (.semaUp _)
  | .call (.semaTryDown _) | .call (.lockTryAcquire _) | .call (.lockRelease _)
  | .call (.setPriority _) | .call (.condWait _ _) | .call (.condSignal _ _)
  | .call (.condBroadcast _ _) | .call .idle => .isTrue trivial
  | .next => inferInstanceAs (Decidable (∀ frame ∈ st.todo.head?, st.pop.FrameFits frame))
  | .preempt | .wake _ | .interruptUp _ | .schedule => .isTrue trivial

end ThreadSystem

end Pintos
