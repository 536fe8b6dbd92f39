import Mathlib.Logic.Relation
import Pintos.Threads.ReadyList

/-!
# The changes that the steps of the thread system are made of

Every step of the thread system is a sequence of a few kinds of change: the scheduler moves threads
between its states, a thread goes on with its calls, a semaphore is taken, upped or slept on, a lock
is given up.  `SyncChange` lists them, each with what is known of the state in which it happens, so
that an invariant of semaphores and locks needs one case for each of them and none for the calls.

A thread that `sema_down` has put to sleep, and one that is in the second half of `lock_release`,
has that frame at the head of what it has left to do, and no such frame behind it.

* `SyncChange`: the changes.
* `SyncInv`: what threads have left to do, who waits and who has a lock.
* `SyncInv.changes_of_step`: a step is a sequence of changes.
-/

namespace Pintos

open Function (update update_apply update_eq_self)

/-- The frame is that of a thread in the loop of `sema_down` or in the second half of
`lock_release`. -/
def Frame.isLoop : Frame → Bool
  | .down _ _ | .releaseRest _ => true
  | _ => false

/-- The semaphores and locks of a frame of the thread `t` belong together: a thread waits for the
semaphore on its own stack only, and for that of a lock only in `lock_acquire`. -/
def Frame.Fits (t : Nat) : Frame → Prop
  | .callDown s => (∀ l, s ≠ .ofLock l) ∧ ∀ u, s = .waiter u → u = t
  | .down s lock => (∀ l, s = .ofLock l ↔ lock = some l) ∧ ∀ u, s = .waiter u → u = t
  | .up s => ∀ l, s ≠ .ofLock l
  | _ => True

namespace ThreadSystem

open Relation (ReflTransGen)

variable {st st' : ThreadSystem} {t l : Nat} {s : SemaId} {lock : Option Nat} {fits : Prop}

/-! ## The state of a thread in its calls -/

/-- The frame that a thread is in. -/
abbrev head (st : ThreadSystem) (t : Nat) : Option Frame := (st.thread t).todo.head?

/-- The semaphore on which a thread is in the loop of `sema_down`. -/
def downOf (st : ThreadSystem) (t : Nat) : Option SemaId :=
  match st.head t with
  | some (.down s _) => some s
  | _ => none

theorem downOf_eq_some : st.downOf t = some s ↔ ∃ lock, st.head t = some (.down s lock) := by
  rw [downOf]
  split
  next s' lock heq =>
    rw [heq, Option.some_inj]
    exact ⟨fun h => ⟨lock, h ▸ rfl⟩, fun ⟨_, h⟩ => by cases h; rfl⟩
  next hne =>
    refine ⟨nofun, fun ⟨lock, h⟩ => ?_⟩
    exact absurd h (hne s lock)

/-- No frame of the thread is one of a loop. -/
def NoLoop (st : ThreadSystem) (t : Nat) : Prop := ∀ f ∈ (st.thread t).todo, f.isLoop = false

theorem NoLoop.downOf (h : st.NoLoop t) : st.downOf t = none := by
  rw [Option.eq_none_iff_forall_ne_some]
  intro s hs
  obtain ⟨lock, hhead⟩ := downOf_eq_some.mp hs
  exact Bool.noConfusion (h _ (List.mem_of_mem_head? hhead))

/-! ## The changes -/

/-- **Only the scheduler** has changed. -/
structure Sched (st st' : ThreadSystem) : Prop where
  thread : ∀ t, st'.thread t = { st.thread t with status := st'.status t }
  nextThread : st'.nextThread = st.nextThread
  value : st'.value = st.value
  waiters : st'.waiters = st.waiters
  holder : st'.holder = st.holder
  initial : st'.initial = st.initial
  ups : st'.ups = st.ups
  downs : st'.downs = st.downs
  inside : st'.inside = st.inside
  current : st.current < st.nextThread → st'.current < st.nextThread
  idle : ∀ t, st'.idle = some t → st.idle = some t ∨ (t = st.current ∧ st.todo = [])
  asleep : ∀ t s, st.downOf t = some s → (st'.status t = .blocked ↔ st.status t = .blocked)

/-- What the current thread has left to do. -/
def setTodo (st : ThreadSystem) (todo : List Frame) : ThreadSystem :=
  st.modify st.current fun t => { t with todo := todo }

/-- A thread is created. -/
def created (st : ThreadSystem) (priority : Int) : ThreadSystem :=
  { st.modify st.nextThread fun _ => initThread priority with nextThread := st.nextThread + 1 }

theorem thread_created (st : ThreadSystem) (priority : Int) (t : Nat) :
    (st.created priority).thread t =
      if t = st.nextThread then initThread priority else st.thread t :=
  thread_modify st st.nextThread t fun _ => initThread priority

/-- The current thread has a lock, if it is in `lock_acquire`. -/
def own (st : ThreadSystem) : Option Nat → ThreadSystem
  | none => st
  | some l => st.setHolder l

/-- The current thread waits for a semaphore. -/
def fallAsleep (st : ThreadSystem) (s : SemaId) (lock : Option Nat) : ThreadSystem :=
  let st := st.donatePriority
  ({ st with waiters := update st.waiters s (st.waiters s ++ [st.current]) }.push
    [.down s lock]).threadBlock

/-- A semaphore goes up, and the first of the threads that wait for it is ready. -/
def wakeFirst (st : ThreadSystem) (s : SemaId) : ThreadSystem :=
  let st := { st with
    value := update st.value s ((st.value s + 1) % 2 ^ 32)
    ups := update st.ups s (st.ups s + 1) }
  match listSort st.comparePriority (st.waiters s) with
  | [] => st
  | mostPriority :: rest =>
    { st with waiters := update st.waiters s rest }.modify mostPriority
      fun t => { t with status := .ready }

/-- The current thread gives a lock up, before its semaphore goes up. -/
def giveUp (st : ThreadSystem) (l : Nat) : ThreadSystem :=
  let st := st.restorePriority l
  { st with inside := update st.inside l ((st.inside l).erase st.current) }

/-- What the current thread has left to do when it leaves the loop of `sema_down`, if it is in
it. -/
def Leaves (st : ThreadSystem) (s : SemaId) (lock : Option Nat) (rest : List Frame) : Prop :=
  (st.NoLoop st.current ∧ st.todo = rest) ∨ st.todo = .down s lock :: rest

/-! ## Justified donations -/

/-- The thread is blocked in `lock_acquire` for the lock. -/
def BlockedFor (st : ThreadSystem) (t l : Nat) : Prop :=
  st.head t = some (.down (.ofLock l) (some l)) ∧ st.status t = .blocked

instance (st : ThreadSystem) (t l : Nat) : Decidable (st.BlockedFor t l) :=
  inferInstanceAs (Decidable (_ ∧ _))

/-- Every thread from which the loop of `donate_priority` raises another one is blocked for the lock
that it follows. -/
def donationJustified : Nat → ThreadSystem → Nat → Bool
  | 0, _, _ => true
  | depth + 1, st, curr =>
    match (st.thread curr).waitingLock with
    | none => true
    | some l =>
      match st.holder l with
      | none => true
      | some holder =>
        if st.priority curr > st.priority holder then
          st.BlockedFor curr l ∧
            donationJustified depth (st.modify holder fun t =>
              { t with priority := st.priority curr }) holder
        else true

/-- The current thread is blocked in the loop of `sema_down`. -/
def blockOn (st : ThreadSystem) (s : SemaId) (lock : Option Nat) : ThreadSystem :=
  (st.push [.down s lock]).threadBlock

/-- If the loop of `sema_down` blocks the thread, its donation is justified. -/
def DownJustified (st : ThreadSystem) (s : SemaId) (lock : Option Nat) : Prop :=
  st.value s = 0 → donationJustified 8 (st.blockOn s lock) st.current

instance (st : ThreadSystem) (s : SemaId) (lock : Option Nat) :
    Decidable (st.DownJustified s lock) :=
  inferInstanceAs (Decidable (_ → _))

/-- The same for a frame. -/
def FrameJustified (st : ThreadSystem) : Frame → Prop
  | .acquire l => (st.enrol l).DownJustified (.ofLock l) (some l)
  | .callDown s => st.DownJustified s none
  | .down s lock => st.DownJustified s lock
  | _ => True

instance (st : ThreadSystem) : DecidablePred st.FrameJustified
  | .acquire _ | .callDown _ | .down _ _ => inferInstanceAs (Decidable (DownJustified _ _ _))
  | .up _ | .broadcast _ _ | .release _ | .releaseRest _ | .create _ | .createCheck _ =>
    .isTrue trivial

/-- **Donations are justified.**  Whenever the step donates a priority, every thread that hands it
on is blocked in `lock_acquire` for the lock whose holder it raises. -/
def DonationsJustified (st : ThreadSystem) : Tick → Prop
  | .call (.semaDown s) => st.DownJustified (.plain s) none
  | .call (.lockAcquire l) => st.FrameJustified (.acquire l)
  | .next => ∀ frame ∈ st.todo.head?, st.pop.FrameJustified frame
  | _ => True

instance (st : ThreadSystem) : DecidablePred st.DonationsJustified
  | .call (.semaDown s) => inferInstanceAs (Decidable (st.DownJustified (.plain s) none))
  | .call (.lockAcquire l) => inferInstanceAs (Decidable (st.FrameJustified (.acquire l)))
  | .call (.create _) | .call .yield | .call .block | .call (.unblock _) | .call (.semaUp _)
  | .call (.semaTryDown _) | .call (.lockTryAcquire _) | .call (.lockRelease _)
  | .call (.setPriority _) | .call (.condWait _ _) | .call (.condSignal _ _)
  | .call (.condBroadcast _ _) | .call .idle => .isTrue trivial
  | .next => inferInstanceAs (Decidable (∀ frame ∈ st.todo.head?, st.pop.FrameJustified frame))
  | .preempt | .wake _ | .interruptUp _ | .schedule => .isTrue trivial

/-! ## The changes -/

/-- **A change.**  In a step whose donations are justified, if `fits` holds. -/
inductive SyncChange (fits : Prop) (st : ThreadSystem) : ThreadSystem → Prop
  /-- The scheduler. -/
  | sched {st' : ThreadSystem} (hs : Sched st st') : SyncChange fits st st'
  /-- The current thread goes on with its calls. -/
  | frames (todo : List Frame) (hidle : st.idle ≠ some st.current) (hold : st.NoLoop st.current)
      (hnew : ∀ f ∈ todo, f.isLoop = false ∧ f.Fits st.current) :
      SyncChange fits st (st.setTodo todo)
  /-- A thread is created. -/
  | create (priority : Int) : SyncChange fits st (st.created priority)
  /-- The current thread sets its priority. -/
  | setPriority (priority : Int) : SyncChange fits st (st.modify st.current fun t => { t with
      priority := if t.priority ≠ t.originPriority then t.priority else priority
      originPriority := priority })
  /-- The current thread does not wait for a lock any more. -/
  | forget (hrun : st.status st.current ≠ .blocked) :
      SyncChange fits st (st.modify st.current fun t => { t with waitingLock := none })
  /-- The current thread initialises the semaphore on its stack. -/
  | init (hold : st.NoLoop st.current) : SyncChange fits st (st.semaInit (.waiter st.current) 0)
  /-- The current thread gets a semaphore, and the lock it belongs to. -/
  | take (s : SemaId) (lock : Option Nat) {rest : List Frame} (hleaves : st.Leaves s lock rest)
      (hrun : st.status st.current ≠ .blocked) (hlock : ∀ l, s = .ofLock l ↔ lock = some l)
      (hpos : 0 < st.value s) : SyncChange fits st (((st.setTodo rest).semaTake s).own lock)
  /-- The current thread waits for a semaphore. -/
  | sleep (s : SemaId) (lock : Option Nat) {rest : List Frame} (hleaves : st.Leaves s lock rest)
      (hrun : st.status st.current ≠ .blocked) (hidle : st.idle ≠ some st.current)
      (hfits : (Frame.down s lock).Fits st.current) (hzero : st.value s = 0)
      (hjust : fits → (st.setTodo rest).DownJustified s lock) :
      SyncChange fits st ((st.setTodo rest).fallAsleep s lock)
  /-- The current thread waits for a lock that it has enrolled for. -/
  | enrol (l h : Nat) (hold : st.NoLoop st.current) (hrun : st.status st.current ≠ .blocked)
      (hidle : st.idle ≠ some st.current) (hholder : st.holder l = some h) (hne : h ≠ st.current)
      (hjust : fits → (st.enrol l).DownJustified (.ofLock l) (some l)) :
      SyncChange fits st ((st.enrol l).fallAsleep (.ofLock l) (some l))
  /-- A semaphore goes up that is not one of a lock. -/
  | up (s : SemaId) (hplain : ∀ l, s ≠ .ofLock l) : SyncChange fits st (st.wakeFirst s)
  /-- The current thread begins to release a lock. -/
  | clear (l : Nat) (hold : st.NoLoop st.current) (hidle : st.idle ≠ some st.current)
      (hholder : st.holder l = some st.current) :
      SyncChange fits st ({ st with holder := update st.holder l none }.push [.releaseRest l])
  /-- It releases it. -/
  | release (l : Nat) {rest : List Frame} (htodo : st.todo = .releaseRest l :: rest)
      (hrun : st.status st.current ≠ .blocked) :
      SyncChange fits st (((st.setTodo rest).giveUp l).wakeFirst (.ofLock l))

/-- A sequence of changes. -/
abbrev SyncChanges (fits : Prop) : ThreadSystem → ThreadSystem → Prop :=
  ReflTransGen (SyncChange fits)

/-! ## What the changes do to a thread -/

theorem current_modify (st : ThreadSystem) (t : Nat) (f : Thread → Thread) :
    (st.modify t f).current = st.current := rfl

theorem thread_setTodo (st : ThreadSystem) (todo : List Frame) (t : Nat) :
    (st.setTodo todo).thread t =
      if t = st.current then { st.thread t with todo := todo } else st.thread t := by
  rw [setTodo, thread_modify]
  split
  next ht => rw [ht]
  next => rfl

theorem thread_setStatus (st : ThreadSystem) (t : Nat) (x : ThreadStatus) (u : Nat) :
    (st.modify t fun th => { th with status := x }).thread u =
      { st.thread u with status := if u = t then x else st.status u } := by
  rw [thread_modify]
  split
  next hu => rw [hu]
  next => rfl

theorem donateLoop_eq (depth : Nat) (st : ThreadSystem) (curr : Nat) :
    ∃ p : Nat → Int, donateLoop depth st curr =
      { st with thread := fun t => { st.thread t with priority := p t } } := by
  fun_induction donateLoop depth st curr with
  | case1 | case2 | case4 => exact ⟨fun t => (thread _ t).priority, rfl⟩
  | case3 depth st curr holder _ _ ih =>
    obtain ⟨p, hp⟩ := ih
    refine ⟨p, hp.trans ?_⟩
    refine congrArg (fun thread => { st with thread := thread }) (funext fun t => ?_)
    rw [thread_modify]
    split
    next ht => rw [ht]
    next => rfl

theorem fallAsleep_eq (st : ThreadSystem) (s : SemaId) (lock : Option Nat) :
    st.fallAsleep s lock = { st with
      thread := fun t => { st.thread t with
        priority := st.donatePriority.priority t
        todo := if t = st.current then .down s lock :: (st.thread t).todo else (st.thread t).todo
        status := if t = st.current then .blocked else st.status t }
      waiters := update st.waiters s (st.waiters s ++ [st.current])
      switching := true } := by
  obtain ⟨p, hp⟩ := donateLoop_eq 8 st st.current
  have hdonated : st.donatePriority = _ := hp
  rw [fallAsleep, hdonated]
  refine congrArg (fun thread => { st with
    thread := thread
    waiters := update st.waiters s (st.waiters s ++ [st.current])
    switching := true }) (funext fun t => ?_)
  rw [thread_setStatus, push, status, thread_modify]
  by_cases ht : t = st.current
  · simp only [ht, if_true, current_modify, List.cons_append, List.nil_append]
  · simp only [ht, if_false, current_modify]

theorem enrol_eq {h : Nat} (hholder : st.holder l = some h) :
    ∃ d : List Nat, d.Perm (st.current :: (st.thread h).potentialDonator) ∧ st.enrol l = { st with
      thread := fun t => { st.thread t with
        waitingLock := if t = st.current then some l else (st.thread t).waitingLock
        potentialDonator := if t = h then d else (st.thread t).potentialDonator } } := by
  rw [enrol, hholder]
  refine ⟨_, listInsertOrdered_perm (st.modify st.current fun t =>
    { t with waitingLock := some l }).compareDonation st.current (st.thread h).potentialDonator, ?_⟩
  refine congrArg (fun thread => { st with thread := thread }) (funext fun t => ?_)
  rw [update_apply, thread_modify, thread_modify]
  by_cases hh : t = h
  · subst hh
    by_cases hc : t = st.current <;> simp only [hc, if_true, if_false, current_modify]
  · by_cases hc : t = st.current
    · subst hc
      simp only [hh, if_true, if_false]
    · simp only [hh, hc, if_false]

theorem wakeFirst_cases (st : ThreadSystem) (s : SemaId) :
    (st.waiters s = [] ∧ st.wakeFirst s = { st with
      value := update st.value s ((st.value s + 1) % 2 ^ 32)
      ups := update st.ups s (st.ups s + 1) }) ∨
    ∃ w rest, (w :: rest).Perm (st.waiters s) ∧ st.wakeFirst s = { st with
      thread := fun t => { st.thread t with status := if t = w then .ready else st.status t }
      value := update st.value s ((st.value s + 1) % 2 ^ 32)
      ups := update st.ups s (st.ups s + 1)
      waiters := update st.waiters s rest } := by
  have hperm := listSort_perm st.comparePriority (st.waiters s)
  have heq : st.wakeFirst s = match listSort st.comparePriority (st.waiters s) with
    | [] => { st with
      value := update st.value s ((st.value s + 1) % 2 ^ 32)
      ups := update st.ups s (st.ups s + 1) }
    | w :: rest => { st with
      value := update st.value s ((st.value s + 1) % 2 ^ 32)
      ups := update st.ups s (st.ups s + 1)
      waiters := update st.waiters s rest }.modify w fun t => { t with status := .ready } :=
    rfl
  cases hsort : listSort st.comparePriority (st.waiters s) with
  | nil =>
    rw [hsort] at hperm heq
    exact .inl ⟨hperm.nil_eq.symm, heq⟩
  | cons w rest =>
    rw [hsort] at hperm heq
    refine .inr ⟨w, rest, hperm, heq.trans ?_⟩
    exact congrArg (fun thread => { st with
      thread := thread
      value := update st.value s ((st.value s + 1) % 2 ^ 32)
      ups := update st.ups s (st.ups s + 1)
      waiters := update st.waiters s rest }) (funext fun t => thread_setStatus st w .ready t)

/-! ## The invariant -/

/-- **The shape of the calls.** -/
structure CallInv (st : ThreadSystem) : Prop where
  current : st.current < st.nextThread
  /-- The idle thread exists and is in no call. -/
  idle : ∀ t, st.idle = some t → t < st.nextThread ∧ (st.thread t).todo = []
  /-- The semaphores and locks of a frame belong together. -/
  fits : ∀ t < st.nextThread, ∀ f ∈ (st.thread t).todo, f.Fits t
  tail : ∀ t < st.nextThread, ∀ f ∈ (st.thread t).todo.tail, f.isLoop = false

/-- **Who waits.** -/
structure WaitInv (st : ThreadSystem) : Prop where
  /-- The threads that wait for a semaphore are those that are blocked in its loop. -/
  waiting : ∀ s t, t ∈ st.waiters s ↔
    t < st.nextThread ∧ st.downOf t = some s ∧ st.status t = .blocked
  nodup : ∀ s, (st.waiters s).Nodup

/-- **Who has a lock.** -/
structure LockInv (st : ThreadSystem) : Prop where
  /-- The semaphore of a lock counts whether a thread is inside. -/
  value : ∀ l, st.value (.ofLock l) + (st.inside l).length = 1
  /-- The holder of a lock is inside. -/
  holder : ∀ l t, st.holder l = some t → t < st.nextThread ∧ st.inside l = [t]
  /-- So is a thread that releases it, and then it has no holder. -/
  releasing : ∀ l, ∀ t < st.nextThread, st.head t = some (.releaseRest l) →
    st.inside l = [t] ∧ st.holder l = none

/-- The invariant of semaphores and locks. -/
structure SyncInv (st : ThreadSystem) : Prop extends CallInv st, WaitInv st, LockInv st

variable {f : Frame} {rest : List Frame}

theorem SyncInv.noLoop_tail (h : SyncInv st) (htodo : st.todo = f :: rest) :
    ∀ g ∈ rest, g.isLoop = false ∧ g.Fits st.current := fun g hg => by
  rw [todo] at htodo
  refine ⟨h.tail _ h.current g ?_, h.fits _ h.current g ?_⟩
  · rwa [htodo]
  · rw [htodo]
    exact List.mem_cons_of_mem f hg

theorem SyncInv.noLoop (h : SyncInv st) (htodo : st.todo = f :: rest) (hf : f.isLoop = false) :
    st.NoLoop st.current := fun g hg => by
  rw [show (st.thread st.current).todo = f :: rest from htodo] at hg
  rcases List.mem_cons.mp hg with rfl | hg
  · exact hf
  · exact (h.noLoop_tail htodo g hg).1

theorem noLoop_of_nil (htodo : st.todo = []) : st.NoLoop st.current := fun g hg => by
  rw [show (st.thread st.current).todo = [] from htodo] at hg
  cases hg

theorem SyncInv.not_idle (h : SyncInv st) (htodo : st.todo = f :: rest) :
    st.idle ≠ some st.current := fun hidle => by
  rw [todo, (h.idle _ hidle).2] at htodo
  cases htodo

theorem SyncInv.value_of_holder (h : SyncInv st) (hholder : st.holder l = some t) :
    st.value (.ofLock l) = 0 := by
  have hvalue := h.value l
  rw [(h.holder l t hholder).2, List.length_singleton] at hvalue
  omega

/-! ## The scheduler -/

theorem downOf_congr (h : (st'.thread t).todo = (st.thread t).todo) :
    st'.downOf t = st.downOf t := by rw [downOf, head, h, downOf]

theorem Sched.todo (hs : Sched st st') (t : Nat) : (st'.thread t).todo = (st.thread t).todo := by
  rw [hs.thread]

theorem Sched.trans {st1 : ThreadSystem} (h : Sched st st1) (h' : Sched st1 st')
    (hcurrent : st1.current = st.current) : Sched st st' where
  thread t := by rw [h'.thread, h.thread]
  nextThread := h'.nextThread.trans h.nextThread
  value := h'.value.trans h.value
  waiters := h'.waiters.trans h.waiters
  holder := h'.holder.trans h.holder
  initial := h'.initial.trans h.initial
  ups := h'.ups.trans h.ups
  downs := h'.downs.trans h.downs
  inside := h'.inside.trans h.inside
  current hc := h.nextThread ▸ h'.current (h.nextThread ▸ h.current hc)
  idle t ht := by
    rcases h'.idle t ht with ht | ⟨rfl, htodo⟩
    · exact h.idle t ht
    · rw [ThreadSystem.todo, h.todo, hcurrent] at htodo
      exact .inr ⟨hcurrent, htodo⟩
  asleep t s ht := (h'.asleep t s (downOf_congr (h.todo t) ▸ ht)).trans (h.asleep t s ht)

theorem sched_setStatus (t : Nat) (x : ThreadStatus) (readyList : List Nat) {current : Nat}
    (switching : Bool)
    (hasleep : ∀ s, st.downOf t = some s → (x = .blocked ↔ st.status t = .blocked))
    (hcurrent : st.current < st.nextThread → current < st.nextThread) :
    Sched st { st.modify t fun th => { th with status := x } with
      readyList := readyList, current := current, switching := switching } := by
  have hthread := thread_setStatus st t x
  have hstatus : ∀ u, ((st.modify t fun th => { th with status := x }).thread u).status =
      if u = t then x else st.status u := fun u => by rw [hthread]
  refine ⟨fun u => ?_, rfl, rfl, rfl, rfl, rfl, rfl, rfl, rfl, hcurrent, fun _ => .inl,
    fun u s hu => ?_⟩
  · exact (hthread u).trans (congrArg (fun y => { st.thread u with status := y }) (hstatus u).symm)
  · refine (iff_of_eq (congrArg (· = ThreadStatus.blocked) (hstatus u))).trans ?_
    split
    next hut => exact hut ▸ hasleep s (hut ▸ hu)
    next => rfl

theorem sched_threadYield (hrun : st.status st.current ≠ .blocked) : Sched st st.threadYield := by
  have hasleep : ∀ s, st.downOf st.current = some s →
      (ThreadStatus.ready = .blocked ↔ st.status st.current = .blocked) := fun _ _ =>
    ⟨nofun, fun hb => absurd hb hrun⟩
  rw [threadYield]
  split
  · exact sched_setStatus _ .ready _ _ hasleep id
  · exact sched_setStatus _ .ready _ _ hasleep id

theorem sched_threadBlock (hold : st.NoLoop st.current) : Sched st st.threadBlock :=
  sched_setStatus _ .blocked _ _ (fun _ hs => nomatch hold.downOf.symm.trans hs) id

variable {intrContext : Bool} {frames : List Frame} {c : Nat}

/-- **`thread_unblock`** makes a thread ready, and then leaves the rest to the scheduler. -/
theorem sched_threadUnblock (hrun : st.status st.current = .running)
    (hst : st.threadUnblock t intrContext = some st') :
    (t < st.nextThread ∧ st.status t = .blocked) ∧
      Sched (st.modify t fun th => { th with status := .ready }) st' := by
  rw [threadUnblock, Option.ite_none_right_eq_some] at hst
  obtain ⟨hblocked, hst⟩ := hst
  refine ⟨hblocked, ?_⟩
  have hne : st.current ≠ t := by
    rintro rfl
    rw [hrun] at hblocked
    cases hblocked.2
  have hrun' : (st.makeReady t).status st.current ≠ .blocked := by
    rw [status, thread_makeReady, if_neg hne]
    exact fun hb => by cases hrun.symm.trans hb
  have hmake : Sched (st.modify t fun th => { th with status := .ready }) (st.makeReady t) :=
    ⟨fun _ => rfl, rfl, rfl, rfl, rfl, rfl, rfl, rfl, rfl, id, fun _ => .inl, fun _ _ _ => .rfl⟩
  dsimp only at hst
  split at hst
  · split at hst
    · cases hst
    · cases hst
      exact hmake.trans (sched_threadYield hrun') rfl
  · cases hst
    exact hmake

theorem threadUnblock_changes (hdown : st.downOf t = none) (hrun : st.status st.current = .running)
    (hst : st.threadUnblock t intrContext = some st') : SyncChanges fits st st' := by
  refine .tail (.single (.sched ?_)) (.sched (sched_threadUnblock hrun hst).2)
  exact sched_setStatus t .ready _ _ (fun s hs => nomatch hdown.symm.trans hs) id

/-! ## Semaphores and locks -/

theorem setTodo_todo (st : ThreadSystem) : st.setTodo st.todo = st := by
  exact congrArg (fun thread => { st with thread := thread }) (update_eq_self ..)

theorem pop_eq_setTodo (htodo : st.todo = f :: rest) : st.pop = st.setTodo rest := by
  rw [pop, setTodo, modify, modify, show (st.thread st.current).todo = f :: rest from htodo]
  rfl

theorem semaDown_change (hleaves : st.Leaves s lock rest) (hrun : st.status st.current ≠ .blocked)
    (hidle : st.idle ≠ some st.current) (hfits : (Frame.down s lock).Fits st.current)
    (hjust : fits → (st.setTodo rest).DownJustified s lock) :
    SyncChange fits st ((st.setTodo rest).semaDown s lock) := by
  unfold semaDown
  split
  next hzero => exact .sleep s lock hleaves hrun hidle hfits hzero hjust
  next hpos =>
    have htake : SyncChange fits st (((st.setTodo rest).semaTake s).own lock) :=
      .take s lock hleaves hrun hfits.1 (Nat.pos_of_ne_zero hpos)
    cases lock <;> exact htake

/-- The current thread runs, is not the idle thread, and is in no loop. -/
structure Calm (st : ThreadSystem) : Prop where
  running : st.status st.current = .running
  idle : st.idle ≠ some st.current
  frames : ∀ f ∈ st.todo, f.isLoop = false ∧ f.Fits st.current

theorem Calm.noLoop (hc : Calm st) : st.NoLoop st.current := fun f hf => (hc.frames f hf).1

theorem not_blocked_of_running (h : st.status t = .running) : st.status t ≠ .blocked := fun hb =>
  nomatch h.symm.trans hb

theorem Calm.not_blocked (hc : Calm st) : st.status st.current ≠ .blocked :=
  not_blocked_of_running hc.running

theorem Calm.semaDown_change (hc : Calm st) (hfits : (Frame.down s lock).Fits st.current)
    (hjust : fits → st.DownJustified s lock) : SyncChange fits st (st.semaDown s lock) := by
  have hdown : SyncChange fits st ((st.setTodo st.todo).semaDown s lock) :=
    ThreadSystem.semaDown_change (.inl ⟨hc.noLoop, rfl⟩) hc.not_blocked hc.idle hfits
      (by rwa [setTodo_todo])
  rwa [setTodo_todo] at hdown

theorem Calm.take_change (hc : Calm st) (hlock : ∀ l, s = .ofLock l ↔ lock = some l)
    (hpos : 0 < st.value s) : SyncChange fits st ((st.semaTake s).own lock) := by
  have htake : SyncChange fits st (((st.setTodo st.todo).semaTake s).own lock) :=
    .take s lock (.inl ⟨hc.noLoop, rfl⟩) hc.not_blocked hlock hpos
  rwa [setTodo_todo] at htake

theorem lockAcquire_change (hc : Calm st)
    (hvalue : ∀ h, st.holder l = some h → st.value (.ofLock l) = 0)
    (hjust : fits → (st.enrol l).DownJustified (.ofLock l) (some l))
    (hst : st.lockAcquire l = some st') : SyncChange fits st st' := by
  rw [lockAcquire, Option.ite_none_left_eq_some] at hst
  obtain ⟨hne, hst⟩ := hst
  cases hst
  cases hholder : st.holder l with
  | none =>
    have henrol : st.enrol l = st := by rw [enrol, hholder]
    rw [henrol] at hjust ⊢
    exact hc.semaDown_change ⟨fun l' => by simp, by simp⟩ hjust
  | some holder =>
    have hvalue : (st.enrol l).value (.ofLock l) = 0 := by
      rw [enrol, hholder]
      exact hvalue holder hholder
    rw [semaDown, if_pos hvalue]
    exact .enrol l holder hc.noLoop hc.not_blocked hc.idle hholder (fun heq => hne (heq ▸ hholder))
      hjust

theorem semaUp_eq_some (hrun : st.status st.current = .running)
    (hst : st.semaUp s intrContext = some st') :
    st' = st.wakeFirst s ∨ Sched (st.wakeFirst s) st' := by
  simp only [semaUp] at hst
  rw [wakeFirst]
  split at hst
  next hnil =>
    cases hst
    rw [hnil]
    exact .inl rfl
  next w rest hcons =>
    rw [hcons]
    refine .inr (sched_threadUnblock ?_ hst).2
    exact hrun

theorem semaUp_changes (hplain : ∀ l, s ≠ .ofLock l) (hrun : st.status st.current = .running)
    (hst : st.semaUp s intrContext = some st') : SyncChanges fits st st' := by
  rcases semaUp_eq_some hrun hst with rfl | hs
  · exact .single (.up s hplain)
  · exact .tail (.single (.up s hplain)) (.sched hs)

theorem lockRelease_change (hc : Calm st) (hst : st.lockRelease l = some st') :
    SyncChange fits st st' := by
  rw [lockRelease, Option.ite_none_right_eq_some] at hst
  obtain ⟨hholder, hst⟩ := hst
  cases hst
  exact .clear l hc.noLoop hc.idle hholder

theorem thread_setTodo_self (st : ThreadSystem) (todo : List Frame) :
    (st.setTodo todo).thread st.current = { st.thread st.current with todo := todo } := by
  rw [setTodo, thread_modify, if_pos rfl]

theorem thread_giveUp (st : ThreadSystem) (l t : Nat) :
    (st.giveUp l).thread t = { st.thread t with
      potentialDonator := ((st.giveUp l).thread t).potentialDonator
      priority := (st.giveUp l).priority t } := by
  have hrestored : (st.giveUp l).thread t = (st.restorePriority l).thread t := rfl
  rw [priority, hrestored, restorePriority, thread_modify]
  split
  next ht => rw [ht]
  next => rfl

theorem lockReleaseRest_changes (htodo : st.todo = .releaseRest l :: rest)
    (hrun : st.status st.current = .running)
    (hst : (st.setTodo rest).lockReleaseRest l = some st') :
    SyncChanges fits st st' := by
  have hrun' : ((st.setTodo rest).giveUp l).status st.current = .running := by
    rw [status, thread_giveUp]
    exact (thread_setTodo_self st rest).symm ▸ hrun
  have hne := not_blocked_of_running hrun
  rcases semaUp_eq_some hrun' hst with rfl | hs
  · exact .single (.release l htodo hne)
  · exact .tail (.single (.release l htodo hne)) (.sched hs)

theorem tryAcquire_changes (hc : Calm st) (hst : st.lockTryAcquire l = some st') :
    SyncChanges fits st st' := by
  rw [lockTryAcquire, Option.ite_none_left_eq_some] at hst
  obtain ⟨-, hst⟩ := hst
  split at hst
  next hpos =>
    cases hst
    rw [semaTryDown, if_pos hpos]
    have htake : SyncChange fits st ((st.semaTake (.ofLock l)).own (some l)) :=
      hc.take_change (fun l' => by simp) hpos
    exact .tail (.single htake) (.forget hc.not_blocked)
  next =>
    cases hst
    exact .refl

/-! ## Threads and condition variables -/

theorem push_eq_setTodo (st : ThreadSystem) (frames : List Frame) :
    st.push frames = st.setTodo (frames ++ st.todo) := rfl

theorem push_change (hc : Calm st) (hnew : ∀ f ∈ frames, f.isLoop = false ∧ f.Fits st.current) :
    SyncChange fits st (st.push frames) := by
  refine .frames _ hc.idle hc.noLoop fun f hf => ?_
  rcases List.mem_append.mp hf with hf | hf
  · exact hnew f hf
  · exact hc.frames f hf

theorem calm_push (hc : Calm st)
    (hnew : ∀ f ∈ frames, f.isLoop = false ∧ f.Fits st.current) : Calm (st.push frames) := by
  have hself := thread_setTodo_self st (frames ++ st.todo)
  refine ⟨?_, hc.idle, fun f hf => ?_⟩
  · exact (congrArg Thread.status hself).trans hc.running
  · rw [show (st.push frames).todo = frames ++ st.todo from congrArg Thread.todo hself] at hf
    rcases List.mem_append.mp hf with hf | hf
    · exact hnew f hf
    · exact hc.frames f hf

theorem threadCreate_changes (hc : Calm st) (hknown : st.current < st.nextThread) {priority : Int}
    (hst : st.threadCreate priority = some st') : SyncChanges fits st st' := by
  have hcurrent : (st.created priority).thread st.current = st.thread st.current := by
    rw [thread_created, if_neg (Nat.ne_of_lt hknown)]
  have hcreated : Calm (st.created priority) := by
    refine ⟨(congrArg Thread.status hcurrent).trans hc.running, hc.idle, fun f hf => hc.frames f ?_⟩
    rwa [show (st.created priority).todo = st.todo from congrArg Thread.todo hcurrent] at hf
  have hnew : ∀ f ∈ [Frame.createCheck priority], f.isLoop = false ∧ f.Fits st.current := by
    simp [Frame.isLoop, Frame.Fits]
  refine .head (.create priority) (.head (push_change hcreated hnew)
    (threadUnblock_changes ?_ (calm_push hcreated hnew).running hst))
  -- The new thread is in no call.
  have hnone : ((st.created priority).push [.createCheck priority]).thread st.nextThread =
      initThread priority := by
    have hne : st.nextThread ≠ (st.created priority).current := Nat.ne_of_gt hknown
    rw [push, thread_modify, if_neg hne, thread_created, if_pos rfl]
  rw [downOf, head, hnone]
  rfl

theorem sched_condWaiters (st : ThreadSystem) (condWaiters : Nat → List Nat) :
    Sched st { st with condWaiters := condWaiters } :=
  ⟨fun _ => rfl, rfl, rfl, rfl, rfl, rfl, rfl, rfl, rfl, id, fun _ => .inl, fun _ _ _ => .rfl⟩

theorem condWait_changes (hc : Calm st) (hst : st.condWait c l = some st') :
    SyncChanges fits st st' := by
  rw [condWait, Option.ite_none_right_eq_some] at hst
  obtain ⟨-, hst⟩ := hst
  cases hst
  refine .tail (.tail (.single (.init hc.noLoop)) (.sched (sched_condWaiters _ _)))
    (push_change ?_ ?_)
  · exact ⟨hc.running, hc.idle, hc.frames⟩
  · simp [Frame.isLoop, Frame.Fits]

theorem condSignal_changes (hc : Calm st) (hst : st.condSignal c l = some st') :
    SyncChanges fits st st' := by
  rw [condSignal, Option.ite_none_right_eq_some] at hst
  obtain ⟨-, hst⟩ := hst
  split at hst
  · cases hst
  · split at hst
    · cases hst
      exact .refl
    · cases hst
      refine .tail (.single (.sched (sched_condWaiters _ _))) (push_change ?_ ?_)
      · exact ⟨hc.running, hc.idle, hc.frames⟩
      · simp [Frame.isLoop, Frame.Fits]

theorem condBroadcast_changes (hc : Calm st) (hst : st.condBroadcast c l = some st') :
    SyncChanges fits st st' := by
  rw [condBroadcast] at hst
  split at hst
  · cases hst
    exact .refl
  · have hnew : ∀ f ∈ [Frame.broadcast c l], f.isLoop = false ∧ f.Fits st.current := by
      simp [Frame.isLoop, Frame.Fits]
    exact .head (push_change hc hnew) (condSignal_changes (calm_push hc hnew) hst)

theorem threadSetPriority_changes (hc : Calm st) (newPriority : Int) :
    SyncChanges fits st (st.threadSetPriority newPriority) := by
  have hset : SyncChange fits st _ := .setPriority newPriority
  rw [threadSetPriority]
  split
  next hne =>
    rw [modify, if_pos hne] at hset
    exact .single hset
  next heq =>
    rw [modify, if_neg heq] at hset
    have hrun : ((st.modify st.current fun t => { t with
        priority := newPriority, originPriority := newPriority }).thread st.current).status ≠
        .blocked := by
      rw [thread_modify, if_pos rfl]
      exact hc.not_blocked
    dsimp only
    split
    · exact .single hset
    · split
      · exact .tail (.single hset) (.sched (sched_threadYield hrun))
      · exact .single hset

/-! ## Steps -/

theorem downOf_of_inSemaDown (h : st.inSemaDown t = false) : st.downOf t = none := by
  rw [Option.eq_none_iff_forall_ne_some]
  intro s hs
  obtain ⟨lock, hhead⟩ := downOf_eq_some.mp hs
  obtain ⟨rest, htodo⟩ := List.head?_eq_some_iff.mp hhead
  rw [inSemaDown, htodo] at h
  cases h

section

variable (h : SyncInv st)
include h

theorem SyncInv.sched_schedule (hr : ReadyInv False st) {next : Nat}
    (hst : st.schedule = some (next, st')) : Sched st st' := by
  have hnext := (hr.schedule hst).1.current
  rw [schedule, Option.map_eq_some_iff] at hst
  obtain ⟨⟨picked, rest⟩, hpick, heq⟩ := hst
  cases heq
  refine sched_setStatus next .running _ _ (fun s hs => ⟨by rintro ⟨⟩, fun hb => ?_⟩) fun _ =>
    hnext
  rw [nextThreadToRun] at hpick
  split at hpick
  next =>
    -- The idle thread is in no call.
    obtain ⟨t, hidle, heq⟩ := Option.map_eq_some_iff.mp hpick
    cases heq
    rw [downOf, head, (h.idle _ hidle).2] at hs
    cases hs
  next t rest' hcons =>
    cases hpick
    have hready := hr.ready _ (hcons ▸ List.mem_cons_self)
    cases hready.symm.trans hb

section

variable (hrun : st.status st.current = .running)
include hrun

theorem SyncInv.calm_setTodo (htodo : st.todo = f :: rest) : Calm (st.setTodo rest) := by
  have hself := thread_setTodo_self st rest
  refine ⟨(congrArg Thread.status hself).trans hrun, h.not_idle htodo, fun g hg => ?_⟩
  rw [show (st.setTodo rest).todo = rest from congrArg Thread.todo hself] at hg
  exact h.noLoop_tail htodo g hg

theorem SyncInv.call_changes
    {c : ThreadCall} (hnil : st.todo = []) (hidle : st.idle = some st.current → c.ofIdle)
    (hjust : fits → st.DonationsJustified (.call c)) (hst : st.call c = some st') :
    SyncChanges fits st st' := by
  have hne := not_blocked_of_running hrun
  have hcalm : c.ofIdle = false → Calm st := fun hof =>
    ⟨hrun, fun heq => (nomatch hof.symm.trans (hidle heq)), fun f hf => by
      rw [hnil] at hf
      cases hf⟩
  cases c with
  | create priority =>
    obtain ⟨-, hst⟩ := Option.ite_none_right_eq_some.mp hst
    cases hst
    exact .single (push_change (hcalm rfl) (by simp [Frame.isLoop, Frame.Fits]))
  | yield =>
    cases hst
    exact .single (.sched (sched_threadYield hne))
  | block =>
    cases hst
    exact .single (.sched (sched_threadBlock (noLoop_of_nil hnil)))
  | unblock t =>
    obtain ⟨hnot, hst⟩ := Option.ite_none_left_eq_some.mp hst
    exact threadUnblock_changes (downOf_of_inSemaDown (by simpa using hnot)) hrun hst
  | semaDown s =>
    cases hst
    exact .single ((hcalm rfl).semaDown_change ⟨fun l => by simp, nofun⟩ hjust)
  | semaUp s => exact semaUp_changes (fun _ heq => SemaId.noConfusion heq) hrun hst
  | semaTryDown s =>
    cases hst
    rw [semaTryDown]
    split
    next hpos =>
      have htake : SyncChange fits st ((st.semaTake (.plain s)).own none) :=
        (hcalm rfl).take_change (fun l => by simp) hpos
      exact .single htake
    next => exact .refl
  | lockAcquire l =>
    exact .single (lockAcquire_change (hcalm rfl) (fun _ => h.value_of_holder) hjust hst)
  | lockTryAcquire l => exact tryAcquire_changes (hcalm rfl) hst
  | lockRelease l => exact .single (lockRelease_change (hcalm rfl) hst)
  | setPriority priority =>
    cases hst
    exact threadSetPriority_changes (hcalm rfl) priority
  | condWait c l => exact condWait_changes (hcalm rfl) hst
  | condSignal c l => exact condSignal_changes (hcalm rfl) hst
  | condBroadcast c l => exact condBroadcast_changes (hcalm rfl) hst
  | idle =>
    obtain ⟨-, hst⟩ := Option.ite_none_right_eq_some.mp hst
    cases hst
    refine .single (.sched ⟨fun _ => rfl, rfl, rfl, rfl, rfl, rfl, rfl, rfl, rfl, id,
      fun t ht => ?_, fun _ _ _ => .rfl⟩)
    exact .inr ⟨(Option.some_inj.mp ht).symm, hnil⟩

theorem SyncInv.resume_changes {frame : Frame} (htodo : st.todo = frame :: rest)
    (hjust : fits → (st.setTodo rest).FrameJustified frame)
    (hst : (st.setTodo rest).resume frame = some st') : SyncChanges fits st st' := by
  have hcalm := h.calm_setTodo hrun htodo
  -- A frame that is not one of a loop is left before the call goes on.
  have hleave : frame.isLoop = false → SyncChange fits st (st.setTodo rest) := fun hframe =>
    .frames rest (h.not_idle htodo) (h.noLoop htodo hframe) (h.noLoop_tail htodo)
  have hfits : frame.Fits st.current :=
    h.fits _ h.current frame (List.mem_of_mem_head? (List.head?_eq_some_iff.mpr ⟨rest, htodo⟩))
  cases frame with
  | acquire l =>
    exact .head (hleave rfl)
      (.single (lockAcquire_change hcalm (fun _ => h.value_of_holder) hjust hst))
  | callDown s =>
    cases hst
    exact .head (hleave rfl) (.single (hcalm.semaDown_change
      ⟨fun l => ⟨fun hs => absurd hs (hfits.1 l), nofun⟩, hfits.2⟩ hjust))
  | down s lock =>
    cases hst
    exact .single (semaDown_change (.inr htodo) (not_blocked_of_running hrun) (h.not_idle htodo)
      hfits hjust)
  | up s => exact .head (hleave rfl) (semaUp_changes hfits hcalm.running hst)
  | broadcast c l => exact .head (hleave rfl) (condBroadcast_changes hcalm hst)
  | release l => exact .head (hleave rfl) (.single (lockRelease_change hcalm hst))
  | releaseRest l => exact lockReleaseRest_changes htodo hrun hst
  | create priority => exact .head (hleave rfl) (threadCreate_changes hcalm h.current hst)
  | createCheck priority =>
    cases hst
    refine .head (hleave rfl) ?_
    split
    · exact .single (.sched (sched_threadYield hcalm.not_blocked))
    · exact .refl

end

/-- **What a step is made of.** -/
theorem SyncInv.changes_of_step (hr : ReadyInv False st) {tick : Tick}
    {picked : Option Nat} (hjust : fits → st.DonationsJustified tick)
    (hst : threadMachine.step st tick = some (picked, st')) : SyncChanges fits st st' := by
  cases stepped hst with
  | schedule _ hst => exact .single (.sched (h.sched_schedule hr hst))
  | call hsw hnil hidle hst => exact h.call_changes (hr.running hsw) hnil hidle hjust hst
  | @next frame _ hsw hframe hst =>
    obtain ⟨rest, htodo⟩ := List.head?_eq_some_iff.mp hframe
    rw [pop_eq_setTodo htodo] at hst
    exact h.resume_changes (hr.running hsw) htodo
      (fun hf => pop_eq_setTodo htodo ▸ hjust hf frame hframe) hst
  | preempt hsw =>
    exact .single (.sched (sched_threadYield (not_blocked_of_running (hr.running hsw))))
  | wake hsw hout hst =>
    exact threadUnblock_changes (downOf_of_inSemaDown hout) (hr.running hsw) hst
  | interruptUp hsw _ hst =>
    exact semaUp_changes (fun _ heq => SemaId.noConfusion heq) (hr.running hsw) hst

end

end ThreadSystem

end Pintos
