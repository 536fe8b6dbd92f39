import Pintos.Threads.Donation

/-!
# Priorities that are restored and set

A thread that holds locks should run at its own priority or at that of the threads that are blocked
for these locks, whichever is greatest.  Two functions compute the priority anew.

`restore_priority` is called by `lock_release`.  It purges `potential_donator` of the threads that
wait for the lock, and takes the first of the others, once it has sorted them.  They are sorted by
the address of the lock that they wait for, as the comparison takes their list elements for others,
and whoever waits for a lock that has changed hands is not in the list of its new holder at all.  So
one thread counts: of those that are enrolled, the first that waits for the lock at the highest
address.

* `ThreadSystem.Leads` is that thread, and `restorePriority_eq` says that `restore_priority` reads
  nothing else.
* `Donates` are the threads that should count, and `Restored` is what the priority should be.
* `restore_priority_iff`: it is so exactly if no thread that should count has a higher priority than
  both the thread itself and the one that leads.

`thread_set_priority` takes a thread whose priority is not its own for one that has been donated to,
leaves its priority as it is, and does not yield.  Otherwise it sets both, whoever waits for it.

* `BaseSet` is what should hold after the call.
* `set_priority_iff`: when it does.
-/

namespace Pintos

namespace ThreadSystem

variable {st st' : ThreadSystem} {t d e l : Nat} {fits : Prop}

/-! ## The thread that leads -/

/-- The threads that are enrolled with `t` and do not wait for the lock `l`. -/
def enrolled (st : ThreadSystem) (t l : Nat) : List Nat :=
  (st.thread t).potentialDonator.filter fun d => (st.thread d).waitingLock ≠ some l

/-- Of the threads that are enrolled with `t` and do not wait for the lock `l`, the thread `e` is
the first of those that wait for the lock at the highest address. -/
def Leads (st : ThreadSystem) (t l e : Nat) : Prop :=
  (∀ d ∈ st.enrolled t l, st.waitingLockAsInt d ≤ st.waitingLockAsInt e) ∧
    (withKey st.waitingLockAsInt (st.waitingLockAsInt e) (st.enrolled t l)).head? = some e

instance (st : ThreadSystem) (t l e : Nat) : Decidable (st.Leads t l e) :=
  inferInstanceAs (Decidable (_ ∧ _))

theorem Leads.mem (h : st.Leads t l e) : e ∈ st.enrolled t l :=
  (mem_withKey.mp (List.mem_of_mem_head? h.2)).1

theorem Leads.unique (h : st.Leads t l e) (h' : st.Leads t l d) : e = d := by
  have hkey : st.waitingLockAsInt e = st.waitingLockAsInt d :=
    Int.le_antisymm (h'.1 e h.mem) (h.1 d h'.mem)
  have hhead := h.2
  rw [hkey, h'.2] at hhead
  exact (Option.some_inj.mp hhead).symm

theorem compareDonation_eq_true (st : ThreadSystem) (a b : Nat) :
    st.compareDonation a b = true ↔ st.waitingLockAsInt b < st.waitingLockAsInt a := by
  rw [compareDonation, decide_eq_true_iff]

/-- **`restore_priority` reads the priority of the thread that leads**, if there is one. -/
theorem restorePriority_eq (st : ThreadSystem) (l : Nat) :
    (st.enrolled st.current l = [] ∧
      (st.restorePriority l).priority st.current = (st.thread st.current).originPriority) ∨
    ∃ e, st.Leads st.current l e ∧ (e ≠ st.current → (st.restorePriority l).priority st.current =
      max (st.thread st.current).originPriority (st.priority e)) := by
  have hsorts : Sorts st.waitingLockAsInt (st.enrolled st.current l)
      (listSort st.compareDonation ((listSort st.compareDonation
        (st.thread st.current).potentialDonator).filter
          fun d => (st.thread d).waitingLock ≠ some l)) :=
    ((sorts_listSort st.compareDonation_eq_true _).filter _).trans
      (sorts_listSort st.compareDonation_eq_true _)
  rw [priority, restorePriority, thread_modify, if_pos rfl]
  cases hlist : listSort st.compareDonation ((listSort st.compareDonation
      (st.thread st.current).potentialDonator).filter
        fun d => (st.thread d).waitingLock ≠ some l) with
  | nil =>
    rw [hlist] at hsorts
    exact .inl ⟨hsorts.perm.nil_eq.symm, rfl⟩
  | cons e rest =>
    rw [hlist] at hsorts
    refine .inr ⟨e, hsorts.head, fun hne => ?_⟩
    rw [List.head?_cons]
    dsimp only
    rw [if_neg hne]
    split
    next hlt => exact (max_eq_right hlt.le).symm
    next hle => exact (max_eq_left (Int.not_lt.mp hle)).symm

/-! ## The threads that should count -/

/-- The thread `d` is blocked in `lock_acquire` for a lock that `t` holds. -/
def Donates (st : ThreadSystem) (t d : Nat) : Prop :=
  d < st.nextThread ∧ ∃ l, st.holder l = some t ∧ st.BlockedFor d l

/-- **The right priority**: the greatest of that which the thread was given and those of the threads
that are blocked for its locks. -/
structure RightPriority (st : ThreadSystem) (t : Nat) : Prop where
  own : (st.thread t).originPriority ≤ st.priority t
  donated : ∀ d, st.Donates t d → st.priority d ≤ st.priority t
  attained : st.priority t = (st.thread t).originPriority ∨
    ∃ d, st.Donates t d ∧ st.priority t = st.priority d

/-- The states differ in what the thread `t`, which is not blocked, has left to do and in its
priority. -/
structure Beside (st : ThreadSystem) (t : Nat) (st' : ThreadSystem) : Prop where
  nextThread : st'.nextThread = st.nextThread
  holder : st'.holder = st.holder
  others : ∀ u, u ≠ t → st'.thread u = st.thread u
  awake : st.status t ≠ .blocked ∧ st'.status t ≠ .blocked

section

variable (h : Beside st t st')
include h

theorem Beside.donates_iff : st'.Donates t d ↔ st.Donates t d := by
  by_cases hd : d = t
  · subst hd
    exact iff_of_false (fun ⟨_, _, _, hb⟩ => h.awake.2 hb.2) fun ⟨_, _, _, hb⟩ => h.awake.1 hb.2
  · rw [Donates, Donates, h.nextThread, h.holder]
    simp only [BlockedFor, head, status, h.others d hd]

theorem Beside.ne_of_donates (hd : st.Donates t d) : d ≠ t := by
  rintro rfl
  obtain ⟨_, _, _, hb⟩ := hd
  exact h.awake.1 hb.2

theorem Beside.priority_of_donates (hd : st.Donates t d) : st'.priority d = st.priority d := by
  rw [priority, h.others d (h.ne_of_donates hd)]

/-- A priority that is the thread's own or that of one that is blocked for its locks is right if it
is not too low. -/
theorem Beside.rightPriority_iff (hown : (st'.thread t).originPriority ≤ st'.priority t)
    (hattained : st'.priority t = (st'.thread t).originPriority ∨
      ∃ e, st.Donates t e ∧ st'.priority t = st.priority e) :
    st'.RightPriority t ↔ ∀ d, st.Donates t d → st.priority d ≤ st'.priority t := by
  constructor
  · intro hright d hd
    have hle := hright.donated d (h.donates_iff.mpr hd)
    rwa [h.priority_of_donates hd] at hle
  · intro hall
    refine ⟨hown, fun d hd => ?_, hattained.imp_right fun ⟨e, he, heq⟩ => ?_⟩
    · have hd := h.donates_iff.mp hd
      rw [h.priority_of_donates hd]
      exact hall d hd
    · exact ⟨e, h.donates_iff.mpr he, heq.trans (h.priority_of_donates he).symm⟩

end

/-! ## Restoring a priority -/

theorem beside_modify_current {f : Thread → Thread} (hrun : st.status st.current = .running)
    (hstatus : (f (st.thread st.current)).status ≠ .blocked) :
    Beside st st.current (st.modify st.current f) := by
  refine ⟨rfl, rfl, fun u hu => ?_, ?_, ?_⟩
  · rw [thread_modify, if_neg hu]
  · exact not_blocked_of_running hrun
  · rwa [status, thread_modify, if_pos rfl]

theorem Beside.trans {st'' : ThreadSystem} (h : Beside st t st') (h' : Beside st' t st'') :
    Beside st t st'' where
  nextThread := h'.nextThread.trans h.nextThread
  holder := h'.holder.trans h.holder
  others u hu := (h'.others u hu).trans (h.others u hu)
  awake := ⟨h.awake.1, h'.awake.2⟩

theorem thread_pop_self (st : ThreadSystem) :
    st.pop.thread st.current = { st.thread st.current with todo := st.todo.tail } := by
  rw [pop, thread_modify, if_pos rfl]

theorem waitingLock_pop (st : ThreadSystem) (u : Nat) :
    (st.pop.thread u).waitingLock = (st.thread u).waitingLock := by
  rw [pop, thread_modify]
  split
  next hu => rw [hu]
  next => rfl

theorem beside_restorePriority (hrun : st.status st.current = .running) (l : Nat) :
    Beside st st.current (st.pop.restorePriority l) := by
  have hpop : Beside st st.current st.pop :=
    beside_modify_current hrun (not_blocked_of_running hrun)
  have hrun' : st.pop.status st.pop.current = .running :=
    (congrArg Thread.status st.thread_pop_self).trans hrun
  refine hpop.trans ?_
  unfold restorePriority
  exact beside_modify_current hrun' (not_blocked_of_running hrun')

theorem originPriority_restorePriority (st : ThreadSystem) (l : Nat) :
    ((st.pop.restorePriority l).thread st.current).originPriority =
      (st.thread st.current).originPriority := by
  have hpop : (st.pop.thread st.pop.current).originPriority = _ :=
    congrArg Thread.originPriority st.thread_pop_self
  exact (restorePriority_self st.pop l).1.trans hpop

theorem leads_pop : st.pop.Leads st.current l e ↔ st.Leads st.current l e := by
  have hlock : st.pop.waitingLockAsInt = st.waitingLockAsInt := funext fun u => by
    rw [waitingLockAsInt, waitingLock_pop, waitingLockAsInt]
  have henrolled : st.pop.enrolled st.current l = st.enrolled st.current l := by
    rw [enrolled, thread_pop_self]
    exact List.filter_congr fun u _ => by rw [waitingLock_pop]
  rw [Leads, Leads, hlock, henrolled]

/-- Whoever is enrolled with a thread that releases the lock, and does not wait for it, is blocked
for another lock that the thread holds. -/
theorem DonInv.donates_of_enrolled (h : DonInv fits st) (ht : t < st.nextThread)
    (hhead : st.head t = some (.releaseRest l)) (he : e ∈ st.enrolled t l) : st.Donates t e := by
  obtain ⟨hmem, hother⟩ := List.mem_filter.mp he
  obtain ⟨hlt, l', hwait, hblock, hlink⟩ := h.donators t ht e hmem
  refine ⟨hlt, l', hlink.resolve_right fun hrel => ?_, hblock⟩
  rw [hhead] at hrel
  cases hrel
  exact of_decide_eq_true hother hwait

theorem restored_priority (h : DonInv fits st) (ht : st.current < st.nextThread)
    (hrun : st.status st.current = .running)
    (hhead : st.head st.current = some (.releaseRest l)) :
    ((∀ e, ¬ st.Leads st.current l e) ∧ (st.pop.restorePriority l).priority st.current =
      (st.thread st.current).originPriority) ∨
    ∃ e, st.Leads st.current l e ∧ st.Donates st.current e ∧
      (st.pop.restorePriority l).priority st.current =
        max (st.thread st.current).originPriority (st.priority e) := by
  have horigin : (st.pop.thread st.current).originPriority =
      (st.thread st.current).originPriority := by rw [thread_pop_self]
  rcases restorePriority_eq st.pop l with ⟨hnil, hpriority⟩ | ⟨e, hleads, hpriority⟩
  · refine .inl ⟨fun e hleads => ?_, hpriority.trans horigin⟩
    have hmem := (leads_pop.mpr hleads).mem
    rw [show st.pop.enrolled st.current l = [] from hnil] at hmem
    cases hmem
  · have hleads : st.Leads st.current l e := leads_pop.mp hleads
    have hdonates := h.donates_of_enrolled ht hhead hleads.mem
    have hne : e ≠ st.current := by
      rintro rfl
      obtain ⟨_, _, _, hb⟩ := hdonates
      exact not_blocked_of_running hrun hb.2
    refine .inr ⟨e, hleads, hdonates, ?_⟩
    rw [← horigin, ← priority_pop st e]
    exact hpriority hne

end ThreadSystem

/-- **When releasing a lock restores the right priority.**  After `restore_priority`, and before
`sema_up`, the priority of the thread that releases the lock `l` is the greatest of that which it
was given and those of the threads that are blocked in `lock_acquire` for a lock that it still
holds, exactly if each of them has at most the priority that the thread was given, or that of the
thread that leads. -/
theorem restore_priority_iff {st : ThreadSystem} {l : Nat}
    (hreach : threadMachine.Reach ThreadSystem.Boot (fun _ _ => True) st)
    (hsw : st.switching = false) (hhead : st.head st.current = some (.releaseRest l)) :
    (st.pop.restorePriority l).RightPriority st.current ↔
      ∀ d, st.Donates st.current d → st.priority d ≤ (st.thread st.current).originPriority ∨
        ∃ e, st.Leads st.current l e ∧ st.priority d ≤ st.priority e := by
  have hsound := ThreadSystem.Sound.of_reach hreach
  have hdon : ThreadSystem.DonInv False st := .of_reach False.elim hreach
  have hrun := hsound.ready.running hsw
  have hbeside := ThreadSystem.beside_restorePriority hrun l
  have horigin := ThreadSystem.originPriority_restorePriority st l
  rcases ThreadSystem.restored_priority hdon hsound.current hrun hhead with
    ⟨hnone, hpriority⟩ | ⟨e, hleads, hdonates, hpriority⟩
  · rw [hbeside.rightPriority_iff (horigin.trans hpriority.symm).le
      (.inl (hpriority.trans horigin.symm)), hpriority]
    refine forall₂_congr fun d _ => ?_
    exact (or_iff_left fun ⟨e, hleads, _⟩ => hnone e hleads).symm
  · have hattained : _ ∨ ∃ e, st.Donates st.current e ∧ _ = st.priority e :=
      (max_choice (st.thread st.current).originPriority (st.priority e)).imp
        (fun h => hpriority.trans (h.trans horigin.symm))
        fun h => ⟨e, hdonates, hpriority.trans h⟩
    rw [hbeside.rightPriority_iff (horigin.trans_le (hpriority ▸ le_max_left _ _)) hattained,
      hpriority]
    refine forall₂_congr fun d _ => le_max_iff.trans (or_congr_right ?_)
    exact ⟨fun hle => ⟨e, hleads, hle⟩, fun ⟨e', hleads', hle⟩ => hleads.unique hleads' ▸ hle⟩

/-- The initial thread takes three locks.  A thread of priority 40 waits for the lock `a` and one of
priority 50 for the lock `b`.  The initial thread begins to release the lock `l`. -/
def ThreadSystem.threeLocks (l a b : Nat) : List Tick :=
  let waiter (priority : Int) (lock : Nat) : List Tick :=
    [.call (.create priority), .next, .next, .next, .next, .schedule, .call (.lockAcquire lock),
      .schedule, .next]
  [.call (.lockAcquire l), .call (.lockAcquire a), .call (.lockAcquire b)] ++
    waiter 40 a ++ waiter 50 b ++ [.call (.lockRelease l)]

/-- The lock that the thread of priority 50 waits for is the one at the higher address. -/
theorem restore_priority_iff_higher : ∃ st,
    threadMachine.Reach ThreadSystem.Boot (fun _ _ => True) st ∧
      st.head st.current = some (.releaseRest 0xc0200000) ∧
      (st.pop.restorePriority 0xc0200000).RightPriority st.current ∧
      (st.pop.restorePriority 0xc0200000).priority st.current = 50 := by
  obtain ⟨st, hreach, hsw, hhead, hnext, hle, hleads, hpriority⟩ :=
    threadMachine.exists_reach ThreadSystem.boot_booted
      (ThreadSystem.threeLocks 0xc0200000 0xc0200040 0xc0200080)
      (fun st => st.switching = false ∧ st.head st.current = some (.releaseRest 0xc0200000) ∧
        st.nextThread = 3 ∧ (∀ d ∈ List.range 3, st.priority d ≤ st.priority 2) ∧
        st.Leads st.current 0xc0200000 2 ∧
        (st.pop.restorePriority 0xc0200000).priority st.current = 50) (by decide +kernel)
  refine ⟨st, hreach, hhead, (restore_priority_iff hreach hsw hhead).mpr fun d hd => ?_, hpriority⟩
  exact .inr ⟨2, hleads, hle d (List.mem_range.mpr (hnext ▸ hd.1))⟩

/-- **A donation is lost.**  The lock that the thread of priority 50 waits for is the one at the
lower address: the initial thread is left with the priority 40. -/
theorem restore_priority_too_low : ∃ st,
    threadMachine.Reach ThreadSystem.Boot (fun _ _ => True) st ∧ st.switching = false ∧
      st.head st.current = some (.releaseRest 0xc0200000) ∧
      st.holder 0xc0200040 = some st.current ∧ st.BlockedFor 2 0xc0200040 ∧
      (st.pop.restorePriority 0xc0200000).priority 2 = 50 ∧
      (st.pop.restorePriority 0xc0200000).priority st.current = 40 ∧
      ¬ (st.pop.restorePriority 0xc0200000).RightPriority st.current := by
  obtain ⟨st, hreach, hsw, hhead, hnext, hholder, hblocked, hstill, htwo, hcurrent⟩ :=
    threadMachine.exists_reach ThreadSystem.boot_booted
      (ThreadSystem.threeLocks 0xc0200000 0xc0200080 0xc0200040)
      (fun st => st.switching = false ∧ st.head st.current = some (.releaseRest 0xc0200000) ∧
        st.nextThread = 3 ∧ st.holder 0xc0200040 = some st.current ∧
        st.BlockedFor 2 0xc0200040 ∧ (st.pop.restorePriority 0xc0200000).BlockedFor 2 0xc0200040 ∧
        (st.pop.restorePriority 0xc0200000).priority 2 = 50 ∧
        (st.pop.restorePriority 0xc0200000).priority st.current = 40) (by decide +kernel)
  refine ⟨st, hreach, hsw, hhead, hholder, hblocked, htwo, hcurrent, fun hright => ?_⟩
  have hlt : 2 < (st.pop.restorePriority 0xc0200000).nextThread := by
    show 2 < st.nextThread
    rw [hnext]
    decide
  have hle := hright.donated 2 ⟨hlt, 0xc0200040, hholder, hstill⟩
  rw [htwo, hcurrent] at hle
  exact absurd hle (by decide)

/-! ## Setting the base priority -/

namespace ThreadSystem

variable {st : ThreadSystem} {p : Int}

/-- The current thread keeps running: it has not yielded, or it is the one that is picked. -/
def KeepsRunning (st : ThreadSystem) : Prop :=
  st.switching = false ∨ ∃ rest, st.nextThreadToRun = some (st.current, rest)

/-- **The base priority is set**: the current thread was given the priority `p`, runs at the right
one, and does not keep running while a thread of higher priority is ready. -/
structure BaseSet (st : ThreadSystem) (p : Int) : Prop extends RightPriority st st.current where
  origin : (st.thread st.current).originPriority = p
  yields : st.KeepsRunning → ∀ r ∈ st.readyList, st.priority r ≤ st.priority st.current

/-- **When the base priority may be set to `p`.**  If the priority of the current thread is not its
own, it is at least `p`, it is right with `p` for the thread's own one, and no ready thread has a
higher one.  If it is, no thread that is blocked for one of its locks has a higher priority than
`p`, and if a ready thread has, the first one of the ready list has. -/
def BaseFits (st : ThreadSystem) (p : Int) : Prop :=
  if st.priority st.current ≠ (st.thread st.current).originPriority then
    p ≤ st.priority st.current ∧
    (∀ d, st.Donates st.current d → st.priority d ≤ st.priority st.current) ∧
    (st.priority st.current = p ∨
      ∃ d, st.Donates st.current d ∧ st.priority st.current = st.priority d) ∧
    ∀ r ∈ st.readyList, st.priority r ≤ st.priority st.current
  else
    (∀ d, st.Donates st.current d → st.priority d ≤ p) ∧
    ((∃ r ∈ st.readyList, p < st.priority r) → ∃ r ∈ st.readyList.head?, p < st.priority r)

/-- The current thread is given the priority `p`, and runs at the priority `q`. -/
def setBase (st : ThreadSystem) (q p : Int) : ThreadSystem :=
  st.modify st.current fun t => { t with priority := q, originPriority := p }

theorem thread_setBase_self (st : ThreadSystem) (q p : Int) :
    (st.setBase q p).thread st.current =
      { st.thread st.current with priority := q, originPriority := p } := by
  rw [setBase, thread_modify, if_pos rfl]

theorem beside_setBase (hrun : st.status st.current = .running) (q p : Int) :
    Beside st st.current (st.setBase q p) :=
  beside_modify_current hrun (not_blocked_of_running hrun)

theorem priority_setBase_of_ready (h : ReadyInv False st) (hsw : st.switching = false) {r : Nat}
    (hr : r ∈ st.readyList) (q p : Int) : (st.setBase q p).priority r = st.priority r := by
  have hne : r ≠ st.current := fun heq => h.current_notMem hsw (heq ▸ hr)
  rw [priority, setBase, thread_modify, if_neg hne]

theorem beside_threadYield (hrun : st.status st.current = .running) :
    Beside st st.current st.threadYield := by
  have hready : Beside st st.current (st.modify st.current fun t => { t with status := .ready }) :=
    beside_modify_current hrun fun heq => ThreadStatus.noConfusion heq
  rw [threadYield]
  split <;> exact ⟨hready.nextThread, hready.holder, hready.others, hready.awake⟩

theorem baseSet_setBase_iff (h : ReadyInv False st) (hsw : st.switching = false) (q : Int) :
    (st.setBase q p).BaseSet p ↔ p ≤ q ∧ (∀ d, st.Donates st.current d → st.priority d ≤ q) ∧
      (q = p ∨ ∃ d, st.Donates st.current d ∧ q = st.priority d) ∧
      ∀ r ∈ st.readyList, st.priority r ≤ q := by
  have hbeside := beside_setBase (h.running hsw) q p
  have hself := thread_setBase_self st q p
  have hpriority : (st.setBase q p).priority st.current = q := congrArg Thread.priority hself
  have horigin : ((st.setBase q p).thread st.current).originPriority = p :=
    congrArg Thread.originPriority hself
  have hready : ∀ r ∈ st.readyList, (st.setBase q p).priority r = st.priority r := fun r hr =>
    priority_setBase_of_ready h hsw hr q p
  constructor
  · intro hset
    have hown := hset.own
    have hattained := hset.attained
    have hyields := hset.yields (.inl hsw)
    rw [show (st.setBase q p).current = st.current from rfl, hpriority] at hown hattained hyields
    rw [horigin] at hown hattained
    refine ⟨hown, fun d hd => ?_, hattained.imp_right ?_, fun r hr => ?_⟩
    · have hle := hset.donated d (hbeside.donates_iff.mpr hd)
      rwa [hbeside.priority_of_donates hd, show (st.setBase q p).current = st.current from rfl,
        hpriority] at hle
    · rintro ⟨d, hd, heq⟩
      have hd := hbeside.donates_iff.mp hd
      exact ⟨d, hd, heq.trans (hbeside.priority_of_donates hd)⟩
    · rw [← hready r hr]
      exact hyields r hr
  · rintro ⟨hown, hdonated, hattained, hyields⟩
    have hright : (st.setBase q p).RightPriority st.current := by
      refine (hbeside.rightPriority_iff ?_ ?_).mpr ?_ <;> rw [hpriority]
      · rwa [horigin]
      · rwa [horigin]
      · exact hdonated
    refine ⟨hright, horigin, fun _ r hr => ?_⟩
    rw [hready r hr]
    exact (hyields r hr).trans_eq hpriority.symm

theorem baseSet_threadYield_iff (h : ReadyInv False st) (hsw : st.switching = false)
    (hidle : st.idle ≠ some st.current) {front : Nat} {rest : List Nat}
    (hready : st.readyList = front :: rest) (hlt : p < st.priority front) :
    (st.setBase p p).threadYield.BaseSet p ↔
      ∀ d, st.Donates st.current d → st.priority d ≤ p := by
  have hrun : (st.setBase p p).status st.current = .running :=
    (congrArg Thread.status (thread_setBase_self st p p)).trans (h.running hsw)
  have hyield : (st.setBase p p).threadYield =
      { (st.setBase p p).makeReady st.current with switching := true } :=
    if_neg fun heq => hidle heq.symm
  have hself : (st.setBase p p).threadYield.thread st.current =
      { st.thread st.current with priority := p, originPriority := p, status := .ready } := by
    rw [hyield]
    refine (thread_makeReady _ st.current st.current).trans ?_
    rw [if_pos rfl, thread_setBase_self]
  have hpriority : (st.setBase p p).threadYield.priority st.current = p :=
    congrArg Thread.priority hself
  have horigin : ((st.setBase p p).threadYield.thread st.current).originPriority = p :=
    congrArg Thread.originPriority hself
  have hcurrent : (st.setBase p p).threadYield.current = st.current := by rw [hyield]; rfl
  have hbeside : Beside st st.current (st.setBase p p).threadYield :=
    (beside_setBase (h.running hsw) p p).trans (beside_threadYield hrun)
  have hmem : front ∈ st.readyList := hready ▸ .head _
  -- The thread is inserted behind the first one, whose priority is higher.
  have hpick : ¬ (st.setBase p p).threadYield.KeepsRunning := by
    have hless : (st.setBase p p).comparePriority st.current front = false := by
      have hself : (st.setBase p p).priority st.current = p :=
        congrArg Thread.priority (thread_setBase_self st p p)
      rw [comparePriority, hself, priority_setBase_of_ready h hsw hmem, decide_eq_false_iff_not]
      exact Int.not_lt.mpr hlt.le
    have hlist : (st.setBase p p).threadYield.readyList = front ::
        listInsertOrdered (st.setBase p p).comparePriority st.current rest := by
      rw [hyield]
      show listInsertOrdered _ st.current st.readyList = _
      rw [hready, listInsertOrdered, hless]
      rfl
    rintro (hsw' | ⟨picked, hpick⟩)
    · rw [hyield] at hsw'
      cases hsw'
    · rw [nextThreadToRun, hlist, hcurrent] at hpick
      have hfront : front = st.current := congrArg Prod.fst (Option.some_inj.mp hpick)
      exact h.current_notMem hsw (hfront ▸ hmem)
  have hiff := hbeside.rightPriority_iff (horigin.trans hpriority.symm).le
    (.inl (hpriority.trans horigin.symm))
  rw [hpriority] at hiff
  rw [← hiff]
  exact ⟨fun hset => hcurrent ▸ hset.toRightPriority,
    fun hright => ⟨hcurrent.symm ▸ hright, hcurrent.symm ▸ horigin,
      fun hkeeps => absurd hkeeps hpick⟩⟩

/-- **`thread_set_priority`.** -/
theorem baseSet_iff (h : ReadyInv False st) (hsw : st.switching = false)
    (hidle : st.idle ≠ some st.current) : (st.threadSetPriority p).BaseSet p ↔ st.BaseFits p := by
  have hready := baseSet_setBase_iff (p := p) h hsw
  rw [BaseFits]
  unfold threadSetPriority
  split
  next hne =>
    have heq : (st.modify st.current fun t => { t with originPriority := p }) =
        st.setBase (st.priority st.current) p := rfl
    rw [heq, hready]
  next =>
    have hstays : (¬ ∃ r ∈ st.readyList.head?, p < st.priority r) →
        ((st.setBase p p).BaseSet p ↔ (∀ d, st.Donates st.current d → st.priority d ≤ p) ∧
          ((∃ r ∈ st.readyList, p < st.priority r) →
            ∃ r ∈ st.readyList.head?, p < st.priority r)) :=
      fun hnot => by
        rw [hready]
        constructor
        · rintro ⟨-, hdonated, -, hle⟩
          refine ⟨hdonated, ?_⟩
          rintro ⟨r, hr, hlt⟩
          exact absurd hlt (Int.not_lt.mpr (hle r hr))
        · rintro ⟨hdonated, himp⟩
          exact ⟨Int.le_refl p, hdonated, .inl rfl, fun r hr =>
            Int.not_lt.mp fun hlt => hnot (himp ⟨r, hr, hlt⟩)⟩
    dsimp only
    split
    next hnil =>
      have hlist : st.readyList = [] := hnil
      refine hstays ?_
      rw [hlist]
      rintro ⟨r, ⟨⟩, -⟩
    next front rest hcons =>
      have hlist : st.readyList = front :: rest := hcons
      have hmem : front ∈ st.readyList := hlist ▸ .head _
      have hfront := priority_setBase_of_ready h hsw hmem p p
      rw [setBase] at hfront
      rw [hfront]
      split
      next hlt =>
        refine (baseSet_threadYield_iff h hsw hidle hlist hlt).trans ?_
        exact (and_iff_left fun _ => ⟨front, by rw [hlist]; rfl, hlt⟩).symm
      next hle =>
        refine hstays ?_
        rw [hlist]
        rintro ⟨r, ⟨⟩, hlt⟩
        exact hle hlt

end ThreadSystem

/-- **When setting the base priority respects donations.**  After `thread_set_priority` the thread
was given the new priority, runs at the greatest of it and those of the threads that are blocked in
`lock_acquire` for its locks, and does not keep running while a ready thread has a higher one,
exactly if the new priority fits. -/
theorem set_priority_iff {st st' : ThreadSystem} {p : Int} {picked : Option Nat}
    (hreach : threadMachine.Reach ThreadSystem.Boot (fun _ _ => True) st)
    (hst : threadMachine.step st (.call (.setPriority p)) = some (picked, st')) :
    st'.BaseSet p ↔ st.BaseFits p := by
  have hsound := ThreadSystem.Sound.of_reach hreach
  obtain ⟨hsw, hst⟩ := Option.ite_none_left_eq_some.mp hst
  obtain ⟨⟨-, hidle⟩, hst⟩ := Option.ite_none_right_eq_some.mp hst
  cases hst
  exact ThreadSystem.baseSet_iff hsound.ready (by simpa using hsw) fun heq => nomatch hidle heq

/-- The initial thread takes a lock, and a thread of priority 40 waits for it. -/
def ThreadSystem.donatedTo (l : Nat) : List Tick :=
  [.call (.lockAcquire l), .call (.create 40), .next, .next, .next, .next, .schedule,
    .call (.lockAcquire l), .schedule, .next]

theorem set_priority_iff_lower : ∃ st st',
    threadMachine.Reach ThreadSystem.Boot (fun _ _ => True) st ∧
      threadMachine.step st (.call (.setPriority 20)) = some (none, st') ∧
      st'.BaseSet 20 ∧ st'.priority st'.current = 40 := by
  obtain ⟨st, hreach, hpriority, horigin, hready, hnext, hone, hholder, hblocked, hle, hstep⟩ :=
    threadMachine.exists_reach ThreadSystem.boot_booted (ThreadSystem.donatedTo 0xc0200000)
      (fun st => st.priority st.current = 40 ∧ (st.thread st.current).originPriority = 31 ∧
        st.readyList = [] ∧ st.nextThread = 2 ∧ st.priority 1 = 40 ∧
        st.holder 0xc0200000 = some st.current ∧ st.BlockedFor 1 0xc0200000 ∧
        (∀ d ∈ List.range 2, st.priority d ≤ 40) ∧
        (threadMachine.step st (.call (.setPriority 20))).map (fun q =>
          (q.1, q.2.priority q.2.current)) = some (none, 40)) (by decide +kernel)
  obtain ⟨⟨picked, st'⟩, hstep, heq⟩ := Option.map_eq_some_iff.mp hstep
  obtain ⟨rfl, hafter⟩ := Prod.mk.inj heq
  refine ⟨st, st', hreach, hstep, (set_priority_iff hreach hstep).mpr ?_, hafter⟩
  rw [ThreadSystem.BaseFits, hpriority, horigin, if_pos (by decide), hready]
  refine ⟨by decide, fun d hd => hle d (List.mem_range.mpr (hnext ▸ hd.1)), .inr ⟨1, ?_⟩, nofun⟩
  exact ⟨⟨by rw [hnext]; decide, 0xc0200000, hholder, hblocked⟩, hone.symm⟩

/-- **The base priority is set above the donated one.**  The thread sets it to 50, and goes on at
the priority 40. -/
theorem set_priority_too_low : ∃ st st',
    threadMachine.Reach ThreadSystem.Boot (fun _ _ => True) st ∧
      threadMachine.step st (.call (.setPriority 50)) = some (none, st') ∧
      (st'.thread st'.current).originPriority = 50 ∧ st'.priority st'.current = 40 ∧
      ¬ st'.BaseSet 50 := by
  obtain ⟨st, hreach, hstep⟩ :=
    threadMachine.exists_reach ThreadSystem.boot_booted (ThreadSystem.donatedTo 0xc0200000)
      (fun st => (threadMachine.step st (.call (.setPriority 50))).map (fun q =>
        (q.1, (q.2.thread q.2.current).originPriority, q.2.priority q.2.current)) =
          some (none, 50, 40)) (by decide +kernel)
  obtain ⟨⟨picked, st'⟩, hstep, heq⟩ := Option.map_eq_some_iff.mp hstep
  simp only [Prod.mk.injEq] at heq
  obtain ⟨rfl, horigin, hpriority⟩ := heq
  refine ⟨st, st', hreach, hstep, horigin, hpriority, fun hset => ?_⟩
  have hown := hset.own
  rw [horigin, hpriority] at hown
  exact absurd hown (by decide)

end Pintos
