import Pintos.Threads.Semaphores

/-!
# Which waiter a semaphore wakes

`sema_down` puts a thread at the end of the `waiters` of the semaphore, in no order, and `sema_up`
sorts the whole list by the priorities that the threads have by then, removes the first one and
unblocks it.

* `ThreadSystem.upped` is the semaphore that a step ups: by a call of `sema_up`, in an interrupt
  handler, in `cond_signal`, or at the end of `lock_release`.
* `Unblocks` says what the sema_up does to the queue: it takes out one waiter of greatest priority,
  and that one only becomes ready.  `upped_step` shows it for every step that ups a semaphore for
  which threads wait.
* `Queues` is the thread system with a history: a clock, and for each thread the time at which it
  was put in the queue in which it is.  `Undisturbed` is the condition that no thread that waits
  changes its priority.
* `Queuing` is what a step does to the queues: a thread joins one at its end, or it is sorted and
  loses its first thread.  `queuing_of_step` says that this is all, and from it follows the
  invariant `FifoInv`: waiters of one priority stand in the order of their arrival.  It is kept
  because `list_sort` is stable.
-/

namespace Pintos

open Function (update update_apply update_of_ne update_self)

/-! ## The steps that up a semaphore -/

/-- The step is one of an interrupt handler. -/
def Tick.inHandler : Tick → Bool
  | .wake _ | .interruptUp _ => true
  | _ => false

namespace ThreadSystem

variable {st st' st₀ : ThreadSystem} {s : SemaId} {t w l : Nat} {rest : List Nat} {tick : Tick}
  {intrContext : Bool}

/-- The rest of `thread_unblock`, once it has made the thread ready. -/
def unblockRest (st : ThreadSystem) (t : Nat) (intrContext : Bool) : Option ThreadSystem :=
  if some st.current ≠ st.idle ∧ st.priority t > st.priority st.current then
    if intrContext then none else some st.threadYield
  else some st

/-- **One waiter is unblocked**: a waiter of greatest priority leaves the queue of the semaphore and
becomes ready, the others stay in it, the other queues are as before, and no other thread is
unblocked or blocked. -/
structure Unblocks (st : ThreadSystem) (s : SemaId) (w : Nat) (st' : ThreadSystem) : Prop where
  waiting : w ∈ st.waiters s
  greatest : ∀ v ∈ st.waiters s, st.priority v ≤ st.priority w
  others : (st'.waiters s).Perm ((st.waiters s).erase w)
  elsewhere : ∀ s', s' ≠ s → st'.waiters s' = st.waiters s'
  ready : st'.status w = .ready ∧ w ∈ st'.readyList
  blocked : ∀ t, st'.status t = .blocked ↔ st.status t = .blocked ∧ t ≠ w

/-- `sema_up`, up to the point at which `thread_unblock` has made the thread ready. -/
def unblocked (st : ThreadSystem) (s : SemaId) (w : Nat) (rest : List Nat) : ThreadSystem :=
  { st with
    value := update st.value s ((st.value s + 1) % 2 ^ 32)
    ups := update st.ups s (st.ups s + 1)
    waiters := update st.waiters s rest }.makeReady w

theorem comparePriority_eq_true (st : ThreadSystem) (a b : Nat) :
    st.comparePriority a b = true ↔ st.priority b < st.priority a := by
  rw [comparePriority, decide_eq_true_iff]

theorem semaUp_eq (st : ThreadSystem) (s : SemaId) (intrContext : Bool) :
    st.semaUp s intrContext = match listSort st.comparePriority (st.waiters s) with
      | [] => some { st with
        value := update st.value s ((st.value s + 1) % 2 ^ 32)
        ups := update st.ups s (st.ups s + 1) }
      | w :: rest =>
        if w < st.nextThread ∧ st.status w = .blocked then
          (st.unblocked s w rest).unblockRest w intrContext
        else none := rfl

theorem semaUp_of_nil (hnil : st.waiters s = [])
    (hst : st.semaUp s intrContext = some st') : st'.waiters = st.waiters := by
  rw [semaUp_eq, hnil] at hst
  cases hst
  rfl

/-- The state in which a step calls `sema_up`, but for the priority of the current thread, which
`lock_release` restores before. -/
structure Nears (st st₀ : ThreadSystem) : Prop where
  current : st₀.current = st.current
  nextThread : st₀.nextThread = st.nextThread
  waiters : st₀.waiters = st.waiters
  readyList : st₀.readyList = st.readyList
  status : ∀ t, st₀.status t = st.status t
  priority : ∀ t, t ≠ st.current → st₀.priority t = st.priority t

theorem Nears.refl (st : ThreadSystem) : Nears st st :=
  ⟨rfl, rfl, rfl, rfl, fun _ => rfl, fun _ _ => rfl⟩

theorem nears_modify_current {f : Thread → Thread}
    (hstatus : (f (st.thread st.current)).status = st.status st.current) :
    Nears st (st.modify st.current f) := by
  refine ⟨rfl, rfl, rfl, rfl, fun t => ?_, fun t ht => ?_⟩
  · rw [status, thread_modify]
    split
    next heq => rw [heq, hstatus]
    next => rfl
  · rw [priority, thread_modify, if_neg ht]

variable {st₁ : ThreadSystem}

theorem Nears.trans (h : Nears st st₀) (h' : Nears st₀ st₁) : Nears st st₁ where
  current := h'.current.trans h.current
  nextThread := h'.nextThread.trans h.nextThread
  waiters := h'.waiters.trans h.waiters
  readyList := h'.readyList.trans h.readyList
  status t := (h'.status t).trans (h.status t)
  priority t ht := (h'.priority t (h.current ▸ ht)).trans (h.priority t ht)

/-- **`sema_up` with waiters.**  It sorts the queue of the semaphore and unblocks the first one. -/
theorem semaUp_of_waiters (h : WaitInv st) (hrun : st.status st.current = .running)
    (hnear : Nears st st₀) (hne : st.waiters s ≠ []) : ∃ w rest,
      Sorts st.priority (st.waiters s) (w :: rest) ∧
      Unblocks st s w (st₀.unblocked s w rest) ∧
      (st₀.unblocked s w rest).waiters = update st.waiters s rest ∧
      ∀ intrContext, st₀.semaUp s intrContext =
        (st₀.unblocked s w rest).unblockRest w intrContext := by
  have hsorts : Sorts st.priority (st.waiters s)
      (listSort st₀.comparePriority (st₀.waiters s)) := by
    rw [hnear.waiters]
    refine (sorts_listSort st₀.comparePriority_eq_true (st.waiters s)).congr fun t ht => ?_
    -- The current thread, which runs, is no waiter.
    refine (hnear.priority t fun heq => ?_).symm
    have hblocked := ((h.waiting s t).mp ht).2.2
    rw [heq, hrun] at hblocked
    cases hblocked
  cases hsort : listSort st₀.comparePriority (st₀.waiters s) with
  | nil =>
    rw [hsort] at hsorts
    exact absurd hsorts.perm.nil_eq.symm hne
  | cons w rest =>
    rw [hsort] at hsorts
    have hmem : w ∈ st.waiters s := hsorts.perm.subset (.head _)
    obtain ⟨hlt, -, hblocked⟩ := (h.waiting s w).mp hmem
    have hwaiters : (st₀.unblocked s w rest).waiters = update st.waiters s rest := by
      rw [← hnear.waiters]
      rfl
    have hstatus : ∀ t, (st₀.unblocked s w rest).status t =
        if t = w then .ready else st.status t := fun t => by
      rw [status, unblocked, thread_makeReady]
      split
      next => rfl
      next => exact hnear.status t
    refine ⟨w, rest, hsorts, ⟨hmem, hsorts.head.1, ?_, fun s' hs' => ?_, ⟨?_, ?_⟩, fun t => ?_⟩,
      hwaiters, fun intrContext => ?_⟩
    · rw [hwaiters, update_self]
      exact (List.cons_perm_iff_perm_erase.mp hsorts.perm).2
    · rw [hwaiters, update_of_ne hs']
    · rw [hstatus, if_pos rfl]
    · exact mem_listInsertOrdered.mpr (.inl rfl)
    · rw [hstatus]
      split
      next heq => exact iff_of_false (by rintro ⟨⟩) fun hb => hb.2 heq
      next hne => exact ⟨fun hb => ⟨hb, hne⟩, And.left⟩
    · have hknown : w < st₀.nextThread ∧ st₀.status w = .blocked := by
        rw [hnear.nextThread, hnear.status]
        exact ⟨hlt, hblocked⟩
      rw [semaUp_eq, hsort]
      exact if_pos hknown

theorem Unblocks.unblockRest (h : Unblocks st s w st₁) (hrun : st₁.status st₁.current = .running)
    (hst : st₁.unblockRest w intrContext = some st') :
    st'.waiters = st₁.waiters ∧ Unblocks st s w st' := by
  rw [ThreadSystem.unblockRest] at hst
  split at hst
  next hyield =>
    obtain ⟨-, hst⟩ := Option.ite_none_left_eq_some.mp hst
    cases hst
    have heq : st₁.threadYield = { st₁.makeReady st₁.current with switching := true } :=
      if_neg hyield.1
    have hne : w ≠ st₁.current := fun hw => by
      have hready := h.ready.1
      rw [hw, hrun] at hready
      cases hready
    have hstatus : ∀ t, st₁.threadYield.status t =
        if t = st₁.current then .ready else st₁.status t := fun t => by
      rw [heq]
      refine (congrArg Thread.status (thread_makeReady st₁ st₁.current t)).trans ?_
      split <;> rfl
    have hwaiters : st₁.threadYield.waiters = st₁.waiters := by rw [heq]; rfl
    refine ⟨hwaiters, h.waiting, h.greatest, hwaiters ▸ h.others, hwaiters ▸ h.elsewhere, ⟨?_, ?_⟩,
      fun t => ?_⟩
    · rw [hstatus, if_neg hne]
      exact h.ready.1
    · rw [heq]
      exact mem_listInsertOrdered.mpr (.inr h.ready.2)
    · rw [hstatus, ← h.blocked]
      split
      next ht => rw [ht, hrun]; exact iff_of_false nofun nofun
      next => exact .rfl
  next =>
    cases hst
    exact ⟨rfl, h⟩

theorem nears_giveUp (st : ThreadSystem) (l : Nat) : Nears st (st.giveUp l) := by
  have hrestored : Nears st (st.restorePriority l) := by
    unfold restorePriority
    exact nears_modify_current rfl
  exact ⟨hrestored.current, hrestored.nextThread, hrestored.waiters, hrestored.readyList,
    hrestored.status, hrestored.priority⟩

/-- **A step that ups a semaphore** calls `sema_up` and nothing more. -/
theorem step_of_upped (hup : st.upped tick = some s) : ∃ st₀, Nears st st₀ ∧
    threadMachine.step st tick = (st₀.semaUp s tick.inHandler).map fun st' => (none, st') := by
  unfold upped at hup
  rw [Option.ite_none_left_eq_some] at hup
  obtain ⟨hsw, hup⟩ := hup
  simp only [threadMachine, if_neg hsw]
  split at hup
  next n =>
    obtain ⟨hnil, hs⟩ := Option.ite_none_right_eq_some.mp hup
    cases hs
    have hcall : st.todo = [] ∧ (st.idle = some st.current → (ThreadCall.semaUp n).ofIdle) :=
      ⟨hnil, fun _ => rfl⟩
    exact ⟨st, .refl st, if_pos hcall⟩
  next =>
    have hpop : Nears st st.pop := nears_modify_current rfl
    split at hup
    next hhead =>
      cases hup
      exact ⟨st.pop, hpop, by rw [hhead]; rfl⟩
    next l hhead =>
      cases hup
      exact ⟨st.pop.giveUp l, hpop.trans (nears_giveUp st.pop l), by rw [hhead]; rfl⟩
    next => cases hup
  next =>
    obtain ⟨hout, hs⟩ := Option.ite_none_left_eq_some.mp hup
    cases hs
    exact ⟨st, .refl st, if_neg hout⟩
  next => cases hup

/-- **A step that ups a semaphore for which threads wait** sorts its queue and unblocks the first
one. -/
theorem upped_step (h : Sound st) (hup : st.upped tick = some s) (hne : st.waiters s ≠ []) :
    ∃ w rest st₁, Sorts st.priority (st.waiters s) (w :: rest) ∧ Unblocks st s w st₁ ∧
      threadMachine.step st tick = (st₁.unblockRest w tick.inHandler).map (fun st' => (none, st')) ∧
      ∀ picked st', threadMachine.step st tick = some (picked, st') →
        st'.waiters = update st.waiters s rest ∧ Unblocks st s w st' := by
  have hsw : st.switching = false := by
    exact Bool.not_eq_true _ ▸ (Option.ite_none_left_eq_some.mp hup).1
  have hrun := h.ready.running hsw
  obtain ⟨st₀, hnear, hstep⟩ := step_of_upped hup
  obtain ⟨w, rest, hsorts, hunblocks, hwaiters, heq⟩ := semaUp_of_waiters h.toWaitInv hrun hnear hne
  rw [heq] at hstep
  refine ⟨w, rest, _, hsorts, hunblocks, hstep, fun picked st' hst => ?_⟩
  rw [hstep, Option.map_eq_some_iff] at hst
  obtain ⟨st'', hst, hpair⟩ := hst
  cases hpair
  have hcurrent : (st₀.unblocked s w rest).current = st.current := hnear.current
  have hrun' : (st₀.unblocked s w rest).status (st₀.unblocked s w rest).current = .running := by
    have hnot : w ≠ st.current := fun hw => by
      have hblocked := ((h.waiting s w).mp hunblocks.waiting).2.2
      rw [hw, hrun] at hblocked
      cases hblocked
    rw [hcurrent, status, unblocked, thread_makeReady, if_neg hnot.symm]
    exact (hnear.status st.current).trans hrun
  obtain ⟨hsame, hunblocks'⟩ := hunblocks.unblockRest hrun' hst
  exact ⟨hsame.trans hwaiters, hunblocks'⟩

/-! ## What a step does to the queues -/

/-- **The queues of the semaphores in a step.**  They are as before, but for one that may be empty
now; or the current thread joins one, at its end; or one is sorted, and its first thread leaves
it. -/
inductive Queuing (st st' : ThreadSystem) : Prop
  | same (h : ∀ s, st'.waiters s = st.waiters s ∨ st'.waiters s = [])
  | joins (s : SemaId) (hrun : st.status st.current ≠ .blocked)
      (h : st'.waiters = update st.waiters s (st.waiters s ++ [st.current]))
  | leaves (s : SemaId) (w : Nat) (rest : List Nat)
      (hsorts : Sorts st.priority (st.waiters s) (w :: rest))
      (h : st'.waiters = update st.waiters s rest)

theorem Queuing.of_eq (h : st'.waiters = st.waiters) : Queuing st st' := .same fun s =>
  .inl (congrFun h s)

variable {picked : Option Nat}

theorem queuing_of_not_upped (h : Sound st) (hup : st.upped tick = none)
    (hst : threadMachine.step st tick = some (picked, st')) : Queuing st st' := by
  cases semaChange_of_step hst with
  | same hs => exact .of_eq hs.2.2
  | take s _ hs => exact .of_eq hs.2.2
  | join s hsw hs => exact .joins s (not_blocked_of_running (h.ready.running hsw)) hs.2.2
  | init hs =>
    refine .same fun s => ?_
    simp only [hs.2.2, semaInit, update_apply]
    split
    · exact .inr rfl
    · exact .inl rfl
  | up hups => rw [hup] at hups; cases hups

/-- **What a step does to the queues.** -/
theorem queuing_of_step (h : Sound st) (hst : threadMachine.step st tick = some (picked, st')) :
    Queuing st st' := by
  cases hup : st.upped tick with
  | none => exact queuing_of_not_upped h hup hst
  | some s =>
    by_cases hnil : st.waiters s = []
    · obtain ⟨st₀, hnear, hstep⟩ := step_of_upped hup
      rw [hstep, Option.map_eq_some_iff] at hst
      obtain ⟨st'', hst, heq⟩ := hst
      cases heq
      refine .of_eq ((semaUp_of_nil ?_ hst).trans hnear.waiters)
      rw [hnear.waiters]
      exact hnil
    · obtain ⟨w, rest, -, hsorts, -, -, hstep⟩ := upped_step h hup hnil
      exact .leaves s w rest hsorts (hstep picked st' hst).1

/-- The thread is in the queue of the semaphore that it downs. -/
def Waits (st : ThreadSystem) (t : Nat) : Prop := ∃ s ∈ st.downOf t, t ∈ st.waiters s

instance (st : ThreadSystem) (t : Nat) : Decidable (st.Waits t) :=
  match h : st.downOf t with
  | none => .isFalse fun ⟨_, hs, _⟩ => nomatch h.symm.trans hs
  | some s => decidable_of_iff (t ∈ st.waiters s)
      ⟨fun ht => ⟨s, h, ht⟩, fun ⟨_, hs, ht⟩ => Option.some_inj.mp (h.symm.trans hs) ▸ ht⟩

theorem WaitInv.waits_iff (h : WaitInv st) : st.Waits t ↔ ∃ s, t ∈ st.waiters s :=
  ⟨fun ⟨s, _, ht⟩ => ⟨s, ht⟩, fun ⟨s, ht⟩ => ⟨s, ((h.waiting s t).mp ht).2.1, ht⟩⟩

end ThreadSystem

/-! ## The order of arrival -/

/-- The thread system with a history of its queues. -/
structure Queues where
  system : ThreadSystem
  /-- History: the number of steps so far. -/
  clock : Nat
  /-- History: the step in which a thread was last put in a queue. -/
  queuedAt : Nat → Nat

namespace Queues

variable {q : Queues} {tick : Tick}

/-- The history of a step that leads to the state `st`. -/
def record (q : Queues) (st : ThreadSystem) : Queues where
  system := st
  clock := q.clock + 1
  queuedAt t := if st.Waits t ∧ ¬ q.system.Waits t then q.clock else q.queuedAt t

/-- The thread system after `thread_init`, and an empty history. -/
def Boot (q : Queues) : Prop := q.system.Boot ∧ q.clock = 0

/-- **No waiter changes its priority.** -/
def Undisturbed (q : Queues) (tick : Tick) : Prop :=
  ∀ picked st, threadMachine.step q.system tick = some (picked, st) →
    ∀ s, ∀ t ∈ q.system.waiters s, st.priority t = q.system.priority t

end Queues

/-- The thread system, with the history of its queues. -/
def queueMachine : Machine Queues Tick (Option Nat) where
  step q tick := (threadMachine.step q.system tick).map fun (picked, st) => (picked, q.record st)

namespace Queues

variable {q q' : Queues} {tick : Tick} {picked : Option Nat}

theorem step_eq_some : queueMachine.step q tick = some (picked, q') ↔
    ∃ st, threadMachine.step q.system tick = some (picked, st) ∧ q' = q.record st := by
  simp only [queueMachine, Option.map_eq_some_iff, Prod.mk.injEq, Prod.exists]
  exact ⟨fun ⟨p, st, hst, hp, hq⟩ => ⟨st, hp ▸ hst, hq.symm⟩,
    fun ⟨st, hst, hq⟩ => ⟨picked, st, hst, rfl, hq.symm⟩⟩

theorem sound_of_reach {guard : Queues → Tick → Prop} (hreach : queueMachine.Reach Boot guard q) :
    q.system.Sound :=
  hreach.invariant (P := fun q => q.system.Sound) (fun _ h => .of_boot h.1)
    fun _ _ _ _ h _ hst => by
      obtain ⟨st, hstep, rfl⟩ := step_eq_some.mp hst
      exact h.step hstep

/-- **Waiters of one priority stand in the order of their arrival.** -/
structure FifoInv (q : Queues) : Prop where
  order : ∀ s, (q.system.waiters s).Pairwise fun a b =>
    q.system.priority a = q.system.priority b → q.queuedAt a < q.queuedAt b
  past : ∀ s, ∀ t ∈ q.system.waiters s, q.queuedAt t < q.clock

theorem FifoInv.of_boot (h : q.Boot) : FifoInv q := by
  have hnil := h.1.waiters
  refine ⟨fun s => ?_, fun s t ht => ?_⟩
  · rw [hnil s]
    exact .nil
  · rw [hnil s] at ht
    cases ht

variable {s : SemaId} {t : Nat}

theorem queuedAt_record (h : q.system.WaitInv) (st : ThreadSystem) (ht : t ∈ q.system.waiters s) :
    (q.record st).queuedAt t = q.queuedAt t :=
  if_neg fun hnew => hnew.2 (h.waits_iff.mpr ⟨s, ht⟩)

theorem FifoInv.order_of_sublist (h : FifoInv q) (hw : q.system.WaitInv) {st : ThreadSystem}
    (hsame : ∀ s, ∀ t ∈ q.system.waiters s, st.priority t = q.system.priority t) {l : List Nat}
    (hsub : ∀ k, (withKey q.system.priority k l).Sublist
      (withKey q.system.priority k (q.system.waiters s))) (hmem : l ⊆ q.system.waiters s) :
    l.Pairwise fun a b => st.priority a = st.priority b →
      (q.record st).queuedAt a < (q.record st).queuedAt b := by
  have hold : l.Pairwise fun a b => q.system.priority a = q.system.priority b →
      q.queuedAt a < q.queuedAt b :=
    pairwise_withKey.mpr fun k => (pairwise_withKey.mp (h.order s) k).sublist (hsub k)
  refine hold.imp_of_mem fun ha hb hab heq => ?_
  rw [queuedAt_record hw st (hmem ha), queuedAt_record hw st (hmem hb)]
  rw [hsame s _ (hmem ha), hsame s _ (hmem hb)] at heq
  exact hab heq

theorem FifoInv.past_of_subset (h : FifoInv q) (hw : q.system.WaitInv) (st : ThreadSystem)
    (ht : t ∈ q.system.waiters s) : (q.record st).queuedAt t < (q.record st).clock := by
  rw [queuedAt_record hw st ht]
  exact Nat.lt_succ_of_lt (h.past s t ht)

/-- **The order of arrival is kept** by every step in which no waiter changes its priority. -/
theorem FifoInv.step (h : FifoInv q) (hsound : q.system.Sound) (hguard : q.Undisturbed tick)
    (hst : queueMachine.step q tick = some (picked, q')) : FifoInv q' := by
  obtain ⟨st, hstep, rfl⟩ := step_eq_some.mp hst
  have hsame := hguard picked st hstep
  have hw := hsound.toWaitInv
  have hw' := (hsound.step hstep).toWaitInv
  -- A queue that the step leaves as it is.
  have hkept : ∀ s, st.waiters s = q.system.waiters s →
      ((st.waiters s).Pairwise fun a b => st.priority a = st.priority b →
        (q.record st).queuedAt a < (q.record st).queuedAt b) ∧
      ∀ t ∈ st.waiters s, (q.record st).queuedAt t < (q.record st).clock := fun s hs => by
    rw [hs]
    exact ⟨h.order_of_sublist hw hsame (fun _ => .refl _) (List.Subset.refl _),
      fun t ht => h.past_of_subset hw st ht⟩
  suffices hall : ∀ s, ((st.waiters s).Pairwise fun a b => st.priority a = st.priority b →
      (q.record st).queuedAt a < (q.record st).queuedAt b) ∧
      ∀ t ∈ st.waiters s, (q.record st).queuedAt t < (q.record st).clock from
    ⟨fun s => (hall s).1, fun s => (hall s).2⟩
  cases ThreadSystem.queuing_of_step hsound hstep with
  | same hcases =>
    intro s
    rcases hcases s with hs | hs
    · exact hkept s hs
    · rw [hs]
      exact ⟨.nil, nofun⟩
  | joins s0 hrun hjoins =>
    intro s
    by_cases hs : s = s0
    · subst hs
      have hqueue : st.waiters s = q.system.waiters s ++ [q.system.current] := by
        rw [hjoins, update_self]
      have hnew : (q.record st).queuedAt q.system.current = q.clock := by
        have hmem : q.system.current ∈ st.waiters s := by
          rw [hqueue]
          exact List.mem_append_right _ (List.mem_singleton_self _)
        refine if_pos ⟨hw'.waits_iff.mpr ⟨s, hmem⟩, fun hold => ?_⟩
        obtain ⟨s', hs'⟩ := hw.waits_iff.mp hold
        exact hrun ((hw.waiting s' _).mp hs').2.2
      rw [hqueue]
      refine ⟨List.pairwise_append.mpr ⟨?_, List.pairwise_singleton _ _, fun a ha b hb _ => ?_⟩,
        fun t ht => ?_⟩
      · exact h.order_of_sublist hw hsame (fun _ => .refl _) (List.Subset.refl _)
      · rw [List.mem_singleton.mp hb, hnew, queuedAt_record hw st ha]
        exact h.past s a ha
      · rcases List.mem_append.mp ht with ht | ht
        · exact h.past_of_subset hw st ht
        · rw [List.mem_singleton.mp ht, hnew]
          exact Nat.lt_succ_self _
    · exact hkept s (by rw [hjoins, update_of_ne hs])
  | leaves s0 w rest hsorts hleaves =>
    intro s
    by_cases hs : s = s0
    · subst hs
      have hqueue : st.waiters s = rest := by rw [hleaves, update_self]
      have hmem : rest ⊆ q.system.waiters s := fun t ht =>
        hsorts.perm.subset (List.mem_cons_of_mem w ht)
      rw [hqueue]
      refine ⟨h.order_of_sublist hw hsame (fun k => ?_) hmem, fun t ht =>
        h.past_of_subset hw st (hmem ht)⟩
      rw [← hsorts.stable k]
      exact (List.sublist_cons_self w rest).filter _
    · exact hkept s (by rw [hleaves, update_of_ne hs])

theorem FifoInv.of_reach (hreach : queueMachine.Reach Boot Undisturbed q) : FifoInv q := by
  induction hreach with
  | init h => exact .of_boot h
  | step h hguard hst ih => exact ih.step (sound_of_reach h) hguard hst

theorem FifoInv.first (h : FifoInv q) {w : Nat} {rest : List Nat}
    (hsorts : Sorts q.system.priority (q.system.waiters s) (w :: rest)) :
    ∀ v ∈ q.system.waiters s, v ≠ w → q.system.priority v = q.system.priority w →
      q.queuedAt w < q.queuedAt v := by
  intro v hv hne heq
  have horder := pairwise_withKey.mp (h.order s) (q.system.priority w)
  rw [← hsorts.stable, withKey_cons, if_pos rfl] at horder
  refine (List.pairwise_cons.mp horder).1 v (mem_withKey.mpr ⟨?_, heq⟩)
  exact (List.mem_cons.mp (hsorts.perm.mem_iff.mpr hv)).resolve_left hne

end Queues

/-! ## The property -/

/-- **`sema_up` wakes the right waiter.**  A step that ups a semaphore for which threads wait, after
any run of the thread system, takes one of them, `w`, from the queue.  Its priority is the greatest
of all, the others stay in the queue, and no other thread is unblocked.  If no waiter has changed
its priority while it waited, `w` has been in the queue for longer than all others of its priority.

All this is so before `thread_unblock` compares the priority of `w` with that of the running
thread, and after the step.  The step fails only in an interrupt handler that would have to yield
to `w`. -/
theorem sema_up_wakes {q : Queues} {tick : Tick} {s : SemaId}
    (hreach : queueMachine.Reach Queues.Boot (fun _ _ => True) q)
    (hup : q.system.upped tick = some s) (hne : q.system.waiters s ≠ []) : ∃ w st₁,
      q.system.Unblocks s w st₁ ∧
      threadMachine.step q.system tick =
        (st₁.unblockRest w tick.inHandler).map (fun st => (none, st)) ∧
      (∀ picked st, threadMachine.step q.system tick = some (picked, st) →
        q.system.Unblocks s w st) ∧
      (queueMachine.Reach Queues.Boot Queues.Undisturbed q →
        ∀ v ∈ q.system.waiters s, v ≠ w → q.system.priority v = q.system.priority w →
          q.queuedAt w < q.queuedAt v) := by
  obtain ⟨w, rest, st₁, hsorts, hunblocks, hstep, hafter⟩ :=
    ThreadSystem.upped_step (Queues.sound_of_reach hreach) hup hne
  exact ⟨w, st₁, hunblocks, hstep, fun picked st hst => (hafter picked st hst).2,
    fun hcalm => (Queues.FifoInv.of_reach hcalm).first hsorts⟩

namespace Queues

/-- No thread changes its priority. -/
def Steady (q : Queues) (tick : Tick) : Prop :=
  ∀ r ∈ threadMachine.step q.system tick, ∀ t < q.system.nextThread,
    r.2.priority t = q.system.priority t

instance (q : Queues) (tick : Tick) : Decidable (q.Steady tick) :=
  inferInstanceAs (Decidable (∀ r ∈ threadMachine.step q.system tick, _))

theorem undisturbed_of_steady {q : Queues} {tick : Tick} (hw : q.system.WaitInv)
    (h : q.Steady tick) : q.Undisturbed tick :=
  fun picked st hst s t ht => h (picked, st) hst t ((hw.waiting s t).mp ht).1

/-- The initial thread takes the semaphore and creates two threads of priority 40, which wait for
it. -/
def queuedTwo (s : Nat) : List Tick :=
  let create : List Tick := [.call (.create 40), .next, .next, .next, .next, .schedule,
    .call (.semaDown s), .schedule, .next, .schedule]
  [.call (.semaDown s)] ++ create ++ create

end Queues

theorem sema_up_wakes_first : ∃ q st, queueMachine.Reach Queues.Boot (fun _ _ => True) q ∧
    queueMachine.Reach Queues.Boot Queues.Undisturbed q ∧
    q.system.waiters (.plain 0) = [1, 2] ∧ q.system.priority 1 = q.system.priority 2 ∧
    threadMachine.step q.system (.call (.semaUp 0)) = some (none, st) ∧
    st.waiters (.plain 0) = [2] ∧ q.queuedAt 1 < q.queuedAt 2 := by
  have hboot : Queues.Boot ⟨.booted, 0, fun _ => 0⟩ := ⟨ThreadSystem.boot_booted, rfl⟩
  obtain ⟨q, hsteady, hwaiters, hequal, hup, hstep⟩ :=
    queueMachine.exists_reach_along hboot (Queues.queuedTwo 0)
      (fun q => q.system.waiters (.plain 0) = [1, 2] ∧ q.system.priority 1 = q.system.priority 2 ∧
        q.system.upped (.call (.semaUp 0)) = some (.plain 0) ∧
        (threadMachine.step q.system (.call (.semaUp 0))).map (fun p =>
          (p.1, p.2.waiters (.plain 0))) = some (none, [2]))
      (by decide +kernel : Machine.Along _ Queues.Steady ..) (by decide +kernel)
  obtain ⟨⟨picked, st⟩, hstep, heq⟩ := Option.map_eq_some_iff.mp hstep
  obtain ⟨rfl, hleft⟩ := Prod.mk.inj heq
  have hcalm : queueMachine.Reach Queues.Boot Queues.Undisturbed q :=
    hsteady.of_imp fun q tick hreach =>
      Queues.undisturbed_of_steady (Queues.sound_of_reach hreach).toWaitInv
  have hreach : queueMachine.Reach Queues.Boot (fun _ _ => True) q :=
    hsteady.of_imp fun _ _ _ _ => trivial
  have hne : q.system.waiters (.plain 0) ≠ [] := by rw [hwaiters]; nofun
  obtain ⟨w, st₁, -, -, hafter, hfirst⟩ := sema_up_wakes hreach hup hne
  have hunblocks := hafter none st hstep
  have hothers := hunblocks.others
  rw [hwaiters, hleft] at hothers
  have hw : w = 1 := by
    by_contra hw
    have hmem := hunblocks.waiting
    rw [hwaiters] at hmem
    obtain rfl : w = 2 := by simpa [hw] using hmem
    exact absurd (hothers.mem_iff (a := 1)) (by decide)
  subst hw
  refine ⟨q, st, hreach, hcalm, hwaiters, hequal, hstep, hleft, ?_⟩
  exact hfirst hcalm 2 (by rw [hwaiters]; decide) (by decide) hequal.symm

end Pintos
