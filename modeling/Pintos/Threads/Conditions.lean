import Pintos.Threads.WakeOrder

/-!
# Which waiter `cond_signal` wakes

A thread that waits for a condition has a semaphore of its own in the list of the condition.
`cond_signal` sorts that list by the priority of the first thread that waits for each semaphore, and
ups the first one.  In `cond_wait` the semaphore joins the list before the lock is released, and the
thread waits for it only after that: if it is switched out in between, nobody waits for its
semaphore when `list_front` is asked for the first one.

* `Signals` is what `cond_signal` is for.
* `cond_signal_most_urgent_iff`: it is done unless there are two waiters at least, and one of them
  does not wait for its semaphore yet.
* `cond_signal_panics`: a run that comes to that.
-/

namespace Pintos

namespace ThreadSystem

variable {st : ThreadSystem} {t c l : Nat}

/-- **What `cond_signal` is for.**  It takes one of the waiters of greatest priority out of the list
and goes on to up the semaphore of that one. -/
def Signals (st : ThreadSystem) (c l : Nat) : Prop :=
  ∃ t rest st', st.condSignal c l = some st' ∧ (t :: rest).Perm (st.condWaiters c) ∧
    (∀ v ∈ st.condWaiters c, st.priority v ≤ st.priority t) ∧
    st'.condWaiters = Function.update st.condWaiters c rest ∧
    st'.todo = .up (.waiter t) :: st.todo ∧ SameSemas st st'

/-- **Everybody who waits for the condition** waits for the semaphore by now, or there is no other
one to compare with. -/
def AllWait (st : ThreadSystem) (c : Nat) : Prop :=
  2 ≤ (st.condWaiters c).length → ∀ t ∈ st.condWaiters c, st.waiters (.waiter t) ≠ []

theorem Sound.semaPriority_eq (h : Sound st) (hne : st.waiters (.waiter t) ≠ []) :
    st.semaPriority t = st.priority t := by
  obtain ⟨w, rest, hcons⟩ := List.exists_cons_of_ne_nil hne
  obtain ⟨hlt, hdown, -⟩ := (h.waiting (.waiter t) w).mp (hcons ▸ .head _)
  obtain ⟨lock, hhead⟩ := downOf_eq_some.mp hdown
  -- only a thread itself waits for the semaphore on its stack
  have hfits := h.fits w hlt _ (List.mem_of_head? hhead)
  rw [semaPriority, hcons, hfits.2 t rfl]

/-- **The first of the sorted list** has the greatest priority. -/
theorem Sound.le_of_sorted (h : Sound st) (hall : st.AllWait c) {rest : List Nat}
    (hsort : listSort st.compareSemaPriority (st.condWaiters c) = t :: rest) :
    ∀ v ∈ st.condWaiters c, st.priority v ≤ st.priority t := by
  intro v hv
  have hperm := listSort_perm st.compareSemaPriority (st.condWaiters c)
  rw [hsort] at hperm
  by_cases hlen : 2 ≤ (st.condWaiters c).length
  · have hsorts : Sorts st.semaPriority (st.condWaiters c) (t :: rest) := hsort ▸
      sorts_listSort (fun a b => by simp [compareSemaPriority]) (st.condWaiters c)
    have hle := hsorts.head.1 v hv
    rwa [h.semaPriority_eq (hall hlen v hv),
      h.semaPriority_eq (hall hlen t (hperm.mem_iff.mp (.head _)))] at hle
  · -- it is the only one
    have hnil : rest = [] := List.eq_nil_of_length_eq_zero (by
      have := hperm.length_eq
      rw [List.length_cons] at this
      omega)
    rw [hnil] at hperm
    rw [List.mem_singleton.mp (hperm.mem_iff.mpr hv)]

theorem Sound.signals_iff (h : Sound st) (hholder : st.holder l = some st.current)
    (hne : st.condWaiters c ≠ []) : st.Signals c l ↔ st.AllWait c := by
  constructor
  · rintro ⟨t, rest, st', hst, -⟩ hlen u hu hnil
    rw [condSignal, if_pos hholder, if_pos ⟨hlen, u, hu, hnil⟩] at hst
    cases hst
  · intro hall
    have hperm := listSort_perm st.compareSemaPriority (st.condWaiters c)
    cases hsort : listSort st.compareSemaPriority (st.condWaiters c) with
    | nil => exact absurd (hsort ▸ hperm).nil_eq.symm hne
    | cons t rest =>
      have hst : st.condSignal c l =
          some ({ st with condWaiters := Function.update st.condWaiters c rest }.push
            [.up (.waiter t)]) := by
        rw [condSignal, if_pos hholder, if_neg (by
          rintro ⟨hlen, u, hu, hnil⟩
          exact hall hlen u hu hnil), hsort]
      exact ⟨t, rest, _, hst, hsort ▸ hperm, h.le_of_sorted hall hsort, rfl,
        by simp [todo, push, modify], rfl, rfl, rfl⟩

end ThreadSystem

/-- **The most urgent waiter is signalled** by a holder of the lock, in every state that is reached,
if and only if each of two waiters or more waits for its semaphore. -/
theorem cond_signal_most_urgent_iff {st : ThreadSystem}
    (hreach : threadMachine.Reach ThreadSystem.Boot (fun _ _ => True) st) {c l : Nat}
    (hholder : st.holder l = some st.current) (hne : st.condWaiters c ≠ []) :
    st.Signals c l ↔ st.AllWait c :=
  (ThreadSystem.Sound.of_reach hreach).signals_iff hholder hne

/-- A new thread of some priority above that of the initial thread waits for the condition 0 with
the lock `l`. -/
def ThreadSystem.conditionAwaited (priority l : Nat) : List Tick :=
  [.call (.create priority), .next, .next, .next, .next, .schedule, .call (.lockAcquire l),
    .call (.condWait 0 l), .next, .next, .next, .schedule, .next, .schedule]

/-- Two threads wait for the condition, and the initial thread takes the lock. -/
theorem cond_signal_most_urgent_iff_two : ∃ st,
    threadMachine.Reach ThreadSystem.Boot (fun _ _ => True) st ∧ st.condWaiters 0 = [1, 2] ∧
      st.priority 1 = 32 ∧ st.priority 2 = 33 ∧ st.Signals 0 0xc0200000 := by
  obtain ⟨st, hreach, hwaiters, hfirst, hsecond, hholder, hall⟩ :=
    threadMachine.exists_reach ThreadSystem.boot_booted
      (ThreadSystem.conditionAwaited 32 0xc0200000 ++ ThreadSystem.conditionAwaited 33 0xc0200000 ++
        [.call (.lockAcquire 0xc0200000)])
      (fun st => st.condWaiters 0 = [1, 2] ∧ st.priority 1 = 32 ∧ st.priority 2 = 33 ∧
        st.holder 0xc0200000 = some st.current ∧
        ∀ t ∈ st.condWaiters 0, st.waiters (.waiter t) ≠ []) (by decide +kernel)
  exact ⟨st, hreach, hwaiters, hfirst, hsecond,
    (cond_signal_most_urgent_iff hreach hholder (hwaiters ▸ nofun)).mpr fun _ => hall⟩

/-- **A waiter that is switched out.**  A third thread waits for the lock when the initial thread
waits for the condition as well, and is given the processor when that one releases the lock. -/
theorem cond_signal_panics : ∃ st,
    threadMachine.Reach ThreadSystem.Boot (fun _ _ => True) st ∧
      st.holder 0xc0200000 = some st.current ∧ st.condWaiters 0 = [1, 0] ∧
      ¬ st.Signals 0 0xc0200000 := by
  obtain ⟨st, hreach, hholder, hwaiters, hnone⟩ :=
    threadMachine.exists_reach ThreadSystem.boot_booted
      (ThreadSystem.conditionAwaited 32 0xc0200000 ++ [.call (.lockAcquire 0xc0200000),
        .call (.create 40), .next, .next, .next, .next, .schedule, .call (.lockAcquire 0xc0200000),
        .schedule, .next, .call (.condWait 0 0xc0200000), .next, .next, .schedule, .next])
      (fun st => st.holder 0xc0200000 = some st.current ∧ st.condWaiters 0 = [1, 0] ∧
        (st.condSignal 0 0xc0200000).isNone) (by decide +kernel)
  refine ⟨st, hreach, hholder, hwaiters, ?_⟩
  rintro ⟨t, rest, st', hst, -⟩
  rw [hst] at hnone
  cases hnone

end Pintos
