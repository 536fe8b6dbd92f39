import Mathlib.Data.Finset.Card
import Pintos.Threads.SyncChanges

/-!
# Semaphores and locks

The value of a semaphore is what it was initialised to, plus the ups and minus the downs that have
completed since, in the arithmetic of an unsigned integer.  A thread is put to sleep only where the
value is 0, and every up wakes one of the threads that wait, so that while any are left the value
is at most the number of those that have been woken and have not run yet.  One that overtakes them
takes from the value what they do not find.

A lock counts 1 as long as nobody is inside, so at most one thread is.

* `SyncInv.change`: every change keeps the invariant of `SyncChanges`.
* `SemaInv.change`: every change keeps the count of every semaphore, and what is left for the
  threads that have been woken.
* `semaphores_sound`: the property, in every state that is reached.
-/

namespace Pintos

open Function (update update_apply update_eq_self update_of_ne update_self)

namespace ThreadSystem

variable {st st' : ThreadSystem} {t l : Nat} {s : SemaId} {lock : Option Nat} {fits : Prop}
  {todo : List Frame}

/-! ## Frames of the invariant -/

theorem CallInv.of_todo (h : CallInv st) (hnext : st'.nextThread = st.nextThread)
    (hcurrent : st'.current = st.current) (hidle : st'.idle = st.idle)
    (htodo : ∀ t, (st'.thread t).todo = if t = st.current then todo else (st.thread t).todo)
    (hnot : st.idle = some st.current → todo = [])
    (hfits : ∀ f ∈ todo, f.Fits st.current) (htail : ∀ f ∈ todo.tail, f.isLoop = false) :
    CallInv st' := by
  refine ⟨by rw [hcurrent, hnext]; exact h.current, fun t ht => ?_, fun t ht f hf => ?_,
    fun t ht f hf => ?_⟩
  · rw [hidle] at ht
    rw [hnext, htodo]
    refine ⟨(h.idle t ht).1, ?_⟩
    split
    next heq => exact hnot (heq ▸ ht)
    next => exact (h.idle t ht).2
  · rw [htodo] at hf
    split at hf
    next heq => exact heq ▸ hfits f hf
    next => exact h.fits t (hnext ▸ ht) f hf
  · rw [htodo] at hf
    split at hf
    next => exact htail f hf
    next => exact h.tail t (hnext ▸ ht) f hf

theorem WaitInv.of_same (h : WaitInv st) (hnext : st'.nextThread = st.nextThread)
    (hwaiters : st'.waiters = st.waiters)
    (hsame : ∀ t s, (st'.downOf t = some s ∧ st'.status t = .blocked) ↔
      (st.downOf t = some s ∧ st.status t = .blocked)) : WaitInv st' := by
  refine ⟨fun s t => ?_, by rw [hwaiters]; exact h.nodup⟩
  rw [hwaiters, hnext, hsame, h.waiting]

theorem LockInv.of_same (h : LockInv st) (hnext : st'.nextThread = st.nextThread)
    (hvalue : ∀ l, st'.value (.ofLock l) = st.value (.ofLock l)) (hholder : st'.holder = st.holder)
    (hinside : st'.inside = st.inside)
    (hhead : ∀ t l, st'.head t = some (.releaseRest l) → st.head t = some (.releaseRest l)) :
    LockInv st' := by
  refine ⟨fun l => ?_, fun l t ht => ?_, fun l t ht hrel => ?_⟩
  · rw [hvalue, hinside]
    exact h.value l
  · rw [hholder] at ht
    rw [hnext, hinside]
    exact h.holder l t ht
  · rw [hnext] at ht
    rw [hinside, hholder]
    exact h.releasing l t ht (hhead t l hrel)

theorem SyncInv.sched (h : SyncInv st) (hs : Sched st st') : SyncInv st' := by
  have htodo := hs.todo
  refine ⟨⟨?_, fun t ht => ?_, fun t ht => ?_, fun t ht => ?_⟩, ?_, ?_⟩
  · rw [hs.nextThread]
    exact hs.current h.current
  · rw [hs.nextThread, htodo]
    rcases hs.idle t ht with ht | ⟨rfl, hnil⟩
    · exact h.idle t ht
    · exact ⟨h.current, hnil⟩
  · rw [htodo]
    exact h.fits t (hs.nextThread ▸ ht)
  · rw [htodo]
    exact h.tail t (hs.nextThread ▸ ht)
  · refine h.toWaitInv.of_same hs.nextThread hs.waiters fun t s => ?_
    rw [downOf_congr (htodo t)]
    exact and_congr_right fun hd => hs.asleep t s hd
  · refine h.toLockInv.of_same hs.nextThread (fun l => congrFun hs.value _) hs.holder hs.inside
      fun t l hrel => ?_
    rwa [head, htodo] at hrel

theorem CallInv.of_same (h : CallInv st) (hnext : st'.nextThread = st.nextThread)
    (hcurrent : st'.current = st.current) (hidle : st'.idle = st.idle)
    (htodo : ∀ t, (st'.thread t).todo = (st.thread t).todo) : CallInv st' := by
  refine h.of_todo hnext hcurrent hidle (fun t => ?_) (fun hi => (h.idle _ hi).2)
    (h.fits _ h.current) (h.tail _ h.current)
  rw [htodo]
  split
  next heq => rw [heq]
  next => rfl

/-- The current thread, which is awake, has other calls, and does not go back to sleep. -/
theorem WaitInv.of_todo (h : WaitInv st) (hnext : st'.nextThread = st.nextThread)
    (hwaiters : st'.waiters = st.waiters)
    (htodo : ∀ t, (st'.thread t).todo = if t = st.current then todo else (st.thread t).todo)
    (hstatus : ∀ t, st'.status t = st.status t)
    (hawake : ∀ s, ¬ (st.downOf st.current = some s ∧ st.status st.current = .blocked))
    (hhead : ∀ s lock, todo.head? = some (.down s lock) → st.status st.current ≠ .blocked) :
    WaitInv st' := by
  refine h.of_same hnext hwaiters fun t s => ?_
  rw [hstatus]
  by_cases heq : t = st.current
  · subst heq
    refine iff_of_false (fun hs => ?_) (hawake s)
    obtain ⟨lock, hdown⟩ := downOf_eq_some.mp hs.1
    rw [head, htodo, if_pos rfl] at hdown
    exact hhead s lock hdown hs.2
  · rw [downOf_congr ((htodo t).trans (if_neg heq))]

theorem head?_ne_of_noLoop (hnew : ∀ f ∈ todo, f.isLoop = false) {f : Frame}
    (hf : f.isLoop = true) : todo.head? ≠ some f := fun hhead =>
  Bool.noConfusion (hf.symm.trans (hnew f (List.mem_of_mem_head? hhead)))

theorem todo_setTodo (st : ThreadSystem) (todo : List Frame) (t : Nat) :
    ((st.setTodo todo).thread t).todo = if t = st.current then todo else (st.thread t).todo := by
  rw [thread_setTodo]
  split <;> rfl

theorem status_setTodo (st : ThreadSystem) (todo : List Frame) (t : Nat) :
    (st.setTodo todo).status t = st.status t := by
  rw [status, thread_setTodo]
  split <;> rfl

variable {rest : List Frame}

theorem CallInv.leaves (h : CallInv st) (hl : st.Leaves s lock rest) :
    (∀ f ∈ rest, f.isLoop = false) ∧ (∀ f ∈ rest, f.Fits st.current) ∧
      (st.idle = some st.current → rest = []) ∧
      ∀ l, st.head st.current ≠ some (.releaseRest l) := by
  rcases hl with ⟨hold, rfl⟩ | htodo
  · exact ⟨hold, h.fits _ h.current, fun hi => (h.idle _ hi).2,
      fun l => head?_ne_of_noLoop hold rfl⟩
  · have htodo : (st.thread st.current).todo = .down s lock :: rest := htodo
    refine ⟨fun f hf => h.tail _ h.current f (htodo ▸ hf),
      fun f hf => h.fits _ h.current f (htodo ▸ .tail _ hf), fun hi => ?_, fun l hhead => ?_⟩
    · rw [(h.idle _ hi).2] at htodo
      cases htodo
    · rw [head, htodo] at hhead
      cases hhead

/-! ## Changes of the calls -/

theorem SyncInv.setTodo (h : SyncInv st)
    (hawake : ∀ s, ¬ (st.downOf st.current = some s ∧ st.status st.current = .blocked))
    (hnot : st.idle = some st.current → todo = [])
    (hnew : ∀ f ∈ todo, f.isLoop = false ∧ f.Fits st.current) : SyncInv (st.setTodo todo) := by
  have hloop := fun f hf => (hnew f hf).1
  refine ⟨h.toCallInv.of_todo rfl rfl rfl (todo_setTodo st todo) hnot (fun f hf => (hnew f hf).2)
      fun f hf => hloop f (List.mem_of_mem_tail hf),
    h.toWaitInv.of_todo rfl rfl (todo_setTodo st todo) (status_setTodo st todo) hawake
      fun s lock hd => absurd hd (head?_ne_of_noLoop hloop rfl),
    h.toLockInv.of_same rfl (fun _ => rfl) rfl rfl fun t l hhead => ?_⟩
  rw [head, todo_setTodo] at hhead
  split at hhead
  next => exact absurd hhead (head?_ne_of_noLoop hloop rfl)
  next => exact hhead

theorem NoLoop.not_asleep (hold : st.NoLoop t) (s : SemaId) :
    ¬ (st.downOf t = some s ∧ st.status t = .blocked) := fun hs =>
  nomatch hold.downOf.symm.trans hs.1

theorem SyncInv.create (h : SyncInv st) (priority : Int) : SyncInv (st.created priority) := by
  have hold : ∀ {t}, t < st.nextThread → (st.created priority).thread t = st.thread t :=
    fun ht => by rw [thread_created, if_neg ht.ne]
  have hnew : (st.created priority).thread st.nextThread = initThread priority := by
    rw [thread_created, if_pos rfl]
  have hcases : ∀ {t}, t < (st.created priority).nextThread → t < st.nextThread ∨
      t = st.nextThread := fun ht => Nat.lt_or_eq_of_le (Nat.lt_succ_iff.mp ht)
  refine ⟨⟨Nat.lt_succ_of_lt h.current, fun t ht => ?_, fun t ht f hf => ?_, fun t ht f hf => ?_⟩,
    ⟨fun s t => ?_, h.nodup⟩, ⟨h.value, fun l t ht => ?_, fun l t ht hhead => ?_⟩⟩
  · obtain ⟨hlt, htodo⟩ := h.idle t ht
    rw [hold hlt]
    exact ⟨Nat.lt_succ_of_lt hlt, htodo⟩
  · rcases hcases ht with hlt | rfl
    · rw [hold hlt] at hf
      exact h.fits t hlt f hf
    · rw [hnew] at hf
      cases hf
  · rcases hcases ht with hlt | rfl
    · rw [hold hlt] at hf
      exact h.tail t hlt f hf
    · rw [hnew] at hf
      cases hf
  · refine (h.waiting s t).trans ⟨fun ⟨hlt, hdown, hblocked⟩ => ?_,
      fun ⟨hlt, hdown, hblocked⟩ => ?_⟩
    · rw [status, hold hlt, downOf_congr (congrArg _ (hold hlt))]
      exact ⟨Nat.lt_succ_of_lt hlt, hdown, hblocked⟩
    · rcases hcases hlt with hlt | rfl
      · rw [status, hold hlt] at hblocked
        rw [downOf_congr (congrArg _ (hold hlt))] at hdown
        exact ⟨hlt, hdown, hblocked⟩
      · rw [downOf, head, hnew] at hdown
        cases hdown
  · obtain ⟨hlt, hinside⟩ := h.holder l t ht
    exact ⟨Nat.lt_succ_of_lt hlt, hinside⟩
  · rcases hcases ht with hlt | rfl
    · rw [head, hold hlt] at hhead
      exact h.releasing l t hlt hhead
    · rw [head, hnew] at hhead
      cases hhead

variable {f : Thread → Thread}

theorem todo_modify (htodo : ∀ th, (f th).todo = th.todo) (u : Nat) :
    ((st.modify t f).thread u).todo = (st.thread u).todo := by
  rw [thread_modify]
  split
  next hu => rw [htodo, hu]
  next => rfl

theorem status_modify (hstatus : ∀ th, (f th).status = th.status) (u : Nat) :
    (st.modify t f).status u = st.status u := by
  rw [status, thread_modify]
  split
  next hu => rw [hstatus, hu]
  next => rfl

theorem SyncInv.modify (h : SyncInv st) (htodo : ∀ th, (f th).todo = th.todo)
    (hstatus : ∀ th, (f th).status = th.status) : SyncInv (st.modify t f) := by
  refine ⟨h.toCallInv.of_same rfl rfl rfl (todo_modify htodo),
    h.toWaitInv.of_same rfl rfl fun u s => ?_,
    h.toLockInv.of_same rfl (fun _ => rfl) rfl rfl fun u l hhead => ?_⟩
  · rw [downOf_congr (todo_modify htodo u), status_modify hstatus]
  · rwa [head, todo_modify htodo] at hhead

theorem SyncInv.init (h : SyncInv st) (hold : st.NoLoop st.current) :
    SyncInv (st.semaInit (.waiter st.current) 0) := by
  -- Nobody but the current thread waits for the semaphore on its stack.
  have hnil : st.waiters (.waiter st.current) = [] := by
    refine List.eq_nil_iff_forall_not_mem.mpr fun t ht => ?_
    obtain ⟨hlt, hdown, -⟩ := (h.waiting _ t).mp ht
    obtain ⟨lock, hhead⟩ := downOf_eq_some.mp hdown
    have heq := (h.fits t hlt _ (List.mem_of_mem_head? hhead)).2 _ rfl
    subst heq
    exact nomatch hold.downOf.symm.trans hdown
  have hwaiters : (st.semaInit (.waiter st.current) 0).waiters = st.waiters := by
    rw [semaInit, ← hnil]
    exact update_eq_self ..
  refine ⟨h.toCallInv.of_same rfl rfl rfl fun _ => rfl,
    h.toWaitInv.of_same rfl hwaiters fun _ _ => .rfl,
    h.toLockInv.of_same rfl (fun l => ?_) rfl rfl fun _ _ hhead => hhead⟩
  have hne : SemaId.ofLock l ≠ .waiter st.current := nofun
  show update st.value (.waiter st.current) 0 (.ofLock l) = _
  rw [update_of_ne hne]

/-! ## Semaphores -/

theorem own_semaTake (st : ThreadSystem) (s : SemaId) (lock : Option Nat) :
    (st.semaTake s).own lock = { st with
      value := update st.value s (st.value s - 1)
      downs := update st.downs s (st.downs s + 1)
      holder := ((st.semaTake s).own lock).holder
      inside := ((st.semaTake s).own lock).inside } := by
  cases lock <;> rfl

theorem LockInv.take (h : LockInv st) (hcurrent : st.current < st.nextThread)
    (hlock : ∀ l, s = .ofLock l ↔ lock = some l) (hpos : 0 < st.value s) :
    LockInv ((st.semaTake s).own lock) := by
  cases lock with
  | none =>
    refine h.of_same rfl (fun l => update_of_ne (fun heq => ?_) ..) rfl rfl fun _ _ hh => hh
    exact nomatch (hlock l).mp heq.symm
  | some l =>
    obtain rfl := (hlock l).mpr rfl
    have hlength := h.value l
    have hnil : st.inside l = [] := List.length_eq_zero_iff.mp (by omega)
    have hvalue : ∀ l', ((st.semaTake (.ofLock l)).own (some l)).value (.ofLock l') =
        if l' = l then st.value (.ofLock l) - 1 else st.value (.ofLock l') := fun l' => by
      refine (update_apply ..).trans ?_
      simp only [SemaId.ofLock.injEq]
    have hinside : ∀ l', ((st.semaTake (.ofLock l)).own (some l)).inside l' =
        if l' = l then [st.current] else st.inside l' := fun l' => by
      refine (update_apply ..).trans ?_
      split
      next => exact congrArg (st.current :: ·) hnil
      next => rfl
    have hholder : ∀ l', ((st.semaTake (.ofLock l)).own (some l)).holder l' =
        if l' = l then some st.current else st.holder l' := fun l' => update_apply ..
    refine ⟨fun l' => ?_, fun l' t ht => ?_, fun l' t ht hhead => ?_⟩
    · rw [hvalue, hinside]
      split
      next =>
        rw [List.length_singleton]
        omega
      next => exact h.value l'
    · rw [hholder] at ht
      rw [hinside]
      split at ht
      next heq =>
        cases ht
        rw [if_pos heq]
        exact ⟨hcurrent, rfl⟩
      next hne =>
        rw [if_neg hne]
        exact h.holder l' t ht
    · obtain ⟨hin, hnone⟩ := h.releasing l' t ht hhead
      have hne : l' ≠ l := by
        rintro rfl
        rw [hnil] at hin
        cases hin
      rw [hinside, hholder, if_neg hne, if_neg hne]
      exact ⟨hin, hnone⟩

theorem SyncInv.take (h : SyncInv st) (hleaves : st.Leaves s lock rest)
    (hrun : st.status st.current ≠ .blocked) (hlock : ∀ l, s = .ofLock l ↔ lock = some l)
    (hpos : 0 < st.value s) : SyncInv (((st.setTodo rest).semaTake s).own lock) := by
  obtain ⟨hloop, hfits, hidle, -⟩ := h.leaves hleaves
  have hleft := h.setTodo (fun _ hs => hrun hs.2) hidle fun f hf => ⟨hloop f hf, hfits f hf⟩
  have heq := own_semaTake (st.setTodo rest) s lock
  refine ⟨?_, ?_, hleft.toLockInv.take h.current hlock hpos⟩
  · rw [heq]
    exact hleft.toCallInv.of_same rfl rfl rfl fun _ => rfl
  · rw [heq]
    exact hleft.toWaitInv.of_same rfl rfl fun _ _ => .rfl

/-- **The current thread falls asleep.** -/
structure Sleeps (st : ThreadSystem) (s : SemaId) (lock : Option Nat) (rest : List Frame)
    (st' : ThreadSystem) : Prop where
  nextThread : st'.nextThread = st.nextThread
  current : st'.current = st.current
  idle : st'.idle = st.idle
  value : st'.value = st.value
  waiters : st'.waiters = update st.waiters s (st.waiters s ++ [st.current])
  holder : st'.holder = st.holder
  inside : st'.inside = st.inside
  initial : st'.initial = st.initial
  ups : st'.ups = st.ups
  downs : st'.downs = st.downs
  todo : ∀ t, (st'.thread t).todo =
    if t = st.current then .down s lock :: rest else (st.thread t).todo
  status : ∀ t, st'.status t = if t = st.current then .blocked else st.status t

theorem sleeps_fallAsleep (st : ThreadSystem) (s : SemaId) (lock : Option Nat) (rest : List Frame) :
    Sleeps st s lock rest ((st.setTodo rest).fallAsleep s lock) := by
  rw [fallAsleep_eq]
  refine ⟨rfl, rfl, rfl, rfl, rfl, rfl, rfl, rfl, rfl, rfl, fun t => ?_, fun t => ?_⟩
  · show (if t = st.current then .down s lock :: ((st.setTodo rest).thread t).todo
      else ((st.setTodo rest).thread t).todo) = _
    rw [todo_setTodo]
    split <;> rfl
  · exact congrArg (if t = st.current then ThreadStatus.blocked else ·) (status_setTodo st rest t)

theorem sleeps_enrol {h : Nat} (hholder : st.holder l = some h) :
    Sleeps st (.ofLock l) (some l) st.todo ((st.enrol l).fallAsleep (.ofLock l) (some l)) := by
  obtain ⟨d, -, heq⟩ := enrol_eq hholder
  rw [fallAsleep_eq, heq]
  refine ⟨rfl, rfl, rfl, rfl, rfl, rfl, rfl, rfl, rfl, rfl, fun t => ?_, fun t => rfl⟩
  by_cases ht : t = st.current
  · subst ht
    rfl
  · simp only [ht, if_false]

section

variable (hs : Sleeps st s lock rest st')
include hs

theorem Sleeps.downOf_self : st'.downOf st.current = some s := by
  refine downOf_eq_some.mpr ⟨lock, ?_⟩
  rw [head, hs.todo, if_pos rfl, List.head?_cons]

theorem Sleeps.downOf_of_ne (ht : t ≠ st.current) : st'.downOf t = st.downOf t :=
  downOf_congr ((hs.todo t).trans (if_neg ht))

theorem Sleeps.mem_waiters (s' : SemaId) :
    t ∈ st'.waiters s' ↔ t ∈ st.waiters s' ∨ (s' = s ∧ t = st.current) := by
  rw [hs.waiters]
  by_cases heq : s' = s
  · subst heq
    simp
  · simp [heq]

end

theorem SyncInv.asleep (h : SyncInv st) (hleaves : st.Leaves s lock rest)
    (hrun : st.status st.current ≠ .blocked) (hidle : st.idle ≠ some st.current)
    (hfits : (Frame.down s lock).Fits st.current) (hs : Sleeps st s lock rest st') :
    SyncInv st' := by
  obtain ⟨hloop, hrest, -⟩ := h.leaves hleaves
  have hnotmem : ∀ s, st.current ∉ st.waiters s := fun s hmem => hrun ((h.waiting s _).mp hmem).2.2
  refine ⟨h.toCallInv.of_todo hs.nextThread hs.current hs.idle hs.todo
    (fun hi => absurd hi hidle) (fun f hf => ?_) hloop, ⟨fun s' t => ?_, fun s' => ?_⟩, ?_⟩
  · rcases List.mem_cons.mp hf with rfl | hf
    · exact hfits
    · exact hrest f hf
  · rw [hs.mem_waiters, hs.nextThread, hs.status]
    by_cases heq : t = st.current
    · subst heq
      rw [if_pos rfl, hs.downOf_self]
      refine ⟨fun hw => ⟨h.current, ?_, rfl⟩,
        fun hw => .inr ⟨(Option.some_inj.mp hw.2.1).symm, rfl⟩⟩
      rw [(hw.resolve_left (hnotmem s')).1]
    · rw [if_neg heq, hs.downOf_of_ne heq, ← h.waiting]
      exact ⟨fun hw => hw.resolve_right fun hr => heq hr.2, .inl⟩
  · rw [hs.waiters]
    by_cases heq : s' = s
    · subst heq
      rw [update_self, List.nodup_append]
      refine ⟨h.nodup s', List.nodup_singleton _, fun a ha b hb => ?_⟩
      rintro rfl
      exact hnotmem s' (List.mem_singleton.mp hb ▸ ha)
    · rw [update_of_ne heq]
      exact h.nodup s'
  · refine h.toLockInv.of_same hs.nextThread (fun l => congrFun hs.value _) hs.holder hs.inside
      fun t l hhead => ?_
    rw [head, hs.todo] at hhead
    split at hhead
    next => cases hhead
    next => exact hhead

/-- **A semaphore goes up**, and a thread that waits for it, if there is one, is ready. -/
structure Wakes (st : ThreadSystem) (s : SemaId) (st' : ThreadSystem) : Prop where
  nextThread : st'.nextThread = st.nextThread
  current : st'.current = st.current
  idle : st'.idle = st.idle
  value : st'.value = update st.value s ((st.value s + 1) % 2 ^ 32)
  holder : st'.holder = st.holder
  inside : st'.inside = st.inside
  initial : st'.initial = st.initial
  ups : st'.ups = update st.ups s (st.ups s + 1)
  downs : st'.downs = st.downs
  todo : ∀ t, (st'.thread t).todo = (st.thread t).todo
  waiters : (st.waiters s = [] ∧ st'.waiters = st.waiters ∧ ∀ t, st'.status t = st.status t) ∨
    ∃ w rest, (w :: rest).Perm (st.waiters s) ∧ st'.waiters = update st.waiters s rest ∧
      ∀ t, st'.status t = if t = w then .ready else st.status t

theorem wakes_wakeFirst (st : ThreadSystem) (s : SemaId) : Wakes st s (st.wakeFirst s) := by
  rcases wakeFirst_cases st s with ⟨hnil, heq⟩ | ⟨w, rest, hperm, heq⟩ <;> rw [heq]
  · exact ⟨rfl, rfl, rfl, rfl, rfl, rfl, rfl, rfl, rfl, fun _ => rfl,
      .inl ⟨hnil, rfl, fun _ => rfl⟩⟩
  · exact ⟨rfl, rfl, rfl, rfl, rfl, rfl, rfl, rfl, rfl, fun _ => rfl,
      .inr ⟨w, rest, hperm, rfl, fun _ => rfl⟩⟩

theorem Wakes.downOf (hs : Wakes st s st') (t : Nat) : st'.downOf t = st.downOf t :=
  downOf_congr (hs.todo t)

theorem WaitInv.wakes (h : WaitInv st) (hs : Wakes st s st') : WaitInv st' := by
  rcases hs.waiters with ⟨-, hwaiters, hstatus⟩ | ⟨w, rest, hperm, hwaiters, hstatus⟩
  · exact h.of_same hs.nextThread hwaiters fun t s' => by rw [hs.downOf, hstatus]
  · have hnodup : (w :: rest).Nodup := hperm.nodup_iff.mpr (h.nodup s)
    obtain ⟨-, hdown, -⟩ := (h.waiting s w).mp (hperm.subset (.head _))
    refine ⟨fun s' t => ?_, fun s' => ?_⟩
    · rw [hwaiters, hs.nextThread, hs.downOf, hstatus]
      by_cases heq : t = w
      · -- The thread that is woken waits for no semaphore any more.
        subst heq
        refine iff_of_false (fun hmem => ?_) fun hb => ?_
        · by_cases hs' : s' = s
          · subst hs'
            rw [update_self] at hmem
            exact (List.nodup_cons.mp hnodup).1 hmem
          · rw [update_of_ne hs'] at hmem
            have hdown' := ((h.waiting s' t).mp hmem).2.1
            exact hs' (Option.mem_unique hdown' hdown)
        · rw [if_pos rfl] at hb
          cases hb.2.2
      · rw [if_neg heq, ← h.waiting]
        by_cases hs' : s' = s
        · subst hs'
          rw [update_self, ← hperm.mem_iff, List.mem_cons]
          exact ⟨.inr, fun hmem => hmem.resolve_left heq⟩
        · rw [update_of_ne hs']
    · rw [hwaiters]
      by_cases hs' : s' = s
      · subst hs'
        rw [update_self]
        exact hnodup.of_cons
      · rw [update_of_ne hs']
        exact h.nodup s'

theorem SyncInv.up (h : SyncInv st) (hplain : ∀ l, s ≠ .ofLock l) (hs : Wakes st s st') :
    SyncInv st' := by
  refine ⟨h.toCallInv.of_same hs.nextThread hs.current hs.idle hs.todo, h.toWaitInv.wakes hs,
    h.toLockInv.of_same hs.nextThread (fun l => ?_) hs.holder hs.inside fun t l hhead => ?_⟩
  · rw [hs.value, update_of_ne (hplain l).symm]
  · rwa [head, hs.todo] at hhead

/-! ## Locks -/

theorem SyncInv.clear (h : SyncInv st) (hold : st.NoLoop st.current)
    (hidle : st.idle ≠ some st.current) (hholder : st.holder l = some st.current) :
    SyncInv ({ st with holder := update st.holder l none }.push [.releaseRest l]) := by
  refine ⟨h.toCallInv.of_todo rfl rfl rfl (todo_setTodo { st with holder := _ } _)
      (fun hi => absurd hi hidle) (fun f hf => ?_) hold,
    h.toWaitInv.of_todo rfl rfl (todo_setTodo { st with holder := _ } _)
      (status_setTodo { st with holder := _ } _) hold.not_asleep fun _ _ => nofun,
    ⟨h.value, fun l' t ht => ?_, fun l' t ht hhead => ?_⟩⟩
  · rcases List.mem_cons.mp hf with rfl | hf
    · trivial
    · exact h.fits _ h.current f hf
  · have ht : update st.holder l none l' = some t := ht
    rw [update_apply, Option.ite_none_left_eq_some] at ht
    exact h.holder l' t ht.2
  · show st.inside l' = [t] ∧ update st.holder l none l' = none
    rw [head, push_eq_setTodo, todo_setTodo] at hhead
    split at hhead
    next heq =>
      cases hhead
      exact ⟨heq ▸ (h.holder l _ hholder).2, update_self ..⟩
    next =>
      obtain ⟨hin, hnone⟩ := h.releasing l' t ht hhead
      rw [update_apply, hnone, ite_self]
      exact ⟨hin, rfl⟩

/-- **The current thread gives a lock up**: its calls go on, and it is not inside any more. -/
structure GivesUp (st : ThreadSystem) (l : Nat) (rest : List Frame) (st' : ThreadSystem) :
    Prop where
  nextThread : st'.nextThread = st.nextThread
  current : st'.current = st.current
  idle : st'.idle = st.idle
  value : st'.value = st.value
  waiters : st'.waiters = st.waiters
  holder : st'.holder = st.holder
  inside : st'.inside = update st.inside l ((st.inside l).erase st.current)
  initial : st'.initial = st.initial
  ups : st'.ups = st.ups
  downs : st'.downs = st.downs
  todo : ∀ t, (st'.thread t).todo = if t = st.current then rest else (st.thread t).todo
  status : ∀ t, st'.status t = st.status t

theorem givesUp_giveUp (st : ThreadSystem) (l : Nat) (rest : List Frame) :
    GivesUp st l rest ((st.setTodo rest).giveUp l) := by
  refine ⟨rfl, rfl, rfl, rfl, rfl, rfl, rfl, rfl, rfl, rfl, fun t => ?_, fun t => ?_⟩
  · rw [thread_giveUp, ← todo_setTodo]
  · rw [status, thread_giveUp]
    exact status_setTodo st rest t

variable {st1 : ThreadSystem}

theorem LockInv.release (h : LockInv st) (hcurrent : st.current < st.nextThread)
    (hhead : st.head st.current = some (.releaseRest l)) (hloop : ∀ f ∈ rest, f.isLoop = false)
    (hg : GivesUp st l rest st1) (hs : Wakes st1 (.ofLock l) st') : LockInv st' := by
  obtain ⟨hin, hnone⟩ := h.releasing l _ hcurrent hhead
  have hzero : st.value (.ofLock l) = 0 := by
    have hvalue := h.value l
    rw [hin, List.length_singleton] at hvalue
    omega
  have hinside : ∀ l', st'.inside l' = if l' = l then [] else st.inside l' := fun l' => by
    rw [hs.inside, hg.inside, update_apply, hin, List.erase_cons_head]
  have hvalue : ∀ l', st'.value (.ofLock l') = if l' = l then 1 else st.value (.ofLock l') :=
    fun l' => by
      have hone : (0 + 1) % 2 ^ 32 = 1 := rfl
      rw [hs.value, hg.value, update_apply, hzero, hone]
      simp only [SemaId.ofLock.injEq]
  have hholder : st'.holder = st.holder := hs.holder.trans hg.holder
  have hnext : st'.nextThread = st.nextThread := hs.nextThread.trans hg.nextThread
  have hself : (st'.thread st.current).todo = rest := by rw [hs.todo, hg.todo, if_pos rfl]
  refine ⟨fun l' => ?_, fun l' t ht => ?_, fun l' t ht hhead' => ?_⟩
  · rw [hvalue, hinside]
    split
    next => rfl
    next => exact h.value l'
  · rw [hholder] at ht
    have hne : l' ≠ l := by
      rintro rfl
      exact nomatch hnone.symm.trans ht
    rw [hnext, hinside, if_neg hne]
    exact h.holder l' t ht
  · have heq : t ≠ st.current := by
      rintro rfl
      rw [head, hself] at hhead'
      exact head?_ne_of_noLoop hloop rfl hhead'
    rw [head, hs.todo, hg.todo, if_neg heq] at hhead'
    obtain ⟨hin', hnone'⟩ := h.releasing l' t (hnext ▸ ht) hhead'
    have hne : l' ≠ l := by
      rintro rfl
      exact heq (List.singleton_inj.mp (hin'.symm.trans hin))
    rw [hinside, hholder, if_neg hne]
    exact ⟨hin', hnone'⟩

theorem WaitInv.givesUp (h : WaitInv st) (hrun : st.status st.current ≠ .blocked)
    (hg : GivesUp st l rest st') : WaitInv st' :=
  h.of_todo hg.nextThread hg.waiters hg.todo hg.status (fun _ hb => hrun hb.2)
    fun _ _ _ => hrun

theorem SyncInv.release (h : SyncInv st) (htodo : st.todo = .releaseRest l :: rest)
    (hrun : st.status st.current ≠ .blocked) (hg : GivesUp st l rest st1)
    (hs : Wakes st1 (.ofLock l) st') : SyncInv st' := by
  have hrest := h.noLoop_tail htodo
  have hloop := fun f hf => (hrest f hf).1
  have hcalls : CallInv st1 := h.toCallInv.of_todo hg.nextThread hg.current hg.idle hg.todo
    (fun hi => absurd hi (h.not_idle htodo)) (fun f hf => (hrest f hf).2)
    fun f hf => hloop f (List.mem_of_mem_tail hf)
  refine ⟨hcalls.of_same hs.nextThread hs.current hs.idle hs.todo,
    (h.toWaitInv.givesUp hrun hg).wakes hs, h.toLockInv.release h.current ?_ hloop hg hs⟩
  rw [head, show (st.thread st.current).todo = _ from htodo, List.head?_cons]

/-- **Every change keeps the invariant.** -/
theorem SyncInv.change (h : SyncInv st) (hc : SyncChange fits st st') : SyncInv st' := by
  cases hc with
  | sched hs => exact h.sched hs
  | frames todo hidle hold hnew =>
    exact h.setTodo hold.not_asleep (fun hi => absurd hi hidle) hnew
  | create priority => exact h.create priority
  | setPriority priority => exact h.modify (fun _ => rfl) fun _ => rfl
  | forget hrun => exact h.modify (fun _ => rfl) fun _ => rfl
  | init hold => exact h.init hold
  | take s lock hleaves hrun hlock hpos => exact h.take hleaves hrun hlock hpos
  | sleep s lock hleaves hrun hidle hfits hzero hjust =>
    exact h.asleep hleaves hrun hidle hfits (sleeps_fallAsleep ..)
  | enrol l holder hold hrun hidle hholder hne hjust =>
    exact h.asleep (.inl ⟨hold, rfl⟩) hrun hidle (by exact ⟨fun _ => by simp, nofun⟩)
      (sleeps_enrol hholder)
  | up s hplain => exact h.up hplain (wakes_wakeFirst ..)
  | clear l hold hidle hholder => exact h.clear hold hidle hholder
  | release l htodo hrun =>
    exact h.release htodo hrun (givesUp_giveUp ..) (wakes_wakeFirst ..)

theorem SyncInv.changes (h : SyncInv st) (hc : SyncChanges fits st st') : SyncInv st' := by
  induction hc with
  | refl => exact h
  | tail _ hstep ih => exact ih.change hstep

theorem todo_of_boot (h : st.Boot) (ht : t < st.nextThread) : (st.thread t).todo = [] := by
  rw [h.alone t ht, h.thread]
  rfl

theorem SyncInv.of_boot (h : st.Boot) : SyncInv st := by
  refine ⟨⟨h.nextThread, fun t ht => ?_, fun t ht f hf => ?_, fun t ht f hf => ?_⟩,
    ⟨fun s t => ?_, fun s => ?_⟩, ⟨fun l => ?_, fun l t ht => ?_, fun l t ht hhead => ?_⟩⟩
  · rw [h.idle] at ht
    cases ht
  · rw [todo_of_boot h ht] at hf
    cases hf
  · rw [todo_of_boot h ht] at hf
    cases hf
  · rw [h.waiters]
    refine iff_of_false List.not_mem_nil fun ⟨ht, hdown, _⟩ => ?_
    rw [downOf, head, todo_of_boot h ht] at hdown
    cases hdown
  · rw [h.waiters]
    exact .nil
  · rw [h.lockValue, h.inside]
    rfl
  · rw [h.holder] at ht
    cases ht
  · rw [head, todo_of_boot h ht] at hhead
    cases hhead

/-! ## The count -/

/-- The thread has been woken from the semaphore, and has not tested its value again yet. -/
def Woken (st : ThreadSystem) (s : SemaId) (t : Nat) : Prop :=
  st.downOf t = some s ∧ st.status t ≠ .blocked

instance (st : ThreadSystem) (s : SemaId) : DecidablePred (st.Woken s) := fun _ =>
  inferInstanceAs (Decidable (_ ∧ _))

/-- The threads that have been woken from a semaphore and have not run since. -/
def woken (st : ThreadSystem) (s : SemaId) : Finset Nat :=
  (Finset.range st.nextThread).filter (st.Woken s)

theorem mem_woken : t ∈ st.woken s ↔ t < st.nextThread ∧ st.Woken s t := by
  rw [woken, Finset.mem_filter, Finset.mem_range]

/-- **The value of a semaphore.** -/
structure SemaInv (st : ThreadSystem) (s : SemaId) : Prop where
  lt : st.value s < 2 ^ 32
  /-- No more downs have completed than there were to begin with and have been upped. -/
  le : st.value s + st.downs s ≤ st.initial s + st.ups s
  count : (st.value s + st.downs s) % 2 ^ 32 = (st.initial s + st.ups s) % 2 ^ 32
  /-- What the threads that wait could take is left for those that have been woken. -/
  wake : st.waiters s ≠ [] → st.value s ≤ (st.woken s).card

theorem SemaInv.of_same (h : SemaInv st s) (hvalue : st'.value s = st.value s)
    (hinitial : st'.initial s = st.initial s) (hups : st'.ups s = st.ups s)
    (hdowns : st'.downs s = st.downs s)
    (hwake : st'.waiters s ≠ [] → st.value s ≤ (st'.woken s).card) : SemaInv st' s := by
  refine ⟨?_, ?_, ?_, ?_⟩
  · rw [hvalue]
    exact h.lt
  · rw [hvalue, hinitial, hups, hdowns]
    exact h.le
  · rw [hvalue, hinitial, hups, hdowns]
    exact h.count
  · rwa [hvalue]

theorem woken_subset (hnext : st.nextThread ≤ st'.nextThread)
    (hkeep : ∀ t < st.nextThread, st.Woken s t → st'.Woken s t) : st.woken s ⊆ st'.woken s :=
  fun t ht => by
    rw [mem_woken] at ht ⊢
    exact ⟨ht.1.trans_le hnext, hkeep t ht.1 ht.2⟩

theorem SemaInv.wake_of (h : SemaInv st s) (hwaiters : st'.waiters s = st.waiters s)
    (hnext : st.nextThread ≤ st'.nextThread)
    (hkeep : ∀ t < st.nextThread, st.Woken s t → st'.Woken s t)
    (hne : st'.waiters s ≠ []) : st.value s ≤ (st'.woken s).card :=
  (h.wake (hwaiters ▸ hne)).trans (Finset.card_le_card (woken_subset hnext hkeep))

theorem Woken.congr (htodo : (st'.thread t).todo = (st.thread t).todo)
    (hstatus : st'.status t = st.status t) (hw : st.Woken s t) : st'.Woken s t := by
  rwa [Woken, downOf_congr htodo, hstatus]

variable {s' : SemaId}

theorem Leaves.not_woken (hl : st.Leaves s lock rest) (hne : s' ≠ s) :
    ¬ st.Woken s' st.current := fun hw => by
  rcases hl with ⟨hold, -⟩ | htodo
  · exact nomatch hold.downOf.symm.trans hw.1
  · obtain ⟨lock', hhead⟩ := downOf_eq_some.mp hw.1
    rw [head, show (st.thread st.current).todo = _ from htodo] at hhead
    cases hhead
    exact hne rfl

theorem SemaInv.sched (h : SemaInv st s) (hs : Sched st st') : SemaInv st' s := by
  refine h.of_same (congrFun hs.value s) (congrFun hs.initial s) (congrFun hs.ups s)
    (congrFun hs.downs s)
    (h.wake_of (congrFun hs.waiters s) hs.nextThread.ge fun t _ hw => ?_)
  rw [Woken, downOf_congr (hs.todo t), ne_eq, hs.asleep t s hw.1]
  exact hw

variable {thread : Nat → Thread} {intrContext : Bool} {c : Nat}

theorem SemaInv.of_current (h : SemaInv st s) (hself : ¬ st.Woken s st.current)
    (hothers : ∀ t, t ≠ st.current → thread t = st.thread t) :
    SemaInv { st with thread := thread } s := by
  refine h.of_same rfl rfl rfl rfl (h.wake_of rfl le_rfl fun t _ hw => ?_)
  have hthread := hothers t fun heq => hself (heq ▸ hw)
  exact hw.congr (congrArg _ hthread) (congrArg _ hthread)

theorem NoLoop.not_woken (hold : st.NoLoop t) : ¬ st.Woken s t := fun hw =>
  nomatch hold.downOf.symm.trans hw.1

theorem SemaInv.create (h : SemaInv st s) (priority : Int) : SemaInv (st.created priority) s := by
  refine h.of_same rfl rfl rfl rfl (h.wake_of rfl (Nat.le_succ _) fun t ht hw => ?_)
  have hthread : (st.created priority).thread t = st.thread t := by
    rw [thread_created, if_neg ht.ne]
  exact hw.congr (congrArg _ hthread) (congrArg _ hthread)

theorem SemaInv.modify (h : SemaInv st s) (htodo : ∀ th, (f th).todo = th.todo)
    (hstatus : ∀ th, (f th).status = th.status) : SemaInv (st.modify t f) s :=
  h.of_same rfl rfl rfl rfl (h.wake_of rfl le_rfl fun u _ hw =>
    hw.congr (todo_modify htodo u) (status_modify hstatus u))

theorem SemaInv.init (h : SemaInv st s) (t : Nat) : SemaInv (st.semaInit (.waiter t) 0) s := by
  by_cases heq : s = .waiter t
  · subst heq
    have hvalue : (st.semaInit (.waiter t) 0).value (.waiter t) = 0 := update_self ..
    have hinitial : (st.semaInit (.waiter t) 0).initial (.waiter t) = 0 := update_self ..
    have hups : (st.semaInit (.waiter t) 0).ups (.waiter t) = 0 := update_self ..
    have hdowns : (st.semaInit (.waiter t) 0).downs (.waiter t) = 0 := update_self ..
    refine ⟨?_, ?_, ?_, fun _ => ?_⟩
    · rw [hvalue]
      decide
    · rw [hvalue, hinitial, hups, hdowns]
    · rw [hvalue, hinitial, hups, hdowns]
    · rw [hvalue]
      exact Nat.zero_le _
  · have hsame : ∀ {α : Type} (f : SemaId → α) (x : α), update f (.waiter t) x s = f s :=
      fun f x => update_of_ne heq x f
    exact h.of_same (hsame ..) (hsame ..) (hsame ..) (hsame ..)
      (h.wake_of (hsame ..) le_rfl fun _ _ => id)

/-- **A down completes.** -/
structure Takes (st : ThreadSystem) (s : SemaId) (st' : ThreadSystem) : Prop where
  nextThread : st'.nextThread = st.nextThread
  value : st'.value = update st.value s (st.value s - 1)
  waiters : st'.waiters = st.waiters
  initial : st'.initial = st.initial
  ups : st'.ups = st.ups
  downs : st'.downs = update st.downs s (st.downs s + 1)
  others : ∀ t, t ≠ st.current →
    (st'.thread t).todo = (st.thread t).todo ∧ st'.status t = st.status t

theorem takes_own (st : ThreadSystem) (s : SemaId) (lock : Option Nat) (rest : List Frame) :
    Takes st s (((st.setTodo rest).semaTake s).own lock) := by
  rw [own_semaTake]
  refine ⟨rfl, rfl, rfl, rfl, rfl, rfl, fun t ht => ?_⟩
  show ((st.setTodo rest).thread t).todo = _ ∧ ((st.setTodo rest).thread t).status = _
  rw [thread_setTodo, if_neg ht]
  exact ⟨rfl, rfl⟩

theorem SemaInv.take_self (h : SemaInv st s) (hpos : 0 < st.value s) (ht : Takes st s st') :
    SemaInv st' s := by
  have hvalue : st'.value s = st.value s - 1 := by rw [ht.value, update_self]
  have hsum : st'.value s + st'.downs s = st.value s + st.downs s := by
    rw [hvalue, ht.downs, update_self]
    omega
  refine ⟨?_, ?_, ?_, fun hne => ?_⟩
  · rw [hvalue]
    exact (Nat.sub_le ..).trans_lt h.lt
  · rw [hsum, ht.initial, ht.ups]
    exact h.le
  · rw [hsum, ht.initial, ht.ups]
    exact h.count
  · rw [ht.waiters] at hne
    have hsub : (st.woken s).erase st.current ⊆ st'.woken s := fun t hmem => by
      rw [Finset.mem_erase, mem_woken] at hmem
      obtain ⟨hne, hlt, hw⟩ := hmem
      obtain ⟨htodo, hstatus⟩ := ht.others t hne
      rw [mem_woken, ht.nextThread, Woken, downOf_congr htodo, hstatus]
      exact ⟨hlt, hw⟩
    calc st'.value s
      _ = st.value s - 1 := hvalue
      _ ≤ (st.woken s).card - 1 := Nat.sub_le_sub_right (h.wake hne) 1
      _ ≤ ((st.woken s).erase st.current).card := Finset.pred_card_le_card_erase
      _ ≤ (st'.woken s).card := Finset.card_le_card hsub

theorem SemaInv.take (h : SemaInv st s') (hleaves : st.Leaves s lock rest) (hpos : 0 < st.value s)
    (ht : Takes st s st') : SemaInv st' s' := by
  by_cases heq : s' = s
  · subst heq
    exact h.take_self hpos ht
  · refine h.of_same ?_ (congrFun ht.initial s') (congrFun ht.ups s') ?_
      (h.wake_of (congrFun ht.waiters s') ht.nextThread.ge fun t _ hw => ?_)
    · rw [ht.value, update_of_ne heq]
    · rw [ht.downs, update_of_ne heq]
    · obtain ⟨htodo, hstatus⟩ := ht.others t fun h => hleaves.not_woken heq (h ▸ hw)
      exact hw.congr htodo hstatus

/-- **A thread falls asleep** only where the value is 0. -/
theorem SemaInv.asleep (h : SemaInv st s') (hleaves : st.Leaves s lock rest)
    (hzero : st.value s = 0) (hs : Sleeps st s lock rest st') : SemaInv st' s' := by
  refine h.of_same (congrFun hs.value s') (congrFun hs.initial s') (congrFun hs.ups s')
    (congrFun hs.downs s') ?_
  by_cases heq : s' = s
  · subst heq
    rw [hzero]
    exact fun _ => Nat.zero_le _
  · refine h.wake_of ?_ hs.nextThread.ge fun t _ hw => ?_
    · rw [hs.waiters, update_of_ne heq]
    · have ht : t ≠ st.current := fun h => hleaves.not_woken heq (h ▸ hw)
      exact hw.congr ((hs.todo t).trans (if_neg ht)) ((hs.status t).trans (if_neg ht))

theorem Wakes.woken (hs : Wakes st s st') (hw : st.Woken s' t) : st'.Woken s' t := by
  refine ⟨(hs.downOf t).trans hw.1, ?_⟩
  rcases hs.waiters with ⟨-, -, hstatus⟩ | ⟨w, rest, -, -, hstatus⟩ <;> rw [hstatus]
  · exact hw.2
  · split
    next => exact nofun
    next => exact hw.2

/-- **An up completes.**  If any threads are left to wait, it has woken one. -/
theorem SemaInv.wakes_self (h : SemaInv st s) (hw : WaitInv st) (hs : Wakes st s st') :
    SemaInv st' s := by
  have hvalue : st'.value s = (st.value s + 1) % 2 ^ 32 := by rw [hs.value, update_self]
  have hups : st'.ups s = st.ups s + 1 := by rw [hs.ups, update_self]
  have hle := h.le
  have hcount := h.count
  have hmod := Nat.mod_le (st.value s + 1) (2 ^ 32)
  refine ⟨?_, ?_, ?_, fun hne => ?_⟩
  · rw [hvalue]
    exact Nat.mod_lt _ (by decide)
  · rw [hvalue, hups, hs.initial, hs.downs]
    omega
  · rw [hvalue, hups, hs.initial, hs.downs]
    omega
  · rcases hs.waiters with ⟨hnil, hwaiters, -⟩ | ⟨w, rest, hperm, -, hstatus⟩
    · exact absurd (hwaiters ▸ hnil) hne
    · have hmem : w ∈ st.waiters s := hperm.subset (.head _)
      obtain ⟨hlt, hdown, hblocked⟩ := (hw.waiting s w).mp hmem
      have hnot : w ∉ st.woken s := fun hmem => (mem_woken.mp hmem).2.2 hblocked
      have hwoken : w ∈ st'.woken s := by
        rw [mem_woken, hs.nextThread, Woken, hs.downOf, hstatus, if_pos rfl]
        exact ⟨hlt, hdown, nofun⟩
      calc st'.value s
        _ ≤ st.value s + 1 := hvalue.trans_le hmod
        _ ≤ (st.woken s).card + 1 := Nat.succ_le_succ (h.wake (List.ne_nil_of_mem hmem))
        _ = (insert w (st.woken s)).card := (Finset.card_insert_of_notMem hnot).symm
        _ ≤ (st'.woken s).card :=
          Finset.card_le_card (Finset.insert_subset hwoken
            (woken_subset hs.nextThread.ge fun _ _ => hs.woken))

theorem SemaInv.wakes (h : SemaInv st s') (hw : WaitInv st) (hs : Wakes st s st') :
    SemaInv st' s' := by
  by_cases heq : s' = s
  · subst heq
    exact h.wakes_self hw hs
  · refine h.of_same ?_ (congrFun hs.initial s') ?_ (congrFun hs.downs s')
      (h.wake_of ?_ hs.nextThread.ge fun _ _ => hs.woken)
    · rw [hs.value, update_of_ne heq]
    · rw [hs.ups, update_of_ne heq]
    · rcases hs.waiters with ⟨-, hwaiters, -⟩ | ⟨w, rest, -, hwaiters, -⟩ <;> rw [hwaiters]
      rw [update_of_ne heq]

theorem SemaInv.givesUp (h : SemaInv st s) (htodo : st.todo = .releaseRest l :: rest)
    (hg : GivesUp st l rest st') : SemaInv st' s := by
  refine h.of_same (congrFun hg.value s) (congrFun hg.initial s) (congrFun hg.ups s)
    (congrFun hg.downs s) (h.wake_of (congrFun hg.waiters s) hg.nextThread.ge fun t _ hw =>
      hw.congr ((hg.todo t).trans (if_neg ?_)) (hg.status t))
  rintro rfl
  obtain ⟨lock, hhead⟩ := downOf_eq_some.mp hw.1
  rw [head, show (st.thread st.current).todo = _ from htodo] at hhead
  cases hhead

/-- **Every change keeps the count of every semaphore.** -/
theorem SemaInv.change (h : SemaInv st s) (hinv : SyncInv st) (hc : SyncChange fits st st') :
    SemaInv st' s := by
  cases hc with
  | sched hs => exact h.sched hs
  | frames todo hidle hold hnew =>
    exact h.of_current hold.not_woken fun t ht => update_of_ne ht ..
  | create priority => exact h.create priority
  | setPriority priority => exact h.modify (fun _ => rfl) fun _ => rfl
  | forget hrun => exact h.modify (fun _ => rfl) fun _ => rfl
  | init hold => exact h.init st.current
  | take s' lock hleaves hrun hlock hpos => exact h.take hleaves hpos (takes_own ..)
  | sleep s' lock hleaves hrun hidle hfits hzero hjust =>
    exact h.asleep hleaves hzero (sleeps_fallAsleep ..)
  | enrol l holder hold hrun hidle hholder hne hjust =>
    -- The lock has a holder, who is inside.
    have hvalue := hinv.value l
    rw [(hinv.holder l holder hholder).2, List.length_singleton] at hvalue
    exact h.asleep (.inl ⟨hold, rfl⟩) (by omega) (sleeps_enrol hholder)
  | up s' hplain => exact h.wakes hinv.toWaitInv (wakes_wakeFirst ..)
  | clear l hold hidle hholder =>
    have h1 : SemaInv { st with holder := update st.holder l none } s :=
      h.of_same rfl rfl rfl rfl (h.wake_of rfl le_rfl fun _ _ => id)
    exact h1.of_current hold.not_woken fun t ht => update_of_ne ht ..
  | release l htodo hrun =>
    have hg := givesUp_giveUp st l (by assumption)
    exact (h.givesUp htodo hg).wakes (hinv.toWaitInv.givesUp hrun hg) (wakes_wakeFirst ..)

theorem SemaInv.changes (hs : ∀ s, SemaInv st s) (hinv : SyncInv st)
    (hc : SyncChanges fits st st') : ∀ s, SemaInv st' s := by
  induction hc with
  | refl => exact hs
  | tail hsteps hstep ih => exact fun s => (ih s).change (hinv.changes hsteps) hstep

theorem SemaInv.of_boot (h : st.Boot) (s : SemaId) : SemaInv st s := by
  refine ⟨h.value s, ?_, ?_, fun hne => absurd (h.waiters s) hne⟩
  · rw [h.initial, h.ups, h.downs]
  · rw [h.initial, h.ups, h.downs]

/-! ## What a step does to the semaphores -/

/-- The semaphore that the step ups. -/
def upped (st : ThreadSystem) (tick : Tick) : Option SemaId :=
  if st.switching then none
  else
    match tick with
    | .call (.semaUp s) => if st.todo = [] then some (.plain s) else none
    | .next =>
      match st.todo.head? with
      | some (.up s) => some s
      | some (.releaseRest l) => some (.ofLock l)
      | _ => none
    | .interruptUp s => if st.inSemaDown st.current then none else some (.plain s)
    | _ => none

/-- The semaphores are as before. -/
def SameSemas (st st' : ThreadSystem) : Prop :=
  st'.value = st.value ∧ st'.downs = st.downs ∧ st'.waiters = st.waiters

theorem sameSemas_threadYield (st : ThreadSystem) : SameSemas st st.threadYield := by
  rw [threadYield]
  split <;> exact ⟨rfl, rfl, rfl⟩

theorem sameSemas_threadUnblock
    (hst : st.threadUnblock t intrContext = some st') : SameSemas st st' := by
  rw [threadUnblock, Option.ite_none_right_eq_some] at hst
  obtain ⟨-, hst⟩ := hst
  dsimp only at hst
  split at hst
  · obtain ⟨-, hst⟩ := Option.ite_none_left_eq_some.mp hst
    cases hst
    exact sameSemas_threadYield (st.makeReady t)
  · cases hst
    exact ⟨rfl, rfl, rfl⟩

theorem sameSemas_condSignal (hst : st.condSignal c l = some st') : SameSemas st st' := by
  rw [condSignal, Option.ite_none_right_eq_some, Option.ite_none_left_eq_some] at hst
  obtain ⟨-, -, hst⟩ := hst
  split at hst <;> cases hst <;> exact ⟨rfl, rfl, rfl⟩

theorem sameSemas_condBroadcast (hst : st.condBroadcast c l = some st') : SameSemas st st' := by
  rw [condBroadcast] at hst
  split at hst
  · cases hst
    exact ⟨rfl, rfl, rfl⟩
  · have hsame := sameSemas_condSignal hst
    exact hsame

theorem sameSemas_threadSetPriority (st : ThreadSystem) (priority : Int) :
    SameSemas st (st.threadSetPriority priority) := by
  unfold threadSetPriority
  split
  · exact ⟨rfl, rfl, rfl⟩
  · dsimp only
    split
    · exact ⟨rfl, rfl, rfl⟩
    · split
      · exact sameSemas_threadYield (st.modify st.current fun t =>
          { t with priority := priority, originPriority := priority })
      · exact ⟨rfl, rfl, rfl⟩

theorem sameSemas_lockRelease (hst : st.lockRelease l = some st') : SameSemas st st' := by
  obtain ⟨-, hst⟩ := Option.ite_none_right_eq_some.mp hst
  cases hst
  exact ⟨rfl, rfl, rfl⟩

theorem downs_semaUp (hst : st.semaUp s intrContext = some st') : st'.downs = st.downs := by
  simp only [semaUp] at hst
  split at hst
  · cases hst
    rfl
  · exact (sameSemas_threadUnblock hst).2.1.trans rfl

/-- **What a step does to the semaphores.**  They are as before, or the current thread takes one,
joins the queue of one or initialises its own, or the step is one that ups. -/
inductive SemaChange (ups : Prop) (st st' : ThreadSystem) : Prop
  | same (hs : SameSemas st st')
  | take (s : SemaId) (hpos : 0 < st.value s) (hs : SameSemas (st.semaTake s) st')
  | join (s : SemaId) (hsw : st.switching = false) (hs : SameSemas { st with
      waiters := update st.waiters s (st.waiters s ++ [st.current]) } st')
  | init (hs : SameSemas (st.semaInit (.waiter st.current) 0) st')
  | up (hups : ups) (hdowns : st'.downs = st.downs)

variable {ups : Prop}

theorem SemaChange.of_thread (h : SemaChange ups { st with thread := thread } st') :
    SemaChange ups st st' := by
  cases h with
  | same hs => exact .same hs
  | take s hpos hs => exact .take s hpos hs
  | join s hsw hs => exact .join s hsw hs
  | init hs => exact .init hs
  | up hups hdowns => exact .up hups hdowns

theorem semaChange_semaDown (st : ThreadSystem) (hsw : st.switching = false) (s : SemaId)
    (lock : Option Nat) : SemaChange ups st (st.semaDown s lock) := by
  unfold semaDown
  split
  next =>
    refine .join s hsw ?_
    show SameSemas _ (st.fallAsleep s lock)
    rw [fallAsleep_eq]
    exact ⟨rfl, rfl, rfl⟩
  next hne => cases lock <;> exact .take s (Nat.pos_of_ne_zero hne) ⟨rfl, rfl, rfl⟩

theorem semaChange_semaTryDown (st : ThreadSystem) (s : SemaId) :
    SemaChange ups st (st.semaTryDown s) := by
  rw [semaTryDown]
  split
  next hpos => exact .take s hpos ⟨rfl, rfl, rfl⟩
  next => exact .same ⟨rfl, rfl, rfl⟩

theorem exists_thread_enrol (st : ThreadSystem) (l : Nat) :
    ∃ thread, st.enrol l = { st with thread := thread } := by
  rw [enrol]
  split
  next => exact ⟨_, rfl⟩
  next => exact ⟨_, rfl⟩

theorem semaChange_lockAcquire (st : ThreadSystem) (hsw : st.switching = false)
    (hst : st.lockAcquire l = some st') : SemaChange ups st st' := by
  rw [lockAcquire, Option.ite_none_left_eq_some] at hst
  cases hst.2
  obtain ⟨thread, henrol⟩ := exists_thread_enrol st l
  rw [henrol]
  exact (semaChange_semaDown { st with thread := thread } hsw _ _).of_thread

theorem semaChange_lockTryAcquire (hst : st.lockTryAcquire l = some st') :
    SemaChange ups st st' := by
  rw [lockTryAcquire, Option.ite_none_left_eq_some] at hst
  obtain ⟨-, hst⟩ := hst
  split at hst
  next hpos =>
    cases hst
    rw [semaTryDown, if_pos hpos]
    exact .take (.ofLock l) hpos ⟨rfl, rfl, rfl⟩
  next =>
    cases hst
    exact .same ⟨rfl, rfl, rfl⟩

theorem semaChange_call (hsw : st.switching = false) (hnil : st.todo = []) {c : ThreadCall}
    (hst : st.call c = some st') : SemaChange (st.upped (.call c)).isSome st st' := by
  cases c with
  | create priority =>
    obtain ⟨-, hst⟩ := Option.ite_none_right_eq_some.mp hst
    cases hst
    exact .same ⟨rfl, rfl, rfl⟩
  | yield =>
    cases hst
    exact .same (sameSemas_threadYield st)
  | block =>
    cases hst
    exact .same ⟨rfl, rfl, rfl⟩
  | unblock t =>
    obtain ⟨-, hst⟩ := Option.ite_none_left_eq_some.mp hst
    exact .same (sameSemas_threadUnblock hst)
  | semaDown s =>
    cases hst
    exact semaChange_semaDown st hsw (.plain s) none
  | semaUp s => exact .up (by simp [upped, hsw, hnil]) (downs_semaUp hst)
  | semaTryDown s =>
    cases hst
    exact semaChange_semaTryDown st (.plain s)
  | lockAcquire l => exact semaChange_lockAcquire st hsw hst
  | lockTryAcquire l => exact semaChange_lockTryAcquire hst
  | lockRelease l => exact .same (sameSemas_lockRelease hst)
  | setPriority priority =>
    cases hst
    exact .same (sameSemas_threadSetPriority st priority)
  | condWait c l =>
    obtain ⟨-, hst⟩ := Option.ite_none_right_eq_some.mp hst
    cases hst
    exact .init ⟨rfl, rfl, rfl⟩
  | condSignal c l => exact .same (sameSemas_condSignal hst)
  | condBroadcast c l => exact .same (sameSemas_condBroadcast hst)
  | idle =>
    obtain ⟨-, hst⟩ := Option.ite_none_right_eq_some.mp hst
    cases hst
    exact .same ⟨rfl, rfl, rfl⟩

theorem semaChange_next (hsw : st.switching = false) {f : Frame} (hframe : st.todo.head? = some f)
    (hst : st.pop.resume f = some st') : SemaChange (st.upped .next).isSome st st' := by
  cases f with
  | acquire l => exact (semaChange_lockAcquire st.pop hsw hst).of_thread
  | callDown s =>
    cases hst
    exact (semaChange_semaDown st.pop hsw s none).of_thread
  | down s lock =>
    cases hst
    exact (semaChange_semaDown st.pop hsw s lock).of_thread
  | up s => exact .up (by simp [upped, hsw, hframe]) ((downs_semaUp hst).trans rfl)
  | broadcast c l =>
    have hsame := sameSemas_condBroadcast hst
    exact .same hsame
  | release l =>
    have hsame := sameSemas_lockRelease hst
    exact .same hsame
  | releaseRest l => exact .up (by simp [upped, hsw, hframe]) ((downs_semaUp hst).trans rfl)
  | create priority =>
    have hsame := sameSemas_threadUnblock hst
    exact .same hsame
  | createCheck priority =>
    cases hst
    split
    · exact .same (sameSemas_threadYield st.pop)
    · exact .same ⟨rfl, rfl, rfl⟩

variable {tick : Tick} {picked : Option Nat}

theorem semaChange_of_step (hst : threadMachine.step st tick = some (picked, st')) :
    SemaChange (st.upped tick).isSome st st' := by
  cases stepped hst with
  | schedule _ hst =>
    obtain ⟨⟨next, rest⟩, -, hnext⟩ := Option.map_eq_some_iff.mp hst
    cases hnext
    exact .same ⟨rfl, rfl, rfl⟩
  | call hsw hnil _ hst => exact semaChange_call hsw hnil hst
  | next hsw hframe hst => exact semaChange_next hsw hframe hst
  | preempt => exact .same (sameSemas_threadYield st)
  | wake _ _ hst => exact .same (sameSemas_threadUnblock hst)
  | interruptUp hsw hout hst => exact .up (by simp [upped, hsw, hout]) (downs_semaUp hst)

/-- A down that completes has found the value above 0, and lowers it by one. -/
def DownsCount (st st' : ThreadSystem) : Prop :=
  ∀ s, st.downs s < st'.downs s → 0 < st.value s ∧ st'.value s = st.value s - 1

theorem SemaChange.downsCount (h : SemaChange ups st st') : DownsCount st st' := by
  intro s hlt
  cases h with
  | same hs => exact absurd hlt (hs.2.1 ▸ Nat.lt_irrefl _)
  | take s' hpos hs =>
    simp only [hs.2.1, semaTake, update_apply] at hlt
    split at hlt
    next heq =>
      subst heq
      exact ⟨hpos, (congrFun hs.1 s).trans (update_self ..)⟩
    next => exact absurd hlt (Nat.lt_irrefl _)
  | join s' _ hs => exact absurd hlt (hs.2.1 ▸ Nat.lt_irrefl _)
  | init hs =>
    simp only [hs.2.1, semaInit, update_apply] at hlt
    split at hlt
    · exact absurd hlt (Nat.not_lt_zero _)
    · exact absurd hlt (Nat.lt_irrefl _)
  | up _ hdowns => exact absurd hlt (hdowns ▸ Nat.lt_irrefl _)

/-- What holds in every state that is reached. -/
structure Sound (st : ThreadSystem) : Prop extends SyncInv st where
  ready : ReadyInv False st
  sema : ∀ s, SemaInv st s

theorem Sound.of_boot (h : st.Boot) : Sound st := ⟨.of_boot h, .of_boot h, .of_boot h⟩

theorem Sound.step (h : Sound st) (hst : threadMachine.step st tick = some (picked, st')) :
    Sound st' := by
  have hc : SyncChanges False st st' := h.changes_of_step h.ready False.elim hst
  exact ⟨h.toSyncInv.changes hc, h.ready.step False.elim hst, SemaInv.changes h.sema h.toSyncInv hc⟩

theorem Sound.of_reach {guard : ThreadSystem → Tick → Prop}
    (hreach : threadMachine.Reach Boot guard st) : Sound st :=
  hreach.invariant (fun _ => .of_boot) fun _ _ _ _ h _ hst => h.step hst

end ThreadSystem

/-! ## The property -/

/-- **Semaphores and locks are sound** over every run of the thread system.  In every state,

* the value of a semaphore is what it was initialised to, plus the ups and minus the downs that have
  completed, of which there are not too many: it is an unsigned integer;
* a step that completes a down finds a value above 0, and lowers it by one;
* while threads wait, the value is at most the number of those that have been woken and have not
  gone on yet;
* at most one thread is between the completion of an acquire of a lock and that of its release. -/
theorem semaphores_sound {st : ThreadSystem}
    (hreach : threadMachine.Reach ThreadSystem.Boot (fun _ _ => True) st) :
    (∀ s, st.downs s ≤ st.initial s + st.ups s ∧
      st.value s = (st.initial s + st.ups s - st.downs s) % 2 ^ 32) ∧
    (∀ tick picked st', threadMachine.step st tick = some (picked, st') →
      ∀ s, st.downs s < st'.downs s → 0 < st.value s ∧ st'.value s = st.value s - 1) ∧
    (∀ s, st.waiters s ≠ [] → st.value s ≤ (st.woken s).card) ∧
    ∀ l, (st.inside l).length ≤ 1 := by
  have h := ThreadSystem.Sound.of_reach hreach
  refine ⟨fun s => ?_, fun _ _ _ hst => (ThreadSystem.semaChange_of_step hst).downsCount,
    fun s => (h.sema s).wake, fun l => ?_⟩
  · have hlt := (h.sema s).lt
    have hle := (h.sema s).le
    have hcount := (h.sema s).count
    omega
  · have hvalue := h.value l
    omega

/-- The initial thread creates two threads of higher priority, which take the semaphore `s` and wait
for it, and then ups it. -/
def ThreadSystem.semaUpped (s : Nat) : List Tick :=
  [.call (.create 40), .next, .next, .next, .next, .schedule, .call (.semaDown s),
    .call (.semaDown s), .schedule, .next, .schedule,
    .call (.create 39), .next, .next, .next, .next, .schedule, .call (.semaDown s), .schedule,
    .next, .schedule, .call (.semaUp s)]

/-- One of the threads still waits, the value is 1, and the other one has been woken. -/
theorem semaphores_sound_woken : ∃ st,
    threadMachine.Reach ThreadSystem.Boot (fun _ _ => True) st ∧ st.waiters (.plain 0) = [2] ∧
      st.value (.plain 0) = 1 ∧ 1 ≤ (st.woken (.plain 0)).card := by
  obtain ⟨st, hreach, hwaiters, hvalue⟩ := threadMachine.exists_reach ThreadSystem.boot_booted
    (ThreadSystem.semaUpped 0) (fun st => st.waiters (.plain 0) = [2] ∧ st.value (.plain 0) = 1)
    (by decide +kernel)
  have hwake := (semaphores_sound hreach).2.2.1 (.plain 0) (hwaiters ▸ nofun)
  exact ⟨st, hreach, hwaiters, hvalue, hvalue ▸ hwake⟩

end Pintos
