import Pintos.Threads.Semaphores

/-!
# Donated priorities

A thread that blocks donates its priority along a chain: to the holder of the lock it waits for, to
the holder of the lock that one waits for, and so on.  `donate_priority` is called for every thread
that blocks in `sema_down`, and the chain is that of the fields `waiting_lock`.  `lock_acquire` sets
the field and nothing clears it once the lock has been acquired, so a thread that blocks for another
reason later may still lead to the holder of a lock that it does not wait for.

As long as every thread that hands a priority on is blocked for the lock whose holder it raises, a
priority is above the one that a thread was given only where another thread is blocked for a lock it
holds.

* `DonInv` is the invariant: who is enrolled with a thread, and who justifies its priority.
* `justified_donateLoop`: the chain raises only threads that are waited for.
* `DonInv.change`: every change keeps the invariant.
* `donation_justified`: the property, along the runs whose donations are justified.
* `donation_unjustified`: a thread that blocks on a semaphore raises another one that nobody waits
  for.
-/

namespace Pintos

namespace ThreadSystem

variable {fits : Prop} {st st' : ThreadSystem} {t d l : Nat} {s : SemaId} {lock : Option Nat}

/-! ## The invariant -/

/-- Another thread is blocked for a lock that the thread holds. -/
def Justified (st : ThreadSystem) (t : Nat) : Prop :=
  ∃ l d, d < st.nextThread ∧ d ≠ t ∧ st.holder l = some t ∧ st.BlockedFor d l

/-- The thread is in the second half of `lock_release`. -/
def Releasing (st : ThreadSystem) (t : Nat) : Prop := ∃ l, st.head t = some (.releaseRest l)

/-- The thread `d` is blocked for a lock that `t` holds, or has not released yet. -/
def WaitsFor (st : ThreadSystem) (d t : Nat) : Prop :=
  d < st.nextThread ∧ ∃ l, (st.thread d).waitingLock = some l ∧ st.BlockedFor d l ∧
    (st.holder l = some t ∨ st.head t = some (.releaseRest l))

/-- **Donations**, which are justified if `fits` holds. -/
structure DonInv (fits : Prop) (st : ThreadSystem) : Prop where
  /-- The threads that are enrolled with a thread wait for it. -/
  donators : ∀ t < st.nextThread, ∀ d ∈ (st.thread t).potentialDonator, st.WaitsFor d t
  /-- A thread that runs at a priority that is not its own is waited for. -/
  justified : fits → ∀ t < st.nextThread, ¬ st.Releasing t →
    st.priority t ≠ (st.thread t).originPriority → st.Justified t

theorem BlockedFor.downOf (h : st.BlockedFor t l) : st.downOf t = some (.ofLock l) :=
  downOf_eq_some.mpr ⟨_, h.1⟩

section

variable (h : DonInv fits st)
include h

/-- Nobody is blocked who was not, and nobody else is released.  Those who enrol, and those who are
raised, are waited for. -/
theorem DonInv.of_links (hnext : st'.nextThread = st.nextThread)
    (hblocked : ∀ d l, d < st.nextThread → st.BlockedFor d l →
      st'.BlockedFor d l ∧ (st'.thread d).waitingLock = (st.thread d).waitingLock)
    (hholder : ∀ l t, st.holder l = some t →
      st'.holder l = some t ∨ st'.head t = some (.releaseRest l))
    (hhead : ∀ t l, st.head t = some (.releaseRest l) → st'.head t = some (.releaseRest l))
    (hdonators : ∀ t, ∀ d ∈ (st'.thread t).potentialDonator,
      d ∈ (st.thread t).potentialDonator ∨ st'.WaitsFor d t)
    (hpriority : fits → ∀ t, st'.priority t ≠ (st'.thread t).originPriority →
      st.priority t ≠ (st.thread t).originPriority ∨ st'.Justified t) : DonInv fits st' := by
  refine ⟨fun t ht d hd => ?_, fun hf t ht hrel hne => ?_⟩
  · rw [hnext] at ht
    refine (hdonators t d hd).elim (fun hd => ?_) id
    obtain ⟨hlt, l, hwait, hblock, hlink⟩ := h.donators t ht d hd
    obtain ⟨hblock', hwait'⟩ := hblocked d l hlt hblock
    refine ⟨hnext ▸ hlt, l, hwait'.trans hwait, hblock', ?_⟩
    exact hlink.elim (hholder l t) fun hh => .inr (hhead t l hh)
  · rw [hnext] at ht
    refine (hpriority hf t hne).elim (fun hne => ?_) id
    obtain ⟨l, d, hlt, hdt, hheld, hblock⟩ :=
      h.justified hf t ht (fun ⟨l, hh⟩ => hrel ⟨l, hhead t l hh⟩) hne
    exact ⟨l, d, hnext ▸ hlt, hdt, (hholder l t hheld).resolve_right fun hh => hrel ⟨l, hh⟩,
      (hblocked d l hlt hblock).1⟩

theorem DonInv.sched (hs : Sched st st') : DonInv fits st' := by
  have hthread := hs.thread
  refine h.of_links hs.nextThread (fun d l _ hb => ⟨⟨?_, ?_⟩, ?_⟩) (fun l t hh => .inl ?_)
    (fun t l hh => ?_) (fun t d hd => .inl ?_) fun _ t hne => .inl ?_
  · rw [head, hthread]
    exact hb.1
  · exact (hs.asleep d _ hb.downOf).mpr hb.2
  · rw [hthread]
  · rw [hs.holder]
    exact hh
  · rw [head, hthread]
    exact hh
  · rwa [hthread] at hd
  · rw [priority, hthread] at hne
    exact hne

/-- The current thread, which is not blocked for a lock, changes what it has left to do, and perhaps
what it waited for. -/
theorem DonInv.of_current (hnot : ∀ l, ¬ st.BlockedFor st.current l)
    (hnext : st'.nextThread = st.nextThread)
    (hholder : ∀ l t, st.holder l = some t →
      st'.holder l = some t ∨ st'.head t = some (.releaseRest l))
    (hself : ∀ l, st.head st.current ≠ some (.releaseRest l))
    (hthread : st'.thread st.current = { st.thread st.current with
      todo := (st'.thread st.current).todo
      waitingLock := (st'.thread st.current).waitingLock })
    (hothers : ∀ t, t ≠ st.current → st'.thread t = st.thread t) : DonInv fits st' := by
  refine h.of_links hnext (fun d l _ hb => ?_) hholder (fun t l hh => ?_) (fun t d hd => .inl ?_)
    fun _ t hne => .inl ?_
  · have hne : d ≠ st.current := by
      rintro rfl
      exact hnot l hb
    have hthread := hothers d hne
    rw [BlockedFor, head, status, hthread]
    exact ⟨hb, rfl⟩
  · have hne : t ≠ st.current := by
      rintro rfl
      exact hself l hh
    rw [head, hothers t hne]
    exact hh
  · by_cases heq : t = st.current
    · subst heq
      rwa [hthread] at hd
    · rwa [hothers t heq] at hd
  · by_cases heq : t = st.current
    · subst heq
      rwa [priority, hthread] at hne
    · rwa [priority, hothers t heq] at hne

theorem DonInv.create (priority : Int) : DonInv fits (st.created priority) := by
  have hold : ∀ {t}, t < st.nextThread → (st.created priority).thread t = st.thread t :=
    fun ht => by rw [thread_created, if_neg ht.ne]
  have hnew : (st.created priority).thread st.nextThread = initThread priority := by
    rw [thread_created, if_pos rfl]
  refine ⟨fun t ht d hd => ?_, fun hf t ht hrel hne => ?_⟩
  · rcases Nat.lt_or_eq_of_le (Nat.lt_succ_iff.mp ht) with hlt | rfl
    · rw [hold hlt] at hd
      obtain ⟨hdlt, l, hwait, hblock, hlink⟩ := h.donators t hlt d hd
      refine ⟨Nat.lt_succ_of_lt hdlt, l, ?_, ?_, ?_⟩
      · rwa [hold hdlt]
      · rwa [BlockedFor, head, status, hold hdlt]
      · rwa [head, hold hlt]
    · rw [hnew] at hd
      cases hd
  · rcases Nat.lt_or_eq_of_le (Nat.lt_succ_iff.mp ht) with hlt | rfl
    · rw [Releasing, head, hold hlt] at hrel
      rw [ThreadSystem.priority, hold hlt] at hne
      obtain ⟨l, d, hdlt, hdt, hheld, hblock⟩ := h.justified hf t hlt hrel hne
      refine ⟨l, d, Nat.lt_succ_of_lt hdlt, hdt, hheld, ?_⟩
      rw [BlockedFor, head, status, hold hdlt]
      exact hblock
    · rw [ThreadSystem.priority, hnew] at hne
      exact absurd rfl hne

theorem DonInv.setPriority (priority : Int) :
    DonInv fits (st.modify st.current fun t => { t with
      priority := if t.priority ≠ t.originPriority then t.priority else priority
      originPriority := priority }) := by
  generalize hst' : (st.modify st.current fun t => { t with
    priority := if t.priority ≠ t.originPriority then t.priority else priority
    originPriority := priority }) = st'
  have hthread : ∀ t, st'.thread t = { st.thread t with
      priority := st'.priority t
      originPriority := (st'.thread t).originPriority } := fun t => by
    rw [ThreadSystem.priority, ← hst', thread_modify]
    split
    next ht => rw [ht]
    next => rfl
  refine h.of_links (by rw [← hst']; rfl) (fun d l _ hb => ?_) (fun l t hh => .inl ?_)
    (fun t l hh => ?_) (fun t d hd => .inl ?_) fun _ t hne => .inl ?_
  · rw [BlockedFor, head, status, hthread]
    exact ⟨hb, rfl⟩
  · rw [← hst']
    exact hh
  · rw [head, hthread]
    exact hh
  · rwa [hthread] at hd
  · rw [ThreadSystem.priority, ← hst', thread_modify] at hne
    split at hne
    next ht =>
      -- A thread that runs at its own priority is given the new one in both fields.
      subst ht
      intro heq
      simp only [heq, ne_eq, not_true_eq_false, if_false] at hne
    next => exact hne

end

/-! ## The chain -/

theorem justified_modify_priority (st : ThreadSystem) (h : Nat) (p : Int) :
    (st.modify h fun th => { th with priority := p }).Justified t → st.Justified t :=
  fun ⟨l, d, hlt, hne, hheld, hblock⟩ => by
    have hthread := thread_modify st h d fun th => { th with priority := p }
    rw [BlockedFor, head, status, hthread] at hblock
    refine ⟨l, d, hlt, hne, hheld, ?_⟩
    split at hblock
    next heq =>
      subst heq
      exact hblock
    next => exact hblock

/-- `donate_priority` follows the same chain in both states. -/
structure SameChain (st st' : ThreadSystem) : Prop where
  priority : ∀ t, st'.priority t = st.priority t
  waitingLock : ∀ t, (st'.thread t).waitingLock = (st.thread t).waitingLock
  holder : st'.holder = st.holder

theorem SameChain.modify_priority (hs : SameChain st st') (h : Nat) (p : Int) :
    SameChain (st.modify h fun th => { th with priority := p })
      (st'.modify h fun th => { th with priority := p }) := by
  have hraised := fun (sys : ThreadSystem) (u : Nat) =>
    thread_modify sys h u fun th => { th with priority := p }
  refine ⟨fun u => ?_, fun u => ?_, hs.holder⟩
  · rw [ThreadSystem.priority, ThreadSystem.priority, hraised, hraised]
    split
    next => rfl
    next => exact hs.priority u
  · rw [hraised, hraised]
    split
    next => exact hs.waitingLock h
    next => exact hs.waitingLock u

/-- **The chain of `donate_priority` raises only threads that are waited for**, if every thread that
hands a priority on is blocked for the lock.  It is followed in the state `st`, before the current
thread is blocked, and justified in the state `st'`. -/
theorem justified_donateLoop (depth : Nat) {curr : Nat} (hs : SameChain st st')
    (hcurr : curr < st'.nextThread) (hknown : ∀ l h, st'.holder l = some h → h < st'.nextThread)
    (hjust : donationJustified depth st' curr) (t : Nat) :
    (donateLoop depth st curr).priority t = st.priority t ∨ st'.Justified t := by
  induction depth generalizing st st' curr with
  | zero => exact .inl rfl
  | succ depth ih =>
    rw [donationJustified] at hjust
    rw [donateLoop, ← hs.waitingLock, ← hs.holder]
    cases hw : (st'.thread curr).waitingLock with
    | none => exact .inl rfl
    | some l =>
      cases hh : st'.holder l with
      | none =>
        rw [Option.bind_some, hh]
        exact .inl rfl
      | some h =>
        rw [hw] at hjust
        simp only [hh, hs.priority] at hjust
        rw [Option.bind_some, hh]
        dsimp only
        split
        next hlt =>
          rw [if_pos hlt, decide_eq_true_eq] at hjust
          obtain ⟨hblock, hjust⟩ := hjust
          have hne : curr ≠ h := by
            rintro rfl
            exact lt_irrefl _ hlt
          by_cases ht : t = h
          · subst ht
            exact .inr ⟨l, curr, hcurr, hne, hh, hblock⟩
          · refine (ih (hs.modify_priority h _) (hknown l h hh) hknown hjust).imp
              (fun heq => heq.trans ?_) (justified_modify_priority st' h _)
            rw [priority, thread_modify, if_neg ht]
        next => exact .inl rfl

/-! ## Falling asleep -/

theorem thread_blockOn (st : ThreadSystem) (s : SemaId) (lock : Option Nat) (t : Nat) :
    (st.blockOn s lock).thread t = { st.thread t with
      todo := if t = st.current then .down s lock :: (st.thread t).todo else (st.thread t).todo
      status := if t = st.current then .blocked else st.status t } := by
  have hblock : (st.blockOn s lock).thread t = _ :=
    thread_setStatus (st.push [.down s lock]) st.current .blocked t
  rw [hblock, push, status, thread_modify]
  by_cases ht : t = st.current
  · simp only [ht, if_true, List.cons_append, List.nil_append]
  · simp only [ht, if_false]

theorem thread_fallAsleep (st : ThreadSystem) (s : SemaId) (lock : Option Nat) (t : Nat) :
    (st.fallAsleep s lock).thread t =
      { (st.blockOn s lock).thread t with priority := st.donatePriority.priority t } := by
  rw [fallAsleep_eq, thread_blockOn]

theorem justified_fallAsleep (hcurrent : st.current < st.nextThread)
    (hknown : ∀ l h, st.holder l = some h → h < st.nextThread) (hzero : st.value s = 0)
    (hjust : st.DownJustified s lock) (t : Nat) :
    (st.fallAsleep s lock).priority t = st.priority t ∨ (st.fallAsleep s lock).Justified t := by
  have hthread := thread_fallAsleep st s lock
  have hblock := thread_blockOn st s lock
  have hchain : SameChain st (st.blockOn s lock) :=
    ⟨fun t => by rw [priority, hblock], fun t => by rw [hblock], rfl⟩
  refine (justified_donateLoop 8 hchain hcurrent hknown (hjust hzero) t).imp (fun heq => ?_)
    fun hdonor => ?_
  · rw [priority, hthread]
    exact heq
  obtain ⟨l, d, hlt, hne, hheld, hb⟩ := hdonor
  refine ⟨l, d, ?_, hne, ?_, ?_⟩
  · rw [fallAsleep_eq]
    exact hlt
  · rw [fallAsleep_eq]
    exact hheld
  · rw [BlockedFor, head, status, hthread]
    exact hb

/-- **The current thread falls asleep** in the state `st1`, which is `st` but for what it has
enrolled for. -/
theorem DonInv.asleep (h : DonInv fits st) (hinv : SyncInv st) {st1 : ThreadSystem}
    (hrun : st.status st.current ≠ .blocked)
    (hself : ∀ l, st.head st.current ≠ some (.releaseRest l))
    (hcurrent : st1.current = st.current) (hnext : st1.nextThread = st.nextThread)
    (hholder : st1.holder = st.holder)
    (hothers : ∀ t, t ≠ st.current → st1.thread t = { st.thread t with
      potentialDonator := (st1.thread t).potentialDonator })
    (hpriority : ∀ t, st1.priority t = st.priority t ∧
      (st1.thread t).originPriority = (st.thread t).originPriority)
    (hdonators : ∀ t, ∀ d ∈ (st1.thread t).potentialDonator,
      d ∈ (st.thread t).potentialDonator ∨ (st1.fallAsleep s lock).WaitsFor d t)
    (hzero : st1.value s = 0) (hjust : fits → st1.DownJustified s lock) :
    DonInv fits (st1.fallAsleep s lock) := by
  have hthread := fun t => (thread_fallAsleep st1 s lock t).trans
    (congrArg (fun th : Thread => { th with priority := st1.donatePriority.priority t })
      (thread_blockOn st1 s lock t))
  have hout : ∀ t, t ≠ st.current → (st1.fallAsleep s lock).thread t = { st.thread t with
      priority := st1.donatePriority.priority t
      potentialDonator := (st1.thread t).potentialDonator } := fun t ht => by
    rw [hthread, hcurrent, if_neg ht, if_neg ht, status, hothers t ht]
  have hknown : ∀ l h, st1.holder l = some h → h < st1.nextThread := fun l h hh => by
    rw [hholder] at hh
    rw [hnext]
    exact (hinv.holder l h hh).1
  have hlt : st1.current < st1.nextThread := by
    rw [hcurrent, hnext]
    exact hinv.current
  refine h.of_links ?_ (fun d l _ hb => ?_) (fun l t hh => .inl ?_) (fun t l hh => ?_)
    (fun t d hd => hdonators t d ?_) fun hf t hne => ?_
  · rw [fallAsleep_eq]
    exact hnext
  · have hne : d ≠ st.current := by
      rintro rfl
      exact hrun hb.2
    rw [BlockedFor, head, status, hout d hne]
    exact ⟨hb, rfl⟩
  · rw [fallAsleep_eq]
    exact hholder ▸ hh
  · have hne : t ≠ st.current := by
      rintro rfl
      exact hself l hh
    rw [head, hout t hne]
    exact hh
  · rwa [hthread] at hd
  · obtain ⟨hsame, horigin⟩ := hpriority t
    refine (justified_fallAsleep hlt hknown hzero (hjust hf) t).imp_left fun heq => ?_
    rw [heq, hsame, hthread] at hne
    exact horigin ▸ hne

/-! ## The changes -/

theorem NoLoop.not_blockedFor (hold : st.NoLoop t) : ¬ st.BlockedFor t l := fun hb =>
  nomatch hold.downOf.symm.trans hb.downOf

theorem NoLoop.head_ne (hold : st.NoLoop t) : st.head t ≠ some (.releaseRest l) :=
  head?_ne_of_noLoop hold rfl

section

variable (h : DonInv fits st) {rest : List Frame}
include h

theorem DonInv.setTodo (hnot : ∀ l, ¬ st.BlockedFor st.current l)
    (hself : ∀ l, st.head st.current ≠ some (.releaseRest l)) (todo : List Frame) :
    DonInv fits (st.setTodo todo) := by
  refine h.of_current hnot rfl (fun _ _ => .inl) hself ?_ fun t ht => ?_
  · rw [thread_setTodo_self]
  · rw [thread_setTodo, if_neg ht]

theorem DonInv.forget (hrun : st.status st.current ≠ .blocked) :
    DonInv fits (st.modify st.current fun t => { t with waitingLock := none }) := by
  have hthread := fun t => thread_modify st st.current t fun th => { th with waitingLock := none }
  refine h.of_links rfl (fun d l _ hb => ?_) (fun _ _ => .inl) (fun t l hh => ?_)
    (fun t d hd => .inl ?_) fun _ t hne => .inl ?_
  · have hne : d ≠ st.current := by
      rintro rfl
      exact hrun hb.2
    rw [BlockedFor, head, status, hthread, if_neg hne]
    exact ⟨hb, rfl⟩
  · rw [head, hthread]
    split
    next heq => exact heq ▸ hh
    next => exact hh
  · rw [hthread] at hd
    split at hd
    next heq => exact heq ▸ hd
    next => exact hd
  · rw [priority, hthread] at hne
    split at hne
    next heq => exact heq ▸ hne
    next => exact hne

theorem DonInv.take (hinv : SyncInv st)
    (hleaves : st.Leaves s lock rest) (hrun : st.status st.current ≠ .blocked)
    (hsema : ∀ l, s = .ofLock l ↔ lock = some l) (hpos : 0 < st.value s) :
    DonInv fits (((st.setTodo rest).semaTake s).own lock) := by
  have hthread : (((st.setTodo rest).semaTake s).own lock).thread = (st.setTodo rest).thread := by
    cases lock <;> rfl
  have hnext : (((st.setTodo rest).semaTake s).own lock).nextThread = st.nextThread := by
    cases lock <;> rfl
  refine h.of_current (fun l hb => hrun hb.2) hnext (fun l t hh => .inl ?_)
    (hinv.leaves hleaves).2.2.2 ?_ fun t ht => ?_
  · cases lock with
    | none => exact hh
    | some l' =>
      -- The lock that is taken has no holder.
      have hne : l ≠ l' := by
        rintro rfl
        obtain rfl := (hsema l).mpr rfl
        have hvalue := hinv.value l
        rw [(hinv.holder l t hh).2, List.length_singleton] at hvalue
        omega
      exact (Function.update_of_ne hne (some st.current) st.holder).trans hh
  · rw [hthread, thread_setTodo_self]
  · rw [hthread, thread_setTodo, if_neg ht]

theorem DonInv.sleep (hinv : SyncInv st)
    (hleaves : st.Leaves s lock rest) (hrun : st.status st.current ≠ .blocked)
    (hzero : st.value s = 0) (hjust : fits → (st.setTodo rest).DownJustified s lock) :
    DonInv fits ((st.setTodo rest).fallAsleep s lock) := by
  have hthread := thread_setTodo st rest
  refine h.asleep hinv hrun (hinv.leaves hleaves).2.2.2 rfl rfl rfl (fun t ht => ?_) (fun t => ?_)
    (fun t d hd => .inl ?_) hzero hjust
  · rw [hthread, if_neg ht]
  · rw [priority, hthread]
    split <;> exact ⟨rfl, rfl⟩
  · rw [hthread] at hd
    split at hd <;> exact hd

/-- **The current thread enrols** with the holder of a lock and waits for it. -/
theorem DonInv.enrol (hinv : SyncInv st) {holder : Nat}
    (hold : st.NoLoop st.current) (hrun : st.status st.current ≠ .blocked)
    (hholder : st.holder l = some holder)
    (hjust : fits → (st.enrol l).DownJustified (.ofLock l) (some l)) :
    DonInv fits ((st.enrol l).fallAsleep (.ofLock l) (some l)) := by
  have hzero : st.value (.ofLock l) = 0 := by
    have hvalue := hinv.value l
    rw [(hinv.holder l holder hholder).2, List.length_singleton] at hvalue
    omega
  obtain ⟨donators, hperm, heq⟩ := enrol_eq hholder
  have hwaits : ((st.enrol l).fallAsleep (.ofLock l) (some l)).WaitsFor st.current holder := by
    have hcurrent : (st.enrol l).current = st.current := by rw [heq]
    refine ⟨?_, l, ?_, ⟨?_, ?_⟩, .inl ?_⟩
    · rw [fallAsleep_eq, heq]
      exact hinv.current
    · rw [thread_fallAsleep, thread_blockOn, heq]
      exact if_pos rfl
    · rw [head, thread_fallAsleep, thread_blockOn, hcurrent, if_pos rfl, if_pos rfl]
      rfl
    · rw [status, thread_fallAsleep, thread_blockOn, hcurrent, if_pos rfl]
    · rw [fallAsleep_eq, heq]
      exact hholder
  refine h.asleep hinv hrun (fun _ => hold.head_ne) ?_ ?_ ?_ (fun t ht => ?_) (fun t => ?_)
    (fun t d hd => ?_) ?_ hjust
  · rw [heq]
  · rw [heq]
  · rw [heq]
  · rw [heq]
    simp only [ht, if_false]
  · rw [heq]
    exact ⟨rfl, rfl⟩
  · rw [heq] at hd
    dsimp only at hd
    split at hd
    next ht =>
      subst ht
      rcases List.mem_cons.mp (hperm.mem_iff.mp hd) with rfl | hd
      · exact .inr hwaits
      · exact .inl hd
    next => exact .inl hd
  · rw [heq]
    exact hzero

end

theorem thread_wakeFirst (st : ThreadSystem) (s : SemaId) (t : Nat) :
    (st.wakeFirst s).thread t = { st.thread t with status := (st.wakeFirst s).status t } := by
  rcases wakeFirst_cases st s with ⟨-, heq⟩ | ⟨w, rest, -, heq⟩ <;> rw [heq]

theorem BlockedFor.wakeFirst (hb : st.BlockedFor d l) (hw : WaitInv st) (hne : s ≠ .ofLock l) :
    (st.wakeFirst s).BlockedFor d l := by
  refine ⟨?_, ?_⟩
  · rw [head, thread_wakeFirst]
    exact hb.1
  · rcases (wakes_wakeFirst st s).waiters with ⟨-, -, hstatus⟩ | ⟨w, rest, hperm, -, hstatus⟩
    · rw [hstatus]
      exact hb.2
    · have hdown := ((hw.waiting s w).mp (hperm.subset (.head _))).2.1
      have hdw : d ≠ w := by
        rintro rfl
        exact hne (Option.mem_unique hdown hb.downOf)
      rw [hstatus, if_neg hdw]
      exact hb.2

theorem DonInv.up (h : DonInv fits st) (hinv : SyncInv st) (hplain : ∀ l, s ≠ .ofLock l) :
    DonInv fits (st.wakeFirst s) := by
  have hthread := thread_wakeFirst st s
  have hs := wakes_wakeFirst st s
  refine h.of_links hs.nextThread (fun d l _ hb => ⟨hb.wakeFirst hinv.toWaitInv (hplain l), ?_⟩)
    (fun l t hh => .inl ?_) (fun t l hh => ?_) (fun t d hd => .inl ?_) fun _ t hne => .inl ?_
  · rw [hthread]
  · rw [hs.holder]
    exact hh
  · rw [head, hthread]
    exact hh
  · rwa [hthread] at hd
  · rwa [priority, hthread] at hne

theorem DonInv.clear (h : DonInv fits st) (hold : st.NoLoop st.current)
    (hholder : st.holder l = some st.current) :
    DonInv fits ({ st with holder := Function.update st.holder l none }.push [.releaseRest l]) := by
  refine h.of_current (fun _ => hold.not_blockedFor) rfl (fun l' t hh => ?_)
    (fun _ => hold.head_ne) ?_ fun t ht => ?_
  · by_cases heq : l' = l
    · subst heq
      obtain rfl := Option.mem_unique hholder hh
      rw [head, push, thread_modify, if_pos rfl]
      exact .inr rfl
    · refine .inl (Eq.trans ?_ hh)
      show Function.update st.holder l none l' = _
      rw [Function.update_of_ne heq]
  · rw [push, thread_modify, if_pos rfl]
  · rw [push, thread_modify, if_neg ht]

/-! ## Releasing a lock -/

/-- **`restore_priority`** keeps the threads that wait for other locks, and leaves the current
thread at its own priority unless there are any. -/
theorem restorePriority_self (st : ThreadSystem) (l : Nat) :
    ((st.restorePriority l).thread st.current).originPriority =
        (st.thread st.current).originPriority ∧
      (∀ d ∈ ((st.restorePriority l).thread st.current).potentialDonator,
        d ∈ (st.thread st.current).potentialDonator ∧ (st.thread d).waitingLock ≠ some l) ∧
      ((st.restorePriority l).priority st.current ≠ (st.thread st.current).originPriority →
        ∃ d, d ∈ ((st.restorePriority l).thread st.current).potentialDonator) := by
  rw [priority, restorePriority, thread_modify, if_pos rfl]
  refine ⟨rfl, fun d hd => ?_, fun hne => ?_⟩
  · have hkept := List.mem_filter.mp ((listSort_perm ..).mem_iff.mp hd)
    exact ⟨(listSort_perm ..).mem_iff.mp hkept.1, of_decide_eq_true hkept.2⟩
  · split at hne
    next => exact absurd rfl hne
    next d hd => exact ⟨d, List.mem_of_mem_head? hd⟩

/-- **What the release of a lock does to donations.** -/
structure Releases (st : ThreadSystem) (l : Nat) (st' : ThreadSystem) : Prop where
  nextThread : st'.nextThread = st.nextThread
  holder : st'.holder = st.holder
  others : ∀ t, t ≠ st.current → st'.thread t = { st.thread t with status := st'.status t }
  /-- Whoever is blocked for another lock stays so. -/
  blocked : ∀ d l', l' ≠ l → st.BlockedFor d l' → st'.BlockedFor d l'
  /-- The threads that are still enrolled with the current thread wait for another lock. -/
  donators : ∀ d ∈ (st'.thread st.current).potentialDonator,
    d ∈ (st.thread st.current).potentialDonator ∧ (st.thread d).waitingLock ≠ some l
  /-- Without any, it runs at its own priority. -/
  priority : st'.priority st.current ≠ (st'.thread st.current).originPriority →
    ∃ d, d ∈ (st'.thread st.current).potentialDonator

theorem releases_wakeFirst (hinv : SyncInv st) (rest : List Frame)
    (hrun : st.status st.current ≠ .blocked) :
    Releases st l (((st.setTodo rest).giveUp l).wakeFirst (.ofLock l)) := by
  have hg := givesUp_giveUp st l rest
  have hwait : WaitInv ((st.setTodo rest).giveUp l) := hinv.toWaitInv.givesUp hrun hg
  have hwake := thread_wakeFirst ((st.setTodo rest).giveUp l) (.ofLock l)
  have hothers : ∀ t, t ≠ st.current → ((st.setTodo rest).giveUp l).thread t = st.thread t :=
    fun t ht => by
      have hne : t ≠ (st.setTodo rest).current := ht
      show ((st.setTodo rest).restorePriority l).thread t = _
      rw [restorePriority, thread_modify, if_neg hne, thread_setTodo, if_neg ht]
  obtain ⟨horigin, hdonators, hpriority⟩ := restorePriority_self (st.setTodo rest) l
  have hfield : ∀ t, ((st.setTodo rest).thread t).waitingLock = (st.thread t).waitingLock ∧
      ((st.setTodo rest).thread t).potentialDonator = (st.thread t).potentialDonator := fun t => by
    rw [thread_setTodo]
    split <;> exact ⟨rfl, rfl⟩
  have hs := wakes_wakeFirst ((st.setTodo rest).giveUp l) (.ofLock l)
  refine ⟨hs.nextThread, hs.holder, fun t ht => ?_, fun d l' hne hb => ?_, fun d hd => ?_,
    fun hne => ?_⟩
  · rw [hwake, hothers t ht]
  · have hdc : d ≠ st.current := by
      rintro rfl
      exact hrun hb.2
    refine BlockedFor.wakeFirst ?_ hwait fun heq => hne (SemaId.ofLock.inj heq).symm
    rw [BlockedFor, head, status, hothers d hdc]
    exact hb
  · rw [hwake] at hd
    obtain ⟨hmem, hne⟩ := hdonators d hd
    exact ⟨(hfield st.current).2 ▸ hmem, (hfield d).1 ▸ hne⟩
  · rw [priority, hwake] at hne
    rw [hwake]
    exact hpriority fun heq => hne (heq.trans horigin.symm)

/-- **Releasing a lock.**  Only the threads that wait for it stop waiting, and they are enrolled
with the current thread only. -/
theorem DonInv.release (h : DonInv fits st) (hinv : SyncInv st)
    (hhead : st.head st.current = some (.releaseRest l)) (hrun : st.status st.current ≠ .blocked)
    (hr : Releases st l st') : DonInv fits st' := by
  obtain ⟨hin, hnone⟩ := hinv.releasing l _ hinv.current hhead
  have hwaiting : ∀ d l', st.BlockedFor d l' →
      d ≠ st.current ∧ (st'.thread d).waitingLock = (st.thread d).waitingLock := fun d l' hb => by
    have hdc : d ≠ st.current := by
      rintro rfl
      exact hrun hb.2
    rw [hr.others d hdc]
    exact ⟨hdc, rfl⟩
  have hself : ∀ d ∈ (st'.thread st.current).potentialDonator,
      d < st.nextThread ∧ ∃ l', (st'.thread d).waitingLock = some l' ∧ st'.BlockedFor d l' ∧
        st'.holder l' = some st.current ∧ d ≠ st.current := fun d hd => by
    obtain ⟨hd, hother⟩ := hr.donators d hd
    obtain ⟨hlt, l', hwait, hblock, hlink⟩ := h.donators _ hinv.current d hd
    have hne : l' ≠ l := fun heq => hother (heq ▸ hwait)
    obtain ⟨hdc, hsame⟩ := hwaiting d l' hblock
    refine ⟨hlt, l', hsame.trans hwait, hr.blocked d l' hne hblock, ?_, hdc⟩
    rw [hr.holder]
    refine hlink.resolve_right fun hh => hne ?_
    rw [hhead] at hh
    cases hh
    rfl
  refine ⟨fun t ht d hd => ?_, fun hf t ht hrel hne => ?_⟩
  · by_cases heq : t = st.current
    · subst heq
      obtain ⟨hlt, l', hwait, hblock, hheld, -⟩ := hself d hd
      exact ⟨hr.nextThread ▸ hlt, l', hwait, hblock, .inl hheld⟩
    · rw [hr.nextThread] at ht
      rw [hr.others t heq] at hd
      obtain ⟨hlt, l', hwait, hblock, hlink⟩ := h.donators t ht d hd
      have hne : l' ≠ l := by
        rintro rfl
        rcases hlink with hheld | hreleases
        · exact nomatch hnone.symm.trans hheld
        · obtain ⟨hin', -⟩ := hinv.releasing l' t ht hreleases
          exact heq (List.singleton_inj.mp (hin'.symm.trans hin))
      refine ⟨hr.nextThread ▸ hlt, l', (hwaiting d l' hblock).2.trans hwait,
        hr.blocked d l' hne hblock, ?_⟩
      rw [hr.holder, head, hr.others t heq]
      exact hlink
  · by_cases heq : t = st.current
    · subst heq
      obtain ⟨d, hd⟩ := hr.priority hne
      obtain ⟨hlt, l', -, hblock, hheld, hdc⟩ := hself d hd
      exact ⟨l', d, hr.nextThread ▸ hlt, hdc, hheld, hblock⟩
    · rw [hr.nextThread] at ht
      rw [Releasing, head, hr.others t heq] at hrel
      rw [priority, hr.others t heq] at hne
      obtain ⟨l', d, hlt, hdt, hheld, hblock⟩ := h.justified hf t ht hrel hne
      have hl : l' ≠ l := by
        rintro rfl
        exact nomatch hnone.symm.trans hheld
      refine ⟨l', d, hr.nextThread ▸ hlt, hdt, ?_, hr.blocked d l' hl hblock⟩
      rw [hr.holder]
      exact hheld

/-- **Every change of a step whose donations are justified keeps the invariant.** -/
theorem DonInv.change (h : DonInv fits st) (hinv : SyncInv st) (hc : SyncChange fits st st') :
    DonInv fits st' := by
  cases hc with
  | sched hs => exact h.sched hs
  | frames todo hidle hold hnew =>
    exact h.setTodo (fun _ => hold.not_blockedFor) (fun _ => hold.head_ne) todo
  | create priority => exact h.create priority
  | setPriority priority => exact h.setPriority priority
  | forget hrun => exact h.forget hrun
  | init hold =>
    exact h.of_links rfl (fun _ _ _ hb => ⟨hb, rfl⟩) (fun _ _ => .inl) (fun _ _ => id)
      (fun _ _ => .inl) fun _ _ => .inl
  | take s lock hleaves hrun hlock hpos => exact h.take hinv hleaves hrun hlock hpos
  | sleep s lock hleaves hrun hidle hfits hzero hjust =>
    exact h.sleep hinv hleaves hrun hzero hjust
  | enrol l holder hold hrun hidle hholder hne hjust =>
    exact h.enrol hinv hold hrun hholder hjust
  | up s hplain => exact h.up hinv hplain
  | clear l hold hidle hholder => exact h.clear hold hholder
  | release l htodo hrun =>
    refine h.release hinv ?_ hrun (releases_wakeFirst hinv _ hrun)
    rw [head, show (st.thread st.current).todo = _ from htodo, List.head?_cons]

theorem DonInv.changes (h : DonInv fits st) (hinv : SyncInv st) (hc : SyncChanges fits st st') :
    DonInv fits st' := by
  induction hc with
  | refl => exact h
  | tail hsteps hstep ih => exact ih.change (hinv.changes hsteps) hstep

theorem DonInv.of_boot (h : st.Boot) : DonInv fits st := by
  refine ⟨fun t ht d hd => ?_, fun _ t ht _ hne => ?_⟩
  · rw [h.alone t ht, h.thread] at hd
    cases hd
  · rw [priority, h.alone t ht, h.thread] at hne
    exact absurd rfl hne

/-- Who is enrolled with whom is so along every run; that priorities are justified, along those
whose donations are. -/
theorem DonInv.of_reach {guard : ThreadSystem → Tick → Prop}
    (hguard : fits → ∀ st tick, guard st tick → st.DonationsJustified tick)
    (hreach : threadMachine.Reach Boot guard st) : DonInv fits st := by
  refine (hreach.invariant (P := fun st => Sound st ∧ DonInv fits st)
    (fun _ hb => ⟨.of_boot hb, .of_boot hb⟩) fun st tick _ _ h hmeets hst => ?_).2
  obtain ⟨hsound, hdon⟩ := h
  exact ⟨hsound.step hst, hdon.changes hsound.toSyncInv
    (hsound.changes_of_step hsound.ready (fun hf => hguard hf st tick hmeets) hst)⟩

/-! ## Plain semaphores and conditions -/

/-- The current thread is in `sema_down`, and not in `lock_acquire`. -/
def WaitsPlain (st : ThreadSystem) : Tick → Prop
  | .call (.semaDown _) => True
  | .next => ∃ s, st.head st.current = some (.callDown s) ∨ st.head st.current = some (.down s none)
  | _ => False

theorem donatePriority_of_justified (hjust : st.DownJustified s none) (hzero : st.value s = 0) :
    st.donatePriority = st := by
  have hblock := thread_blockOn st s none
  have hpriority : ∀ t, (st.blockOn s none).priority t = st.priority t := fun t => by
    rw [priority, hblock]
  have hjust := hjust hzero
  rw [donatePriority, donateLoop]
  split
  next => rfl
  next h hbind =>
    split
    next hlt =>
      obtain ⟨l, hw, hh⟩ := Option.bind_eq_some_iff.mp hbind
      have hw' : ((st.blockOn s none).thread st.current).waitingLock = some l := by rw [hblock, hw]
      have hh' : (st.blockOn s none).holder l = some h := hh
      rw [donationJustified, hw'] at hjust
      simp only [hh', hpriority, if_pos hlt, decide_eq_true_eq] at hjust
      have hhead := hjust.1.1
      rw [head, hblock, if_pos rfl, if_pos rfl] at hhead
      cases hhead
    next => rfl

theorem priority_semaDown (hjust : st.DownJustified s none) (t : Nat) :
    (st.semaDown s none).priority t = st.priority t := by
  unfold semaDown
  split
  next hzero =>
    show (st.fallAsleep s none).priority t = _
    rw [priority, thread_fallAsleep, donatePriority_of_justified hjust hzero]
  next => rfl

theorem priority_pop (st : ThreadSystem) (t : Nat) : st.pop.priority t = st.priority t := by
  rw [priority, pop, thread_modify]
  split
  next heq => rw [heq]
  next => rfl

theorem priority_of_waitsPlain {tick : Tick} {picked : Option Nat}
    (hjust : st.DonationsJustified tick) (hwaits : st.WaitsPlain tick)
    (hst : threadMachine.step st tick = some (picked, st')) (t : Nat) :
    st'.priority t = st.priority t := by
  cases stepped hst with
  | @call c _ _ _ _ hst =>
    cases c with
    | semaDown s =>
      cases hst
      exact priority_semaDown hjust t
    | _ => exact hwaits.elim
  | @next frame _ _ hframe hst =>
    have hjust := hjust frame hframe
    obtain ⟨s, hhead | hhead⟩ := hwaits
    · obtain rfl := Option.mem_unique hframe hhead
      cases hst
      exact (priority_semaDown hjust t).trans (priority_pop st t)
    · obtain rfl := Option.mem_unique hframe hhead
      cases hst
      exact (priority_semaDown hjust t).trans (priority_pop st t)
  | schedule | preempt | wake | interruptUp => exact hwaits.elim

end ThreadSystem

/-! ## The property -/

/-- **Donation is justified** along every run in which every thread that hands a priority on is
blocked for the lock whose holder it raises.  In every state a thread that is not releasing a lock
and runs above the priority it was given holds a lock that another thread is blocked for in
`lock_acquire`, and a thread that waits for a semaphore or a condition raises nobody. -/
theorem donation_justified {st : ThreadSystem}
    (hreach : threadMachine.Reach ThreadSystem.Boot ThreadSystem.DonationsJustified st) :
    (∀ t < st.nextThread, ¬ st.Releasing t → (st.thread t).originPriority < st.priority t →
      st.Justified t) ∧
    ∀ tick picked st', st.DonationsJustified tick →
      threadMachine.step st tick = some (picked, st') → st.WaitsPlain tick →
      ∀ t, st'.priority t = st.priority t := by
  have h : ThreadSystem.DonInv True st := .of_reach (fun _ _ _ => id) hreach
  exact ⟨fun t ht hrel hlt => h.justified trivial t ht hrel hlt.ne',
    fun _ _ _ hjust hst hwaits => ThreadSystem.priority_of_waitsPlain hjust hwaits hst⟩

/-- The initial thread waits for the lock, and its holder runs at its priority. -/
theorem donation_justified_waiting : ∃ st,
    threadMachine.Reach ThreadSystem.Boot ThreadSystem.DonationsJustified st ∧
      st.priority 1 = 31 ∧ (st.thread 1).originPriority = 10 ∧ st.Justified 1 := by
  obtain ⟨st, hreach, hnext, hhead, hpriority, horigin⟩ :=
    threadMachine.exists_reach_along ThreadSystem.boot_booted
      (ThreadSystem.lockTaken 0xc0200000 ++ [.call (.lockAcquire 0xc0200000)])
      (fun st => st.nextThread = 2 ∧ st.head 1 = none ∧ st.priority 1 = 31 ∧
        (st.thread 1).originPriority = 10)
      (by decide +kernel : Machine.Along _ ThreadSystem.DonationsJustified ..) (by decide +kernel)
  refine ⟨st, hreach, hpriority, horigin, (donation_justified hreach).1 1 ?_ ?_ ?_⟩
  · rw [hnext]
    decide
  · rintro ⟨l, hrel⟩
    exact nomatch hhead.symm.trans hrel
  · rw [hpriority, horigin]
    decide

/-- The initial thread has waited for the lock `l`, and both threads have released it.  The other
one takes it again and lowers its priority to 1. -/
def ThreadSystem.lockPassed (l : Nat) : List Tick :=
  ThreadSystem.lockTaken l ++
    [.call (.lockAcquire l), .schedule, .call (.lockRelease l), .next, .schedule, .next,
      .call (.lockRelease l), .next, .call (.setPriority 5), .schedule, .call (.lockAcquire l),
      .call (.setPriority 1), .schedule]

/-- **An unjustified donation.**  The initial thread has released the lock, but still has it for its
`waiting_lock`.  It waits for a semaphore, and the thread that now holds the lock is given its
priority, 5 instead of 1, though nobody is blocked for any lock. -/
theorem donation_unjustified : ∃ st st',
    threadMachine.Reach ThreadSystem.Boot (fun _ _ => True) st ∧
      threadMachine.step st (.call (.semaDown 0)) = some (none, st') ∧
      st.priority 1 = 1 ∧ st'.priority 1 = 5 ∧ (st'.thread 1).originPriority = 1 ∧
      ¬ st'.Releasing 1 ∧ ¬ st'.Justified 1 := by
  obtain ⟨st, hreach, hbefore, hstep⟩ := threadMachine.exists_reach ThreadSystem.boot_booted
    (ThreadSystem.lockPassed 0xc0200000 ++ [.call (.semaDown 0)])
    (fun st => st.priority 1 = 1 ∧ (threadMachine.step st (.call (.semaDown 0))).any fun r =>
      decide (r.1 = none ∧ r.2.nextThread = 2 ∧ r.2.priority 1 = 5 ∧
        (r.2.thread 1).originPriority = 1 ∧ r.2.head 0 = some (.down (.plain 0) none) ∧
        r.2.head 1 = none)) (by decide +kernel)
  obtain ⟨⟨picked, st'⟩, hstep, heq⟩ := (Option.any_eq_true ..).mp hstep
  obtain ⟨rfl, (hnext : st'.nextThread = 2), hafter, horigin, hhead0, hhead1⟩ :=
    of_decide_eq_true heq
  refine ⟨st, st', hreach, hstep, hbefore, hafter, horigin, ?_, ?_⟩
  · rintro ⟨l, hrel⟩
    exact nomatch hhead1.symm.trans hrel
  · rintro ⟨l, d, hlt, hne, -, hblock, -⟩
    have hd : d = 0 := by omega
    subst hd
    rw [hhead0] at hblock
    cases hblock

end Pintos
