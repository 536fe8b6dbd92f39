import Pintos.Threads.ReadyList

/-!
# The directory of a new thread

`thread_create` unblocks the new thread, may yield to it, and gives it a directory only after that.
The threads take their steps in any order here: the priorities and the timer decide which order it
is.  Those of the thread system are among them (`threads_take_dir_steps`).

* `DirSystem` is the state, with what the threads started with on record, and `workingDirMachine`
  takes the steps.
* `DirsInherited` says that a thread starts in the directory that its creator had, and that no
  thread is stored to after it has exited.
* `dirs_inherited`: the property, if no thread starts while its creator is in `thread_create`.
  `dirs_not_inherited` is a run in which a thread has come and gone by then.
-/

namespace Pintos

open Function (update update_apply update_self)

/-- A thread. -/
structure DirThread where
  /-- The inode of `t->dir`, if that is not null. -/
  dir : Option Nat
  exited : Bool
  /-- The new thread, if the thread is in `thread_create` and has unblocked it. -/
  creating : Option Nat
  /-- The directory of its creator at the call of `thread_create`. -/
  origin : Option Nat
  /-- What `dir` was at the first step of the thread, if it has taken one. -/
  start : Option (Option Nat)
  /-- The thread has changed its directory itself. -/
  moved : Bool
deriving DecidableEq

/-- The threads. -/
structure DirSystem where
  thread : Nat → DirThread
  nextThread : Nat
  /-- A thread was stored to after it had exited. -/
  stray : Bool

/-- A step of a thread. -/
inductive DirStep
  /-- The first step. -/
  | start
  /-- `thread_create`, up to the return of `thread_unblock`. -/
  | create
  /-- The end of `thread_create`; `room` says whether `dir_open` gets memory. -/
  | setDir (room : Bool)
  /-- The end of `SYS_CHDIR`, with a directory. -/
  | chdir (inode : Nat)
  /-- `thread_exit`. -/
  | exit
deriving DecidableEq

namespace DirSystem

/-- Change a thread. -/
def put (st : DirSystem) (t : Nat) (th : DirThread) : DirSystem :=
  { st with thread := update st.thread t th }

/-- `thread_create`, up to the return of `thread_unblock`. -/
def threadCreate (st : DirSystem) (t : Nat) : DirSystem :=
  let c := st.nextThread
  { (st.put t { st.thread t with creating := some c }).put c
      ⟨none, false, none, (st.thread t).dir, none, false⟩ with nextThread := c + 1 }

/-- The end of `thread_create`, where `t` has created `c`. -/
def setDir (st : DirSystem) (t c : Nat) (room : Bool) : DirSystem :=
  let st := st.put t { st.thread t with creating := none }
  match (st.thread t).dir with
  | none => st
  | some inode =>
    { st.put c { st.thread c with dir := if room then some inode else none } with
      stray := st.stray || (st.thread c).exited }

/-- What the thread `t` does. -/
def act (st : DirSystem) (t : Nat) : DirStep → Option DirSystem
  | .start => some (st.put t { st.thread t with start := some (st.thread t).dir })
  | .create => some (st.threadCreate t)
  | .setDir room => (st.thread t).creating.map fun c => st.setDir t c room
  | .chdir inode => some (st.put t { st.thread t with dir := some inode, moved := true })
  | .exit => some (st.put t { st.thread t with exited := true })

/-- A step of the thread `t`.  In `thread_create` there is only the end of that. -/
def step (st : DirSystem) (t : Nat) (s : DirStep) : Option DirSystem :=
  if t < st.nextThread ∧ (st.thread t).exited = false ∧ ((st.thread t).start = none ↔ s = .start) ∧
      ((st.thread t).creating = none ∨ s = .setDir true ∨ s = .setDir false) then st.act t s
  else none

/-- The initial thread runs, with the root directory or none. -/
def Boot (st : DirSystem) : Prop :=
  st.nextThread = 1 ∧ st.stray = false ∧ ∃ dir, st.thread = fun t =>
    ⟨if t = 0 then dir else none, false, none, none, if t = 0 then some dir else none, false⟩

end DirSystem

/-- The threads, one step at a time. -/
def workingDirMachine : Machine DirSystem (Nat × DirStep) Unit where
  step st i := (st.step i.1 i.2).map fun st => ((), st)

namespace DirSystem

/-- **Directories are inherited.** -/
structure DirsInherited (st : DirSystem) : Prop where
  /-- A thread starts in the directory of its creator. -/
  start : ∀ t dir, (st.thread t).start = some dir → (st.thread t).origin ≠ none →
    dir = (st.thread t).origin
  /-- It stays there until it changes its directory. -/
  stays : ∀ t, (st.thread t).start ≠ none → (st.thread t).moved = false →
    (st.thread t).origin ≠ none → (st.thread t).dir = (st.thread t).origin
  /-- No thread is stored to after it has exited. -/
  stray : st.stray = false

/-- **No thread starts while its creator is in `thread_create`**, and there is memory for the
directory. -/
def Waits (st : DirSystem) (i : Nat × DirStep) : Prop :=
  (i.2 = .start → ∀ p < st.nextThread, (st.thread p).creating ≠ some i.1) ∧ i.2 ≠ .setDir false

instance (st : DirSystem) (i : Nat × DirStep) : Decidable (st.Waits i) :=
  inferInstanceAs (Decidable (_ ∧ _))

/-- The invariant. -/
structure DirInv (st : DirSystem) : Prop where
  pending : ∀ p c, (st.thread p).creating = some c → c < st.nextThread ∧
    (st.thread c).start = none ∧ (st.thread c).exited = false ∧
    (st.thread c).origin = (st.thread p).dir
  unborn : ∀ t, st.nextThread ≤ t → (st.thread t).start = none
  fresh : ∀ t, (st.thread t).start = none → (st.thread t).moved = false ∧
    (st.thread t).creating = none
  kept : ∀ t, (∀ p, (st.thread p).creating ≠ some t) → (st.thread t).moved = false →
    (st.thread t).origin ≠ none → (st.thread t).dir = (st.thread t).origin
  start : ∀ t dir, (st.thread t).start = some dir → (st.thread t).origin ≠ none →
    dir = (st.thread t).origin
  stray : st.stray = false

variable {st st' : DirSystem} {t c : Nat}

theorem thread_put (st : DirSystem) (t u : Nat) (th : DirThread) :
    (st.put t th).thread u = if u = t then th else st.thread u := update_apply ..

theorem nextThread_put (st : DirSystem) (t : Nat) (th : DirThread) :
    (st.put t th).nextThread = st.nextThread := rfl

theorem DirInv.of_boot (h : Boot st) : DirInv st := by
  obtain ⟨hnext, hstray, dir, hthread⟩ := h
  refine ⟨fun p c hp => ?_, fun t ht => ?_, fun t _ => ?_, fun t _ _ horigin => ?_,
    fun t dir _ horigin => ?_, hstray⟩ <;> rw [hthread] at *
  · cases hp
  · exact if_neg (by omega)
  · exact ⟨rfl, rfl⟩
  · exact absurd rfl horigin
  · exact absurd rfl horigin

section

variable (h : DirInv st)
include h

/-- **The first step** is in the directory of the creator, which is not in `thread_create`. -/
theorem DirInv.starts (ht : t < st.nextThread)
    (hfirst : (st.thread t).start = none) (hwaits : ∀ p, (st.thread p).creating ≠ some t) :
    DirInv (st.put t { st.thread t with start := some (st.thread t).dir }) := by
  obtain ⟨hmoved, hidle⟩ := h.fresh t hfirst
  have hold : ∀ u, u ≠ t →
      (st.put t { st.thread t with start := some (st.thread t).dir }).thread u = st.thread u :=
    fun u hu => by rw [thread_put, if_neg hu]
  have hnew : (st.put t { st.thread t with start := some (st.thread t).dir }).thread t =
      { st.thread t with start := some (st.thread t).dir } := by rw [thread_put, if_pos rfl]
  have hcreating : ∀ u, ((st.put t { st.thread t with start := some (st.thread t).dir }).thread
      u).creating = (st.thread u).creating := fun u => by
    by_cases hu : u = t
    · rw [hu, hnew]
    · rw [hold u hu]
  refine ⟨fun p c hp => ?_, fun u hu => ?_, fun u hu => ?_, fun u hu => ?_, fun u dir hu => ?_,
    h.stray⟩
  · -- neither the creator nor the new thread is the one that starts
    rw [hcreating] at hp
    have hpt : p ≠ t := fun heq => by rw [heq, hidle] at hp; cases hp
    have hct : c ≠ t := fun heq => hwaits p (heq ▸ hp)
    rw [hold c hct, hold p hpt]
    exact h.pending p c hp
  · rw [hold u (Nat.ne_of_gt (Nat.lt_of_lt_of_le ht hu))]
    exact h.unborn u hu
  · have hut : u ≠ t := fun heq => by rw [heq, hnew] at hu; cases hu
    rw [hold u hut] at hu ⊢
    exact h.fresh u hu
  · simp only [hcreating] at hu
    by_cases hut : u = t
    · rw [hut, hnew]
      exact h.kept t (hut ▸ hu)
    · rw [hold u hut]
      exact h.kept u hu
  · by_cases hut : u = t
    · rw [hut, hnew] at hu ⊢
      cases hu
      exact h.kept t hwaits hmoved
    · rw [hold u hut] at hu ⊢
      exact h.start u dir hu

theorem DirInv.threadCreate (ht : t < st.nextThread)
    (hstarted : (st.thread t).start ≠ none) (hidle : (st.thread t).creating = none) :
    DirInv (st.threadCreate t) := by
  have hthread : ∀ u, (st.threadCreate t).thread u = if u = st.nextThread
      then ⟨none, false, none, (st.thread t).dir, none, false⟩
      else if u = t then { st.thread t with creating := some st.nextThread } else st.thread u :=
    fun u => (thread_put ..).trans (by rw [thread_put])
  have hnone : (st.thread st.nextThread).creating = none := (h.fresh _ (h.unborn _ le_rfl)).2
  refine ⟨fun p c hp => ?_, fun u hu => ?_, fun u hu => ?_, fun u hu => ?_, fun u dir hu => ?_,
    h.stray⟩
  · have hpending := h.pending p c
    show c < st.nextThread + 1 ∧ _
    grind
  · have hu : st.nextThread + 1 ≤ u := hu
    rw [hthread, if_neg (by omega), if_neg (by omega)]
    exact h.unborn u (by omega)
  · have hfresh := h.fresh u
    grind
  · -- its creator is in `thread_create`
    have hnew : u ≠ st.nextThread := fun heq => hu t (by
      rw [hthread, if_neg (Nat.ne_of_lt ht), if_pos rfl, heq])
    have hkept := h.kept u fun p hp => hu p (by
      have hpnew : p ≠ st.nextThread := fun heq => by rw [heq, hnone] at hp; cases hp
      have hpt : p ≠ t := fun heq => by rw [heq, hidle] at hp; cases hp
      rw [hthread, if_neg hpnew, if_neg hpt, hp])
    grind
  · have hstart := h.start u dir
    grind

/-- **The new thread** has not started by the end of `thread_create`. -/
theorem DirInv.setDir (hstarted : (st.thread t).start ≠ none)
    (hcreating : (st.thread t).creating = some c) : DirInv (st.setDir t c true) := by
  obtain ⟨hlt, hfirst, halive, horigin⟩ := h.pending t c hcreating
  have hne : c ≠ t := fun heq => hstarted (heq ▸ hfirst)
  have hself : (st.put t { st.thread t with creating := none }).thread t =
      { st.thread t with creating := none } := update_self ..
  have hidle : (st.thread c).creating = none := (h.fresh c hfirst).2
  simp only [DirSystem.setDir, hself]
  split
  next hinode =>
    refine ⟨fun p c hp => ?_, fun u hu => ?_, fun u hu => ?_, fun u hu => ?_, fun u dir hu => ?_,
      h.stray⟩ <;> simp only [thread_put, nextThread_put] at *
    · have hpending := h.pending p c
      grind
    · have hunborn := h.unborn u hu
      grind
    · have hfresh := h.fresh u
      grind
    · -- the new thread has no directory to inherit
      have hkept := h.kept u
      grind
    · have hstart := h.start u dir
      grind
  next inode hinode =>
    have hpending := h.pending
    refine ⟨fun p c hp => ?_, fun u hu => ?_, fun u hu => ?_, fun u hu => ?_, fun u dir hu => ?_,
      ?_⟩ <;> simp only [thread_put, nextThread_put] at *
    · grind
    · have hunborn := h.unborn u hu
      grind
    · have hfresh := h.fresh u
      grind
    · have hkept := h.kept u
      grind
    · have hstart := h.start u dir
      grind
    · rw [if_neg hne, halive, Bool.or_false]
      exact h.stray

/-- A thread that has started changes its directory, or exits. -/
theorem DirInv.own (ht : t < st.nextThread)
    (hstarted : (st.thread t).start ≠ none) (hidle : (st.thread t).creating = none)
    {dir : Option Nat}
    {exited moved : Bool} (hdir : moved = false → dir = (st.thread t).dir ∧
      (st.thread t).moved = false) :
    DirInv (st.put t { st.thread t with dir := dir, exited := exited, moved := moved }) := by
  refine ⟨fun p c hp => ?_, fun u hu => ?_, fun u hu => ?_, fun u hu => ?_, fun u dir hu => ?_,
    h.stray⟩ <;> simp only [thread_put, nextThread_put] at *
  · -- it creates no thread, and is none that waits for its first step
    have hpending := h.pending p c
    grind
  · have hunborn := h.unborn u hu
    grind
  · have hfresh := h.fresh u
    grind
  · have hkept := h.kept u
    grind
  · have hstart := h.start u dir
    grind

theorem DirInv.step {s : DirStep} (hwaits : st.Waits (t, s))
    (hst : st.step t s = some st') : DirInv st' := by
  rw [DirSystem.step, Option.ite_none_right_eq_some] at hst
  obtain ⟨⟨ht, -, hfirst, hidle⟩, hst⟩ := hst
  cases s with
  | start =>
    cases hst
    refine h.starts ht (hfirst.mpr rfl) fun p hp =>
      hwaits.1 rfl p (Nat.lt_of_not_le fun hle => ?_) hp
    exact nomatch (h.fresh p (h.unborn p hle)).2.symm.trans hp
  | create =>
    cases hst
    exact h.threadCreate ht (by simpa using hfirst) (by simpa using hidle)
  | setDir room =>
    obtain ⟨c, hcreating, rfl⟩ := Option.map_eq_some_iff.mp hst
    obtain rfl : room = true := by simpa using hwaits.2
    exact h.setDir (by simpa using hfirst) hcreating
  | chdir inode =>
    cases hst
    exact h.own ht (by simpa using hfirst) (by simpa using hidle) nofun
  | exit =>
    cases hst
    exact h.own ht (by simpa using hfirst) (by simpa using hidle) fun hmoved => ⟨rfl, hmoved⟩

theorem DirInv.inherited : DirsInherited st where
  start := h.start
  stays t hstarted := h.kept t fun p hp => hstarted (h.pending p t hp).2.1
  stray := h.stray

end

end DirSystem

/-- **Directories are inherited**, in every state reached by steps that do not start a thread while
its creator is in `thread_create`. -/
theorem dirs_inherited {st : DirSystem}
    (h : workingDirMachine.Reach DirSystem.Boot DirSystem.Waits st) : st.DirsInherited := by
  refine DirSystem.DirInv.inherited (h.invariant (fun _ => .of_boot)
    fun st i o st' hinv hwaits hst => ?_)
  obtain ⟨st', hst, heq⟩ := Option.map_eq_some_iff.mp hst
  cases heq
  exact hinv.step hwaits hst

/-- The initial thread, with the root directory. -/
def DirSystem.booted : DirSystem :=
  ⟨fun t => ⟨if t = 0 then some 1 else none, false, none, none,
    if t = 0 then some (some 1) else none, false⟩, 1, false⟩

theorem DirSystem.boot_booted : Boot booted := ⟨rfl, rfl, some 1, rfl⟩

theorem dirs_inherited_created : ∃ st, workingDirMachine.Reach DirSystem.Boot DirSystem.Waits st ∧
    (st.thread 1).start = some (some 1) ∧ st.DirsInherited := by
  obtain ⟨st, hreach, hstart⟩ := workingDirMachine.exists_reach_along DirSystem.boot_booted
    [(0, .create), (0, .setDir true), (1, .start)] (fun st => (st.thread 1).start = some (some 1))
    (by decide +kernel : Machine.Along _ DirSystem.Waits ..) (by decide +kernel)
  exact ⟨st, hreach, hstart, dirs_inherited hreach⟩

/-- **A thread comes and goes** before `thread_create` goes on in its creator: it has started
without a directory, and is stored to after it has exited. -/
theorem dirs_not_inherited : ∃ st, workingDirMachine.Reach DirSystem.Boot (fun _ _ => True) st ∧
    (st.thread 1).origin = some 1 ∧ (st.thread 1).start = some none ∧ (st.thread 1).exited = true ∧
    st.stray = true ∧ ¬ st.DirsInherited := by
  obtain ⟨st, hreach, horigin, hstart, hexited, hstray⟩ :=
    workingDirMachine.exists_reach DirSystem.boot_booted
      [(0, .create), (1, .start), (1, .exit), (0, .setDir true)]
      (fun st => (st.thread 1).origin = some 1 ∧ (st.thread 1).start = some none ∧
        (st.thread 1).exited = true ∧ st.stray = true) (by decide +kernel)
  exact ⟨st, hreach, horigin, hstart, hexited, hstray, fun h => nomatch h.stray.symm.trans hstray⟩

/-! ## The steps of the thread system -/

/-- `thread_create`, before `thread_unblock`. -/
def Frame.creates : Frame → Bool
  | .create _ => true
  | _ => false

/-- `thread_create`, after `thread_unblock`. -/
def Frame.checks : Frame → Bool
  | .createCheck _ => true
  | _ => false

namespace ThreadSystem

variable {st st' : ThreadSystem} {t l c : Nat} {s : SemaId} {intrContext : Bool}

theorem nextThread_threadYield (st : ThreadSystem) : st.threadYield.nextThread = st.nextThread := by
  rw [threadYield]
  split <;> rfl

theorem nextThread_donateLoop (depth : Nat) (st : ThreadSystem) (curr : Nat) :
    (donateLoop depth st curr).nextThread = st.nextThread := by
  fun_induction donateLoop depth st curr with
  | case1 | case2 | case4 => rfl
  | case3 _ _ _ _ _ _ ih => exact ih

theorem nextThread_semaDown (st : ThreadSystem) (s : SemaId) (lock : Option Nat) :
    (st.semaDown s lock).nextThread = st.nextThread := by
  cases lock <;> (simp only [semaDown]; split)
  all_goals first | exact nextThread_donateLoop .. | rfl

theorem nextThread_threadSetPriority (st : ThreadSystem) (priority : Int) :
    (st.threadSetPriority priority).nextThread = st.nextThread := by
  rw [threadSetPriority]
  split
  · rfl
  · dsimp only
    split
    · rfl
    · split
      · exact nextThread_threadYield _
      · rfl

theorem nextThread_threadUnblock (h : st.threadUnblock t intrContext = some st') :
    st'.nextThread = st.nextThread := by
  grind [threadUnblock, nextThread_threadYield, makeReady, modify]

theorem nextThread_semaUp (h : st.semaUp s intrContext = some st') :
    st'.nextThread = st.nextThread := by
  simp only [semaUp] at h
  split at h
  · cases h
    rfl
  · exact (nextThread_threadUnblock h :)

theorem nextThread_lockAcquire (h : st.lockAcquire l = some st') :
    st'.nextThread = st.nextThread := by
  rw [lockAcquire, Option.ite_none_left_eq_some] at h
  cases h.2
  rw [nextThread_semaDown]
  exact (same_enrol st l).nextThread

theorem nextThread_condSignal (h : st.condSignal c l = some st') :
    st'.nextThread = st.nextThread := by
  rw [condSignal] at h
  split at h
  · split at h
    · cases h
    · split at h <;> (cases h; rfl)
  · cases h

theorem nextThread_condBroadcast (h : st.condBroadcast c l = some st') :
    st'.nextThread = st.nextThread := by
  rw [condBroadcast] at h
  split at h
  · cases h
    rfl
  · exact (nextThread_condSignal h :)

theorem nextThread_call {call : ThreadCall} (h : st.call call = some st') :
    st'.nextThread = st.nextThread := by
  cases call with
  | create priority =>
    cases (Option.ite_none_right_eq_some.mp h).2
    rfl
  | yield => cases h; exact nextThread_threadYield _
  | block => cases h; rfl
  | unblock t => exact nextThread_threadUnblock (Option.ite_none_left_eq_some.mp h).2
  | semaDown s => cases h; exact nextThread_semaDown ..
  | semaUp s => exact nextThread_semaUp h
  | semaTryDown s =>
    cases h
    rw [semaTryDown]
    split <;> rfl
  | lockAcquire l => exact nextThread_lockAcquire h
  | lockTryAcquire l =>
    grind [call, lockTryAcquire, semaTryDown, semaTake, modify, setHolder]
  | lockRelease l => cases (Option.ite_none_right_eq_some.mp h).2; rfl
  | setPriority priority => cases h; exact nextThread_threadSetPriority ..
  | condWait c l => cases (Option.ite_none_right_eq_some.mp h).2; rfl
  | condSignal c l => exact nextThread_condSignal h
  | condBroadcast c l => exact nextThread_condBroadcast h
  | idle => cases (Option.ite_none_right_eq_some.mp h).2; rfl

theorem nextThread_resume {frame : Frame} (h : st.resume frame = some st') :
    st'.nextThread = st.nextThread + frame.creates.toNat := by
  cases frame with
  | create priority => exact (nextThread_threadUnblock h :)
  | acquire l => exact nextThread_lockAcquire h
  | callDown s => cases h; exact nextThread_semaDown ..
  | down s lock => cases h; exact nextThread_semaDown ..
  | up s => exact nextThread_semaUp h
  | broadcast c l => exact nextThread_condBroadcast h
  | release l => cases (Option.ite_none_right_eq_some.mp h).2; rfl
  | releaseRest l => exact (nextThread_semaUp h :)
  | createCheck priority =>
    cases h
    split
    · exact nextThread_threadYield _
    · rfl

/-- The step creates a thread. -/
def creates (st : ThreadSystem) (tick : Tick) : Bool :=
  decide (tick = .next) && st.todo.head?.any Frame.creates

/-- **Threads are created** by `thread_create` alone, one at a time. -/
theorem nextThread_step {tick : Tick} {picked : Option Nat}
    (h : threadMachine.step st tick = some (picked, st')) :
    st'.nextThread = st.nextThread + (st.creates tick).toNat := by
  cases stepped h with
  | schedule _ hst =>
    obtain ⟨_, -, hpair⟩ := Option.map_eq_some_iff.mp hst
    cases hpair
    rfl
  | call _ _ _ hst => exact nextThread_call hst
  | next _ hframe hst =>
    rw [creates, hframe]
    exact (nextThread_resume hst :)
  | preempt => exact nextThread_threadYield _
  | wake _ _ hst => exact nextThread_threadUnblock hst
  | interruptUp _ _ hst => exact nextThread_semaUp hst

/-- The current thread is in `thread_create`, after `thread_unblock`. -/
def inCheck (st : ThreadSystem) : Bool := st.todo.head?.any Frame.checks

theorem inCheck_of_creates {tick : Tick} (h : st.creates tick = true) : st.inCheck = false := by
  obtain ⟨frame, hhead, hcreates⟩ := (Option.any_eq_true ..).mp (Bool.and_eq_true_iff.mp h).2
  rw [inCheck, hhead]
  cases frame <;> first | rfl | cases hcreates

end ThreadSystem

namespace DirSystem

/-- What a thread does before it goes on: its first step, and the end of `thread_create` once that
has made its check. -/
def begins (d : DirSystem) (t : Nat) (inCheck : Bool) : List (Nat × DirStep) :=
  if (d.thread t).start = none then [(t, .start)]
  else if (d.thread t).creating ≠ none ∧ inCheck = false then [(t, .setDir true)]
  else []

/-- No thread has exited, and `n` threads have been created. -/
structure Going (n : Nat) (d : DirSystem) : Prop where
  nextThread : d.nextThread = n
  alive : ∀ t, (d.thread t).exited = false
  fresh : ∀ t, (d.thread t).start = none → (d.thread t).creating = none

variable {n : Nat} {d : DirSystem} {t : Nat}

theorem Going.of_boot (h : d.Boot) : Going 1 d := by
  obtain ⟨hnext, -, dir, hthread⟩ := h
  exact ⟨hnext, fun t => by rw [hthread], fun t _ => by rw [hthread]⟩

/-- A thread may be changed, as long as it is not in `thread_create` before its first step. -/
theorem Going.put (h : Going n d) (th : DirThread) (halive : th.exited = false)
    (hfresh : th.start = none → th.creating = none) : Going n (d.put t th) where
  nextThread := h.nextThread
  alive u := by
    rw [thread_put]
    split
    · exact halive
    · exact h.alive u
  fresh u hu := by
    rw [thread_put] at hu ⊢
    split at hu
    next heq => rw [if_pos heq]; exact hfresh hu
    next hne => rw [if_neg hne]; exact h.fresh u hu

theorem Going.threadCreate (h : Going n d) (hstarted : (d.thread t).start ≠ none) :
    Going (n + 1) (d.threadCreate t) := by
  have hput := (h.put (t := t) { d.thread t with creating := some d.nextThread } (h.alive t)
    fun hfirst => absurd hfirst hstarted).put (t := d.nextThread)
    ⟨none, false, none, (d.thread t).dir, none, false⟩ rfl fun _ => rfl
  exact ⟨congrArg (· + 1) h.nextThread, hput.alive, hput.fresh⟩

/-- `thread_create` ends in a store to the directory of the new thread. -/
theorem thread_setDir (d : DirSystem) (t c : Nat) (room : Bool) (u : Nat) :
    ∃ dir, (d.setDir t c room).thread u =
      { d.thread u with
        dir := dir, creating := if u = t then none else (d.thread u).creating } := by
  have hput : ∀ u, (d.put t { d.thread t with creating := none }).thread u =
      { d.thread u with creating := if u = t then none else (d.thread u).creating } := fun u => by
    rw [thread_put]
    split
    next heq => rw [heq]
    next => rfl
  simp only [setDir]
  split
  next => exact ⟨_, hput u⟩
  next inode _ =>
    by_cases hc : u = c
    · exact ⟨if room then some inode else none, (thread_put ..).trans (by rw [if_pos hc, hput, hc])⟩
    · exact ⟨_, (thread_put ..).trans (by rw [if_neg hc, hput])⟩

theorem Going.setDir (h : Going n d) {c : Nat} {room : Bool} : Going n (d.setDir t c room) where
  nextThread := by
    rw [DirSystem.setDir]
    split <;> exact h.nextThread
  alive u := by
    obtain ⟨dir, hu⟩ := thread_setDir d t c room u
    rw [hu]
    exact h.alive u
  fresh u hfirst := by
    obtain ⟨dir, hu⟩ := thread_setDir d t c room u
    rw [hu] at hfirst ⊢
    exact (ite_eq_left_iff.mpr fun _ => h.fresh u hfirst)

theorem Going.step_eq (h : Going n d) (ht : t < n) {s : DirStep}
    (hstart : (d.thread t).start = none ↔ s = .start)
    (hidle : (d.thread t).creating = none ∨ s = .setDir true ∨ s = .setDir false) :
    workingDirMachine.step d (t, s) = (d.act t s).map fun d => ((), d) := by
  have hstep : d.step t s = d.act t s := if_pos ⟨h.nextThread ▸ ht, h.alive t, hstart, hidle⟩
  rw [← hstep]
  rfl

/-- **A thread goes on**: it has taken its first step then, and is out of `thread_create` unless
the check is still to be made. -/
theorem Going.begins (h : Going n d) (ht : t < n) (inCheck : Bool) : ∃ os d',
    workingDirMachine.run d (d.begins t inCheck) = some (os, d') ∧ Going n d' ∧
      (d'.thread t).start ≠ none ∧ (inCheck = false → (d'.thread t).creating = none) := by
  rw [DirSystem.begins]
  split
  next hfirst =>
    have hidle := h.fresh t hfirst
    have hstep := h.step_eq ht (iff_of_true hfirst rfl) (.inl hidle)
    refine ⟨_, _, Machine.run_singleton hstep, h.put _ (h.alive t) fun _ => hidle, ?_,
      fun _ => ?_⟩
    · rw [thread_put, if_pos rfl]
      exact Option.some_ne_none _
    · rw [thread_put, if_pos rfl]
      exact hidle
  next hstarted =>
    split
    next hcreating =>
      obtain ⟨c, hc⟩ := Option.ne_none_iff_exists'.mp hcreating.1
      have hstep := h.step_eq (s := .setDir true) ht (iff_of_false hstarted (by rintro ⟨⟩))
        (.inr (.inl rfl))
      rw [act, hc, Option.map_some, Option.map_some] at hstep
      obtain ⟨dir, hthread⟩ := thread_setDir d t c true t
      refine ⟨_, _, Machine.run_singleton hstep, h.setDir, ?_, fun _ => ?_⟩ <;> rw [hthread]
      · exact hstarted
      · exact if_pos rfl
    next hidle =>
      refine ⟨_, d, rfl, h, hstarted, fun hcheck => ?_⟩
      by_contra hne
      exact hidle ⟨hne, hcheck⟩

end DirSystem

/-- The steps that a step of the thread system amounts to.  None of them is a `chdir` or an `exit`,
which that system has no calls for. -/
def dirSteps (st : ThreadSystem) (d : DirSystem) (tick : Tick) : List (Nat × DirStep) :=
  match tick with
  | .call _ | .next =>
    d.begins st.current st.inCheck ++ if st.creates tick then [(st.current, .create)] else []
  | _ => []

/-- The thread system, with the directories of its threads. -/
def threadDirMachine : Machine (ThreadSystem × DirSystem) Tick (Option Nat) where
  step s tick := (threadMachine.step s.1 tick).bind fun r =>
    (workingDirMachine.run s.2 (dirSteps s.1 s.2 tick)).map fun q => (r.1, r.2, q.2)

section

variable {st st' : ThreadSystem} {d d' : DirSystem} {tick : Tick} {picked : Option Nat}

/-- **Every step can be taken**, by a thread that there is. -/
theorem exists_run_dirSteps (h : d.Going st.nextThread) (hcurrent : st.current < st.nextThread)
    (tick : Tick) : ∃ os d', workingDirMachine.run d (dirSteps st d tick) = some (os, d') ∧
      d'.Going (st.nextThread + (st.creates tick).toNat) := by
  have hgo : ∃ os d', workingDirMachine.run d (d.begins st.current st.inCheck ++
      if st.creates tick then [(st.current, .create)] else []) = some (os, d') ∧
      d'.Going (st.nextThread + (st.creates tick).toNat) := by
    obtain ⟨os, d1, hrun, hgoing, hstarted, hidle⟩ := h.begins hcurrent st.inCheck
    by_cases hcreates : st.creates tick = true
    · have hstep := hgoing.step_eq hcurrent (s := .create) (iff_of_false hstarted (by rintro ⟨⟩))
        (.inl (hidle (ThreadSystem.inCheck_of_creates hcreates)))
      rw [if_pos hcreates, hcreates]
      exact ⟨_, _, Machine.run_append hrun (Machine.run_singleton hstep),
        hgoing.threadCreate hstarted⟩
    · rw [if_neg hcreates, List.append_nil, Bool.eq_false_iff.mpr hcreates]
      exact ⟨os, d1, hrun, hgoing⟩
  cases tick with
  | call | next => exact hgo
  | schedule | preempt | wake | interruptUp => exact ⟨_, d, rfl, h⟩

/-- The two have the same threads, and the directories are those of a run. -/
structure Follows (st : ThreadSystem) (d : DirSystem) : Prop where
  ready : ThreadSystem.ReadyInv False st
  going : d.Going st.nextThread
  reach : workingDirMachine.Reach DirSystem.Boot (fun _ _ => True) d

theorem ThreadSystem.nextThread_of_boot (h : st.Boot) : st.nextThread = 1 := by
  have hcurrent := h.nextThread
  have hzero := h.alone 0 (by omega)
  by_contra hne
  have hone := h.alone 1 (by omega)
  omega

theorem Follows.of_boot (hst : st.Boot) (hd : d.Boot) : Follows st d where
  ready := .of_boot hst
  going := ThreadSystem.nextThread_of_boot hst ▸ .of_boot hd
  reach := .init hd

/-- **The thread system takes steps of `workingDirMachine`.** -/
theorem threadMachine_simulates :
    threadMachine.Simulates threadDirMachine (fun _ _ => True)
      fun st s => s.1 = st ∧ Follows st s.2 := by
  rintro st ⟨_, d⟩ tick picked st' ⟨rfl, h⟩ - hstep
  obtain ⟨os, d', hrun, hgoing⟩ := exists_run_dirSteps h.going h.ready.current tick
  refine ⟨(st', d'), ?_, rfl, h.ready.step False.elim hstep, ?_, ?_⟩
  · simp only [threadDirMachine, hstep, Option.bind_some, hrun, Option.map_some]
  · rw [ThreadSystem.nextThread_step hstep]
    exact hgoing
  · exact h.reach.of_run (.of_forall (fun _ _ _ => trivial) _) hrun

/-- **The threads of the thread system take the steps of `workingDirMachine`**: there is a run of
that along every run of the thread system, in which the threads that are created start with their
first step and get their directory after the check of `thread_create`. -/
theorem threads_take_dir_steps {ticks : List Tick} {os : List (Option Nat)} (hst : st.Boot)
    (hd : d.Boot) (hrun : threadMachine.run st ticks = some (os, st')) :
    ∃ d', threadDirMachine.run (st, d) ticks = some (os, st', d') ∧ d'.nextThread = st'.nextThread ∧
      workingDirMachine.Reach DirSystem.Boot (fun _ _ => True) d' := by
  obtain ⟨⟨_, d'⟩, hrun', rfl, h⟩ := threadMachine_simulates.run (t := (st, d))
    ⟨rfl, .of_boot hst hd⟩ (.of_forall (fun _ _ _ => trivial) _) hrun
  exact ⟨d', hrun', h.going.nextThread, h.reach⟩

-- a thread of priority 40 gets the processor and makes a call before it has a directory
example : ((threadDirMachine.run (.booted, .booted) [.call (.create 40), .next, .next, .next, .next,
    .schedule, .call .yield]).any fun r => (r.2.2.thread 1).start == some none) = true := by
  decide +kernel

end
end Pintos
