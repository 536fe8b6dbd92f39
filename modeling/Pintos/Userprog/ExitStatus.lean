import Pintos.Userprog.HandOff
import Mathlib.Logic.Relation

/-!
# The exit status

What becomes of the status that a child calls `exit` with, when no other thread gets in between.
The child runs through `exit_process` and on into `process_exit`, and only then does the parent go
on, which sleeps in `process_wait` or calls it later.

`exit_code` is the status of a thread that exits, and -2 as long as the thread has not set it.
`process_exit` takes a thread with -2 for one that did not come through `exit_process`, and calls
that with -1.  A child that exits with -2 is taken for such a thread, and comes to `thread_exit` a
second time, which closes its working directory again.

* `Runs t` says that the machine takes one kind of turn only, which is how a thread runs alone.
* `runs_exitProcess` is `exit_process` as a whole: the loop finds the child's entry wherever it
  stands in the list, and the state it leaves is `afterExit`.
* `Delivered` is what the exit of a child should leave: its message shows the status, the semaphore
  was upped once if the parent sleeps on it and not at all otherwise, and `process_wait` returns the
  status.
* `exit_delivers_iff`: that is so for every status but -2.
* `exit_default_status`: the status -2 becomes -1 and ups the semaphore twice, and then the kernel
  panics.
-/

namespace Pintos

/-! ## The list of children, taken apart at an entry -/

section Split

variable {pre suf : List Child} {e : Child} {f : Child → Child}

theorem listBegin_cons (h : e.linked = true) : listBegin (e :: suf) = some e.pid := by
  rw [listBegin, List.find?_cons_of_pos h, Option.map_some]

theorem listBegin_cons_unlinked (h : e.linked = false) : listBegin (e :: suf) = listBegin suf := by
  rw [listBegin, List.find?_cons_of_neg (by simp [h]), listBegin]

theorem pid_ne_of_split (h : ((pre ++ e :: suf).map Child.pid).Nodup) :
    (∀ d ∈ pre, d.pid ≠ e.pid) ∧ ∀ d ∈ suf, d.pid ≠ e.pid := by
  rw [List.map_append, List.map_cons, List.nodup_append] at h
  obtain ⟨-, hsuf, hdisj⟩ := h
  refine ⟨fun d hd => hdisj _ (List.mem_map_of_mem hd) _ (.head _), fun d hd heq => ?_⟩
  exact (List.nodup_cons.mp hsuf).1 (heq ▸ List.mem_map_of_mem hd)

theorem exists_split {l : List Child} (he : e ∈ l) (h : (l.map Child.pid).Nodup) :
    ∃ pre suf, l = pre ++ e :: suf ∧ ((pre ++ e :: suf).map Child.pid).Nodup := by
  obtain ⟨pre, suf, rfl⟩ := List.append_of_mem he
  exact ⟨pre, suf, rfl, h⟩

section

variable (h : ((pre ++ e :: suf).map Child.pid).Nodup)
include h

theorem childEntry_of_split : childEntry (pre ++ e :: suf) e.pid = some e := by
  have hpre : pre.find? (·.pid = e.pid) = none :=
    List.find?_eq_none.mpr fun d hd => by simpa using (pid_ne_of_split h).1 d hd
  rw [childEntry, List.find?_append, hpre, Option.none_or, List.find?_cons_of_pos (by simp)]

theorem listNext_of_split : listNext (pre ++ e :: suf) e.pid = listBegin suf := by
  induction pre with
  | nil => rw [List.nil_append, listNext, if_pos rfl]
  | cons d pre ih =>
    have hne := (pid_ne_of_split h).1 d (.head _)
    rw [List.cons_append, List.map_cons, List.nodup_cons] at h
    rw [List.cons_append, listNext, if_neg hne, ih h.2]

theorem setChild_of_split : setChild (pre ++ e :: suf) e.pid f = pre ++ f e :: suf := by
  have hsame : ∀ l : List Child, (∀ d ∈ l, d.pid ≠ e.pid) → setChild l e.pid f = l := fun l hl => by
    rw [setChild, List.map_congr_left fun d hd => if_neg (hl d hd), List.map_id']
  obtain ⟨hpre, hsuf⟩ := pid_ne_of_split h
  have hcons : setChild (pre ++ e :: suf) e.pid f =
      setChild pre e.pid f ++ f e :: setChild suf e.pid f := by simp [setChild]
  rw [hcons, hsame pre hpre, hsame suf hsuf]

theorem searchChild_of_split (hlinked : e.linked = true) :
    searchChild (pre ++ e :: suf) e.pid = some e := by
  have hnone : ∀ l : List Child, (∀ d ∈ l, d.pid ≠ e.pid) →
      l.filter (fun d => d.linked && d.pid == e.pid) = [] := fun l hl =>
    List.filter_eq_nil_iff.mpr fun d hd => by simp [hl d hd]
  obtain ⟨hpre, hsuf⟩ := pid_ne_of_split h
  rw [searchChild, List.filter_append, List.filter_cons_of_pos (by simp [hlinked]), hnone pre hpre,
    hnone suf hsuf, List.nil_append, List.getLast?_singleton]

end

end Split

namespace Family

variable {st st' : Family} {c : Nat} {status : Int} {st'' : Family}

/-! ## A thread alone -/

/-- The machine takes the turn `t` some number of times, and no other turn. -/
def Runs (t : Turn) : Family → Family → Prop :=
  Relation.ReflTransGen fun st st' => ∃ event, familyMachine.step st t = some (event, st')

theorem Runs.kid (hstep : st.kidStep c = some st') (h : Runs (.kid c) st' st'') :
    Runs (.kid c) st st'' :=
  .head ⟨none, by simp [familyMachine, hstep]⟩ h

theorem step_parent (hblocked : st.blocked = false) :
    familyMachine.step st .parent = st.parentStep := by
  simp [familyMachine, hblocked]

theorem Runs.parent {event : Option FamilyEvent} (hblocked : st.blocked = false)
    (hstep : st.parentStep = some (event, st')) (h : Runs .parent st' st'') :
    Runs .parent st st'' :=
  .head ⟨event, (step_parent hblocked).trans hstep⟩ h

theorem goto_goto (k k' : KidPc) : (st.goto c k).goto c k' = st.goto c k' := by
  simp [goto]

theorem Runs.pass (st : Family) (status : Int) (pre mid post : List Child)
    (hlist : st.childList = pre ++ (mid ++ post))
    (hnodup : st.pids.Nodup) (hmid : ∀ e ∈ mid, e.pid ≠ c) :
    Runs (.kid c) (st.goto c (.scan status (listBegin (mid ++ post))))
      (st.goto c (.scan status (listBegin post))) := by
  induction mid generalizing pre with
  | nil => exact .refl
  | cons e mid ih =>
    have hsplit : st.childList = pre ++ e :: (mid ++ post) := hlist
    have ih := ih (pre ++ [e]) (by simpa using hlist) fun d hd => hmid d (.tail _ hd)
    rw [List.cons_append]
    by_cases he : e.linked = true
    · rw [listBegin_cons he]
      have hne : e.pid ≠ c := hmid e (.head _)
      rw [pids, hsplit] at hnodup
      have htest : (st.goto c (.scan status (some e.pid))).kidStep c =
          some (st.goto c (.next status e.pid)) := by
        simp [kidStep, hsplit, childEntry_of_split hnodup, hne, goto_goto]
      have hnext : (st.goto c (.next status e.pid)).kidStep c =
          some (st.goto c (.scan status (listBegin (mid ++ post)))) := by
        simp [kidStep, hsplit, childEntry_of_split hnodup, listNext_of_split hnodup, goto_goto]
      exact .kid htest (.kid hnext ih)
    · rw [listBegin_cons_unlinked (by simpa using he)]
      exact ih

/-! ## The whole of `exit_process` -/

/-- The child has stored to its entry. -/
def withStatus (st : Family) (c : Nat) (status : Int) : Family :=
  { st with
    childList := setChild st.childList c fun e => { e with isWait := true, status := status }
    recorded := Function.update st.recorded c (some status) }

theorem pids_withStatus : (st.withStatus c status).pids = st.pids := pids_setChild fun _ => rfl

/-- The state that `exit_process` leaves. -/
def afterExit (st : Family) (c : Nat) (status : Int) : Family :=
  if st.lockChildId = c then ((st.withStatus c status).goto c (.exited status)).semaUp (.exited c)
  else (st.withStatus c status).goto c (.exited status)

variable {e : Child}

theorem Runs.store {pre suf : List Child} (hlist : st.childList = pre ++ e :: suf)
    (hnodup : st.pids.Nodup) (hlinked : e.linked = true) :
    Runs (.kid e.pid) (st.goto e.pid (.scan status (listBegin (e :: suf))))
      ((st.withStatus e.pid status).goto e.pid (.scan status (listBegin suf))) := by
  rw [pids, hlist] at hnodup
  -- the entry keeps its place and its identifier through both stores
  have hnodup' : ∀ e' : Child, e'.pid = e.pid →
      ((pre ++ e' :: suf).map Child.pid).Nodup := fun e' he' => by simpa [he'] using hnodup
  have hset : (st.withStatus e.pid status).childList =
      pre ++ { e with isWait := true, status := status } :: suf := by
    rw [withStatus, hlist, setChild_of_split hnodup]
  have htest : (st.goto e.pid (.scan status (some e.pid))).kidStep e.pid =
      some (st.goto e.pid (.storeWait status)) := by
    simp [kidStep, hlist, childEntry_of_split hnodup, goto_goto]
  have hwait : (st.goto e.pid (.storeWait status)).kidStep e.pid =
      some { st.goto e.pid (.storeStatus status) with
        childList := pre ++ { e with isWait := true } :: suf } := by
    have hset1 := setChild_of_split hnodup (f := fun e => { e with isWait := true })
    simp [kidStep, hlist, childEntry_of_split hnodup, goto_goto, hset1]
  have hstatus : kidStep { st.goto e.pid (.storeStatus status) with
      childList := pre ++ { e with isWait := true } :: suf } e.pid =
      some ((st.withStatus e.pid status).goto e.pid (.next status e.pid)) := by
    have hentry := childEntry_of_split (hnodup' { e with isWait := true } rfl)
    have hset2 := setChild_of_split (hnodup' { e with isWait := true } rfl)
      (f := fun e => { e with status := status })
    simp [kidStep, hentry, hset2, withStatus, hlist, setChild_of_split hnodup]
    simp [goto]
  have hnext : ((st.withStatus e.pid status).goto e.pid (.next status e.pid)).kidStep e.pid =
      some ((st.withStatus e.pid status).goto e.pid (.scan status (listBegin suf))) := by
    have hn := hnodup' { e with isWait := true, status := status } rfl
    simp [kidStep, hset, childEntry_of_split hn, listNext_of_split hn, goto_goto]
  rw [listBegin_cons hlinked]
  exact .kid htest (.kid hwait (.kid hstatus (.kid hnext .refl)))

theorem Runs.leave (c : Nat) (status : Int) :
    Runs (.kid c) ((st.withStatus c status).goto c (.scan status none))
      (st.afterExit c status) := by
  have hloop : ((st.withStatus c status).goto c (.scan status none)).kidStep c =
      some ((st.withStatus c status).goto c (.storeCode status)) := by
    simp [kidStep, goto_goto]
  have hcode : ((st.withStatus c status).goto c (.storeCode status)).kidStep c =
      some ((st.withStatus c status).goto c (.test status)) := by
    simp [kidStep, goto_goto]
  have htest : ((st.withStatus c status).goto c (.test status)).kidStep c =
      some ((st.withStatus c status).goto c
        (if st.lockChildId = c then .up status else .exited status)) := by
    simp only [kidStep, kid_goto, goto_goto]
    rfl
  refine .kid hloop (.kid hcode (.kid htest ?_))
  rw [afterExit]
  split
  · exact .kid (by simp [kidStep, goto_goto]) .refl
  · exact .refl

/-- **`exit_process` alone** stores to the child's entry, wherever it stands in the list, and ups
the semaphore if the parent waits for the child. -/
theorem runs_exitProcess (hmem : e ∈ st.childList) (hnodup : st.pids.Nodup)
    (hlinked : e.linked = true) :
    Runs (.kid e.pid) (st.goto e.pid (.scan status (listBegin st.childList)))
      (st.afterExit e.pid status) := by
  obtain ⟨pre, suf, hlist, hnodup'⟩ := exists_split hmem hnodup
  have hsplit := pid_ne_of_split hnodup'
  have hset : (st.withStatus e.pid status).childList =
      pre ++ { e with isWait := true, status := status } :: suf := by
    rw [withStatus, hlist, setChild_of_split hnodup']
  have hbefore := Runs.pass st status [] pre (e :: suf) (by simpa using hlist) hnodup hsplit.1
  have hafter := Runs.pass (st.withStatus e.pid status) status
    (pre ++ [{ e with isWait := true, status := status }]) suf [] (by simpa using hset)
    (by rw [pids_withStatus]; exact hnodup) hsplit.2
  rw [← hlist] at hbefore
  rw [List.append_nil] at hafter
  refine (hbefore.trans (Runs.store hlist hnodup hlinked)).trans (hafter.trans ?_)
  exact Runs.leave e.pid status

/-! ## The parent -/

/-- The parent, running alone, comes to return `status` from `process_wait`. -/
def Returns (st : Family) (c : Nat) (status : Int) : Prop :=
  ∃ st₁ st₂, Runs .parent st st₁ ∧
    familyMachine.step st₁ .parent = some (some (.waited c status), st₂)

theorem returns_of_waitRead (hmem : e ∈ st.childList) (hnodup : st.pids.Nodup)
    (hpc : st.pc = .waitRead e.pid) (hblocked : st.blocked = false) :
    st.Returns e.pid e.status := by
  obtain ⟨pre, suf, hlist, hnodup'⟩ := exists_split hmem hnodup
  have hentry := childEntry_of_split hnodup'
  rw [← hlist] at hentry
  have hread : st.parentStep = some (none, { st with pc := .waitRemove e.pid e.status }) := by
    simp only [parentStep, hpc, hentry, Option.map_some]
  have hremove : parentStep { st with pc := .waitRemove e.pid e.status } = some (none, { st with
      childList := setChild st.childList e.pid fun e => { e with linked := false }
      pc := .waitFree e.pid e.status }) := rfl
  exact ⟨_, _, .parent hblocked hread (.parent (by exact hblocked) hremove .refl),
    (step_parent (by exact hblocked)).trans rfl⟩

theorem returns_of_waitDown (hmem : e ∈ st.childList) (hnodup : st.pids.Nodup)
    (hpc : st.pc = .waitDown e.pid) (hblocked : st.blocked = false) (htok : st.childLock ≠ []) :
    st.Returns e.pid e.status := by
  obtain ⟨t, ts, htok⟩ := List.exists_cons_of_ne_nil htok
  have hdown : st.parentStep =
      some (some (.took t), { st with childLock := ts, pc := .waitRead e.pid }) := by
    simp only [parentStep, hpc, semaDown, htok]
  have hrest : Returns { st with childLock := ts, pc := .waitRead e.pid } e.pid e.status :=
    returns_of_waitRead hmem hnodup rfl hblocked
  obtain ⟨st1, st2, hruns, hstep⟩ := hrest
  exact ⟨st1, st2, .parent hblocked hdown hruns, hstep⟩

theorem returns_of_wait (hmem : e ∈ st.childList) (hnodup : st.pids.Nodup) (hpc : st.pc = .idle)
    (hblocked : st.blocked = false) (hlinked : e.linked = true) (hwait : e.isWait = true) :
    ∃ st', familyMachine.step st (.wait e.pid) = some (none, st') ∧
      st'.Returns e.pid e.status := by
  obtain ⟨pre, suf, hlist, hnodup'⟩ := exists_split hmem hnodup
  have hentry := childEntry_of_split hnodup'
  have hsearch := searchChild_of_split hnodup' hlinked
  rw [← hlist] at hentry hsearch
  refine ⟨{ st with pc := .waitStore e.pid }, by simp [familyMachine, hpc, hsearch], ?_⟩
  have hstore : parentStep { st with pc := .waitStore e.pid } =
      some (none, { st with lockChildId := e.pid, pc := .waitTest e.pid }) := rfl
  have htest : parentStep { st with lockChildId := e.pid, pc := .waitTest e.pid } =
      some (none, { st with lockChildId := e.pid, pc := .waitRead e.pid }) := by
    simp only [parentStep, hentry, Option.map_some, hwait, if_true]
  have hrest : Returns { st with lockChildId := e.pid, pc := .waitRead e.pid } e.pid e.status :=
    returns_of_waitRead hmem hnodup rfl hblocked
  obtain ⟨st1, st2, hruns, hstep⟩ := hrest
  exact ⟨st1, st2, .parent (by exact hblocked) hstore (.parent (by exact hblocked) htest hruns),
    hstep⟩

/-! ## Every status but one -/

/-- The child runs its program and has its entry, and the parent sleeps in `process_wait` for it or
has not called that. -/
structure Ready (st : Family) (c : Nat) : Prop where
  running : st.kid c = .running
  dir : st.dir c ≠ .freed
  nodup : st.pids.Nodup
  entry : ∃ e ∈ st.childList, e.pid = c ∧ e.linked = true
  /-- The parent sleeps, or is elsewhere. -/
  parent : st.pc = .waitDown c ∧ st.lockChildId = c ∨
    st.pc.awaits ≠ some c ∧ st.pc ≠ .waitStore c ∧ st.lockChildId ≠ c

/-- **A child that runs is ready** in every state that is reached with the sections kept apart,
unless the parent is just calling `process_wait` for it. -/
theorem ready_of_reach (h : familyMachine.Reach Fresh Apart st) (hkid : st.kid c = .running)
    (hdir : st.dir c ≠ .freed) (hstore : st.pc ≠ .waitStore c) (htest : st.pc ≠ .waitTest c) :
    st.Ready c := by
  have hinv := inv_of_reach h
  obtain ⟨hmem, hlinked⟩ := hinv.linked_of_active (c := c) (by rw [hkid]; rfl)
  obtain ⟨e, he, hpid⟩ := List.mem_map.mp hmem
  have hexited : ∀ status, st.kid c ≠ .exited status := fun status => by rw [hkid]; rintro ⟨⟩
  refine ⟨hkid, hdir, hinv.1.nodup, ⟨e, he, hpid, hlinked e he hpid⟩, ?_⟩
  by_cases hdown : st.pc = .waitDown c
  · exact .inl ⟨hdown, hinv.2.waitLock c (.inr hdown)⟩
  · have hawaits : st.pc.awaits ≠ some c := by
      intro hawaits
      cases hpc : st.pc <;>
        simp only [hpc, ParentPc.awaits, Option.some_inj, reduceCtorEq] at hawaits
      case waitTest => exact htest (hawaits ▸ hpc)
      case waitDown => exact hdown (hawaits ▸ hpc)
      case waitRead =>
        obtain ⟨status, hread⟩ := hinv.2.waitRead c (hawaits ▸ hpc)
        exact hexited status hread
      case waitRemove _ status =>
        exact hexited status (hinv.2.waitRemove c status (.inl (hawaits ▸ hpc)))
      case waitFree _ status =>
        exact hexited status (hinv.2.waitRemove c status (.inr (hawaits ▸ hpc)))
    refine .inr ⟨hawaits, hstore, ?_⟩
    rintro rfl
    rcases hinv.2.lock (by rw [hkid]; rintro ⟨⟩) with hwaited | hlock
    · obtain ⟨status, hexit⟩ := hinv.1.waited _ hwaited
      exact hexited status hexit
    · exact hawaits hlock

/-- The status that the message of `process_exit` shows, which comes after `dir_close`. -/
def message (st : Family) (c : Nat) : Option Int :=
  match st.kid c with
  | .exited status => if st.dir c = .freed then none else some status
  | _ => none

/-- What the exit of a child, from `st`, should leave. -/
structure Delivered (st st' : Family) (c : Nat) (status : Int) : Prop where
  /-- The child has come to its message. -/
  done : st'.kidStep c = none
  message : st'.message c = some status
  /-- The semaphore was upped once if the parent sleeps, and not otherwise. -/
  ups : st'.childLock.length = st.childLock.length + if st.pc = .waitDown c then 1 else 0
  /-- A parent that sleeps returns the status. -/
  waiting : st.pc = .waitDown c → st'.Returns c status
  /-- One that calls `process_wait` later, with the entry as it is now, returns it too. -/
  later : st.pc ≠ .waitDown c → ∃ e ∈ st'.childList, e.pid = c ∧
    ∀ now : Family, now.pc = .idle → now.blocked = false → now.pids.Nodup → e ∈ now.childList →
      ∃ called, familyMachine.step now (.wait c) = some (none, called) ∧ called.Returns c status

theorem Delivered.ne_default (h : Delivered st st' c status) : status ≠ -2 := by
  rintro rfl
  have hmessage := h.message
  have hdone := h.done
  cases hkid : st'.kid c <;> simp [Family.message, hkid] at hmessage
  obtain ⟨hdir, rfl⟩ := hmessage
  cases hptr : st'.dir c <;> simp_all [kidStep, dirClose]

theorem delivered_afterExit (h : st.Ready c) (hstatus : status ≠ -2) :
    Delivered st (st.afterExit c status) c status := by
  obtain ⟨e, hmem, rfl, hlinked⟩ := h.entry
  obtain ⟨pre, suf, hlist, hnodup'⟩ := exists_split hmem h.nodup
  have hset : (st.withStatus e.pid status).childList =
      pre ++ { e with isWait := true, status := status } :: suf := by
    rw [withStatus, hlist, setChild_of_split hnodup']
  have hnodup : (st.withStatus e.pid status).pids.Nodup := by rw [pids_withStatus]; exact h.nodup
  have hmem' : { e with isWait := true, status := status } ∈
      (st.withStatus e.pid status).childList := by simp [hset]
  rcases h.parent with ⟨hpc, hlock⟩ | ⟨hpc, -, hlock⟩
  · rw [afterExit, if_pos hlock]
    refine ⟨?_, ?_, ?_, fun _ => ?_, fun hne => absurd hpc hne⟩
    · simp [kidStep, semaUp, hstatus]
    · simp [message, semaUp, withStatus, goto, h.dir]
    · simp [semaUp, withStatus, hpc]
    · have htok : (((st.withStatus e.pid status).goto e.pid (.exited status)).semaUp
          (.exited e.pid)).childLock ≠ [] := by simp [semaUp]
      exact returns_of_waitDown (e := { e with isWait := true, status := status }) hmem' hnodup
        hpc rfl htok
  · have hne : st.pc ≠ .waitDown e.pid := fun heq => hpc (by rw [heq]; rfl)
    rw [afterExit, if_neg hlock]
    refine ⟨?_, ?_, ?_, fun heq => absurd heq hne, fun _ => ⟨_, hmem', rfl, ?_⟩⟩
    · simp [kidStep, hstatus]
    · simp [message, withStatus, goto, h.dir]
    · simp [withStatus, hne]
    · intro now hidle hblocked hnow hin
      exact returns_of_wait hin hnow hidle hblocked hlinked rfl

end Family

/-- **Exit statuses.**  A child that calls `exit_process` and runs alone comes to its message, with
the status delivered, if and only if the status is not -2. -/
theorem exit_delivers_iff {st : Family} {c : Nat} (h : st.Ready c) (status : Int) :
    (∃ st₁ st₂, familyMachine.step st (.exit c status) = some (none, st₁) ∧
      Family.Runs (.kid c) st₁ st₂ ∧ Family.Delivered st st₂ c status) ↔ status ≠ -2 := by
  constructor
  · rintro ⟨st₁, st₂, -, -, hdelivered⟩
    exact hdelivered.ne_default
  · intro hstatus
    obtain ⟨e, hmem, rfl, hlinked⟩ := h.entry
    exact ⟨_, _, by simp [familyMachine, h.running],
      Family.runs_exitProcess hmem h.nodup hlinked, Family.delivered_afterExit h hstatus⟩

theorem exit_delivers_iff_seven : ∃ st : Family, st.Ready 3 ∧ st.pc = .waitDown 3 ∧
    st.blocked = true ∧
    ((∃ st₁ st₂, familyMachine.step st (.exit 3 7) = some (none, st₁) ∧
      Family.Runs (.kid 3) st₁ st₂ ∧ Family.Delivered st st₂ 3 7) ↔ (7 : Int) ≠ -2) := by
  have hrun : ∃ os st, familyMachine.run .first
      [.execute true, .load 3 true, .kid 3, .kid 3, .parent, .parent, .wait 3, .parent, .parent,
        .parent] = some (os, st) ∧ st.kid 3 = .running ∧ st.dir 3 ≠ .freed ∧
      st.childList = [⟨3, false, -2, true⟩] ∧ st.pc = .waitDown 3 ∧ st.lockChildId = 3 ∧
      st.blocked = true := ⟨_, _, rfl, rfl, by decide, rfl, rfl, rfl, rfl⟩
  obtain ⟨os, st, -, hkid, hdir, hlist, hpc, hlock, hblocked⟩ := hrun
  have hready : st.Ready 3 :=
    ⟨hkid, hdir, by simp [Family.pids, hlist], by simp [hlist], .inl ⟨hpc, hlock⟩⟩
  exact ⟨st, hready, hpc, hblocked, exit_delivers_iff hready 7⟩

/-- **The status -2.**  The same child exits with -2.  The semaphore is upped twice, the status in
its entry becomes -1, and the child does not get past `dir_close` to its message. -/
theorem exit_default_status : ∃ os st os' st', familyMachine.run .first
      [.execute true, .load 3 true, .kid 3, .kid 3, .parent, .parent, .wait 3, .parent, .parent,
        .parent] = some (os, st) ∧ st.Ready 3 ∧ st.pc = .waitDown 3 ∧
    familyMachine.run st (.exit 3 (-2) :: List.replicate 17 (.kid 3)) = some (os', st') ∧
    st'.kid 3 = .exited (-1) ∧ st'.dirClose 3 = none ∧ st'.message 3 = none ∧
    st'.childLock = [.exited 3, .exited 3] ∧ st'.childList = [⟨3, true, -1, true⟩] ∧
    ¬ ∃ st₁ st₂, familyMachine.step st (.exit 3 (-2)) = some (none, st₁) ∧
      Family.Runs (.kid 3) st₁ st₂ ∧ Family.Delivered st st₂ 3 (-2) := by
  refine ⟨_, _, _, _, rfl, ⟨rfl, by decide, by decide, by decide, .inl ⟨rfl, rfl⟩⟩, rfl, rfl, rfl,
    rfl, rfl, rfl, rfl, ?_⟩
  rintro ⟨st₁, st₂, -, -, hdelivered⟩
  exact hdelivered.ne_default rfl

end Pintos
