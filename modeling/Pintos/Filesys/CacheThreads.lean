import Pintos.Filesys.ReadAhead
import Pintos.Lib.Locks

/-!
# The locks of the cache's threads

`cache_thread_init` starts two threads, one that writes the cache behind every 500 ticks and
`read_ahead_manager`.  Both work on the cache next to any number of client threads, under
`cache_lock` and `read_ahead_lock`.

All of them are programs that take locks (`Locks.Prog`), over the cache and the read-ahead list.
What they do to those is a question that is answered at once.  How long a thread sleeps is left
open.

The write-behind thread releases `cache_lock` behind a loop that does not end, so it goes back to
sleep with it.  `read_ahead_manager` has `read_ahead_lock` when `cond_wait` returns, and returns
without releasing it.

* `cacheSystem`: the threads and what they share.
* `FirstRound`: the write-behind thread is still in its first round, and the manager has not
  returned.
* `cacheDiscipline` and `safe_writeBehindRound`, `safe_readAheadManager`, `safe_clientCall`: up to
  there, all of them keep to the order of the locks, and sleep and end without those they must not
  have.
* `background_locks_free`: the property, in every state reached until then.
* `background_locks_kept`: after that, the locks are kept.
-/

namespace Pintos

open Locks (System State Discipline)

/-! ## The threads -/

/-- The two locks of the cache. -/
inductive CacheLock
  | cacheLock
  | readAheadLock
deriving DecidableEq, Repr

deriving instance DecidableEq for CacheOp

/-- What the threads do besides. -/
inductive CacheQuestion
  /-- `timer_sleep`. -/
  | timerSleep
  /-- The loop of `thread_function_wb_frequently` over the list. -/
  | writeBehindAll
  /-- `cond_wait` puts the thread into `waiters`. -/
  | condEnter
  /-- The `sema_down` of `cond_wait`. -/
  | condDown
  /-- The first request of `read_ahead_list`. -/
  | firstRequest
  /-- `find_cache`. -/
  | findCache (secNo : Nat)
  /-- The request is taken off the list. -/
  | removeRequest
  /-- `make_cache` and `disk_read` of the manager. -/
  | insertAhead (raSec : Nat)
  /-- `cache_read` or `cache_write`, once it has the lock. -/
  | access (op : CacheOp)
  /-- A request is put at the end of the list, and `cond_signal`. -/
  | queueRequest (aheadSec : Nat)
  /-- `destroy_cache_list`, once it has the lock. -/
  | destroyCacheList
deriving DecidableEq

/-- What they are answered. -/
abbrev CacheQuestion.Answer : CacheQuestion → Type
  | .firstRequest => Nat
  | .findCache _ => Bool
  | _ => Unit

/-- Where a thread is at the end of a program. -/
inductive CacheEnd
  /-- The write-behind thread is at the end of its loop. -/
  | roundDone
  /-- The manager is about to return. -/
  | requestDone
  /-- The thread has exited. -/
  | exited
  /-- A client is in no call. -/
  | idle
  /-- An assertion has failed. -/
  | failed
deriving DecidableEq, Repr

/-- The code of the threads. -/
abbrev CacheCode : Type := Locks.Prog CacheLock CacheQuestion CacheEnd CacheQuestion.Answer

/-- The body of the loop of `thread_function_wb_frequently`. -/
def writeBehindRound : CacheCode :=
  .ask .timerSleep fun _ => .acquire .cacheLock <| .ask .writeBehindAll fun _ => .fin .roundDone

/-- `cond_wait` on `read_ahead_condition`. -/
def condWait (lock : CacheLock) (next : CacheCode) : CacheCode :=
  .ask .condEnter fun _ => .release lock <| .ask .condDown fun _ => .acquire lock next

/-- `read_ahead_manager`. -/
def readAheadManager : CacheCode :=
  .acquire .readAheadLock <| condWait .readAheadLock <|
    .ask .firstRequest fun raSec =>
    .ask (.findCache raSec) fun found =>
    .ask .removeRequest fun _ =>
      if found then .fin .requestDone
      else .acquire .cacheLock <| .ask (.insertAhead raSec) fun _ =>
        .release .cacheLock <| .fin .requestDone

/-- What a client calls. -/
inductive ClientCall
  /-- `cache_read` or `cache_write`. -/
  | access (op : CacheOp)
  /-- `cache_read_ahead`. -/
  | readAhead (aheadSec : Nat)
  /-- `destroy_cache_list`. -/
  | destroy

/-- The code of a call. -/
def ClientCall.code : ClientCall → CacheCode
  | .access op => .acquire .cacheLock <| .ask (.access op) fun _ =>
    .release .cacheLock <| .fin .idle
  | .readAhead aheadSec => .ask (.findCache aheadSec) fun found =>
    if found then .fin .idle
    else .acquire .readAheadLock <| .ask (.queueRequest aheadSec) fun _ =>
      .release .readAheadLock <| .fin .idle
  | .destroy => .acquire .cacheLock <| .ask .destroyCacheList fun _ =>
    .release .cacheLock <| .fin .idle

/-- What the threads share. -/
structure CacheShared where
  cache : CacheState
  /-- The sectors of `read_ahead_list`. -/
  readAheadList : List Nat
  /-- The manager is in the `waiters` of `read_ahead_condition`. -/
  waiting : Bool
  /-- The value of the semaphore it waits for there. -/
  signalled : Bool

namespace CacheShared

/-- What comes of a question.  A thread waits where there is no answer, and where an assertion
fails there is none. -/
def respond (fresh : Nat → Sector) (s : CacheShared) :
    (q : CacheQuestion) → Option (q.Answer × CacheShared)
  | .timerSleep => some ((), s)
  | .writeBehindAll => some ((), { s with cache := s.cache.writeBehindAll })
  | .condEnter => some ((), { s with waiting := true, signalled := false })
  | .condDown => if s.signalled then some ((), { s with signalled := false }) else none
  | .firstRequest => s.readAheadList.head?.map fun raSec => (raSec, s)
  | .findCache secNo =>
    match s.cache.findCache secNo with
    | some r => some (true, { s with cache := r.2 })
    | none => some (false, s)
  | .removeRequest =>
    match s.readAheadList with
    | [] => none
    | _ :: rest => some ((), { s with readAheadList := rest })
  | .insertAhead raSec =>
    some ((), { s with cache := ReadAheadState.insertAhead fresh s.cache raSec })
  | .access op =>
    ((cacheMachine fresh).step s.cache op).map fun r => ((), { s with cache := r.2 })
  | .queueRequest aheadSec =>
    let s := { s with readAheadList := s.readAheadList ++ [aheadSec] }
    some ((), if s.waiting then { s with waiting := false, signalled := true } else s)
  | .destroyCacheList => some ((), { s with cache := s.cache.destroyCacheList })

/-- What comes after the end of a program. -/
def resume (s : CacheShared) (call : ClientCall) : CacheEnd → Option (CacheCode × CacheShared)
  | .roundDone => some (writeBehindRound, s)
  | .requestDone => some (.fin .exited, s)
  | .idle => some (call.code, s)
  | .exited | .failed => none

end CacheShared

/-- The threads of the cache.  The input of a step is what a client calls next. -/
def cacheSystem (fresh : Nat → Sector) :
    System CacheLock CacheQuestion CacheEnd CacheQuestion.Answer CacheShared ClientCall where
  respond s _ q _ := (s.respond fresh q).map fun r => (.answer r.1, r.2)
  resume s _ e call := s.resume call e
  fail := .failed

/-- The threads of the cache and what they share. -/
abbrev CacheThreads : Type :=
  State CacheLock CacheQuestion CacheEnd CacheQuestion.Answer CacheShared

namespace CacheThreads

/-- The write-behind thread. -/
abbrev writeBehindThread : Nat := 0

/-- The thread of `read_ahead_manager`. -/
abbrev managerThread : Nat := 1

/-- After `cache_thread_init`, with the disk as it is found.  All other threads are clients. -/
def init (d : Disk) : CacheThreads where
  shared := ⟨.cacheInit d, [], false, false⟩
  holder _ := none
  prog t :=
    if t = writeBehindThread then writeBehindRound
    else if t = managerThread then readAheadManager
    else .fin .idle

/-- The cache has been set up, over some disk. -/
def Boot (st : CacheThreads) : Prop := ∃ d, st = init d

/-- **The background threads leave their locks free.** -/
structure LocksFree (st : CacheThreads) : Prop where
  /-- The write-behind thread does not sleep with `cache_lock`. -/
  asleep : (st.prog writeBehindThread).asks = some .timerSleep →
    st.holder .cacheLock ≠ some writeBehindThread
  /-- The manager has exited without locks. -/
  returned : (st.prog managerThread).ended = some .exited → ∀ l, st.holder l ≠ some managerThread
  /-- Neither acquires a lock that it holds. -/
  once : ∀ t, t = writeBehindThread ∨ t = managerThread → ∀ l, (st.prog t).wants = some l →
    st.holder l ≠ some t

/-- The write-behind thread does not begin a second round, and the manager does not return. -/
def FirstRound (st : CacheThreads) (i : Nat × ClientCall) : Prop :=
  (st.prog i.1).ended ≠ some .roundDone ∧ (st.prog i.1).ended ≠ some .requestDone

instance (st : CacheThreads) (i : Nat × ClientCall) : Decidable (st.FirstRound i) :=
  inferInstanceAs (Decidable (_ ∧ _))

end CacheThreads

/-! ## The discipline -/

/-- `read_ahead_lock` comes before `cache_lock`.  No thread sleeps with `cache_lock`, and threads
exit and calls return without locks. -/
def cacheDiscipline : Discipline CacheLock CacheQuestion CacheEnd CacheQuestion.Answer where
  rank
    | .readAheadLock => 0
    | .cacheLock => 1
  asks h q := q = .timerSleep → .cacheLock ∉ h
  good _ _ _ := True
  ends h e := e = .exited ∨ e = .idle → h = ∅
  asks_mono hsub hasks hq hmem := hasks hq (hsub hmem)
  ends_mono hsub hends he := Set.subset_eq_empty hsub (hends he)

variable {h : Set CacheLock} {q : CacheQuestion} {next : q.Answer → CacheCode} {rest : CacheCode}

theorem safe_askAwake (hq : q ≠ .timerSleep) (hnext : ∀ a, cacheDiscipline.Safe h (next a)) :
    cacheDiscipline.Safe h (.ask q next) :=
  .ask (fun heq => absurd heq hq) hnext

theorem safe_acquireCacheLock (hh : .cacheLock ∉ h)
    (hrest : cacheDiscipline.Safe (insert .cacheLock h) rest) :
    cacheDiscipline.Safe h (.acquire .cacheLock rest) := by
  refine ⟨fun l hl => ?_, hrest⟩
  cases l with
  | cacheLock => exact absurd hl hh
  | readAheadLock => exact Nat.zero_lt_one

theorem safe_acquireReadAheadLock (hrest : cacheDiscipline.Safe {.readAheadLock} rest) :
    cacheDiscipline.Safe ∅ (.acquire .readAheadLock rest) := by
  refine ⟨nofun, ?_⟩
  rw [insert_empty_eq]
  exact hrest

theorem safe_release {l : CacheLock} (hrest : cacheDiscipline.Safe h rest) :
    cacheDiscipline.Safe (insert l h) (.release l rest) := by
  exact hrest.mono fun l' hl' => hl'.1.resolve_left hl'.2

theorem safe_writeBehindRound : cacheDiscipline.Safe ∅ writeBehindRound := by
  refine .ask (fun _ => Set.notMem_empty _) fun _ => ?_
  refine safe_acquireCacheLock (Set.notMem_empty _) (safe_askAwake nofun fun _ => ?_)
  exact fun he => by rcases he with he | he <;> nomatch he

theorem safe_requestDone : cacheDiscipline.Safe h (.fin .requestDone) :=
  fun he => by rcases he with he | he <;> nomatch he

theorem safe_readAheadManager : cacheDiscipline.Safe ∅ readAheadManager := by
  refine safe_acquireReadAheadLock (safe_askAwake nofun fun _ => ?_)
  rw [← insert_empty_eq]
  refine safe_release (safe_askAwake nofun fun _ => safe_acquireReadAheadLock ?_)
  refine safe_askAwake nofun fun raSec => safe_askAwake nofun fun found => ?_
  refine safe_askAwake nofun fun _ => ?_
  split
  next => exact safe_requestDone
  next =>
    refine safe_acquireCacheLock nofun (safe_askAwake nofun fun _ => safe_release ?_)
    exact safe_requestDone

theorem safe_clientCall (call : ClientCall) : cacheDiscipline.Safe ∅ call.code := by
  have hidle : cacheDiscipline.Safe ∅ (.fin .idle) := fun _ => rfl
  cases call with
  | access op =>
    refine safe_acquireCacheLock (Set.notMem_empty _) (safe_askAwake nofun fun _ => ?_)
    exact safe_release hidle
  | readAhead aheadSec =>
    refine safe_askAwake nofun fun found => ?_
    split
    next => exact hidle
    next =>
      refine safe_acquireReadAheadLock (safe_askAwake nofun fun _ => ?_)
      rw [← insert_empty_eq]
      exact safe_release hidle
  | destroy =>
    refine safe_acquireCacheLock (Set.notMem_empty _) (safe_askAwake nofun fun _ => ?_)
    exact safe_release hidle

/-! ## The property -/

namespace CacheThreads

variable {fresh : Nat → Sector} {st : CacheThreads}

theorem safe_init (d : Disk) : State.Safe cacheDiscipline (init d) := fun t => by
  have hnone : (init d).held t = ∅ := Set.eq_empty_of_forall_notMem nofun
  rw [hnone, init]
  dsimp only
  split
  next => exact safe_writeBehindRound
  next =>
    split
    next => exact safe_readAheadManager
    next => exact fun _ => rfl

theorem FirstRound.allows {i : Nat × ClientCall} (hfirst : st.FirstRound i) :
    (cacheSystem fresh).Allows cacheDiscipline st i.1 i.2 where
  good _ _ := trivial
  trap _ hres := by
    obtain ⟨r, -, heq⟩ := Option.map_eq_some_iff.mp hres
    nomatch heq
  resume := fun {e p shared} hprog hres hends => by
    obtain ⟨hround, hrequest⟩ := hfirst
    rw [hprog] at hround hrequest
    cases e with
    | roundDone => exact absurd rfl hround
    | requestDone => exact absurd rfl hrequest
    | exited | failed => nomatch hres
    | idle =>
      cases hres
      rw [hends (.inr rfl)]
      exact safe_clientCall i.2

theorem safe_of_reach (hreach : (cacheSystem fresh).machine.Reach Boot FirstRound st) :
    State.Safe cacheDiscipline st := by
  refine hreach.invariant ?_ ?_
  · rintro s ⟨d, rfl⟩
    exact safe_init d
  · intro s i o s' hsafe hfirst hstep
    exact hsafe.step (fun h he => by rcases he with he | he <;> nomatch he) hfirst.allows hstep

theorem locksFree_of_safe (hsafe : State.Safe cacheDiscipline st) : LocksFree st where
  asleep hasks := (hsafe writeBehindThread).asks hasks rfl
  returned hended l hl := by
    have hends := (hsafe managerThread).ends hended (.inl rfl)
    exact Set.notMem_empty l (hends ▸ hl)
  once _ _ _ hwants hholds := Nat.lt_irrefl _ (hsafe.rank_lt hwants hholds)

end CacheThreads

/-- **The background threads leave their locks free**, as long as the write-behind thread does not
begin a second round and the manager does not return. -/
theorem background_locks_free {fresh : Nat → Sector} {st : CacheThreads}
    (hreach : (cacheSystem fresh).machine.Reach CacheThreads.Boot
      CacheThreads.FirstRound st) : st.LocksFree :=
  CacheThreads.locksFree_of_safe (CacheThreads.safe_of_reach hreach)

namespace CacheThreads

/-- A thread takes some steps.  A client would call `cache_read_ahead` of sector 5. -/
def turns (t n : Nat) : List (Nat × ClientCall) := List.replicate n (t, .readAhead 5)

/-- The manager waits, a client asks for sector 5, and the manager brings it in. -/
def requestServed : List (Nat × ClientCall) :=
  turns managerThread 3 ++ turns 2 5 ++ turns managerThread 8

/-- The disk and the memory are all zeros. -/
def blank : CacheThreads := init fun _ => Bytes.Block.fill 512 0

theorem boot_blank : blank.Boot := ⟨_, rfl⟩

end CacheThreads

theorem background_locks_free_first : ∃ st : CacheThreads,
    (cacheSystem fun _ => Bytes.Block.fill 512 0).machine.Reach CacheThreads.Boot
      CacheThreads.FirstRound st ∧
      (st.prog 0).ended = some .roundDone ∧ (st.prog 1).ended = some .requestDone ∧
      st.holder .cacheLock = some 0 ∧ st.holder .readAheadLock = some 1 ∧ st.LocksFree := by
  obtain ⟨st, hreach, hround, hrequest, hcache, hahead⟩ :=
    (cacheSystem fun _ => Bytes.Block.fill 512 0).machine.exists_reach_along
      CacheThreads.boot_blank (CacheThreads.requestServed ++ CacheThreads.turns 0 3)
      (fun st => (st.prog 0).ended = some .roundDone ∧ (st.prog 1).ended = some .requestDone ∧
        st.holder .cacheLock = some 0 ∧ st.holder .readAheadLock = some 1)
      (by decide +kernel : Machine.Along _ CacheThreads.FirstRound ..) (by decide +kernel)
  exact ⟨st, hreach, hround, hrequest, hcache, hahead, background_locks_free hreach⟩

/-- **The background threads keep their locks.**  The write-behind thread sleeps with `cache_lock`
and asks for it again when it wakes up, and the manager has exited with `read_ahead_lock`. -/
theorem background_locks_kept : ∃ st st' : CacheThreads,
    (cacheSystem fun _ => Bytes.Block.fill 512 0).machine.Reach CacheThreads.Boot
      (fun _ _ => True) st ∧
      (st.prog 0).asks = some .timerSleep ∧ st.holder .cacheLock = some 0 ∧
      (st.prog 1).ended = some .exited ∧ st.holder .readAheadLock = some 1 ∧
      (cacheSystem fun _ => Bytes.Block.fill 512 0).machine.step st (0, .destroy) = some ((), st') ∧
      (st'.prog 0).wants = some .cacheLock ∧ st'.holder .cacheLock = some 0 := by
  obtain ⟨st, hreach, hsleep, hcache, hexited, hahead, hstep⟩ :=
    (cacheSystem fun _ => Bytes.Block.fill 512 0).machine.exists_reach CacheThreads.boot_blank
      (CacheThreads.requestServed ++ CacheThreads.turns 1 1 ++ CacheThreads.turns 0 4)
      (fun st => (st.prog 0).asks = some .timerSleep ∧ st.holder .cacheLock = some 0 ∧
        (st.prog 1).ended = some .exited ∧ st.holder .readAheadLock = some 1 ∧
        ((cacheSystem fun _ => Bytes.Block.fill 512 0).machine.step st (0, .destroy)).map
          (fun r => ((r.2.prog 0).wants, r.2.holder .cacheLock)) = some (some .cacheLock, some 0))
      (by decide +kernel)
  obtain ⟨⟨o, st'⟩, hstep, heq⟩ := Option.map_eq_some_iff.mp hstep
  obtain ⟨hwants, hholds⟩ := Prod.mk.inj heq
  exact ⟨st, st', hreach, hsleep, hcache, hexited, hahead, hstep, hwants, hholds⟩

end Pintos
