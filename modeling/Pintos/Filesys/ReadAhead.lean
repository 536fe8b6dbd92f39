import Pintos.Filesys.Cache

/-!
# Read-ahead

`cache_read_ahead` asks for a sector that is likely to be read next, and the thread
`read_ahead_manager` brings it in.  Clients run at the same time: their `cache_read` and
`cache_write` calls are atomic under `cache_lock`, but the manager first looks the sector up and
only then takes the lock to insert an entry for it, and a client may have brought the sector in
between the two.

* `ReadAheadStep` are the atomic steps of the clients and of the manager, and `readAheadMachine`
  their interleavings.
* `Undisturbed` is the condition under which the insertion is harmless: the sector is still absent
  when the manager inserts it.  `readAhead_faithful_iff` shows that the runs that meet it are those
  that never cache a sector twice and in which every read delivers what was last written.
* `readAhead_loses_write` is a run that does not meet it: a client's write comes between the
  lookup and the insertion, the sector is cached twice, and the second read returns the stale copy.

The manager serves one request and then returns, still holding `read_ahead_lock`.
-/

namespace Pintos

open Bytes

/-! ## The model -/

/-- Where `read_ahead_manager` is. -/
inductive Manager where
  /-- Before its `cond_wait`. -/
  | start
  /-- Inside `cond_wait`. -/
  | waiting
  /-- Signalled, and not yet running again. -/
  | signalled
  /-- Its lookup found no entry for the sector; it has yet to take `cache_lock`. -/
  | lookedUp (raSec : Nat)
  /-- It has returned. -/
  | exited
  deriving DecidableEq

/-- Does the manager hold `read_ahead_lock`?  It takes the lock again when `cond_wait` returns and
never gives it back. -/
def Manager.holdsLock : Manager → Bool
  | .start | .waiting | .signalled => false
  | .lookedUp _ | .exited => true

/-- The cache, the requests, and the threads that use them. -/
structure ReadAheadState where
  cache : CacheState
  /-- The sectors of `read_ahead_list`. -/
  readAheadList : List Nat
  /-- Requests whose caller has found the sector absent and has yet to queue it. -/
  pending : List Nat
  manager : Manager

/-- The atomic steps. -/
inductive ReadAheadStep where
  /-- A client's access to the cache. -/
  | client (op : CacheOp)
  /-- The `find_cache` of `cache_read_ahead`. -/
  | requestFind (aheadSec : Nat)
  /-- The rest of `cache_read_ahead`, under `read_ahead_lock`: queue the sector and signal. -/
  | requestQueue (aheadSec : Nat)
  /-- The manager enters `cond_wait`. -/
  | managerWait
  /-- The manager takes the first request off the list and looks its sector up. -/
  | managerLookup
  /-- The manager's section under `cache_lock`: `make_cache` and `disk_read`. -/
  | managerInsert

namespace ReadAheadState

/-- Nothing cached and nothing asked for. -/
def init (d : Disk) : ReadAheadState := ⟨CacheState.cacheInit d, [], [], .start⟩

/-- The manager's insertion: a new entry, filled from the disk. -/
def insertAhead (fresh : Nat → Sector) (s : CacheState) (raSec : Nat) : CacheState :=
  let r := CacheState.makeCache fresh s raSec false
  r.2.setBack { r.1 with buffer := r.2.disk raSec, openCnt := 1 }

/-- The steps as the threads take them. -/
def step (fresh : Nat → Sector) (s : ReadAheadState) :
    ReadAheadStep → Option (List UInt8 × ReadAheadState)
  | .client op =>
    ((cacheMachine fresh).step s.cache op).map fun r => (r.1, { s with cache := r.2 })
  | .requestFind aheadSec =>
    match s.cache.findCache aheadSec with
    | some r => some ([], { s with cache := r.2 })
    | none => some ([], { s with pending := aheadSec :: s.pending })
  | .requestQueue aheadSec =>
    if aheadSec ∈ s.pending ∧ s.manager.holdsLock = false then
      some ([], { s with
        pending := s.pending.erase aheadSec
        readAheadList := s.readAheadList ++ [aheadSec]
        manager := if s.manager = .waiting then .signalled else s.manager })
    else none
  | .managerWait => if s.manager = .start then some ([], { s with manager := .waiting }) else none
  | .managerLookup =>
    match s.manager, s.readAheadList with
    | .signalled, raSec :: rest =>
      match s.cache.findCache raSec with
      | some r => some ([], { s with cache := r.2, readAheadList := rest, manager := .exited })
      | none => some ([], { s with readAheadList := rest, manager := .lookedUp raSec })
    | _, _ => none
  | .managerInsert =>
    match s.manager with
    | .lookedUp raSec =>
      some ([], { s with cache := insertAhead fresh s.cache raSec, manager := .exited })
    | _ => none

end ReadAheadState

/-- The clients and the manager, interleaved. -/
def readAheadMachine (fresh : Nat → Sector) :
    Machine ReadAheadState ReadAheadStep (List UInt8) where
  step := ReadAheadState.step fresh

/-- The reference: the clients' accesses go to an array of sectors, and read-ahead is nothing. -/
def readAheadRef : Machine Disk ReadAheadStep (List UInt8) where
  step ref
    | .client op => refMachine.step ref op
    | _ => some ([], ref)

/-- The clients stay inside the disk. -/
def ReadAheadStep.Ok (capacity : Nat) : ReadAheadStep → Prop
  | .client op => op.Ok capacity
  | _ => True

/-- The manager inserts a sector only while it is absent from `cache_list`, or while the eviction
that makes room for it drops its entry. -/
def Undisturbed (s : ReadAheadState) : ReadAheadStep → Prop
  | .managerInsert => ∀ raSec, s.manager = .lookedUp raSec →
      raSec ∉ s.cache.makeRoom.cacheList.map Cache.sectorIdx
  | _ => True

/-! ## Undisturbed runs are faithful -/

variable {s : CacheState} {ref : Disk} {raSec : Nat}

theorem insertAhead_sim (fresh : Nat → Sector) (h : s.Sim ref)
    (hsec : raSec ∉ s.makeRoom.cacheList.map Cache.sectorIdx) :
    (ReadAheadState.insertAhead fresh s raSec).Sim ref :=
  h.pushMade fresh hsec rfl (CacheState.makeCache_disk fresh h false hsec) (fun _ => rfl)
    fun _ _ => rfl

theorem insertAhead_not_nodup (fresh : Nat → Sector)
    (hsec : raSec ∈ s.makeRoom.cacheList.map Cache.sectorIdx) :
    ¬ ((ReadAheadState.insertAhead fresh s raSec).cacheList.map Cache.sectorIdx).Nodup := by
  rw [ReadAheadState.insertAhead, CacheState.makeCache, CacheState.setBack, List.dropLast_concat,
    List.map_append, List.map_singleton, List.nodup_append]
  exact fun h => h.2.2 raSec hsec raSec (by simp) rfl

theorem findCache_eq_some_sim (h : s.Sim ref) {secNo : Nat} {r : Cache × CacheState}
    (hf : s.findCache secNo = some r) : r.2.Sim ref := by
  obtain ⟨_, -, -, -, h'⟩ := CacheState.findCache_eq_some h hf
  exact h'

theorem readAheadMachine_simulates (fresh : Nat → Sector) (capacity : Nat) :
    (readAheadMachine fresh).Simulates readAheadRef
      (fun s i => i.Ok capacity ∧ Undisturbed s i) (fun s ref => s.cache.Sim ref) := by
  intro s ref i o s' hsim hok hstep
  obtain ⟨hok, hund⟩ := hok
  cases i with
  | client op =>
    simp only [readAheadMachine, ReadAheadState.step, Option.map_eq_some_iff] at hstep
    obtain ⟨⟨o', c⟩, hc, heq⟩ := hstep
    cases heq
    exact cacheMachine_simulates fresh capacity s.cache ref op o' c hsim hok hc
  | requestFind aheadSec =>
    simp only [readAheadMachine, ReadAheadState.step] at hstep
    split at hstep
    · rename_i r hf
      cases hstep
      exact ⟨ref, rfl, findCache_eq_some_sim hsim hf⟩
    · cases hstep
      exact ⟨ref, rfl, hsim⟩
  | requestQueue aheadSec =>
    simp only [readAheadMachine, ReadAheadState.step] at hstep
    split at hstep
    · cases hstep
      exact ⟨ref, rfl, hsim⟩
    · simp at hstep
  | managerWait =>
    simp only [readAheadMachine, ReadAheadState.step] at hstep
    split at hstep
    · cases hstep
      exact ⟨ref, rfl, hsim⟩
    · simp at hstep
  | managerLookup =>
    simp only [readAheadMachine, ReadAheadState.step] at hstep
    split at hstep
    · split at hstep
      · rename_i r hf
        cases hstep
        exact ⟨ref, rfl, findCache_eq_some_sim hsim hf⟩
      · cases hstep
        exact ⟨ref, rfl, hsim⟩
    · simp at hstep
  | managerInsert =>
    simp only [readAheadMachine, ReadAheadState.step] at hstep
    split at hstep
    · rename_i raSec hm
      cases hstep
      exact ⟨ref, rfl, insertAhead_sim fresh hsim (hund raSec hm)⟩
    · simp at hstep

/-- No sector is cached twice, and the bytes delivered so far are those of the reference. -/
def ReadAheadFaithful (d : Disk) (steps : List ReadAheadStep) (outs : List (List UInt8))
    (s : ReadAheadState) : Prop :=
  (s.cache.cacheList.map Cache.sectorIdx).Nodup ∧ ∃ ref, readAheadRef.run d steps = some (outs, ref)

theorem readAheadFaithful_of_along (fresh : Nat → Sector) {capacity : Nat} {d : Disk}
    {steps : List ReadAheadStep} {outs : List (List UInt8)} {s : ReadAheadState}
    (hok : ∀ i ∈ steps, i.Ok capacity)
    (hund : (readAheadMachine fresh).Along Undisturbed (ReadAheadState.init d) steps)
    (hrun : (readAheadMachine fresh).run (ReadAheadState.init d) steps = some (outs, s)) :
    ReadAheadFaithful d steps outs s := by
  have halong := (Machine.Along.of_forall (fun i hi _ => hok i hi) _).and hund
  obtain ⟨ref, href, hsim⟩ := (readAheadMachine_simulates fresh capacity).run
    (CacheState.sim_cacheInit d) halong hrun
  exact ⟨hsim.nodup, ref, href⟩

/-- **When read-ahead loses no write.**  Along an interleaving every state reached caches no sector
twice, and every read delivers the bytes last written, exactly when the manager only ever inserts
a sector that is absent once room for it has been made. -/
theorem readAhead_faithful_iff (fresh : Nat → Sector) (capacity : Nat) (d : Disk)
    (steps : List ReadAheadStep) (hok : ∀ i ∈ steps, i.Ok capacity) :
    (∀ pre, pre <+: steps → ∀ outs s,
        (readAheadMachine fresh).run (ReadAheadState.init d) pre = some (outs, s) →
          ReadAheadFaithful d pre outs s) ↔
      (readAheadMachine fresh).Along Undisturbed (ReadAheadState.init d) steps := by
  constructor
  · intro h
    refine Machine.Along.of_prefixes fun pre i hpre outs s hrun => ?_
    cases i with
    | managerInsert =>
      intro raSec hm hmem
      have hstep : (readAheadMachine fresh).step s .managerInsert = some ([], { s with
          cache := ReadAheadState.insertAhead fresh s.cache raSec, manager := .exited }) := by
        simp only [readAheadMachine, ReadAheadState.step, hm]
      have hlast := Machine.run_append hrun (Machine.run_singleton hstep)
      exact insertAhead_not_nodup fresh hmem (h _ hpre _ _ hlast).1
    | _ => trivial
  · intro h pre hpre outs s hrun
    exact readAheadFaithful_of_along fresh (fun i hi => hok i (hpre.subset hi))
      (h.initial hpre) hrun

theorem readAhead_faithful_iff_served :
    (∀ i ∈ [ReadAheadStep.managerWait, .requestFind 5, .requestQueue 5, .managerLookup,
        .managerInsert, .client (.cacheWrite 5 0 [1])], i.Ok 8) ∧
      ∀ pre, pre <+: [.managerWait, .requestFind 5, .requestQueue 5, .managerLookup,
          .managerInsert, .client (.cacheWrite 5 0 [1])] → ∀ outs s,
        (readAheadMachine fun _ => Block.fill 512 0xcc).run
            (ReadAheadState.init fun _ => Block.fill 512 0) pre = some (outs, s) →
          ReadAheadFaithful (fun _ => Block.fill 512 0) pre outs s :=
  have hok : ∀ i ∈ [ReadAheadStep.managerWait, .requestFind 5, .requestQueue 5, .managerLookup,
      .managerInsert, .client (.cacheWrite 5 0 [1])], i.Ok 8 := by
    simp [ReadAheadStep.Ok, CacheOp.Ok]
  ⟨hok, (readAhead_faithful_iff _ 8 _ _ hok).mpr (by
    simp [Machine.Along, Undisturbed, readAheadMachine, ReadAheadState.step, ReadAheadState.init,
      CacheState.cacheInit, CacheState.findCache, CacheState.extract, CacheState.makeRoom,
      cacheMaxSectorNo])⟩

/-! ## A disturbed run -/

/-- A client writes sector 5 between the manager's lookup and its insertion, and then reads it
twice. -/
def disturbedRun : List ReadAheadStep :=
  [.managerWait, .requestFind 5, .requestQueue 5, .managerLookup,
    .client (.cacheWrite 5 0 [1]), .managerInsert,
    .client (.cacheRead 5 0 1), .client (.cacheRead 5 0 1)]

/-- **The manager can lose a write.**  In `disturbedRun` the sector ends up cached twice, and the
second read returns the byte from before the write. -/
theorem readAhead_loses_write :
    (∀ i ∈ disturbedRun, i.Ok 8) ∧
      ((readAheadMachine fun _ => Block.fill 512 0xcc).run
          (ReadAheadState.init fun _ => Block.fill 512 0) disturbedRun).map
        (fun r => (r.1, r.2.cache.cacheList.map Cache.sectorIdx))
        = some ([[], [], [], [], [], [], [1], [0]], [5, 5]) ∧
      (readAheadRef.run (fun _ => Block.fill 512 0) disturbedRun).map Prod.fst
        = some [[], [], [], [], [], [], [1], [1]] := by
  refine ⟨by simp [disturbedRun, ReadAheadStep.Ok, CacheOp.Ok], ?_, ?_⟩ <;> rfl

end Pintos
