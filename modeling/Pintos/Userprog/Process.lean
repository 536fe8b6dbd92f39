import Pintos.Lib.Machine

/-!
# Waiting for a child process

A parent process and its children: `process_execute`, `start_process` and `process_wait` of
`userprog/process.c` and `exit_process` of `userprog/syscall.c`, with the part of `thread_create`
that makes the child's entry in `child_list` and that of `process_exit` that calls `exit_process`
for a child that did not.  The parent and each child stand at a statement of
their own, and a turn of the machine is one statement of one of them, so its runs are all the
interleavings.

The parent has one semaphore, `child_lock`, for two kinds of events.  A child ups it when it is
loaded, and when it exits if the parent waits for it, which the child learns from `lock_child_id`.
The parent downs it in `process_execute`, and in `process_wait` if the child has not exited, which
the parent learns from `is_wait`.

* `Family` is the state.  The tokens of the semaphore, of which the kernel knows only the number,
  remember here who put them there; `loadStored`, `recorded` and `waited` are a history too.
* `InSection` holds of a child between its store to `is_wait` and its test of `lock_child_id`.  The
  parent has a section as well, between its store to `lock_child_id` and its test of `is_wait`.
* `Apart` says that these sections do not overlap, that no entry is freed that an exiting child
  stands at, and that no child exits with the status -2, which is the value of `exit_code` for a
  child that has not set it.  `HandOff` says that what a turn shows is right.
-/

namespace Pintos

/-! ## The state -/

/-- `struct child`, the entry of a child in the `child_list` of its parent. -/
structure Child where
  pid : Nat
  isWait : Bool
  status : Int
  /-- The entry is linked into the list.  `list_remove` ends that, and `free` then the entry. -/
  linked : Bool
deriving DecidableEq, Repr

/-- The statement that the parent is at. -/
inductive ParentPc where
  /-- In neither routine. -/
  | idle
  /-- `sema_down` in `process_execute`, for the child created, if there is one. -/
  | execDown (c : Option Nat)
  /-- The test of `load_success`. -/
  | execCheck (c : Option Nat)
  /-- The store to `lock_child_id` in `process_wait`. -/
  | waitStore (c : Nat)
  /-- The test of `is_wait`. -/
  | waitTest (c : Nat)
  /-- `sema_down` in `process_wait`. -/
  | waitDown (c : Nat)
  /-- The load of `status`. -/
  | waitRead (c : Nat)
  /-- `list_remove`, with `return_status`. -/
  | waitRemove (c : Nat) (returnStatus : Int)
  /-- `free` and `return`. -/
  | waitFree (c : Nat) (returnStatus : Int)
deriving DecidableEq, Repr

/-- The statement that a child is at. -/
inductive KidPc where
  /-- There is no such child. -/
  | unborn
  /-- `load` in `start_process`. -/
  | loading
  /-- The store to the parent's `load_success`. -/
  | loaded (success : Bool)
  /-- `sema_up` in `start_process`. -/
  | signal (success : Bool)
  /-- In the user program. -/
  | running
  /-- The head of the loop of `exit_process`, at an element of the list or its end. -/
  | scan (status : Int) (elem : Option Nat)
  /-- The store to `is_wait`. -/
  | storeWait (status : Int)
  /-- The store to `status`. -/
  | storeStatus (status : Int)
  /-- `list_next`. -/
  | next (status : Int) (elem : Nat)
  /-- The store to `exit_code`. -/
  | storeCode (status : Int)
  /-- The test of the parent's `lock_child_id`. -/
  | test (status : Int)
  /-- `sema_up` in `exit_process`. -/
  | up (status : Int)
  /-- `thread_exit`, from `exit_process`: `dir_close`, and the test of `exit_code` in
  `process_exit`.  If the status is not -2, the child is not heard of any more but for its message,
  which shows the status. -/
  | exited (status : Int)
  /-- In `thread_exit`, from `start_process`. -/
  | failed
deriving DecidableEq, Repr

/-- Who upped the semaphore. -/
inductive Token where
  /-- The child, when it was loaded. -/
  | loaded (c : Nat)
  /-- The child, when it exited. -/
  | exited (c : Nat)
deriving DecidableEq, Repr

/-- `thread->dir`. -/
inductive DirPointer where
  | null
  | opened
  /-- `dir_close` has freed what it points at. -/
  | freed
deriving DecidableEq, Repr

/-- A parent process with its children. -/
structure Family where
  pc : ParentPc
  /-- The parent is blocked in `sema_down`. -/
  blocked : Bool
  /-- `child_lock`, with one token for each unit of its value. -/
  childLock : List Token
  lockChildId : Nat
  loadSuccess : Bool
  /-- `child_list`, with the entries not yet freed. -/
  childList : List Child
  kid : Nat → KidPc
  /-- The identifier of the next thread. -/
  nextTid : Nat
  /-- The load result that a child has stored in its parent. -/
  loadStored : Nat → Option Bool
  /-- The status that a child has stored in its entry. -/
  recorded : Nat → Option Int
  /-- The children that `process_wait` has returned for. -/
  waited : List Nat
  /-- The working directory that a child has got from its parent. -/
  dir : Nat → DirPointer

/-- What the parent sees happen. -/
inductive FamilyEvent where
  /-- `sema_down` took a token. -/
  | took (t : Token)
  /-- `process_execute` returned `result`, having created a child or not. -/
  | executed (c : Option Nat) (result : Int)
  /-- `process_wait` returned the status of a child. -/
  | waited (c : Nat) (result : Int)
  /-- `process_wait` returned -1, having found no such child. -/
  | refused (tid : Nat)
deriving DecidableEq, Repr

/-- A turn: whose statement is next, and what the statement leaves open. -/
inductive Turn where
  /-- The parent calls `process_execute`, which creates a thread or fails to. -/
  | execute (created : Bool)
  /-- The parent calls `process_wait`. -/
  | wait (tid : Nat)
  /-- The next statement of the parent. -/
  | parent
  /-- A child returns from `load`. -/
  | load (c : Nat) (success : Bool)
  /-- A child calls `exit_process`. -/
  | exit (c : Nat) (status : Int)
  /-- The next statement of a child. -/
  | kid (c : Nat)
deriving DecidableEq, Repr

/-! ## The list of children -/

/-- `list_begin`. -/
def listBegin (l : List Child) : Option Nat := (l.find? (·.linked)).map (·.pid)

/-- `list_next`. -/
def listNext : List Child → Nat → Option Nat
  | [], _ => none
  | e :: l, elem => if e.pid = elem then listBegin l else listNext l elem

/-- The entry at which a pointer to the entry of `c` points. -/
def childEntry (l : List Child) (c : Nat) : Option Child := l.find? (·.pid = c)

/-- Change a field of the entry of `c`. -/
def setChild (l : List Child) (c : Nat) (f : Child → Child) : List Child :=
  l.map fun e => if e.pid = c then f e else e

/-- The search of `process_wait`, which goes on to the last match. -/
def searchChild (l : List Child) (tid : Nat) : Option Child :=
  (l.filter fun e => e.linked && e.pid == tid).getLast?

/-! ## The machine -/

namespace Family

/-- A child goes on to another statement. -/
def goto (st : Family) (c : Nat) (k : KidPc) : Family :=
  { st with kid := Function.update st.kid c k }

/-- `sema_up` on `child_lock`. -/
def semaUp (st : Family) (t : Token) : Family :=
  { st with childLock := st.childLock ++ [t], blocked := false }

/-- `sema_down` on `child_lock`, which goes on to `pc` once it has a token. -/
def semaDown (st : Family) (pc : ParentPc) : Option FamilyEvent × Family :=
  match st.childLock with
  | [] => (none, { st with blocked := true })
  | t :: ts => (some (.took t), { st with childLock := ts, pc := pc })

/-- `process_execute`, up to its `sema_down`. -/
def execute (st : Family) (created : Bool) : Family :=
  if created then
    { st with
      pc := .execDown (some st.nextTid)
      childList := st.childList ++ [⟨st.nextTid, false, -2, true⟩]
      kid := Function.update st.kid st.nextTid .loading
      nextTid := st.nextTid + 1 }
  else { st with pc := .execDown none }

/-- The next statement of the parent. -/
def parentStep (st : Family) : Option (Option FamilyEvent × Family) :=
  match st.pc with
  | .idle => none
  | .execDown c => some (st.semaDown (.execCheck c))
  | .execCheck c =>
    let tid : Int := (c.map Int.ofNat).getD (-1)
    some (some (.executed c (if st.loadSuccess then tid else -1)), { st with pc := .idle })
  | .waitStore c => some (none, { st with lockChildId := c, pc := .waitTest c })
  | .waitTest c => (childEntry st.childList c).map fun e =>
      (none, { st with pc := if e.isWait then .waitRead c else .waitDown c })
  | .waitDown c => some (st.semaDown (.waitRead c))
  | .waitRead c => (childEntry st.childList c).map fun e =>
      (none, { st with pc := .waitRemove c e.status })
  | .waitRemove c returnStatus => some (none, { st with
      childList := setChild st.childList c fun e => { e with linked := false }
      pc := .waitFree c returnStatus })
  | .waitFree c returnStatus => some (some (.waited c returnStatus), { st with
      childList := st.childList.filter (·.pid ≠ c)
      waited := c :: st.waited
      pc := .idle })

/-- `dir_close` in `thread_exit`.  A directory that has been freed is part of a list of free blocks,
whose addresses `inode_close` takes for an inode and a sector: the kernel panics. -/
def dirClose (st : Family) (c : Nat) : Option Family :=
  match st.dir c with
  | .null => some st
  | .opened => some { st with dir := Function.update st.dir c .freed }
  | .freed => none

/-- The next statement of the child `c`.  There is none if it would follow a pointer to an entry
that was freed. -/
def kidStep (st : Family) (c : Nat) : Option Family :=
  match st.kid c with
  | .loaded success => some { st.goto c (.signal success) with
      loadSuccess := success
      loadStored := Function.update st.loadStored c (some success) }
  | .signal success =>
    some ((st.goto c (if success then .running else .failed)).semaUp (.loaded c))
  | .scan status none => some (st.goto c (.storeCode status))
  | .scan status (some elem) => (childEntry st.childList elem).map fun e =>
      st.goto c (if e.pid = c then .storeWait status else .next status elem)
  | .storeWait status => (childEntry st.childList c).map fun _ =>
      { st.goto c (.storeStatus status) with
        childList := setChild st.childList c fun e => { e with isWait := true } }
  | .storeStatus status => (childEntry st.childList c).map fun _ =>
      { st.goto c (.next status c) with
        childList := setChild st.childList c fun e => { e with status := status }
        recorded := Function.update st.recorded c (some status) }
  | .next status elem => (childEntry st.childList elem).map fun _ =>
      st.goto c (.scan status (listNext st.childList elem))
  | .storeCode status => some (st.goto c (.test status))
  | .test status =>
    some (st.goto c (if st.lockChildId = c then .up status else .exited status))
  | .up status => some ((st.goto c (.exited status)).semaUp (.exited c))
  | .exited status =>
    if status = -2 then (st.dirClose c).map (·.goto c (.scan (-1) (listBegin st.childList)))
    else none
  | .failed => (st.dirClose c).map (·.goto c (.scan (-1) (listBegin st.childList)))
  | _ => none

end Family

/-- The parent with its children, one statement at a time. -/
def familyMachine : Machine Family Turn (Option FamilyEvent) where
  step st
    | .execute created => if st.pc = .idle then some (none, st.execute created) else none
    | .wait tid =>
      if st.pc = .idle then
        match searchChild st.childList tid with
        | none => some (some (.refused tid), st)
        | some e => some (none, { st with pc := .waitStore e.pid })
      else none
    | .parent => if st.blocked then none else st.parentStep
    | .load c success =>
      if st.kid c = .loading then some (none, st.goto c (.loaded success)) else none
    | .exit c status =>
      if st.kid c = .running then some (none, st.goto c (.scan status (listBegin st.childList)))
      else none
    | .kid c => (st.kidStep c).map fun st' => (none, st')

/-- A process that has not created a child yet. -/
def Family.Fresh (st : Family) : Prop :=
  st.pc = .idle ∧ st.childLock = [] ∧ st.lockChildId = 0 ∧ st.childList = [] ∧
    (∀ c, st.kid c = .unborn ∧ st.loadStored c = none ∧ st.recorded c = none ∧
      st.dir c ≠ .freed) ∧ 0 < st.nextTid ∧ st.waited = []

/-! ## The condition and the property -/

/-- The child is in `start_process` and has not upped the semaphore yet. -/
def KidPc.starting : KidPc → Bool
  | .loading | .loaded _ | .signal _ => true
  | _ => false

/-- The child is in `exit_process` and has not tested `lock_child_id` yet. -/
def KidPc.beforeTest : KidPc → Bool
  | .scan _ _ | .storeWait _ | .storeStatus _ | .next _ _ | .storeCode _ | .test _ => true
  | _ => false

/-- The status that the child exits with. -/
def KidPc.exitStatus : KidPc → Option Int
  | .scan status _ | .storeWait status | .storeStatus status | .next status _ | .storeCode status
  | .test status | .up status | .exited status => some status
  | _ => none

/-- The element of the list that the loop of `exit_process` stands at. -/
def KidPc.elem : KidPc → Option Nat
  | .scan _ e => e
  | .next _ e => some e
  | _ => none

/-- The child has stored to `is_wait` and has not tested `lock_child_id` yet. -/
def Family.InSection (st : Family) (c : Nat) : Prop :=
  (∃ status, st.kid c = .storeStatus status) ∨ (st.recorded c ≠ none ∧ (st.kid c).beforeTest)

/-- The sections are kept apart: the parent does not store to `lock_child_id` while that child is in
its section, and the child does not store to `is_wait` while the parent is about to test it.  The
parent frees no entry that the loop of a child stands at, and no child exits with -2. -/
def Apart (st : Family) : Turn → Prop
  | .parent => (∀ c, st.pc = .waitStore c → ¬ st.InSection c) ∧
      ∀ c status, st.pc = .waitFree c status → ∀ d, (st.kid d).elem ≠ some c
  | .kid c => ∀ status, st.kid c = .storeWait status → st.pc ≠ .waitTest c
  | .exit _ status => status ≠ -2
  | _ => True

/-- What a turn shows is right. -/
structure HandOff (st : Family) (t : Turn) (event : Option FamilyEvent) : Prop where
  /-- `process_execute` returns after its child has stored its load result, with -1 if that is
  false and only then. -/
  executed : ∀ c result, event = some (.executed c result) →
    ∃ tid success, c = some tid ∧ st.loadStored tid = some success ∧
      (result = -1 ↔ success = false)
  /-- `process_wait` returns after its child has recorded its status, and returns that. -/
  waited : ∀ c result, event = some (.waited c result) → st.recorded c = some result
  /-- A second `process_wait` returns -1. -/
  again : ∀ c, t = .wait c → c ∈ st.waited → event = some (.refused c)
  /-- The first one does not, at once. -/
  first : ∀ c, event = some (.refused c) → c ∈ st.waited ∨ st.kid c = .unborn
  /-- A token is taken by the call it is meant for. -/
  took : ∀ token, event = some (.took token) →
    (∃ c, st.pc = .execDown (some c) ∧ token = .loaded c) ∨
      ∃ c, st.pc = .waitDown c ∧ token = .exited c

end Pintos
