import Pintos.Userprog.Syscall
import Pintos.Vm.Model

/-!
# `file_lock` and `frame_table_lock`

Any number of processes that make system calls, touch their memory, start and exit, over the
virtual memory of `Vm.Model`.

A process runs the programs of `Userprog.Syscall`.  Where the kernel touches a page of the process
that is not present, it comes into `page_fault` with the locks that it holds.  What runs under
`frame_table_lock` is done by virtual memory at once, unless it comes to a dirty page of a mapped
file: then the process takes `file_lock` first.  What the file system, the keyboard and the loader
answer is an input of the step.

Faults that are taken with `file_lock` held make `file_lock` the first of the two locks.  Two kinds
of code go against it: those that write a dirty page back, and those that end a process that holds
`file_lock`, for `process_exit` takes that lock first of all.

* `lockSystem`: the processes and what they share.
* `orderly`: the step is of neither kind, and nothing faults under `frame_table_lock`.
* `lockDiscipline` and `safe_syscallHandler`, `safe_load`, `safe_processExit`: all the rest keeps to
  the order.
* `no_deadlock`: in a run of orderly steps, no process asks for a lock that it holds, and no two
  wait for each other.
* `locks_deadlock`: two processes that do.
-/

namespace Pintos

open Locks (Reply System State Discipline)
open Kernel

/-! ## What the processes share -/

/-- Virtual memory, and a field of each `struct thread`. -/
structure KernelState where
  vm : Vm
  exceptionEsp : Nat → Word

/-- What a process does in user mode. -/
inductive UserEvent
  /-- A system call, with the stack pointer. -/
  | syscall (esp : Word)
  /-- A read of a byte, or a store. -/
  | access (esp addr : Word) (write : Option UInt8)
deriving DecidableEq, Repr

/-- What is open in a step. -/
structure Choice where
  /-- The answers of the file system, of the keyboard and of the loader. -/
  answer : (q : Question) → Answer q
  /-- The bytes of the kernel's memory, where it is mapped. -/
  kernelByte : Word → Option UInt8
  ptFree : Bool
  /-- The file of the descriptor that is mapped. -/
  file : Nat
  /-- The order of the hash table of a process that exits. -/
  order : List Nat
  /-- What the process does in user mode. -/
  event : UserEvent

/-- What comes of an access to memory. -/
inductive Access
  /-- It is made. -/
  | done (byte : UInt8) (vm : Vm)
  /-- The page is not present. -/
  | fault
  /-- `page_fault` ends the process. -/
  | killed

namespace Vm

/-- An access to the memory of a process. -/
def access (st : Vm) (t : Nat) (addr : Word) (write : Option UInt8) : Access :=
  match st.pte t (pageNo addr) with
  | none => .fault
  | some e =>
    if ¬ e.present then .fault
    else
      match write with
      | none => .done ((st.mem e.kpage).get (addr.toNat % pgsize)) st
      | some v =>
        if ¬ e.writable then .killed
        else
          match st.store t (pageNo addr) (addr.toNat % pgsize) v with
          | .ok st => .done v st
          | .error _ => .fault

/-- An access of the kernel, to any address. -/
def kernelAccess (st : Vm) (t : Nat) (c : Choice) (addr : Word) (write : Option UInt8) : Access :=
  if isUserVaddr addr then st.access t addr write
  else (c.kernelByte addr).elim .killed fun b => .done b st

/-! ## Pieces -/

/-- There is no free frame, and `frame_evict` finds a dirty page of a mapped file. -/
def evictsDirty (st : Vm) : Bool :=
  (st.pallocGetPage false).isNone &&
    match st.frameTable with
    | [] => false
    | fte :: _ =>
      (st.getSupPte fte.originThread fte.upage).any fun e =>
        (st.spte e).mmapId ≠ mapFailed && st.isDirty fte.originThread fte.upage

/-- `page_fault` comes to `frame_alloc`. -/
def faultAllocates (st : Vm) (t upage : Nat) (growth : Bool) : Bool :=
  match st.getSupPte t upage with
  | none => growth
  | some e =>
    let spte := st.spte e
    if spte.loaded then spte.swapped && (st.getPage t spte.upage).isNone
    else spte.readBytes + spte.zeroBytes = pgsize

/-- The piece comes to a dirty page of a mapped file, and calls `acquire_file_lock`. -/
def comesToDirty (st : Vm) (t : Nat) : Piece → Bool
  | .fault upage growth => st.faultAllocates t upage growth && st.evictsDirty
  | .setupStack => st.evictsDirty
  | .munmapEntry id e =>
    let spte := st.spte e
    spte.mmapId = id.toInt && (st.getPage t spte.upage).isSome && spte.loaded &&
      st.isDirty t spte.upage
  | .loadPage _ | .mmap _ _ | .exit => false

/-- What a piece does. -/
def execPiece (st : Vm) (t : Nat) (c : Choice) : Piece → Except Stop Vm
  | .fault upage growth => st.pageFault t upage growth c.ptFree
  | .loadPage page =>
    st.loadPage t page.file page.fileOfs page.upage page.readBytes page.writable
  | .setupStack => st.setupStack t c.ptFree
  | .mmap _ addr => .ok (st.mmap t c.file (pageNo addr))
  | .munmapEntry id e => munmapEntry t id.toInt st e
  | .exit => st.processExit t c.order

/-- `page_fault` could not read the whole page from its file. -/
def readsShort (st : Vm) (spte : SupPte) : Bool :=
  spte.zeroBytes ≠ pgsize &&
    spte.file.any fun f => (st.fileReadAt f spte.readBytes spte.fileOfs).length ≠ spte.readBytes

/-- How a piece has ended that began in the state `st`. -/
def pieceEnd (st st' : Vm) (t : Nat) : Piece → PieceEnd
  | .fault upage _ =>
    if (st'.getPage t upage).isSome then .done
    else
      match st.getSupPte t upage with
      | none => .failed
      | some e =>
        if (st.spte e).loaded then .failed
        else if st'.readsShort (st.spte e) then .short ((st.spte e).readBytes = pgsize)
        else .done
  | .setupStack =>
    if (st.getPage t stackPage).isNone && (st'.getPage t stackPage).isSome then .done else .failed
  | .loadPage _ | .mmap _ _ | .munmapEntry _ _ | .exit => .done

/-- The page that the kernel faults at, under `frame_table_lock`: that of a null pointer, or the one
that `frame_evict` reads. -/
def nestedPage (st : Vm) : Stop → Option Nat
  | .pointer => some 0
  | .nestedFault => some (st.frameTable.head?.elim 0 (·.upage))
  | .assertion | .swapSet => none

/-- The step is one that the process can make. -/
def admits (st : Vm) (t : Nat) (c : Choice) : Piece → Bool
  | .exit => (st.process t).any fun p => c.order.isPerm p.supPageTable.keys
  | _ => true

end Vm

/-- The stack may grow to an address. -/
def growsTo (esp addr : Word) : Bool :=
  physBaseAddr - 0x800000#32 ≤ addr && esp - 32 ≤ addr

namespace KernelState

/-- The kernel touches a byte. -/
def touch (s : KernelState) (t : Nat) (q : Question) (addr : Word) (write : Option UInt8)
    (c : Choice) (answer : UInt8 → Answer q) :
    Reply KernelLock Question Ending Answer q × KernelState :=
  match s.vm.kernelAccess t c addr write with
  | .done byte vm => (.answer (answer byte), { s with vm := vm })
  | .fault => (.trap (pageFault (pageNo addr) (growsTo (s.exceptionEsp t) addr)), s)
  | .killed => (.trap fun _ => exitProcess (-1), s)

/-- A piece of code runs, up to where it needs `file_lock`. -/
def runPiece (s : KernelState) (t : Nat) (piece : Piece) (fileLocked : Bool) (c : Choice) :
    Option (Reply KernelLock Question Ending Answer (.piece piece fileLocked) × KernelState) :=
  if ¬ s.vm.admits t c piece then none
  else if ¬ fileLocked ∧ s.vm.comesToDirty t piece then some (.answer .dirty, s)
  else
    match s.vm.execPiece t c piece with
    | .ok vm => some (.answer (s.vm.pieceEnd vm t piece), { s with vm := vm })
    | .error stop => (s.vm.nestedPage stop).map fun upage => (.trap (pageFault upage false), s)

/-- What a question of a process leads to. -/
def respond (s : KernelState) (t : Nat) (q : Question) (c : Choice) :
    Option (Reply KernelLock Question Ending Answer q × KernelState) :=
  match q with
  | .read use addr => some (s.touch t (.read use addr) addr none c id)
  | .write use addr byte => some (s.touch t (.write use addr byte) addr (some byte) c fun _ => ())
  | .present addr => some (.answer (s.vm.getPage t (pageNo addr)).isSome, s)
  | .mappings _ =>
    some (.answer ((s.vm.process t).bind fun p => if p.mmapList = [] then none else p.mmapList), s)
  | .piece piece fileLocked => s.runPiece t piece fileLocked c
  | q => some (.answer (c.answer q), s)

/-- What a process runs next. -/
def resume (s : KernelState) (t : Nat) (e : Ending) (c : Choice) : Option (Code × KernelState) :=
  match e with
  | .user =>
    match c.event with
    | .syscall esp =>
      some (syscallHandler esp, { s with exceptionEsp := Function.update s.exceptionEsp t esp })
    | .access esp addr write =>
      if ¬ isUserVaddr addr then some (exitProcess (-1), s)
      else
        match s.vm.access t addr write with
        | .done _ vm => some (ret, { s with vm := vm })
        | .fault => some (pageFault (pageNo addr) (growsTo esp addr) ret, s)
        | .killed => some (exitProcess (-1), s)
  | .exit _ => some (processExit, s)
  | .dead => ((s.vm.exec t .spawn).toOption).map fun vm => (load, { s with vm := vm })
  | .stop => none

end KernelState

/-- **The processes.** -/
def lockSystem : System KernelLock Question Ending Answer KernelState Choice where
  respond := KernelState.respond
  resume := KernelState.resume
  fail := .stop

/-! ## The discipline -/

/-- `file_lock` comes before `frame_table_lock`.  Memory is touched without `frame_table_lock`.  No
piece comes to a dirty page of a mapped file, and `page_fault` does not give up with `file_lock`
held.  A process that goes on in user mode, or exits, holds no lock. -/
def lockDiscipline : Discipline KernelLock Question Ending Answer where
  rank
    | .file => 0
    | .frameTable => 1
  asks h
    | .read _ _ | .write _ _ _ => .frameTable ∉ h
    | _ => True
  good h
    | .piece (.fault _ _) _, e => e ≠ .dirty ∧ (e = .failed → .file ∉ h)
    | .piece _ _, e => e ≠ .dirty
    | _, _ => True
  ends h e := e = .stop ∨ h = ∅
  asks_mono {h h' q} hsub := by
    cases q <;> first | exact fun hq hmem => hq (hsub hmem) | exact id
  ends_mono {h h' e} hsub := Or.imp_right fun hempty => Set.subset_eq_empty hsub hempty

/-- The code is safe, with no more than the locks of `h`. -/
abbrev Safe (h : Set KernelLock) (code : Code) : Prop := lockDiscipline.Safe h code

variable {h : Set KernelLock} {addr : Word} {next : Code} {e : Ending}

theorem safe_fin : Safe ∅ (.fin e) := .inr rfl

theorem safe_stop : Safe h (.fin .stop) := .inl rfl

theorem safe_acquireFile (hnext : Safe {.file} next) : Safe ∅ (.acquire .file next) := by
  refine ⟨fun l hl => absurd hl (Set.notMem_empty l), ?_⟩
  rw [insert_empty_eq]
  exact hnext

theorem safe_releaseFile (hnext : Safe ∅ next) : Safe {.file} (.release .file next) := by
  show Safe ({.file} \ {.file}) next
  rw [Set.sdiff_self]
  exact hnext

theorem safe_acquireFrameTable (hft : .frameTable ∉ h)
    (hnext : Safe (insert .frameTable h) next) : Safe h (.acquire .frameTable next) := by
  refine ⟨fun l hl => ?_, hnext⟩
  cases l with
  | file => exact Nat.zero_lt_one
  | frameTable => exact absurd hl hft

theorem safe_releaseFrameTable (hnext : Safe h next) :
    Safe (insert .frameTable h) (.release .frameTable next) := by
  exact hnext.mono fun l hl => hl.1.resolve_left hl.2

theorem frameTable_notMem_file : KernelLock.frameTable ∉ ({.file} : Set KernelLock) :=
  fun h => nomatch h

/-! ## The memory of the process -/

theorem safe_readWord (hft : .frameTable ∉ h) {next : Word → Code} (hnext : ∀ w, Safe h (next w)) :
    Safe h (readWord addr next) :=
  .ask hft fun _ => .ask hft fun _ => .ask hft fun _ => .ask hft fun _ => hnext _

theorem safe_checkAddress (hnext : Safe ∅ next) : Safe ∅ (checkAddress addr next) := by
  rw [checkAddress]
  split
  next => exact safe_fin
  next =>
    split
    next => exact safe_fin
    next =>
      refine .ask trivial fun present => ?_
      split
      next => exact hnext
      next =>
        refine .ask trivial fun present => ?_
        split
        next => exact hnext
        next => exact safe_fin

section

variable (hft : .frameTable ∉ h)
include hft

theorem safe_readBytes (hnext : Safe h next) (n : Nat) : Safe h (readBytes n addr next) := by
  induction n generalizing addr with
  | zero => exact hnext
  | succ n ih => exact .ask hft fun _ => ih

theorem safe_writeBytes (hnext : Safe h next) (data : List UInt8) :
    Safe h (writeBytes data addr next) := by
  induction data generalizing addr with
  | nil => exact hnext
  | cons b data ih => exact .ask hft fun _ => ih

theorem safe_strlenLoop {next : Nat → Code} (hnext : ∀ n, Safe h (next n)) (fuel len : Nat) :
    Safe h (strlenLoop fuel addr len next) := by
  induction fuel generalizing addr len with
  | zero => exact safe_stop
  | succ fuel ih =>
    refine .ask hft fun b => ?_
    split
    next => exact hnext len
    next => exact ih (len + 1)

theorem safe_strlen {next : Nat → Code} (hnext : ∀ n, Safe h (next n)) :
    Safe h (strlen addr next) := by
  rw [strlen]
  split
  next => exact safe_stop
  next => exact safe_strlenLoop hft hnext _ _

theorem safe_memcpy {next : List UInt8 → Code} (hnext : ∀ data, Safe h (next data)) (size : Nat) :
    Safe h (memcpy addr size next) := by
  induction size generalizing addr next with
  | zero => exact hnext []
  | succ size ih => exact .ask hft fun b => ih fun data => hnext (b :: data)

theorem safe_strlcpy {next : List UInt8 → Code} (hnext : ∀ data, Safe h (next data)) (size : Nat) :
    Safe h (strlcpy addr size next) := by
  refine safe_strlen hft fun n => ?_
  split
  next => exact safe_memcpy hft hnext _
  next => exact hnext []

theorem safe_copyName {next : List UInt8 → Code} (hnext : ∀ name, Safe h (next name)) :
    Safe h (copyName addr next) := by
  refine safe_strlen hft fun n => ?_
  split
  next => exact hnext []
  next =>
    refine safe_strlcpy hft (fun name => ?_) _
    split
    next => exact hnext name
    next => exact safe_strlcpy hft (fun _ => hnext name) _

theorem safe_filesysOpen {next : Bool → Code} (hnext : ∀ b, Safe h (next b)) :
    Safe h (Kernel.filesysOpen addr next) := by
  rw [Kernel.filesysOpen]
  split
  next => exact safe_stop
  next =>
    refine safe_copyName hft fun name => ?_
    split
    next => exact hnext false
    next => exact .ask trivial hnext

theorem safe_filesysCreate {size : Word} {isDir : Bool} {next : Bool → Code}
    (hnext : ∀ b, Safe h (next b)) : Safe h (Kernel.filesysCreate addr size isDir next) := by
  rw [Kernel.filesysCreate]
  split
  next => exact safe_stop
  next =>
    refine safe_strlen hft fun n => ?_
    split
    next => exact hnext false
    next => exact safe_copyName hft fun name => .ask trivial hnext

theorem safe_filesysRemove {next : Bool → Code} (hnext : ∀ b, Safe h (next b)) :
    Safe h (Kernel.filesysRemove addr next) := by
  rw [Kernel.filesysRemove]
  split
  next => exact hnext false
  next =>
    refine safe_copyName hft fun name => ?_
    split
    next => exact hnext false
    next => exact .ask trivial hnext

end

/-! ## Pieces -/

variable {piece : Piece} {retry : Code}

theorem safe_locked {next : PieceEnd → Code}
    (hnext : ∀ h1 ⊆ h, ∀ e, lockDiscipline.good h1 (.piece piece false) e → Safe h1 (next e)) :
    Safe h (locked piece next) := by
  refine ⟨trivial, fun h1 hsub e he => ?_⟩
  have hne : e ≠ .dirty := by
    cases piece <;> first | exact he.1 | exact he
  show Safe h1 (if e = .dirty then _ else next e)
  rw [if_neg hne]
  exact hnext h1 hsub e he

/-- **A page fault**, with the locks that the access is made with. -/
theorem safe_pageFault {upage : Nat} {growth : Bool} (hft : .frameTable ∉ h)
    (hretry : Safe h retry) : Safe h (pageFault upage growth retry) := by
  refine safe_acquireFrameTable hft (safe_locked fun h1 hsub e he => ?_)
  have hsub' : h1 \ {.frameTable} ⊆ h := fun l hl => (hsub hl.1).resolve_left hl.2
  cases e with
  | done => exact hretry.mono hsub'
  | dirty => exact hretry.mono hsub'
  | failed =>
    refine .inr (Set.eq_empty_of_forall_notMem fun l hl => ?_)
    cases l with
    | file => exact he.2 rfl hl.1
    | frameTable => exact hl.2 rfl
  | short whole =>
    cases whole with
    | false => exact hretry.mono hsub'
    | true => exact hretry.mono (Set.sdiff_subset.trans hsub')

/-! ## System calls -/

theorem safe_fileOf {fd : Word} (hft : .frameTable ∉ h) (hnext : Safe h next) :
    Safe h (fileOf fd next) := by
  refine .ask trivial fun found => ?_
  split
  next => exact hnext
  next =>
    refine .ask hft fun _ => .ask trivial fun goesOn => ?_
    split
    next => exact hnext
    next => exact safe_stop

theorem safe_releaseFile_ret : Safe {.file} (.release .file ret) := safe_releaseFile safe_fin

theorem safe_processExecute : Safe ∅ (processExecute addr ret) := by
  have hft : KernelLock.frameTable ∉ (∅ : Set KernelLock) := Set.notMem_empty _
  refine safe_strlen hft fun _ => safe_strlen hft fun _ => ?_
  refine safe_strlcpy hft (fun _ => safe_strlcpy hft (fun _ => ?_) _) _
  exact .ask trivial fun _ => safe_fin

theorem safe_sysExec (p : Word) : Safe ∅ (sysExec p) := by
  refine safe_checkAddress (safe_readWord (Set.notMem_empty _) fun arg => safe_checkAddress ?_)
  refine safe_acquireFile (safe_readWord frameTable_notMem_file fun filename => ?_)
  refine safe_strlen frameTable_notMem_file fun _ => safe_strlen frameTable_notMem_file fun _ => ?_
  refine safe_strlcpy frameTable_notMem_file (fun name => ?_) _
  split
  next => exact safe_stop
  next =>
    refine .ask trivial fun opened => safe_releaseFile ?_
    split
    next => exact safe_processExecute
    next => exact safe_fin

theorem safe_sysCreate (p : Word) : Safe ∅ (sysCreate p) := by
  refine safe_readWord (Set.notMem_empty _) fun arg => safe_checkAddress (safe_checkAddress ?_)
  refine safe_acquireFile (safe_readWord frameTable_notMem_file fun newFile => ?_)
  refine safe_readWord frameTable_notMem_file fun size => ?_
  exact safe_filesysCreate frameTable_notMem_file fun _ => safe_releaseFile_ret

theorem safe_sysRemove (p : Word) : Safe ∅ (sysRemove p) := by
  refine safe_checkAddress (safe_readWord (Set.notMem_empty _) fun filename => safe_acquireFile ?_)
  exact safe_filesysRemove frameTable_notMem_file fun _ => safe_releaseFile_ret

theorem safe_sysOpen (p : Word) : Safe ∅ (sysOpen p) := by
  refine safe_readWord (Set.notMem_empty _) fun arg => safe_checkAddress (safe_acquireFile ?_)
  refine safe_readWord frameTable_notMem_file fun fileName => ?_
  exact safe_filesysOpen frameTable_notMem_file fun _ => safe_releaseFile_ret

theorem safe_sysFileOf (p : Word) : Safe ∅ (sysFileOf p) := by
  refine safe_checkAddress (safe_acquireFile (safe_readWord frameTable_notMem_file fun fd => ?_))
  exact safe_fileOf frameTable_notMem_file safe_releaseFile_ret

theorem safe_readKeys (n : Nat) : Safe ∅ (readKeys n addr ret) := by
  induction n generalizing addr with
  | zero => exact safe_fin
  | succ n ih => exact .ask trivial fun key => safe_writeBytes (Set.notMem_empty _) ih _

theorem safe_sysRead (p : Word) : Safe ∅ (sysRead p) := by
  have hft : KernelLock.frameTable ∉ (∅ : Set KernelLock) := Set.notMem_empty _
  refine safe_readWord hft fun buffer => safe_checkAddress (safe_readWord hft fun arg => ?_)
  refine safe_checkAddress (safe_checkAddress (safe_readWord hft fun fd => ?_))
  refine safe_readWord hft fun readBuffer => safe_readWord hft fun readSize => ?_
  split
  next => exact safe_readKeys _
  next =>
    refine .ask trivial fun found => ?_
    split
    next => exact safe_fin
    next =>
      split
      next => exact safe_fin
      next =>
        refine safe_acquireFile (.ask trivial fun data => ?_)
        exact safe_writeBytes frameTable_notMem_file safe_releaseFile_ret data

theorem safe_sysWrite (p : Word) : Safe ∅ (sysWrite p) := by
  have hft : KernelLock.frameTable ∉ (∅ : Set KernelLock) := Set.notMem_empty _
  refine safe_checkAddress (safe_checkAddress (safe_readWord hft fun arg => safe_checkAddress ?_))
  refine safe_readWord hft fun writeSize => safe_readWord hft fun fd => ?_
  split
  next =>
    refine safe_readWord hft fun buffer => safe_readWord hft fun size => ?_
    exact safe_readBytes hft safe_fin _
  next =>
    refine .ask trivial fun found => ?_
    split
    next => exact safe_fin
    next =>
      refine safe_acquireFile (safe_readWord frameTable_notMem_file fun buffer => ?_)
      refine .ask trivial fun cnt => ?_
      exact safe_readBytes frameTable_notMem_file safe_releaseFile_ret cnt

theorem safe_sysSeek (p : Word) : Safe ∅ (sysSeek p) := by
  refine safe_checkAddress (safe_checkAddress (safe_acquireFile ?_))
  refine safe_readWord frameTable_notMem_file fun fd => safe_fileOf frameTable_notMem_file ?_
  exact safe_readWord frameTable_notMem_file fun _ => safe_releaseFile_ret

theorem safe_sysClose (p : Word) : Safe ∅ (sysClose p) :=
  safe_checkAddress <| safe_acquireFile <|
    safe_readWord frameTable_notMem_file fun _ => safe_releaseFile_ret

theorem safe_frameTable (hnext : Safe {.frameTable} next) : Safe ∅ (.acquire .frameTable next) := by
  refine safe_acquireFrameTable (Set.notMem_empty _) ?_
  rw [insert_empty_eq]
  exact hnext

theorem safe_releaseFrameTable_ret : Safe {.frameTable} (.release .frameTable ret) := by
  rw [← insert_empty_eq]
  exact safe_releaseFrameTable safe_fin

theorem safe_sysMmap (p : Word) : Safe ∅ (sysMmap p) := by
  have hft : KernelLock.frameTable ∉ (∅ : Set KernelLock) := Set.notMem_empty _
  refine safe_checkAddress (safe_checkAddress (safe_readWord hft fun fd => ?_))
  refine safe_readWord hft fun addr => ?_
  split
  next => exact safe_fin
  next =>
    split
    next => exact safe_fin
    next =>
      split
      next => exact safe_fin
      next =>
        refine safe_fileOf hft (.ask trivial fun readBytes => ?_)
        split
        next => exact safe_fin
        next => exact safe_frameTable (.ask trivial fun _ => safe_releaseFrameTable_ret)

theorem safe_munmapLoop (id : Word) (hnext : Safe h next) (entries : List Nat) :
    Safe h (munmapLoop id entries next) := by
  induction entries with
  | nil => exact hnext
  | cons entry entries ih => exact safe_locked fun _ hsub _ _ => ih.mono hsub

section

variable (p : Word)
include p

theorem safe_sysMunmap : Safe ∅ (sysMunmap p) := by
  refine safe_checkAddress (safe_readWord (Set.notMem_empty _) fun id => safe_frameTable ?_)
  refine .ask trivial fun entries => ?_
  split
  next => exact safe_stop
  next => exact safe_munmapLoop id safe_releaseFrameTable_ret _

theorem safe_sysChdir : Safe ∅ (sysChdir p) := by
  have hft : KernelLock.frameTable ∉ (∅ : Set KernelLock) := Set.notMem_empty _
  refine safe_checkAddress (safe_readWord hft fun path => ?_)
  refine safe_strlen hft fun _ => safe_strlen hft fun _ => safe_strlcpy hft (fun _ => ?_) _
  exact .ask trivial fun _ => safe_fin

theorem safe_sysMkdir : Safe ∅ (sysMkdir p) := by
  refine safe_checkAddress (safe_readWord (Set.notMem_empty _) fun newDir => safe_acquireFile ?_)
  exact safe_filesysCreate frameTable_notMem_file fun _ => safe_releaseFile_ret

theorem safe_sysReaddir : Safe ∅ (sysReaddir p) := by
  have hft : KernelLock.frameTable ∉ (∅ : Set KernelLock) := Set.notMem_empty _
  refine safe_readWord hft fun fd => safe_readWord hft fun name => ?_
  refine safe_strlen hft fun len => safe_memcpy hft (fun _ => safe_fileOf hft ?_) _
  refine .ask trivial fun dirCheck => ?_
  split
  next => exact safe_fin
  next => exact safe_acquireFile (.ask trivial fun _ => safe_releaseFile_ret)

theorem safe_sysInumber : Safe ∅ (sysInumber p) := by
  refine safe_checkAddress (safe_readWord (Set.notMem_empty _) fun fd =>
    .ask trivial fun found => ?_)
  split
  next => exact safe_fin
  next => exact safe_stop

theorem safe_syscall (call : Syscall) : Safe ∅ (syscall p call) := by
  have hft : KernelLock.frameTable ∉ (∅ : Set KernelLock) := Set.notMem_empty _
  cases call with
  | halt => exact safe_stop
  | exit => exact safe_checkAddress (safe_readWord hft fun _ => safe_fin)
  | exec => exact safe_sysExec p
  | wait => exact safe_checkAddress (safe_readWord hft fun _ => safe_fin)
  | create => exact safe_sysCreate p
  | remove => exact safe_sysRemove p
  | «open» => exact safe_sysOpen p
  | filesize => exact safe_sysFileOf p
  | read => exact safe_sysRead p
  | write => exact safe_sysWrite p
  | seek => exact safe_sysSeek p
  | tell => exact safe_sysFileOf p
  | close => exact safe_sysClose p
  | mmap => exact safe_sysMmap p
  | munmap => exact safe_sysMunmap p
  | chdir => exact safe_sysChdir p
  | mkdir => exact safe_sysMkdir p
  | readdir => exact safe_sysReaddir p
  | isdir => exact safe_checkAddress (safe_readWord hft fun fd => safe_fileOf hft safe_fin)
  | inumber => exact safe_sysInumber p

/-- **Every system call keeps to the order of the locks.** -/
theorem safe_syscallHandler : Safe ∅ (syscallHandler p) := by
  refine safe_checkAddress (safe_readWord (Set.notMem_empty _) fun number => ?_)
  split
  next => exact safe_fin
  next => exact safe_syscall p _

end

/-! ## The start and the end of a process -/

theorem safe_loadSegments (hnext : Safe {.file} next) (pages : List SegmentPage) :
    Safe {.file} (loadSegments pages next) := by
  induction pages with
  | nil => exact hnext
  | cons page pages ih =>
    refine safe_acquireFrameTable frameTable_notMem_file (.ask trivial fun _ => ?_)
    exact safe_releaseFrameTable ih

theorem safe_pushArguments (hft : .frameTable ∉ h) (hnext : Safe h next)
    (bytes : List (Word × UInt8)) : Safe h (pushArguments bytes next) := by
  induction bytes with
  | nil => exact hnext
  | cons b bytes ih => exact .ask hft fun _ => ih

/-- **So does the start of a process.** -/
theorem safe_load : Safe ∅ load := by
  refine safe_acquireFile (.ask trivial fun (pages, complete) => safe_loadSegments ?_ pages)
  split
  next =>
    refine safe_acquireFrameTable frameTable_notMem_file (safe_locked fun _ hsub e _ => ?_)
    refine Discipline.Safe.mono ?_ hsub
    refine safe_releaseFrameTable (.ask trivial fun bytes => ?_)
    refine safe_pushArguments frameTable_notMem_file (safe_releaseFile ?_) bytes
    split
    next => exact safe_fin
    next => exact safe_fin
  next => exact safe_releaseFile safe_fin

/-- **And its end.** -/
theorem safe_processExit : Safe ∅ processExit := by
  refine safe_acquireFile (safe_releaseFile (safe_frameTable (.ask trivial fun _ => ?_)))
  rw [← insert_empty_eq]
  exact safe_releaseFrameTable safe_fin

/-! ## Runs -/

/-- The state of all processes. -/
abbrev LockState : Type := State KernelLock Question Ending Answer KernelState

/-- `page_fault` ends the process. -/
def Access.isKilled : Access → Bool
  | .killed => true
  | .done _ _ | .fault => false

/-- The piece runs to its end, and is not a `page_fault` that gives up with `file_lock` held. -/
def LockState.endsWell (st : LockState) (t : Nat) (c : Choice) (piece : Piece) : Bool :=
  match st.shared.vm.execPiece t c piece with
  | .error stop => (st.shared.vm.nestedPage stop).isNone
  | .ok vm =>
    match piece with
    | .fault _ _ =>
      st.shared.vm.pieceEnd vm t piece ≠ .failed || st.holder .file ≠ some t
    | _ => true

/-- **An orderly step.**  No process that holds `file_lock` touches memory for which it is ended.
No piece comes to a dirty page of a mapped file, or faults. -/
def orderly (st : LockState) (i : Nat × Choice) : Bool :=
  match st.prog i.1 with
  | .ask (.read _ addr) _ =>
    st.holder .file ≠ some i.1 || !(st.shared.vm.kernelAccess i.1 i.2 addr none).isKilled
  | .ask (.write _ addr byte) _ =>
    st.holder .file ≠ some i.1 || !(st.shared.vm.kernelAccess i.1 i.2 addr (some byte)).isKilled
  | .ask (.piece piece _) _ =>
    !st.shared.vm.comesToDirty i.1 piece && LockState.endsWell st i.1 i.2 piece
  | _ => true

/-- Before the first process. -/
structure LockState.Boot (st : LockState) : Prop where
  vm : st.shared.vm.Boot
  holder : ∀ l, st.holder l = none
  prog : ∀ t, st.prog t = .fin .dead

theorem Vm.pieceEnd_ne_dirty (st st' : Vm) (t : Nat) (piece : Piece) :
    st.pieceEnd st' t piece ≠ .dirty := by
  cases piece with
  | fault upage growth =>
    rw [pieceEnd]
    repeat' split
    all_goals nofun
  | setupStack =>
    rw [pieceEnd]
    split
    all_goals nofun
  | loadPage page => nofun
  | mmap fd addr => nofun
  | munmapEntry id e => nofun
  | exit => nofun

variable {st : LockState} {i : Nat × Choice} {s' : KernelState} {code : Code → Code}
  {fileLocked : Bool}

theorem safe_touch {q : Question} {write : Option UInt8} {answer : UInt8 → Answer q}
    (htouch : st.shared.touch i.1 q addr write i.2 answer = (.trap code, s'))
    (hkilled : st.holder .file ≠ some i.1 ∨
      (st.shared.vm.kernelAccess i.1 i.2 addr write).isKilled = false)
    (hft : .frameTable ∉ st.held i.1) (hretry : Safe (st.held i.1) retry) :
    Safe (st.held i.1) (code retry) := by
  rw [KernelState.touch] at htouch
  split at htouch
  next => cases htouch
  next =>
    cases htouch
    exact safe_pageFault hft hretry
  next heq =>
    cases htouch
    have hfile : st.holder .file ≠ some i.1 := by
      refine hkilled.resolve_right fun h => ?_
      rw [heq] at h
      nomatch h
    refine .inr (Set.eq_empty_of_forall_notMem fun l hl => ?_)
    cases l with
    | file => exact hfile hl
    | frameTable => exact hft hl

theorem good_runPiece {e : PieceEnd}
    (hrun : st.shared.runPiece i.1 piece fileLocked i.2 = some (.answer e, s'))
    (hclean : st.shared.vm.comesToDirty i.1 piece = false)
    (hwell : LockState.endsWell st i.1 i.2 piece) :
    lockDiscipline.good (st.held i.1) (.piece piece fileLocked) e := by
  rw [KernelState.runPiece] at hrun
  split at hrun
  · nomatch hrun
  · rw [if_neg fun h => Bool.false_ne_true (hclean ▸ h.2)] at hrun
    split at hrun
    next vm hexec =>
      cases hrun
      rw [LockState.endsWell, hexec] at hwell
      have hne : st.shared.vm.pieceEnd vm i.1 piece ≠ .dirty := Vm.pieceEnd_ne_dirty _ _ _ _
      cases piece with
      | fault upage growth =>
        refine ⟨hne, fun hfailed hfile => ?_⟩
        have hfile : st.holder .file = some i.1 := hfile
        simp [hfailed, hfile] at hwell
      | _ => exact hne
    next =>
      obtain ⟨upage, -, heq⟩ := Option.map_eq_some_iff.mp hrun
      nomatch heq

theorem runPiece_ne_trap (hclean : st.shared.vm.comesToDirty i.1 piece = false)
    (hwell : LockState.endsWell st i.1 i.2 piece) :
    st.shared.runPiece i.1 piece fileLocked i.2 ≠ some (.trap code, s') := by
  intro hrun
  rw [KernelState.runPiece] at hrun
  split at hrun
  · nomatch hrun
  · rw [if_neg fun h => Bool.false_ne_true (hclean ▸ h.2)] at hrun
    split at hrun
    next => nomatch hrun
    next stop hexec =>
      obtain ⟨upage, hpage, -⟩ := Option.map_eq_some_iff.mp hrun
      rw [LockState.endsWell, hexec] at hwell
      simp [hpage] at hwell

theorem safe_resume {code : Code} {s : KernelState} {t : Nat} {c : Choice}
    (hresume : s.resume t e c = some (code, s')) (hends : lockDiscipline.ends h e) :
    Safe h code := by
  have hempty : e ≠ .stop → h = ∅ := hends.resolve_left
  cases e with
  | stop => nomatch hresume
  | exit status =>
    cases hresume
    rw [hempty nofun]
    exact safe_processExit
  | dead =>
    rw [KernelState.resume] at hresume
    obtain ⟨vm, -, heq⟩ := Option.map_eq_some_iff.mp hresume
    cases heq
    rw [hempty nofun]
    exact safe_load
  | user =>
    rw [hempty nofun]
    rw [KernelState.resume] at hresume
    split at hresume
    next =>
      cases hresume
      exact safe_syscallHandler _
    next =>
      split at hresume
      · cases hresume
        exact safe_fin
      · split at hresume
        next =>
          cases hresume
          exact safe_fin
        next =>
          cases hresume
          exact safe_pageFault (Set.notMem_empty _) safe_fin
        next =>
          cases hresume
          exact safe_fin

/-- **The discipline allows an orderly step.** -/
theorem allows_of_orderly (hi : orderly st i = true) :
    lockSystem.Allows lockDiscipline st i.1 i.2 where
  good {q next a shared} hprog hrespond := by
    rw [orderly, hprog] at hi
    cases q with
    | piece piece fileLocked =>
      obtain ⟨hclean, hwell⟩ := Bool.and_eq_true_iff.mp hi
      exact good_runPiece hrespond (Bool.not_eq_true' _ ▸ hclean) hwell
    | _ => trivial
  trap {q next code shared} hprog hrespond hasks hsafe := by
    rw [orderly, hprog] at hi
    cases q with
    | read use addr =>
      exact safe_touch (Option.some.inj hrespond) (by simpa using hi) hasks hsafe
    | write use addr byte =>
      exact safe_touch (Option.some.inj hrespond) (by simpa using hi) hasks hsafe
    | piece piece fileLocked =>
      obtain ⟨hclean, hwell⟩ := Bool.and_eq_true_iff.mp hi
      exact absurd hrespond (runPiece_ne_trap (Bool.not_eq_true' _ ▸ hclean) hwell)
    | _ => nomatch hrespond
  resume _ hresume hends := safe_resume hresume hends

/-- **In a run of orderly steps, all processes keep to the order of the locks.** -/
theorem LockState.safe_of_reach
    (h : lockSystem.machine.Reach LockState.Boot (fun st i => orderly st i = true) st) :
    st.Safe lockDiscipline := by
  refine h.invariant (fun st hboot t => ?_)
    fun st i o st' hsafe hi hstep => ?_
  · rw [hboot.prog t]
    refine .inr (Set.eq_empty_of_forall_notMem fun l hl => ?_)
    exact nomatch (hboot.holder l).symm.trans hl
  · exact hsafe.step (fun _ => .inl rfl) (allows_of_orderly hi) hstep

/-- **No deadlock between `file_lock` and `frame_table_lock`.**  In every state that is reached by
orderly steps, no process asks for a lock that it holds, and no process that holds `file_lock`
waits for `frame_table_lock` while the one that holds `frame_table_lock` waits for `file_lock`. -/
theorem no_deadlock
    (h : lockSystem.machine.Reach LockState.Boot (fun st i => orderly st i = true) st) :
    (∀ t l, (st.prog t).wants = some l → st.holder l ≠ some t) ∧
      ¬ ∃ t u, st.holder .file = some t ∧ (st.prog t).wants = some .frameTable ∧
        st.holder .frameTable = some u ∧ (st.prog u).wants = some .file := by
  have hsafe := LockState.safe_of_reach h
  refine ⟨fun t l hwants hholds => ?_, ?_⟩
  · exact absurd (hsafe.rank_lt hwants hholds) (Nat.lt_irrefl _)
  · rintro ⟨t, u, -, -, hholds, hwants⟩
    exact absurd (hsafe.rank_lt hwants hholds) (by decide)

/-! ## Two processes -/

/-- No process yet, two frames, four swap slots, and files of a hundred zeros. -/
def twoFrames : LockState where
  shared := { vm := .initial 2 4 100 0, exceptionEsp := fun _ => 0 }
  holder _ := none
  prog _ := .fin .dead

theorem twoFrames_boot : twoFrames.Boot := ⟨Vm.boot_initial 2 4 100 0, fun _ => rfl, fun _ => rfl⟩

/-- Executables have no segments, and a command line of one byte.  Two bytes are read. -/
def plainChoice (event : UserEvent) : Choice where
  answer
    | .read _ _ | .key => 0
    | .write _ _ _ | .spawn _ => ()
    | .present _ | .getFile _ | .stray | .files _ => true
    | .fileLength _ | .fileWrite _ _ => 100
    | .fileRead _ _ => [0, 0]
    | .segments => ([], true)
    | .mappings _ => none
    | .arguments esp => [(esp - 1, 65)]
    | .piece _ _ => .done
  kernelByte _ := none
  ptFree := true
  file := 0
  order := []
  event := event

/-- A process does something in user mode, and then goes `n` steps on. -/
def act (t : Nat) (event : UserEvent) (n : Nat) : List (Nat × Choice) :=
  (t, plainChoice event) :: List.replicate n (t, plainChoice event)

/-- A store in user mode, at an address that is present. -/
def put (t : Nat) (addr : Word) (byte : UInt8) : List (Nat × Choice) :=
  act t (.access addr addr (some byte)) 0

/-- Two processes start.  The first maps a file below its stack, at `0xbfffe000`, and writes the
arguments of `SYS_READ` there, for two bytes to `0xbfffefff`; this evicts its stack.  The second
lets its stack grow, which evicts the page it had.  Then the first makes the call, with the mapping
as its stack: the first byte goes to a page that is present, and the second to one that is not. -/
def readCall : List (Nat × Choice) :=
  act 0 (.syscall 0) 8 ++ act 1 (.syscall 0) 8 ++
  put 0 0xbffff000#32 13 ++ put 0 0xbffff004#32 2 ++ put 0 0xbffff009#32 0xe0 ++
  put 0 0xbffff00a#32 0xff ++ put 0 0xbffff00b#32 0xbf ++ act 0 (.syscall 0xbffff000#32) 20 ++
  act 0 (.access 0xbffff000#32 0xbfffe000#32 (some 8)) 3 ++ put 0 0xbfffe000#32 8 ++
  put 0 0xbfffe004#32 2 ++ put 0 0xbfffe008#32 0xff ++ put 0 0xbfffe009#32 0xef ++
  put 0 0xbfffe00a#32 0xff ++ put 0 0xbfffe00b#32 0xbf ++ put 0 0xbfffe00c#32 2 ++
  act 1 (.access 0xbfffe000#32 0xbfffe000#32 none) 3 ++ act 0 (.syscall 0xbfffe000#32) 33

/-- Then the second touches the page that it had first. -/
def readThenFault : List (Nat × Choice) :=
  readCall ++ act 1 (.access 0xbfffe000#32 0xbffff000#32 none) 2

theorem no_deadlock_readCall :
    ∃ st : LockState,
      lockSystem.machine.Reach LockState.Boot (fun st i => orderly st i = true) st ∧
        (st.holder .file = some 0 ∧ (st.prog 0).wants = some .frameTable) ∧
        (∀ t l, (st.prog t).wants = some l → st.holder l ≠ some t) ∧
        ¬ ∃ t u, st.holder .file = some t ∧ (st.prog t).wants = some .frameTable ∧
          st.holder .frameTable = some u ∧ (st.prog u).wants = some .file := by
  have hrun : (lockSystem.machine.run twoFrames readCall).map
      (fun r => (r.2.holder .file, (r.2.prog 0).wants)) = some (some 0, some .frameTable) := by
    decide +kernel
  obtain ⟨⟨os, st⟩, hrun, hobs⟩ := Option.map_eq_some_iff.mp hrun
  have halong : lockSystem.machine.Along (fun st i => orderly st i = true) twoFrames readCall := by
    decide +kernel
  have hreach := Machine.Reach.of_run (.init twoFrames_boot) halong hrun
  exact ⟨st, hreach, Prod.ext_iff.mp hobs, no_deadlock hreach⟩

/-- **Two processes wait for each other**: `frame_evict` finds the mapped page, which is dirty, and
asks for `file_lock` with `frame_table_lock` held. -/
theorem locks_deadlock :
    ∃ st : LockState, lockSystem.machine.Reach LockState.Boot (fun _ _ => True) st ∧
      st.holder .file = some 0 ∧ (st.prog 0).wants = some .frameTable ∧
      st.holder .frameTable = some 1 ∧ (st.prog 1).wants = some .file := by
  have hrun : (lockSystem.machine.run twoFrames readThenFault).map
      (fun r => (r.2.holder .file, (r.2.prog 0).wants, r.2.holder .frameTable,
        (r.2.prog 1).wants)) = some (some 0, some .frameTable, some 1, some .file) := by
    decide +kernel
  obtain ⟨⟨os, st⟩, hrun, hobs⟩ := Option.map_eq_some_iff.mp hrun
  obtain ⟨hfile, hobs⟩ := Prod.ext_iff.mp hobs
  obtain ⟨hwants, hobs⟩ := Prod.ext_iff.mp hobs
  obtain ⟨hframe, hwants'⟩ := Prod.ext_iff.mp hobs
  exact ⟨st, Machine.Reach.of_run (.init twoFrames_boot)
    (Machine.Along.of_forall (fun _ _ _ => trivial) _) hrun, hfile, hwants, hframe, hwants'⟩

end Pintos
