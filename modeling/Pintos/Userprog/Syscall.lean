import Pintos.Lib.Locks
import Pintos.Lib.Strings

/-!
# System calls

`syscall_handler` of `userprog/syscall.c`, with the code that it runs while it can touch the memory
of the process or holds `file_lock` or `frame_table_lock`: the copying of names in
`filesys/filesys.c` and `filesys/directory.c`, the ends of `file_read` and `file_write` where bytes
are copied, `process_execute`, `load` and `process_exit` of `userprog/process.c`, and `page_fault`
of `userprog/exception.c`.

Each is a program (`Locks.Prog`) that takes the two locks and asks questions: for a byte at an
address of the process, which a page fault may have to bring in or may end the process for; whether
a page is present; what the file system and the page tables make of a call.  What runs under
`frame_table_lock` is a `Piece`; where it writes a dirty page of a mapped file back, it takes
`file_lock` as well.

* `Kernel.syscallHandler`: the handler, from the stack pointer of the process.
* `Kernel.pageFault`: the handler of a page fault, in front of the access that is tried again.
* `Kernel.load` and `Kernel.processExit`: the start and the end of a process.

A pointer that is null and is followed reads address 0.  What the file system does with a name, or
with an open file, is an answer: it touches no memory of the process.
-/

namespace Pintos

/-- A machine word, or an address. -/
abbrev Word : Type := BitVec 32

/-- The address `PHYS_BASE`. -/
abbrev physBaseAddr : Word := 0xc0000000#32

/-- The number of the page of an address. -/
def pageNo (addr : Word) : Nat := addr.toNat / 4096

/-- `file_lock` and `frame_table_lock`. -/
inductive KernelLock
  | file | frameTable
deriving DecidableEq, Repr

/-- What the kernel accesses a byte of the address space for. -/
inductive AccessUse
  /-- A word of the stack: the number of the call, or an argument. -/
  | argument
  /-- A `struct open_file`. -/
  | pointer
  /-- A string that is passed by its address. -/
  | string
  /-- A buffer that is passed by its address. -/
  | buffer
deriving DecidableEq, Repr

/-- A call of the file system. -/
inductive NameCall
  | open (name : List UInt8)
  | create (name : List UInt8) (initialSize : Word) (isDir : Bool)
  | remove (name : List UInt8)
  | pathParsing (path : List UInt8)
  | dirCheck (fd : Word)
  | readdir (fd : Word)
deriving DecidableEq, Repr

/-- A page of a segment, as `load_segment` inserts it. -/
structure SegmentPage where
  file : Nat
  fileOfs : Nat
  upage : Nat
  /-- How many of its bytes come from the file. -/
  readBytes : Nat
  /-- Whether the process may write to it. -/
  writable : Bool
deriving DecidableEq, Repr

/-- A piece of code that runs under `frame_table_lock`. -/
inductive Piece
  /-- The rest of `page_fault`, at a page that is not present; `growth` says whether the address is
  one to which the stack may grow. -/
  | fault (upage : Nat) (growth : Bool)
  /-- One round of `load_segment`. -/
  | loadPage (page : SegmentPage)
  /-- `setup_stack`. -/
  | setupStack
  /-- The loop of `SYS_MMAP`. -/
  | mmap (fd addr : Word)
  /-- One entry of the list in `SYS_MUNMAP`. -/
  | munmapEntry (id : Word) (entry : Nat)
  /-- `page_table_remove`. -/
  | exit
deriving DecidableEq, Repr

/-- How a piece ends. -/
inductive PieceEnd
  | done
  | failed
  /-- It comes to a dirty page of a mapped file, and takes `file_lock` to write the page back. -/
  | dirty
  /-- A page could not be read from its file.  If all of it comes from there, `page_fault` gives
  `file_lock` back. -/
  | short (whole : Bool)
deriving DecidableEq, Repr

/-- What a program asks for. -/
inductive Question
  /-- A byte at an address. -/
  | read (use : AccessUse) (addr : Word)
  /-- The store of a byte. -/
  | write (use : AccessUse) (addr : Word) (byte : UInt8)
  /-- Whether `pagedir_get_page` finds a page. -/
  | present (addr : Word)
  /-- Whether `get_file_by_fd` finds a file. -/
  | getFile (fd : Word)
  /-- Whether a call goes on that has followed what stands at address 0. -/
  | stray
  /-- The length of an open file. -/
  | fileLength (fd : Word)
  /-- The bytes that `file_read` copies into the buffer. -/
  | fileRead (fd size : Word)
  /-- The number of bytes that `file_write` copies out of the buffer. -/
  | fileWrite (fd size : Word)
  /-- A call of the file system. -/
  | files (call : NameCall)
  /-- A key, from `input_getc`. -/
  | key
  /-- `thread_create`, for a command line. -/
  | spawn (command : List UInt8)
  /-- The pages of the segments that `load` inserts, and whether it gets to `setup_stack`. -/
  | segments
  /-- The entries of a mapping, if there is any mapping. -/
  | mappings (id : Word)
  /-- The bytes of the command line and where `setup_stack` pushes them, from a stack pointer on. -/
  | arguments (esp : Word)
  /-- A piece of code that runs under `frame_table_lock`, and `file_lock` if it has taken that. -/
  | piece (piece : Piece) (fileLocked : Bool)
deriving DecidableEq, Repr

/-- The answers. -/
abbrev Answer : Question → Type
  | .read _ _ | .key => UInt8
  | .write _ _ _ | .spawn _ => Unit
  | .present _ | .getFile _ | .stray | .files _ => Bool
  | .fileLength _ | .fileWrite _ _ => Nat
  | .fileRead _ _ => List UInt8
  | .segments => List SegmentPage × Bool
  | .mappings _ => Option (List Nat)
  | .arguments _ => List (Word × UInt8)
  | .piece _ _ => PieceEnd

/-- How a program ends. -/
inductive Ending
  /-- The process goes on in user mode. -/
  | user
  /-- `exit_process`, or `thread_exit`. -/
  | exit (status : Word)
  /-- The machine is turned off or an assertion fails, or a loop does not end. -/
  | stop
  /-- The process is gone. -/
  | dead
deriving DecidableEq, Repr

/-- A program of the kernel. -/
abbrev Code : Type := Locks.Prog KernelLock Question Ending Answer

namespace Kernel

/-! ## Memory of the process -/

/-- The word that four bytes make. -/
def wordOf (b₀ b₁ b₂ b₃ : UInt8) : Word :=
  b₃.toBitVec ++ b₂.toBitVec ++ b₁.toBitVec ++ b₀.toBitVec

/-- Read a word. -/
def readWord (addr : Word) (next : Word → Code) : Code :=
  .ask (.read .argument addr) fun b₀ =>
  .ask (.read .argument (addr + 1)) fun b₁ =>
  .ask (.read .argument (addr + 2)) fun b₂ =>
  .ask (.read .argument (addr + 3)) fun b₃ => next (wordOf b₀ b₁ b₂ b₃)

/-- `exit_process`. -/
abbrev exitProcess (status : Word) : Code := .fin (.exit status)

/-- `is_user_vaddr`. -/
abbrev isUserVaddr (addr : Word) : Prop := addr < physBaseAddr

/-- `check_address`. -/
def checkAddress (addr : Word) (next : Code) : Code :=
  if addr = 0 then exitProcess (-1)
  else if ¬ isUserVaddr addr then exitProcess (-1)
  else .ask (.present addr) fun mappingCheck =>
    if mappingCheck then next
    else .ask (.present addr) fun mappingCheck => if mappingCheck then next else exitProcess (-1)

/-- Read bytes of a buffer. -/
def readBytes : Nat → Word → Code → Code
  | 0, _, next => next
  | n + 1, buffer, next => .ask (.read .buffer buffer) fun _ => readBytes n (buffer + 1) next

/-- Write bytes to a buffer. -/
def writeBytes : List UInt8 → Word → Code → Code
  | [], _, next => next
  | b :: data, buffer, next =>
    .ask (.write .buffer buffer b) fun _ => writeBytes data (buffer + 1) next

/-! ## Strings of the process -/

/-- The loop of `strlen`.  A string that fills the address space has no end. -/
def strlenLoop : Nat → Word → Nat → (Nat → Code) → Code
  | 0, _, _, _ => .fin .stop
  | fuel + 1, p, len, next =>
    .ask (.read .string p) fun b =>
      if b = 0 then next len else strlenLoop fuel (p + 1) (len + 1) next

/-- `strlen`. -/
def strlen (string : Word) (next : Nat → Code) : Code :=
  if string = 0 then .fin .stop else strlenLoop (2 ^ 32) string 0 next

/-- `memcpy`, into the memory of the kernel. -/
def memcpy : Word → Nat → (List UInt8 → Code) → Code
  | _, 0, next => next []
  | src, size + 1, next =>
    .ask (.read .string src) fun b => memcpy (src + 1) size fun data => next (b :: data)

/-- `strlcpy`, into the memory of the kernel. -/
def strlcpy (src : Word) (size : Nat) (next : List UInt8 → Code) : Code :=
  strlen src fun srcLen => if size > 0 then memcpy src (min srcLen (size - 1)) next else next []

/-- The copies of a name that `filesys_create`, `filesys_open` and `filesys_remove` make.  A name
that is empty is not copied. -/
def copyName (name : Word) (next : List UInt8 → Code) : Code :=
  strlen name fun inputLen =>
    if inputLen = 0 then next []
    else strlcpy name (inputLen + 1) fun tempName =>
      match CString.strrchr tempName 47 with
      | none => next tempName
      | some pathLen => strlcpy name (pathLen + 1) fun _ => next tempName

/-- `filesys_open`. -/
def filesysOpen (name : Word) (next : Bool → Code) : Code :=
  if name = 0 then .fin .stop
  else copyName name fun tempName =>
    if tempName = [] then next false else .ask (.files (.open tempName)) next

/-- `filesys_create`, which measures the name once more. -/
def filesysCreate (name initialSize : Word) (isDir : Bool) (next : Bool → Code) : Code :=
  if name = 0 then .fin .stop
  else strlen name fun len =>
    if len = 0 then next false
    else copyName name fun tempName =>
      .ask (.files (.create tempName initialSize isDir)) next

/-- `filesys_remove`. -/
def filesysRemove (name : Word) (next : Bool → Code) : Code :=
  if name = 0 then next false
  else copyName name fun tempName =>
    if tempName = [] then next false else .ask (.files (.remove tempName)) next

/-- `path_parsing`. -/
def pathParsing (path : Word) (next : Bool → Code) : Code :=
  strlen path fun _ => strlen path fun len => strlcpy path (len + 1) fun tempPath =>
    .ask (.files (.pathParsing tempPath)) next

/-! ## Locks -/

/-- A piece of code that holds `frame_table_lock`, and `file_lock` where it writes to a file. -/
def locked (piece : Piece) (next : PieceEnd → Code) : Code :=
  .ask (.piece piece false) fun e =>
    if e = .dirty then .acquire .file <| .ask (.piece piece true) fun e => .release .file (next e)
    else next e

/-- `page_fault`, at a user page that is not present: `retry` is the access that caused it. -/
def pageFault (upage : Nat) (growth : Bool) (retry : Code) : Code :=
  .acquire .frameTable <| locked (.fault upage growth) fun e => .release .frameTable <|
    match e with
    | .done | .dirty => retry
    | .failed => exitProcess (-1)
    | .short whole => if whole then .release .file retry else retry

/-! ## System calls -/

/-- The number of a system call. -/
inductive Syscall
  | halt | exit | exec | wait | create | remove | open | filesize | read | write | seek | tell
  | close | mmap | munmap | chdir | mkdir | readdir | isdir | inumber
deriving DecidableEq, Repr

/-- The numbers, in their order. -/
def Syscall.all : List Syscall :=
  [.halt, .exit, .exec, .wait, .create, .remove, .open, .filesize, .read, .write, .seek, .tell,
    .close, .mmap, .munmap, .chdir, .mkdir, .readdir, .isdir, .inumber]

/-- The system call with a number. -/
def Syscall.ofNumber (n : Word) : Option Syscall := Syscall.all[n.toNat]?

/-- The return to the process. -/
abbrev ret : Code := .fin .user

/-- Follow the pointer that `get_file_by_fd` returns.  If it is null and the process has a page at
address 0, what stands there is taken for the pointer to a file. -/
def fileOf (fd : Word) (next : Code) : Code :=
  .ask (.getFile fd) fun found =>
    if found then next
    else .ask (.read .pointer 0) fun _ => .ask .stray fun goesOn =>
      if goesOn then next else .fin .stop

/-- `process_execute`. -/
def processExecute (fileName : Word) (next : Code) : Code :=
  strlen fileName fun _ => strlen fileName fun len => strlcpy fileName (len + 1) fun _ =>
  strlcpy fileName 4096 fun command => .ask (.spawn command) fun _ => next

/-- `SYS_EXEC`. -/
def sysExec (p : Word) : Code :=
  checkAddress (p + 4) <| readWord (p + 4) fun arg => checkAddress arg <|
  .acquire .file <| readWord (p + 4) fun filename =>
  strlen filename fun _ => strlen filename fun len => strlcpy filename (len + 1) fun name =>
  match CString.strtokR [32] name with
  | none => .fin .stop
  | some (restoreName, _) =>
    .ask (.files (.open restoreName)) fun opened => .release .file <|
      if opened then processExecute filename ret else ret

/-- `SYS_CREATE`. -/
def sysCreate (p : Word) : Code :=
  readWord (p + 4) fun arg => checkAddress arg <| checkAddress (p + 8) <|
  .acquire .file <| readWord (p + 4) fun newFile => readWord (p + 8) fun newInitialSize =>
  filesysCreate newFile newInitialSize false fun _ => .release .file ret

/-- `SYS_REMOVE`. -/
def sysRemove (p : Word) : Code :=
  checkAddress (p + 4) <| readWord (p + 4) fun filename =>
  .acquire .file <| filesysRemove filename fun _ => .release .file ret

/-- `SYS_OPEN`. -/
def sysOpen (p : Word) : Code :=
  readWord (p + 4) fun arg => checkAddress arg <|
  .acquire .file <| readWord (p + 4) fun fileName =>
  filesysOpen fileName fun _ => .release .file ret

/-- `SYS_FILESIZE` and `SYS_TELL`. -/
def sysFileOf (p : Word) : Code :=
  checkAddress (p + 4) <|
  .acquire .file <| readWord (p + 4) fun fd => fileOf fd <| .release .file ret

/-- The loop of `SYS_READ` over the keys, which it stores as words. -/
def readKeys : Nat → Word → Code → Code
  | 0, _, next => next
  | n + 1, readBuffer, next =>
    .ask .key fun key => writeBytes [key, 0, 0, 0] readBuffer (readKeys n (readBuffer + 4) next)

/-- `SYS_READ`. -/
def sysRead (p : Word) : Code :=
  readWord (p + 8) fun buffer => checkAddress (p + 4) <|
  readWord (p + 8) fun arg => checkAddress arg <| checkAddress (p + 12) <|
  readWord (p + 4) fun readFd => readWord (p + 8) fun readBuffer =>
  readWord (p + 12) fun readSize =>
  if readFd = 0 then readKeys readSize.toNat readBuffer ret
  else .ask (.getFile readFd) fun found =>
    if ¬ found then ret
    else if ¬ isUserVaddr buffer then ret
    else .acquire .file <| .ask (.fileRead readFd readSize) fun data =>
      writeBytes data buffer <| .release .file ret

/-- `SYS_WRITE`. -/
def sysWrite (p : Word) : Code :=
  checkAddress (p + 4) <| checkAddress (p + 12) <|
  readWord (p + 8) fun arg => checkAddress arg <|
  readWord (p + 12) fun writeSize => readWord (p + 4) fun fd =>
  if fd = 1 then
    readWord (p + 8) fun buffer => readWord (p + 12) fun size => readBytes size.toNat buffer ret
  else .ask (.getFile fd) fun found =>
    if ¬ found then ret
    else .acquire .file <| readWord (p + 8) fun buffer =>
      .ask (.fileWrite fd writeSize) fun cnt => readBytes cnt buffer <| .release .file ret

/-- `SYS_SEEK`. -/
def sysSeek (p : Word) : Code :=
  checkAddress (p + 4) <| checkAddress (p + 8) <|
  .acquire .file <| readWord (p + 4) fun fd => fileOf fd <|
  readWord (p + 8) fun _ => .release .file ret

/-- `SYS_CLOSE`. -/
def sysClose (p : Word) : Code :=
  checkAddress (p + 4) <| .acquire .file <| readWord (p + 4) fun _ => .release .file ret

/-- `SYS_MMAP`. -/
def sysMmap (p : Word) : Code :=
  checkAddress (p + 4) <| checkAddress (p + 8) <|
  readWord (p + 4) fun fd => readWord (p + 8) fun addr =>
  if addr = 0 then ret
  else if addr.toNat % 4096 ≠ 0 then ret
  else if fd = 0 ∨ fd = 1 then ret
  else fileOf fd <| .ask (.fileLength fd) fun readBytes =>
    if readBytes = 0 then ret
    else .acquire .frameTable <| .ask (.piece (.mmap fd addr) false) fun _ =>
      .release .frameTable ret

/-- The loop of `SYS_MUNMAP`. -/
def munmapLoop (id : Word) : List Nat → Code → Code
  | [], next => next
  | entry :: entries, next => locked (.munmapEntry id entry) fun _ => munmapLoop id entries next

/-- `SYS_MUNMAP`, which asks for the front of a list that must not be empty. -/
def sysMunmap (p : Word) : Code :=
  checkAddress (p + 4) <| readWord (p + 4) fun munmapId =>
  .acquire .frameTable <| .ask (.mappings munmapId) fun entries =>
    match entries with
    | none => .fin .stop
    | some entries => munmapLoop munmapId entries <| .release .frameTable ret

/-- `SYS_CHDIR`. -/
def sysChdir (p : Word) : Code :=
  checkAddress (p + 4) <| readWord (p + 4) fun path => pathParsing path fun _ => ret

/-- `SYS_MKDIR`. -/
def sysMkdir (p : Word) : Code :=
  checkAddress (p + 4) <| readWord (p + 4) fun newDir =>
  .acquire .file <| filesysCreate newDir 0 true fun _ => .release .file ret

/-- `SYS_READDIR`, which checks no address. -/
def sysReaddir (p : Word) : Code :=
  readWord (p + 4) fun fd => readWord (p + 8) fun name =>
  strlen name fun len => memcpy name len fun _ => fileOf fd <|
  .ask (.files (.dirCheck fd)) fun dirCheck =>
    if ¬ dirCheck then ret
    else .acquire .file <| .ask (.files (.readdir fd)) fun _ => .release .file ret

/-- `SYS_ISDIR`. -/
def sysIsdir (p : Word) : Code :=
  checkAddress (p + 4) <| readWord (p + 4) fun fd => fileOf fd ret

/-- `SYS_INUMBER`. -/
def sysInumber (p : Word) : Code :=
  checkAddress (p + 4) <| readWord (p + 4) fun fd =>
  .ask (.getFile fd) fun found => if found then ret else .fin .stop

/-- What `syscall_handler` does for a system call, with the stack pointer `p`. -/
def syscall (p : Word) : Syscall → Code
  | .halt => .fin .stop
  | .exit => checkAddress (p + 4) <| readWord (p + 4) exitProcess
  | .exec => sysExec p
  | .wait => checkAddress (p + 4) <| readWord (p + 4) fun _ => ret
  | .create => sysCreate p
  | .remove => sysRemove p
  | .open => sysOpen p
  | .filesize | .tell => sysFileOf p
  | .read => sysRead p
  | .write => sysWrite p
  | .seek => sysSeek p
  | .close => sysClose p
  | .mmap => sysMmap p
  | .munmap => sysMunmap p
  | .chdir => sysChdir p
  | .mkdir => sysMkdir p
  | .readdir => sysReaddir p
  | .isdir => sysIsdir p
  | .inumber => sysInumber p

/-- `syscall_handler`. -/
def syscallHandler (p : Word) : Code :=
  checkAddress p <| readWord p fun number =>
    match Syscall.ofNumber number with
    | none => ret
    | some call => syscall p call

/-! ## The start and the end of a process -/

/-- `load_segment`, for the pages of all segments. -/
def loadSegments : List SegmentPage → Code → Code
  | [], next => next
  | page :: pages, next =>
    .acquire .frameTable <| .ask (.piece (.loadPage page) false) fun _ =>
      .release .frameTable <| loadSegments pages next

/-- The end of `setup_stack`, which pushes the command line. -/
def pushArguments : List (Word × UInt8) → Code → Code
  | [], next => next
  | (addr, byte) :: bytes, next =>
    .ask (.write .argument addr byte) fun _ => pushArguments bytes next

/-- `start_process`, with `load`.  If there is no page for the stack, the command line is pushed all
the same, from a stack pointer that is null. -/
def load : Code :=
  .acquire .file <| .ask .segments fun (pages, complete) => loadSegments pages <|
    if complete then
      .acquire .frameTable <| locked .setupStack fun e => .release .frameTable <|
        .ask (.arguments (if e = .done then physBaseAddr else 0)) fun bytes =>
          pushArguments bytes <| .release .file <| if e = .done then ret else exitProcess (-1)
    else .release .file <| exitProcess (-1)

/-- `process_exit`. -/
def processExit : Code :=
  .acquire .file <| .release .file <| .acquire .frameTable <| .ask (.piece .exit false) fun _ =>
    .release .frameTable <| .fin .dead

end Kernel

end Pintos
