import Mathlib.Data.List.AList
import Pintos.Kernel.Bitmap
import Pintos.Lib.Bytes
import Pintos.Lib.Machine

/-!
# Virtual memory

The pages of user processes: `vm/frame.c`, `vm/page.c` and `vm/swap.c`, with the parts of
`userprog/exception.c`, `userprog/syscall.c`, `userprog/process.c` and `userprog/pagedir.c` that
call them, as a machine that makes one step for each piece of code that runs under
`frame_table_lock`, and one for each store of a user process.

* A page is named by its number.  User pages come below `physBase`; the frames of the user pool are
  kernel pages from `poolBase` on.
* A process has its page directory and its supplemental page table, which holds pointers to the
  entries: an entry that has left the table can still be in the list of mapped files.  A process
  that has exited is gone, and its number may be used again for another one, as the memory of its
  `struct thread` may.
* `Vm.frameEvict` runs in the process that has asked for the frame.  The page it writes back to a
  file is read through a user address, in the address space of that process.
* A page table page comes from the kernel pool.  Whether there is one left is an input of a step.

A step that fails an assertion or follows a pointer to nothing ends with a `Stop`.  `Vm.saved` is a
history that no function reads: what a page held when it was last written to the swap disk.
-/

namespace Pintos

open Bytes (Block)
open Function (update)

/-- `PGSIZE`. -/
abbrev pgsize : Nat := 4096

/-- The number of the first kernel page, from `PHYS_BASE`. -/
abbrev physBase : Nat := 0xc0000

/-- The contents of a page. -/
abbrev Page : Type := Block pgsize

/-- `MAP_FAILED`. -/
abbrev mapFailed : Int := -1

/-! ## States -/

/-- A page table entry. -/
structure Pte where
  kpage : Nat
  writable : Bool
  present : Bool
  dirty : Bool
deriving DecidableEq, Repr

/-- `struct sup_pte`. -/
structure SupPte where
  /-- The file the page comes from, if it comes from one. -/
  file : Option Nat
  upage : Nat
  /-- How many of its bytes come from the file. -/
  readBytes : Nat
  zeroBytes : Nat
  /-- Whether the process may write to it. -/
  writable : Bool
  /-- Where its bytes are in the file. -/
  fileOfs : Nat
  swapped : Bool
  loaded : Bool
  swapIndex : Nat
  mmapId : Int
deriving DecidableEq, Repr

/-- What a `struct thread` has for the pages of its process. -/
structure Process where
  /-- The entries of its page tables that have been set. -/
  pagedir : AList fun _ : Nat => Pte
  /-- The supplemental page table: for each page, a pointer to its entry. -/
  supPageTable : AList fun _ : Nat => Nat
  /-- The entries of its mapped files. -/
  mmapList : List Nat
  /-- The number of its next mapping, which counts up from zero. -/
  mmapCount : Nat
  loading : Bool

/-- `struct fte`. -/
structure Fte where
  originThread : Nat
  upage : Nat
  kpage : Nat
deriving DecidableEq, Repr

/-- A file, as `file_read_at` and `file_write_at` see it. -/
structure MappedFile where
  length : Nat
  bytes : Nat → UInt8
  isDir : Bool
  /-- How often writes to it have been denied. -/
  denyWriteCnt : Nat

/-- The state of virtual memory. -/
structure Vm where
  process : Nat → Option Process
  /-- The supplemental page table entries, by their addresses. -/
  spte : Nat → SupPte
  nextSpte : Nat
  frameTable : List Fte
  /-- The `used_map` of the user pool. -/
  userPool : Bitmap
  /-- The first page of the user pool. -/
  poolBase : Nat
  mem : Nat → Page
  swapTable : Bitmap
  swapDisk : Nat → Block 512
  file : Nat → MappedFile
  /-- History: what a page held when it was last written to the swap disk. -/
  saved : Nat → Page

/-- Why a step does not return. -/
inductive Stop
  /-- An assertion fails. -/
  | assertion
  /-- The assertion of `swap_set` fails. -/
  | swapSet
  /-- A null pointer, or one to a thread that is gone, is followed. -/
  | pointer
  /-- The kernel reads a user page that is not present while it holds `frame_table_lock`. -/
  | nestedFault
deriving DecidableEq, Repr

namespace Vm

/-! ## Page directories and supplemental page tables -/

/-- The page table entry of a page. -/
def pte (st : Vm) (t upage : Nat) : Option Pte :=
  (st.process t).bind fun p => p.pagedir.lookup upage

/-- Change a process. -/
def modifyProcess (st : Vm) (t : Nat) (f : Process → Process) : Vm :=
  { st with process := update st.process t ((st.process t).map f) }

/-- Change a page table entry, if it is there. -/
def modifyPte (st : Vm) (t upage : Nat) (f : Pte → Pte) : Vm :=
  st.modifyProcess t fun p =>
    { p with pagedir := (p.pagedir.lookup upage).elim p.pagedir fun e =>
        p.pagedir.insert upage (f e) }

/-- `pagedir_get_page`. -/
def getPage (st : Vm) (t upage : Nat) : Option Nat :=
  (st.pte t upage).bind fun e => if e.present then some e.kpage else none

/-- `pagedir_is_dirty`. -/
def isDirty (st : Vm) (t upage : Nat) : Bool := (st.pte t upage).any (·.dirty)

/-- `pagedir_clear_page`, which leaves the other bits. -/
def clearPage (st : Vm) (t upage : Nat) : Vm :=
  st.modifyPte t upage fun e => { e with present := false }

/-- `pagedir_set_dirty`. -/
def setDirty (st : Vm) (t upage : Nat) : Vm :=
  st.modifyPte t upage fun e => { e with dirty := true }

/-- There is a page table for the page.  One is made when the first of its entries is set, and none
is given up before the process exits. -/
def hasPageTable (st : Vm) (t upage : Nat) : Bool :=
  (st.process t).any fun p => p.pagedir.keys.any fun u => u / 1024 == upage / 1024

/-- `pagedir_set_page`; `ptFree` says whether a page table page can be had. -/
def setPage (st : Vm) (t upage kpage : Nat) (writable ptFree : Bool) : Except Stop (Bool × Vm) :=
  if (st.getPage t upage).isSome then .error .assertion
  else if st.hasPageTable t upage || ptFree then
    .ok (true, st.modifyProcess t fun p =>
      { p with pagedir := p.pagedir.insert upage ⟨kpage, writable, true, false⟩ })
  else .ok (false, st)

/-- `get_sup_pte`. -/
def getSupPte (st : Vm) (t upage : Nat) : Option Nat :=
  (st.process t).bind fun p => p.supPageTable.lookup upage

/-- Change a supplemental page table entry. -/
def modifySpte (st : Vm) (e : Nat) (f : SupPte → SupPte) : Vm :=
  { st with spte := update st.spte e (f (st.spte e)) }

/-- `page_insert`, of an entry whose last fields it sets. -/
def pageInsert (st : Vm) (t : Nat) (file : Option Nat) (fileOfs upage readBytes zeroBytes : Nat)
    (writable : Bool) : Bool × Vm :=
  match st.getSupPte t upage with
  | some _ => (false, st)
  | none =>
    let e := st.nextSpte
    let st := st.modifySpte e fun _ =>
      ⟨file, upage, readBytes, zeroBytes, writable, fileOfs, false, true, 0, mapFailed⟩
    (true, { st.modifyProcess t fun p =>
      { p with supPageTable := p.supPageTable.insert upage e } with nextSpte := e + 1 })

/-- `page_remove`, which does not free the entry. -/
def pageRemove (st : Vm) (t upage : Nat) : Vm :=
  st.modifyProcess t fun p => { p with supPageTable := p.supPageTable.erase upage }

/-! ## Frames -/

/-- Copy bytes to a frame. -/
def writeMem (st : Vm) (kpage ofs : Nat) (src : List UInt8) : Vm :=
  { st with mem := update st.mem kpage ((st.mem kpage).write ofs src) }

/-- `palloc_get_page`, from the user pool. -/
def pallocGetPage (st : Vm) (zero : Bool) : Option (Nat × Vm) :=
  (st.userPool.scanAndFlip 0 1 false).map fun (idx, usedMap) =>
    let kpage := st.poolBase + idx
    (kpage, { st with
      userPool := usedMap
      mem := if zero then update st.mem kpage (.fill pgsize 0) else st.mem })

/-- `palloc_free_page`, of a page of the user pool. -/
def pallocFreePage (st : Vm) (kpage : Nat) : Except Stop Vm :=
  if st.poolBase ≤ kpage ∧ st.userPool.bits (kpage - st.poolBase) then
    .ok { st with
      userPool := st.userPool.setMultiple (kpage - st.poolBase) 1 false
      mem := update st.mem kpage (.fill pgsize 0xcc) }
  else .error .assertion

/-- `frame_free`, which compares its argument with the frames. -/
def frameFree (st : Vm) (upage : Nat) : Except Stop Vm :=
  match st.frameTable.find? (·.kpage = upage) with
  | none => .ok st
  | some fte => do
    let st ← st.pallocFreePage fte.kpage
    return { st with frameTable := st.frameTable.eraseP (·.kpage = upage) }

/-! ## The swap disk -/

/-- The sector `c` of a page. -/
def sectorOf (page : Page) (c : Nat) : Block 512 := fun i => page.get (c * 512 + i)

/-- `swap_out`. -/
def swapOut (st : Vm) (kpage : Nat) : Except Stop (Nat × Vm) :=
  match st.swapTable.scanAndFlip 0 1 false with
  | none => .error .assertion
  | some (swapIdx, swapTable) =>
    .ok (swapIdx, { st with
      swapTable := swapTable
      swapDisk := (List.range (pgsize / 512)).foldl (fun disk sectorCnt =>
        update disk (swapIdx * pgsize / 512 + sectorCnt)
          (sectorOf (st.mem kpage) sectorCnt)) st.swapDisk })

/-- `swap_in`. -/
def swapIn (st : Vm) (swapIdx kpage : Nat) : Vm :=
  { st with
    swapTable := st.swapTable.setMultiple swapIdx 1 false
    mem := update st.mem kpage
      ((List.range (pgsize / 512)).foldl (fun page sectorCnt =>
        page.write (sectorCnt * 512)
          ((st.swapDisk (swapIdx * pgsize / 512 + sectorCnt)).read 0 512)) (st.mem kpage)) }

/-- `swap_set`, which is only called with `false`. -/
def swapSet (st : Vm) (swapIdx : Nat) : Except Stop Vm :=
  if st.swapTable.bits swapIdx then
    .ok { st with swapTable := st.swapTable.setMultiple swapIdx 1 false }
  else .error .swapSet

/-! ## Files -/

/-- `file_read_at` begins past the end, and `inode_read_at` asks for a sector that is not there. -/
def startsPastEnd (st : Vm) (f size fileOfs : Nat) : Bool :=
  0 < size && (st.file f).length < fileOfs

/-- `file_read_at`, from a place in the file or at its end: the bytes that are read. -/
def fileReadAt (st : Vm) (f size fileOfs : Nat) : List UInt8 :=
  (List.range (min size ((st.file f).length - fileOfs))).map fun i =>
    (st.file f).bytes (fileOfs + i)

/-- The file refuses what `file_write_at` writes. -/
def refuses (st : Vm) (f : Nat) : Bool := (st.file f).isDir || (st.file f).denyWriteCnt > 0

/-- Put bytes into a file, which grows if they go past its end. -/
def putBytes (st : Vm) (f : Nat) (src : List UInt8) (fileOfs : Nat) : Vm :=
  let old := st.file f
  { st with file := update st.file f { old with
      length := max old.length (fileOfs + src.length)
      bytes := fun i =>
        if fileOfs ≤ i ∧ i < fileOfs + src.length then src.getD (i - fileOfs) 0
        else if i < old.length then old.bytes i else 0 } }

/-- `file_write_at`, of a page that the process `t` reads through its user address. -/
def writeBack (st : Vm) (t e : Nat) : Except Stop Vm :=
  let spte := st.spte e
  match spte.file with
  | none => .error .pointer
  | some f =>
    if st.refuses f then .ok st
    else
      match st.getPage t spte.upage with
      | none => .error .nestedFault
      | some kpage => .ok (st.putBytes f ((st.mem kpage).read 0 spte.readBytes) spte.fileOfs)

/-- Write a page back if it is dirty. -/
def writeBackIf (st : Vm) (t e : Nat) (isDirty : Bool) : Except Stop Vm :=
  if isDirty then st.writeBack t e else .ok st

/-! ## Eviction and allocation -/

/-- What `frame_evict` does with the contents of the page, in the process `t`. -/
def evictContents (st : Vm) (t e kpage : Nat) (isDirty : Bool) : Except Stop Vm :=
  if (st.spte e).mmapId = mapFailed then
    if isDirty then
      if (st.spte e).loaded then do
        let (swapIdx, st) ← st.swapOut kpage
        let st := { st with saved := update st.saved e (st.mem kpage) }
        return st.modifySpte e fun s => { s with swapped := true, swapIndex := swapIdx }
      else .error .assertion
    else .ok (st.modifySpte e fun s => { s with loaded := false })
  else do
    let st ← st.writeBackIf t e isDirty
    return st.modifySpte e fun s => { s with loaded := false }

/-- `frame_evict`, in the process `t`, up to its call of `palloc_get_page`.  It is one step here.  In
the source the owner of the page may run in the middle of it, and store (`Vm.lateStore`). -/
def frameEvict (st : Vm) (t : Nat) : Except Stop Vm :=
  match st.frameTable with
  | [] => .error .pointer
  | fte :: rest =>
    match st.getSupPte fte.originThread fte.upage with
    | none => .error .pointer
    | some e => do
      let st ← st.evictContents t e fte.kpage (st.isDirty fte.originThread fte.upage)
      let st ← (st.clearPage fte.originThread fte.upage).pallocFreePage fte.kpage
      return { st with frameTable := rest }

/-- Enter a frame into the frame table. -/
def enter (st : Vm) (t upage kpage : Nat) : Vm :=
  { st with frameTable := st.frameTable ++ [⟨t, upage, kpage⟩] }

/-- `frame_alloc`.  After an eviction there is a free page. -/
def frameAlloc (st : Vm) (t upage : Nat) (zero : Bool) : Except Stop (Nat × Vm) :=
  match st.pallocGetPage zero with
  | some (kpage, st) => .ok (kpage, st.enter t upage kpage)
  | none => do
    let st ← st.frameEvict t
    match st.pallocGetPage zero with
    | some (kpage, st) => return (kpage, st.enter t upage kpage)
    | none => .error .pointer

/-! ## Page faults -/

/-- The stack grows by a page. -/
def growStack (st : Vm) (t upage : Nat) (ptFree : Bool) : Except Stop Vm := do
  let (kpage, st) ← st.frameAlloc t upage true
  let (stackSet, st) ← st.setPage t upage kpage true ptFree
  if stackSet then return (st.pageInsert t none 0 upage 0 0 true).2 else st.frameFree kpage

/-- A page comes back from the swap disk. -/
def swapFault (st : Vm) (t upage e : Nat) (ptFree : Bool) : Except Stop Vm := do
  let (kpage, st) ← st.frameAlloc t upage true
  let st := st.swapIn (st.spte e).swapIndex kpage
  let (swapSet, st) ← st.setPage t upage kpage true ptFree
  if swapSet then
    if (st.spte e).loaded then
      return (st.setDirty t upage).modifySpte e fun s => { s with swapped := false }
    else .error .assertion
  else st.frameFree kpage

/-- The end of lazy loading.  On failure the frame is looked for under the user page, and the entry
is removed if `remove`. -/
def installLoaded (st : Vm) (t upage e kpage : Nat) (remove ptFree : Bool) : Except Stop Vm := do
  let (setSuccess, st) ← st.setPage t upage kpage (st.spte e).writable ptFree
  if setSuccess then return st.modifySpte e fun s => { s with loaded := true }
  else
    let st ← st.frameFree upage
    return if remove then st.pageRemove t upage else st

/-- Lazy loading: of a page all of whose bytes are in a file, of a page of zeros, or of one that is
partly in a file. -/
def lazyLoad (st : Vm) (t upage e : Nat) (ptFree : Bool) : Except Stop Vm :=
  let spte := st.spte e
  if spte.readBytes + spte.zeroBytes ≠ pgsize then .error .assertion
  else if spte.readBytes ≠ pgsize ∧ spte.zeroBytes = pgsize then do
    let (kpage, st) ← st.frameAlloc t upage true
    st.installLoaded t upage e kpage true ptFree
  else
    match spte.file with
    | none => .error .pointer
    | some f => do
      let (kpage, st) ← st.frameAlloc t upage false
      if st.startsPastEnd f spte.readBytes spte.fileOfs then .error .assertion
      else
        let data := st.fileReadAt f spte.readBytes spte.fileOfs
        let st := st.writeMem kpage 0 data
        if data.length ≠ spte.readBytes then st.frameFree upage
        else
          let st := st.writeMem kpage spte.readBytes (List.replicate spte.zeroBytes 0)
          st.installLoaded t upage e kpage (spte.readBytes = pgsize) ptFree

/-- `page_fault`, at a user page that is not present; `growth` says whether the address is one to
which the stack may grow. -/
def pageFault (st : Vm) (t upage : Nat) (growth ptFree : Bool) : Except Stop Vm :=
  match st.getSupPte t upage with
  | none => if growth then st.growStack t upage ptFree else .ok st
  | some e =>
    if (st.spte e).swapped ∧ (st.spte e).loaded ∧ st.getPage t (st.spte e).upage = none then
      st.swapFault t upage e ptFree
    else if (st.spte e).loaded then .ok st
    else st.lazyLoad t upage e ptFree

/-! ## Loading -/

/-- A page of `load_segment`. -/
def loadPage (st : Vm) (t f fileOfs upage readBytes : Nat) (writable : Bool) : Except Stop Vm :=
  let st := (st.pageInsert t (some f) fileOfs upage readBytes (pgsize - readBytes) writable).2
  match st.getSupPte t upage with
  | none => .error .assertion
  | some e => .ok (st.modifySpte e fun s => { s with loaded := false })

/-- The page of the stack that `setup_stack` makes. -/
abbrev stackPage : Nat := physBase - 1

/-- `setup_stack`, with which `load` is done. -/
def setupStack (st : Vm) (t : Nat) (ptFree : Bool) : Except Stop Vm := do
  let (kpage, st) ← st.frameAlloc t stackPage true
  if (st.getPage t stackPage).isSome then st.frameFree kpage
  else
    let (success, st) ← st.setPage t stackPage kpage true ptFree
    if success then
      return (st.pageInsert t none 0 stackPage 0 0 true).2.modifyProcess t fun p =>
        { p with loading := false }
    else st.frameFree kpage

/-! ## System calls -/

/-- The loop of `SYS_MMAP`, over `cnt` pages: whether every page could be inserted. -/
def mmapLoop (t f : Nat) (mapId : Int) : Nat → Vm → Nat → Nat → Nat → Bool × Vm
  | 0, st, _, _, _ => (true, st)
  | cnt + 1, st, curOfs, addr, remainReadBytes =>
    let pageReadBytes := min remainReadBytes pgsize
    let e := st.nextSpte
    match st.pageInsert t (some f) curOfs addr pageReadBytes (pgsize - pageReadBytes) true with
    | (false, st) => (false, st)
    | (true, st) =>
      let st := st.modifySpte e fun s => { s with mmapId := mapId, loaded := false }
      let st := st.modifyProcess t fun p => { p with mmapList := p.mmapList ++ [e] }
      mmapLoop t f mapId cnt st (curOfs + pgsize) ((addr + 1) % 2 ^ 20)
        (remainReadBytes - pageReadBytes)

/-- `SYS_MMAP`, of a file that is not empty. -/
def mmap (st : Vm) (t f addr : Nat) : Vm :=
  match st.process t with
  | none => st
  | some p =>
    let length := (st.file f).length
    match mmapLoop t f p.mmapCount ((length + pgsize - 1) / pgsize) st 0 addr length with
    | (false, st) => st
    | (true, st) => st.modifyProcess t fun p => { p with mmapCount := p.mmapCount + 1 }

/-- One entry of the list in `SYS_MUNMAP`. -/
def munmapEntry (t : Nat) (id : Int) (st : Vm) (e : Nat) : Except Stop Vm :=
  let spte := st.spte e
  if spte.mmapId ≠ id then .ok st
  else
    let st := st.modifyProcess t fun p => { p with mmapList := p.mmapList.erase e }
    if physBase ≤ spte.upage then .error .assertion
    else
      match st.getPage t spte.upage with
      | none => .ok (st.pageRemove t spte.upage)
      | some kpage =>
        if spte.loaded then do
          let st ← st.writeBackIf t e (st.isDirty t spte.upage)
          ((st.clearPage t spte.upage).pageRemove t spte.upage).frameFree kpage
        else .error .assertion

/-- `SYS_MUNMAP`.  It asks for the front of a list that must not be empty. -/
def munmap (st : Vm) (t : Nat) (id : Int) : Except Stop Vm :=
  match st.process t with
  | none => .error .pointer
  | some p => if p.mmapList = [] then .error .assertion else p.mmapList.foldlM (munmapEntry t id) st

/-! ## Exit -/

/-- `page_table_free`, of a page of a mapped file that is present. -/
def closeMapping (st : Vm) (t e : Nat) : Except Stop Vm :=
  if (st.spte e).mmapId = mapFailed then .ok st
  else do
    let st ← st.writeBackIf t e (st.isDirty t (st.spte e).upage)
    return st.modifyProcess t fun p => { p with mmapList := p.mmapList.erase e }

/-- `page_table_free`, of a page that is present. -/
def freePresent (st : Vm) (t e kpage : Nat) : Except Stop Vm :=
  if (st.spte e).swapped || (st.spte e).loaded then do
    let st ← st.closeMapping t e
    (st.clearPage t (st.spte e).upage).frameFree kpage
  else .error .assertion

/-- `page_table_free`, of the slot of a page that is swapped out. -/
def freeSlot (st : Vm) (e : Nat) : Except Stop Vm :=
  if (st.spte e).swapped then st.swapSet (st.spte e).swapIndex else .ok st

/-- `page_table_free`, of the entry of a page. -/
def pageTableFree (t : Nat) (st : Vm) (upage : Nat) : Except Stop Vm :=
  match st.getSupPte t upage with
  | none => .error .pointer
  | some e =>
    if physBase ≤ (st.spte e).upage then .error .assertion
    else
      match st.getPage t (st.spte e).upage with
      | none => st.freeSlot e
      | some kpage => do
        let st ← st.freePresent t e kpage
        st.freeSlot e

/-- `page_table_remove`, which takes the entries in the order of the hash table. -/
def pageTableRemove (st : Vm) (t : Nat) (order : List Nat) : Except Stop Vm :=
  order.foldlM (pageTableFree t) st

/-- `pagedir_destroy`, which frees the frames of the pages that are still present. -/
def pagedirDestroy (st : Vm) (t : Nat) : Except Stop Vm :=
  match st.process t with
  | none => .ok st
  | some p => do
    let present := (p.pagedir.entries.map (·.2)).filter (·.present)
    let st ← present.foldlM (fun st e => st.pallocFreePage e.kpage) st
    return { st with process := update st.process t none }

/-- The end of a process. -/
def processExit (st : Vm) (t : Nat) (order : List Nat) : Except Stop Vm := do
  let st ← st.pageTableRemove t order
  st.pagedirDestroy t

/-! ## Stores -/

/-- A store of a user process into a byte of a page that is present. -/
def store (st : Vm) (t upage i : Nat) (v : UInt8) : Except Stop Vm :=
  match st.getPage t upage with
  | none => .error .nestedFault
  | some kpage => .ok ((st.writeMem kpage i [v]).setDirty t upage)

end Vm

/-! ## The machine -/

/-- A step. -/
inductive VmOp
  /-- `start_process` sets up an empty address space. -/
  | spawn
  /-- A page of `load_segment`. -/
  | loadPage (f fileOfs upage readBytes : Nat) (writable : Bool)
  /-- `setup_stack`. -/
  | setupStack (ptFree : Bool)
  /-- A page fault at a page that is not present. -/
  | fault (upage : Nat) (growth ptFree : Bool)
  /-- A store of the process. -/
  | store (upage i : Nat) (v : UInt8)
  /-- `SYS_MMAP`. -/
  | mmap (f addr : Nat)
  /-- `SYS_MUNMAP`. -/
  | munmap (id : Int)
  /-- The process exits; its supplemental page table is emptied in this order. -/
  | exit (order : List Nat)
  /-- The process writes to a file by `SYS_WRITE`. -/
  | write (f fileOfs : Nat) (src : List UInt8)
  /-- Writes to a file are denied, or allowed again. -/
  | deny (f cnt : Nat)
deriving DecidableEq, Repr

namespace Vm

/-- A process that is done with `load`. -/
def isUser (st : Vm) (t : Nat) : Bool := (st.process t).any fun p => !p.loading

/-- The process can come to this step. -/
def enabled (st : Vm) (t : Nat) : VmOp → Bool
  | .spawn => (st.process t).isNone
  | .loadPage _ _ upage readBytes _ =>
    (st.process t).any (·.loading) && upage < physBase && readBytes ≤ pgsize
  | .setupStack _ => (st.process t).any (·.loading)
  | .fault upage _ _ => st.isUser t && upage < physBase && (st.getPage t upage).isNone
  | .store upage i _ =>
    st.isUser t && i < pgsize && (st.pte t upage).any fun e => e.present && e.writable
  | .mmap f addr => st.isUser t && 0 < addr && addr < 2 ^ 20 && 0 < (st.file f).length
  | .munmap _ => st.isUser t
  | .exit order => (st.process t).any fun p => order.isPerm p.supPageTable.keys
  | .write _ _ _ | .deny _ _ => true

/-- What the step does. -/
def exec (st : Vm) (t : Nat) : VmOp → Except Stop Vm
  | .spawn => .ok { st with process := update st.process t (some ⟨∅, ∅, [], 0, true⟩) }
  | .loadPage f fileOfs upage readBytes writable => st.loadPage t f fileOfs upage readBytes writable
  | .setupStack ptFree => st.setupStack t ptFree
  | .fault upage growth ptFree => st.pageFault t upage growth ptFree
  | .store upage i v => st.store t upage i v
  | .mmap f addr => .ok (st.mmap t f addr)
  | .munmap id => st.munmap t id
  | .exit order => st.processExit t order
  | .write f fileOfs src =>
    .ok (if st.refuses f then st else st.putBytes f src fileOfs)
  | .deny f cnt =>
    .ok { st with file := update st.file f { st.file f with denyWriteCnt := cnt } }

end Vm

/-- Virtual memory, as a machine: a step is made by a process. -/
def vmMachine : Machine Vm (Nat × VmOp) Unit where
  step st i :=
    if st.enabled i.1 i.2 then (st.exec i.1 i.2).toOption.map fun st' => ((), st') else none

/-- Before the first process. -/
structure Vm.Boot (st : Vm) : Prop where
  process : ∀ t, st.process t = none
  frameTable : st.frameTable = []
  userPool : ∀ i, st.userPool.bits i = false
  poolBase : physBase ≤ st.poolBase
  swapTable : ∀ i, st.swapTable.bits i = false
  beyond : ∀ f i, (st.file f).length ≤ i → (st.file f).bytes i = 0

/-- A file of one byte value. -/
def MappedFile.const (length : Nat) (v : UInt8) : MappedFile :=
  ⟨length, fun i => if i < length then v else 0, false, 0⟩

/-- A machine with so many frames and swap slots, whose files all have one byte value. -/
def Vm.initial (frames slots length : Nat) (v : UInt8) : Vm where
  process _ := none
  spte _ := ⟨none, 0, 0, 0, false, 0, false, false, 0, mapFailed⟩
  nextSpte := 0
  frameTable := []
  userPool := .create frames
  poolBase := physBase
  mem _ := .fill pgsize 0xcc
  swapTable := .create slots
  swapDisk _ := .fill 512 0
  file _ := .const length v
  saved _ := .fill pgsize 0

theorem Vm.boot_initial (frames slots length : Nat) (v : UInt8) :
    (Vm.initial frames slots length v).Boot :=
  ⟨fun _ => rfl, rfl, fun _ => rfl, le_rfl, fun _ => rfl, fun _ _ h => if_neg (Nat.not_lt.mpr h)⟩

end Pintos
