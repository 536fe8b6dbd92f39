import Pintos.Vm.Faults

/-!
# Loading an executable, eagerly and lazily

`load_segment` has two forms.  Without virtual memory it reads every page of a segment at once and
maps it; with it, it only enters the page into the supplemental page table, and `page_fault` reads
the page when the process first comes to it.  Both are modelled here over one state, the one of
`Vm/Model.lean`, with the loop of `load` over the program headers around them.

The eager form reads the pages one after the other from the position of the file, the lazy one each
at its own offset; it finds out at once that the file is too short or that a page is there already,
the lazy one never does.

* `Phdr.Valid` is what `validate_segment` guarantees about the numbers of a segment, and
  `Phdr.Valid.toNat_total` that none of `load`'s computations with them wraps around.
* `PageSpec` is a page that a segment asks for.  `eagerPage_of_some` and `lazyPage_eq` are a round
  of the two forms for one of them.
* `loadHeaders_eq`: a list of headers none of which is refused comes to the rounds for all of their
  pages, in either form.  `loadHeaders_refused`: with one that is, either form fails.
-/

namespace Pintos

open Bytes (Block)
open UInt32 (lt_iff_toNat_lt toNat_add toNat_and toNat_inj)

/-! ## Program headers -/

/-- `struct Elf32_Phdr`, without the fields that `load` does not look at. -/
structure Phdr where
  pType : UInt32
  pOffset : UInt32
  pVaddr : UInt32
  pFilesz : UInt32
  pMemsz : UInt32
  pFlags : UInt32
deriving DecidableEq, Repr

/-- `PT_LOAD`. -/
def ptLoad : UInt32 := 1

/-- `PT_DYNAMIC`. -/
def ptDynamic : UInt32 := 2

/-- `PT_INTERP`. -/
def ptInterp : UInt32 := 3

/-- `PT_SHLIB`. -/
def ptShlib : UInt32 := 5

/-- `PF_W`. -/
def pfW : UInt32 := 2

/-- `PGMASK`. -/
def pgmask : UInt32 := 0xfff

/-- `is_user_vaddr`. -/
def isUserVaddr (vaddr : UInt32) : Bool := vaddr < 0xc0000000

/-- `ROUND_UP`, to a multiple of `PGSIZE`. -/
def roundUp (x : UInt32) : UInt32 := (x + 4096 - 1) / 4096 * 4096

/-- `validate_segment`, for a file of this length. -/
def validateSegment (length : Nat) (phdr : Phdr) : Bool :=
  if phdr.pOffset &&& pgmask ≠ phdr.pVaddr &&& pgmask then false
  else if phdr.pOffset > UInt32.ofNat length then false
  else if phdr.pMemsz < phdr.pFilesz then false
  else if phdr.pMemsz = 0 then false
  else if !isUserVaddr phdr.pVaddr then false
  else if !isUserVaddr (phdr.pVaddr + phdr.pMemsz) then false
  else if phdr.pVaddr + phdr.pMemsz < phdr.pVaddr then false
  else if phdr.pVaddr < 4096 then false
  else true

namespace Phdr

/-- `writable`, as `load` computes it. -/
def writable (phdr : Phdr) : Bool := phdr.pFlags &&& pfW != 0

/-- `file_page`. -/
def filePage (phdr : Phdr) : UInt32 := phdr.pOffset &&& ~~~pgmask

/-- `mem_page`. -/
def memPage (phdr : Phdr) : UInt32 := phdr.pVaddr &&& ~~~pgmask

/-- `page_offset`. -/
def pageOffset (phdr : Phdr) : UInt32 := phdr.pVaddr &&& pgmask

/-- `read_bytes`. -/
def readBytes (phdr : Phdr) : UInt32 :=
  if phdr.pFilesz > 0 then phdr.pageOffset + phdr.pFilesz else 0

/-- `zero_bytes`. -/
def zeroBytes (phdr : Phdr) : UInt32 :=
  if phdr.pFilesz > 0 then roundUp (phdr.pageOffset + phdr.pMemsz) - phdr.readBytes
  else roundUp (phdr.pageOffset + phdr.pMemsz)

end Phdr

/-- The two forms of `load_segment`. -/
inductive LoadForm
  /-- Without `VM`. -/
  | eager
  /-- With `VM`. -/
  | lazy
deriving DecidableEq, Repr

namespace Vm

/-! ## The loader -/

/-- `install_page`, of a page whose frame is freed if that fails. -/
def installPage (st : Vm) (t upage kpage : Nat) (writable ptFree : Bool) :
    Except Stop (Bool × Vm) := do
  if (st.getPage t upage).isSome then return (false, ← st.pallocFreePage kpage)
  else
    let (success, st) ← st.setPage t upage kpage writable ptFree
    if success then return (true, st) else return (false, ← st.pallocFreePage kpage)

/-- A round of the eager `load_segment`, with the file at position `pos`, which is not past its end:
`validate_segment` has looked at the first one, and reading does not lead past the end. -/
def eagerPage (st : Vm) (t f pos upage pageReadBytes : Nat) (writable ptFree : Bool) :
    Except Stop (Bool × Vm) :=
  match st.pallocGetPage false with
  | none => .ok (false, st)
  | some (kpage, st) => do
    let data := st.fileReadAt f pageReadBytes pos
    let st := st.writeMem kpage 0 data
    if data.length ≠ pageReadBytes then return (false, ← st.pallocFreePage kpage)
    else
      let st := st.writeMem kpage pageReadBytes (List.replicate (pgsize - pageReadBytes) 0)
      st.installPage t upage kpage writable ptFree

/-- The loop of the eager `load_segment`, with `cnt` pages to go.  Reading advances the position of
the file. -/
def eagerLoop (t f : Nat) (writable ptFree : Bool) :
    Nat → Vm → (pos upage readBytes : Nat) → Except Stop (Bool × Vm)
  | 0, st, _, _, _ => .ok (true, st)
  | cnt + 1, st, pos, upage, readBytes => do
    let pageReadBytes := min readBytes pgsize
    let bytesRead := (st.fileReadAt f pageReadBytes pos).length
    let (success, st) ← st.eagerPage t f pos upage pageReadBytes writable ptFree
    if success then
      eagerLoop t f writable ptFree cnt st (pos + bytesRead) (upage + 1) (readBytes - pageReadBytes)
    else return (false, st)

/-- The loop of the lazy `load_segment`, with `cnt` pages to go. -/
def lazyLoop (t f : Nat) (writable : Bool) :
    Nat → Vm → (curOfs upage readBytes : Nat) → Except Stop (Bool × Vm)
  | 0, st, _, _, _ => .ok (true, st)
  | cnt + 1, st, curOfs, upage, readBytes => do
    let pageReadBytes := min readBytes pgsize
    let st ← st.loadPage t f curOfs upage pageReadBytes writable
    lazyLoop t f writable cnt st (curOfs + pgsize) (upage + 1) (readBytes - pageReadBytes)

/-- `load_segment`.  Its loop makes a round for each page, since the bytes to read and those to zero
are whole pages together. -/
def loadSegment (form : LoadForm) (st : Vm) (t f : Nat) (ofs upage readBytes zeroBytes : UInt32)
    (writable ptFree : Bool) : Except Stop (Bool × Vm) :=
  if (readBytes + zeroBytes) % 4096 ≠ 0 ∨ upage % 4096 ≠ 0 ∨ ofs % 4096 ≠ 0 then .error .assertion
  else
    let cnt := (readBytes + zeroBytes).toNat / pgsize
    match form with
    | .eager =>
      eagerLoop t f writable ptFree cnt st ofs.toNat (upage.toNat / pgsize) readBytes.toNat
    | .lazy => lazyLoop t f writable cnt st ofs.toNat (upage.toNat / pgsize) readBytes.toNat

/-- The loop of `load` over the program headers. -/
def loadHeaders (form : LoadForm) (t f : Nat) (ptFree : Bool) :
    List Phdr → Vm → Except Stop (Bool × Vm)
  | [], st => .ok (true, st)
  | phdr :: phdrs, st =>
    if phdr.pType = ptDynamic ∨ phdr.pType = ptInterp ∨ phdr.pType = ptShlib then .ok (false, st)
    else if phdr.pType = ptLoad then
      if validateSegment (st.file f).length phdr then do
        let (success, st) ← loadSegment form st t f phdr.filePage phdr.memPage phdr.readBytes
          phdr.zeroBytes phdr.writable ptFree
        if success then loadHeaders form t f ptFree phdrs st else return (false, st)
      else .ok (false, st)
    else loadHeaders form t f ptFree phdrs st

/-- The page of the stack in `setup_stack`, without virtual memory.  The process is then done with
`load`. -/
def eagerStack (st : Vm) (t : Nat) (ptFree : Bool) : Except Stop (Bool × Vm) :=
  match st.pallocGetPage true with
  | none => .ok (false, st)
  | some (kpage, st) => do
    let (success, st) ← st.installPage t stackPage kpage true ptFree
    return (success,
      if success then st.modifyProcess t fun p => { p with loading := false } else st)

/-- `load`, from its loop over the program headers on.  The arguments that `setup_stack` pushes are
left out. -/
def load (form : LoadForm) (st : Vm) (t f : Nat) (phdrs : List Phdr) (ptFree : Bool) :
    Except Stop (Bool × Vm) := do
  let (success, st) ← loadHeaders form t f ptFree phdrs st
  if success then
    match form with
    | .eager => st.eagerStack t ptFree
    | .lazy => do
      let st ← st.setupStack t ptFree
      return (st.isUser t, st)
  else return (false, st)

/-! ## Accesses of the process -/

/-- An access of the process to a byte of its memory. -/
inductive Access
  /-- It reads a byte. -/
  | read (upage i : Nat)
  /-- It writes one. -/
  | write (upage i : Nat) (v : UInt8)
deriving DecidableEq, Repr

/-- The page it is to. -/
def Access.upage : Access → Nat
  | .read upage _ => upage
  | .write upage _ _ => upage

/-- A page that is not present is faulted in. -/
def touch (st : Vm) (t upage : Nat) (ptFree : Bool) : Except Stop Vm :=
  if (st.getPage t upage).isSome then .ok st else st.pageFault t upage false ptFree

/-- An access, with the byte that is read or written; `none` is one that is not allowed. -/
def accessByte (st : Vm) (t : Nat) (ptFree : Bool) : Access → Except Stop (Option UInt8 × Vm)
  | .read upage i => do
    let st ← st.touch t upage ptFree
    return ((st.getPage t upage).map fun kpage => (st.mem kpage).get i, st)
  | .write upage i v => do
    let st ← st.touch t upage ptFree
    if (st.pte t upage).any fun e => e.present && e.writable then
      return (some v, ← st.store t upage i v)
    else return (none, st)

/-- A sequence of accesses, with what each of them shows. -/
def accessBytes (t : Nat) (ptFree : Bool) :
    List Access → Vm → Except Stop (List (Option UInt8) × Vm)
  | [], st => .ok ([], st)
  | a :: as, st => do
    let (out, st) ← st.accessByte t ptFree a
    let (outs, st) ← accessBytes t ptFree as st
    return (out :: outs, st)

end Vm

/-! ## The numbers of a segment -/

theorem toNat_and_pgmask (x : UInt32) : (x &&& pgmask).toNat = x.toNat % 4096 := by
  exact Nat.and_two_pow_sub_one_eq_mod x.toNat 12

theorem toNat_and_not_pgmask (x : UInt32) : (x &&& ~~~pgmask).toNat = x.toNat / 4096 * 4096 := by
  rw [toNat_and, show (~~~pgmask).toNat = (2 ^ 20 - 1) * 2 ^ 12 from rfl]
  refine Nat.eq_of_testBit_eq fun i => ?_
  rw [Nat.testBit_and, Nat.testBit_mul_two_pow, Nat.testBit_two_pow_sub_one,
    show (4096 : Nat) = 2 ^ 12 from rfl, Nat.testBit_mul_two_pow, Nat.testBit_div_two_pow]
  by_cases hi : 12 ≤ i
  · rw [decide_eq_true hi, Bool.true_and, Bool.true_and, Nat.sub_add_cancel hi]
    by_cases hlt : i - 12 < 20
    · rw [decide_eq_true hlt, Bool.and_true]
    · have hbig : x.toNat < 2 ^ i :=
        x.toNat_lt.trans_le (Nat.pow_le_pow_right (by decide) (by omega))
      rw [Nat.testBit_lt_two_pow hbig, Bool.false_and]
  · rw [decide_eq_false hi, Bool.false_and, Bool.false_and, Bool.and_false]

namespace Phdr

/-- The first page of the segment. -/
def firstPage (phdr : Phdr) : Nat := phdr.pVaddr.toNat / pgsize

/-- The number of its pages. -/
def pageCnt (phdr : Phdr) : Nat :=
  (phdr.pVaddr.toNat % pgsize + phdr.pMemsz.toNat + (pgsize - 1)) / pgsize

/-- What `validate_segment` guarantees, without the limits of 32 bits. -/
structure Valid (phdr : Phdr) : Prop where
  sameOffset : phdr.pOffset.toNat % pgsize = phdr.pVaddr.toNat % pgsize
  filesz : phdr.pFilesz.toNat ≤ phdr.pMemsz.toNat
  memsz : 0 < phdr.pMemsz.toNat
  user : phdr.pVaddr.toNat + phdr.pMemsz.toNat < physBase * pgsize

theorem valid_of_validateSegment {length : Nat} {phdr : Phdr}
    (h : validateSegment length phdr = true) : phdr.Valid := by
  simp only [validateSegment, Bool.if_false_left, Bool.and_eq_true, Bool.not_eq_true',
    decide_eq_false_iff_not] at h
  obtain ⟨hofs, -, hfile, hmem, -, hend, hwrap, -⟩ := h
  rw [not_not, ← toNat_inj, toNat_and_pgmask, toNat_and_pgmask] at hofs
  rw [lt_iff_toNat_lt, not_lt] at hfile
  rw [← toNat_inj, show (0 : UInt32).toNat = 0 from rfl] at hmem
  rw [Bool.not_eq_false, isUserVaddr, decide_eq_true_eq, lt_iff_toNat_lt,
    show (0xc0000000 : UInt32).toNat = 0xc0000000 from rfl] at hend
  rw [lt_iff_toNat_lt] at hwrap
  rw [toNat_add] at hend hwrap
  have := phdr.pMemsz.toNat_lt
  exact ⟨hofs, hfile, by omega, by rw [physBase, pgsize]; omega⟩

/-- The bytes of the file that the segment takes up, from the start of its first page on. -/
def bytesInFile (phdr : Phdr) : Nat :=
  if phdr.pFilesz.toNat = 0 then 0 else phdr.pVaddr.toNat % pgsize + phdr.pFilesz.toNat

section Valid

variable {phdr : Phdr} (h : phdr.Valid)

theorem toNat_memPage (phdr : Phdr) : phdr.memPage.toNat = phdr.firstPage * pgsize :=
  toNat_and_not_pgmask _

theorem toNat_filePage (phdr : Phdr) :
    phdr.filePage.toNat = phdr.pOffset.toNat / pgsize * pgsize := toNat_and_not_pgmask _

include h

theorem Valid.toNat_readBytes : phdr.readBytes.toNat = phdr.bytesInFile := by
  have huser := h.user
  have hfilesz := h.filesz
  rw [readBytes, bytesInFile]
  simp only [lt_iff_toNat_lt]
  rw [show (0 : UInt32).toNat = 0 from rfl]
  by_cases hzero : phdr.pFilesz.toNat = 0
  · rw [if_neg (by omega), if_pos hzero]
    rfl
  · rw [if_pos (by omega), if_neg hzero, toNat_add, pageOffset, toNat_and_pgmask]
    unfold physBase pgsize at *
    omega

theorem Valid.toNat_roundUp :
    (roundUp (phdr.pageOffset + phdr.pMemsz)).toNat = phdr.pageCnt * pgsize := by
  have huser := h.user
  have hpage : (phdr.pageOffset + phdr.pMemsz).toNat
      = phdr.pVaddr.toNat % 4096 + phdr.pMemsz.toNat := by
    rw [toNat_add, pageOffset, toNat_and_pgmask]
    unfold physBase pgsize at huser
    omega
  rw [roundUp, UInt32.toNat_mul, UInt32.toNat_div, UInt32.toNat_sub_of_le, toNat_add, hpage,
    pageCnt]
  · rw [show (4096 : UInt32).toNat = 4096 from rfl, show (1 : UInt32).toNat = 1 from rfl]
    unfold physBase pgsize at *
    omega
  · rw [UInt32.le_iff_toNat_le, toNat_add, hpage, show (4096 : UInt32).toNat = 4096 from rfl,
      show (1 : UInt32).toNat = 1 from rfl]
    unfold physBase pgsize at huser
    omega

theorem Valid.bytesInFile_le : phdr.bytesInFile ≤ phdr.pageCnt * pgsize := by
  have hfilesz := h.filesz
  rw [bytesInFile, pageCnt]
  unfold pgsize
  split <;> omega

theorem Valid.toNat_total : (phdr.readBytes + phdr.zeroBytes).toNat = phdr.pageCnt * pgsize := by
  have huser := h.user
  have hread := h.toNat_readBytes
  have hround := h.toNat_roundUp
  have hle := h.bytesInFile_le
  have hsmall : phdr.pageCnt * pgsize < 2 ^ 32 := by
    rw [pageCnt]
    unfold physBase pgsize at *
    omega
  rw [toNat_add, zeroBytes]
  split
  · rw [UInt32.toNat_sub_of_le, hround, hread, Nat.add_sub_cancel' hle, Nat.mod_eq_of_lt hsmall]
    rw [UInt32.le_iff_toNat_le, hround, hread]
    exact hle
  · rename_i hzero
    rw [hround, readBytes, if_neg hzero, show (0 : UInt32).toNat = 0 from rfl, Nat.zero_add,
      Nat.mod_eq_of_lt hsmall]

theorem Valid.lastPage : phdr.firstPage + phdr.pageCnt ≤ physBase := by
  have huser := h.user
  rw [firstPage, pageCnt]
  unfold physBase pgsize at *
  omega

end Valid

end Phdr

/-! ## Segments as lists of pages -/

/-- A page that a segment asks for. -/
structure PageSpec where
  upage : Nat
  /-- Where its bytes are in the file. -/
  ofs : Nat
  /-- How many of its bytes come from the file. -/
  readBytes : Nat
  /-- Whether the process may write to it. -/
  writable : Bool
deriving DecidableEq, Repr

/-- The pages of a segment, `cnt` of them. -/
def pageSpecs (writable : Bool) : (cnt ofs upage readBytes : Nat) → List PageSpec
  | 0, _, _, _ => []
  | cnt + 1, ofs, upage, readBytes => ⟨upage, ofs, min readBytes pgsize, writable⟩ ::
      pageSpecs writable cnt (ofs + pgsize) (upage + 1) (readBytes - min readBytes pgsize)

/-- The pages that a program header asks for. -/
def Phdr.specs (phdr : Phdr) : List PageSpec :=
  if phdr.pType = ptLoad then
    pageSpecs phdr.writable phdr.pageCnt (phdr.pOffset.toNat / pgsize * pgsize) phdr.firstPage
      phdr.bytesInFile
  else []

/-- The program header makes `load` fail. -/
def Phdr.Refused (length : Nat) (phdr : Phdr) : Prop :=
  (phdr.pType = ptDynamic ∨ phdr.pType = ptInterp ∨ phdr.pType = ptShlib) ∨
    phdr.pType = ptLoad ∧ validateSegment length phdr = false

instance (length : Nat) (phdr : Phdr) : Decidable (phdr.Refused length) :=
  inferInstanceAs (Decidable (_ ∨ _))

namespace Vm

variable {st st' : Vm} {t f : Nat} {ptFree : Bool}

/-- A round of `load_segment`. -/
def loadOne (form : LoadForm) (st : Vm) (t f : Nat) (ptFree : Bool) (s : PageSpec) :
    Except Stop (Bool × Vm) :=
  match form with
  | .eager => st.eagerPage t f s.ofs s.upage s.readBytes s.writable ptFree
  | .lazy => (st.loadPage t f s.ofs s.upage s.readBytes s.writable).map fun st => (true, st)

/-- The rounds for a list of pages. -/
def loadAll (form : LoadForm) (t f : Nat) (ptFree : Bool) :
    List PageSpec → Vm → Except Stop (Bool × Vm)
  | [], st => .ok (true, st)
  | s :: specs, st => do
    let (success, st) ← st.loadOne form t f ptFree s
    if success then loadAll form t f ptFree specs st else return (false, st)

theorem loadAll_append (form : LoadForm) (a b : List PageSpec) (st : Vm) :
    loadAll form t f ptFree (a ++ b) st = (do
      let (success, st) ← loadAll form t f ptFree a st
      if success then loadAll form t f ptFree b st else return (false, st)) := by
  induction a generalizing st with
  | nil => rfl
  | cons s a ih =>
    rw [List.cons_append, loadAll, loadAll, bind_assoc]
    congr 1
    funext ⟨success, st1⟩
    cases success with
    | true => exact ih st1
    | false => rfl

/-! The rounds do not stop. -/

variable {k : Nat} {st1 st2 : Vm} {zero : Bool}

theorem pallocFreePage_of_get (h : st.pallocGetPage zero = some (k, st1))
    (hpool : st2.userPool = st1.userPool) (hbase : st2.poolBase = st1.poolBase) :
    st2.pallocFreePage k = .ok (st2.freedPage k) := by
  obtain ⟨idx, rfl, -, -, rfl⟩ := pallocGetPage_eq_some h
  refine pallocFreePage_eq_ok.mpr ⟨?_, rfl⟩
  rw [hpool, hbase]
  exact ⟨Nat.le_add_right _ _, by simp [Bitmap.mark]⟩

/-- **`install_page`** maps a page that is not present, or frees the frame. -/
theorem installPage_ok (h : st.pallocGetPage zero = some (k, st1))
    (hpool : st2.userPool = st1.userPool) (hbase : st2.poolBase = st1.poolBase) (upage : Nat)
    (writable ptFree : Bool) :
    st2.installPage t upage k writable ptFree = .ok (
      if st2.getPage t upage = none ∧ (st2.hasPageTable t upage || ptFree) = true then
        (true, st2.mapPage t upage k writable)
      else (false, st2.freedPage k)) := by
  have hfree := pallocFreePage_of_get h hpool hbase
  rw [installPage]
  cases hpage : st2.getPage t upage with
  | some k' =>
    rw [Option.isSome_some, if_pos rfl, hfree]
    rfl
  | none =>
    rw [Option.isSome_none, if_neg Bool.false_ne_true, (setPage_eq_ok).mpr ⟨hpage, rfl, rfl⟩]
    cases htable : st2.hasPageTable t upage || ptFree with
    | true =>
      rfl
    | false =>
      show (do return (false, ← st2.pallocFreePage k)) = _
      rw [hfree]
      rfl

/-- The contents of a frame after a page has been read into it. -/
def filledPage (st : Vm) (f k : Nat) (s : PageSpec) : Page :=
  ((st.mem k).write 0 (st.fileReadAt f s.readBytes s.ofs)).write s.readBytes
    (List.replicate (pgsize - s.readBytes) 0)

/-- The state after a page has been read into the frame `k` and mapped. -/
def readIn (st : Vm) (t f k : Nat) (s : PageSpec) : Vm :=
  { st with mem := Function.update st.mem k (st.filledPage f k s) }.mapPage t s.upage k s.writable

theorem pallocGetPage_same (h : st.pallocGetPage zero = some (k, st1)) :
    st1.file = st.file ∧ st1.process = st.process ∧ st1.spte = st.spte := by
  obtain ⟨idx, -, -, -, rfl⟩ := pallocGetPage_eq_some h
  exact ⟨rfl, rfl, rfl⟩

/-- **A round of the eager form**, with a frame: the page is read and mapped, if the file has its
bytes and it is not there yet. -/
theorem eagerPage_of_some (h : st.pallocGetPage false = some (k, st1)) (s : PageSpec) :
    ((st.fileReadAt f s.readBytes s.ofs).length = s.readBytes ∧ st.getPage t s.upage = none ∧
        (st.hasPageTable t s.upage || ptFree) = true ∧
        st.loadOne .eager t f ptFree s = .ok (true, st1.readIn t f k s)) ∨
      (¬ ((st.fileReadAt f s.readBytes s.ofs).length = s.readBytes ∧
          st.getPage t s.upage = none ∧ (st.hasPageTable t s.upage || ptFree) = true) ∧
        ∃ st', st.loadOne .eager t f ptFree s = .ok (false, st') ∧ st'.file = st.file ∧
          st'.process = st.process) := by
  obtain ⟨hfile, hprocess, -⟩ := pallocGetPage_same h
  have hdata : st1.fileReadAt f s.readBytes s.ofs = st.fileReadAt f s.readBytes s.ofs := by
    rw [fileReadAt, hfile, fileReadAt]
  simp only [loadOne, eagerPage, h]
  rw [hdata]
  by_cases hlen : (st.fileReadAt f s.readBytes s.ofs).length = s.readBytes
  · rw [if_neg (not_not.mpr hlen), writeMem_writeMem]
    generalize hst2 : ({ st1 with mem := Function.update st1.mem k _ } : Vm) = st2
    rw [installPage_ok h (show st2.userPool = st1.userPool by rw [← hst2])
      (show st2.poolBase = st1.poolBase by rw [← hst2])]
    have hprocess2 : st2.process = st.process := by rw [← hst2, ← hprocess]
    have hpage : st2.getPage t s.upage = st.getPage t s.upage := by
      rw [getPage, pte, hprocess2]
      rfl
    have htable : st2.hasPageTable t s.upage = st.hasPageTable t s.upage := by
      rw [hasPageTable, hprocess2, hasPageTable]
    rw [hpage, htable]
    by_cases hcond : st.getPage t s.upage = none ∧ (st.hasPageTable t s.upage || ptFree) = true
    · refine .inl ⟨hlen, hcond.1, hcond.2, ?_⟩
      rw [if_pos hcond, ← hst2, readIn, filledPage, hdata]
    · refine .inr ⟨fun hall => hcond hall.2, st2.freedPage k, ?_, ?_, hprocess2⟩
      · rw [if_neg hcond]
      · show st2.file = st.file
        rw [← hst2, ← hfile]
  · refine .inr ⟨fun hall => hlen hall.1,
      (st1.writeMem k 0 (st.fileReadAt f s.readBytes s.ofs)).freedPage k, ?_, hfile, hprocess⟩
    rw [if_pos hlen, pallocFreePage_of_get h (show (st1.writeMem k 0 _).userPool = _ from rfl) rfl]
    rfl

theorem eagerPage_of_none (h : st.pallocGetPage false = none) (s : PageSpec) :
    st.loadOne .eager t f ptFree s = .ok (false, st) := by
  simp only [loadOne, eagerPage, h]

/-- **A round of the lazy form**: the page gets an entry, unless it has one. -/
theorem lazyPage_eq (ptFree : Bool) (hprocess : (st.process t).isSome) (s : PageSpec) :
    st.loadOne .lazy t f ptFree s = .ok (true, match st.getSupPte t s.upage with
      | some e => st.modifySpte e fun x => { x with loaded := false }
      | none => (st.addSpte t (newSpte (some f) s.ofs s.upage s.readBytes (pgsize - s.readBytes)
          s.writable)).modifySpte st.nextSpte fun x => { x with loaded := false }) := by
  simp only [loadOne, loadPage]
  cases he : st.getSupPte t s.upage with
  | some e =>
    rw [pageInsert_of_some he, he]
    rfl
  | none =>
    rw [pageInsert_of_none he]
    have hself := getSupPte_addSpte_self hprocess
      (newSpte (some f) s.ofs s.upage s.readBytes (pgsize - s.readBytes) s.writable)
    rw [show (st.addSpte t _).getSupPte t s.upage = _ from hself]
    rfl

theorem loadOne_ok (form : LoadForm) (hprocess : (st.process t).isSome) (s : PageSpec) :
    ∃ success st', st.loadOne form t f ptFree s = .ok (success, st') ∧ st'.file = st.file ∧
      (st'.process t).isSome := by
  cases form with
  | eager =>
    rcases hget : st.pallocGetPage false with _ | ⟨k, st1⟩
    · exact ⟨false, st, eagerPage_of_none hget s, rfl, hprocess⟩
    · obtain ⟨hfile1, hprocess1, -⟩ := pallocGetPage_same hget
      rcases eagerPage_of_some hget s with
        ⟨-, -, -, hload⟩ | ⟨-, st', hload, hfile, hsame⟩
      · refine ⟨true, _, hload, hfile1, (isSome_process_modifyProcess ..).trans ?_⟩
        rw [hprocess1, hprocess]
      · exact ⟨false, st', hload, hfile, by rwa [hsame]⟩
  | lazy =>
    refine ⟨true, _, lazyPage_eq ptFree hprocess s, ?_, ?_⟩
    · split <;> rfl
    · split
      · exact hprocess
      · exact (isSome_process_modifyProcess ..).trans hprocess

theorem loadAll_ok (form : LoadForm) (ptFree : Bool) (hprocess : (st.process t).isSome)
    (specs : List PageSpec) :
    ∃ success st', loadAll form t f ptFree specs st = .ok (success, st') ∧ st'.file = st.file ∧
      (st'.process t).isSome := by
  induction specs generalizing st with
  | nil => exact ⟨true, st, rfl, rfl, hprocess⟩
  | cons s specs ih =>
    obtain ⟨success, st1, hload, hfile, hprocess1⟩ := loadOne_ok form hprocess s
    rw [loadAll, hload]
    cases success with
    | true =>
      obtain ⟨success, st2, hrest, hfile2, hprocess2⟩ := ih hprocess1
      exact ⟨success, st2, hrest, hfile2.trans hfile, hprocess2⟩
    | false => exact ⟨false, st1, rfl, hfile, hprocess1⟩

/-! The loops of `load_segment` make these rounds. -/

theorem fileReadAt_zero (st : Vm) (f pos : Nat) : st.fileReadAt f 0 pos = [] := by
  rw [fileReadAt, Nat.zero_min, List.range_zero, List.map_nil]

variable {pos ofs : Nat}

theorem eagerPage_pos {upage readBytes : Nat} {writable : Bool} (h : readBytes = 0 ∨ pos = ofs) :
    st.eagerPage t f pos upage readBytes writable ptFree
      = st.loadOne .eager t f ptFree ⟨upage, ofs, readBytes, writable⟩ := by
  rcases h with rfl | rfl
  · simp only [loadOne, eagerPage, fileReadAt_zero]
  · rfl

theorem eagerLoop_eq (writable : Bool) (cnt : Nat) {readBytes : Nat} (upage : Nat)
    (h : readBytes = 0 ∨ pos = ofs) :
    eagerLoop t f writable ptFree cnt st pos upage readBytes
      = loadAll .eager t f ptFree (pageSpecs writable cnt ofs upage readBytes) st := by
  induction cnt generalizing st pos ofs upage readBytes with
  | zero => rfl
  | succ cnt ih =>
    have hpos : min readBytes pgsize = 0 ∨ pos = ofs := by omega
    rw [eagerLoop, pageSpecs, loadAll]
    rw [eagerPage_pos hpos]
    rcases hget : st.pallocGetPage false with _ | ⟨k, st1⟩
    · rw [eagerPage_of_none hget]
      rfl
    · rcases eagerPage_of_some hget
        ⟨upage, ofs, min readBytes pgsize, writable⟩ with ⟨hlen, -, -, hload⟩ | ⟨-, st', hload, -⟩
      · rw [hload]
        refine ih (upage + 1) ?_
        -- a page that is not the last one with bytes to read is full
        dsimp only at hlen
        rcases h with hzero | rfl
        · omega
        · omega
      · rw [hload]
        rfl

theorem lazyLoop_eq (writable : Bool) (cnt ofs upage readBytes : Nat) :
    lazyLoop t f writable cnt st ofs upage readBytes
      = loadAll .lazy t f ptFree (pageSpecs writable cnt ofs upage readBytes) st := by
  induction cnt generalizing st ofs upage readBytes with
  | zero => rfl
  | succ cnt ih =>
    rw [lazyLoop, pageSpecs, loadAll, loadOne]
    cases st.loadPage t f ofs upage (min readBytes pgsize) writable with
    | error _ => rfl
    | ok st1 => exact ih _ _ _

/-- **`load_segment`** of a segment that is valid loads its pages. -/
theorem loadSegment_eq (form : LoadForm) {phdr : Phdr} (hload : phdr.pType = ptLoad)
    (h : phdr.Valid) : loadSegment form st t f phdr.filePage phdr.memPage phdr.readBytes
      phdr.zeroBytes phdr.writable ptFree = loadAll form t f ptFree phdr.specs st := by
  have htotal := h.toNat_total
  have hasserts : ¬ ((phdr.readBytes + phdr.zeroBytes) % 4096 ≠ 0 ∨ phdr.memPage % 4096 ≠ 0 ∨
      phdr.filePage % 4096 ≠ 0) := by
    have hmod : ∀ {x : UInt32} {q : Nat}, x.toNat = q * pgsize → x % 4096 = 0 := fun {x q} hx => by
      rw [← toNat_inj, UInt32.toNat_mod, hx]
      exact Nat.mul_mod_left q 4096
    rw [hmod htotal, hmod phdr.toNat_memPage, hmod phdr.toNat_filePage]
    simp
  rw [loadSegment, if_neg hasserts, Phdr.specs, if_pos hload, htotal, phdr.toNat_memPage,
    phdr.toNat_filePage, h.toNat_readBytes, Nat.mul_div_cancel _ (by decide),
    Nat.mul_div_cancel _ (by decide)]
  cases form with
  | eager => exact eagerLoop_eq _ _ _ (.inr rfl)
  | lazy => exact lazyLoop_eq _ _ _ _ _

/-- **The loop over the program headers**, none of which is refused, loads the pages of all of
them. -/
theorem loadHeaders_eq (form : LoadForm) (phdrs : List Phdr) (hprocess : (st.process t).isSome)
    (h : ∀ phdr ∈ phdrs, ¬ phdr.Refused (st.file f).length) :
    loadHeaders form t f ptFree phdrs st
      = loadAll form t f ptFree (phdrs.flatMap Phdr.specs) st := by
  induction phdrs generalizing st with
  | nil => rfl
  | cons phdr phdrs ih =>
    have hhead := h phdr (.head _)
    have htail : ∀ p ∈ phdrs, ¬ p.Refused (st.file f).length := fun p hp => h p (.tail _ hp)
    rw [Phdr.Refused, not_or] at hhead
    rw [loadHeaders, if_neg hhead.1, List.flatMap_cons]
    by_cases hload : phdr.pType = ptLoad
    · have hvalid : validateSegment (st.file f).length phdr = true := by
        rw [← Bool.not_eq_false]
        exact fun hno => hhead.2 ⟨hload, hno⟩
      rw [if_pos hload, if_pos hvalid,
        loadSegment_eq form hload (Phdr.valid_of_validateSegment hvalid), loadAll_append]
      obtain ⟨success, st1, hrun, hfile, hprocess1⟩ := loadAll_ok form ptFree hprocess phdr.specs
      rw [hrun]
      cases success with
      | true => exact ih hprocess1 (by rwa [hfile])
      | false => rfl
    · rw [if_neg hload, ih hprocess htail, Phdr.specs, if_neg hload, List.nil_append]

theorem loadHeaders_refused (form : LoadForm) (ptFree : Bool) {phdrs : List Phdr}
    (hprocess : (st.process t).isSome) (h : ∃ phdr ∈ phdrs, phdr.Refused (st.file f).length) :
    ∃ st', loadHeaders form t f ptFree phdrs st = .ok (false, st') := by
  induction phdrs generalizing st with
  | nil =>
    obtain ⟨_, hmem, -⟩ := h
    cases hmem
  | cons phdr phdrs ih =>
    have htail : ¬ phdr.Refused (st.file f).length →
        ∃ p ∈ phdrs, p.Refused (st.file f).length := fun hno => by
      obtain ⟨p, hp, href⟩ := h
      rcases List.mem_cons.mp hp with rfl | hp
      · exact absurd href hno
      · exact ⟨p, hp, href⟩
    rw [loadHeaders]
    by_cases hstop : phdr.pType = ptDynamic ∨ phdr.pType = ptInterp ∨ phdr.pType = ptShlib
    · exact ⟨st, if_pos hstop⟩
    · rw [if_neg hstop]
      by_cases hload : phdr.pType = ptLoad
      · rw [if_pos hload]
        cases hvalid : validateSegment (st.file f).length phdr with
        | false => exact ⟨st, rfl⟩
        | true =>
          rw [if_pos rfl, loadSegment_eq form hload (Phdr.valid_of_validateSegment hvalid)]
          obtain ⟨success, st1, hrun, hfile, hprocess1⟩ := loadAll_ok form ptFree hprocess
            phdr.specs
          rw [hrun]
          cases success with
          | true =>
            refine ih hprocess1 ?_
            rw [hfile]
            refine htail ?_
            rintro (hno | ⟨-, hno⟩)
            · exact hstop hno
            · rw [hvalid] at hno
              cases hno
          | false => exact ⟨st1, rfl⟩
      · rw [if_neg hload]
        refine ih hprocess (htail ?_)
        rintro (hno | ⟨hyes, -⟩)
        · exact hstop hno
        · exact hload hyes

end Vm

end Pintos
