import Pintos.Userprog.KernelFaults

/-!
# The buffers of `SYS_READ` and `SYS_WRITE`

Which addresses the two calls touch between `buffer` and `buffer + size`.

The handler looks at the first byte of the buffer, and then copies.  A copy that comes to the end of
the user's memory goes on in the kernel's, whose first page is there.  It is held up only if a page
of the buffer is missing, and cannot be brought in, before it gets there.

* `CallState.Strays`: the program reads or writes a byte of a buffer that is not the user's.
* `CallState.Reaches`: a copy does, of a number of bytes from an address on.
* `CallState.Copies`: what the call copies.
* `buffers_in_user_memory_iff`: the calls stay in the user's memory exactly if what they copy ends
  below `PHYS_BASE`, or there is a byte below `PHYS_BASE` that they cannot touch.
-/

namespace Pintos

open Locks (Prog)
open Kernel

/-- The address of a byte of a buffer. -/
def Question.bufferAddr : Question → Option Word
  | .read .buffer addr | .write .buffer addr _ => some addr
  | _ => none

namespace CallState

/-- The bytes of buffers that are touched, in their order. -/
def touched (c : CallState) : List Word := c.outcome.asked.filterMap Question.bufferAddr

/-- **The program touches a byte of a buffer that is not the user's.** -/
def Strays (c : CallState) (s : List Nat) (code : Code) (held : List KernelLock) : Prop :=
  ∃ addr ∈ (c.run s code held).asked.filterMap Question.bufferAddr, ¬ isUserVaddr addr

variable {c : CallState} {s : List Nat} {held : List KernelLock} {addr : Word} {l : KernelLock}
  {write : Bool} {e : Ending}

theorem not_strays_fin : ¬ c.Strays s (.fin e) held := by
  rintro ⟨addr, hmem, -⟩
  exact absurd hmem List.not_mem_nil

theorem strays_acquire (h : l ∉ held) (next : Code) :
    c.Strays s (.acquire l next) held ↔ c.Strays s next (l :: held) := by
  rw [Strays, Strays, run, Prog.run_acquire h]
  rfl

theorem strays_release (next : Code) :
    c.Strays s (.release l next) (l :: held) ↔ c.Strays s next held := by
  rw [Strays, Strays, run, Prog.run_release]
  rfl

variable {q : Question} {a : Answer q}

theorem not_strays_ask_error (h : c.answer s q = .error e) (next : Answer q → Code) :
    ¬ c.Strays s (.ask q next) held := by
  rw [Strays, run, Prog.run_ask_error h]
  rintro ⟨addr, hmem, -⟩
  exact absurd hmem List.not_mem_nil

theorem strays_ask (hq : q.bufferAddr = none) (h : c.answer s q = .ok a)
    (next : Answer q → Code) :
    c.Strays s (.ask q next) held ↔ c.Strays (after s q) (next a) held := by
  rw [Strays, Strays, run, Prog.run_ask_ok h, List.filterMap_cons_none hq]
  rfl

theorem strays_ask_buffer (hq : q.bufferAddr = some addr) (h : c.answer s q = .ok a)
    (next : Answer q → Code) :
    c.Strays s (.ask q next) held ↔ ¬ isUserVaddr addr ∨ c.Strays (after s q) (next a) held := by
  rw [Strays, Strays, run, Prog.run_ask_ok h, List.filterMap_cons_some hq]
  simp only [List.mem_cons, exists_eq_or_imp]
  rfl

theorem strays_read (use : AccessUse) (next : UInt8 → Code) :
    c.Strays s (.ask (.read use addr) next) held ↔
      c.Fine addr false ∧
        ((use = .buffer ∧ ¬ isUserVaddr addr) ∨
          c.Strays (pageNo addr :: s) (next (c.memory.bytes addr)) held) := by
  cases hfate : c.fate addr false with
  | error e =>
    have hanswer : c.answer s (.read use addr) = .error e := by rw [answer, hfate]; rfl
    exact iff_of_false (not_strays_ask_error hanswer next) fun h => by
      cases hfate.symm.trans h.1
  | ok u =>
    have hanswer : c.answer s (.read use addr) = .ok (c.memory.bytes addr) := by
      rw [answer, hfate]
      rfl
    rw [and_iff_right (show c.Fine addr false from hfate)]
    cases use with
    | buffer => rw [strays_ask_buffer rfl hanswer, and_iff_right rfl, after]
    | argument | string | pointer =>
      rw [strays_ask rfl hanswer]
      exact (or_iff_right fun h => by cases h.1).symm

theorem strays_readWord (next : Word → Code) :
    c.Strays s (readWord addr next) held ↔
      c.RangeFine addr 4 false ∧ c.Strays (wordPages addr s) (next (c.word addr)) held := by
  have h2 : addr + 1 + 1 = addr + 2 := by rw [BitVec.add_assoc]; rfl
  have h3 : addr + 2 + 1 = addr + 3 := by rw [BitVec.add_assoc]; rfl
  simp only [readWord, strays_read, rangeFine_succ, rangeFine_zero, word, wordPages, h2, h3,
    reduceCtorEq, false_and, false_or, and_true, and_assoc]

theorem strays_checkAddress (next : Code) :
    c.Strays s (checkAddress addr next) held ↔ c.Passes s addr ∧ c.Strays s next held := by
  have hpresent : c.answer s (.present addr) =
      .ok ((c.memory.pagedir (pageNo addr)).isSome || pageNo addr ∈ s) := rfl
  rw [checkAddress]
  split
  next h => exact iff_of_false not_strays_fin fun hp => hp.1.1 h
  next h =>
    split
    next hu => exact iff_of_false not_strays_fin fun hp => hu hp.1.2.1
    next hu =>
      rw [strays_ask rfl hpresent]
      split
      next hp => exact (and_iff_right ⟨h, not_not.mp hu, by simpa using hp⟩).symm
      next hp =>
        rw [show after s (.present addr) = s from rfl, strays_ask rfl hpresent, if_neg hp]
        exact iff_of_false not_strays_fin fun hp' => hp (by simpa using hp'.1.2.2)

/-! ## Copies -/

/-- **A copy of `n` bytes comes to one that is not the user's.** -/
def Reaches (c : CallState) (addr : Word) (n : Nat) (write : Bool) : Prop :=
  ∃ i < n, c.RangeFine addr (i + 1) write ∧ ¬ isUserVaddr (addr + .ofNat 32 i)

theorem not_reaches_zero : ¬ c.Reaches addr 0 write := nofun

variable {n : Nat}

theorem reaches_succ :
    c.Reaches addr (n + 1) write ↔
      c.Fine addr write ∧ (¬ isUserVaddr addr ∨ c.Reaches (addr + 1) n write) := by
  rw [Reaches, Reaches, Nat.exists_lt_succ_left, rangeFine_succ, add_ofNat_zero, and_or_left,
    ← exists_and_left, and_iff_left rangeFine_zero]
  refine or_congr_right (exists_congr fun i => ?_)
  rw [rangeFine_succ, add_ofNat_succ, and_assoc, and_left_comm]

theorem strays_readBytes (n : Nat) {next : Code} (hnext : ∀ s, ¬ c.Strays s next held) :
    c.Strays s (readBytes n addr next) held ↔ c.Reaches addr n false := by
  induction n generalizing addr s with
  | zero => exact iff_of_false (hnext s) not_reaches_zero
  | succ n ih => rw [readBytes, strays_read, reaches_succ, ih, and_iff_right rfl]

theorem strays_write (byte : UInt8) (next : Unit → Code) :
    c.Strays s (.ask (.write .buffer addr byte) next) held ↔
      c.Fine addr true ∧ (¬ isUserVaddr addr ∨ c.Strays (pageNo addr :: s) (next ()) held) := by
  cases hfate : c.fate addr true with
  | ok u =>
    have hanswer : c.answer s (.write .buffer addr byte) = .ok () := hfate
    rw [strays_ask_buffer rfl hanswer, and_iff_right (show c.Fine addr true from hfate), after]
  | error e =>
    have hanswer : c.answer s (.write .buffer addr byte) = .error e := hfate
    exact iff_of_false (not_strays_ask_error hanswer _) fun h => by cases hfate.symm.trans h.1

theorem strays_writeBytes (data : List UInt8) {next : Code} {goesOn : Prop}
    (hnext : ∀ s, c.Strays s next held ↔ goesOn) :
    c.Strays s (writeBytes data addr next) held ↔
      c.Reaches addr data.length true ∨ (c.RangeFine addr data.length true ∧ goesOn) := by
  induction data generalizing addr s with
  | nil => simp [writeBytes, not_reaches_zero, rangeFine_zero, hnext]
  | cons b data ih =>
    rw [writeBytes, List.length_cons, reaches_succ, rangeFine_succ, and_assoc, ← and_or_left,
      or_assoc, strays_write, ih]

theorem reaches_add {m : Nat} :
    c.Reaches addr (m + n) write ↔
      c.Reaches addr m write ∨
        (c.RangeFine addr m write ∧ c.Reaches (addr + .ofNat 32 m) n write) := by
  induction m generalizing addr with
  | zero => simp [not_reaches_zero, rangeFine_zero]
  | succ m ih =>
    rw [Nat.succ_add, reaches_succ, reaches_succ, rangeFine_succ, ih, add_ofNat_succ, ← or_assoc,
      and_or_left, and_assoc]

theorem strays_readKeys (n : Nat) :
    c.Strays s (readKeys n addr ret) held ↔ c.Reaches addr (4 * n) true := by
  induction n generalizing addr s with
  | zero => exact iff_of_false not_strays_fin not_reaches_zero
  | succ n ih =>
    rw [readKeys, strays_ask rfl rfl, strays_writeBytes _ fun _ => ih, Nat.mul_succ,
      Nat.add_comm (4 * n), reaches_add]
    rfl

/-- **How far a copy comes.**  The kernel's first page is there and can be written. -/
theorem reaches_iff (h : isUserVaddr addr) :
    c.Reaches addr n write ↔
      physBaseAddr.toNat < addr.toNat + n ∧
        ∀ i, addr.toNat + i < physBaseAddr.toNat → c.Fine (addr + .ofNat 32 i) write := by
  have hbase : physBaseAddr.toNat = 0xc0000000 := rfl
  have haddr : addr.toNat < 0xc0000000 := h
  have htoNat : ∀ i, addr.toNat + i ≤ physBaseAddr.toNat →
      (addr + BitVec.ofNat 32 i).toNat = addr.toNat + i := by
    intro i hi
    rw [BitVec.toNat_add, BitVec.toNat_ofNat]
    omega
  constructor
  · rintro ⟨i, hi, hfine, hnot⟩
    have hpast : physBaseAddr.toNat ≤ addr.toNat + i := by
      by_contra hlt
      refine hnot ?_
      rw [isUserVaddr, BitVec.lt_def, htoNat i (by omega)]
      omega
    exact ⟨by omega, fun j hj => hfine j (by omega)⟩
  · rintro ⟨hpast, hfine⟩
    refine ⟨physBaseAddr.toNat - addr.toNat, by omega, fun j hj => ?_, ?_⟩
    · by_cases hlt : addr.toNat + j < physBaseAddr.toNat
      · exact hfine j hlt
      · have hj : addr.toNat + j = physBaseAddr.toNat := by omega
        have heq : addr + BitVec.ofNat 32 j = physBaseAddr :=
          BitVec.eq_of_toNat_eq ((htoNat j hj.le).trans hj)
        rw [heq, Fine, fate, c.memory.kernel]
        exact if_neg fun hw => hw.2 rfl
    · rw [isUserVaddr, BitVec.lt_def, htoNat _ (by omega)]
      omega

/-! ## The two calls -/

/-- **What the call copies**: whether it writes to the buffer, and how many bytes.  The keys are
stored as words. -/
def Copies (c : CallState) : Syscall → Bool → Nat → Prop
  | .read, write, n =>
    c.RangeFine (c.esp + 8) 4 false ∧ c.Passes (c.pages [2, 0]) (c.esp + 4) ∧
      c.Passes (c.pages [2, 2, 0]) (c.arg 2) ∧ c.Passes (c.pages [2, 2, 0]) (c.esp + 12) ∧
      c.RangeFine (c.esp + 4) 4 false ∧ c.RangeFine (c.esp + 12) 4 false ∧
      write = true ∧ ((c.arg 1 = 0 ∧ n = 4 * (c.arg 3).toNat) ∨
        (c.arg 1 ≠ 0 ∧ ∃ f data, c.file (c.arg 1) = some f ∧ f.read (c.arg 3) = .ok data ∧
          n = data.length))
  | .write, write, n =>
    c.Passes (c.pages [0]) (c.esp + 4) ∧ c.Passes (c.pages [0]) (c.esp + 12) ∧
      c.RangeFine (c.esp + 8) 4 false ∧ c.Passes (c.pages [2, 0]) (c.arg 2) ∧
      c.RangeFine (c.esp + 12) 4 false ∧ c.RangeFine (c.esp + 4) 4 false ∧
      write = false ∧ ((c.arg 1 = 1 ∧ n = (c.arg 3).toNat) ∨
        (c.arg 1 ≠ 1 ∧ ∃ f, c.file (c.arg 1) = some f ∧ f.write (c.arg 3) = .ok n))
  | _, _, _ => False

theorem Copies.user {call : Syscall} (h : c.Copies call write n) : isUserVaddr (c.arg 2) := by
  cases call <;> first | exact h.2.2.1.2.1 | exact h.2.2.2.1.2.1 | exact h.elim

theorem Copies.call {call : Syscall} (h : c.Copies call write n) :
    call = .read ∨ call = .write := by
  cases call <;> first | exact .inl rfl | exact .inr rfl | exact h.elim

variable {fd size : Word}

theorem not_strays_release_ret (s : List Nat) : ¬ c.Strays s (.release l ret) [l] := by
  rw [strays_release]
  exact not_strays_fin

theorem strays_fileRead {buffer : Word} (hbuffer : isUserVaddr buffer) :
    c.Strays s (.ask (.getFile fd) fun found =>
        if ¬ found then ret
        else if ¬ isUserVaddr buffer then ret
        else .acquire .file <| .ask (.fileRead fd size) fun data =>
          writeBytes data buffer <| .release .file ret) [] ↔
      ∃ f data, c.file fd = some f ∧ f.read size = .ok data ∧
        c.Reaches buffer data.length true := by
  rw [strays_ask rfl rfl]
  cases hfile : c.file fd with
  | none => exact iff_of_false not_strays_fin (by rintro ⟨_, _, ⟨⟩, -⟩)
  | some f =>
    rw [Option.isSome_some, if_neg (not_not.mpr rfl), if_neg (not_not.mpr hbuffer),
      strays_acquire List.not_mem_nil]
    have hanswer : ∀ s, c.answer s (.fileRead fd size) = f.read size := by
      intro s
      rw [answer, hfile]
      rfl
    cases hread : f.read size with
    | error e =>
      refine iff_of_false (not_strays_ask_error ((hanswer _).trans hread) _) ?_
      rintro ⟨f', data, hf, hok, -⟩
      cases hf
      cases hread.symm.trans hok
    | ok data =>
      rw [strays_ask rfl ((hanswer _).trans hread),
        strays_writeBytes _ fun s => iff_false_intro (not_strays_release_ret s)]
      simp [hread]

theorem strays_fileWrite (hfine : c.RangeFine addr 4 false) :
    c.Strays s (.ask (.getFile fd) fun found =>
        if ¬ found then ret
        else .acquire .file <| readWord addr fun buffer =>
          .ask (.fileWrite fd size) fun cnt => readBytes cnt buffer <| .release .file ret) [] ↔
      ∃ f n, c.file fd = some f ∧ f.write size = .ok n ∧
        c.Reaches (c.word addr) n false := by
  rw [strays_ask rfl rfl]
  cases hfile : c.file fd with
  | none => exact iff_of_false not_strays_fin (by rintro ⟨_, _, ⟨⟩, -⟩)
  | some f =>
    rw [Option.isSome_some, if_neg (not_not.mpr rfl), strays_acquire List.not_mem_nil,
      strays_readWord, and_iff_right hfine]
    have hanswer : ∀ s, c.answer s (.fileWrite fd size) = f.write size := by
      intro s
      rw [answer, hfile]
      rfl
    cases hwrite : f.write size with
    | error e =>
      refine iff_of_false (not_strays_ask_error ((hanswer _).trans hwrite) _) ?_
      rintro ⟨f', n, hf, hok, -⟩
      cases hf
      cases hwrite.symm.trans hok
    | ok n =>
      rw [strays_ask rfl ((hanswer _).trans hwrite), strays_readBytes _ not_strays_release_ret]
      simp [hwrite]

theorem strays_sysRead :
    c.Strays (c.pages [0]) (sysRead c.esp) [] ↔
      ∃ write n, c.Copies .read write n ∧ c.Reaches (c.arg 2) n write := by
  simp only [Copies, and_assoc, exists_and_left, exists_eq_left]
  rw [sysRead, strays_readWord, strays_checkAddress]
  refine and_congr_right fun hfine => and_congr_right fun _ => ?_
  rw [strays_readWord, and_iff_right hfine, strays_checkAddress, strays_checkAddress,
    strays_readWord, strays_readWord, and_iff_right hfine, strays_readWord, word_arg_one,
    word_arg_two]
  refine and_congr_right fun hpass => and_congr_right fun _ => and_congr_right fun _ =>
    and_congr_right fun _ => ?_
  split
  next hfd =>
    rw [strays_readKeys]
    simp [hfd]
  next hfd =>
    simp only [strays_fileRead hpass.2.1, hfd, ne_eq, not_false_eq_true, true_and, false_and,
      false_or]
    constructor
    · rintro ⟨f, data, hfile, hread, hr⟩
      exact ⟨_, ⟨f, hfile, data, hread, rfl⟩, hr⟩
    · rintro ⟨_, ⟨f, hfile, data, hread, rfl⟩, hr⟩
      exact ⟨f, data, hfile, hread, hr⟩

theorem strays_sysWrite :
    c.Strays (c.pages [0]) (sysWrite c.esp) [] ↔
      ∃ write n, c.Copies .write write n ∧ c.Reaches (c.arg 2) n write := by
  simp only [Copies, and_assoc, exists_and_left, exists_eq_left]
  rw [sysWrite, strays_checkAddress, strays_checkAddress, strays_readWord, strays_checkAddress,
    strays_readWord, strays_readWord, word_arg_one, word_arg_two]
  refine and_congr_right fun _ => and_congr_right fun _ => and_congr_right fun hfine2 =>
    and_congr_right fun _ => and_congr_right fun hfine3 => and_congr_right fun _ => ?_
  split
  next hfd =>
    rw [strays_readWord, and_iff_right hfine2, strays_readWord, and_iff_right hfine3,
      strays_readBytes _ fun _ => not_strays_fin]
    simp [hfd]
  next hfd =>
    simp only [strays_fileWrite hfine2, hfd, ne_eq, not_false_eq_true, true_and, false_and,
      false_or]
    constructor
    · rintro ⟨f, n, hfile, hwrite, hr⟩
      exact ⟨n, ⟨f, hfile, hwrite⟩, hr⟩
    · rintro ⟨n, ⟨f, hfile, hwrite⟩, hr⟩
      exact ⟨f, n, hfile, hwrite, hr⟩

/-- **When one of the two calls leaves the user's memory.** -/
theorem strays_syscallHandler {call : Syscall} (h : c.Calls call)
    (hcall : call = .read ∨ call = .write) :
    c.Strays [] (syscallHandler c.esp) [] ↔
      ∃ write n, c.Copies call write n ∧ c.Reaches (c.arg 2) n write := by
  have hpages : c.pages [0] = wordPages c.esp [] := congrArg (wordPages · []) (BitVec.add_zero _)
  rw [syscallHandler, strays_checkAddress, and_iff_right h.1, strays_readWord,
    and_iff_right h.2.1, h.2.2, ← hpages]
  rcases hcall with rfl | rfl
  · exact strays_sysRead
  · exact strays_sysWrite

end CallState

/-- **`SYS_READ` and `SYS_WRITE` touch no memory of the kernel for the user exactly if** what they
copy ends below `PHYS_BASE`, or a byte of the buffer below `PHYS_BASE` cannot be touched, so that
the copy comes to its end there. -/
theorem buffers_in_user_memory_iff (c : CallState) :
    (∀ call, call = .read ∨ call = .write → c.Calls call →
        ∀ addr ∈ c.touched, isUserVaddr addr) ↔
      ∀ call write n, c.Calls call → c.Copies call write n →
        (c.arg 2).toNat + n ≤ physBaseAddr.toNat ∨
          ∃ i, (c.arg 2).toNat + i < physBaseAddr.toNat ∧
            ¬ c.Fine (c.arg 2 + .ofNat 32 i) write := by
  have hreaches : ∀ {call write n}, c.Copies call write n →
      (¬ c.Reaches (c.arg 2) n write ↔ (c.arg 2).toNat + n ≤ physBaseAddr.toNat ∨
        ∃ i, (c.arg 2).toNat + i < physBaseAddr.toNat ∧
          ¬ c.Fine (c.arg 2 + .ofNat 32 i) write) := by
    intro call write n hcopies
    rw [CallState.reaches_iff hcopies.user, not_and_or, not_lt, not_forall]
    simp only [Classical.not_imp]
  constructor
  · intro h call write n hcalls hcopies
    have hcall : call = .read ∨ call = .write := hcopies.call
    refine (hreaches hcopies).mp fun hr => ?_
    obtain ⟨addr, hmem, hnot⟩ :=
      (CallState.strays_syscallHandler hcalls hcall).mpr ⟨write, n, hcopies, hr⟩
    exact hnot (h call hcall hcalls addr hmem)
  · intro h call hcall hcalls addr hmem
    by_contra hnot
    obtain ⟨write, n, hcopies, hr⟩ :=
      (CallState.strays_syscallHandler hcalls hcall).mp ⟨addr, hmem, hnot⟩
    exact (hreaches hcopies).mpr (h call write n hcalls hcopies) hr

/-- Two pages of stack, and `SYS_READ` of four bytes of an open file to `0xbffffffe`. -/
def readPastPhysBase : CallState where
  esp := 0xbfffe000#32
  memory :=
    { pagedir := fun page =>
        if page = 0xbfffe ∨ page = 0xbffff ∨ page = 0xc0000 then some true else none
      supPageTable := fun _ => none
      room := fun _ => true
      bytes := fun addr =>
        if addr = 0xbfffe000#32 then 8
        else if addr = 0xbfffe004#32 then 2
        else if addr = 0xbfffe008#32 then 0xfe
        else if addr = 0xbfffe009#32 ∨ addr = 0xbfffe00a#32 then 0xff
        else if addr = 0xbfffe00b#32 then 0xbf
        else if addr = 0xbfffe00c#32 then 4
        else 0
      kernel := by decide }
  file := fun fd =>
    if fd = 2 then
      some { length := 100, data := fun _ => 65, pos := 0, isDir := false, denied := false,
             grows := true }
    else none
  stray := .error .stop
  files := fun _ => false
  key := 0
  mappings := fun _ => none
  piece := fun _ _ => .done

/-- **`SYS_READ` writes to the kernel's memory**: bytes of a file that the process chooses. -/
theorem read_touches_kernel :
    readPastPhysBase.Calls .read ∧ readPastPhysBase.outcome.ending = .user ∧
      readPastPhysBase.touched = [0xbffffffe#32, 0xbfffffff#32, 0xc0000000#32, 0xc0000001#32] ∧
      ¬ ∀ addr ∈ readPastPhysBase.touched, isUserVaddr addr := by
  have htouched : readPastPhysBase.touched =
      [0xbffffffe#32, 0xbfffffff#32, 0xc0000000#32, 0xc0000001#32] := by decide +kernel
  have hcalls : readPastPhysBase.Calls .read := by
    refine ⟨⟨by decide, by decide, by decide +kernel⟩, fun i hi => ?_, by decide +kernel⟩
    have hi : i = 0 ∨ i = 1 ∨ i = 2 ∨ i = 3 := by omega
    rcases hi with rfl | rfl | rfl | rfl <;> rfl
  refine ⟨hcalls, by decide +kernel, htouched, fun h => ?_⟩
  have hmem : 0xc0000000#32 ∈ readPastPhysBase.touched := by
    decide
  exact absurd (h _ hmem) (by decide)

end Pintos
