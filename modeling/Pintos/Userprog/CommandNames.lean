import Pintos.Lib.Strings

/-!
# The names taken from a command line

Three functions take the name of the program from the command line of `SYS_EXEC`: the system call
itself, which opens the file to see whether it exists, `process_execute`, which names the new thread
after it, and `load`, which opens it again.  Each of them copies the string to a block of its own,
lets `strtok_r` find the first token, and stores what it returns in the variable that held the
block.  The variable is used for the name and then passed to `free`.

* `strtokRAt` is the part of `strtok_r` that finds the token, on a pointer into a block.
  `strtokRAt_eq` says where the pointer is that it returns: behind the leading delimiters.
* `sysExec`, `processExecute` and `load` are the calls that the three functions make, as a list.
  They are `withToken` at three blocks.  `load` runs in the new thread, so its calls may come later
  than they are in the list; nothing depends on that.
* `Safe` is the property: no name is null, and only what `malloc` has returned is freed.
* `exec_safe_iff`: it holds exactly for the strings that start with a character other than a space.
-/

namespace Pintos

namespace CommandNames

open CString

/-! ## Pointers -/

/-- The variables that hold a copy of the string, and the blocks that they are given. -/
inductive Block
  /-- In `syscall_handler`. -/
  | restoreName
  /-- In `process_execute`. -/
  | fn
  /-- In `load`. -/
  | fileCopy
deriving DecidableEq, Repr

/-- A pointer into a block.  That which `malloc` returns is to its start. -/
structure Pointer where
  block : Block
  offset : Nat
deriving DecidableEq, Repr

/-- The start of a block. -/
def Block.start (b : Block) : Pointer := ⟨b, 0⟩

/-- The next byte. -/
def Pointer.next (p : Pointer) : Pointer := { p with offset := p.offset + 1 }

/-- The token that `strtok_r` finds in the string at a pointer, which is null if there is none. -/
def strtokRAt (delimiters : List UInt8) : Pointer → List UInt8 → Option Pointer
  | _, [] => none
  | p, c :: s => if delimiters.contains c then strtokRAt delimiters p.next s else some p

/-- **Where the token is**: behind the leading delimiters, and there is one exactly if `strtok_r`
cuts one off. -/
theorem strtokRAt_eq (delimiters : List UInt8) (p : Pointer) (s : List UInt8) :
    strtokRAt delimiters p s = (strtokR delimiters s).map fun _ =>
      { p with offset := p.offset + (s.takeWhile delimiters.contains).length } := by
  induction s generalizing p with
  | nil => rfl
  | cons c s ih =>
    rw [strtokRAt]
    split
    next hc =>
      have hsame : strtokR delimiters (c :: s) = strtokR delimiters s := by
        simp only [strtokR, List.dropWhile_cons_of_pos hc]
      rw [ih, hsame, List.takeWhile_cons_of_pos hc, List.length_cons, Pointer.next, Nat.add_assoc,
        Nat.add_comm 1]
    next hc =>
      have hfound : strtokR delimiters (c :: s) ≠ none := by
        simp only [strtokR, List.dropWhile_cons_of_neg hc]
        simp
      obtain ⟨r, hr⟩ := Option.ne_none_iff_exists'.mp hfound
      rw [hr, List.takeWhile_cons_of_neg hc]
      rfl

/-! ## The calls -/

/-- A call that is made with one of the pointers. -/
inductive Call
  /-- `malloc`, and what it returns. -/
  | malloc (p : Option Pointer)
  /-- `free`. -/
  | free (p : Pointer)
  /-- `filesys_open`. -/
  | filesysOpen (name : Option Pointer)
  /-- `thread_create`. -/
  | threadCreate (name : Option Pointer)
deriving DecidableEq, Repr

/-- What the three functions find. -/
structure Env where
  room : Block → Bool
  /-- `filesys_open` opens the file in the system call. -/
  opened : Bool
  /-- `palloc_get_page` gives a page for the copy that `load` is given. -/
  page : Bool
  /-- `thread_create` creates a thread. -/
  created : Bool
  /-- `pagedir_create` gives a page directory. -/
  pagedir : Bool

/-- The string is copied to a block, the first token is used and the pointer to it freed.  The calls
of `between` come before that, those of `after` behind it.  A copy to the null pointer fails an
assertion, and so does the use of a name that is null. -/
def withToken (env : Env) (b : Block) (s : List UInt8) (use : Option Pointer → Call)
    (between after : List Call) : List Call :=
  if env.room b then
    .malloc (some b.start) ::
      match strtokRAt [32] b.start s with
      | none => [use none]
      | some token => use (some token) :: between ++ .free token :: after
  else [.malloc none]

/-- `load`, up to the point where it has opened the file. -/
def load (env : Env) (fileName : List UInt8) : List Call :=
  if env.pagedir then withToken env .fileCopy fileName .filesysOpen [] [] else []

/-- `process_execute`, and `load` in the new thread, which is given at most a page of the string. -/
def processExecute (env : Env) (fileName : List UInt8) : List Call :=
  if env.page then
    withToken env .fn fileName .threadCreate
      (if env.created then load env (fileName.take 4095) else []) []
  else []

/-- `SYS_EXEC`. -/
def sysExec (env : Env) (filename : List UInt8) : List Call :=
  withToken env .restoreName filename .filesysOpen []
    (if env.opened then processExecute env filename else [])

/-! ## Safety -/

/-- **The calls are safe**: no name is null, and whatever is freed is what `malloc` has returned. -/
structure Safe (calls : List Call) : Prop where
  opened : ∀ name, .filesysOpen name ∈ calls → name ≠ none
  created : ∀ name, .threadCreate name ∈ calls → name ≠ none
  freed : ∀ p, .free p ∈ calls → .malloc (some p) ∈ calls

variable {env : Env} {b : Block} {s : List UInt8} {use : Option Pointer → Call}
  {between after : List Call}

/-- The string starts with a character other than a space. -/
def StartsWithName (s : List UInt8) : Prop := ∃ c rest, s = c :: rest ∧ c ≠ 32

theorem strtokRAt_of_startsWithName (h : StartsWithName s) (p : Pointer) :
    strtokRAt [32] p s = some p := by
  obtain ⟨c, rest, rfl, hc⟩ := h
  rw [strtokRAt, if_neg (by simpa using hc)]

variable {calls calls' : List Call}

theorem Safe.append (h : Safe calls) (h' : Safe calls') :
    Safe (calls ++ calls') where
  opened name hmem := (List.mem_append.mp hmem).elim (h.opened name) (h'.opened name)
  created name hmem := (List.mem_append.mp hmem).elim (h.created name) (h'.created name)
  freed p hmem := List.mem_append.mpr ((List.mem_append.mp hmem).imp (h.freed p) (h'.freed p))

theorem Safe.perm (h : Safe calls) (hp : calls'.Perm calls) :
    Safe calls' where
  opened name hmem := h.opened name (hp.mem_iff.mp hmem)
  created name hmem := h.created name (hp.mem_iff.mp hmem)
  freed p hmem := hp.mem_iff.mpr (h.freed p (hp.mem_iff.mp hmem))

theorem safe_nil : Safe [] := ⟨nofun, nofun, nofun⟩

/-- **A copy whose first token is at its start is safe.** -/
theorem safe_withToken (h : StartsWithName s) (huse : use = .filesysOpen ∨ use = .threadCreate)
    (hbetween : Safe between) (hafter : Safe after) :
    Safe (withToken env b s use between after) := by
  rw [withToken, strtokRAt_of_startsWithName h]
  split
  next =>
    have hown : Safe [.malloc (some b.start), use (some b.start), .free b.start] := by
      rcases huse with rfl | rfl
      · exact ⟨by simp, by simp, by simp⟩
      · exact ⟨by simp, by simp, by simp⟩
    refine ((hown.append hbetween).append hafter).perm ?_
    exact (List.perm_middle.cons _).cons _
  next => exact ⟨by simp, by simp, by simp⟩

theorem StartsWithName.take (h : StartsWithName s) (n : Nat) : StartsWithName (s.take (n + 1)) := by
  obtain ⟨c, rest, rfl, hc⟩ := h
  exact ⟨c, rest.take n, rfl, hc⟩

theorem safe_sysExec (h : StartsWithName s) (env : Env) : Safe (sysExec env s) := by
  have hload : Safe (load env (s.take 4095)) := by
    rw [load]
    split
    · exact safe_withToken (h.take 4094) (.inl rfl) safe_nil safe_nil
    · exact safe_nil
  have hexecute : Safe (processExecute env s) := by
    rw [processExecute]
    split
    · refine safe_withToken h (.inr rfl) ?_ safe_nil
      split
      · exact hload
      · exact safe_nil
    · exact safe_nil
  refine safe_withToken h (.inl rfl) safe_nil ?_
  split
  · exact hexecute
  · exact safe_nil

/-! ## Other strings -/

/-- The file is not found, but there is room for everything. -/
def Env.notFound : Env := ⟨fun _ => true, false, true, true, true⟩

theorem startsWithName_of_safe (h : Safe (sysExec .notFound s)) : StartsWithName s := by
  have hcalls : sysExec .notFound s = .malloc (some Block.restoreName.start) ::
      match strtokRAt [32] Block.restoreName.start s with
      | none => [.filesysOpen none]
      | some token => [.filesysOpen (some token), .free token] := rfl
  rw [hcalls] at h
  cases s with
  | nil => exact absurd rfl (h.opened none (by simp [strtokRAt]))
  | cons c rest =>
    refine ⟨c, rest, rfl, fun hc => ?_⟩
    subst hc
    rw [strtokRAt_eq] at h
    cases htoken : strtokR [32] (32 :: rest) with
    | none =>
      rw [htoken] at h
      exact h.opened none (by simp) rfl
    | some token =>
      rw [htoken] at h
      -- There is a delimiter in front of the token.
      have hfreed := h.freed _ (.tail _ (.tail _ (.head _)))
      simp [Block.start] at hfreed

end CommandNames

/-- **When a command string is executed safely.**  In every environment the file names handed to
`filesys_open` and the thread name handed to `thread_create` are not null, and every pointer passed
to `free` is one that `malloc` has returned, exactly if the string is not empty and does not start
with a space. -/
theorem exec_safe_iff (s : List UInt8) :
    (∀ env, CommandNames.Safe (CommandNames.sysExec env s)) ↔ CommandNames.StartsWithName s :=
  ⟨fun h => CommandNames.startsWithName_of_safe (h .notFound), CommandNames.safe_sysExec⟩

/-- **A leading space.**  For the string that is a space and the letter `a`, the pointer that is
freed is to the second byte of the block; and for the empty string, the name handed to
`filesys_open` is null. -/
theorem exec_unsafe :
    (.free ⟨.restoreName, 1⟩ ∈ CommandNames.sysExec .notFound [32, 97] ∧
      ¬ CommandNames.Safe (CommandNames.sysExec .notFound [32, 97])) ∧
    (.filesysOpen none ∈ CommandNames.sysExec .notFound [] ∧
      ¬ CommandNames.Safe (CommandNames.sysExec .notFound [])) := by
  have hfreed : .free ⟨.restoreName, 1⟩ ∈ CommandNames.sysExec .notFound [32, 97] := by decide
  have hopened : .filesysOpen none ∈ CommandNames.sysExec .notFound [] := by decide
  refine ⟨⟨hfreed, fun h => ?_⟩, hopened, fun h => h.opened none hopened rfl⟩
  exact absurd (h.freed _ hfreed) (by decide)

end Pintos
