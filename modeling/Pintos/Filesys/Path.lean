import Pintos.Filesys.Directory

/-!
# Path names

`path_parsing` of `filesys/directory.c`, and `filesys_open`, `filesys_create` and `filesys_remove`
of `filesys/filesys.c`.  The three cut a path at its last slash, each with the same lines of code,
have `path_parsing` find the directory that the first part names, and look for the second part
there.

* `resolve` says what a path names: from the root if the path begins with a slash and from the
  current directory otherwise, each component that is not empty is looked up in turn.
* `pathParsing_eq_resolve`: `path_parsing`, which takes the path apart by `strtok_r`, does just
  that.
* `names_resolve_iff`: the other three agree with it, except on a path whose only slash is its first
  byte.  There the part before the slash is empty, and an empty path starts at the current
  directory.
* `open_root_opens_cwd`: so `/` names the current directory.
-/

namespace Pintos

open Bytes Prog CString

/-! ## The routines -/

section Routines

variable (u : Uninit) (deny : Nat → Nat)

/-- The loop of `path_parsing`, at the directory `tempDir` with `rest` to go. -/
def pathLoop (tempDir : Inode) (rest : List UInt8) : FsProg (Option Inode) :=
  match _h : strtokR [slash] rest with
  | none => return some tempDir
  | some (token, rest') => do
    match ← dirLookup u deny tempDir token with
    | some inode => pathLoop inode rest'
    | none => return none
termination_by rest.length
decreasing_by exact length_lt_of_strtokR (by assumption)

/-- `path_parsing`, called by a thread whose current directory has its inode in sector `cwd`. -/
def pathParsing (cwd : Nat) (path : List UInt8) : FsProg (Option Inode) :=
  if path.head? = some slash then pathLoop u deny (inodeOpen deny rootDirSector) path
  else pathLoop u deny (inodeOpen deny cwd) path

/-- `current_dir` and `target_name` in `filesys_open`, `filesys_create` and `filesys_remove`. -/
def splitPath (cwd : Nat) (name : List UInt8) : FsProg (Option Inode × List UInt8) :=
  match strrchr name slash with
  | none => return (some (inodeOpen deny cwd), name)
  | some pathLen => do
    let currentDir ← pathParsing u deny cwd (name.take pathLen)
    return (currentDir, name.drop (pathLen + 1))

/-- What `filesys_open` does with `current_dir` and `target_name`. -/
def openIn : Option Inode × List UInt8 → FsProg (Option Inode)
  | (none, _) => return none
  | (some currentDir, targetName) =>
    if targetName = [] then return some currentDir
    else dirLookup u deny currentDir targetName

/-- `filesys_open`: the inode that it opens a file for. -/
def filesysOpen (cwd : Nat) (name : List UInt8) : FsProg (Option Inode) :=
  if name = [] then return none
  else splitPath u deny cwd name >>= openIn u deny

/-- What `filesys_create` does with `current_dir` and `target_name`; `e` is the uninitialised entry
of `dir_add`. -/
def createIn (depth : Nat) (e : List UInt8) (cwd : Nat) (initialSize : Int) (isDir : Bool) :
    Option Inode × List UInt8 → FsProg Bool
  | (none, _) => return false
  | (some currentDir, targetName) => do
    match ← dirLookup u deny currentDir targetName with
    | some _ => return false
    | none =>
      match ← freeMapAllocateAt u depth with
      | none => return false
      | some sector =>
        let result ←
          if isDir then dirCreate u depth cwd sector 0
          else inodeCreate u depth cwd sector initialSize false
        let added ← dirAdd u depth e currentDir targetName sector
        return result && added

/-- `filesys_create`. -/
def filesysCreate (depth : Nat) (e : List UInt8) (cwd : Nat) (name : List UInt8)
    (initialSize : Int) (isDir : Bool) : FsProg Bool :=
  if name = [] then return false
  else splitPath u deny cwd name >>= createIn u deny depth e cwd initialSize isDir

/-- What `filesys_remove` does with `current_dir` and `target_name`. -/
def removeIn (depth cwd : Nat) : Option Inode × List UInt8 → FsProg (Option Inode)
  | (none, _) => return none
  | (some currentDir, targetName) => do
    let currentInode ← dirLookup u deny currentDir targetName
    if currentInode = some (inodeOpen deny cwd) then return none
    else dirRemove u deny depth currentDir targetName

/-- `filesys_remove`: the inode that is removed, or `none` for false. -/
def filesysRemove (depth cwd : Nat) (name : List UInt8) : FsProg (Option Inode) :=
  if name = [] then return none
  else splitPath u deny cwd name >>= removeIn u deny depth cwd

/-! ## What a path names -/

/-- Look the names up in turn, each in the directory found before. -/
def follow (dir : Inode) : List (List UInt8) → FsProg (Option Inode)
  | [] => return some dir
  | name :: names => do
    match ← dirLookup u deny dir name with
    | some inode => follow inode names
    | none => return none

/-- Where a path starts. -/
def startDir (cwd : Nat) (path : List UInt8) : Inode :=
  inodeOpen deny (if path.head? = some slash then rootDirSector else cwd)

/-- The inode that a path names. -/
def resolve (cwd : Nat) (path : List UInt8) : FsProg (Option Inode) :=
  follow u deny (startDir deny cwd path) (pieces [slash] path)

/-- The part of a path before its last slash. -/
def dirPart (path : List UInt8) : List UInt8 := path.take ((strrchr path slash).getD 0)

/-- The part of a path after its last slash. -/
def lastPart (path : List UInt8) : List UInt8 :=
  path.drop (((strrchr path slash).map (· + 1)).getD 0)

/-- The directory that the part of a path before its last slash names, with the starting point of
the whole path, and the part after that slash. -/
def resolveDir (cwd : Nat) (path : List UInt8) : FsProg (Option Inode × List UInt8) := do
  let dir ← follow u deny (startDir deny cwd path) (pieces [slash] (dirPart path))
  return (dir, lastPart path)

end Routines

/-! ## Paths taken apart -/

variable (u : Uninit) (deny : Nat → Nat) {n : Nat} {w : FsWorld} (cwd : Nat) {b : List UInt8}

theorem pathLoop_eq_follow (dir : Inode) (path : List UInt8) :
    pathLoop u deny dir path = follow u deny dir (pieces [slash] path) := by
  -- by the recursion of the loop, along the tokens of `strtok_r`
  fun_induction pathLoop u deny dir path with
  | case1 dir path h => rw [pieces_eq_strtokR, h, follow]
  | case2 dir path token rest h ih =>
    rw [pieces_eq_strtokR, h]
    refine congrArg (dirLookup u deny dir token >>= ·) (funext fun found => ?_)
    cases found with
    | none => rfl
    | some inode => exact ih inode

/-- **`path_parsing`** finds what its path names. -/
theorem pathParsing_eq_resolve (path : List UInt8) :
    pathParsing u deny cwd path = resolve u deny cwd path := by
  rw [pathParsing, resolve, startDir]
  split <;> exact pathLoop_eq_follow u deny _ path

theorem exec_follow_append (dir : Inode) (names : List (List UInt8)) (last : List (List UInt8)) :
    (follow u deny dir (names ++ last)).exec n w = (follow u deny dir names >>= fun found =>
      match found with
      | some inode => follow u deny inode last
      | none => return none).exec n w := by
  induction names generalizing dir w with
  | nil => rfl
  | cons name names ih =>
    rw [List.cons_append, follow, exec_bind, exec_bind, follow, exec_bind, Option.bind_assoc]
    refine congrArg _ (funext fun r => ?_)
    obtain ⟨found, w'⟩ := r
    cases found with
    | none => rfl
    | some inode => exact (ih inode).trans (exec_bind _ _)

theorem exec_follow_singleton (dir : Inode) (name : List UInt8) :
    (follow u deny dir [name]).exec n w = (dirLookup u deny dir name).exec n w := by
  rw [follow, exec_bind]
  rcases (dirLookup u deny dir name).exec n w with _ | ⟨_ | inode, w'⟩ <;> rfl

theorem parts_cases (path : List UInt8) :
    (strrchr path slash = none ∧ slash ∉ path ∧ dirPart path = [] ∧ lastPart path = path) ∨
      ∃ a b, path = a ++ slash :: b ∧ slash ∉ b ∧ strrchr path slash = some a.length ∧
        dirPart path = a ∧ lastPart path = b := by
  by_cases h : slash ∈ path
  · obtain ⟨a, b, rfl, hb⟩ := exists_last_append h
    have hlast := strrchr_append a hb
    exact .inr ⟨a, b, rfl, hb, hlast, by simp [dirPart, hlast], by simp [lastPart, hlast]⟩
  · have hnone := strrchr_of_not_mem h
    exact .inl ⟨hnone, h, by simp [dirPart, hnone], by simp [lastPart, hnone]⟩

theorem pieces_eq_parts (path : List UInt8) : pieces [slash] path
    = pieces [slash] (dirPart path) ++ if lastPart path = [] then [] else [lastPart path] := by
  have hpiece : ∀ b : List UInt8, slash ∉ b → pieces [slash] b = if b = [] then [] else [b] :=
    fun b hb => pieces_of_forall fun c hc => by
      rw [List.mem_singleton]
      rintro rfl
      exact hb hc
  rcases parts_cases path with ⟨-, hmem, hdir, hlast⟩ | ⟨a, b, hpath, hb, -, hdir, hlast⟩
  · rw [hdir, hlast, hpiece path hmem]
    rfl
  · rw [hdir, hlast, hpath, pieces_append (List.mem_singleton_self _), hpiece b hb]

theorem exec_resolve (path : List UInt8) : (resolve u deny cwd path).exec n w
    = (resolveDir u deny cwd path >>= openIn u deny).exec n w := by
  rw [resolve, pieces_eq_parts, exec_follow_append, exec_bind, exec_bind, resolveDir, exec_bind,
    Option.bind_assoc]
  refine congrArg _ (funext fun r => ?_)
  obtain ⟨found, w'⟩ := r
  cases found with
  | none => rfl
  | some inode =>
    show (follow u deny inode _).exec n w' = (openIn u deny (some inode, lastPart path)).exec n w'
    rw [openIn]
    split
    · rfl
    · exact exec_follow_singleton u deny inode (lastPart path)

/-! ## The entry points -/

/-- The first byte of the path is a slash, and no other is. -/
def OnlyLeadingSlash (path : List UInt8) : Prop := path.head? = some slash ∧ slash ∉ path.tail

instance (path : List UInt8) : Decidable (OnlyLeadingSlash path) :=
  inferInstanceAs (Decidable (_ ∧ _))

/-- The entry points resolve a path as they should. -/
structure ResolvesNames (n : Nat) (w : FsWorld) (u : Uninit) (deny : Nat → Nat) (cwd : Nat)
    (path : List UInt8) : Prop where
  /-- `filesys_open` opens the inode that the path names, and fails if it names none. -/
  opens : (filesysOpen u deny cwd path).exec n w = (resolve u deny cwd path).exec n w
  /-- `current_dir` is the directory named by the part before the last slash, with the starting
  point of the path. -/
  dir : (splitPath u deny cwd path).exec n w = (resolveDir u deny cwd path).exec n w
  /-- `filesys_create` acts in that directory. -/
  creates : ∀ depth e initialSize isDir,
    (filesysCreate u deny depth e cwd path initialSize isDir).exec n w
      = (resolveDir u deny cwd path >>= createIn u deny depth e cwd initialSize isDir).exec n w
  /-- `filesys_remove` acts in that directory. -/
  removes : ∀ depth, (filesysRemove u deny depth cwd path).exec n w
    = (resolveDir u deny cwd path >>= removeIn u deny depth cwd).exec n w
  /-- `path_parsing` finds the inode that the path names. -/
  parses : (pathParsing u deny cwd path).exec n w = (resolve u deny cwd path).exec n w

theorem splitPath_leading (hb : slash ∉ b) :
    splitPath u deny cwd (slash :: b) = pure (some (inodeOpen deny cwd), b) := by
  rw [splitPath, show strrchr (slash :: b) slash = some 0 from strrchr_append [] hb]
  dsimp only
  rw [List.take_zero, pathParsing_eq_resolve]
  rfl

theorem resolveDir_leading (hb : slash ∉ b) :
    resolveDir u deny cwd (slash :: b) = pure (some (inodeOpen deny rootDirSector), b) := by
  rw [resolveDir, dirPart, lastPart, show strrchr (slash :: b) slash = some 0 from
    strrchr_append [] hb]
  rfl

theorem splitPath_eq_resolveDir {path : List UInt8}
    (h : cwd = rootDirSector ∨ ¬ OnlyLeadingSlash path) :
    splitPath u deny cwd path = resolveDir u deny cwd path := by
  rcases parts_cases path with ⟨hnone, hmem, hdir, hlast⟩ | ⟨a, b, hpath, hb, hsome, hdir, hlast⟩
  · have hhead : path.head? ≠ some slash := fun hc => hmem (List.mem_of_mem_head? hc)
    rw [splitPath, hnone, resolveDir, hdir, hlast, startDir, if_neg hhead]
    rfl
  · have hstart : startDir deny cwd a = startDir deny cwd path := by
      rw [startDir, startDir, hpath]
      cases a with
      | cons c a => rfl
      | nil =>
        have hcwd : cwd = rootDirSector :=
          h.resolve_right (not_not.mpr (by rw [hpath]; exact ⟨rfl, hb⟩))
        rw [hcwd]
        simp
    rw [splitPath, hsome, resolveDir, hdir, hlast]
    dsimp only
    rw [show path.take a.length = a by rw [hpath, List.take_left],
      show path.drop (a.length + 1) = b by rw [hpath, ← List.drop_drop, List.drop_left]; rfl,
      pathParsing_eq_resolve, resolve, hstart]

/-- **Names.**  On a path that is not empty, all entry points resolve names the same way if and only
if the current directory is the root or the path is not a slash with no slash after it. -/
theorem names_resolve_iff (n : Nat) (w : FsWorld) (u : Uninit) (deny : Nat → Nat) (cwd : Nat)
    (path : List UInt8) (hpath : path ≠ []) :
    ResolvesNames n w u deny cwd path ↔ cwd = rootDirSector ∨ ¬ OnlyLeadingSlash path := by
  constructor
  · intro h
    by_contra hc
    rw [not_or, not_not] at hc
    obtain ⟨hcwd, hhead, htail⟩ := hc
    obtain ⟨b, rfl⟩ := List.head?_eq_some_iff.mp hhead
    rw [List.tail_cons] at htail
    have hdir := h.dir
    rw [splitPath_leading u deny cwd htail, resolveDir_leading u deny cwd htail] at hdir
    injection hdir with hdir
    injection hdir with hdir
    injection hdir with hdir
    injection hdir with hdir
    exact hcwd (congrArg Inode.sector hdir)
  · intro h
    have hsplit := splitPath_eq_resolveDir u deny cwd h
    refine ⟨?_, by rw [hsplit], fun depth e initialSize isDir => ?_, fun depth => ?_,
      by rw [pathParsing_eq_resolve]⟩
    · rw [filesysOpen, if_neg hpath, hsplit, exec_resolve]
    · rw [filesysCreate, if_neg hpath, hsplit]
    · rw [filesysRemove, if_neg hpath, hsplit]

theorem names_resolve_relative : [97, slash, 98] ≠ [] ∧
    ResolvesNames 8 ⟨freeMapInit 8, fun _ => Block.fill 512 0⟩ ⟨0, Block.fill 512 0, 0⟩
      (fun _ => 0) 5 [97, slash, 98] :=
  ⟨by decide, (names_resolve_iff 8 _ _ _ 5 _ (by decide)).mpr (.inr (by decide))⟩

/-- **The path `/` names the current directory.**  A thread in the directory with its inode in
sector 2 opens that directory by `/`, and not the root. -/
theorem open_root_opens_cwd :
    let w : FsWorld := ⟨freeMapInit 8, fun s =>
      if s = rootDirSector ∨ s = 2 then InodeDisk.create true rootDirSector else Block.fill 512 0⟩
    let u : Uninit := ⟨0, Block.fill 512 0, 0⟩
    (filesysOpen u (fun _ => 0) 2 [slash]).exec 8 w = some (some ⟨2, 0⟩, w) ∧
      (resolve u (fun _ => 0) 2 [slash]).exec 8 w = some (some ⟨rootDirSector, 0⟩, w) ∧
      ¬ ResolvesNames 8 w u (fun _ => 0) 2 [slash] := by
  intro w u
  have hopen : (filesysOpen u (fun _ => 0) 2 [slash]).exec 8 w = some (some ⟨2, 0⟩, w) := by
    rw [filesysOpen, if_neg (by decide), splitPath_leading u _ 2 (by decide)]
    rfl
  have hresolve :
      (resolve u (fun _ => 0) 2 [slash]).exec 8 w = some (some ⟨rootDirSector, 0⟩, w) := rfl
  refine ⟨hopen, hresolve, fun h => ?_⟩
  have hopens := h.opens
  rw [hopen] at hopens
  injection hopens with hopens
  injection hopens with hopens
  exact absurd hopens (by decide)

end Pintos
