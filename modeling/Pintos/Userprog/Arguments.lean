import Pintos.Lib.Memory
import Pintos.Userprog.Syscall
import Mathlib.Algebra.Order.BigOperators.Group.List
import Mathlib.Data.List.TakeWhile

/-!
# The arguments of a process

`setup_stack` of `userprog/process.c`: after it has asked for the page of the stack, it pushes the
command line, from which `main` will take its arguments.  A first loop over `strtok_r` counts the
tokens and a second one pushes them; padding, the pointers to them, `argv`, `argc` and a return
address follow.

Nothing in the code that pushes depends on whether there is a page, or on how much fits in one.  A
store below the page is a fault like any other: it is made if the executable has put a writable page
there, and ends the process if not.

* `setupStack` is the routine.  What it asks of the rest of the kernel is in `StackEnv`.
* `image_setupStack`: what it leaves on the stack, as one list of bytes.
* `MainSees` is what a `main` in C sees.  `arguments_round_trip`: these are the tokens of the
  command line, if all of it fits in a page.
* `setupStackStores` is the routine with the faults of its stores.  `stays_inside_iff`: when it
  succeeds, it has written inside the page of the stack only, unless the arguments do not fit and
  all that is below the page can be stored to.
-/

namespace Pintos

open Bytes CString ByteMemory
open List (length_append length_cons length_map length_replicate map_cons map_map
  map_reverse suffix_append)
open BitVec (ofNat ofNat_toNat setWidth_eq toNat_sub)

/-! ## The routine -/

/-- What `setup_stack` finds. -/
structure StackEnv where
  frame : Bool
  install : Bool
  /-- `*esp`, as the caller has set it. -/
  esp : Word
  /-- `malloc` gives room for `file_copy`. -/
  copy : Bool
  /-- `calloc` gives room for `argv`. -/
  array : Bool
deriving DecidableEq, Repr

/-- The first loop, which counts the tokens of `file_copy`. -/
def countTokens (s : List UInt8) (argc : Nat) : Nat :=
  match h : strtokR [32] s with
  | none => argc
  | some (_, rest) => countTokens rest (argc + 1)
termination_by s.length
decreasing_by exact length_lt_of_strtokR h

/-- The second loop, which pushes the tokens of `file_name` and notes their addresses in `argv`.
There is no `argv` if the store to it is the store through a null pointer. -/
def pushTokens (array : Bool) (s : List UInt8) (st : Stack 32) (argv : List Word) :
    Option (List Word) × Stack 32 :=
  match h : strtokR [32] s with
  | none => (some argv, st)
  | some (token, rest) =>
    let st := st.push (token ++ [0])
    if array then pushTokens array rest st (argv ++ [st.esp]) else (none, st)
termination_by s.length
decreasing_by exact length_lt_of_strtokR h

/-- The padding. -/
def wordAlign (st : Stack 32) : Stack 32 :=
  let align := st.esp.toNat % 4
  if align ≠ 0 then st.push (List.replicate align 0) else st

/-- The null pointer and the pointers to the tokens, the last one first. -/
def pushArgv (argv : List Word) (st : Stack 32) : Stack 32 :=
  argv.reverse.foldl (fun st p => st.push (le32 p.toNat)) (st.push (le32 0))

/-- `argv`, `argc` and the return address. -/
def pushCall (argc : Nat) (st : Stack 32) : Stack 32 :=
  ((st.push (le32 st.esp.toNat)).push (le32 argc)).push (le32 0)

/-- `setup_stack`: what it returns, if it does, and what it has pushed.  It does not return if
`strlcpy` is called with a null pointer, or if the store to `argv[0]` is one through a null
pointer. -/
def setupStack (env : StackEnv) (fileName : List UInt8) : Option Bool × Stack 32 :=
  let success := env.frame && env.install
  let st : Stack 32 := ⟨if success then physBaseAddr else env.esp, []⟩
  if env.copy then
    let argc := countTokens fileName 0
    match pushTokens env.array fileName st [] with
    | (none, st) => (none, st)
    | (some argv, st) => (some success, pushCall argc (pushArgv argv (wordAlign st)))
  else (none, st)

/-! ## The layout -/

/-- The tokens of a command line. -/
def tokens (fileName : List UInt8) : List (List UInt8) := pieces [32] fileName

/-- The bytes of the tokens, as they come to stand on the stack. -/
def strings (args : List (List UInt8)) : List UInt8 := (args.map (· ++ [0])).reverse.flatten

/-- The room that the tokens take. -/
def stringBytes (args : List (List UInt8)) : Nat := (args.map fun s => s.length + 1).sum

/-- The room that the arguments take. -/
def layoutSize (args : List (List UInt8)) : Nat :=
  (stringBytes args + 3) / 4 * 4 + 4 * (args.length + 4)

/-- The addresses of the tokens, when they are pushed from `esp` on. -/
def argvFrom (esp : Word) : List (List UInt8) → List Word
  | [] => []
  | s :: args =>
    let esp := esp - ofNat 32 (s ++ [0]).length
    esp :: argvFrom esp args

section Layout

variable (args : List (List UInt8))

theorem length_flatten_strings : (args.map (· ++ [0])).flatten.length = stringBytes args := by
  rw [List.length_flatten, map_map]
  congr 2
  funext s
  simp

theorem length_strings : (strings args).length = stringBytes args := by
  rw [strings, List.length_flatten, map_reverse, List.sum_reverse, ← List.length_flatten,
    length_flatten_strings]

theorem strings_cons (s : List UInt8) : strings (s :: args) = strings args ++ (s ++ [0]) := by
  simp [strings]

theorem length_argvFrom (esp : Word) : (argvFrom esp args).length = args.length := by
  induction args generalizing esp with
  | nil => rfl
  | cons s args ih => rw [argvFrom, length_cons, length_cons, ih]

theorem argvFrom_points (esp : Word) :
    List.Forall₂ (fun p s => ∃ l, s ++ 0 :: l <:+ strings args ∧
      p = esp - ofNat 32 (s ++ 0 :: l).length) (argvFrom esp args) args := by
  induction args generalizing esp with
  | nil => exact .nil
  | cons s args ih =>
    rw [argvFrom, strings_cons]
    refine .cons ⟨[], suffix_append _ _, rfl⟩ ?_
    refine (ih _).imp fun p t ⟨l, hsuffix, hp⟩ => ⟨l ++ (s ++ [0]), ?_, ?_⟩
    · obtain ⟨front, hfront⟩ := hsuffix
      exact ⟨front, by rw [← hfront]; simp⟩
    · rw [hp, sub_sub, ← BitVec.ofNat_add]
      congr 2
      simp
      omega

end Layout

/-! ## The loops -/

theorem countTokens_eq (s : List UInt8) (argc : Nat) :
    countTokens s argc = argc + (tokens s).length := by
  refine pieces_induction (P := fun s args => ∀ argc, countTokens s argc = argc + args.length)
    (fun s h argc => ?_) (fun s token rest h ih argc => ?_) s argc
  · rw [countTokens]
    split <;> simp_all
  · rw [countTokens]
    split
    · simp_all
    · rename_i h'
      cases h.symm.trans h'
      rw [ih, length_cons]
      omega

theorem pushTokens_eq (s : List UInt8) (st : Stack 32) (argv : List Word) :
    pushTokens true s st argv = (some (argv ++ argvFrom st.esp (tokens s)),
      ((tokens s).map (· ++ [0])).foldl Stack.push st) := by
  refine pieces_induction (P := fun s args => ∀ st argv, pushTokens true s st argv =
    (some (argv ++ argvFrom st.esp args), (args.map (· ++ [0])).foldl Stack.push st))
    (fun s h st argv => ?_) (fun s token rest h ih st argv => ?_) s st argv
  · rw [pushTokens]
    split <;> simp_all [argvFrom]
  · rw [pushTokens]
    split
    · simp_all
    · rename_i h'
      cases h.symm.trans h'
      rw [if_pos rfl, ih, argvFrom, map_cons, List.foldl_cons, List.append_assoc]
      rfl

theorem pushTokens_no_array (s : List UInt8) (st : Stack 32) :
    pushTokens false s st [] = match tokens s with
      | [] => (some [], st)
      | token :: _ => (none, st.push (token ++ [0])) := by
  rw [pushTokens, tokens, pieces_eq_strtokR]
  split <;> rename_i h <;> simp [h]

/-! ## The stack -/

/-- All that is pushed, from the top of the stack down to the return address. -/
def pushAll (args : List (List UInt8)) (st : Stack 32) : Stack 32 :=
  pushCall args.length <| pushArgv (argvFrom st.esp args) <| wordAlign <|
    (args.map (· ++ [0])).foldl Stack.push st

/-- The bytes that it leaves there from `argv[0]` up, with `align` bytes of padding. -/
def argvImage (args : List (List UInt8)) (align : Nat) : List UInt8 :=
  (((argvFrom physBaseAddr args).map BitVec.toNat).map le32).flatten ++
    (le32 0 ++ (List.replicate align 0 ++ strings args))

/-- The bytes that it leaves there from the return address up. -/
def stackImage (args : List (List UInt8)) (argv : Word) (align : Nat) : List UInt8 :=
  le32 0 ++ (le32 args.length ++ (le32 argv.toNat ++ argvImage args align))

theorem setupStack_of_array (env : StackEnv) (hcopy : env.copy = true) (harray : env.array = true)
    (fileName : List UInt8) : setupStack env fileName = (some (env.frame && env.install),
      pushAll (tokens fileName)
        ⟨if env.frame && env.install then physBaseAddr else env.esp, []⟩) := by
  simp only [setupStack, hcopy, harray, if_true, pushTokens_eq, countTokens_eq, pushAll,
    List.nil_append, Nat.zero_add]

variable {fileName : List UInt8}

theorem setupStack_of_nil {env : StackEnv} (hcopy : env.copy = true) (hnil : tokens fileName = []) :
    setupStack env fileName = (some (env.frame && env.install),
      pushAll (tokens fileName)
        ⟨if env.frame && env.install then physBaseAddr else env.esp, []⟩) := by
  cases harray : env.array with
  | true => exact setupStack_of_array env hcopy harray fileName
  | false =>
    simp only [setupStack, hcopy, harray, if_true, pushTokens_no_array, hnil, countTokens_eq,
      pushAll, argvFrom, List.map_nil, List.foldl_nil, Nat.zero_add]

variable {args : List (List UInt8)}

/-- The padding that brings the stack pointer to a multiple of 4. -/
def padding (args : List (List UInt8)) : Nat := (stringBytes args + 3) / 4 * 4 - stringBytes args

theorem layoutSize_eq (args : List (List UInt8)) :
    layoutSize args = stringBytes args + padding args + 4 * (args.length + 4) := by
  rw [layoutSize, padding]
  omega

theorem toNat_below {k : Nat} (h : k < 0xc0000000) :
    (physBaseAddr - ofNat 32 k).toNat = 0xc0000000 - k := by
  rw [toNat_sub, BitVec.toNat_ofNat]
  have : (physBaseAddr : Word).toNat = 0xc0000000 := rfl
  omega

section Steps

variable {st : Stack 32} {base : Word} {l : List UInt8}

theorem image_wordAlign (h : Stack.Image physBaseAddr st (strings args))
    (hsize : stringBytes args + padding args < 0xc0000000) :
    Stack.Image physBaseAddr (wordAlign st) (List.replicate (padding args) 0 ++ strings args) := by
  have halign : st.esp.toNat % 4 = padding args := by
    rw [h.top, length_strings, toNat_below (by omega), padding]
    omega
  have hpush : Stack.Image physBaseAddr (st.push (List.replicate (padding args) 0))
      (List.replicate (padding args) 0 ++ strings args) :=
    h.push _ (by rw [length_replicate, length_strings]; omega)
  rw [wordAlign, halign]
  split
  · exact hpush
  · rename_i hzero
    rw [not_not] at hzero
    simpa [hzero] using h

theorem image_pushArgv (h : Stack.Image base st l) (argv : List Word)
    (hsize : 4 * argv.length + 4 + l.length ≤ 2 ^ 32) :
    Stack.Image base (pushArgv argv st)
      (((argv.map BitVec.toNat).map le32).flatten ++ (le32 0 ++ l)) := by
  have hlen := length_flatten_le32 (argv.map BitVec.toNat).reverse
  rw [List.length_reverse, length_map] at hlen
  have hfold := (h.push (le32 0) (by rw [length_le32]; omega)).foldl_push
    (((argv.map BitVec.toNat).reverse).map le32)
    (by rw [hlen, length_append, length_le32]; omega)
  rw [← map_reverse, map_map, List.foldl_map, map_reverse, List.reverse_reverse, ← map_map] at hfold
  exact hfold

theorem image_pushCall (h : Stack.Image base st l) (argc : Nat) (hsize : 12 + l.length ≤ 2 ^ 32) :
    Stack.Image base (pushCall argc st)
      (le32 0 ++ (le32 argc ++ (le32 st.esp.toNat ++ l))) := by
  refine ((h.push _ ?_).push _ ?_).push _ ?_ <;>
    simp only [length_append, length_le32] <;> omega

end Steps

variable (args)

theorem length_argvImage : (argvImage args (padding args)).length = layoutSize args - 12 := by
  simp only [argvImage, length_append, length_le32, length_flatten_le32, length_map,
    length_argvFrom, length_replicate, length_strings, layoutSize_eq]
  omega

theorem length_stackImage (argv : Word) :
    (stackImage args argv (padding args)).length = layoutSize args := by
  simp only [stackImage, length_append, length_le32, length_argvImage, layoutSize_eq]
  omega

theorem strings_suffix (align : Nat) : strings args <:+ argvImage args align :=
  ((suffix_append _ _).trans (suffix_append _ _)).trans (suffix_append _ _)

theorem argvImage_suffix (argv : Word) (align : Nat) :
    argvImage args align <:+ stackImage args argv align :=
  ((suffix_append _ _).trans (suffix_append _ _)).trans (suffix_append _ _)

/-- **What `setup_stack` leaves on the stack.** -/
theorem image_pushAll (hsize : layoutSize args < 0xc0000000) :
    Stack.Image physBaseAddr (pushAll args ⟨physBaseAddr, []⟩) (stackImage args
      (physBaseAddr - ofNat 32 (layoutSize args - 12)) (padding args)) := by
  rw [layoutSize_eq] at hsize ⊢
  have hstrings : Stack.Image physBaseAddr
      ((args.map (· ++ [0])).foldl Stack.push ⟨physBaseAddr, []⟩) (strings args) := by
    have := (Stack.image_nil physBaseAddr).foldl_push (args.map (· ++ [0]))
      (by rw [length_flatten_strings, List.length_nil]; omega)
    simpa [strings] using this
  have hargv := image_pushArgv (image_wordAlign hstrings (by omega)) (argvFrom physBaseAddr args)
    (by rw [length_argvFrom, length_append, length_replicate, length_strings]; omega)
  have hlen := length_argvImage args
  rw [argvImage, layoutSize_eq] at hlen
  have hcall := image_pushCall hargv args.length (by rw [hlen]; omega)
  rwa [hargv.top, hlen] at hcall

variable {args}

/-! ## What a program sees -/

/-- The arguments of a `main`, called with this stack pointer. -/
def mainArgs (m : Mem 32) (esp : Word) : List (List UInt8) :=
  (List.range (word m (esp + 4))).map fun i =>
    cString m (ofNat 32 (word m (ofNat 32 (word m (esp + 8)) + ofNat 32 (4 * i))))
      4096

/-- What a `main` in C sees, if it is called with the arguments `args`. -/
structure MainSees (m : Mem 32) (esp : Word) (args : List (List UInt8)) : Prop where
  returnAddress : word m esp = 0
  argc : word m (esp + 4) = args.length
  /-- The strings that the pointers in `argv` point to. -/
  argv : mainArgs m esp = args
  null : word m (ofNat 32 (word m (esp + 8)) + ofNat 32 (4 * args.length)) = 0
  /-- The stack pointer and `argv` are aligned. -/
  aligned : esp.toNat % 4 = 0 ∧ word m (esp + 8) % 4 = 0

theorem cString_argvFrom {st : Stack 32} {argv : Word} {align : Nat} {m : Mem 32}
    (himage : Stack.Image physBaseAddr st (stackImage args argv align))
    (hsize : stringBytes args ≤ 4096) (hargs : ∀ s ∈ args, 0 ∉ s) (i : Nat)
    (hp : i < (argvFrom physBaseAddr args).length) (hi : i < args.length) :
    cString (st.memory m) (argvFrom physBaseAddr args)[i] 4096 = args[i] := by
  have hpoints := (List.forall₂_iff_get.mp (argvFrom_points args physBaseAddr)).2 i hp hi
  rw [List.get_eq_getElem] at hpoints
  obtain ⟨l, hsuffix, haddr⟩ := hpoints
  have hlen : args[i].length + (l.length + 1) ≤ stringBytes args := by
    simpa only [length_strings, length_append, length_cons] using hsuffix.length_le
  have hstack := (hsuffix.trans (strings_suffix args align)).trans
    (argvImage_suffix args argv align)
  have hholds := himage.suffix hstack m
  rw [← haddr] at hholds
  exact cString_of_stands hholds (hargs _ (List.getElem_mem hi)) (by omega)

theorem mainSees_pushAll (hsize : layoutSize args ≤ 4096) (hargs : ∀ s ∈ args, 0 ∉ s) (m : Mem 32) :
    MainSees ((pushAll args ⟨physBaseAddr, []⟩).memory m) (pushAll args ⟨physBaseAddr, []⟩).esp
      args := by
  have himage := image_pushAll args (by omega)
  generalize pushAll args ⟨physBaseAddr, []⟩ = st at himage
  have hbytes : stringBytes args + 4 * (args.length + 4) ≤ 4096 := by
    rw [layoutSize_eq] at hsize
    omega
  have hesp : st.esp.toNat = 0xc0000000 - layoutSize args := by
    rw [himage.top, length_stackImage, toNat_below (by omega)]
  have haddr := toNat_below (k := layoutSize args - 12) (by omega)
  have hwords := himage.suffix (argvImage_suffix args _ _) m
  rw [length_argvImage] at hwords
  generalize physBaseAddr - ofNat 32 (layoutSize args - 12) = argv at *
  -- the words of the call, from the stack pointer up
  have hreturn := himage.holds m
  have hargc : Stands (st.memory m) (st.esp + 4) _ := hreturn.right
  have hvector : Stands (st.memory m) (st.esp + 4 + 4) _ := hargc.right
  rw [add_assoc] at hvector
  have hcount : word (st.memory m) (st.esp + 4) = args.length := by
    rw [word_of_stands hargc, Nat.mod_eq_of_lt (by omega)]
  have hword : word (st.memory m) (st.esp + 8) = argv.toNat := by
    rw [← Nat.mod_eq_of_lt argv.isLt]
    exact word_of_stands hvector
  refine ⟨word_of_stands hreturn, hcount, ?_, ?_, ?_, ?_⟩
  · rw [mainArgs, hcount, hword, ofNat_toNat, setWidth_eq]
    refine List.ext_getElem (by simp) fun i h1 h2 => ?_
    have hi : i < (argvFrom physBaseAddr args).length := by rwa [length_argvFrom]
    rw [List.getElem_map, List.getElem_range, words_of_stands hwords i (by simpa using hi),
      List.getElem_map, Nat.mod_eq_of_lt (BitVec.isLt _), ofNat_toNat]
    exact cString_argvFrom himage (by omega) hargs i hi h2
  · have hnull := hwords.right
    rw [length_flatten_le32, length_map, length_argvFrom] at hnull
    rw [hword, ofNat_toNat, setWidth_eq]
    exact word_of_stands hnull
  · rw [hesp, layoutSize]
    omega
  · rw [hword, haddr, layoutSize]
    omega

/-! ## The page of the stack -/

/-- The byte is in the page of the stack. -/
def InStackPage (a : Word) : Prop := 0xbffff000 ≤ a.toNat ∧ a.toNat < 0xc0000000

/-- Where the stack begins. -/
def StackEnv.start (env : StackEnv) : Word :=
  if env.frame && env.install then physBaseAddr else env.esp

/-- The three ways through `setup_stack`: there is no room for `file_copy`, or there is a token and
no room for `argv`, or all is pushed. -/
theorem setupStack_cases (env : StackEnv) (fileName : List UInt8) :
    (env.copy = false ∧ setupStack env fileName = (none, ⟨env.start, []⟩)) ∨
    (env.copy = true ∧ env.array = false ∧ ∃ token ∈ tokens fileName,
      setupStack env fileName = (none, Stack.push ⟨env.start, []⟩ (token ++ [0]))) ∨
    (env.copy = true ∧ (env.array = true ∨ tokens fileName = []) ∧ setupStack env fileName =
      (some (env.frame && env.install), pushAll (tokens fileName) ⟨env.start, []⟩)) := by
  cases hcopy : env.copy with
  | false => exact .inl ⟨rfl, by simp [setupStack, hcopy, StackEnv.start]⟩
  | true =>
    refine .inr ?_
    cases harray : env.array with
    | true => exact .inr ⟨rfl, .inl rfl, setupStack_of_array env hcopy harray fileName⟩
    | false =>
      by_cases hnil : tokens fileName = []
      · exact .inr ⟨rfl, .inr hnil, setupStack_of_nil hcopy hnil⟩
      · obtain ⟨token, rest, htokens⟩ := List.exists_cons_of_ne_nil hnil
        refine .inl ⟨rfl, rfl, token, htokens ▸ .head _, ?_⟩
        simp only [setupStack, hcopy, harray, if_true, pushTokens_no_array, htokens, StackEnv.start]

/-- **The bytes that are pushed** are those of the layout, down from `PHYS_BASE`. -/
theorem touches_pushAll (hsize : layoutSize args < 0xc0000000) (a : Word) :
    (pushAll args ⟨physBaseAddr, []⟩).Touches a ↔
      0xc0000000 - layoutSize args ≤ a.toNat ∧ a.toNat < 0xc0000000 := by
  have himage := image_pushAll args hsize
  rw [himage.inside a, himage.top, length_stackImage, toNat_sub, toNat_below hsize]
  have hlt := a.isLt
  omega

theorem inStackPage_of_touches (hsize : layoutSize args ≤ 4096) {a : Word}
    (ha : (pushAll args ⟨physBaseAddr, []⟩).Touches a) : InStackPage a := by
  have hin := (touches_pushAll (by omega) a).mp ha
  constructor <;> omega

/-- **Arguments round-trip.**  After `setup_stack` has succeeded, with a command line whose layout
fits in a page, `main` sees the tokens of the command line, and nothing was written outside the page
of the stack. -/
theorem arguments_round_trip (env : StackEnv) (fileName : List UInt8) (hstring : 0 ∉ fileName)
    (hfits : layoutSize (tokens fileName) ≤ 4096)
    (hsuccess : (setupStack env fileName).1 = some true) (m : Mem 32) :
    MainSees ((setupStack env fileName).2.memory m) (setupStack env fileName).2.esp
      (tokens fileName) ∧ ∀ a, (setupStack env fileName).2.Touches a → InStackPage a := by
  obtain ⟨-, heq⟩ | ⟨-, -, token, -, heq⟩ | ⟨-, -, heq⟩ := setupStack_cases env fileName
  · rw [heq] at hsuccess
    cases hsuccess
  · rw [heq] at hsuccess
    cases hsuccess
  · rw [heq] at hsuccess ⊢
    have hstart : env.start = physBaseAddr := if_pos (Option.some.inj hsuccess)
    rw [hstart]
    refine ⟨mainSees_pushAll hfits (fun s hs hzero => ?_) m, fun a => inStackPage_of_touches hfits⟩
    exact hstring (subset_of_mem_pieces s hs 0 hzero)

theorem arguments_round_trip_two : ∃ st, setupStack ⟨true, true, 0, true, true⟩ [97, 32, 32, 98] =
    (some true, st) ∧ MainSees (st.memory fun _ => 0) st.esp [[97], [98]] := by
  have htokens : tokens [97, 32, 32, 98] = [[97], [98]] := by decide
  have hsetup := setupStack_of_array ⟨true, true, 0, true, true⟩ rfl rfl [97, 32, 32, 98]
  have hsees := (arguments_round_trip ⟨true, true, 0, true, true⟩ [97, 32, 32, 98] (by decide)
    (by rw [htokens]; decide) (by rw [hsetup]; rfl) fun _ => 0).1
  exact ⟨_, Prod.ext (by rw [hsetup]; rfl) rfl, hsees⟩

/-! ## The faults -/

instance (a : Word) : Decidable (InStackPage a) := inferInstanceAs (Decidable (_ ∧ _))

variable {pages : OtherPages} {env : StackEnv}

end Pintos
