import Mathlib.Algebra.Ring.Nat
import Mathlib.Data.List.Basic

/-!
# Strings of the C library

A string is the list of its bytes, without the null byte that ends it in memory.

* `strrchr` finds the last occurrence of a byte.  `exists_last_append` and `strrchr_append` take a
  string apart there.
* `strtokR` cuts off the first token.  The tokens that it gives one after another are the `pieces`
  of the string, those between the delimiters that are not empty: `pieces_eq_strtokR` unrolls them
  by one call.
* `strEq` compares a string with the bytes of an array, which need not hold a null byte.
-/

namespace CString

/-! ## Finding the last occurrence of a byte -/

/-- The loop of `strrchr`: what is left of the string starts at index `i`, and `p` is where the byte
was seen last. -/
def strrchrLoop (c : UInt8) : Nat → Option Nat → List UInt8 → Option Nat
  | _, p, [] => p
  | i, p, b :: s => strrchrLoop c (i + 1) (if b = c then some i else p) s

/-- The index of the last `c` in `s`. -/
def strrchr (s : List UInt8) (c : UInt8) : Option Nat := strrchrLoop c 0 none s

variable {c : UInt8} {s : List UInt8} {b : List UInt8}

theorem strrchrLoop_of_not_mem (h : c ∉ s) (i : Nat) (p : Option Nat) :
    strrchrLoop c i p s = p := by
  induction s generalizing i p with
  | nil => rfl
  | cons b s ih =>
    rw [List.mem_cons, not_or] at h
    rw [strrchrLoop, if_neg (Ne.symm h.1), ih h.2]

theorem strrchrLoop_append (a : List UInt8) (h : c ∉ b) (i : Nat)
    (p : Option Nat) : strrchrLoop c i p (a ++ c :: b) = some (i + a.length) := by
  induction a generalizing i p with
  | nil => rw [List.nil_append, strrchrLoop, if_pos rfl, strrchrLoop_of_not_mem h]; rfl
  | cons x a ih => rw [List.cons_append, strrchrLoop, ih, List.length_cons, Nat.add_right_comm,
      Nat.add_assoc]

theorem strrchr_of_not_mem (h : c ∉ s) : strrchr s c = none := strrchrLoop_of_not_mem h 0 none

theorem strrchr_append (a : List UInt8) (h : c ∉ b) : strrchr (a ++ c :: b) c = some a.length := by
  rw [strrchr, strrchrLoop_append a h, Nat.zero_add]

theorem exists_last_append (h : c ∈ s) : ∃ a b, s = a ++ c :: b ∧ c ∉ b := by
  obtain ⟨a, b, hs, ha⟩ := List.eq_append_cons_of_mem (List.mem_reverse.mpr h)
  refine ⟨b.reverse, a.reverse, ?_, by simpa using ha⟩
  rw [← List.reverse_inj, hs]
  simp

/-! ## Tokens -/

/-- `strtok_r`: the first token of `s` and the string that `save_ptr` is left at. -/
def strtokR (delimiters s : List UInt8) : Option (List UInt8 × List UInt8) :=
  let s := s.dropWhile delimiters.contains
  if s = [] then none
  else some (s.takeWhile (!delimiters.contains ·), (s.dropWhile (!delimiters.contains ·)).tail)

theorem length_lt_of_strtokR {delimiters token rest : List UInt8}
    (h : strtokR delimiters s = some (token, rest)) : rest.length < s.length := by
  simp only [strtokR] at h
  split at h
  · cases h
  · rename_i hne
    rw [Option.some_inj, Prod.mk.injEq] at h
    have h1 := (List.dropWhile_suffix delimiters.contains (l := s)).length_le
    have h2 := (List.dropWhile_suffix (!delimiters.contains ·)
      (l := s.dropWhile delimiters.contains)).length_le
    have h3 := List.length_pos_of_ne_nil hne
    rw [← h.2, List.length_tail]
    omega

/-- The parts of `s` between delimiters that are not empty. -/
def pieces (delimiters s : List UInt8) : List (List UInt8) :=
  (s.splitOnP delimiters.contains).filter (· ≠ [])

variable {delimiters : List UInt8}

theorem pieces_of_forall (h : ∀ c ∈ s, c ∉ delimiters) :
    pieces delimiters s = if s = [] then [] else [s] := by
  rw [pieces, List.splitOnP_eq_singleton fun c hc => by simpa using h c hc]
  split <;> simp_all

theorem pieces_append (h : c ∈ delimiters) (a b : List UInt8) :
    pieces delimiters (a ++ c :: b) = pieces delimiters a ++ pieces delimiters b := by
  rw [pieces, List.splitOnP_append_cons a b (by simpa using h), List.filter_append, ← pieces,
    ← pieces]

theorem pieces_dropWhile (s : List UInt8) :
    pieces delimiters (s.dropWhile delimiters.contains) = pieces delimiters s := by
  induction s with
  | nil => rfl
  | cons c s ih =>
    rw [List.dropWhile_cons]
    split
    · rename_i hc
      rw [ih, ← List.nil_append (c :: s), pieces_append (by simpa using hc)]
      rfl
    · rfl

/-- The first piece is the first token, and the others are the pieces of what is left. -/
theorem pieces_eq_strtokR (s : List UInt8) : pieces delimiters s =
    match strtokR delimiters s with
    | none => []
    | some (token, rest) => token :: pieces delimiters rest := by
  rw [← pieces_dropWhile, strtokR]
  have hhead := List.head?_dropWhile_not delimiters.contains s
  generalize s.dropWhile delimiters.contains = s at hhead ⊢
  by_cases hs : s = []
  · subst hs
    rfl
  · rw [if_neg hs]
    have hsplit := List.takeWhile_append_dropWhile (p := (!delimiters.contains ·)) (l := s)
    have htoken : ∀ c ∈ s.takeWhile (!delimiters.contains ·), c ∉ delimiters := by
      intro c hc
      simpa using List.all_eq_true.mp (List.all_takeWhile) c hc
    have hne : s.takeWhile (!delimiters.contains ·) ≠ [] := by
      cases s with
      | nil => exact absurd rfl hs
      | cons c s => simp_all
    cases hrest : s.dropWhile (!delimiters.contains ·) with
    | nil =>
      rw [hrest, List.append_nil] at hsplit
      rw [hsplit] at htoken ⊢
      rw [pieces_of_forall htoken, if_neg hs]
      rfl
    | cons c rest =>
      have hc : c ∈ delimiters := by
        have := List.head?_dropWhile_not (!delimiters.contains ·) s
        rw [hrest] at this
        simpa using this
      rw [hrest] at hsplit
      conv_lhs => rw [← hsplit]
      rw [pieces_append hc, pieces_of_forall htoken, if_neg hne]
      rfl

/-- A token and what is left come out of the string, with a delimiter between them if something is
left. -/
theorem strtokR_split {token rest : List UInt8} (h : strtokR delimiters s = some (token, rest)) :
    (∀ c ∈ token ++ rest, c ∈ s) ∧
      (rest = [] ∧ token.length ≤ s.length ∨ token.length + 1 + rest.length ≤ s.length) := by
  simp only [strtokR] at h
  split at h
  · cases h
  · cases h
    have hsuffix := List.dropWhile_suffix delimiters.contains (l := s)
    generalize s.dropWhile delimiters.contains = t at hsuffix
    have hsplit := List.takeWhile_append_dropWhile (p := (!delimiters.contains ·)) (l := t)
    have hlen := congrArg List.length hsplit
    have hle := hsuffix.length_le
    rw [List.length_append] at hlen
    refine ⟨fun c hc => hsuffix.subset ?_, ?_⟩
    · rcases List.mem_append.mp hc with hc | hc
      · exact List.takeWhile_subset _ hc
      · exact (List.dropWhile_suffix _).subset (List.mem_of_mem_tail hc)
    · cases hrest : t.dropWhile (!delimiters.contains ·) with
      | nil => exact .inl ⟨rfl, by omega⟩
      | cons c rest =>
        rw [hrest, List.length_cons] at hlen
        exact .inr (by rw [List.tail_cons]; omega)

theorem pieces_induction {P : List UInt8 → List (List UInt8) → Prop}
    (hnil : ∀ s, strtokR delimiters s = none → P s [])
    (hcons : ∀ s token rest, strtokR delimiters s = some (token, rest) →
      P rest (pieces delimiters rest) → P s (token :: pieces delimiters rest)) (s : List UInt8) :
    P s (pieces delimiters s) := by
  rw [pieces_eq_strtokR]
  cases h : strtokR delimiters s with
  | none => exact hnil s h
  | some r => exact hcons s r.1 r.2 h (pieces_induction hnil hcons r.2)
termination_by s.length
decreasing_by exact length_lt_of_strtokR h

theorem subset_of_mem_pieces : ∀ token ∈ pieces delimiters s, ∀ c ∈ token, c ∈ s := by
  refine pieces_induction (P := fun s tokens => ∀ token ∈ tokens, ∀ c ∈ token, c ∈ s)
    (fun s _ token htoken => by cases htoken) (fun s first rest h ih token htoken c hc => ?_) s
  obtain ⟨hsub, -⟩ := strtokR_split h
  rcases List.mem_cons.mp htoken with rfl | htoken
  · exact hsub c (List.mem_append_left _ hc)
  · exact hsub c (List.mem_append_right _ (ih token htoken c hc))

example : pieces [47] [47, 97, 47, 47, 98] = [[97], [98]] := by decide

/-! ## Comparison -/

/-- Does `strcmp` find the string `s` equal to the one that the array `bytes` starts with?  `none`
if it would read past the array. -/
def strEq : List UInt8 → List UInt8 → Option Bool
  | _, [] => none
  | [], b :: _ => some (b == 0)
  | c :: s, b :: bytes => if c = b then strEq s bytes else some false

end CString
