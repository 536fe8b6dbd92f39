import Pintos.Lib.Strings

/-!
# Tokenising a string in memory

`strtok_r` of `lib/string.c` on the array that the string is in.  `CString.strtokR` takes tokens off
a list; here the calls leave null bytes in the array and a saved pointer into it, and the end of the
string is found because `strchr` finds the null byte in any string of delimiters.

* `strtokR_step`: with a part of the array behind the pointer and a string before it, a call does
  what `CString.strtokR` does to that string.
* `tokenising_splits`: the calls give the pieces between the delimiters, and then null for ever.

A read past an array fails, as does a loop that has not ended after as many rounds as the array has
bytes.  The string and its null byte fill the array, so that a call that returns has read nothing
behind them.
-/

namespace Pintos

open CString (pieces pieces_eq_strtokR)

/-- `strchr`, on the array from index `i` on. -/
def strchr (c : UInt8) : List UInt8 → Nat → Option (Option Nat)
  | [], _ => none
  | b :: string, i =>
    if b = c then some (some i) else if b = 0 then some none else strchr c string (i + 1)

/-- The first loop of `strtok_r`: where it stops, and whether a token starts there. -/
def skipDelimiters (delimiters mem : List UInt8) : Nat → Nat → Option (Nat × Bool)
  | 0, _ => none
  | fuel + 1, s => do
    let c ← mem[s]?
    if (← strchr c delimiters 0).isSome then
      if c = 0 then return (s, false) else skipDelimiters delimiters mem fuel (s + 1)
    else return (s, true)

/-- The second loop of `strtok_r`. -/
def skipToken (delimiters mem : List UInt8) : Nat → Nat → Option Nat
  | 0, _ => none
  | fuel + 1, s => do
    let c ← mem[s]?
    if (← strchr c delimiters 0).isSome then return s else skipToken delimiters mem fuel (s + 1)

/-- The array that the string is in, and the pointer into it that `save_ptr` points to. -/
structure Tokenizer where
  mem : List UInt8
  savePtr : Nat
deriving DecidableEq, Repr

/-- `strtok_r`.  A pointer is an index into the array. -/
def Tokenizer.strtokR (delimiters : List UInt8) (s : Option Nat) (st : Tokenizer) :
    Option (Option Nat × Tokenizer) := do
  let (token, found) ← skipDelimiters delimiters st.mem st.mem.length (s.getD st.savePtr)
  if found then
    let s ← skipToken delimiters st.mem st.mem.length token
    if (← st.mem[s]?) ≠ 0 then return (some token, ⟨st.mem.set s 0, s + 1⟩)
    else return (some token, ⟨st.mem, s⟩)
  else return (none, ⟨st.mem, token⟩)

/-- The string that starts at `p`. -/
def stringAt (mem : List UInt8) (p : Nat) : List UInt8 := (mem.drop p).takeWhile (· ≠ 0)

/-- As many calls of `strtok_r`, the first with `s` and the others with a null pointer: the strings
that they return. -/
def strtokCalls (delimiters : List UInt8) :
    Nat → Option Nat → Tokenizer → Option (List (Option (List UInt8)))
  | 0, _, _ => some []
  | n + 1, s, st => do
    let (token, st) ← st.strtokR delimiters s
    return token.map (stringAt st.mem) :: (← strtokCalls delimiters n none st)

theorem stringAt_append {t : List UInt8} (ht : 0 ∉ t) (before l : List UInt8) :
    stringAt (before ++ (t ++ 0 :: l)) before.length = t := by
  have hpos : ∀ c ∈ t, decide (c ≠ 0) = true := fun c hc =>
    decide_eq_true fun h0 => ht (h0 ▸ hc)
  rw [stringAt, List.drop_left, List.takeWhile_append_of_pos hpos]
  simp

section

variable {delimiters : List UInt8} (hd : 0 ∉ delimiters)
include hd

theorem strchr_isSome (c : UInt8) (i : Nat) : ∃ r, strchr c (delimiters ++ [0]) i = some r ∧
    r.isSome = decide (c = 0 ∨ c ∈ delimiters) := by
  induction delimiters generalizing i with
  | nil =>
    by_cases hc : c = 0
    · exact ⟨some i, by simp [strchr, hc], by simp [hc]⟩
    · exact ⟨none, by simp [strchr, Ne.symm hc], by simp [hc]⟩
  | cons b delimiters ih =>
    rw [List.mem_cons, not_or] at hd
    rw [List.cons_append, strchr]
    by_cases hb : b = c
    · exact ⟨some i, if_pos hb, by simp [hb]⟩
    · obtain ⟨r, hr, hsome⟩ := ih hd.2 (i + 1)
      exact ⟨r, by rw [if_neg hb, if_neg (Ne.symm hd.1), hr], by simp [hsome, Ne.symm hb]⟩

variable {rest : List UInt8} (hrest : 0 ∉ rest) (before : List UInt8) {s : Option Nat}
  {savePtr : Nat}
include hrest

theorem skipDelimiters_eq (k : Nat) : skipDelimiters (delimiters ++ [0]) (before ++ (rest ++ [0]))
      (k + rest.length + 1) before.length
    = some (before.length + (rest.takeWhile delimiters.contains).length,
      decide (rest.dropWhile delimiters.contains ≠ [])) := by
  induction rest generalizing before with
  | nil =>
    obtain ⟨r, hr, hsome⟩ := strchr_isSome hd 0 0
    simp [skipDelimiters, hr, hsome]
  | cons c rest ih =>
    rw [List.mem_cons, not_or] at hrest
    obtain ⟨r, hr, hsome⟩ := strchr_isSome hd c 0
    have hstep := ih hrest.2 (before ++ [c])
    by_cases hc : c ∈ delimiters
    · simpa [skipDelimiters, hr, hsome, hc, Ne.symm hrest.1, Nat.add_assoc, Nat.add_comm 1]
        using hstep
    · simp [skipDelimiters, hr, hsome, hc, Ne.symm hrest.1]

theorem skipToken_eq (k : Nat) : skipToken (delimiters ++ [0]) (before ++ (rest ++ [0]))
      (k + rest.length + 1) before.length
    = some (before.length + (rest.takeWhile (!delimiters.contains ·)).length) := by
  induction rest generalizing before with
  | nil =>
    obtain ⟨r, hr, hsome⟩ := strchr_isSome hd 0 0
    simp [skipToken, hr, hsome]
  | cons c rest ih =>
    rw [List.mem_cons, not_or] at hrest
    obtain ⟨r, hr, hsome⟩ := strchr_isSome hd c 0
    have hstep := ih hrest.2 (before ++ [c])
    by_cases hc : c ∈ delimiters
    · simp [skipToken, hr, hsome, hc]
    · simpa [skipToken, hr, hsome, hc, Ne.symm hrest.1, Nat.add_assoc, Nat.add_comm 1] using hstep

/-- **A call of `strtok_r`** takes a token off the string before the pointer. -/
theorem strtokR_step (hs : s.getD savePtr = before.length) :
    ∃ before' rest' token, 0 ∉ rest' ∧
      Tokenizer.strtokR (delimiters ++ [0]) s ⟨before ++ (rest ++ [0]), savePtr⟩
        = some (token, ⟨before' ++ (rest' ++ [0]), before'.length⟩) ∧
      CString.strtokR delimiters rest
        = token.map (fun p => (stringAt (before' ++ (rest' ++ [0])) p, rest')) ∧
      (token = none → rest' = []) := by
  have hlen : ∀ before rest : List UInt8,
      (before ++ (rest ++ [0])).length = before.length + rest.length + 1 := by
    simp [Nat.add_assoc]
  have hsplit := List.takeWhile_append_dropWhile (p := delimiters.contains) (l := rest)
  rw [Tokenizer.strtokR, CString.strtokR, hs, hlen, skipDelimiters_eq hd hrest before]
  generalize rest.takeWhile delimiters.contains = lead at *
  generalize rest.dropWhile delimiters.contains = body at *
  subst hsplit
  rw [List.mem_append, not_or] at hrest
  by_cases hbody : body = []
  · exact ⟨before ++ lead, [], none, List.not_mem_nil, by simp [hbody], by simp [hbody],
      fun _ => rfl⟩
  · have hmem : before ++ (lead ++ body ++ [0]) = before ++ lead ++ (body ++ [0]) := by simp
    have hsplit := List.takeWhile_append_dropWhile (p := (!delimiters.contains ·)) (l := body)
    have htoken := skipToken_eq hd hrest.2 (before ++ lead) (before ++ lead).length
    rw [List.length_append, ← Nat.add_assoc, ← List.length_append, hmem]
    simp only [htoken, hbody, ne_eq, Option.bind_eq_bind, Option.bind_some]
    generalize before ++ lead = before
    generalize body.takeWhile (!delimiters.contains ·) = t at *
    generalize body.dropWhile (!delimiters.contains ·) = tail at *
    subst hsplit
    rw [List.mem_append, not_or] at hrest
    cases tail with
    | nil =>
      refine ⟨before ++ t, [], some before.length, List.not_mem_nil, by simp, ?_, by simp⟩
      simpa using (stringAt_append hrest.2.1 before []).symm
    | cons c tail =>
      rw [List.mem_cons, not_or] at hrest
      refine ⟨before ++ t ++ [0], tail, some before.length, hrest.2.2.2, ?_, ?_, by simp⟩
      · simp [Ne.symm hrest.2.2.1, Nat.add_assoc]
      · simpa using (stringAt_append hrest.2.1 before (tail ++ [0])).symm

theorem strtokCalls_eq (hs : s.getD savePtr = before.length)
    (n : Nat) : strtokCalls (delimiters ++ [0]) n s ⟨before ++ (rest ++ [0]), savePtr⟩
      = some (((pieces delimiters rest).map some).takeD n none) := by
  induction n generalizing before rest s savePtr with
  | zero => rfl
  | succ n ih =>
    obtain ⟨before', rest', token, hrest', hcall, htoken, hnone⟩ := strtokR_step hd hrest before hs
    have hrun := ih hrest' before' (s := none) rfl
    rw [strtokCalls, hcall, pieces_eq_strtokR, htoken]
    cases token with
    | none =>
      obtain rfl := hnone rfl
      have hnil : pieces delimiters ([] : List UInt8) = [] := rfl
      rw [hnil, List.nil_append] at hrun
      simp [hrun]
    | some p => simp [hrun]

end

/-- **Tokenising is splitting.**  However many calls are made, they give the pieces between the
delimiters, in order, and then null. -/
theorem tokenising_splits (delimiters s : List UInt8) (hd : 0 ∉ delimiters) (hs : 0 ∉ s)
    (savePtr n : Nat) : strtokCalls (delimiters ++ [0]) n (some 0) ⟨s ++ [0], savePtr⟩
      = some (((pieces delimiters s).map some).takeD n none) :=
  strtokCalls_eq hd hs [] rfl n

theorem tokenising_splits_path :
    strtokCalls [47, 0] 4 (some 0) ⟨[47, 97, 47, 47, 98, 0], 7⟩
      = some [some [97], some [98], none, none] :=
  tokenising_splits [47] [47, 97, 47, 47, 98] (by decide) (by decide) 7 4

end Pintos
