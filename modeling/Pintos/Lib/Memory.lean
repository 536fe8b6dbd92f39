import Pintos.Lib.Bytes
import Mathlib.Data.BitVec
import Mathlib.Data.List.GetD

/-!
# A stack that grows down in memory

Memory is a byte at every address, and an address is a word of `w` bits, so that copying past the
last address goes on at the first.

* `copy` writes bytes from an address on, and `Stands` says that a list stands in memory from an
  address on.  What holds of a list holds of its parts (`Stands.left`, `Stands.right`).
* `word` and `cString` read memory, the way that a program in C reads a word or a string.
* `Stack` is a stack pointer with the writes made through it so far.  `Image` says what they amount
  to: the stack holds one list of bytes from the stack pointer up to where it began, and just these
  bytes were written (`addresses`, in their order).  `Image.push` adds to that list at its front,
  and `Image.suffix` finds what an earlier stack pointer points at.
-/

namespace ByteMemory

open Bytes
open BitVec (ofNat ofNat_add toNat_ofNat)

variable {w : Nat}

/-! ## Memory -/

/-- A byte at every address. -/
abbrev Mem (w : Nat) : Type := BitVec w → UInt8

/-- The memory with `bytes` copied to `dst`. -/
def copy (m : Mem w) (dst : BitVec w) (bytes : List UInt8) : Mem w := fun a =>
  if (a - dst).toNat < bytes.length then bytes.getD (a - dst).toNat 0 else m a

/-- The list stands in memory from `a` on. -/
def Stands (m : Mem w) (a : BitVec w) (l : List UInt8) : Prop :=
  ∀ i, i < l.length → m (a + ofNat w i) = l.getD i 0

/-- The 32-bit word at an address. -/
def word (m : Mem w) (a : BitVec w) : Nat :=
  ofLe ((List.range 4).map fun i => m (a + ofNat w i))

/-- The string at an address, of which no more than `n` bytes are read. -/
def cString (m : Mem w) : BitVec w → Nat → List UInt8
  | _, 0 => []
  | a, n + 1 => if m a = 0 then [] else m a :: cString m (a + ofNat w 1) n

section Stands

variable {m : Mem w} {a : BitVec w} {l r bytes : List UInt8} {b : UInt8}

theorem Stands.left (h : Stands m a (l ++ r)) : Stands m a l := by
  intro i hi
  rw [h i (by rw [List.length_append]; omega), List.getD_append _ _ _ _ hi]

theorem Stands.right (h : Stands m a (l ++ r)) : Stands m (a + ofNat w l.length) r := by
  intro i hi
  have hi' := h (l.length + i) (by rw [List.length_append]; omega)
  rw [List.getD_append_right _ _ _ _ (by omega), Nat.add_sub_cancel_left] at hi'
  rw [← hi', ofNat_add, add_assoc]

theorem Stands.tail (h : Stands m a (b :: l)) : Stands m (a + ofNat w 1) l :=
  Stands.right (l := [b]) h

theorem Stands.head (h : Stands m a (b :: l)) : m a = b := by
  simpa using h 0 (by simp)

theorem word_of_stands {v : Nat} (h : Stands m a (le32 v ++ l)) : word m a = v % 2 ^ 32 := by
  have hbytes : (List.range 4).map (fun i => m (a + ofNat w i)) = le32 v := by
    refine List.ext_getElem (by simp) fun i h1 h2 => ?_
    rw [List.getElem_map, List.getElem_range, h.left i h2, List.getD_eq_getElem _ _ h2]
  rw [word, hbytes, ofLe_le32_mod]

theorem words_of_stands {vs : List Nat} (h : Stands m a ((vs.map le32).flatten ++ l)) (i : Nat)
    (hi : i < vs.length) : word m (a + ofNat w (4 * i)) = vs[i] % 2 ^ 32 := by
  induction vs generalizing a i with
  | nil => simp at hi
  | cons v vs ih =>
    rw [List.map_cons, List.flatten_cons, List.append_assoc] at h
    cases i with
    | zero => simpa using word_of_stands h
    | succ i =>
      have hrest := ih h.right i (by simpa using hi)
      rw [length_le32, add_assoc, ← ofNat_add, Nat.add_comm 4] at hrest
      exact hrest

theorem length_flatten_le32 (vs : List Nat) : (vs.map le32).flatten.length = 4 * vs.length := by
  induction vs with
  | nil => rfl
  | cons v vs ih =>
    rw [List.map_cons, List.flatten_cons, List.length_append, ih, length_le32, List.length_cons]
    omega

theorem cString_of_stands {s : List UInt8} {n : Nat} (h : Stands m a (s ++ 0 :: l)) (hs : 0 ∉ s)
    (hn : s.length < n) : cString m a n = s := by
  induction s generalizing a n with
  | nil =>
    obtain ⟨n, rfl⟩ := Nat.exists_eq_add_one_of_ne_zero hn.ne'
    rw [cString, if_pos h.head]
  | cons b s ih =>
    obtain ⟨n, rfl⟩ := Nat.exists_eq_add_one_of_ne_zero (Nat.ne_of_gt (Nat.zero_lt_of_lt hn))
    rw [List.mem_cons, not_or] at hs
    rw [cString, h.head, if_neg (Ne.symm hs.1), ih h.tail hs.2 (Nat.lt_of_succ_lt_succ hn)]

theorem Stands.copy_below (h : Stands m a l) (hlen : bytes.length + l.length ≤ 2 ^ w) :
    Stands (copy m (a - ofNat w bytes.length) bytes) (a - ofNat w bytes.length)
      (bytes ++ l) := by
  intro i hi
  rw [List.length_append] at hi
  have hdist : (a - ofNat w bytes.length + ofNat w i -
      (a - ofNat w bytes.length)).toNat = i := by
    rw [add_sub_cancel_left, toNat_ofNat, Nat.mod_eq_of_lt (by omega)]
  rw [copy, hdist]
  split
  · rename_i hlt
    rw [List.getD_append _ _ _ _ hlt]
  · have haddr : a - ofNat w bytes.length + ofNat w i =
        a + ofNat w (i - bytes.length) := by
      have hsplit : i = bytes.length + (i - bytes.length) := by omega
      conv_lhs => rw [hsplit, ofNat_add]
      ring
    rw [haddr, h _ (by omega), List.getD_append_right _ _ _ _ (by omega)]

end Stands

/-! ## The stack -/

/-- A stack pointer, and the writes made through it. -/
structure Stack (w : Nat) where
  esp : BitVec w
  writes : List (BitVec w × List UInt8)
deriving DecidableEq, Repr

namespace Stack

/-- Make room for `bytes`, and copy them there. -/
def push (st : Stack w) (bytes : List UInt8) : Stack w :=
  let esp := st.esp - ofNat w bytes.length
  ⟨esp, st.writes ++ [(esp, bytes)]⟩

/-- The memory after the writes. -/
def memory (st : Stack w) (m : Mem w) : Mem w := st.writes.foldl (fun m d => copy m d.1 d.2) m

/-- The byte at `a` was written. -/
def Touches (st : Stack w) (a : BitVec w) : Prop :=
  ∃ d ∈ st.writes, (a - d.1).toNat < d.2.length

/-- The stack began at `base` and holds the list `l` now. -/
structure Image (base : BitVec w) (st : Stack w) (l : List UInt8) : Prop where
  top : st.esp = base - ofNat w l.length
  size : l.length ≤ 2 ^ w
  holds : ∀ m, Stands (st.memory m) st.esp l
  inside : ∀ a, st.Touches a ↔ (a - st.esp).toNat < l.length

variable {base : BitVec w} {st : Stack w} {l r bytes : List UInt8}

theorem image_nil (base : BitVec w) : Image base ⟨base, []⟩ [] where
  top := by simp
  size := by simp
  holds _ i hi := by simp at hi
  inside a := by simp [Touches]

theorem memory_push (m : Mem w) : (st.push bytes).memory m =
    copy (st.memory m) (st.esp - ofNat w bytes.length) bytes := by
  simp only [memory, push, List.foldl_append, List.foldl_cons, List.foldl_nil]

theorem touches_push_iff {a : BitVec w} : (st.push bytes).Touches a ↔
    (a - (st.push bytes).esp).toNat < bytes.length ∨ st.Touches a := by
  simp only [Touches, push, List.mem_append, List.mem_singleton, or_and_right, exists_or,
    exists_eq_left]
  exact or_comm

theorem Image.push (h : Image base st l) (bytes : List UInt8)
    (hlen : bytes.length + l.length ≤ 2 ^ w) : Image base (st.push bytes) (bytes ++ l) where
  top := by
    rw [Stack.push, h.top, List.length_append, ofNat_add]
    ring
  size := by rwa [List.length_append]
  holds m := by
    rw [memory_push]
    exact (h.holds m).copy_below hlen
  inside a := by
    rw [touches_push_iff, h.inside, List.length_append]
    have hback : a - st.esp = a - (st.push bytes).esp - ofNat w bytes.length := by
      rw [Stack.push]
      ring
    have hlt := (a - (st.push bytes).esp).isLt
    by_cases hnew : (a - (st.push bytes).esp).toNat < bytes.length
    · exact iff_of_true (.inl hnew) (by omega)
    · -- above the bytes that are new, the old stack pointer is as far off as before
      have hle : ofNat w bytes.length ≤ a - (st.push bytes).esp := by
        rw [BitVec.le_def, toNat_ofNat]
        exact (Nat.mod_le ..).trans (Nat.le_of_not_lt hnew)
      rw [or_iff_right hnew, hback, BitVec.toNat_sub_of_le hle, toNat_ofNat,
        Nat.mod_eq_of_lt (show bytes.length < 2 ^ w by omega)]
      omega

theorem Image.foldl_push (h : Image base st l) (bs : List (List UInt8))
    (hlen : bs.flatten.length + l.length ≤ 2 ^ w) :
    Image base (bs.foldl Stack.push st) (bs.reverse.flatten ++ l) := by
  induction bs generalizing st l with
  | nil => exact h
  | cons b bs ih =>
    rw [List.flatten_cons, List.length_append] at hlen
    simpa using ih (h.push b (by omega)) (by rw [List.length_append]; omega)

theorem Image.suffix (h : Image base st l) (hr : r <:+ l) (m : Mem w) :
    Stands (st.memory m) (base - ofNat w r.length) r := by
  obtain ⟨p, rfl⟩ := hr
  have hright := (h.holds m).right
  rw [h.top, List.length_append, ofNat_add] at hright
  have haddr : base - (ofNat w p.length + ofNat w r.length) +
      ofNat w p.length = base - ofNat w r.length := by ring
  rwa [haddr] at hright

end Stack

end ByteMemory
