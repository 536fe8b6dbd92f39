import Mathlib.Data.Nat.Digits.Lemmas

/-!
# Blocks of bytes

The memory a program copies to and from: blocks of a fixed number of bytes, read and written in
ranges, and the 32-bit little-endian words laid out in them.

* `Block n` is a block of `n` bytes.  `Block.get` reads a byte by its offset, and `Block.ext_get`
  says that the bytes at offsets below `n` are all there is to a block.
* `Block.read` and `Block.write` copy a range out and in; `get_write` is the one fact about
  `write` the others are derived from.
* `le32` and `ofLe` convert between a word and its four bytes, and `Block.word` reads the word at
  an index.  A word written is read back (`word_write_self`), and no other word moves
  (`word_write_ne`).
-/

namespace Bytes

/-- A block of `n` bytes. -/
def Block (n : Nat) : Type := Fin n → UInt8

namespace Block

variable {n : Nat}

/-- The block all of whose bytes are `v`. -/
def fill (n : Nat) (v : UInt8) : Block n := fun _ => v

/-- The byte at offset `i`, and `0` past the end. -/
def get (b : Block n) (i : Nat) : UInt8 := if h : i < n then b ⟨i, h⟩ else 0

/-- The `size` bytes from offset `ofs` on. -/
def read (b : Block n) (ofs size : Nat) : List UInt8 :=
  (List.range size).map fun i => b.get (ofs + i)

/-- The block with the bytes of `src` copied to offset `ofs`. -/
def write (b : Block n) (ofs : Nat) (src : List UInt8) : Block n := fun i =>
  if ofs ≤ i.val ∧ i.val < ofs + src.length then src.getD (i.val - ofs) 0 else b i

variable {b c : Block n} {i : Nat}

theorem ext_get (h : ∀ i, i < n → b.get i = c.get i) : b = c := by
  funext i
  have hi := h i.val i.isLt
  simpa only [get, i.isLt, dite_true] using hi

theorem get_write (b : Block n) (ofs : Nat) (src : List UInt8) (h : i < n) :
    (b.write ofs src).get i
      = if ofs ≤ i ∧ i < ofs + src.length then src.getD (i - ofs) 0 else b.get i := by
  simp only [get, write, h, dite_true]

@[simp] theorem length_read (b : Block n) (ofs size : Nat) : (b.read ofs size).length = size := by
  simp [read]

theorem getD_read (b : Block n) (ofs size : Nat) (h : i < size) :
    (b.read ofs size).getD i 0 = b.get (ofs + i) := by
  simp [read, h]

variable {ofs size : Nat}

theorem read_congr (h : ∀ i, ofs ≤ i → i < ofs + size → b.get i = c.get i) :
    b.read ofs size = c.read ofs size := by
  simp only [read, List.map_inj_left, List.mem_range]
  intro i hi
  exact h (ofs + i) (by omega) (by omega)

variable {src : List UInt8}

theorem read_write_self (b : Block n) (h : ofs + src.length ≤ n) :
    (b.write ofs src).read ofs src.length = src := by
  refine List.ext_getElem (by simp) fun i h1 h2 => ?_
  rw [length_read] at h1
  have hr := getD_read (b.write ofs src) ofs src.length h1
  rw [get_write b ofs src (by omega), if_pos (by omega)] at hr
  simpa [h1] using hr

theorem read_write_disjoint (b : Block n) {ofs' : Nat} (hn : ofs' + size ≤ n)
    (h : ofs' + size ≤ ofs ∨ ofs + src.length ≤ ofs') :
    (b.write ofs src).read ofs' size = b.read ofs' size := by
  refine read_congr fun i h1 h2 => ?_
  rw [get_write b ofs src (by omega), if_neg (by omega)]

theorem write_full (b c : Block n) (h : src.length = n) : b.write 0 src = c.write 0 src := by
  refine ext_get fun i hi => ?_
  rw [get_write b 0 src hi, get_write c 0 src hi, if_pos (by omega), if_pos (by omega)]

theorem write_read_full (b c : Block n) : c.write 0 (b.read 0 n) = b := by
  refine ext_get fun i hi => ?_
  rw [get_write c 0 _ hi, if_pos (by simpa using hi), getD_read b 0 n (by omega)]
  simp

end Block

/-! ## Little-endian words -/

/-- The four bytes of a 32-bit word, least significant first. -/
def le32 (v : Nat) : List UInt8 :=
  [UInt8.ofNat v, UInt8.ofNat (v / 256), UInt8.ofNat (v / 65536), UInt8.ofNat (v / 16777216)]

/-- The number whose bytes, least significant first, are given. -/
def ofLe (bs : List UInt8) : Nat := Nat.ofDigits 256 (bs.map UInt8.toNat)

@[simp] theorem length_le32 (v : Nat) : (le32 v).length = 4 := rfl

theorem ofLe_le32_mod (v : Nat) : ofLe (le32 v) = v % 2 ^ 32 := by
  simp only [ofLe, le32, List.map_cons, List.map_nil, Nat.ofDigits_cons, Nat.ofDigits_nil,
    UInt8.toNat_ofNat']
  omega

theorem ofLe_le32 {v : Nat} (h : v < 2 ^ 32) : ofLe (le32 v) = v := by
  rw [ofLe_le32_mod, Nat.mod_eq_of_lt h]

namespace Block

variable {n : Nat}

/-- The 32-bit word at index `k`, that is at byte offset `4 * k`. -/
def word (b : Block n) (k : Nat) : Nat := ofLe (b.read (4 * k) 4)

theorem word_write_mod (b : Block n) {k : Nat} (hk : 4 * k + 4 ≤ n) (v : Nat) :
    (b.write (4 * k) (le32 v)).word k = v % 2 ^ 32 := by
  have h : (b.write (4 * k) (le32 v)).read (4 * k) (le32 v).length = le32 v :=
    b.read_write_self (by simpa using hk)
  rw [length_le32] at h
  rw [word, h, ofLe_le32_mod]

theorem word_write_self (b : Block n) {k v : Nat} (hk : 4 * k + 4 ≤ n) (hv : v < 2 ^ 32) :
    (b.write (4 * k) (le32 v)).word k = v := by
  rw [b.word_write_mod hk, Nat.mod_eq_of_lt hv]

theorem word_write_ne (b : Block n) {j k v : Nat} (hj : 4 * j + 4 ≤ n) (h : j ≠ k) :
    (b.write (4 * k) (le32 v)).word j = b.word j := by
  rw [word, word, b.read_write_disjoint hj (by rw [length_le32]; omega)]

end Block

end Bytes
